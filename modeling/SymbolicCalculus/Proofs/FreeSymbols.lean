import Mathlib.Data.String.Basic
import SymbolicCalculus.Proofs.Independence

/-!
# The variables of a tree

A variable occurs in a tree if it stands at one of its leaves. The list of the variables
of a tree holds exactly those that occur, each once, in the order of their UTF-8 bytes, and
the test for one variable agrees with it. No engine brings a variable in; a substitution
takes one away and brings in those of its value, if there was anything to replace.
-/

set_option autoImplicit false

namespace SymbolicCalculus

/-! ## Byte order -/

namespace Text

def bytes (s : String) : List UInt8 :=
  s.toUTF8.data.toList

theorem bytes_eq (s : String) : bytes s = s.toList.flatMap String.utf8EncodeChar := by
  have hs : s.toByteArray = s.toList.utf8Encode := by
    rw [← String.toByteArray_ofList, String.ofList_toList]
  rw [bytes, String.toUTF8_eq_toByteArray, hs]
  simp [List.utf8Encode]

/-- The encodings of two characters differ in the order of the characters, at a byte that
both have. -/
theorem encode_lt {c d : Char} (h : c < d) (s t : List UInt8) :
    String.utf8EncodeChar c ++ s < String.utf8EncodeChar d ++ t := by
  have hlt : c.val.toNat < d.val.toNat := h
  have hvalid := d.valid
  simp only [UInt32.isValidChar, Nat.isValidChar] at hvalid
  have hbyte (n : ℕ) (hn : n < 256) : (UInt8.ofNat n).toNat = n := by
    rw [UInt8.toNat_ofNat']
    omega
  unfold String.utf8EncodeChar
  generalize c.val.toNat = v at *
  generalize d.val.toNat = w at *
  dsimp only
  split_ifs <;> simp (disch := omega) only [List.cons_append, List.nil_append,
    List.cons_lt_cons_iff, UInt8.lt_iff_toNat_lt, ← UInt8.toNat_inj, hbyte]
  any_goals omega
  -- Both have four bytes: the first of them that differs decides.
  rcases (Nat.div_le_div_right (c := 262144) hlt.le).lt_or_eq with h₁ | h₁
  · exact Or.inl (by omega)
  · refine Or.inr ⟨by omega, ?_⟩
    rcases (Nat.div_le_div_right (c := 4096) hlt.le).lt_or_eq with h₂ | h₂
    · exact Or.inl (by omega)
    · exact Or.inr ⟨by omega, by omega⟩

theorem flatMap_encode_lt {cs ds : List Char} (h : cs < ds) :
    cs.flatMap String.utf8EncodeChar < ds.flatMap String.utf8EncodeChar := by
  induction cs generalizing ds with
  | nil =>
    cases ds with
    | nil => exact absurd h (List.lt_irrefl _)
    | cons d ds =>
      rw [List.flatMap_nil, List.flatMap_cons]
      cases hd : String.utf8EncodeChar d with
      | nil => exact absurd hd String.utf8EncodeChar_ne_nil
      | cons b bs => exact List.nil_lt_cons b _
  | cons c cs ih =>
    cases ds with
    | nil => exact absurd h (List.not_lt_nil _)
    | cons d ds =>
      rw [List.flatMap_cons, List.flatMap_cons]
      rcases List.cons_lt_cons_iff.mp h with hlt | ⟨rfl, hrest⟩
      · exact encode_lt hlt _ _
      · exact List.append_left_lt (ih hrest)

/-- The order of texts by their characters is their order by bytes. -/
theorem bytes_lt {s t : String} (h : s < t) : bytes s < bytes t := by
  rw [bytes_eq, bytes_eq]
  exact flatMap_encode_lt (String.lt_iff.mp h)

end Text

namespace Expr

/-! ## Occurrences -/

def Occurs (x : String) (e : Expr) : Prop :=
  .sym x ∈ e.subtrees

section
variable {x : String}

theorem not_occurs_missing : ¬ Occurs x .missing := by
  simp [Occurs, subtrees]

theorem not_occurs_num {v : Int64} : ¬ Occurs x (.num v) := by
  simp [Occurs, subtrees]

theorem occurs_sym {name : String} : Occurs x (.sym name) ↔ x = name := by
  simp [Occurs, subtrees]

theorem occurs_binary {op : Operator} {l r : Expr} :
    Occurs x (.binary op l r) ↔ Occurs x l ∨ Occurs x r := by
  simp [Occurs, subtrees]

theorem occurs_neg {y : Expr} : Occurs x (.neg y) ↔ Occurs x y := by
  simp [Occurs, subtrees]

theorem occurs_stmt {y : Expr} : Occurs x (.stmt y) ↔ Occurs x y := by
  simp [Occurs, subtrees]

theorem occurs_call {name : String} {args : List Expr} :
    Occurs x (.call name args) ↔ ∃ a ∈ args, Occurs x a := by
  simp [Occurs, subtrees, mem_subtreesAll]

theorem independent_iff {e : Expr} : Independent x e ↔ ¬ Occurs x e := by
  constructor
  · intro h hx
    exact h _ hx rfl
  · rintro h t ht rfl
    exact h ht

theorem anyDependsOn_iff {args : List Expr} :
    anyDependsOn x args = true ↔ ∃ a ∈ args, dependsOn x a = true := by
  induction args with
  | nil => simp [anyDependsOn]
  | cons a as ih => rw [anyDependsOn, Bool.or_eq_true, ih, List.exists_mem_cons_iff]

theorem dependsOn_iff {e : Expr} : dependsOn x e = true ↔ Occurs x e := by
  induction e with
  | missing => simp [dependsOn, not_occurs_missing]
  | num _ => simp [dependsOn, not_occurs_num]
  | sym name => rw [dependsOn, occurs_sym, decide_eq_true_eq, eq_comm]
  | binary op l r ihl ihr => rw [dependsOn, Bool.or_eq_true, ihl, ihr, occurs_binary]
  | neg y ih => rw [dependsOn, ih, occurs_neg]
  | call name args ih =>
    rw [dependsOn, anyDependsOn_iff, occurs_call]
    exact exists_congr fun a => and_congr_right fun ha => ih a ha
  | stmt y ih => rw [dependsOn, ih, occurs_stmt]

end

/-! ## The list of variables -/

theorem mem_insertName {x name : String} {names : List String} :
    x ∈ insertName name names ↔ x = name ∨ x ∈ names := by
  induction names with
  | nil => simp [insertName]
  | cons n ns ih =>
    rw [insertName]
    split_ifs with hlt heq
    · rw [List.mem_cons]
    · rw [heq, List.mem_cons, ← or_assoc, or_self]
    · rw [List.mem_cons, ih, List.mem_cons, or_left_comm]

theorem pairwise_insertName {name : String} {names : List String}
    (h : names.Pairwise (· < ·)) : (insertName name names).Pairwise (· < ·) := by
  induction names with
  | nil => exact List.pairwise_singleton _ _
  | cons n ns ih =>
    obtain ⟨hn, hns⟩ := List.pairwise_cons.mp h
    rw [insertName]
    split_ifs with hlt heq
    · refine List.pairwise_cons.mpr ⟨fun m hm => ?_, h⟩
      rcases List.mem_cons.mp hm with rfl | hm
      · exact hlt
      · exact hlt.trans (hn m hm)
    · exact h
    · refine List.pairwise_cons.mpr ⟨fun m hm => ?_, ih hns⟩
      rcases mem_insertName.mp hm with rfl | hm
      · exact lt_of_le_of_ne (le_of_not_gt hlt) (Ne.symm heq)
      · exact hn m hm

theorem collectNamesAll_eq_foldl {args : List Expr} {acc : List String} :
    collectNamesAll acc args = args.foldl collectNames acc := by
  induction args generalizing acc with
  | nil => rfl
  | cons a as ih => rw [collectNamesAll, ih, List.foldl_cons]

theorem mem_collectNames {x : String} {e : Expr} {acc : List String} :
    x ∈ collectNames acc e ↔ x ∈ acc ∨ Occurs x e := by
  induction e generalizing acc with
  | missing => simp [collectNames, not_occurs_missing]
  | num _ => simp [collectNames, not_occurs_num]
  | sym name => rw [collectNames, mem_insertName, occurs_sym, or_comm]
  | binary op l r ihl ihr => rw [collectNames, ihr, ihl, occurs_binary, or_assoc]
  | neg y ih => rw [collectNames, ih, occurs_neg]
  | call name args ih =>
    rw [collectNames, collectNamesAll_eq_foldl, occurs_call]
    clear name
    induction args generalizing acc with
    | nil => simp
    | cons a as ihas =>
      rw [List.foldl_cons, ihas fun b hb => ih b (by simp [hb]), ih a (by simp), or_assoc,
        List.exists_mem_cons_iff]
  | stmt y ih => rw [collectNames, ih, occurs_stmt]

theorem pairwise_collectNames {e : Expr} {acc : List String} (hacc : acc.Pairwise (· < ·)) :
    (collectNames acc e).Pairwise (· < ·) := by
  induction e generalizing acc with
  | missing => exact hacc
  | num _ => exact hacc
  | sym name => exact pairwise_insertName hacc
  | binary op l r ihl ihr => exact ihr (ihl hacc)
  | neg y ih => exact ih hacc
  | call name args ih =>
    rw [collectNames, collectNamesAll_eq_foldl]
    clear name
    induction args generalizing acc with
    | nil => exact hacc
    | cons a as ihas => exact ihas (fun b hb => ih b (by simp [hb])) (ih a (by simp) hacc)
  | stmt y ih => exact ih hacc

theorem mem_freeSymbols {x : String} {e : Expr} : x ∈ e.freeSymbols ↔ Occurs x e := by
  rw [freeSymbols, mem_collectNames]
  simp

/-! ## Engines -/

theorem freeSymbols_subset {e d : Expr} (h : ∀ x, Independent x e → Independent x d) :
    d.freeSymbols ⊆ e.freeSymbols := by
  intro x hx
  by_contra hnot
  rw [mem_freeSymbols] at hx hnot
  exact independent_iff.mp (h x (independent_iff.mpr hnot)) hx

theorem passes_independent {v x : String} {n : ℕ} {e d : Expr} {done : ℕ}
    (he : Independent x e) (h : passes v done n e = .ok d) : Independent x d := by
  have hP := inherited_independent x
  induction n generalizing e done with
  | zero =>
    cases h
    exact he
  | succ n ih =>
    rw [passes] at h
    split at h
    · cases h
    · next s hs =>
      obtain ⟨r, hr, hreduce⟩ := differentiateSimplify_eq_ok.mp hs
      exact ih (hP.reduce (hP.derive he hr) hreduce) h

theorem substAll_eq_map {v : String} {w : Expr} {args : List Expr} :
    substAll v w args = args.map (subst v w) := by
  induction args with
  | nil => rfl
  | cons a as ih => rw [substAll, ih, List.map_cons]

theorem occurs_subst {x v : String} {w e : Expr} :
    Occurs x (subst v w e) ↔ (Occurs x e ∧ x ≠ v) ∨ (Occurs v e ∧ Occurs x w) := by
  induction e with
  | missing => simp [subst, not_occurs_missing]
  | num _ => simp [subst, not_occurs_num]
  | sym name =>
    rw [subst, occurs_sym, occurs_sym]
    split_ifs with hname
    · subst hname
      simp
    · rw [occurs_sym]
      constructor
      · rintro rfl
        exact Or.inl ⟨rfl, hname⟩
      · rintro (⟨hx, _⟩ | ⟨hv, _⟩)
        · exact hx
        · exact (hname hv.symm).elim
  | binary op l r ihl ihr =>
    rw [subst, occurs_binary, ihl, ihr, occurs_binary, occurs_binary, or_and_right, or_and_right,
      or_or_or_comm]
  | neg y ih => rw [subst, occurs_neg, ih, occurs_neg, occurs_neg]
  | call name args ih =>
    rw [subst, substAll_eq_map, occurs_call, occurs_call, occurs_call]
    constructor
    · rintro ⟨_, hmem, hx⟩
      obtain ⟨a, ha, rfl⟩ := List.mem_map.mp hmem
      rcases (ih a ha).mp hx with ⟨hx, hne⟩ | ⟨hv, hx⟩
      · exact Or.inl ⟨⟨a, ha, hx⟩, hne⟩
      · exact Or.inr ⟨⟨a, ha, hv⟩, hx⟩
    · rintro (⟨⟨a, ha, hx⟩, hne⟩ | ⟨⟨a, ha, hv⟩, hx⟩)
      · exact ⟨_, List.mem_map_of_mem ha, (ih a ha).mpr (Or.inl ⟨hx, hne⟩)⟩
      · exact ⟨_, List.mem_map_of_mem ha, (ih a ha).mpr (Or.inr ⟨hv, hx⟩)⟩
  | stmt y ih => rw [subst, occurs_stmt, ih, occurs_stmt, occurs_stmt]

end Expr

open SymbolicCalculus.Expr (mem_freeSymbols)

theorem substitute_eq_ok {v : String} {w e s : Expr} (h : substitute v w e = .ok s) :
    s = Expr.subst v w e := by
  unfold substitute at h
  split_ifs at h
  obtain ⟨_, _, hs⟩ := bind_eq_ok.mp h
  exact (Except.ok.inj hs).symm

theorem differentiateTimes_eq_ok {v : String} {n : ℤ} {e d : Expr}
    (h : differentiateTimes v n e = .ok d) : passes v 0 n.toNat e = .ok d := by
  unfold differentiateTimes at h
  split_ifs at h
  exact h

/-- The list of the variables of a tree increases strictly in byte order and holds exactly
those that occur; the test for one variable agrees with it. Simplification and derivatives
of every order bring no variable in. A substitution removes its variable and, if there was
anything to replace, brings in the variables of its value. -/
theorem freeSymbols_exact (e : Expr) :
    e.freeSymbols.Pairwise (fun a b => Text.bytes a < Text.bytes b) ∧
    (∀ x, x ∈ e.freeSymbols ↔ .sym x ∈ e.subtrees) ∧
    (∀ x, e.dependsOn x = true ↔ x ∈ e.freeSymbols) ∧
    (∀ s, simplify e = .ok s → s.freeSymbols ⊆ e.freeSymbols) ∧
    (∀ v d, differentiate v e = .ok d → d.freeSymbols ⊆ e.freeSymbols) ∧
    (∀ v n d, differentiateTimes v n e = .ok d → d.freeSymbols ⊆ e.freeSymbols) ∧
    ∀ v w s, substitute v w e = .ok s → ∀ x,
      x ∈ s.freeSymbols ↔
        (x ∈ e.freeSymbols ∧ x ≠ v) ∨ (v ∈ e.freeSymbols ∧ x ∈ w.freeSymbols) := by
  refine ⟨?_, fun x => mem_freeSymbols, fun x => ?_, ?_, ?_, ?_, ?_⟩
  · exact (Expr.pairwise_collectNames .nil).imp Text.bytes_lt
  · rw [Expr.dependsOn_iff, mem_freeSymbols]
  · intro s hs
    exact Expr.freeSymbols_subset fun x hx =>
      (Expr.inherited_independent x).reduce hx (simplify_eq_ok.mp hs)
  · intro v d hd
    exact Expr.freeSymbols_subset fun x hx =>
      (Expr.inherited_independent x).derive hx (differentiate_eq_ok.mp hd)
  · intro v n d hd
    exact Expr.freeSymbols_subset fun x hx =>
      Expr.passes_independent hx (differentiateTimes_eq_ok hd)
  · intro v w s hs x
    obtain rfl := substitute_eq_ok hs
    simp only [mem_freeSymbols]
    exact Expr.occurs_subst

/-- `é*x - z^x` in three variables, the last of them a letter of two bytes: the second
derivative by `x`, and `z` replaced by `sin(y)`. -/
theorem freeSymbols_exact_letters :
    let e : Expr := .sub (.mul (.sym "é") (.sym "x")) (.pow (.sym "z") (.sym "x"))
    e.freeSymbols = ["x", "z", "é"] ∧
      (∃ d, differentiateTimes "x" 2 e = .ok d ∧ d.freeSymbols ⊆ ["x", "z", "é"]) ∧
      ∃ s, substitute "z" (.call "sin" [.sym "y"]) e = .ok s ∧
        "y" ∈ s.freeSymbols ∧ "z" ∉ s.freeSymbols := by
  intro e
  have hnames : e.freeSymbols = ["x", "z", "é"] := by decide
  obtain ⟨-, -, -, -, -, hpasses, hsubst⟩ := freeSymbols_exact e
  have hderivative : ∃ d, differentiateTimes "x" 2 e = .ok d := ⟨_, rfl⟩
  have hreplaced : ∃ s, substitute "z" (.call "sin" [.sym "y"]) e = .ok s := ⟨_, rfl⟩
  obtain ⟨d, hd⟩ := hderivative
  obtain ⟨s, hs⟩ := hreplaced
  have hiff := hsubst "z" _ s hs
  refine ⟨hnames, ⟨d, hd, hnames ▸ hpasses "x" 2 d hd⟩, s, hs, ?_, ?_⟩
  · exact (hiff "y").mpr (Or.inr ⟨by decide, by decide⟩)
  · rw [hiff]
    decide

end SymbolicCalculus
