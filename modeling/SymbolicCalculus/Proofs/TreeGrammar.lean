import SymbolicCalculus.Proofs.ExactIntegers
import SymbolicCalculus.Proofs.ObjectForm

/-!
# The grammar of object forms

Which objects are read as trees: those in which every node down to the last level has a
known type and the members of that type. What is read has no defect, is not deeper than
the limit and is read again from its own object form. Members that a node's type does not
name have no influence, not even on the error.
-/

set_option autoImplicit false

namespace SymbolicCalculus
namespace ObjectForm
open Checked (Fits)

/-! ## The grammar -/

/-- A word as a value: the digits of an integer that fits, or a number that is one. -/
inductive IntegerForm : Json → Prop
  | text {s : String} {i : ℤ} (hs : Decimal.IsNumeral s.toList i) (hi : Fits i) :
      IntegerForm (.str s)
  | number {x : Float} {i : ℤ} (hx : (Decimal.Binary64.ofFloat x).rational? = some (i : ℚ))
      (hi : Fits i) : IntegerForm (.num x)

/-- The objects that a call is given as its arguments: none if there is no array. -/
inductive Arguments : Option Json → List Members → Prop
  | absent : Arguments none []
  | null : Arguments (some .null) []
  | array (given : List Members) : Arguments (some (.arr (given.map .obj))) given

/-- The members of a node at a level, where the root of a tree is at level 1. -/
inductive Node (limit : ℤ) : ℤ → Members → Prop
  | num {level : ℤ} {m : Members} {v : Json} (hlevel : level ≤ limit)
      (htype : Json.lookup "type" m = some (.str "num"))
      (hvalue : Json.lookup "value" m = some v) (hv : IntegerForm v) : Node limit level m
  | sym {level : ℤ} {m : Members} {name : String} (hlevel : level ≤ limit)
      (htype : Json.lookup "type" m = some (.str "sym"))
      (hname : Json.lookup "name" m = some (.str name)) (hne : name ≠ "") : Node limit level m
  | arithmetic {level : ℤ} {m l r : Members} {type : String} (hlevel : level ≤ limit)
      (htype : Json.lookup "type" m = some (.str type))
      (hmem : type ∈ ["add", "sub", "mul", "div"])
      (hleft : Json.lookup "left" m = some (.obj l))
      (hright : Json.lookup "right" m = some (.obj r))
      (hl : Node limit (level + 1) l) (hr : Node limit (level + 1) r) : Node limit level m
  | pow {level : ℤ} {m b e : Members} (hlevel : level ≤ limit)
      (htype : Json.lookup "type" m = some (.str "pow"))
      (hbase : Json.lookup "base" m = some (.obj b))
      (hexp : Json.lookup "exp" m = some (.obj e))
      (hb : Node limit (level + 1) b) (he : Node limit (level + 1) e) : Node limit level m
  | wrapper {level : ℤ} {m x : Members} {type : String} (hlevel : level ≤ limit)
      (htype : Json.lookup "type" m = some (.str type)) (hmem : type ∈ ["neg", "stmt"])
      (hexpr : Json.lookup "expr" m = some (.obj x))
      (hx : Node limit (level + 1) x) : Node limit level m
  | func {level : ℤ} {m : Members} {given : List Members} (f : Function) (hlevel : level ≤ limit)
      (htype : Json.lookup "type" m = some (.str "func"))
      (hname : Json.lookup "name" m = some (.str f.name))
      (hargs : Arguments (Json.lookup "args" m) given) (hlength : given.length = f.arity)
      (h : ∀ a ∈ given, Node limit (level + 1) a) : Node limit level m

theorem Node.level_le {limit level : ℤ} {m : Members} (h : Node limit level m) :
    level ≤ limit := by
  cases h <;> assumption

/-! ## Reading the members of one node -/

section
variable {limit : ℤ} {levels : ℕ} {x : Expr} {m : Members} {type member : String}

theorem textMember_ok_iff {s : String} :
    textMember type member m = .ok s ↔ Json.lookup member m = some (.str s) ∧ s ≠ "" := by
  cases hv : Json.lookup member m with
  | none => simp [textMember, hv]
  | some v =>
    cases v with
    | str s' =>
      rw [textMember_eq_ok hv, Option.some.injEq, Json.str.injEq]
      constructor
      · rintro ⟨hs, rfl⟩
        exact ⟨rfl, hs⟩
      · rintro ⟨rfl, hs⟩
        exact ⟨hs, rfl⟩
    | _ => simp [textMember, hv]

theorem treeMember_ok_iff :
    treeMember (read limit levels) type member m = .ok x ↔
      ∃ inner, Json.lookup member m = some (.obj inner) ∧ read limit levels inner = .ok x := by
  cases hv : Json.lookup member m with
  | none => simp [treeMember, hv]
  | some v => simp only [treeMember_eq_ok hv, ReadsAs, Option.some.injEq]

theorem forall₂_readsAs_iff {items : List Json} {args : List Expr} :
    List.Forall₂ (ReadsAs limit levels) items args ↔
      ∃ given : List Members, items = given.map .obj ∧
        List.Forall₂ (fun g a => read limit levels g = .ok a) given args := by
  constructor
  · intro h
    induction h with
    | nil => exact ⟨[], rfl, .nil⟩
    | cons hv _ ih =>
      obtain ⟨g, rfl, hg⟩ := hv
      obtain ⟨given, rfl, hgiven⟩ := ih
      exact ⟨g :: given, rfl, .cons hg hgiven⟩
  · rintro ⟨given, rfl, h⟩
    rw [List.forall₂_map_left_iff]
    simpa only [readsAs_obj] using h

theorem exists_mem_of_forall₂ {α β : Type} {R : α → β → Prop} {l : List α} {u : List β}
    (h : List.Forall₂ R l u) {a : α} (ha : a ∈ l) : ∃ b ∈ u, R a b := by
  induction h with
  | nil => cases ha
  | cons hab _ ih =>
    rcases List.mem_cons.mp ha with rfl | ha
    · exact ⟨_, List.mem_cons_self, hab⟩
    · obtain ⟨b, hb, h⟩ := ih ha
      exact ⟨b, List.mem_cons_of_mem _ hb, h⟩

theorem exists_forall₂ {α β : Type} {R : α → β → Prop} {l : List α} (h : ∀ a ∈ l, ∃ b, R a b) :
    ∃ u, List.Forall₂ R l u := by
  induction l with
  | nil => exact ⟨[], .nil⟩
  | cons a l ih =>
    obtain ⟨b, hb⟩ := h a List.mem_cons_self
    obtain ⟨u, hu⟩ := ih fun a' ha' => h a' (List.mem_cons_of_mem a ha')
    exact ⟨b :: u, .cons hb hu⟩

theorem argsMember_ok_iff {args : List Expr} :
    argsMember (read limit levels) m = .ok args ↔
      ∃ given, Arguments (Json.lookup "args" m) given ∧
        List.Forall₂ (fun g a => read limit levels g = .ok a) given args := by
  unfold argsMember
  generalize Json.lookup "args" m = v
  constructor
  · intro h
    split at h
    · cases h
      exact ⟨[], .absent, .nil⟩
    · cases h
      exact ⟨[], .null, .nil⟩
    · next items =>
      obtain ⟨given, rfl, hgiven⟩ := forall₂_readsAs_iff.mp (readArgs_eq_ok.mp h)
      exact ⟨given, .array given, hgiven⟩
    · cases h
  · rintro ⟨given, harguments, h⟩
    cases harguments with
    | absent =>
      cases h
      rfl
    | null =>
      cases h
      rfl
    | array => exact readArgs_eq_ok.mpr (forall₂_readsAs_iff.mpr ⟨given, rfl, h⟩)

theorem exists_integerMember_iff :
    (∃ n, integerMember m = .ok n) ↔ ∃ v, Json.lookup "value" m = some v ∧ IntegerForm v := by
  unfold integerMember
  constructor
  · rintro ⟨n, h⟩
    split at h
    · cases h
    · cases h
    · next s hs =>
      split at h
      · next w hw =>
        obtain ⟨i, hi, hfits⟩ := Decimal.toWord?_isSome_iff.mp (by rw [hw]; rfl)
        exact ⟨_, hs, .text hi hfits⟩
      · cases h
    · next y hy =>
      split at h
      · cases h
      · next i hi =>
        split at h
        · next hfits =>
          exact ⟨_, hy, .number (Decimal.Binary64.toInt?_eq_some_iff.mp hi)
            (Decimal.fitsWord_iff.mp hfits)⟩
        · cases h
    · cases h
  · rintro ⟨v, hv, hform⟩
    cases hform with
    | text hs hi =>
      obtain ⟨w, hw⟩ := Option.isSome_iff_exists.mp (Decimal.toWord?_isSome_iff.mpr ⟨_, hs, hi⟩)
      exact ⟨w, by simp [hv, hw]⟩
    | @number y i hx hi =>
      have hx' := Decimal.Binary64.toInt?_eq_some_iff.mpr hx
      exact ⟨.ofInt i, by simp [hv, hx', Decimal.fitsWord_iff.mpr hi]⟩

/-! ## Reading one node -/

theorem NodeType.name_ne_empty (t : NodeType) : t.name ≠ "" := by
  cases t with
  | binary op => cases op <;> decide
  | _ => decide

theorem typeName_of_lookup (t : NodeType) (h : Json.lookup "type" m = some (.str t.name)) :
    typeName m = .ok t.name := by
  simp [typeName, h, NodeType.name_ne_empty]

theorem lookup_of_typeName (h : typeName m = .ok type) :
    Json.lookup "type" m = some (.str type) := by
  unfold typeName at h
  split at h
  · cases h
  · next s hs =>
    split at h
    · cases h
    · cases h
      exact hs
  · cases h

theorem NodeType.name_of_ofName? {t : NodeType} (h : NodeType.ofName? type = some t) :
    t.name = type := by
  simpa using List.find?_some h

theorem exists_type_of_read (h : read limit (levels + 1) m = .ok x) :
    ∃ t : NodeType, Json.lookup "type" m = some (.str t.name) := by
  rw [read, bind_eq_ok] at h
  obtain ⟨type, htype, h⟩ := h
  cases ht : NodeType.ofName? type with
  | none =>
    rw [ht] at h
    cases h
  | some t => exact ⟨t, by rw [lookup_of_typeName htype, NodeType.name_of_ofName? ht]⟩

theorem depth_le_of_read (h : read limit levels m = .ok x) : x.depth ≤ levels := by
  induction levels generalizing m x with
  | zero => cases h
  | succ levels ih =>
    obtain ⟨t, ht⟩ := exists_type_of_read h
    rw [read_of_type (typeName_of_lookup t ht)] at h
    cases t with
    | num =>
      obtain ⟨v, _, h⟩ := bind_eq_ok.mp h
      cases h
      exact Nat.le_add_left 1 levels
    | sym =>
      obtain ⟨name, _, h⟩ := bind_eq_ok.mp h
      cases h
      exact Nat.le_add_left 1 levels
    | binary op =>
      simp only [bind_eq_ok, treeMember_ok_iff, Except.ok.injEq] at h
      obtain ⟨l, ⟨ml, _, hl⟩, r, ⟨mr, _, hr⟩, rfl⟩ := h
      exact Nat.succ_le_succ (Nat.max_le.mpr ⟨ih hl, ih hr⟩)
    | neg =>
      simp only [bind_eq_ok, treeMember_ok_iff, Except.ok.injEq] at h
      obtain ⟨u, ⟨mu, _, hu⟩, rfl⟩ := h
      exact Nat.succ_le_succ (ih hu)
    | stmt =>
      simp only [bind_eq_ok, treeMember_ok_iff, Except.ok.injEq] at h
      obtain ⟨u, ⟨mu, _, hu⟩, rfl⟩ := h
      exact Nat.succ_le_succ (ih hu)
    | func =>
      simp only [bind_eq_ok, argsMember_ok_iff, Except.ok.injEq] at h
      obtain ⟨name, _, args, ⟨given, _, hgiven⟩, rfl⟩ := h
      refine Nat.succ_le_succ (Expr.depthAll_le_iff.mpr fun a ha => ?_)
      obtain ⟨g, _, hg⟩ := exists_mem_of_forall₂ hgiven.flip ha
      exact ih hg

/-! ## Reading follows the grammar -/

theorem wellFormed_call_iff {name : String} {args : List Expr} :
    (Expr.call name args).WellFormed ↔
      ∃ f : Function, f.name = name ∧ args.length = f.arity ∧ ∀ a ∈ args, a.WellFormed := by
  constructor
  · intro h
    cases h with
    | pi => exact ⟨.pi, rfl, rfl, by simp⟩
    | unary f hu => exact ⟨.unary f, rfl, rfl, by simpa using hu⟩
    | pow hb he => exact ⟨.pow, rfl, rfl, by simpa using ⟨hb, he⟩⟩
  · rintro ⟨f, rfl, hlength, h⟩
    cases f with
    | pi =>
      obtain rfl := List.length_eq_zero_iff.mp hlength
      exact .pi
    | unary g =>
      obtain ⟨u, rfl⟩ := List.length_eq_one_iff.mp hlength
      exact .unary g (h u (by simp))
    | pow =>
      obtain ⟨b, e, rfl⟩ := List.length_eq_two.mp hlength
      exact .pow (h b (by simp)) (h e (by simp))

theorem node_of_read {level : ℤ} (hlevels : level + levels = limit + 1)
    (h : read limit levels m = .ok x) (hx : x.WellFormed) : Node limit level m := by
  induction levels generalizing m x level with
  | zero => cases h
  | succ levels ih =>
    have hlevel : level ≤ limit := by omega
    have ih' {m' : Members} {y : Expr} (h : read limit levels m' = .ok y) (hy : y.WellFormed) :
        Node limit (level + 1) m' := ih (by omega) h hy
    obtain ⟨t, ht⟩ := exists_type_of_read h
    rw [read_of_type (typeName_of_lookup t ht)] at h
    cases t with
    | num =>
      obtain ⟨n, hn, _⟩ := bind_eq_ok.mp h
      obtain ⟨v, hvalue, hv⟩ := exists_integerMember_iff.mp ⟨n, hn⟩
      exact .num hlevel ht hvalue hv
    | sym =>
      simp only [bind_eq_ok, textMember_ok_iff] at h
      obtain ⟨name, ⟨hname, hne⟩, _⟩ := h
      exact .sym hlevel ht hname hne
    | binary op =>
      simp only [bind_eq_ok, treeMember_ok_iff, Except.ok.injEq] at h
      obtain ⟨l, ⟨ml, hml, hl⟩, r, ⟨mr, hmr, hr⟩, rfl⟩ := h
      obtain ⟨hlx, hrx⟩ : l.WellFormed ∧ r.WellFormed := by
        cases hx with
        | binary _ hl hr => exact ⟨hl, hr⟩
      cases op with
      | pow => exact .pow hlevel ht hml hmr (ih' hl hlx) (ih' hr hrx)
      | _ => exact .arithmetic hlevel ht (by decide) hml hmr (ih' hl hlx) (ih' hr hrx)
    | neg =>
      simp only [bind_eq_ok, treeMember_ok_iff, Except.ok.injEq] at h
      obtain ⟨u, ⟨mu, hmu, hu⟩, rfl⟩ := h
      cases hx with
      | neg hux => exact .wrapper hlevel ht (by decide) hmu (ih' hu hux)
    | stmt =>
      simp only [bind_eq_ok, treeMember_ok_iff, Except.ok.injEq] at h
      obtain ⟨u, ⟨mu, hmu, hu⟩, rfl⟩ := h
      cases hx with
      | stmt hux => exact .wrapper hlevel ht (by decide) hmu (ih' hu hux)
    | func =>
      simp only [bind_eq_ok, textMember_ok_iff, argsMember_ok_iff, Except.ok.injEq] at h
      obtain ⟨name, ⟨hname, _⟩, args, ⟨given, hargs, hgiven⟩, rfl⟩ := h
      obtain ⟨f, rfl, hlength, hwell⟩ := wellFormed_call_iff.mp hx
      refine .func f hlevel ht hname hargs (hgiven.length_eq.trans hlength) fun g hg => ?_
      obtain ⟨a, ha, hread⟩ := exists_mem_of_forall₂ hgiven hg
      exact ih' hread (hwell a ha)

theorem exists_levels_below {level : ℤ} (hlevel : level ≤ limit)
    (hlevels : level + levels = limit + 1) :
    ∃ below : ℕ, levels = below + 1 ∧ level + 1 + below = limit + 1 :=
  ⟨levels - 1, by omega, by omega⟩

theorem read_of_operands (op : Operator) {ml mr : Members} {l r : Expr}
    (htype : Json.lookup "type" m = some (.str (NodeType.binary op).name))
    (hml : Json.lookup op.leftMember m = some (.obj ml))
    (hmr : Json.lookup op.rightMember m = some (.obj mr))
    (hl : read limit levels ml = .ok l) (hr : read limit levels mr = .ok r) :
    read limit (levels + 1) m = .ok (.binary op l r) := by
  rw [read_of_type (typeName_of_lookup (.binary op) htype)]
  exact bind_eq_ok.mpr ⟨l, treeMember_ok_iff.mpr ⟨ml, hml, hl⟩,
    bind_eq_ok.mpr ⟨r, treeMember_ok_iff.mpr ⟨mr, hmr, hr⟩, rfl⟩⟩

theorem exists_operator_of_arithmetic (hmem : type ∈ ["add", "sub", "mul", "div"]) :
    ∃ op : Operator, type = (NodeType.binary op).name ∧ op.leftMember = "left" ∧
      op.rightMember = "right" := by
  simp only [List.mem_cons, List.not_mem_nil, or_false] at hmem
  rcases hmem with rfl | rfl | rfl | rfl
  · exact ⟨.add, rfl, rfl, rfl⟩
  · exact ⟨.sub, rfl, rfl, rfl⟩
  · exact ⟨.mul, rfl, rfl, rfl⟩
  · exact ⟨.div, rfl, rfl, rfl⟩

theorem exists_read_of_wrapper {mu : Members} {u : Expr}
    (htype : Json.lookup "type" m = some (.str type)) (hmem : type ∈ ["neg", "stmt"])
    (hmu : Json.lookup "expr" m = some (.obj mu)) (hu : read limit levels mu = .ok u)
    (hux : u.WellFormed) : ∃ x, read limit (levels + 1) m = .ok x ∧ x.WellFormed := by
  simp only [List.mem_cons, List.not_mem_nil, or_false] at hmem
  rcases hmem with rfl | rfl
  · refine ⟨.neg u, ?_, .neg hux⟩
    rw [read_of_type (typeName_of_lookup .neg htype)]
    exact bind_eq_ok.mpr ⟨u, treeMember_ok_iff.mpr ⟨mu, hmu, hu⟩, rfl⟩
  · refine ⟨.stmt u, ?_, .stmt hux⟩
    rw [read_of_type (typeName_of_lookup .stmt htype)]
    exact bind_eq_ok.mpr ⟨u, treeMember_ok_iff.mpr ⟨mu, hmu, hu⟩, rfl⟩

theorem Node.exists_read {level : ℤ} (h : Node limit level m)
    (hlevels : level + levels = limit + 1) :
    ∃ x, read limit levels m = .ok x ∧ x.WellFormed := by
  induction h generalizing levels with
  | num hlevel htype hvalue hv =>
    obtain ⟨levels, rfl, _⟩ := exists_levels_below hlevel hlevels
    obtain ⟨n, hn⟩ := exists_integerMember_iff.mpr ⟨_, hvalue, hv⟩
    refine ⟨.num n, ?_, .num n⟩
    rw [read_of_type (typeName_of_lookup .num htype)]
    exact bind_eq_ok.mpr ⟨n, hn, rfl⟩
  | sym hlevel htype hname hne =>
    obtain ⟨levels, rfl, _⟩ := exists_levels_below hlevel hlevels
    refine ⟨.sym _, ?_, .sym hne⟩
    rw [read_of_type (typeName_of_lookup .sym htype)]
    exact bind_eq_ok.mpr ⟨_, textMember_ok_iff.mpr ⟨hname, hne⟩, rfl⟩
  | arithmetic hlevel htype hmem hleft hright _ _ ihl ihr =>
    obtain ⟨levels, rfl, hbelow⟩ := exists_levels_below hlevel hlevels
    obtain ⟨l, hl, hlx⟩ := ihl hbelow
    obtain ⟨r, hr, hrx⟩ := ihr hbelow
    obtain ⟨op, rfl, hopl, hopr⟩ := exists_operator_of_arithmetic hmem
    rw [← hopl] at hleft
    rw [← hopr] at hright
    exact ⟨_, read_of_operands op htype hleft hright hl hr, .binary op hlx hrx⟩
  | pow hlevel htype hbase hexp _ _ ihb ihe =>
    obtain ⟨levels, rfl, hbelow⟩ := exists_levels_below hlevel hlevels
    obtain ⟨b, hb, hbx⟩ := ihb hbelow
    obtain ⟨e, he, hex⟩ := ihe hbelow
    exact ⟨_, read_of_operands .pow htype hbase hexp hb he, .binary .pow hbx hex⟩
  | wrapper hlevel htype hmem hexpr _ ih =>
    obtain ⟨levels, rfl, hbelow⟩ := exists_levels_below hlevel hlevels
    obtain ⟨u, hu, hux⟩ := ih hbelow
    exact exists_read_of_wrapper htype hmem hexpr hu hux
  | func f hlevel htype hname hargs hlength _ ih =>
    obtain ⟨levels, rfl, hbelow⟩ := exists_levels_below hlevel hlevels
    obtain ⟨args, hread⟩ := exists_forall₂ fun g hg => ih g hg hbelow
    have hwell : ∀ a ∈ args, a.WellFormed := by
      intro a ha
      obtain ⟨g, _, hg⟩ := exists_mem_of_forall₂ hread.flip ha
      exact hg.2
    have hname' : f.name ≠ "" := by
      cases f with
      | unary g => exact g.name_ne_empty
      | _ => decide
    refine ⟨.call f.name args, ?_, wellFormed_call_iff.mpr
      ⟨f, rfl, hread.length_eq.symm.trans hlength, hwell⟩⟩
    rw [read_of_type (typeName_of_lookup .func htype)]
    refine bind_eq_ok.mpr ⟨f.name, textMember_ok_iff.mpr ⟨hname, hname'⟩, ?_⟩
    exact bind_eq_ok.mpr
      ⟨args, argsMember_ok_iff.mpr ⟨_, hargs, hread.imp fun _ _ h => h.1⟩, rfl⟩

end

theorem exists_ofMembers_iff {limit : ℤ} {m : Members} :
    (∃ e, Expr.ofMembers limit m = .ok e) ↔ Node limit 1 m := by
  simp only [Expr.ofMembers_eq_ok]
  rcases lt_or_ge limit 0 with hlimit | hlimit
  · have hzero : limit.toNat = 0 := by omega
    rw [hzero]
    constructor
    · rintro ⟨e, h, _⟩
      cases h
    · intro h
      have hlevel : 1 ≤ limit := h.level_le
      omega
  · constructor
    · rintro ⟨e, h, he⟩
      exact node_of_read (by omega) h he
    · intro h
      exact h.exists_read (by omega)

/-! ## Members that are not read -/

def ownMembers : String → List String
  | "num" => ["value"]
  | "sym" => ["name"]
  | "add" | "sub" | "mul" | "div" => ["left", "right"]
  | "pow" => ["base", "exp"]
  | "neg" | "stmt" => ["expr"]
  | "func" => ["name", "args"]
  | _ => []

mutual
/-- Members that agree on the type and on all that a node of that type has. -/
inductive SameNode : Members → Members → Prop
  | intro {m m' : Members} (htype : Json.lookup "type" m = Json.lookup "type" m')
      (hown : ∀ type, Json.lookup "type" m = some (.str type) → ∀ member ∈ ownMembers type,
        SameMember (Json.lookup member m) (Json.lookup member m')) : SameNode m m'
/-- Equal values, two nodes that agree, or two arrays of such. -/
inductive SameMember : Option Json → Option Json → Prop
  | refl (v : Option Json) : SameMember v v
  | node {m m' : Members} (h : SameNode m m') : SameMember (some (.obj m)) (some (.obj m'))
  | array {items items' : List Json} (h : ∀ i : ℕ, SameMember items[i]? items'[i]?) :
      SameMember (some (.arr items)) (some (.arr items'))
end

theorem lookup_insert {name key : String} {v : Json} {front back : Members} (h : key ≠ name) :
    Json.lookup name (front ++ (key, v) :: back) = Json.lookup name (front ++ back) := by
  induction front with
  | nil => cases hback : Json.lookup name back <;> simp [Json.lookup, hback, h]
  | cons p front ih => rw [List.cons_append, Json.lookup, ih, List.cons_append, Json.lookup]

/-- A member that is not the node's own may be added or left out. -/
theorem SameNode.insert {key : String} (v : Json) (front : Members) {back : Members}
    (hkey : key ≠ "type") (hown : ∀ type, Json.lookup "type" (front ++ back) = some (.str type) →
      key ∉ ownMembers type) : SameNode (front ++ back) (front ++ (key, v) :: back) := by
  refine .intro (lookup_insert hkey).symm fun type htype member hmember => ?_
  have hne : key ≠ member := by
    rintro rfl
    exact hown type htype hmember
  rw [lookup_insert hne]
  exact .refl _

section
variable {m m' : Members} {member type : String} {r : Members → Except ShapeError Expr}

theorem textMember_congr (h : SameMember (Json.lookup member m) (Json.lookup member m')) :
    textMember type member m = textMember type member m' := by
  unfold textMember
  generalize Json.lookup member m = v, Json.lookup member m' = v' at h
  cases h <;> rfl

theorem integerMember_congr (h : SameMember (Json.lookup "value" m) (Json.lookup "value" m')) :
    integerMember m = integerMember m' := by
  unfold integerMember
  generalize Json.lookup "value" m = v, Json.lookup "value" m' = v' at h
  cases h <;> rfl

theorem treeMember_congr (hr : ∀ {m m' : Members}, SameNode m m' → r m = r m')
    (h : SameMember (Json.lookup member m) (Json.lookup member m')) :
    treeMember r type member m = treeMember r type member m' := by
  unfold treeMember
  generalize Json.lookup member m = v, Json.lookup member m' = v' at h
  cases h with
  | refl => rfl
  | node h => simp only [hr h]
  | array => rfl

theorem readArgs_congr (hr : ∀ {m m' : Members}, SameNode m m' → r m = r m') {index : ℕ}
    {items items' : List Json} (h : ∀ i : ℕ, SameMember items[i]? items'[i]?) :
    readArgs r index items = readArgs r index items' := by
  induction items generalizing index items' with
  | nil =>
    cases items' with
    | nil => rfl
    | cons v rest => cases h 0
  | cons v rest ih =>
    cases items' with
    | nil => cases h 0
    | cons v' rest' =>
      have hrest : readArgs r (index + 1) rest = readArgs r (index + 1) rest' :=
        ih fun i => h (i + 1)
      have hv : SameMember (some v) (some v') := h 0
      cases hv with
      | refl => cases v <;> simp only [readArgs, hrest]
      | node hnode => simp only [readArgs, hr hnode, hrest]
      | array => rfl

theorem argsMember_congr (hr : ∀ {m m' : Members}, SameNode m m' → r m = r m')
    (h : SameMember (Json.lookup "args" m) (Json.lookup "args" m')) :
    argsMember r m = argsMember r m' := by
  unfold argsMember
  generalize Json.lookup "args" m = v, Json.lookup "args" m' = v' at h
  cases h with
  | refl => rfl
  | node => rfl
  | array h => exact readArgs_congr hr h

end

theorem read_congr {limit : ℤ} {levels : ℕ} {m m' : Members} (h : SameNode m m') :
    read limit levels m = read limit levels m' := by
  induction levels generalizing m m' with
  | zero => rfl
  | succ levels ih =>
    obtain ⟨hsame, hown⟩ := h
    have hsame' : typeName m' = typeName m := by rw [typeName, ← hsame, typeName]
    cases htype : typeName m with
    | error e =>
      rw [read, read, hsame', htype]
      rfl
    | ok type =>
      have hmembers := hown type (lookup_of_typeName htype)
      cases ht : NodeType.ofName? type with
      | none =>
        rw [read, read, hsame', htype]
        simp only [bind, Except.bind, ht]
      | some t =>
        obtain rfl := NodeType.name_of_ofName? ht
        rw [read_of_type htype, read_of_type (hsame'.trans htype)]
        cases t with
        | num => rw [integerMember_congr (hmembers "value" (by decide))]
        | sym => rw [textMember_congr (hmembers "name" (by decide))]
        | binary op =>
          have hoperands : ∀ member ∈ [op.leftMember, op.rightMember],
              SameMember (Json.lookup member m) (Json.lookup member m') := by
            cases op <;> exact hmembers
          simp only [treeMember_congr ih (hoperands op.leftMember (by simp)),
            treeMember_congr ih (hoperands op.rightMember (by simp))]
        | neg => simp only [treeMember_congr ih (hmembers "expr" (by decide))]
        | stmt => simp only [treeMember_congr ih (hmembers "expr" (by decide))]
        | func =>
          simp only [textMember_congr (hmembers "name" (by decide)),
            argsMember_congr ih (hmembers "args" (by decide))]

end ObjectForm

open ObjectForm (Node SameNode)

/-- An object is read as a tree exactly if it keeps to the grammar down to the last level.
The tree has no defect, is not deeper than the limit and is read again from its own object
form. Objects that agree in the members which their nodes have lead to the same tree, or to
the same error. -/
theorem ofMembers_grammar (limit : ℤ) (m : ObjectForm.Members) :
    ((∃ e, Expr.ofMembers limit m = .ok e) ↔ Node limit 1 m) ∧
      (∀ e, Expr.ofMembers limit m = .ok e →
        validate e = .ok () ∧ (e.depth : ℤ) ≤ limit ∧
          ∃ written, e.toJson = .obj written ∧ Expr.ofMembers limit written = .ok e) ∧
      ∀ m', SameNode m m' → Expr.ofMembers limit m = Expr.ofMembers limit m' := by
  refine ⟨ObjectForm.exists_ofMembers_iff, fun e he => ?_, fun m' hm' => ?_⟩
  · obtain ⟨hread, hwell⟩ := Expr.ofMembers_eq_ok.mp he
    have hvalid := validate_eq_ok_iff.mpr hwell
    have hpresent : e ≠ .missing := by
      rintro rfl
      cases hwell
    have hdepth : (e.depth : ℤ) ≤ limit := by
      have hbound := ObjectForm.depth_le_of_read hread
      have hpos := Expr.depth_pos hpresent
      omega
    obtain ⟨written, hwritten⟩ := Expr.exists_members hpresent
    exact ⟨hvalid, hdepth, written, hwritten,
      (Expr.ofMembers_toJson hpresent hwritten).mpr ⟨rfl, hvalid, hdepth⟩⟩
  · rw [Expr.ofMembers, ObjectForm.read_congr hm', Expr.ofMembers]

/-- A power whose arguments are at the last level of two. It stays the same with an operand
that no call has. -/
theorem ofMembers_grammar_power :
    let m : ObjectForm.Members := [("type", .str "func"), ("name", .str "pow"),
      ("args", .arr [.obj [("type", .str "num"), ("value", .str "-9223372036854775808")],
        .obj [("name", .str "x"), ("type", .str "sym")]])]
    Node 2 1 m ∧ ¬ Node 1 1 m ∧
      Expr.ofMembers 2 m = Expr.ofMembers 2 (("left", .null) :: m) := by
  intro m
  obtain ⟨hread, _, hsame⟩ := ofMembers_grammar 2 m
  have htoo_deep := (ofMembers_grammar 1 m).1
  refine ⟨hread.mp ⟨.call "pow" [.num Int64.minValue, .sym "x"], by rfl⟩, ?_, ?_⟩
  · intro h
    obtain ⟨e, he⟩ := htoo_deep.mpr h
    cases he
  · refine hsame _ (.insert .null [] (by decide) fun type htype => ?_)
    cases htype
    decide

end SymbolicCalculus
