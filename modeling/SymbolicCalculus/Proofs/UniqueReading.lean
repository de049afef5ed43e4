import SymbolicCalculus.CommandLine.Run
import SymbolicCalculus.Proofs.TreeReader
import SymbolicCalculus.Tool.Call

/-!
# The rendering of a tree is unambiguous

The reader takes the rendering of a tree back to the tree, whatever stands behind it, as long as
that cannot be taken for more of the tree. What is said of a node is said for every reader that
reads its operands, and the whole tree follows by induction. Two trees with the same rendering
are therefore equal, and so are the trees told in the same report, output or response.
-/

set_option autoImplicit false

namespace SymbolicCalculus
open Text

namespace Expr

/-! ## Reading one node -/

theorem closeStatements_of_ne {e : Expr} {c : Char} (h : c ≠ ';') (u : List Char) :
    closeStatements e (c :: u) = (e, c :: u) := by
  unfold closeStatements
  split
  · next heq => exact (h (List.cons.inj heq).1).elim
  · rfl

section
variable {read : TreeReader} {e l r x : Expr} {u : List Char}

def Reads (read : TreeReader) (e : Expr) : Prop :=
  ∀ u, Ended u → read (chars e ++ u) = some (closeStatements e u)

theorem Reads.front (h : Reads read e) {c : Char} (hc : c ∈ closers) (hne : c ≠ ';')
    (u : List Char) : read (chars e ++ c :: u) = some (e, c :: u) := by
  rw [h _ (ended_cons hc), closeStatements_of_ne hne]

theorem readNode_letter {c : Char} (h : isLetter c = true) (s : List Char) :
    readNode read (c :: s) = readNamed read (c :: s) := by
  have hmark : c ≠ '<' := ne_of_test h (by decide)
  have hbracket : c ≠ '(' := ne_of_test h (by decide)
  rw [readNode, if_neg hmark, if_neg hbracket, if_pos h]

theorem readNode_numeral {c : Char} (h : isNumeral c = true) (s : List Char) :
    readNode read (c :: s) = readNumber (c :: s) := by
  have hmark : c ≠ '<' := ne_of_test h (by decide)
  have hbracket : c ≠ '(' := ne_of_test h (by decide)
  rw [readNode, if_neg hmark, if_neg hbracket, isLetter_of_isNumeral h, if_neg (by simp)]

theorem readNode_missing (u : List Char) :
    readNode read (chars .missing ++ u) = some (.missing, u) := by
  rw [chars_missing]
  rfl

theorem readNode_num (v : Int64) (hu : Ended u) :
    readNode read (chars (.num v) ++ u) = some (.num v, u) := by
  obtain ⟨htake, hdrop⟩ := span_front (isNumeral_of_mem_num (v := v)) (hu.not_head (by decide))
  have hword : Decimal.toWord? (String.ofList (chars (.num v))) = some v := by
    rw [chars, String.ofList_toList]
    exact Decimal.toWord?_ofInt v
  have hnumber : readNumber (chars (.num v) ++ u) = some (.num v, u) := by
    rw [readNumber, htake, hdrop, hword]
    rfl
  obtain ⟨c, s, hv, hc⟩ := exists_numeral v
  rw [← hnumber, hv, List.cons_append, readNode_numeral hc]

theorem readNode_name {name : String} (hname : isIdentifier name = true) {u : List Char}
    (hu : ∀ c ∈ u.head?, isNameChar c = false) :
    readNode read (name.toList ++ u) = readBehindName read name u := by
  obtain ⟨c, cs, hcs, hc, hall⟩ := exists_identifier hname
  rw [← hcs] at hall
  obtain ⟨htake, hdrop⟩ := span_front hall hu
  have hnode : readNode read (name.toList ++ u) = readNamed read (name.toList ++ u) := by
    rw [hcs, List.cons_append, readNode_letter hc]
  rw [hnode, readNamed, htake, hdrop, String.ofList_toList]

theorem readNode_sym {name : String} (hname : isIdentifier name = true) (hu : Ended u) :
    readNode read (chars (.sym name) ++ u) = some (.sym name, u) := by
  rw [chars_sym, readNode_name hname (hu.not_head (by decide))]
  unfold readBehindName
  split
  · next s => exact absurd (hu '(' (by simp)) (by decide)
  · rfl

theorem readNode_neg (hx : Reads read x) (u : List Char) :
    readNode read (chars (.neg x) ++ u) = some (.neg x, u) := by
  have hoperand : read (chars x ++ ')' :: u) = some (x, ')' :: u) :=
    hx.front (by decide) (by decide) u
  rw [chars_neg]
  simp [readNode, readNegation, hoperand]

theorem readNode_binary (op : Operator) (hl : Reads read l) (hr : Reads read r) (u : List Char)
    (hneg : ∀ s, readNegation read (chars l ++ ' ' :: s) = none) :
    readNode read (chars (.binary op l r) ++ u) = some (.binary op l r, u) := by
  obtain ⟨c, hsymbol, hop⟩ := exists_ofChar? op
  have hleft (s : List Char) : read (chars l ++ ' ' :: s) = some (l, ' ' :: s) :=
    hl.front (by decide) (by decide) s
  have hright : read (chars r ++ ')' :: u) = some (r, ')' :: u) :=
    hr.front (by decide) (by decide) u
  rw [chars_binary, hsymbol]
  simp [readNode, readOperation, hneg, hleft, hright, hop]

theorem readArgs_chars {args : List Expr} (hne : args ≠ []) (hargs : ∀ a ∈ args, Reads read a)
    {n : ℕ} (hn : args.length ≤ n) (u : List Char) :
    readArgs read n (argChars args ++ ')' :: u) = some (args, u) := by
  induction args generalizing n with
  | nil => exact (hne rfl).elim
  | cons a rest ih =>
    obtain ⟨n, rfl⟩ := Nat.exists_eq_succ_of_ne_zero (n := n) (by rintro rfl; simp at hn)
    have ha : Reads read a := hargs a (by simp)
    cases rest with
    | nil =>
      have hread : read (chars a ++ ')' :: u) = some (a, ')' :: u) :=
        ha.front (by decide) (by decide) u
      rw [argChars_single, readArgs, hread]
      rfl
    | cons b rest =>
      have hrest := ih (by simp) (fun x hx => hargs x (by simp [hx])) (n := n)
        (by simpa using hn)
      have hread (s : List Char) : read (chars a ++ ',' :: s) = some (a, ',' :: s) :=
        ha.front (by decide) (by decide) s
      rw [argChars_cons, List.append_assoc, List.cons_append, List.cons_append, readArgs, hread]
      simp [hrest]

theorem length_le_argChars (args : List Expr) : args.length ≤ (argChars args).length + 1 := by
  induction args with
  | nil => simp
  | cons a rest ih =>
    cases rest with
    | nil => simp
    | cons b rest =>
      rw [argChars_cons]
      simp only [List.length_cons, List.length_append] at ih ⊢
      omega

theorem readArgList_chars {args : List Expr} (hnames : ∀ a ∈ args, WellNamed a)
    (hargs : ∀ a ∈ args, Reads read a) (u : List Char) :
    readArgList read (argChars args ++ ')' :: u) = some (args, u) := by
  cases args with
  | nil => rfl
  | cons a rest =>
    have hlength := length_le_argChars (a :: rest)
    have hcount : (a :: rest).length ≤ (argChars (a :: rest) ++ ')' :: u).length := by
      rw [List.length_append, List.length_cons (a := ')')]
      omega
    have hread := readArgs_chars (by simp) hargs hcount u
    obtain ⟨c, s, hchars, hc⟩ := exists_opener (hnames a (by simp))
    have hopener : ∃ t, argChars (a :: rest) = c :: t := by
      cases rest with
      | nil => exact ⟨s, hchars⟩
      | cons b rest => exact ⟨_, by rw [argChars_cons, hchars, List.cons_append]⟩
    obtain ⟨t, ht⟩ := hopener
    unfold readArgList
    split
    · next heq =>
      rw [ht, List.cons_append, List.cons.injEq] at heq
      rw [heq.1] at hc
      exact absurd hc (by decide)
    · exact hread

theorem readNode_call {name : String} {args : List Expr} (h : WellNamed (.call name args))
    (hargs : ∀ a ∈ args, Reads read a) (u : List Char) :
    readNode read (chars (.call name args) ++ u) = some (.call name args, u) := by
  obtain ⟨hname, hnames⟩ := wellNamed_call.mp h
  have hlist : readArgList read (argChars args ++ ')' :: u) = some (args, u) :=
    readArgList_chars hnames hargs u
  rw [chars_call, List.append_assoc, readNode_name hname (by simp; decide)]
  simp [readBehindName, hlist]

end

/-! ## Negations and negative operands -/

def Spaced (u : List Char) : Prop :=
  ∀ e, ∃ s, (closeStatements e u).2 = ' ' :: s

theorem spaced_blank (s : List Char) : Spaced (' ' :: s) :=
  fun _ => ⟨s, rfl⟩

theorem Spaced.semicolon {u : List Char} (h : Spaced u) : Spaced (';' :: u) :=
  fun e => h (.stmt e)

theorem Spaced.ended {u : List Char} (h : Spaced u) : Ended u := by
  obtain ⟨s, hs⟩ := h .missing
  cases u with
  | nil => exact ended_nil
  | cons c u =>
    by_cases hc : c = ';'
    · subst hc
      exact ended_cons (by decide)
    · rw [closeStatements_of_ne hc, List.cons.injEq] at hs
      exact ended_cons (by rw [hs.1]; decide)

/-- Digits with a blank behind them are no operand that a bracket closes. -/
theorem readTree_digits (n m : ℕ) {u : List Char} (hu : Spaced u) (x : Expr) (s : List Char) :
    readTree n (Nat.toDigits 10 m ++ u) ≠ some (x, ')' :: s) := by
  cases n with
  | zero => simp [readTree]
  | succ n =>
    obtain ⟨htake, hdrop⟩ :=
      span_front (isNumeral_of_mem_digits (n := m)) (hu.ended.not_head (by decide))
    have hnode : readNode (readTree n) (Nat.toDigits 10 m ++ u) =
        readNumber (Nat.toDigits 10 m ++ u) := by
      obtain ⟨c, t, hm, hc⟩ := exists_digit m
      rw [hm, List.cons_append, readNode_numeral (by simp [isNumeral, hc])]
    rw [readTree, hnode, readNumber, htake, hdrop, Option.map_map]
    intro h
    obtain ⟨v, _, hv⟩ := Option.map_eq_some_iff.mp h
    obtain ⟨t, ht⟩ := hu (.num v)
    have hrest : ')' :: s = ' ' :: t := by
      rw [← ht]
      exact (congrArg Prod.snd hv).symm
    exact absurd (List.cons.inj hrest).1 (by decide)

section
variable {read : TreeReader} {s : List Char}

theorem readNegation_of_ne {c : Char} (h : c ≠ '-') : readNegation read (c :: s) = none := by
  unfold readNegation
  split
  · next heq => exact (h (List.cons.inj heq).1).elim
  · rfl

theorem readNegation_minus (h : ∀ x rest, read s ≠ some (x, ')' :: rest)) :
    readNegation read ('-' :: s) = none := by
  rw [readNegation]
  split
  · next x rest hread => exact (h x rest hread).elim
  · rfl

end

/-- What begins an operator node is not taken for a negation. -/
theorem readNegation_left (n : ℕ) {e : Expr} (h : e.WellNamed) {u : List Char} (hu : Spaced u) :
    readNegation (readTree n) (chars e ++ u) = none := by
  induction e generalizing u with
  | missing =>
    rw [chars_missing]
    exact readNegation_of_ne (by decide)
  | num v =>
    rw [chars_num]
    by_cases hv : v.toInt < 0
    · rw [if_pos hv, List.append_assoc]
      exact readNegation_minus (readTree_digits n _ hu)
    · obtain ⟨c, t, hdigits, hc⟩ := exists_digit v.toInt.natAbs
      rw [if_neg hv, List.nil_append, hdigits]
      exact readNegation_of_ne (ne_of_test hc (by decide))
  | sym name =>
    obtain ⟨c, cs, hname, hc, _⟩ := exists_identifier (wellNamed_sym.mp h)
    rw [chars_sym, hname]
    exact readNegation_of_ne (ne_of_test hc (by decide))
  | binary op l r _ _ =>
    rw [chars_binary]
    exact readNegation_of_ne (by decide)
  | neg x _ =>
    rw [chars_neg]
    exact readNegation_of_ne (by decide)
  | call name args _ =>
    obtain ⟨c, cs, hname, hc, _⟩ := exists_identifier (wellNamed_call.mp h).1
    rw [chars_call, hname]
    exact readNegation_of_ne (ne_of_test hc (by decide))
  | stmt x ih =>
    rw [chars_stmt, List.append_assoc]
    exact ih (wellNamed_stmt.mp h) hu.semicolon

/-! ## Reading whole trees -/

theorem chars_length_le_argChars {args : List Expr} {a : Expr} (h : a ∈ args) :
    (chars a).length ≤ (argChars args).length := by
  induction args with
  | nil => cases h
  | cons b rest ih =>
    cases rest with
    | nil =>
      obtain rfl := List.mem_singleton.mp h
      exact le_refl _
    | cons c rest =>
      rw [argChars_cons, List.length_append]
      rcases List.mem_cons.mp h with rfl | h
      · omega
      · have hrest := ih h
        simp only [List.length_cons]
        omega

theorem reads_of_readNode {e : Expr} (h : e.WellNamed) {n : ℕ} (hn : (chars e).length ≤ n)
    (hnode : ∀ m, (chars e).length ≤ m + 1 → ∀ u, Ended u →
      readNode (readTree m) (chars e ++ u) = some (e, u)) : Reads (readTree n) e := by
  intro u hu
  cases n with
  | zero =>
    obtain ⟨c, s, hchars, _⟩ := exists_opener h
    simp [hchars] at hn
  | succ m =>
    rw [readTree, hnode m hn u hu]
    rfl

/-- With as many levels as the text has characters, the reader takes back what was rendered. -/
theorem reads_readTree {e : Expr} (h : e.WellNamed) {n : ℕ} (hn : (chars e).length ≤ n) :
    Reads (readTree n) e := by
  induction e generalizing n with
  | missing => exact reads_of_readNode h hn fun m _ u _ => readNode_missing u
  | num v => exact reads_of_readNode h hn fun m _ u hu => readNode_num v hu
  | sym name =>
    exact reads_of_readNode h hn fun m _ u hu => readNode_sym (wellNamed_sym.mp h) hu
  | binary op l r ihl ihr =>
    obtain ⟨hl, hr⟩ := wellNamed_binary.mp h
    refine reads_of_readNode h hn fun m hm u _ => ?_
    rw [chars_binary] at hm
    simp only [List.length_cons, List.length_append] at hm
    exact readNode_binary op (ihl hl (by omega)) (ihr hr (by omega)) u fun s =>
      readNegation_left m hl (spaced_blank s)
  | neg x ih =>
    refine reads_of_readNode h hn fun m hm u _ => ?_
    rw [chars_neg] at hm
    simp only [List.length_cons, List.length_append] at hm
    exact readNode_neg (ih (wellNamed_neg.mp h) (by omega)) u
  | call name args ih =>
    refine reads_of_readNode h hn fun m hm u _ => ?_
    rw [chars_call] at hm
    simp only [List.length_cons, List.length_append] at hm
    refine readNode_call h (fun a ha => ih a ha ((wellNamed_call.mp h).2 a ha) ?_) u
    have hlength := chars_length_le_argChars ha
    omega
  | stmt x ih =>
    -- The semicolon is the first of those that the operand finds behind itself.
    intro u hu
    rw [chars_stmt, List.length_append] at hn
    rw [chars_stmt, List.append_assoc]
    exact ih (wellNamed_stmt.mp h) (by omega) _ (ended_cons (by decide))

theorem ofRendering?_render {e : Expr} (h : e.WellNamed) : ofRendering? e.render = some e := by
  have hread : readTree e.render.length e.render.toList = some (e, []) := by
    have hchars := reads_readTree h (le_refl _) [] ended_nil
    rwa [List.append_nil] at hchars
  rw [ofRendering?, hread]

theorem eq_of_render_eq {a b : Expr} (ha : a.WellNamed) (hb : b.WellNamed)
    (h : a.render = b.render) : a = b := by
  have hread := ofRendering?_render ha
  rw [h, ofRendering?_render hb] at hread
  exact (Option.some.inj hread).symm

/-! ## Texts that hold a rendering -/

theorem isMissing_iff {e : Expr} : e.isMissing = true ↔ e = .missing := by
  cases e <;> simp [isMissing]

def mention (before after : String) (e : Expr) : String :=
  if e.isMissing then "" else before ++ e.render ++ after

theorem eq_of_mention_eq {before after : String} (hbefore : before ≠ "") {a b : Expr}
    (ha : a.WellNamed) (hb : b.WellNamed) (h : mention before after a = mention before after b) :
    a = b := by
  unfold mention at h
  split_ifs at h with hma hmb hmb
  · rw [isMissing_iff.mp hma, isMissing_iff.mp hmb]
  · have hempty := String.append_eq_empty_iff.mp h.symm
    exact (hbefore (String.append_eq_empty_iff.mp hempty.1).1).elim
  · have hempty := String.append_eq_empty_iff.mp h
    exact (hbefore (String.append_eq_empty_iff.mp hempty.1).1).elim
  · rw [String.append_left_inj, String.append_right_inj] at h
    exact eq_of_render_eq ha hb h

end Expr

theorem Fault.message_eq (f : Fault) :
    f.message =
      (f.kind.title ++ if f.cause.detail = "" then "" else ": " ++ f.cause.detail) ++
        f.subject.mention " in " "" := by
  by_cases h : f.subject.isMissing = true
  · simp only [Fault.message, Expr.mention, h, if_true, String.append_empty]
  · simp only [Fault.message, Expr.mention, if_neg h, String.append_empty, String.append_assoc]

theorem CommandLine.Failure.report_eq (f : Failure) :
    f.report =
      (match f.kind? with
        | some kind => "Error [" ++ kind.name ++ "]: "
        | none => "Error: ") ++ f.message ++ "\n" ++ f.subject.mention "  at: " "\n" :=
  rfl

/-- A rendering determines its tree: trees whose names are identifiers, operands missing or
not, are equal if their renderings are. So the tree can be told from the text of a fault with a
known cause, from a report of a known kind and message, from plain output and from the text in
the response of a tool. -/
theorem render_unambiguous (a b : Expr) (ha : a.WellNamed) (hb : b.WellNamed) :
    (a.render = b.render → a.same b = true) ∧
      (∀ cause, (Fault.mk cause a).message = (Fault.mk cause b).message → a.same b = true) ∧
      (∀ f g : CommandLine.Failure, f.subject = a → g.subject = b → f.kind? = g.kind? →
        f.message = g.message → f.report = g.report → a.same b = true) ∧
      (∀ session : CommandLine.Session, session.asJson = false →
        CommandLine.treeText session a = CommandLine.treeText session b → a.same b = true) ∧
      ((ToolResponse.ofAnswer (.tree a)).string = (ToolResponse.ofAnswer (.tree b)).string →
        a.same b = true) := by
  simp only [Expr.same_iff_eq]
  refine ⟨Expr.eq_of_render_eq ha hb, ?_, ?_, ?_, Expr.eq_of_render_eq ha hb⟩
  · intro cause h
    rw [Fault.message_eq, Fault.message_eq] at h
    exact Expr.eq_of_mention_eq (by decide) ha hb ((String.append_right_inj _).mp h)
  · rintro f g rfl rfl hkind hmessage h
    rw [CommandLine.Failure.report_eq, CommandLine.Failure.report_eq, hkind, hmessage,
      String.append_right_inj] at h
    exact Expr.eq_of_mention_eq (by decide) ha hb h
  · intro session hplain h
    simp only [CommandLine.treeText, hplain, Bool.false_eq_true, if_false, Except.ok.injEq,
      String.append_left_inj] at h
    exact Expr.eq_of_render_eq ha hb h

/-- A negation and an operator node with a negative integer on its left begin alike, and yet
their renderings differ; the same negation made by substitution is rendered the same. -/
theorem render_unambiguous_minus :
    let a : Expr := .neg (.stmt (.num 5))
    let b : Expr := .sub (.stmt (.num (-5))) .missing
    let c : Expr := .subst "y_1" (.num 5) (.neg (.stmt (.sym "y_1")))
    (a.WellNamed ∧ b.WellNamed ∧ c.WellNamed) ∧ b.render = "(-5; - <nil>)" ∧
      a.render ≠ b.render ∧ a.render = "(-5;)" ∧ a.render = c.render ∧ a.same c = true := by
  intro a b c
  have ha : a.WellNamed := by decide
  have hb : b.WellNamed := by decide
  have hc : c.WellNamed := by decide
  have hsame : a.render = c.render := by decide
  refine ⟨⟨ha, hb, hc⟩, by decide, fun h => ?_, by decide, hsame, ?_⟩
  · exact absurd ((render_unambiguous a b ha hb).1 h) (by decide)
  · exact (render_unambiguous a c ha hc).1 hsame

end SymbolicCalculus
