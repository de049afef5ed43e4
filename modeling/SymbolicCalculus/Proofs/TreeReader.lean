import SymbolicCalculus.Expr.Render
import SymbolicCalculus.Proofs.DecimalText
import SymbolicCalculus.Proofs.Independence

/-!
# A reader for renderings

Names have to be identifiers; operands may be missing. Two places need a decision. A semicolon
belongs to what stands before it, so all of them are collected behind a node. An opening
bracket with a minus begins a negation or an operator node whose left operand is a negative
integer, and only the character behind the first operand tells which. The reader tries the
negation first. What it can meet is described here: the characters with which the text of a
tree begins, those of which numbers and names consist, and those that may follow.
-/

set_option autoImplicit false

namespace SymbolicCalculus

/-! ## Names -/

namespace Text

/-- A letter or an underscore. Beyond ASCII no character is told from a letter, since none of
them has another use in a rendering. -/
def isLetter (c : Char) : Bool :=
  let n := c.toNat
  ('A'.toNat ≤ n && n ≤ 'Z'.toNat) || ('a'.toNat ≤ n && n ≤ 'z'.toNat) || c = '_' || 127 < n

def isNameChar (c : Char) : Bool :=
  isLetter c || c.isDigit

/-- A letter, and then letters and digits. -/
def isIdentifier (s : String) : Bool :=
  match s.toList with
  | [] => false
  | c :: cs => isLetter c && cs.all isNameChar

end Text

open Text

def Operator.ofChar? : Char → Option Operator
  | '+' => some .add
  | '-' => some .sub
  | '*' => some .mul
  | '/' => some .div
  | '^' => some .pow
  | _ => none

namespace Expr

def isNamed : Expr → Bool
  | .sym name | .call name _ => isIdentifier name
  | _ => true

def WellNamed (e : Expr) : Prop :=
  Throughout (fun t => t.isNamed = true) e

instance (e : Expr) : Decidable e.WellNamed :=
  inferInstanceAs (Decidable (Throughout (fun t => t.isNamed = true) e))

/-! ## The reader -/

abbrev TreeReader := List Char → Option (Expr × List Char)

/-- Each semicolon makes a statement of what stands before it. -/
def closeStatements (e : Expr) : List Char → Expr × List Char
  | ';' :: s => closeStatements (.stmt e) s
  | s => (e, s)

def readMissing : TreeReader
  | '<' :: 'n' :: 'i' :: 'l' :: '>' :: s => some (.missing, s)
  | _ => none

def isNumeral (c : Char) : Bool :=
  c.isDigit || c = '-'

def readNumber (s : List Char) : Option (Expr × List Char) :=
  (Decimal.toWord? (String.ofList (s.takeWhile isNumeral))).map fun v =>
    (.num v, s.dropWhile isNumeral)

section
variable (read : TreeReader)

def readNegation : TreeReader
  | '-' :: s =>
    match read s with
    | some (x, ')' :: rest) => some (.neg x, rest)
    | _ => none
  | _ => none

def readOperation (s : List Char) : Option (Expr × List Char) :=
  match read s with
  | some (l, ' ' :: c :: ' ' :: s) =>
    match Operator.ofChar? c, read s with
    | some op, some (r, ')' :: rest) => some (.binary op l r, rest)
    | _, _ => none
  | _ => none

def readArgs : ℕ → List Char → Option (List Expr × List Char)
  | 0, _ => none
  | n + 1, s =>
    match read s with
    | some (a, ')' :: rest) => some ([a], rest)
    | some (a, ',' :: ' ' :: s) => (readArgs n s).map fun (as, rest) => (a :: as, rest)
    | _ => none

def readArgList : List Char → Option (List Expr × List Char)
  | ')' :: rest => some ([], rest)
  | s => readArgs read s.length s

/-- A name is a variable unless a bracket follows. -/
def readBehindName (name : String) : TreeReader
  | '(' :: s => (readArgList read s).map fun (args, rest) => (.call name args, rest)
  | rest => some (.sym name, rest)

def readNamed (s : List Char) : Option (Expr × List Char) :=
  readBehindName read (String.ofList (s.takeWhile isNameChar)) (s.dropWhile isNameChar)

def readNode : TreeReader
  | [] => none
  | c :: s =>
    if c = '<' then readMissing (c :: s)
    else if c = '(' then (readNegation read s).or (readOperation read s)
    else if isLetter c then readNamed read (c :: s)
    else readNumber (c :: s)

end

def readTree : ℕ → TreeReader
  | 0, _ => none
  | n + 1, s => (readNode (readTree n) s).map fun (e, rest) => closeStatements e rest

def ofRendering? (s : String) : Option Expr :=
  match readTree s.length s.toList with
  | some (e, []) => some e
  | _ => none

/-! ## Characters -/

theorem ne_of_test {p : Char → Bool} {c d : Char} (hc : p c = true) (hd : p d = false) :
    c ≠ d := by
  rintro rfl
  rw [hc] at hd
  cases hd

theorem isLetter_of_isDigit {c : Char} (h : c.isDigit = true) : isLetter c = false := by
  have hcode : c.toNat ≤ 57 := (Char.isDigit_iff_toNat.mp h).2
  have hupper : ¬ 'A'.toNat ≤ c.toNat := fun hle => absurd (hle.trans hcode) (by decide)
  have hlower : ¬ 'a'.toNat ≤ c.toNat := fun hle => absurd (hle.trans hcode) (by decide)
  have hbeyond : ¬ 127 < c.toNat := by omega
  have hunderscore : c ≠ '_' := ne_of_test h (by decide)
  simp only [isLetter, hupper, hlower, hbeyond, hunderscore, decide_false, Bool.false_and,
    Bool.or_false]

theorem isLetter_of_isNumeral {c : Char} (h : isNumeral c = true) : isLetter c = false := by
  simp only [isNumeral, Bool.or_eq_true, decide_eq_true_eq] at h
  rcases h with h | rfl
  · exact isLetter_of_isDigit h
  · decide

def closers : List Char := [';', ' ', ',', ')']

/-- Nothing follows, or a character that is part of no tree before it. -/
def Ended (u : List Char) : Prop :=
  ∀ c ∈ u.head?, c ∈ closers

theorem ended_nil : Ended [] := by
  simp [Ended]

theorem ended_cons {c : Char} {u : List Char} (h : c ∈ closers) : Ended (c :: u) := by
  simpa [Ended] using h

theorem Ended.not_head {p : Char → Bool} {u : List Char} (h : Ended u)
    (hp : closers.any p = false) : ∀ c ∈ u.head?, p c = false := by
  intro c hc
  simpa using List.any_eq_false.mp hp c (h c hc)

theorem span_front {p : Char → Bool} {t u : List Char} (ht : ∀ c ∈ t, p c = true)
    (hu : ∀ c ∈ u.head?, p c = false) :
    (t ++ u).takeWhile p = t ∧ (t ++ u).dropWhile p = u := by
  rw [List.takeWhile_append_of_pos ht, List.dropWhile_append_of_pos ht]
  cases u with
  | nil => simp
  | cons c u => simp [hu c (by simp)]

/-! ## The text of a tree -/

def chars (e : Expr) : List Char :=
  e.render.toList

def argChars (args : List Expr) : List Char :=
  (renderArgs args).toList

theorem chars_missing : chars .missing = ['<', 'n', 'i', 'l', '>'] := by
  change "<nil>".toList = _
  simp

theorem chars_sym (name : String) : chars (.sym name) = name.toList := rfl

theorem chars_binary (op : Operator) (l r : Expr) :
    chars (.binary op l r) =
      '(' :: (chars l ++ ' ' :: (op.symbol.toList ++ ' ' :: (chars r ++ [')']))) := by
  change ("(" ++ render l ++ " " ++ op.symbol ++ " " ++ render r ++ ")").toList = _
  simp [chars]

theorem chars_neg (x : Expr) : chars (.neg x) = '(' :: '-' :: (chars x ++ [')']) := by
  change ("(-" ++ render x ++ ")").toList = _
  simp [chars]

theorem chars_call (name : String) (args : List Expr) :
    chars (.call name args) = name.toList ++ '(' :: (argChars args ++ [')']) := by
  change (name ++ "(" ++ renderArgs args ++ ")").toList = _
  simp [argChars]

theorem chars_stmt (x : Expr) : chars (.stmt x) = chars x ++ [';'] := by
  change (render x ++ ";").toList = _
  simp [chars]

theorem argChars_single (a : Expr) : argChars [a] = chars a := rfl

theorem argChars_cons (a b : Expr) (rest : List Expr) :
    argChars (a :: b :: rest) = chars a ++ ',' :: ' ' :: argChars (b :: rest) := by
  change (render a ++ ", " ++ renderArgs (b :: rest)).toList = _
  simp [chars, argChars]

theorem exists_ofChar? (op : Operator) :
    ∃ c, op.symbol.toList = [c] ∧ Operator.ofChar? c = some op := by
  cases op <;> exact ⟨_, rfl, rfl⟩

theorem chars_num (v : Int64) :
    chars (.num v) = (if v.toInt < 0 then ['-'] else []) ++ Nat.toDigits 10 v.toInt.natAbs := by
  change (Decimal.ofInt v.toInt).toList = _
  rw [Decimal.ofInt]
  split_ifs
  · simp [Decimal.ofNat]
  · simp [Decimal.ofNat]

theorem isNumeral_of_mem_digits {n : ℕ} : ∀ c ∈ Nat.toDigits 10 n, isNumeral c = true := by
  intro c hc
  simp [isNumeral, Decimal.isDigit_of_mem_toDigits c hc]

theorem exists_digit (n : ℕ) : ∃ c s, Nat.toDigits 10 n = c :: s ∧ c.isDigit = true := by
  cases hn : Nat.toDigits 10 n with
  | nil => exact (Nat.toDigits_ne_nil hn).elim
  | cons c s => exact ⟨c, s, rfl, Decimal.isDigit_of_mem_toDigits (n := n) c (by simp [hn])⟩

theorem isNumeral_of_mem_num {v : Int64} : ∀ c ∈ chars (.num v), isNumeral c = true := by
  intro c hc
  rw [chars_num, List.mem_append] at hc
  rcases hc with hc | hc
  · split_ifs at hc
    · obtain rfl := List.mem_singleton.mp hc
      decide
    · cases hc
  · exact isNumeral_of_mem_digits c hc

theorem exists_numeral (v : Int64) : ∃ c s, chars (.num v) = c :: s ∧ isNumeral c = true := by
  cases hv : chars (.num v) with
  | nil =>
    rw [chars_num, List.append_eq_nil_iff] at hv
    exact (Nat.toDigits_ne_nil hv.2).elim
  | cons c s => exact ⟨c, s, rfl, isNumeral_of_mem_num (v := v) c (by simp [hv])⟩

theorem exists_identifier {name : String} (h : isIdentifier name = true) :
    ∃ c cs, name.toList = c :: cs ∧ isLetter c = true ∧ ∀ d ∈ c :: cs, isNameChar d = true := by
  unfold isIdentifier at h
  split at h
  · cases h
  · next c cs hname =>
    simp only [Bool.and_eq_true, List.all_eq_true] at h
    refine ⟨c, cs, hname, h.1, fun d hd => ?_⟩
    rcases List.mem_cons.mp hd with rfl | hd
    · simp [isNameChar, h.1]
    · exact h.2 d hd

section
variable {l r x : Expr} {op : Operator} {name : String} {args : List Expr}

theorem wellNamed_sym : WellNamed (.sym name) ↔ isIdentifier name = true := by
  simp [WellNamed, Throughout, subtrees, isNamed]

theorem wellNamed_binary : WellNamed (.binary op l r) ↔ WellNamed l ∧ WellNamed r := by
  simp [WellNamed, throughout_binary, isNamed]

theorem wellNamed_neg : WellNamed (.neg x) ↔ WellNamed x := by
  simp [WellNamed, throughout_neg, isNamed]

theorem wellNamed_stmt : WellNamed (.stmt x) ↔ WellNamed x := by
  simp [WellNamed, throughout_stmt, isNamed]

theorem wellNamed_call :
    WellNamed (.call name args) ↔ isIdentifier name = true ∧ ∀ a ∈ args, WellNamed a := by
  simp [WellNamed, throughout_call, isNamed]

end

/-- How a text begins: with the mark of a missing operand, a bracket, a number or a name. -/
def isOpener (c : Char) : Bool :=
  c = '<' || c = '(' || isNumeral c || isLetter c

theorem exists_opener {e : Expr} (h : e.WellNamed) :
    ∃ c s, chars e = c :: s ∧ isOpener c = true := by
  induction e with
  | missing => exact ⟨_, _, chars_missing, by decide⟩
  | num v =>
    obtain ⟨c, s, hv, hc⟩ := exists_numeral v
    exact ⟨c, s, hv, by simp [isOpener, hc]⟩
  | sym name =>
    obtain ⟨c, cs, hname, hc, _⟩ := exists_identifier (wellNamed_sym.mp h)
    exact ⟨c, cs, hname, by simp [isOpener, hc]⟩
  | binary op l r _ _ => exact ⟨_, _, chars_binary op l r, by decide⟩
  | neg x _ => exact ⟨_, _, chars_neg x, by decide⟩
  | call name args _ =>
    obtain ⟨c, cs, hname, hc, _⟩ := exists_identifier (wellNamed_call.mp h).1
    refine ⟨c, cs ++ '(' :: (argChars args ++ [')']), ?_, by simp [isOpener, hc]⟩
    rw [chars_call, hname, List.cons_append]
  | stmt x ih =>
    obtain ⟨c, s, hx, hc⟩ := ih (wellNamed_stmt.mp h)
    exact ⟨c, s ++ [';'], by rw [chars_stmt, hx, List.cons_append], hc⟩

end Expr

end SymbolicCalculus
