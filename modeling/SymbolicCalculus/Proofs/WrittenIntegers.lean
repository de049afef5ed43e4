import SymbolicCalculus.Proofs.JsonGrammar
import SymbolicCalculus.Proofs.NearestDouble
import SymbolicCalculus.Proofs.ObjectForm

/-!
# Written integers

An integer constant is read from an object that holds its digits, as a string or as a
number. The digits of a string are taken as they stand. A number is turned into a double
first, so that another integer may be read than the one that was written.
-/

set_option autoImplicit false

namespace SymbolicCalculus

namespace Json

/-! ## Whole numbers in JSON -/

instance (ds : List Char) : Decidable (Digits ds) :=
  decidable_of_iff (ds ≠ [] ∧ ds.all Char.isDigit = true) (by rw [List.all_eq_true]; rfl)

theorem wholeText_iff {ds : List Char} :
    WholeText ds ↔ ds = ['0'] ∨ (Digits ds ∧ ds.head? ≠ some '0') := by
  constructor
  · intro h
    cases h with
    | zero => exact Or.inl rfl
    | digits hc hne hcs =>
      exact Or.inr ⟨⟨by simp, by simpa using ⟨hc, hcs⟩⟩, by simpa using hne⟩
  · rintro (rfl | ⟨⟨hnil, hds⟩, hhead⟩)
    · exact .zero
    · cases ds with
      | nil => exact (hnil rfl).elim
      | cons c cs =>
        exact .digits (hds c (by simp)) (by simpa using hhead) fun d hd => hds d (by simp [hd])

instance (ds : List Char) : Decidable (WholeText ds) :=
  decidable_of_iff _ wholeText_iff.symm

theorem ne_of_isDigit {c d : Char} (hc : c.isDigit = true) (hd : d.isDigit = false) : c ≠ d := by
  rintro rfl
  rw [hc] at hd
  cases hd

theorem isSpace_digit {c : Char} (hc : c.isDigit = true) : ¬ isSpace c = true := by
  simp [isSpace, ne_of_isDigit hc]

theorem escapedChar_digit {c : Char} (hc : c.isDigit = true) : escapedChar c = [c] := by
  unfold escapedChar
  split
  case h_13 =>
    have hlow : '0'.toNat ≤ c.toNat := (Char.isDigit_iff_toNat.mp hc).1
    exact if_neg (not_lt.mpr (le_trans (by decide) hlow))
  all_goals exact absurd hc (by decide)

section
variable {stack : List Frame} {c : Char} {rest : List Char}

theorem step_value_digit (hc : c.isDigit = true) {n : Numeral} {phase : NumeralPhase}
    (h : firstDigit c = some (n, phase)) :
    Reader.step ⟨stack, .value⟩ c = .going ⟨stack, .numeral n phase⟩ := by
  show beginValue ⟨stack, .value⟩ c = _
  unfold beginValue
  rw [if_neg (isSpace_digit hc)]
  split
  case h_7 => rw [h]
  all_goals exact absurd hc (by decide)

theorem scan_first (negative : Bool) (hc : c.isDigit = true) {n : Numeral} {phase : NumeralPhase}
    (h : (Numeral.ofParts negative [] [] false []).extend .sign c = some (n, phase)) :
    scan ⟨stack, .value⟩ (signText negative ++ c :: rest) =
      scan ⟨stack, .numeral n phase⟩ rest := by
  cases negative with
  | false =>
    have hfirst : firstDigit c = some (n, phase) := by
      rw [← h]
      exact if_neg (ne_of_isDigit hc rfl)
    exact scan_going (step_value_digit hc hfirst)
  | true =>
    have hminus : Reader.step ⟨stack, .value⟩ '-' =
        .going ⟨stack, .numeral (.ofParts true [] [] false []) .sign⟩ := rfl
    exact (scan_going hminus).trans (scan_going (by simp only [Reader.step, h]))

theorem scan_digits (negative : Bool) (whole : List Char) {ds : List Char}
    (hds : ∀ d ∈ ds, d.isDigit = true) :
    scan ⟨stack, .numeral (.ofParts negative whole [] false []) .whole⟩ (ds ++ rest) =
      scan ⟨stack, .numeral (.ofParts negative (whole ++ ds) [] false []) .whole⟩ rest := by
  induction ds generalizing whole with
  | nil => simp
  | cons d ds ih =>
    have hstep : Reader.step ⟨stack, .numeral (.ofParts negative whole [] false []) .whole⟩ d =
        .going ⟨stack, .numeral (.ofParts negative (whole ++ [d]) [] false []) .whole⟩ := by
      rw [← pushDigit_ofParts]
      simp only [Reader.step, Numeral.extend, hds d (by simp), if_true]
    rw [List.cons_append, scan_going hstep, ih _ fun e he => hds e (by simp [he]),
      List.append_assoc, List.singleton_append]

theorem scan_wholeText (negative : Bool) {ds : List Char} (h : WholeText ds) :
    ∃ phase, (phase = .zero ∨ phase = .whole) ∧
      scan ⟨stack, .value⟩ (signText negative ++ ds ++ rest) =
        scan ⟨stack, .numeral (.ofParts negative ds [] false []) phase⟩ rest := by
  rw [List.append_assoc]
  cases h with
  | zero => exact ⟨.zero, Or.inl rfl, scan_first negative rfl rfl⟩
  | @digits c cs hc hne hcs =>
    have hfirst : (Numeral.ofParts negative [] [] false []).extend .sign c =
        some (.ofParts negative [c] [] false [], .whole) := by
      rw [← List.nil_append [c], ← pushDigit_ofParts]
      simp only [Numeral.extend, hne, if_false, hc, if_true]
    refine ⟨.whole, Or.inr rfl, ?_⟩
    rw [List.cons_append, scan_first negative hc hfirst, scan_digits negative [c] hcs,
      List.singleton_append]

theorem exists_leading_zero {ds : List Char} (h : Digits ds) (hw : ¬ WholeText ds) :
    ∃ d tail, ds = '0' :: d :: tail ∧ d.isDigit = true := by
  rw [wholeText_iff, not_or, not_and, not_not] at hw
  have hhead := hw.2 h
  match ds with
  | [] => cases hhead
  | [c] =>
    cases hhead
    exact (hw.1 rfl).elim
  | c :: d :: tail =>
    cases hhead
    exact ⟨d, tail, rfl, h.2 d (by simp)⟩

/-- A digit behind a leading zero is neither part of the number nor fit to follow it. -/
theorem step_after_zero (members : List (String × Json)) (key : String) (n : Numeral)
    (hc : c.isDigit = true) :
    Reader.step ⟨.member members key :: stack, .numeral n .zero⟩ c = .malformed := by
  have hextend : n.extend .zero c = none := by
    simp [Numeral.extend, ne_of_isDigit hc]
  have hseparate : separate ⟨.object ((key, .num n.value) :: members) :: stack, .separator⟩ c =
      .malformed := by
    unfold separate
    rw [if_neg (isSpace_digit hc)]
    split
    case h_5 => rfl
    all_goals exact absurd hc (by decide)
  simp only [Reader.step, hextend, NumeralPhase.mayEnd, if_true]
  exact hseparate

end

end Json

/-! ## Integers as they are written -/

open Checked (Fits)
open Decimal (Binary64 StandsFor nearestDouble nearestWhole)
open Float.Model.UnpackedFloat (Sign)

/-- Decimal digits with or without a minus before them. -/
structure WrittenInteger where
  negative : Bool
  digits : List Char
  decimal : Json.Digits digits

def constantText (value : String) : String :=
  "\x7b\"type\":\"num\",\"value\":" ++ value ++ "\x7d"

def constantMembers (v : Json) : ObjectForm.Members :=
  [("type", .str "num"), ("value", v)]

theorem toList_constantText (value : String) :
    (constantText value).toList =
      '\x7b' :: (Json.stringChars "type" ++ ':' :: (Json.stringChars "num" ++
        ',' :: (Json.stringChars "value" ++ ':' :: (value.toList ++ ['\x7d'])))) := by
  have hfront : "\x7b\"type\":\"num\",\"value\":".toList =
      '\x7b' :: (Json.stringChars "type" ++ ':' :: (Json.stringChars "num" ++
        ',' :: (Json.stringChars "value" ++ [':']))) := by decide
  have hback : "\x7d".toList = ['\x7d'] := by decide
  have hparts (a b c : String) : (a ++ b ++ c).toList = a.toList ++ b.toList ++ c.toList := by
    rw [String.toList_append, String.toList_append]
  refine (hparts _ value _).trans ?_
  rw [hfront, hback]
  simp

theorem scan_constantText (value : String) :
    Json.scan .start (constantText value).toList =
      Json.scan ⟨[.member [("type", .str "num")] "value"], .value⟩ (value.toList ++ ['\x7d']) := by
  have hopen : Json.Reader.start.step '\x7b' = .going ⟨[.object []], .firstKey⟩ := rfl
  have hcomma : Json.Reader.step ⟨[.object [("type", .str "num")]], .separator⟩ ',' =
      .going ⟨[.object [("type", .str "num")]], .key⟩ := rfl
  rw [toList_constantText, Json.scan_going hopen, Json.scan_key [] (Or.inl rfl) [] "type",
    Json.scan_string, Json.place_member, Json.resume, Json.scan_going hcomma,
    Json.scan_key [] (Or.inr rfl)]

theorem scan_constant_end (v : Json) :
    Json.scan ⟨[.object [("value", v), ("type", .str "num")]], .separator⟩ ['\x7d'] =
      .value (.obj (constantMembers v)) [] := rfl

theorem lookup_constant (v : Json) : Json.lookup "value" (constantMembers v) = some v := rfl

theorem ofMembers_constant (v : Json) :
    Expr.ofMembers defaultDepth (constantMembers v) =
      match ObjectForm.integerMember (constantMembers v) with
      | .ok i => .ok (.num i)
      | .error e => .error (.shape e) := by
  have htype : ObjectForm.typeName (constantMembers v) = .ok NodeType.num.name := rfl
  have hread := @ObjectForm.read_of_type defaultDepth 511 (constantMembers v) .num htype
  rw [Expr.ofMembers, show defaultDepth.toNat = 511 + 1 from rfl, hread]
  cases ObjectForm.integerMember (constantMembers v) with
  | ok i => rfl
  | error e => rfl

theorem natAbs_lt_of_word {i : ℤ} (h : i.natAbs ≤ 2 ^ 63) : i.natAbs < 2 ^ 1024 :=
  h.trans_lt (pow_lt_pow_right₀ one_lt_two (by decide))

namespace WrittenInteger
variable (w : WrittenInteger)

def text : String :=
  String.ofList (Json.signText w.negative ++ w.digits)

def magnitude : ℕ :=
  Nat.ofDigitChars 10 w.digits 0

def sign : Sign :=
  if w.negative then .negative else .positive

def value : ℤ :=
  if w.negative then -(w.magnitude : ℤ) else w.magnitude

def double : Float :=
  (Json.Numeral.ofParts w.negative w.digits [] false []).value

def asNumber : String :=
  constantText w.text

def asString : String :=
  constantText ("\"" ++ w.text ++ "\"")

/-! ### Strings -/

theorem toInt?_text : Decimal.toInt? w.text = some w.value := by
  obtain ⟨hne, hds⟩ := w.decimal
  rw [Decimal.toInt?_eq_some_iff, text, String.toList_ofList, value]
  cases w.negative with
  | false => exact .plain hne hds
  | true => exact .minus hne hds

theorem stringChars_text : Json.stringChars w.text = ("\"" ++ w.text ++ "\"").toList := by
  have hchar : ∀ c ∈ w.text.toList, Json.escapedChar c = [c] := by
    intro c hc
    rw [text, String.toList_ofList, List.mem_append] at hc
    rcases hc with hc | hc
    · have hminus : c = '-' := by
        revert hc
        cases w.negative <;> simp [Json.signText]
      rw [hminus]
      rfl
    · exact Json.escapedChar_digit (w.decimal.2 c hc)
  have hplain : w.text.toList.flatMap Json.escapedChar = w.text.toList :=
    (List.flatMap_congr hchar).trans (List.flatMap_singleton' _)
  have hquote : "\"".toList = ['"'] := by decide
  rw [Json.stringChars, hplain, String.toList_append, String.toList_append, hquote]
  rfl

theorem parse_asString :
    Json.parse? w.asString.toList = some (.obj (constantMembers (.str w.text))) := by
  unfold Json.parse? asString
  rw [scan_constantText, ← stringChars_text, Json.scan_string, Json.place_member, Json.resume,
    scan_constant_end]
  rfl

theorem ofText_asString :
    Expr.ofText defaultDepth w.asString =
      if Fits w.value then .ok (.num (.ofInt w.value))
      else .error (.shape (.badNumeral w.text)) := by
  have hmember : ObjectForm.integerMember (constantMembers (.str w.text)) =
      if Fits w.value then .ok (.ofInt w.value) else .error (.badNumeral w.text) := by
    have hword : Decimal.toWord? w.text = Checked.word? w.value := by
      simp only [Decimal.toWord?, toInt?_text, Checked.word?, Decimal.fitsWord_iff]
    simp only [ObjectForm.integerMember, lookup_constant, hword, Checked.word?]
    split_ifs <;> rfl
  have hjson : Expr.ofText defaultDepth w.asString =
      Expr.ofMembers defaultDepth (constantMembers (.str w.text)) := by
    simp only [Expr.ofText, parse_asString]
    rfl
  rw [hjson, ofMembers_constant, hmember]
  split_ifs <;> rfl

/-! ### Numbers -/

theorem parse_asNumber (h : Json.WholeText w.digits) :
    Json.parse? w.asNumber.toList = some (.obj (constantMembers (.num w.double))) := by
  obtain ⟨phase, hphase, hscan⟩ := @Json.scan_wholeText
    [.member [("type", .str "num")] "value"] ['\x7d'] w.negative w.digits h
  unfold Json.parse? asNumber
  rw [scan_constantText, text, String.toList_ofList, hscan]
  rcases hphase with rfl | rfl <;> rfl

theorem parse_leading_zero (h : ¬ Json.WholeText w.digits) :
    Json.parse? w.asNumber.toList = none := by
  obtain ⟨d, tail, hdigits, hd⟩ := Json.exists_leading_zero w.decimal h
  have hfirst : (Json.Numeral.ofParts w.negative [] [] false []).extend .sign '0' =
      some (.ofParts w.negative [] [] false [], .zero) := rfl
  unfold Json.parse? asNumber
  rw [scan_constantText, text, String.toList_ofList, hdigits, List.append_assoc,
    List.cons_append, List.cons_append, Json.scan_first w.negative rfl hfirst,
    Json.scan_malformed (Json.step_after_zero _ _ _ hd)]

theorem ofText_leading_zero (h : ¬ Json.WholeText w.digits) :
    Expr.ofText defaultDepth w.asNumber = .error .malformed := by
  simp only [Expr.ofText, w.parse_leading_zero h]

theorem double_standsFor :
    StandsFor w.sign (nearestWhole w.magnitude) w.double.toModel.unpack := by
  have hnearest := Decimal.nearestFloat_standsFor w.magnitude
  have hdouble : w.double = if w.negative then -(Decimal.nearestFloat w.magnitude 0)
      else Decimal.nearestFloat w.magnitude 0 := by
    simp [double, Json.Numeral.value, Json.Numeral.ofParts, magnitude]
  rw [hdouble, sign]
  cases w.negative with
  | false => exact hnearest
  | true => exact hnearest.neg

theorem nearestDouble_value :
    nearestDouble w.value = w.sign.apply (nearestWhole w.magnitude) := by
  have hvalue : w.value = w.sign.apply w.magnitude := by
    unfold value sign
    cases w.negative <;> rfl
  rw [hvalue, Decimal.nearestDouble_apply]

theorem natAbs_nearestDouble_value :
    (nearestDouble w.value).natAbs = nearestWhole w.magnitude := by
  have habs : w.value.natAbs = w.magnitude := by
    unfold value
    split_ifs <;> omega
  rw [Decimal.natAbs_nearestDouble, habs]

theorem toInt?_double (h : (nearestDouble w.value).natAbs < 2 ^ 1024) :
    (Binary64.ofFloat w.double).toInt? = some (nearestDouble w.value) := by
  rw [natAbs_nearestDouble_value] at h
  rw [w.double_standsFor.toInt? h, nearestDouble_value]

theorem ofText_asNumber (h : Json.WholeText w.digits) :
    Expr.ofText defaultDepth w.asNumber =
      if Fits (nearestDouble w.value) then .ok (.num (.ofInt (nearestDouble w.value)))
      else if (nearestDouble w.value).natAbs < 2 ^ 1024 then .error (.shape (.tooLarge w.double))
      else .error .malformed := by
  have hfinite := w.double_standsFor.isFinite
  rw [← natAbs_nearestDouble_value] at hfinite
  have hjson : Expr.ofText defaultDepth w.asNumber =
      if w.double.isFinite then Expr.ofMembers defaultDepth (constantMembers (.num w.double))
      else .error .malformed := by
    simp only [Expr.ofText, w.parse_asNumber h, Expr.ofJson, constantMembers, Json.membersFinite,
      Json.isFinite, Bool.true_and, Bool.and_true]
  by_cases hrange : (nearestDouble w.value).natAbs < 2 ^ 1024
  · have hmember : ObjectForm.integerMember (constantMembers (.num w.double)) =
        if Fits (nearestDouble w.value) then .ok (.ofInt (nearestDouble w.value))
        else .error (.tooLarge w.double) := by
      simp only [ObjectForm.integerMember, lookup_constant, w.toInt?_double hrange,
        Decimal.fitsWord_iff]
    rw [hjson, hfinite, decide_eq_true hrange, if_pos rfl, ofMembers_constant, hmember,
      if_pos hrange]
    split_ifs <;> rfl
  · have hbeyond : ¬ Fits (nearestDouble w.value) := by
      rintro ⟨hlow, hhigh⟩
      exact hrange (natAbs_lt_of_word (by omega))
    rw [hjson, hfinite, decide_eq_false hrange, if_neg hbeyond, if_neg hrange]
    rfl

end WrittenInteger

/-! ## What is read exactly -/

/-- A text is read as the constant `k`, and refused where no word holds `k`. -/
def DecodesExactly (text : String) (k : ℤ) : Prop :=
  if Fits k then Expr.ofText defaultDepth text = .ok (.num (.ofInt k))
  else ∃ e, Expr.ofText defaultDepth text = .error e

theorem ofInt_inj {i j : ℤ} (hi : Fits i) (hj : Fits j) (h : Int64.ofInt i = Int64.ofInt j) :
    i = j := by
  rw [← Int64.toInt_ofInt_of_le hi.1 hi.2, h, Int64.toInt_ofInt_of_le hj.1 hj.2]

/-- A number is read exactly if it is a double, and where no word holds it also if the
double is not held either. -/
theorem WrittenInteger.decodesExactly_asNumber (w : WrittenInteger)
    (h : Json.WholeText w.digits) :
    DecodesExactly w.asNumber w.value ↔
      if Fits w.value then nearestDouble w.value = w.value
      else ¬ Fits (nearestDouble w.value) := by
  unfold DecodesExactly
  rw [w.ofText_asNumber h]
  by_cases hk : Fits w.value
  · rw [if_pos hk, if_pos hk]
    constructor
    · intro hread
      by_cases hv : Fits (nearestDouble w.value)
      · rw [if_pos hv, Except.ok.injEq, Expr.num.injEq] at hread
        exact ofInt_inj hv hk hread
      · rw [if_neg hv] at hread
        split_ifs at hread
    · intro heq
      rw [heq, if_pos hk]
  · rw [if_neg hk, if_neg hk]
    constructor
    · rintro ⟨e, hread⟩ hv
      rw [if_pos hv] at hread
      cases hread
    · intro hv
      rw [if_neg hv]
      split_ifs <;> exact ⟨_, rfl⟩

/-- In a string every integer is read exactly, and refused where no word holds it. As a
number it becomes the nearest double first: digits behind a leading zero are no number; the
constant is the integer of the double, if a word holds that one; a double beyond is refused,
and so is a number beyond all doubles. No integer of a double is nearer, and up to `2^53`
every integer is one. So a number is read exactly if it is the integer of a double, or if
neither it nor that of its double is held by a word, and in no other case. -/
theorem integers_decoded (w : WrittenInteger) :
    (Expr.ofText defaultDepth w.asString =
      if Fits w.value then .ok (.num (.ofInt w.value))
      else .error (.shape (.badNumeral w.text))) ∧
    (¬ Json.WholeText w.digits → Expr.ofText defaultDepth w.asNumber = .error .malformed) ∧
    (Json.WholeText w.digits → Expr.ofText defaultDepth w.asNumber =
      if Fits (nearestDouble w.value) then .ok (.num (.ofInt (nearestDouble w.value)))
      else if (nearestDouble w.value).natAbs < 2 ^ 1024 then .error (.shape (.tooLarge w.double))
      else .error .malformed) ∧
    ((nearestDouble w.value).natAbs < 2 ^ 1024 →
      (Binary64.ofFloat w.double).toInt? = some (nearestDouble w.value)) ∧
    (∀ (x : Float) (i : ℤ), (Binary64.ofFloat x).toInt? = some i →
      |w.value - nearestDouble w.value| ≤ |w.value - i|) ∧
    (w.value.natAbs ≤ 2 ^ 53 → nearestDouble w.value = w.value) ∧
    DecodesExactly w.asString w.value ∧
    (Json.WholeText w.digits → (DecodesExactly w.asNumber w.value ↔
      if Fits w.value then nearestDouble w.value = w.value
      else ¬ Fits (nearestDouble w.value))) := by
  refine ⟨w.ofText_asString, w.ofText_leading_zero, w.ofText_asNumber, w.toInt?_double,
    fun x i hx => Decimal.nearestDouble_nearest w.value hx, Decimal.nearestDouble_of_le, ?_,
    w.decodesExactly_asNumber⟩
  unfold DecodesExactly
  rw [w.ofText_asString]
  split_ifs with hk
  · rfl
  · exact ⟨_, rfl⟩

theorem integers_decoded_seven :
    Expr.ofText defaultDepth "\x7b\"type\":\"num\",\"value\":-7\x7d" = .ok (.num (-7)) ∧
    Expr.ofText defaultDepth "\x7b\"type\":\"num\",\"value\":\"-7\"\x7d" = .ok (.num (-7)) ∧
    Expr.ofText defaultDepth "\x7b\"type\":\"num\",\"value\":-07\x7d" = .error .malformed := by
  let w : WrittenInteger := ⟨true, ['7'], by decide⟩
  let padded : WrittenInteger := ⟨true, ['0', '7'], by decide⟩
  obtain ⟨hstring, -, hnumber, -, -, hexact, -, -⟩ := integers_decoded w
  have hpadded := (integers_decoded padded).2.1 (by decide)
  have hseven : w.value = -7 := by decide
  refine ⟨(hnumber (by decide)).trans ?_, hstring.trans ?_, hpadded⟩
  · rw [hexact (by decide), hseven]
    rfl
  · rw [hseven]
    rfl

/-- The integer after `2^53` is read as the one before it, the greatest word is refused, and
the integer before the least word is read as that word. -/
theorem number_read_as_another :
    Expr.ofText defaultDepth "\x7b\"type\":\"num\",\"value\":9007199254740993\x7d" =
      .ok (.num 9007199254740992) ∧
    (∃ x, Expr.ofText defaultDepth "\x7b\"type\":\"num\",\"value\":9223372036854775807\x7d" =
      .error (.shape (.tooLarge x))) ∧
    Expr.ofText defaultDepth "\x7b\"type\":\"num\",\"value\":-9223372036854775809\x7d" =
      .ok (.num (-9223372036854775808)) := by
  let odd : WrittenInteger := ⟨false, "9007199254740993".toList, by decide⟩
  let greatest : WrittenInteger := ⟨false, "9223372036854775807".toList, by decide⟩
  let below : WrittenInteger := ⟨true, "9223372036854775809".toList, by decide⟩
  have hodd : nearestDouble odd.value = 9007199254740992 := by decide
  have hgreatest : nearestDouble greatest.value = 9223372036854775808 := by decide
  have hbelow : nearestDouble below.value = -9223372036854775808 := by decide
  refine ⟨(odd.ofText_asNumber (by decide)).trans ?_,
    ⟨greatest.double, (greatest.ofText_asNumber (by decide)).trans ?_⟩,
    (below.ofText_asNumber (by decide)).trans ?_⟩
  · rw [hodd]
    rfl
  · rw [hgreatest, if_neg (by decide), if_pos (natAbs_lt_of_word (by decide))]
  · rw [hbelow]
    rfl

end SymbolicCalculus
