import Mathlib.Tactic.SplitIfs
import SymbolicCalculus.Json.Reader

/-!
# The grammar of JSON

Which texts stand for a value, with the blanks that may stand between the parts of arrays
and objects. Whatever the reader takes from the front of a text is one such text, with
blanks before it. What has been read at any time is described for every open container, so
that each character needs one look only.
-/

set_option autoImplicit false

namespace SymbolicCalculus.Json

/-! ## Blanks and digits -/

def Blanks (cs : List Char) : Prop := ∀ c ∈ cs, isSpace c = true

theorem Blanks.nil : Blanks [] := by simp [Blanks]

theorem Blanks.push {cs : List Char} {c : Char} (h : Blanks cs) (hc : isSpace c = true) :
    Blanks (cs ++ [c]) := by
  simpa [Blanks, or_imp, forall_and] using ⟨h, hc⟩

def Digits (cs : List Char) : Prop := cs ≠ [] ∧ ∀ c ∈ cs, c.isDigit = true

theorem Digits.single {c : Char} (hc : c.isDigit = true) : Digits [c] := by
  simp [Digits, hc]

theorem Digits.push {cs : List Char} {c : Char} (h : Digits cs) (hc : c.isDigit = true) :
    Digits (cs ++ [c]) := by
  refine ⟨by simp, ?_⟩
  simpa [or_imp, forall_and] using ⟨h.2, hc⟩

/-! ## Numbers -/

def Numeral.ofParts (negative : Bool) (whole fraction : List Char) (exponentNegative : Bool)
    (exponent : List Char) : Numeral :=
  ⟨negative, Nat.ofDigitChars 10 (whole ++ fraction) 0, fraction.length, exponentNegative,
    Nat.ofDigitChars 10 exponent 0⟩

def signText (negative : Bool) : List Char :=
  if negative then ['-'] else []

/-- No digit stands behind a leading zero. -/
inductive WholeText : List Char → Prop
  | zero : WholeText ['0']
  | digits {c : Char} {cs : List Char} (hc : c.isDigit = true) (hne : c ≠ '0')
      (h : ∀ d ∈ cs, d.isDigit = true) : WholeText (c :: cs)

inductive FractionText : List Char → List Char → Prop
  | none : FractionText [] []
  | some {ds : List Char} (h : Digits ds) : FractionText ds ('.' :: ds)

inductive ExponentSign : Bool → List Char → Prop
  | none : ExponentSign false []
  | plus : ExponentSign false ['+']
  | minus : ExponentSign true ['-']

inductive ExponentText : Bool → List Char → List Char → Prop
  | none : ExponentText false [] []
  | some {e : Char} {negative : Bool} {sign ds : List Char} (he : e = 'e' ∨ e = 'E')
      (hs : ExponentSign negative sign) (h : Digits ds) :
      ExponentText negative ds (e :: (sign ++ ds))

inductive NumberText : Numeral → List Char → Prop
  | intro (negative : Bool) {whole fraction fractionText exponent exponentText : List Char}
      {exponentNegative : Bool} (hw : WholeText whole) (hf : FractionText fraction fractionText)
      (he : ExponentText exponentNegative exponent exponentText) :
      NumberText (.ofParts negative whole fraction exponentNegative exponent)
        (signText negative ++ whole ++ fractionText ++ exponentText)

/-! ## Strings -/

def hexNumber? (cs : List Char) : Option Nat :=
  cs.foldlM (fun value c => (hexValue c).map (value * 16 + ·)) 0

/-- One code of a string: a character as it is, a letter after a backslash, or four
hexadecimal digits. -/
inductive CodeText : Nat → List Char → Prop
  | plain {c : Char} (hquote : c ≠ '"') (hslash : c ≠ '\\') (hcontrol : 32 ≤ c.toNat) :
      CodeText c.toNat [c]
  | escape {c d : Char} (h : escapeValue c = some d) : CodeText d.toNat ['\\', c]
  | hex {value : Nat} {cs : List Char} (hlength : cs.length = 4)
      (h : hexNumber? cs = some value) : CodeText value ('\\' :: 'u' :: cs)

inductive CodesText : List Nat → List Char → Prop
  | nil : CodesText [] []
  | push {codes : List Nat} {cs : List Char} {code : Nat} {c : List Char}
      (h : CodesText codes cs) (hc : CodeText code c) : CodesText (codes ++ [code]) (cs ++ c)

inductive StringText : String → List Char → Prop
  | intro {codes : List Nat} {cs : List Char} (h : CodesText codes cs) :
      StringText (.ofList (codesToChars codes)) ('"' :: cs ++ ['"'])

/-! ## Values -/

mutual
/-- The value is what the text stands for. -/
inductive Written : Json → List Char → Prop
  | null : Written .null "null".toList
  | true : Written (.bool true) "true".toList
  | false : Written (.bool false) "false".toList
  | num {n : Numeral} {cs : List Char} (h : NumberText n cs) : Written (.num n.value) cs
  | str {s : String} {cs : List Char} (h : StringText s cs) : Written (.str s) cs
  | emptyArr {blanks : List Char} (h : Blanks blanks) : Written (.arr []) ('[' :: blanks ++ [']'])
  | arr {items : List Json} {cs : List Char} (h : ItemsText items cs) :
      Written (.arr items) ('[' :: cs ++ [']'])
  | emptyObj {blanks : List Char} (h : Blanks blanks) :
      Written (.obj []) ('\x7b' :: blanks ++ ['\x7d'])
  | obj {members : List (String × Json)} {cs : List Char} (h : MembersText members cs) :
      Written (.obj members) ('\x7b' :: cs ++ ['\x7d'])
inductive ItemsText : List Json → List Char → Prop
  | first {v : Json} {before cs after : List Char} (hb : Blanks before) (hv : Written v cs)
      (ha : Blanks after) : ItemsText [v] (before ++ cs ++ after)
  | next {items : List Json} {front : List Char} {v : Json} {before cs after : List Char}
      (h : ItemsText items front) (hb : Blanks before) (hv : Written v cs) (ha : Blanks after) :
      ItemsText (items ++ [v]) (front ++ ',' :: (before ++ cs ++ after))
inductive MembersText : List (String × Json) → List Char → Prop
  | first {m : String × Json} {cs : List Char} (hm : MemberText m cs) : MembersText [m] cs
  | next {members : List (String × Json)} {front : List Char} {m : String × Json} {cs : List Char}
      (h : MembersText members front) (hm : MemberText m cs) :
      MembersText (members ++ [m]) (front ++ ',' :: cs)
inductive MemberText : String × Json → List Char → Prop
  | intro {key : String} {v : Json} {b₁ k b₂ b₃ cs b₄ : List Char} (h₁ : Blanks b₁)
      (hk : StringText key k) (h₂ : Blanks b₂) (h₃ : Blanks b₃) (hv : Written v cs)
      (h₄ : Blanks b₄) : MemberText (key, v) (b₁ ++ k ++ b₂ ++ ':' :: (b₃ ++ cs ++ b₄))
end

theorem Written.ends_obj {members : List (String × Json)} {cs : List Char}
    (h : Written (.obj members) cs) : ∃ init, cs = init ++ ['\x7d'] := by
  cases h with
  | emptyObj => exact ⟨_, rfl⟩
  | obj => exact ⟨_, rfl⟩

/-! ## Numbers as they are read -/

section
variable {negative exponentNegative : Bool} {whole fraction exponent : List Char}

theorem pushDigit_ofParts (c : Char) :
    (Numeral.ofParts negative whole [] exponentNegative exponent).pushDigit c =
      .ofParts negative (whole ++ [c]) [] exponentNegative exponent := by
  simp [Numeral.ofParts, Numeral.pushDigit, digitValue, Nat.ofDigitChars_append,
    Nat.ofDigitChars_cons, Nat.mul_comm]

theorem pushPlace_ofParts (c : Char) :
    (Numeral.ofParts negative whole fraction exponentNegative exponent).pushPlace c =
      .ofParts negative whole (fraction ++ [c]) exponentNegative exponent := by
  simp [Numeral.ofParts, Numeral.pushPlace, digitValue, Nat.ofDigitChars_append,
    Nat.ofDigitChars_cons, Nat.mul_comm]

theorem pushExponent_ofParts (c : Char) :
    (Numeral.ofParts negative whole fraction exponentNegative exponent).pushExponent c =
      .ofParts negative whole fraction exponentNegative (exponent ++ [c]) := by
  simp [Numeral.ofParts, Numeral.pushExponent, digitValue, Nat.ofDigitChars_append,
    Nat.ofDigitChars_cons, Nat.mul_comm]

end

inductive NumeralPart : Numeral → NumeralPhase → List Char → Prop
  | sign : NumeralPart (.ofParts true [] [] false []) .sign ['-']
  | zero (negative : Bool) :
      NumeralPart (.ofParts negative ['0'] [] false []) .zero (signText negative ++ ['0'])
  | whole (negative : Bool) {c : Char} {cs : List Char} (hc : c.isDigit = true) (hne : c ≠ '0')
      (h : ∀ d ∈ cs, d.isDigit = true) :
      NumeralPart (.ofParts negative (c :: cs) [] false []) .whole (signText negative ++ c :: cs)
  | point (negative : Bool) {whole : List Char} (hw : WholeText whole) :
      NumeralPart (.ofParts negative whole [] false []) .point (signText negative ++ whole ++ ['.'])
  | fraction (negative : Bool) {whole fraction : List Char} (hw : WholeText whole)
      (hf : Digits fraction) :
      NumeralPart (.ofParts negative whole fraction false []) .fraction
        (signText negative ++ whole ++ '.' :: fraction)
  | mark (negative : Bool) {whole fraction fractionText : List Char} {e : Char}
      (hw : WholeText whole) (hf : FractionText fraction fractionText) (he : e = 'e' ∨ e = 'E') :
      NumeralPart (.ofParts negative whole fraction false []) .mark
        (signText negative ++ whole ++ fractionText ++ [e])
  | markSign (negative : Bool) {whole fraction fractionText : List Char} {e : Char}
      {exponentNegative : Bool} {sign : List Char} (hw : WholeText whole)
      (hf : FractionText fraction fractionText) (he : e = 'e' ∨ e = 'E')
      (hs : ExponentSign exponentNegative sign) :
      NumeralPart (.ofParts negative whole fraction exponentNegative []) .markSign
        (signText negative ++ whole ++ fractionText ++ e :: sign)
  | exponent (negative : Bool) {whole fraction fractionText : List Char} {e : Char}
      {exponentNegative : Bool} {sign exponent : List Char} (hw : WholeText whole)
      (hf : FractionText fraction fractionText) (he : e = 'e' ∨ e = 'E')
      (hs : ExponentSign exponentNegative sign) (hx : Digits exponent) :
      NumeralPart (.ofParts negative whole fraction exponentNegative exponent) .exponent
        (signText negative ++ whole ++ fractionText ++ e :: (sign ++ exponent))

theorem NumeralPart.start {c : Char} {n : Numeral} {phase : NumeralPhase}
    (h : firstDigit c = some (n, phase)) : NumeralPart n phase [c] := by
  unfold firstDigit Numeral.extend at h
  dsimp only at h
  split_ifs at h with hsign hzero hdigit
  · cases h
    subst hsign
    exact .sign
  · cases h
    subst hzero
    exact .zero false
  · cases h
    have hpart := @NumeralPart.whole false c [] hdigit hzero (by simp)
    rwa [← List.nil_append [c], ← pushDigit_ofParts] at hpart

theorem NumeralPart.extend {n n' : Numeral} {phase phase' : NumeralPhase} {cs : List Char}
    {c : Char} (h : NumeralPart n phase cs) (hc : n.extend phase c = some (n', phase')) :
    NumeralPart n' phase' (cs ++ [c]) := by
  unfold Numeral.extend at hc
  cases h with
  | sign =>
    dsimp only at hc
    split_ifs at hc with hzero hdigit
    · cases hc
      subst hzero
      exact .zero true
    · cases hc
      rw [pushDigit_ofParts]
      exact .whole true hdigit hzero (by simp)
  | zero negative =>
    dsimp only at hc
    split_ifs at hc with hpoint hmark
    · cases hc
      subst hpoint
      exact .point negative .zero
    · cases hc
      simpa using NumeralPart.mark negative .zero .none (by simpa using hmark)
  | @whole negative d ds hd hne hds =>
    dsimp only at hc
    split_ifs at hc with hdigit hpoint hmark
    · cases hc
      rw [pushDigit_ofParts, List.append_assoc]
      refine .whole negative hd hne fun x hx => ?_
      rcases List.mem_append.mp hx with hx | hx
      · exact hds x hx
      · rwa [List.mem_singleton.mp hx]
    · cases hc
      subst hpoint
      exact .point negative (.digits hd hne hds)
    · cases hc
      simpa using NumeralPart.mark negative (.digits hd hne hds) .none (by simpa using hmark)
  | point negative hw =>
    dsimp only at hc
    split_ifs at hc with hdigit
    cases hc
    rw [pushPlace_ofParts]
    simpa using NumeralPart.fraction negative hw (.single hdigit)
  | fraction negative hw hf =>
    dsimp only at hc
    split_ifs at hc with hdigit hmark
    · cases hc
      rw [pushPlace_ofParts]
      simpa using NumeralPart.fraction negative hw (hf.push hdigit)
    · cases hc
      simpa using NumeralPart.mark negative hw (.some hf) (by simpa using hmark)
  | mark negative hw hf he =>
    dsimp only at hc
    split_ifs at hc with hdigit hplus hminus
    · cases hc
      rw [pushExponent_ofParts]
      simpa using NumeralPart.exponent negative hw hf he .none (.single hdigit)
    · cases hc
      subst hplus
      simpa using NumeralPart.markSign negative hw hf he .plus
    · cases hc
      subst hminus
      simpa [Numeral.ofParts] using NumeralPart.markSign negative hw hf he .minus
  | markSign negative hw hf he hs =>
    dsimp only at hc
    split_ifs at hc with hdigit
    cases hc
    rw [pushExponent_ofParts]
    simpa using NumeralPart.exponent negative hw hf he hs (.single hdigit)
  | exponent negative hw hf he hs hx =>
    dsimp only at hc
    split_ifs at hc with hdigit
    cases hc
    rw [pushExponent_ofParts]
    simpa using NumeralPart.exponent negative hw hf he hs (hx.push hdigit)

theorem NumeralPart.numberText {n : Numeral} {phase : NumeralPhase} {cs : List Char}
    (h : NumeralPart n phase cs) (hend : phase.mayEnd = true) : NumberText n cs := by
  cases h with
  | zero negative => simpa using NumberText.intro negative .zero .none .none
  | whole negative hc hne h =>
    simpa using NumberText.intro negative (.digits hc hne h) .none .none
  | fraction negative hw hf => simpa using NumberText.intro negative hw (.some hf) .none
  | exponent negative hw hf he hs hx => exact .intro negative hw hf (.some he hs hx)
  | _ => cases hend

/-! ## Strings as they are read -/

inductive StringPart : List Nat → StringPhase → List Char → Prop
  | plain {codes : List Nat} {cs : List Char} (h : CodesText codes.reverse cs) :
      StringPart codes .plain cs
  | escaped {codes : List Nat} {cs : List Char} (h : CodesText codes.reverse cs) :
      StringPart codes .escaped (cs ++ ['\\'])
  | code {codes : List Nat} {value : Nat} {cs digits : List Char}
      (h : CodesText codes.reverse cs) (hlength : digits.length < 4)
      (hdigits : hexNumber? digits = some value) :
      StringPart codes (.code digits.length value) (cs ++ '\\' :: 'u' :: digits)

theorem hexNumber?_push {cs : List Char} {c : Char} {value d : Nat}
    (h : hexNumber? cs = some value) (hc : hexValue c = some d) :
    hexNumber? (cs ++ [c]) = some (value * 16 + d) := by
  rw [hexNumber?, List.foldlM_append, ← hexNumber?, h]
  simp [hc]

theorem CodesText.push_reverse {codes : List Nat} {code : Nat} {cs c : List Char}
    (h : CodesText codes.reverse cs) (hc : CodeText code c) :
    CodesText (code :: codes).reverse (cs ++ c) := by
  rw [List.reverse_cons]
  exact .push h hc

theorem StringPart.push {codes codes' : List Nat} {phase phase' : StringPhase} {cs : List Char}
    {c : Char} (h : StringPart codes phase cs)
    (hc : stringStep codes phase c = .going codes' phase') :
    StringPart codes' phase' (cs ++ [c]) := by
  unfold stringStep at hc
  cases h with
  | plain h =>
    dsimp only at hc
    split_ifs at hc with hquote hslash hcontrol
    · cases hc
      subst hslash
      exact .escaped h
    · cases hc
      exact .plain (h.push_reverse (.plain hquote hslash (Nat.le_of_not_lt hcontrol)))
  | escaped h =>
    dsimp only at hc
    split_ifs at hc with hu
    · cases hc
      subst hu
      simpa using @StringPart.code _ 0 _ [] h (by decide) rfl
    · split at hc
      · next d hd =>
        cases hc
        simpa using StringPart.plain (h.push_reverse (.escape hd))
      · cases hc
  | @code value cs digits h hlength hdigits =>
    dsimp only at hc
    split at hc
    · cases hc
    · next d hd =>
      have hpush := hexNumber?_push hdigits hd
      split_ifs at hc with hlast
      · cases hc
        have hcode := CodeText.hex (by simp [hlast]) hpush
        simpa using StringPart.plain (h.push_reverse hcode)
      · cases hc
        simpa using StringPart.code h (by simp; omega) hpush

theorem StringPart.stringText {codes : List Nat} {phase : StringPhase} {cs : List Char} {c : Char}
    (h : StringPart codes phase cs) (hc : stringStep codes phase c = .closed) :
    c = '"' ∧ StringText (.ofList (codesToChars codes.reverse)) ('"' :: cs ++ [c]) := by
  unfold stringStep at hc
  cases h with
  | plain h =>
    dsimp only at hc
    split_ifs at hc with hquote
    subst hquote
    exact ⟨rfl, .intro h⟩
  | escaped h =>
    dsimp only at hc
    split_ifs at hc
    split at hc <;> cases hc
  | code h hlength hdigits =>
    dsimp only at hc
    split at hc
    · cases hc
    · split_ifs at hc

/-! ## The reader -/

inductive ItemStart : List Json → List Char → Prop
  | first {blanks : List Char} (hb : Blanks blanks) : ItemStart [] blanks
  | next {items : List Json} {cs blanks : List Char} (h : ItemsText items cs) (hb : Blanks blanks) :
      ItemStart items (cs ++ ',' :: blanks)

inductive KeyStart : List (String × Json) → List Char → Prop
  | first {blanks : List Char} (hb : Blanks blanks) : KeyStart [] blanks
  | next {members : List (String × Json)} {cs blanks : List Char} (h : MembersText members cs)
      (hb : Blanks blanks) : KeyStart members (cs ++ ',' :: blanks)

inductive KeyText : String → List Char → Prop
  | intro {key : String} {k blanks : List Char} (hk : StringText key k) (hb : Blanks blanks) :
      KeyText key (k ++ blanks)

inductive Before : List Frame → List Char → Prop
  | root {blanks : List Char} (hb : Blanks blanks) : Before [] blanks
  | item {stack : List Frame} {items : List Json} {front cs : List Char} (h : Before stack front)
      (hs : ItemStart items.reverse cs) : Before (.array items :: stack) (front ++ '[' :: cs)
  | member {stack : List Frame} {members : List (String × Json)} {key : String}
      {front cs k blanks : List Char} (h : Before stack front)
      (hs : KeyStart members.reverse cs) (hk : KeyText key k) (hb : Blanks blanks) :
      Before (.member members key :: stack) (front ++ '\x7b' :: (cs ++ k ++ ':' :: blanks))

def isContainer : Json → Bool
  | .arr _ | .obj _ => true
  | _ => false

/-- What the reader has read. -/
inductive Reads : Reader → List Char → Prop
  | value {stack : List Frame} {cs : List Char} (h : Before stack cs) : Reads ⟨stack, .value⟩ cs
  | firstItem {stack : List Frame} {front blanks : List Char} (h : Before stack front)
      (hb : Blanks blanks) : Reads ⟨.array [] :: stack, .firstItem⟩ (front ++ '[' :: blanks)
  | firstKey {stack : List Frame} {front blanks : List Char} (h : Before stack front)
      (hb : Blanks blanks) : Reads ⟨.object [] :: stack, .firstKey⟩ (front ++ '\x7b' :: blanks)
  | key {stack : List Frame} {members : List (String × Json)} {front cs : List Char}
      (h : Before stack front) (hs : KeyStart members.reverse cs) :
      Reads ⟨.object members :: stack, .key⟩ (front ++ '\x7b' :: cs)
  | colon {stack : List Frame} {members : List (String × Json)} {key : String}
      {front cs k : List Char} (h : Before stack front) (hs : KeyStart members.reverse cs)
      (hk : KeyText key k) :
      Reads ⟨.member members key :: stack, .colon⟩ (front ++ '\x7b' :: (cs ++ k))
  | afterItem {stack : List Frame} {items : List Json} {front cs : List Char}
      (h : Before stack front) (hi : ItemsText items.reverse cs) :
      Reads ⟨.array items :: stack, .separator⟩ (front ++ '[' :: cs)
  | afterMember {stack : List Frame} {members : List (String × Json)} {front cs : List Char}
      (h : Before stack front) (hm : MembersText members.reverse cs) :
      Reads ⟨.object members :: stack, .separator⟩ (front ++ '\x7b' :: cs)
  | string {stack : List Frame} {codes : List Nat} {phase : StringPhase} {front part : List Char}
      (h : Before stack front) (hp : StringPart codes phase part) :
      Reads ⟨stack, .string false codes phase⟩ (front ++ '"' :: part)
  | keyString {stack : List Frame} {members : List (String × Json)} {codes : List Nat}
      {phase : StringPhase} {front cs part : List Char} (h : Before stack front)
      (hs : KeyStart members.reverse cs) (hp : StringPart codes phase part) :
      Reads ⟨.object members :: stack, .string true codes phase⟩
        (front ++ '\x7b' :: (cs ++ '"' :: part))
  | numeral {stack : List Frame} {n : Numeral} {phase : NumeralPhase} {front part : List Char}
      (h : Before stack front) (hp : NumeralPart n phase part) :
      Reads ⟨stack, .numeral n phase⟩ (front ++ part)
  | word {stack : List Frame} {v : Json} {front part rest : List Char} (h : Before stack front)
      (hv : Written v (part ++ rest)) (hopen : v.isContainer = false) :
      Reads ⟨stack, .word rest v⟩ (front ++ part)
  | complete {v : Json} {blanks cs : List Char} (hb : Blanks blanks) (hv : Written v cs)
      (hopen : v.isContainer = false) : Reads ⟨[], .complete v⟩ (blanks ++ cs)

inductive Whole (v : Json) : List Char → Prop
  | intro {blanks cs : List Char} (hb : Blanks blanks) (hv : Written v cs) : Whole v (blanks ++ cs)

/-- What a character is to lead to, when so much has been read before it. -/
def Leads (cs : List Char) (c : Char) : Progress → Prop
  | .going r => Reads r (cs ++ [c])
  | .finished v => Whole v (cs ++ [c])
  | .finishedBefore v => Whole v cs ∧ v.isContainer = false
  | .malformed => True

section
variable {stack : List Frame} {v : Json} {cs front part : List Char} {c : Char}

theorem ItemStart.item {items : List Json} {after : List Char} (hs : ItemStart items part)
    (hv : Written v cs) (ha : Blanks after) : ItemsText (items ++ [v]) (part ++ cs ++ after) := by
  cases hs with
  | first hb => exact .first hb hv ha
  | next h hb => simpa using ItemsText.next h hb hv ha

theorem KeyStart.member {members : List (String × Json)} {key : String} {k blanks after : List Char}
    (hs : KeyStart members part) (hk : KeyText key k) (hb : Blanks blanks) (hv : Written v cs)
    (ha : Blanks after) :
    MembersText (members ++ [(key, v)]) (part ++ k ++ ':' :: (blanks ++ cs ++ after)) := by
  obtain ⟨hk, hb'⟩ := hk
  cases hs with
  | first h₁ => simpa using MembersText.first (.intro h₁ hk hb' hb hv ha)
  | next h h₁ => simpa using MembersText.next h (.intro h₁ hk hb' hb hv ha)

theorem reads_deliver {r : Reader} (h : Before stack front) (hv : Written v cs)
    (hopen : stack = [] → v.isContainer = false) (hr : deliver v stack = some r) :
    Reads r (front ++ cs) := by
  cases h with
  | root hb =>
    cases hr
    exact .complete hb hv (hopen rfl)
  | @item _ items _ _ h hs =>
    cases hr
    have hitems := hs.item hv .nil
    rw [← List.reverse_cons] at hitems
    simpa using Reads.afterItem h hitems
  | @member _ members key _ _ _ _ h hs hk hb =>
    cases hr
    have hmembers := hs.member hk hb hv .nil
    rw [← List.reverse_cons] at hmembers
    simpa using Reads.afterMember h hmembers

theorem leads_goOn (h : Before stack front) (hv : Written v part)
    (hopen : stack = [] → v.isContainer = false) (hcs : cs ++ [c] = front ++ part) :
    Leads cs c (goOn (deliver v stack)) := by
  cases hr : deliver v stack with
  | none => exact trivial
  | some r =>
    rw [goOn, Leads, hcs]
    exact reads_deliver h hv hopen hr

theorem leads_close (h : Before stack front) (hv : Written v part)
    (hcs : cs ++ [c] = front ++ part) : Leads cs c (close v stack) := by
  cases stack with
  | nil =>
    cases h with
    | root hb =>
      rw [close, Leads, hcs]
      exact .intro hb hv
  | cons frame stack => exact leads_goOn h hv nofun hcs

theorem StringPart.empty : StringPart [] .plain [] := .plain .nil

theorem leads_openContainer {frame : Frame} {phase : Phase}
    (h : Reads ⟨frame :: stack, phase⟩ (cs ++ [c])) :
    Leads cs c (openContainer frame phase stack) := by
  unfold openContainer
  split_ifs
  · exact h
  · exact trivial

theorem leads_beginValue {r : Reader} (h : Before r.stack cs)
    (hblank : isSpace c = true → Reads r (cs ++ [c])) : Leads cs c (beginValue r c) := by
  unfold beginValue
  split_ifs with hc
  · exact hblank hc
  split
  · exact .string h .empty
  · exact leads_openContainer (.firstItem h .nil)
  · exact leads_openContainer (.firstKey h .nil)
  · exact .word h .true rfl
  · exact .word h .false rfl
  · exact .word h .null rfl
  · split
    · next n phase hn => exact .numeral h (.start hn)
    · exact trivial

theorem ItemsText.push {items : List Json} (h : ItemsText items cs) (hc : isSpace c = true) :
    ItemsText items (cs ++ [c]) := by
  cases h with
  | first hb hv ha => simpa using ItemsText.first hb hv (ha.push hc)
  | next h hb hv ha => simpa using ItemsText.next h hb hv (ha.push hc)

theorem MemberText.push {m : String × Json} (h : MemberText m cs) (hc : isSpace c = true) :
    MemberText m (cs ++ [c]) := by
  obtain ⟨h₁, hk, h₂, h₃, hv, h₄⟩ := h
  simpa using MemberText.intro h₁ hk h₂ h₃ hv (h₄.push hc)

theorem MembersText.push {members : List (String × Json)} (h : MembersText members cs)
    (hc : isSpace c = true) : MembersText members (cs ++ [c]) := by
  cases h with
  | first hm => exact .first (hm.push hc)
  | next h hm => simpa using MembersText.next h (hm.push hc)

theorem ItemStart.push {items : List Json} (h : ItemStart items cs) (hc : isSpace c = true) :
    ItemStart items (cs ++ [c]) := by
  cases h with
  | first hb => exact .first (hb.push hc)
  | next h hb => simpa using ItemStart.next h (hb.push hc)

theorem KeyStart.push {members : List (String × Json)} (h : KeyStart members cs)
    (hc : isSpace c = true) : KeyStart members (cs ++ [c]) := by
  cases h with
  | first hb => exact .first (hb.push hc)
  | next h hb => simpa using KeyStart.next h (hb.push hc)

theorem KeyText.push {key : String} (h : KeyText key cs) (hc : isSpace c = true) :
    KeyText key (cs ++ [c]) := by
  obtain ⟨hk, hb⟩ := h
  simpa using KeyText.intro hk (hb.push hc)

theorem Before.push (h : Before stack cs) (hc : isSpace c = true) : Before stack (cs ++ [c]) := by
  cases h with
  | root hb => exact .root (hb.push hc)
  | item h hs => simpa using Before.item h (hs.push hc)
  | member h hs hk hb => simpa using Before.member h hs hk (hb.push hc)

theorem leads_separate (h : Reads ⟨stack, .separator⟩ cs) :
    Leads cs c (separate ⟨stack, .separator⟩ c) := by
  unfold separate
  by_cases hc : isSpace c = true
  · rw [if_pos hc]
    cases h with
    | afterItem h hi => simpa [Leads] using Reads.afterItem h (hi.push hc)
    | afterMember h hm => simpa [Leads] using Reads.afterMember h (hm.push hc)
  · rw [if_neg hc]
    cases h with
    | afterItem h hi =>
      dsimp only
      split
      · next heq =>
        cases heq
        simpa [Leads] using Reads.value (.item h (.next hi .nil))
      · next heq => cases heq
      · next heq =>
        cases heq
        exact leads_close h (.arr hi) (by simp)
      · next heq => cases heq
      · exact trivial
    | afterMember h hm =>
      dsimp only
      split
      · next heq => cases heq
      · next heq =>
        cases heq
        simpa [Leads] using Reads.key h (.next hm .nil)
      · next heq => cases heq
      · next heq =>
        cases heq
        exact leads_close h (.obj hm) (by simp)
      · exact trivial

theorem leads_endNumeral {n : Numeral} (h : Before stack front) (hv : Written (.num n.value) part) :
    Leads (front ++ part) c (endNumeral stack n c) := by
  cases h with
  | root hb => exact ⟨.intro hb hv, rfl⟩
  | item h hs => exact leads_separate (reads_deliver (.item h hs) hv nofun rfl)
  | member h hs hk hb => exact leads_separate (reads_deliver (.member h hs hk hb) hv nofun rfl)

/-- Each character leads on as the grammar has it. -/
theorem leads_step {r : Reader} (h : Reads r cs) : Leads cs c (r.step c) := by
  unfold Reader.step
  cases h with
  | value h =>
    exact leads_beginValue h fun hc => .value (h.push hc)
  | firstItem h hb =>
    dsimp only
    split
    · next heq =>
      cases heq
      exact leads_close h (.emptyArr hb) (by simp)
    · exact leads_beginValue (.item h (.first hb)) fun hc => by
        simpa using Reads.firstItem h (hb.push hc)
  | firstKey h hb =>
    dsimp only
    split_ifs with hc
    · simpa [Leads] using Reads.firstKey h (hb.push hc)
    · split
      · have hs : KeyStart ([] : List (String × Json)).reverse _ := .first hb
        simpa [Leads] using Reads.keyString h hs .empty
      · next heq =>
        cases heq
        exact leads_close h (.emptyObj hb) (by simp)
      · exact trivial
  | key h hs =>
    dsimp only
    split_ifs with hc hquote
    · simpa [Leads] using Reads.key h (hs.push hc)
    · subst hquote
      simpa [Leads] using Reads.keyString h hs .empty
    · exact trivial
  | colon h hs hk =>
    dsimp only
    split_ifs with hc hcolon
    · simpa [Leads] using Reads.colon h hs (hk.push hc)
    · subst hcolon
      simpa [Leads] using Reads.value (.member h hs hk .nil)
    · exact trivial
  | afterItem h hi => exact leads_separate (.afterItem h hi)
  | afterMember h hm => exact leads_separate (.afterMember h hm)
  | string h hp =>
    dsimp only
    split
    · next hstep => simpa [Leads] using Reads.string h (hp.push hstep)
    · next hstep =>
      obtain ⟨rfl, htext⟩ := hp.stringText hstep
      exact leads_goOn h (.str htext) (fun _ => rfl) (by simp)
    · exact trivial
  | keyString h hs hp =>
    dsimp only
    split
    · next hstep => simpa [Leads] using Reads.keyString h hs (hp.push hstep)
    · next hstep =>
      obtain ⟨rfl, htext⟩ := hp.stringText hstep
      simpa [Leads, endString] using Reads.colon h hs (.intro htext .nil)
    · exact trivial
  | numeral h hp =>
    dsimp only
    split
    · next hextend => simpa [Leads] using Reads.numeral h (hp.extend hextend)
    · split_ifs with hend
      · exact leads_endNumeral h (.num (hp.numberText hend))
      · exact trivial
  | @word stack v front part rest h hv hopen =>
    cases rest with
    | nil => exact trivial
    | cons d rest =>
      dsimp only
      split_ifs with hc hrest
      · subst hc
        rw [List.isEmpty_iff.mp hrest] at hv
        exact leads_goOn h hv (fun _ => hopen) (by simp)
      · subst hc
        have hpart : Written v ((part ++ [c]) ++ rest) := by simpa using hv
        simpa [Leads] using Reads.word h hpart hopen
      · exact trivial
  | complete hb hv hopen => exact ⟨.intro hb hv, hopen⟩

theorem reads_start : Reads .start [] := .value (.root .nil)

/-- What is read from the front of a text is one value, with blanks before it. An array or
an object is read so whatever follows. -/
theorem whole_of_scan {r : Reader} {text rest : List Char} (h : Reads r cs)
    (hscan : scan r text = .value v rest) :
    ∃ seen, text = seen ++ rest ∧ Whole v (cs ++ seen) ∧
      (v.isContainer = true → ∀ rest', scan r (seen ++ rest') = .value v rest') := by
  induction text generalizing r cs with
  | nil => cases hscan
  | cons c text ih =>
    have hstep := @leads_step cs c r h
    rw [scan] at hscan
    split at hscan
    · next r' hr =>
      rw [hr] at hstep
      obtain ⟨seen, rfl, hwhole, hany⟩ := ih hstep hscan
      refine ⟨c :: seen, rfl, by simpa using hwhole, fun hv rest' => ?_⟩
      rw [List.cons_append, scan, hr]
      exact hany hv rest'
    · next v' hr =>
      rw [hr] at hstep
      cases hscan
      refine ⟨[c], rfl, hstep, fun _ rest' => ?_⟩
      rw [List.cons_append, scan, hr, List.nil_append]
    · next v' hr =>
      rw [hr] at hstep
      cases hscan
      obtain ⟨hwhole, hopen⟩ := hstep
      refine ⟨[], rfl, by simpa using hwhole, fun hv => ?_⟩
      rw [hopen] at hv
      cases hv
    · cases hscan

theorem isContainer_of_atEnd {r : Reader} (h : Reads r cs) (hend : r.atEnd? = some v) :
    v.isContainer = false := by
  obtain ⟨stack, phase⟩ := r
  unfold Reader.atEnd? at hend
  split at hend
  · next hstack hphase =>
    cases hstack
    cases hphase
    cases hend
    cases h with
    | complete _ _ hopen => exact hopen
  · split_ifs at hend
    cases hend
    rfl
  · cases hend

theorem reads_unfinished {r r' : Reader} {text : List Char} (h : Reads r cs)
    (hscan : scan r text = .unfinished r') : Reads r' (cs ++ text) := by
  induction text generalizing r cs with
  | nil =>
    cases hscan
    simpa using h
  | cons c text ih =>
    have hstep := @leads_step cs c r h
    rw [scan] at hscan
    split at hscan
    · next r'' hr =>
      rw [hr] at hstep
      simpa using ih hstep hscan
    · cases hscan
    · cases hscan
    · cases hscan

end

end SymbolicCalculus.Json
