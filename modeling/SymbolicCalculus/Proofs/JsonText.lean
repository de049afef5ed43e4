import SymbolicCalculus.Json.Reader
import SymbolicCalculus.Json.Writer

/-!
# JSON text is read back

The reader takes the text of a value without numbers back to that value, unless the
value is nested too deeply, and then it refuses it. Strings may hold any characters.
What is said about a value is said for every stack of open containers and every
continuation of the text, so that values may be put into one another.
-/

set_option autoImplicit false

namespace SymbolicCalculus.Json

/-! ## Values without numbers -/

inductive Plain : Json → Prop
  | null : Plain .null
  | bool (b : Bool) : Plain (.bool b)
  | str (s : String) : Plain (.str s)
  | arr {items : List Json} (h : ∀ v ∈ items, Plain v) : Plain (.arr items)
  | obj {members : List (String × Json)} (h : ∀ m ∈ members, Plain m.2) : Plain (.obj members)

mutual
/-- How many arrays and objects are open at once while the value is read. -/
def height : Json → Nat
  | .null | .bool _ | .num _ | .str _ => 0
  | .arr items => itemsHeight items + 1
  | .obj members => membersHeight members + 1
def itemsHeight : List Json → Nat
  | [] => 0
  | v :: rest => max (height v) (itemsHeight rest)
def membersHeight : List (String × Json) → Nat
  | [] => 0
  | (_, v) :: rest => max (height v) (membersHeight rest)
end

theorem itemsFinite_of_forall {items : List Json} (h : ∀ v ∈ items, v.isFinite = true) :
    itemsFinite items = true := by
  induction items with
  | nil => rfl
  | cons v rest ih =>
    rw [itemsFinite, h v (by simp), ih fun w hw => h w (by simp [hw])]
    rfl

theorem membersFinite_of_forall {members : List (String × Json)}
    (h : ∀ m ∈ members, m.2.isFinite = true) : membersFinite members = true := by
  induction members with
  | nil => rfl
  | cons m rest ih =>
    rw [membersFinite, h m (by simp), ih fun w hw => h w (by simp [hw])]
    rfl

theorem Plain.isFinite {v : Json} (h : Plain v) : v.isFinite = true := by
  induction h with
  | null => rfl
  | bool _ => rfl
  | str _ => rfl
  | arr _ ih => rw [Json.isFinite, itemsFinite_of_forall ih]
  | obj _ ih => rw [Json.isFinite, membersFinite_of_forall ih]

/-! ## Steps of the reader -/

section
variable {r r' : Reader} {c : Char} {cs : List Char}

theorem scan_going (h : r.step c = .going r') : scan r (c :: cs) = scan r' cs := by
  rw [scan, h]

theorem scan_malformed (h : r.step c = .malformed) : scan r (c :: cs) = .malformed := by
  rw [scan, h]

end

def place (stack : List Frame) : Json → Progress
  | .arr items => close (.arr items) stack
  | .obj members => close (.obj members) stack
  | v => goOn (deliver v stack)

def resume (p : Progress) (rest : List Char) : Scan :=
  match p with
  | .going r => scan r rest
  | .finished v => .value v rest
  | .finishedBefore _ | .malformed => .malformed

theorem scan_place {r : Reader} {c : Char} {stack : List Frame} {v : Json}
    (h : r.step c = place stack v) (rest : List Char) :
    scan r (c :: rest) = resume (place stack v) rest := by
  rw [scan, h]
  cases v with
  | arr items =>
    cases stack with
    | nil => rfl
    | cons frame stack => cases frame <;> rfl
  | obj members =>
    cases stack with
    | nil => rfl
    | cons frame stack => cases frame <;> rfl
  | _ =>
    simp only [place]
    cases deliver _ stack <;> rfl

theorem place_array (v : Json) (items : List Json) (stack : List Frame) :
    place (.array items :: stack) v = .going ⟨.array (v :: items) :: stack, .separator⟩ := by
  cases v <;> rfl

theorem place_member (v : Json) (members : List (String × Json)) (key : String)
    (stack : List Frame) :
    place (.member members key :: stack) v =
      .going ⟨.object ((key, v) :: members) :: stack, .separator⟩ := by
  cases v <;> rfl

/-! ## Strings -/

theorem hexValue_digitChar : ∀ d < 16, hexValue (Nat.digitChar d) = some d := by
  decide

theorem hex_four {n : Nat} (h : n < 65536) :
    Text.hex 4 n =
      [Nat.digitChar (n / 4096), Nat.digitChar (n / 256 % 16), Nat.digitChar (n / 16 % 16),
        Nat.digitChar (n % 16)] := by
  have hstep (m : Nat) (hm : 16 ≤ m) :
      Nat.toDigits 16 m = Nat.toDigits 16 (m / 16) ++ [Nat.digitChar (m % 16)] :=
    Nat.toDigits_of_base_le (by decide) hm
  have hlast (m : Nat) (hm : m < 16) : Nat.toDigits 16 m = [Nat.digitChar m] :=
    Nat.toDigits_of_lt_base hm
  unfold Text.hex
  by_cases h1 : n < 16
  · rw [hlast n h1, show n / 4096 = 0 by omega, show n / 256 % 16 = 0 by omega,
      show n / 16 % 16 = 0 by omega, show n % 16 = n by omega]
    rfl
  by_cases h2 : n < 256
  · rw [hstep n (by omega), hlast (n / 16) (by omega), show n / 4096 = 0 by omega,
      show n / 256 % 16 = 0 by omega, show n / 16 % 16 = n / 16 by omega]
    rfl
  by_cases h3 : n < 4096
  · rw [hstep n (by omega), hstep (n / 16) (by omega), hlast (n / 16 / 16) (by omega),
      show n / 4096 = 0 by omega, show n / 256 % 16 = n / 16 / 16 by omega]
    rfl
  · rw [hstep n (by omega), hstep (n / 16) (by omega), hstep (n / 16 / 16) (by omega),
      hlast (n / 16 / 16 / 16) (by omega), show n / 4096 = n / 16 / 16 / 16 by omega,
      show n / 256 = n / 16 / 16 by omega]
    rfl

section
variable (stack : List Frame) (isKey : Bool) (codes : List Nat)

theorem scan_code {a b c d : Char} {w x y z : Nat} (ha : hexValue a = some w)
    (hb : hexValue b = some x) (hc : hexValue c = some y) (hd : hexValue d = some z)
    (rest : List Char) :
    scan ⟨stack, .string isKey codes .plain⟩ ('\\' :: 'u' :: a :: b :: c :: d :: rest) =
      scan ⟨stack, .string isKey ((((w * 16 + x) * 16 + y) * 16 + z) :: codes) .plain⟩ rest := by
  simp [scan, Reader.step, stringStep, ha, hb, hc, hd]

theorem scan_codeEscape {c : Char} (hc : c.toNat < 65536) (rest : List Char) :
    scan ⟨stack, .string isKey codes .plain⟩ (codeEscape c ++ rest) =
      scan ⟨stack, .string isKey (c.toNat :: codes) .plain⟩ rest := by
  have hvalue : ((c.toNat / 4096 * 16 + c.toNat / 256 % 16) * 16 + c.toNat / 16 % 16) * 16 +
      c.toNat % 16 = c.toNat := by omega
  have hread := scan_code stack isKey codes (hexValue_digitChar (c.toNat / 4096) (by omega))
    (hexValue_digitChar (c.toNat / 256 % 16) (by omega))
    (hexValue_digitChar (c.toNat / 16 % 16) (by omega))
    (hexValue_digitChar (c.toNat % 16) (by omega)) rest
  rw [hvalue] at hread
  rw [codeEscape, hex_four hc]
  exact hread

/-- A character is read back from its escape, whichever that is. -/
theorem scan_escapedChar (c : Char) (rest : List Char) :
    scan ⟨stack, .string isKey codes .plain⟩ (escapedChar c ++ rest) =
      scan ⟨stack, .string isKey (c.toNat :: codes) .plain⟩ rest := by
  unfold escapedChar
  split
  · rfl
  · rfl
  · rfl
  · rfl
  · rfl
  · rfl
  · rfl
  · exact scan_codeEscape stack isKey codes (by decide) rest
  · exact scan_codeEscape stack isKey codes (by decide) rest
  · exact scan_codeEscape stack isKey codes (by decide) rest
  · exact scan_codeEscape stack isKey codes (by decide) rest
  · exact scan_codeEscape stack isKey codes (by decide) rest
  · next hquote hslash _ _ _ _ _ _ _ _ _ _ =>
    by_cases hc : c.toNat < 32
    · rw [if_pos hc]
      exact scan_codeEscape stack isKey codes (by omega) rest
    · have hstep : stringStep codes .plain c = .going (c.toNat :: codes) .plain := by
        rw [stringStep, if_neg hquote, if_neg hslash, if_neg hc]
      rw [if_neg hc]
      exact scan_going (by simp only [Reader.step, hstep])

theorem scan_escaped (s rest : List Char) :
    scan ⟨stack, .string isKey codes .plain⟩ (s.flatMap escapedChar ++ rest) =
      scan ⟨stack, .string isKey ((s.map Char.toNat).reverse ++ codes) .plain⟩ rest := by
  induction s generalizing codes with
  | nil => rfl
  | cons c cs ih =>
    rw [List.flatMap_cons, List.append_assoc, scan_escapedChar, ih]
    simp

end

/-- No character is half of a surrogate pair. -/
theorem not_surrogate (c : Char) :
    isHighSurrogate c.toNat = false ∧ isLowSurrogate c.toNat = false := by
  have hvalid : c.toNat < 0xD800 ∨ (0xDFFF < c.toNat ∧ c.toNat < 0x110000) := c.valid
  simp only [isHighSurrogate, isLowSurrogate, Bool.and_eq_false_iff, decide_eq_false_iff_not]
  omega

theorem codeChar_toNat (c : Char) : codeChar c.toNat = c := by
  simp [codeChar, not_surrogate, Char.ofNat_toNat]

theorem codesToChars_map_toNat (s : List Char) : codesToChars (s.map Char.toNat) = s := by
  induction s with
  | nil => rfl
  | cons c cs ih =>
    cases cs with
    | nil => simp [codesToChars, codeChar_toNat]
    | cons d ds =>
      rw [List.map_cons, List.map_cons] at *
      rw [codesToChars, if_neg (by simp [not_surrogate]), ih, codeChar_toNat]

def codes (s : String) : List Nat :=
  (s.toList.map Char.toNat).reverse

theorem step_endString (stack : List Frame) (s : String) :
    Reader.step ⟨stack, .string false (codes s) .plain⟩ '"' = place stack (.str s) := by
  show endString stack false (codes s) = goOn (deliver (.str s) stack)
  simp [endString, codes, codesToChars_map_toNat]

theorem step_endKey (stack : List Frame) (members : List (String × Json)) (key : String) :
    Reader.step ⟨.object members :: stack, .string true (codes key) .plain⟩ '"' =
      .going ⟨.member members key :: stack, .colon⟩ := by
  show endString (.object members :: stack) true (codes key) = _
  simp [endString, codes, codesToChars_map_toNat]

theorem stringChars_append (s : String) (rest : List Char) :
    stringChars s ++ rest = '"' :: (s.toList.flatMap escapedChar ++ '"' :: rest) := by
  simp [stringChars]

theorem scan_quoted (stack : List Frame) (isKey : Bool) (s : String) (rest : List Char) :
    scan ⟨stack, .string isKey [] .plain⟩ (s.toList.flatMap escapedChar ++ rest) =
      scan ⟨stack, .string isKey (codes s) .plain⟩ rest := by
  rw [scan_escaped, List.append_nil]
  rfl

theorem scan_string (stack : List Frame) (s : String) (rest : List Char) :
    scan ⟨stack, .value⟩ (stringChars s ++ rest) = resume (place stack (.str s)) rest := by
  have hopen : Reader.step ⟨stack, .value⟩ '"' = .going ⟨stack, .string false [] .plain⟩ := rfl
  rw [stringChars_append, scan_going hopen, scan_quoted]
  exact scan_place (step_endString stack s) rest

theorem scan_key (stack : List Frame) {phase : Phase} (hphase : phase = .firstKey ∨ phase = .key)
    (members : List (String × Json)) (key : String) (rest : List Char) :
    scan ⟨.object members :: stack, phase⟩ (stringChars key ++ ':' :: rest) =
      scan ⟨.member members key :: stack, .value⟩ rest := by
  have hopen : Reader.step ⟨.object members :: stack, phase⟩ '"' =
      .going ⟨.object members :: stack, .string true [] .plain⟩ := by
    rcases hphase with rfl | rfl <;> rfl
  rw [stringChars_append, scan_going hopen, scan_quoted, scan_going (step_endKey stack members key)]
  rfl

/-! ## Values -/

/-- A scan during which so many containers are open at once. -/
def within (levels : Nat) (s : Scan) : Scan :=
  if levels ≤ nestingLimit then s else .malformed

theorem within_of_le {levels : Nat} (h : levels ≤ nestingLimit) (s : Scan) : within levels s = s :=
  if_pos h

theorem within_within (a b : Nat) (s : Scan) : within a (within b s) = within (max a b) s := by
  unfold within
  by_cases ha : a ≤ nestingLimit <;> by_cases hb : b ≤ nestingLimit <;>
    simp only [Nat.max_le, ha, hb, and_self, and_false, false_and, if_true, if_false]

/-- The text of a value puts the value in its place, unless it is nested too deeply. -/
def ReadsBack (v : Json) : Prop :=
  ∀ (stack : List Frame) (rest : List Char), stack.length ≤ nestingLimit →
    scan ⟨stack, .value⟩ (chars v ++ rest) =
      within (stack.length + height v) (resume (place stack v) rest)

theorem scan_items {items : List Json} (hne : items ≠ []) (h : ∀ v ∈ items, ReadsBack v)
    (done : List Json) (stack : List Frame) (rest : List Char)
    (hlen : stack.length < nestingLimit) :
    scan ⟨.array done :: stack, .value⟩ (itemChars items ++ ']' :: rest) =
      within (stack.length + 1 + itemsHeight items)
        (scan ⟨.array (items.reverse ++ done) :: stack, .separator⟩ (']' :: rest)) := by
  induction items generalizing done with
  | nil => exact (hne rfl).elim
  | cons v vs ih =>
    have hv (rest : List Char) := h v (by simp) (.array done :: stack) rest hlen
    simp only [List.length_cons, place_array, resume] at hv
    cases vs with
    | nil =>
      rw [itemChars, hv]
      simp [itemsHeight]
    | cons w ws =>
      have hcomma : Reader.step ⟨.array (v :: done) :: stack, .separator⟩ ',' =
          .going ⟨.array (v :: done) :: stack, .value⟩ := rfl
      have hrest := ih (by simp) (fun u hu => h u (by simp [hu])) (v :: done)
      rw [itemChars, List.append_assoc, List.cons_append, hv, scan_going hcomma, hrest,
        within_within, Nat.add_max_add_left]
      simp [itemsHeight]

theorem scan_members {members : List (String × Json)} (hne : members ≠ [])
    (h : ∀ m ∈ members, ReadsBack m.2) {phase : Phase} (hphase : phase = .firstKey ∨ phase = .key)
    (done : List (String × Json)) (stack : List Frame) (rest : List Char)
    (hlen : stack.length < nestingLimit) :
    scan ⟨.object done :: stack, phase⟩ (memberChars members ++ '\x7d' :: rest) =
      within (stack.length + 1 + membersHeight members)
        (scan ⟨.object (members.reverse ++ done) :: stack, .separator⟩ ('\x7d' :: rest)) := by
  induction members generalizing done phase with
  | nil => exact (hne rfl).elim
  | cons m ms ih =>
    obtain ⟨key, v⟩ := m
    have hv (rest : List Char) := h (key, v) (by simp) (.member done key :: stack) rest hlen
    simp only [List.length_cons, place_member, resume] at hv
    cases ms with
    | nil =>
      rw [memberChars, List.append_assoc, List.cons_append, scan_key stack hphase, hv]
      simp [membersHeight]
    | cons n ns =>
      have hcomma : Reader.step ⟨.object ((key, v) :: done) :: stack, .separator⟩ ',' =
          .going ⟨.object ((key, v) :: done) :: stack, .key⟩ := rfl
      have hrest := ih (by simp) (fun u hu => h u (by simp [hu])) (Or.inr rfl) ((key, v) :: done)
      rw [memberChars, List.append_assoc, List.append_assoc, List.cons_append, List.cons_append,
        scan_key stack hphase, hv, scan_going hcomma, hrest, within_within, Nat.add_max_add_left]
      simp [membersHeight]

theorem scan_firstItem {v : Json} (h : Plain v) (stack : List Frame) (rest : List Char) :
    scan ⟨stack, .firstItem⟩ (chars v ++ rest) = scan ⟨stack, .value⟩ (chars v ++ rest) := by
  cases h with
  | null => rfl
  | bool b => cases b <;> rfl
  | str s => rfl
  | arr _ => rfl
  | obj _ => rfl

theorem itemChars_cons (v : Json) (vs : List Json) :
    ∃ tail, itemChars (v :: vs) = chars v ++ tail := by
  cases vs with
  | nil => exact ⟨[], by simp [itemChars]⟩
  | cons w ws => exact ⟨_, itemChars.eq_3 v w ws⟩

theorem chars_arr (items : List Json) : chars (.arr items) = '[' :: itemChars items ++ [']'] := rfl

theorem chars_obj (members : List (String × Json)) :
    chars (.obj members) = '\x7b' :: memberChars members ++ ['\x7d'] := rfl

theorem readsBack_arr {items : List Json} (hplain : ∀ v ∈ items, Plain v)
    (h : ∀ v ∈ items, ReadsBack v) : ReadsBack (.arr items) := by
  intro stack rest _
  have hstep : Reader.step ⟨stack, .value⟩ '[' = openContainer (.array []) .firstItem stack := rfl
  rw [chars_arr, height, List.cons_append, List.cons_append, List.append_assoc, List.singleton_append]
  by_cases hlen : stack.length < nestingLimit
  · rw [openContainer, if_pos hlen] at hstep
    rw [scan_going hstep]
    cases items with
    | nil =>
      rw [itemsHeight, within_of_le (by omega)]
      exact scan_place rfl rest
    | cons v vs =>
      have hclose : Reader.step ⟨.array ((v :: vs).reverse ++ []) :: stack, .separator⟩ ']' =
          place stack (.arr (v :: vs)) := by
        show close (.arr ((v :: vs).reverse ++ []).reverse) stack = close (.arr (v :: vs)) stack
        simp
      have hfirst : scan ⟨.array [] :: stack, .firstItem⟩ (itemChars (v :: vs) ++ ']' :: rest) =
          scan ⟨.array [] :: stack, .value⟩ (itemChars (v :: vs) ++ ']' :: rest) := by
        obtain ⟨tail, htail⟩ := itemChars_cons v vs
        rw [htail, List.append_assoc]
        exact scan_firstItem (hplain v (by simp)) _ _
      rw [hfirst, scan_items (by simp) h [] stack rest hlen, scan_place hclose, Nat.add_assoc,
        Nat.add_comm 1]
  · rw [openContainer, if_neg hlen] at hstep
    rw [scan_malformed hstep, within, if_neg (by omega)]

theorem readsBack_obj {members : List (String × Json)} (h : ∀ m ∈ members, ReadsBack m.2) :
    ReadsBack (.obj members) := by
  intro stack rest _
  have hstep : Reader.step ⟨stack, .value⟩ '\x7b' = openContainer (.object []) .firstKey stack := rfl
  rw [chars_obj, height, List.cons_append, List.cons_append, List.append_assoc, List.singleton_append]
  by_cases hlen : stack.length < nestingLimit
  · rw [openContainer, if_pos hlen] at hstep
    rw [scan_going hstep]
    cases members with
    | nil =>
      rw [membersHeight, within_of_le (by omega)]
      exact scan_place rfl rest
    | cons m ms =>
      have hclose : Reader.step ⟨.object ((m :: ms).reverse ++ []) :: stack, .separator⟩ '\x7d' =
          place stack (.obj (m :: ms)) := by
        show close (.obj ((m :: ms).reverse ++ []).reverse) stack = close (.obj (m :: ms)) stack
        simp
      rw [scan_members (by simp) h (Or.inl rfl) [] stack rest hlen, scan_place hclose,
        Nat.add_assoc, Nat.add_comm 1]
  · rw [openContainer, if_neg hlen] at hstep
    rw [scan_malformed hstep, within, if_neg (by omega)]

theorem Plain.readsBack {v : Json} (h : Plain v) : ReadsBack v := by
  induction h with
  | null =>
    intro stack rest hlen
    rw [height, Nat.add_zero, within_of_le hlen]
    exact @scan_place ⟨stack, .word ['l'] .null⟩ 'l' stack .null rfl rest
  | bool b =>
    intro stack rest hlen
    rw [height, Nat.add_zero, within_of_le hlen]
    cases b with
    | false => exact @scan_place ⟨stack, .word ['e'] (.bool false)⟩ 'e' stack (.bool false) rfl rest
    | true => exact @scan_place ⟨stack, .word ['e'] (.bool true)⟩ 'e' stack (.bool true) rfl rest
  | str s =>
    intro stack rest hlen
    rw [height, Nat.add_zero, within_of_le hlen]
    exact scan_string stack s rest
  | arr h ih => exact readsBack_arr h ih
  | obj _ ih => exact readsBack_obj ih

/-- A text is taken apart into the value it was made of, as long as the nesting is allowed. -/
theorem parse?_chars {v : Json} (h : Plain v) :
    parse? v.chars = if v.height ≤ nestingLimit then some v else none := by
  have hscan := h.readsBack [] [] (by decide)
  simp only [List.append_nil, List.length_nil, Nat.zero_add] at hscan
  unfold parse? Reader.start
  rw [hscan, within]
  by_cases hheight : v.height ≤ nestingLimit
  · rw [if_pos hheight, if_pos hheight]
    cases h <;> rfl
  · rw [if_neg hheight, if_neg hheight]

end SymbolicCalculus.Json
