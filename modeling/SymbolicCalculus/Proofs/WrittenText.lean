import Mathlib.Data.List.Induction
import SymbolicCalculus.Proofs.JsonGrammar
import SymbolicCalculus.Proofs.JsonText

/-!
# Text that is written follows the grammar

The text of a value without numbers stands for that value, however deeply it is nested. The
grammar adds items and members at the end, so the texts of lists are looked at from there.
-/

set_option autoImplicit false

namespace SymbolicCalculus.Json

/-! ## Strings -/

theorem hexNumber?_hex {n : Nat} (h : n < 65536) : hexNumber? (Text.hex 4 n) = some n := by
  have hvalue : ((n / 4096 * 16 + n / 256 % 16) * 16 + n / 16 % 16) * 16 + n % 16 = n := by omega
  rw [hex_four h]
  simp [hexNumber?, hexValue_digitChar (n / 4096) (by omega),
    hexValue_digitChar (n / 256 % 16) (by omega), hexValue_digitChar (n / 16 % 16) (by omega),
    hexValue_digitChar (n % 16) (by omega), hvalue]

theorem codeText_codeEscape {c : Char} (h : c.toNat < 65536) : CodeText c.toNat (codeEscape c) := by
  refine .hex ?_ (hexNumber?_hex h)
  rw [hex_four h]
  rfl

theorem codeText_escapedChar (c : Char) : CodeText c.toNat (escapedChar c) := by
  unfold escapedChar
  split
  · exact .escape rfl
  · exact .escape rfl
  · exact .escape rfl
  · exact .escape rfl
  · exact .escape rfl
  · exact .escape rfl
  · exact .escape rfl
  · exact codeText_codeEscape (by decide)
  · exact codeText_codeEscape (by decide)
  · exact codeText_codeEscape (by decide)
  · exact codeText_codeEscape (by decide)
  · exact codeText_codeEscape (by decide)
  · next hquote hslash _ _ _ _ _ _ _ _ _ _ =>
    by_cases hc : c.toNat < 32
    · rw [if_pos hc]
      exact codeText_codeEscape (by omega)
    · rw [if_neg hc]
      exact .plain hquote hslash (Nat.le_of_not_lt hc)

theorem codesText_flatMap (cs : List Char) :
    CodesText (cs.map Char.toNat) (cs.flatMap escapedChar) := by
  induction cs using List.reverseRecOn with
  | nil => exact .nil
  | append_singleton cs c ih =>
    rw [List.map_append, List.flatMap_append, List.flatMap_singleton]
    exact ih.push (codeText_escapedChar c)

theorem stringText_stringChars (s : String) : StringText s (stringChars s) := by
  have h := StringText.intro (codesText_flatMap s.toList)
  rwa [codesToChars_map_toNat, String.ofList_toList] at h

/-! ## Lists from their ends -/

theorem itemChars_append {items : List Json} (h : items ≠ []) (v : Json) :
    itemChars (items ++ [v]) = itemChars items ++ ',' :: v.chars := by
  induction items with
  | nil => exact absurd rfl h
  | cons w rest ih =>
    cases rest with
    | nil => rfl
    | cons u rest =>
      show chars w ++ ',' :: itemChars (u :: rest ++ [v]) = _
      rw [ih (by simp), itemChars]
      simp

theorem itemsText_itemChars {items : List Json} (hne : items ≠ [])
    (h : ∀ v ∈ items, Written v v.chars) : ItemsText items (itemChars items) := by
  induction items using List.reverseRecOn with
  | nil => exact absurd rfl hne
  | append_singleton items v ih =>
    have hv := h v (by simp)
    by_cases hitems : items = []
    · subst hitems
      simpa [itemChars] using ItemsText.first Blanks.nil hv Blanks.nil
    · rw [itemChars_append hitems]
      have hfront := ih hitems fun w hw => h w (by simp [hw])
      simpa using ItemsText.next hfront Blanks.nil hv Blanks.nil

/-- One member without blanks. -/
def memberText (m : String × Json) : List Char :=
  stringChars m.1 ++ ':' :: m.2.chars

theorem memberChars_append {members : List (String × Json)} (h : members ≠ [])
    (m : String × Json) :
    memberChars (members ++ [m]) = memberChars members ++ ',' :: memberText m := by
  induction members with
  | nil => exact absurd rfl h
  | cons first rest ih =>
    obtain ⟨key, v⟩ := first
    cases rest with
    | nil => simp [memberChars, memberText]
    | cons next rest =>
      show stringChars key ++ ':' :: chars v ++ ',' :: memberChars (next :: rest ++ [m]) = _
      rw [ih (by simp), memberChars]
      simp

theorem memberText_written {m : String × Json} (h : Written m.2 m.2.chars) :
    MemberText m (memberText m) := by
  simpa [memberText] using MemberText.intro Blanks.nil (stringText_stringChars m.1) Blanks.nil
    Blanks.nil h Blanks.nil

theorem membersText_memberChars {members : List (String × Json)} (hne : members ≠ [])
    (h : ∀ m ∈ members, Written m.2 m.2.chars) : MembersText members (memberChars members) := by
  induction members using List.reverseRecOn with
  | nil => exact absurd rfl hne
  | append_singleton members m ih =>
    have hm := memberText_written (h m (by simp))
    by_cases hmembers : members = []
    · subst hmembers
      exact .first hm
    · rw [memberChars_append hmembers]
      exact .next (ih hmembers fun m' hm' => h m' (by simp [hm'])) hm

/-! ## Values -/

theorem Plain.written {v : Json} (h : Plain v) : Written v v.chars := by
  induction h with
  | null => exact .null
  | bool b =>
    cases b with
    | true => exact .true
    | false => exact .false
  | str s => exact .str (stringText_stringChars s)
  | @arr items _ ih =>
    rw [chars_arr]
    by_cases hitems : items = []
    · subst hitems
      exact .emptyArr Blanks.nil
    · exact .arr (itemsText_itemChars hitems ih)
  | @obj members _ ih =>
    rw [chars_obj]
    by_cases hmembers : members = []
    · subst hmembers
      exact .emptyObj Blanks.nil
    · exact .obj (membersText_memberChars hmembers ih)

end SymbolicCalculus.Json
