import Mathlib.Data.List.DropRight
import TradePlan.Proofs.Outcome
import TradePlan.Settings.Ini
import TradePlan.Text.Integer

/-!
# Texts in settings

The values of a settings file have no blanks around them, so it does not matter who trims them again:

    Ini.read text = .ok ini  →  ini.get? group key = some value  →  Text.trim value = value

Counts are read in two ways, as a count up to a limit and as a whole number of 64 bits.  Both give the
number that the digits write.
-/

namespace TradePlan

/-! ## Trimming -/

namespace Text

/-- Trimming at the end leaves the first character, which is not blank. -/
theorem trimLeft_trimChars (cs : List Char) : trimLeft (trimChars cs) = trimChars cs := by
  refine List.dropWhile_eq_self_iff.mpr fun hpos hblank => ?_
  have hprefix : trimChars cs <+: trimLeft cs := List.rdropWhile_prefix isBlank _
  have hlen : 0 < (trimLeft cs).length := hpos.trans_le hprefix.length_le
  rw [List.IsPrefix.getElem hprefix hpos] at hblank
  exact List.dropWhile_get_zero_not isBlank cs hlen hblank

theorem trimChars_trimChars (cs : List Char) : trimChars (trimChars cs) = trimChars cs := by
  have hright : trimRight (trimChars cs) = trimChars cs := List.rdropWhile_idempotent isBlank _
  rw [trimChars, trimLeft_trimChars, hright]

theorem trim_ofList_trimChars (cs : List Char) :
    trim (String.ofList (trimChars cs)) = String.ofList (trimChars cs) := by
  rw [trim, String.toList_ofList, trimChars_trimChars]

end Text

namespace Ini

/-- No value has blanks around it. -/
def IsTrimmed (ini : Ini) : Prop :=
  ∀ entry ∈ ini.entries, ∀ value ∈ entry.value, Text.trim value = value

theorem trim_of_readLine {number : Nat} {raw : List Char} {key value : String}
    (h : readLine number raw = .ok (.entry key (some value))) : Text.trim value = value := by
  rw [readLine] at h
  generalize Text.trimChars _ = content at h
  split at h
  · simp at h
  · split at h <;> simp at h
  · split at h
    · simp at h
    · next key value hcut =>
      generalize Text.trimChars key = name at h
      split at h
      · simp at h
      · simp only [Except.ok.injEq, Line.entry.injEq, Option.some.injEq] at h
        rw [← h.2]
        exact Text.trim_ofList_trimChars value

theorem trim_of_mem_readLines {number : Nat} {group : String} {raws : List (List Char)}
    {entries : List Entry} (h : readLines number group raws = .ok entries) :
    ∀ entry ∈ entries, ∀ value ∈ entry.value, Text.trim value = value := by
  induction raws generalizing number group entries with
  | nil =>
    cases h
    simp
  | cons raw rest ih =>
    rw [readLines, bind_eq_ok_iff] at h
    obtain ⟨line, hline, h⟩ := h
    cases line with
    | nothing => exact ih h
    | group name => exact ih h
    | entry key value =>
      obtain ⟨others, hothers, h⟩ := bind_eq_ok_iff.mp h
      cases h
      rw [List.forall_mem_cons]
      refine ⟨?_, ih hothers⟩
      rintro text ⟨rfl⟩
      exact trim_of_readLine hline

theorem isTrimmed_of_read {text : String} {ini : Ini} (h : read text = .ok ini) : ini.IsTrimmed := by
  obtain ⟨entries, hentries, h⟩ := bind_eq_ok_iff.mp h
  cases h
  exact trim_of_mem_readLines hentries

theorem IsTrimmed.trim_get? {ini : Ini} (h : ini.IsTrimmed) {group key text : String}
    (hget : ini.get? group key = some text) : Text.trim text = text := by
  obtain ⟨entry, hfind, hvalue⟩ := Option.bind_eq_some_iff.mp hget
  exact h entry (List.mem_reverse.mp (List.mem_of_find?_eq_some hfind)) text hvalue

end Ini

/-! ## Counts -/

namespace Text

/-- A text that writes a count: digits, with or without a plus sign in front. -/
def WritesCount (text : String) (n : Nat) : Prop :=
  ∃ digits : List Char, digits ≠ [] ∧ digits.all Char.isDigit = true ∧
    Nat.ofDigitChars 10 digits 0 = n ∧ (text.toList = digits ∨ text.toList = '+' :: digits)

theorem digitsValue?_eq_some_iff {cs : List Char} {n : Nat} :
    digitsValue? cs = some n ↔
      cs ≠ [] ∧ cs.all Char.isDigit = true ∧ Nat.ofDigitChars 10 cs 0 = n := by
  rw [digitsValue?]
  split <;> grind

theorem readCount?_eq_some_iff {limit n : Nat} {text : String} :
    readCount? limit text = some n ↔ WritesCount text n ∧ n ≤ limit := by
  rw [readCount?, Option.filter_eq_some_iff, decide_eq_true_eq, digitsValue?_eq_some_iff]
  refine and_congr_left fun _ => ?_
  split
  · next cs htext =>
    constructor
    · rintro ⟨hne, hall, hvalue⟩
      exact ⟨cs, hne, hall, hvalue, .inr htext⟩
    · rintro ⟨digits, hne, hall, hvalue, h | h⟩
      · rw [← h, htext] at hall
        simp at hall
      · obtain rfl := (List.cons.inj (htext.symm.trans h)).2
        exact ⟨hne, hall, hvalue⟩
  · next hplus =>
    constructor
    · rintro ⟨hne, hall, hvalue⟩
      exact ⟨_, hne, hall, hvalue, .inl rfl⟩
    · rintro ⟨digits, hne, hall, hvalue, h | h⟩
      · rw [h]
        exact ⟨hne, hall, hvalue⟩
      · exact absurd h (hplus digits)

theorem readInteger?_of_writesCount {text : String} {n : Nat} (h : WritesCount text n)
    (hn : n < 0x8000000000000000) : readInteger? text = some (n : Int) := by
  obtain ⟨digits, hne, hall, hvalue, htext⟩ := h
  have hdigits : digitsValue? digits = some n := digitsValue?_eq_some_iff.mpr ⟨hne, hall, hvalue⟩
  rw [readInteger?, Option.filter_eq_some_iff]
  refine ⟨?_, by simp; omega⟩
  split
  · next cs hminus => grind
  · next cs hplus => grind
  · next hminus hplus => grind

end Text

end TradePlan
