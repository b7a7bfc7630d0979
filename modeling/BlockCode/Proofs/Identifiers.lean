import BlockCode.Names
import BlockCode.Text.Word
import Mathlib

namespace BlockCode

structure IsIdentifier (s : String) : Prop where
  chars : ∀ c ∈ s.toList, isIdentifierChar c = true
  start : ∃ c, s.toList.head? = some c ∧ c.isDigit = false
  letter : ∃ c ∈ s.toList, c ≠ '_'

theorem IsIdentifier.ne_empty {name : String} (h : IsIdentifier name) : name ≠ "" := by
  rintro rfl
  obtain ⟨d, hd, -⟩ := h.letter
  simp at hd

theorem Category.isIdentifier_defaultBase (category : Category) :
    IsIdentifier category.defaultBase := by
  cases category
  · exact ⟨List.all_eq_true.1 (by decide), ⟨'v', by decide⟩, ⟨'v', by decide⟩⟩
  · exact ⟨List.all_eq_true.1 (by decide), ⟨'d', by decide⟩, ⟨'d', by decide⟩⟩
  · exact ⟨List.all_eq_true.1 (by decide), ⟨'f', by decide⟩, ⟨'f', by decide⟩⟩

theorem isIdentifierChar_cleanHint (hint : String) :
    ∀ c ∈ cleanHint hint, isIdentifierChar c = true := by
  intro c hc
  obtain ⟨d, -, rfl⟩ := List.mem_map.1 hc
  by_cases h : isIdentifierChar d = true
  · simp [h]
  · simp only [h, Bool.false_eq_true, if_false]
    decide

theorem isIdentifier_safeName (hint : String) (category : Category) :
    IsIdentifier (safeName hint category) := by
  have hchars := isIdentifierChar_cleanHint hint
  unfold safeName
  generalize cleanHint hint = cs at hchars
  by_cases hblank : cs.all (· == '_') = true
  · simpa [hblank] using category.isIdentifier_defaultBase
  · have hletter : ∃ c ∈ cs, c ≠ '_' := by simpa using hblank
    simp only [hblank, Bool.false_eq_true, if_false]
    cases cs with
    | nil => simp at hblank
    | cons c cs =>
      by_cases hdigit : c.isDigit = true
      · simp only [List.head?_cons, Option.any_some, hdigit, if_true]
        refine ⟨?_, ⟨'m', by simp, by decide⟩, ⟨'m', by simp, by decide⟩⟩
        intro d hd
        simp only [String.toList_append, String.toList_ofList, List.mem_append] at hd
        rcases hd with hd | hd
        · exact List.all_eq_true.1 (by decide) d hd
        · exact hchars d hd
      · simp only [List.head?_cons, Option.any_some, hdigit, Bool.false_eq_true, if_false]
        exact ⟨by simpa using hchars, ⟨c, by simp, by simpa using hdigit⟩, by simpa using hletter⟩

theorem Names.isIdentifier_base (t : Names) (key : String) (category : Category) :
    IsIdentifier (t.base key category) := by
  unfold Names.base
  split
  · exact isIdentifier_safeName _ category
  · exact category.isIdentifier_defaultBase

theorem isIdentifierChar_of_isDigit {c : Char} (h : c.isDigit = true) :
    isIdentifierChar c = true := by
  simp [isIdentifierChar, Char.isAlphanum, h]

theorem Text.isDecimalDigit_of_isDigit {c : Char} (h : c.isDigit = true) :
    isDecimalDigit c = true := by
  have hle : c.toNat ≤ 57 := by
    simp only [Char.isDigit, Bool.and_eq_true, decide_eq_true_eq] at h
    exact h.2
  rw [isDecimalDigit, if_pos (by omega), h]

theorem isIdentifierChar_range {c : Char} (h : isIdentifierChar c = true) :
    0x30 ≤ c.toNat ∧ c.toNat ≤ 0x7A := by
  simp only [isIdentifierChar, Char.isAlphanum, Char.isAlpha, Char.isUpper, Char.isLower,
    Char.isDigit, Bool.or_eq_true, Bool.and_eq_true, decide_eq_true_eq, beq_iff_eq] at h
  rcases h with ((⟨hge, hle⟩ | ⟨hge, hle⟩) | ⟨hge, hle⟩) | rfl
  · exact ⟨le_trans (by decide) hge, le_trans hle (by decide)⟩
  · exact ⟨le_trans (by decide) hge, hle⟩
  · exact ⟨hge, le_trans hle (by decide)⟩
  · decide

theorem Text.isWordChar_of_isIdentifierChar {c : Char} (h : isIdentifierChar c = true) :
    isWordChar c = true := by
  have hle : c.toNat < 0x80 := lt_of_le_of_lt (isIdentifierChar_range h).2 (by decide)
  rw [isWordChar, if_pos hle]
  exact h

theorem IsIdentifier.numbered {base : String} (h : IsIdentifier base) (k : Nat) :
    IsIdentifier (base ++ toString k) where
  chars := by
    intro c hc
    rw [String.toList_append, List.mem_append] at hc
    rcases hc with hc | hc
    · exact h.chars c hc
    · apply isIdentifierChar_of_isDigit
      have hmem : c ∈ Nat.toDigits 10 k := by simpa using hc
      exact Nat.isDigit_of_mem_toDigits (by decide) (by decide) hmem
  start := by
    obtain ⟨c, hc, hdigit⟩ := h.start
    exact ⟨c, by simp [hc], hdigit⟩
  letter := by
    obtain ⟨c, hc, hne⟩ := h.letter
    exact ⟨c, by simp [hc], hne⟩

theorem Names.isIdentifier_freeFrom (t : Names) {base : String} (h : IsIdentifier base)
    (n k : Nat) : IsIdentifier (t.freeFrom base n k) := by
  induction n generalizing k with
  | zero => exact h.numbered k
  | succ n ih =>
    unfold Names.freeFrom
    split
    · exact ih (k + 1)
    · exact h.numbered k

theorem Names.isIdentifier_free (t : Names) {base : String} (h : IsIdentifier base) :
    IsIdentifier (t.free base) := by
  unfold Names.free
  split
  · exact t.isIdentifier_freeFrom h _ _
  · exact h

end BlockCode
