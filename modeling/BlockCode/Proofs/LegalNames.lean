import BlockCode.Proofs.NameSearch

namespace BlockCode

def IsNameStart (c : Char) : Prop := ('A' ≤ c ∧ c ≤ 'Z') ∨ ('a' ≤ c ∧ c ≤ 'z') ∨ c = '_'

instance (c : Char) : Decidable (IsNameStart c) := inferInstanceAs (Decidable (_ ∨ _))

/-- The name has the form `[A-Za-z_][A-Za-z0-9_]*`, and not all of it are underscores. -/
structure IsLegal (name : String) : Prop where
  form : ∃ c cs, name.toList = c :: cs ∧ IsNameStart c ∧
    ∀ d ∈ cs, IsNameStart d ∨ ('0' ≤ d ∧ d ≤ '9')
  letter : ∃ c ∈ name.toList, c ≠ '_'

theorem isDigit_iff (c : Char) : c.isDigit = true ↔ '0' ≤ c ∧ c ≤ '9' := by
  simp only [Char.isDigit, Char.le_def, Bool.and_eq_true, decide_eq_true_eq, ge_iff_le]

theorem isIdentifierChar_iff (c : Char) :
    isIdentifierChar c = true ↔ IsNameStart c ∨ ('0' ≤ c ∧ c ≤ '9') := by
  simp only [isIdentifierChar, IsNameStart, Char.isAlphanum, Char.isAlpha, Char.isUpper,
    Char.isLower, Bool.or_eq_true, Bool.and_eq_true, decide_eq_true_eq, beq_iff_eq, ge_iff_le,
    isDigit_iff, Char.le_def]
  tauto

theorem IsNameStart.not_isDigit {c : Char} (h : IsNameStart c) : c.isDigit = false := by
  rw [Bool.eq_false_iff, ne_eq, isDigit_iff]
  rintro ⟨-, hle⟩
  rcases h with ⟨hge, -⟩ | ⟨hge, -⟩ | rfl
  · exact absurd (hge.trans hle) (by decide)
  · exact absurd (hge.trans hle) (by decide)
  · exact absurd hle (by decide)

theorem isLegal_iff {name : String} : IsLegal name ↔ IsIdentifier name := by
  constructor
  · rintro ⟨⟨c, cs, heq, hc, hcs⟩, hletter⟩
    refine ⟨?_, ⟨c, by rw [heq, List.head?_cons], hc.not_isDigit⟩, hletter⟩
    rw [heq, List.forall_mem_cons]
    exact ⟨(isIdentifierChar_iff c).2 (.inl hc), fun d hd => (isIdentifierChar_iff d).2 (hcs d hd)⟩
  · rintro ⟨hchars, ⟨c, hhead, hdigit⟩, hletter⟩
    obtain ⟨cs, heq⟩ := List.head?_eq_some_iff.1 hhead
    rw [heq, List.forall_mem_cons] at hchars
    refine ⟨⟨c, cs, heq, ?_, fun d hd => (isIdentifierChar_iff d).1 (hchars.2 d hd)⟩, hletter⟩
    apply ((isIdentifierChar_iff c).1 hchars.1).resolve_right
    rw [← isDigit_iff, hdigit]
    exact Bool.false_ne_true

namespace Text

theorem isBlank_of_isIdentifierChar {c : Char} (h : isIdentifierChar c = true) :
    isBlank c = false := by
  have hrange := isIdentifierChar_range h
  simp only [isBlank, Bool.or_eq_false_iff, Bool.and_eq_false_iff, decide_eq_false_iff_not,
    beq_eq_false_iff_ne]
  omega

theorem trimList_eq {cs : List Char} (h : ∀ c ∈ cs, isBlank c = false) : trimList cs = cs := by
  have hdrop : ∀ cs : List Char, (∀ c ∈ cs, isBlank c = false) → cs.dropWhile isBlank = cs := by
    intro cs hcs
    cases cs with
    | nil => rfl
    | cons c cs => exact List.dropWhile_cons_of_neg (by simp [hcs c])
  rw [trimList, hdrop cs h, hdrop, List.reverse_reverse]
  simpa using h

end Text

theorem cleanHint_of_isIdentifier {name : String} (h : IsIdentifier name) :
    cleanHint name = name.toList := by
  rw [cleanHint, Text.trimList_eq fun c hc => Text.isBlank_of_isIdentifierChar (h.chars c hc)]
  calc name.toList.map (fun c => if isIdentifierChar c then c else '_')
      = name.toList.map id := List.map_congr_left fun c hc => if_pos (h.chars c hc)
    _ = name.toList := List.map_id _

theorem safeName_of_isIdentifier {name : String} (h : IsIdentifier name) (category : Category) :
    safeName name category = name := by
  obtain ⟨c, hhead, hdigit⟩ := h.start
  have hletter : ¬ (cleanHint name).all (· == '_') = true := by
    rw [cleanHint_of_isIdentifier h]
    simpa using h.letter
  have hstart : ¬ (cleanHint name).head?.any Char.isDigit = true := by
    rw [cleanHint_of_isIdentifier h, hhead]
    simpa using hdigit
  rw [safeName, if_neg hletter, if_neg hstart, cleanHint_of_isIdentifier h, String.ofList_toList]

namespace Names

theorem Sound.isIdentifier_resolve {t : Names} (h : t.Sound) (key : String) (category : Category) :
    IsIdentifier (t.resolve key category).1 := by
  have hheld := held_of_call h (c := .resolve key category) rfl
  exact (h.call (.resolve key category)).used_identifier _ hheld.1

theorem isIdentifier_distinct (t : Names) (hint : String) (category : Category) :
    IsIdentifier (t.distinct hint category).1 :=
  t.isIdentifier_free (isIdentifier_safeName hint category)

/--
In every state of a table, the names that it gives out are legal. A legal hint that is not reserved
and not in use becomes the name, also the name of a key that has none yet. What is made from a hint
stays as it is if it is a hint again.
-/
theorem names_are_legal (reserved : List String) (calls : List Call) :
    let t := ({ reserved } : Names).after calls
    (∀ key category, IsLegal (t.resolve key category).1) ∧
    (∀ hint category, IsLegal (t.distinct hint category).1) ∧
    (∀ hint, IsLegal hint → hint ∉ reserved → hint ∉ t.used →
      (∀ category, (t.distinct hint category).1 = hint) ∧
      ∀ key category, t.hints.lookup key = some hint → t.find? key category = none →
        (t.resolve key category).1 = hint) ∧
    ∀ hint category, safeName (safeName hint category) category = safeName hint category := by
  intro t
  have hsound : t.Sound := (Sound.start reserved).after calls
  have hreserved : t.reserved = reserved := after_reserved _ calls
  refine ⟨fun key category => isLegal_iff.2 (hsound.isIdentifier_resolve key category),
    fun hint category => isLegal_iff.2 (t.isIdentifier_distinct hint category),
    fun hint hlegal hunreserved hunused => ?_,
    fun hint category => safeName_of_isIdentifier (isIdentifier_safeName hint category) category⟩
  have hkept := safeName_of_isIdentifier (isLegal_iff.1 hlegal)
  have hfree : t.free hint = hint := by
    apply free_of_not_taken
    rw [mem_taken, isTaken_iff, hreserved]
    exact not_or.2 ⟨hunused, hunreserved⟩
  constructor
  · intro category
    rw [distinct, hkept, hfree]
  · intro key category hhint hfirst
    have hbase : t.base key category = hint := by
      rw [base, hhint]
      exact hkept category
    rw [resolve_of_not_find hfirst, hbase, hfree]

theorem names_are_legal_underscore :
    let t := ({ reserved := ["let"] } : Names).after
      [.setHint "k" "_a1", .distinct "let" .variable, .distinct " _ü" .developer]
    IsLegal "_a1" ∧ t.used = ["dev_var", "let2"] ∧ t.find? "k" .variable = none ∧
    (t.resolve "k" .variable).1 = "_a1" ∧ (t.distinct "_a1" .procedure).1 = "_a1" := by
  intro t
  have hrest : ∀ d ∈ ['a', '1'], IsNameStart d ∨ ('0' ≤ d ∧ d ≤ '9') := by
    simp only [List.forall_mem_cons]
    exact ⟨by decide, by decide, by simp⟩
  have hlegal : IsLegal "_a1" := ⟨⟨'_', ['a', '1'], rfl, by decide, hrest⟩, ⟨'a', by decide⟩⟩
  have hused : t.used = ["dev_var", "let2"] := by decide
  have hunused : "_a1" ∉ t.used := by
    rw [hused]
    decide
  obtain ⟨-, -, hkept, -⟩ := names_are_legal ["let"]
    [.setHint "k" "_a1", .distinct "let" .variable, .distinct " _ü" .developer]
  obtain ⟨hdistinct, hresolve⟩ := hkept "_a1" hlegal (by decide) hunused
  exact ⟨hlegal, hused, rfl, hresolve "k" .variable rfl rfl, hdistinct .procedure⟩

end Names

end BlockCode
