import BlockCode.Proofs.Identifiers
import BlockCode.Proofs.Numbers
import BlockCode.Render.Loops

namespace BlockCode

open Text

namespace Number

def isReadable (c : Char) : Bool := c.isAlphanum || c == '+' || c == '-' || c == '.'

theorem isReadable_of_isDigit {c : Char} (h : c.isDigit = true) : isReadable c = true := by
  simp [isReadable, Char.isAlphanum, h]

theorem isReadable_of_toLower {c : Char} (h : c.toLower.isAlphanum = true) :
    isReadable c = true := by
  by_cases hupper : c.val ≥ 'A'.val ∧ c.val ≤ 'Z'.val
  · have hc : c.isUpper = true := by simpa [Char.isUpper] using hupper
    simp [isReadable, Char.isAlphanum, Char.isAlpha, hc]
  · have hc : c.toLower = c := dif_neg hupper
    rw [hc] at h
    simp [isReadable, h]

theorem isReadable_takeWhile {cs : List Char}
    (h : ∀ c ∈ cs.dropWhile Char.isDigit, isReadable c = true) : ∀ c ∈ cs, isReadable c = true := by
  rw [← List.takeWhile_append_dropWhile (p := Char.isDigit) (l := cs), List.forall_mem_append]
  exact ⟨fun c hc => isReadable_of_isDigit (List.mem_takeWhile_imp hc), h⟩

theorem isReadable_of_readExponent {cs : List Char} {e : Int} (h : readExponent? cs = some e) :
    ∀ c ∈ cs, isReadable c = true := by
  have hdigits : ∀ {ds : List Char}, readExponent?.digits ds = true →
      ∀ c ∈ ds, isReadable c = true := by
    intro ds hds c hc
    simp only [readExponent?.digits, Bool.and_eq_true, List.all_eq_true] at hds
    exact isReadable_of_isDigit (hds.2 c hc)
  have hmark : ∀ {e : Char}, (e == 'e' || e == 'E') = true → isReadable e = true := by
    intro e he
    rcases Bool.or_eq_true _ _ ▸ he with he | he <;> rw [eq_of_beq he] <;> decide
  unfold readExponent? at h
  split at h
  · simp
  · split at h
    · next he =>
      refine List.forall_mem_cons.2 ⟨hmark he, ?_⟩
      split at h
      · split at h
        · next hds => exact List.forall_mem_cons.2 ⟨by decide, hdigits hds⟩
        · cases h
      · split at h
        · next hds => exact List.forall_mem_cons.2 ⟨by decide, hdigits hds⟩
        · cases h
      · split at h
        · next hds => exact hdigits hds
        · cases h
    · cases h

theorem isReadable_of_readDecimal {negative : Bool} {cs : List Char} {x : Number}
    (h : readDecimal? negative cs = some x) : ∀ c ∈ cs, isReadable c = true := by
  refine isReadable_takeWhile ?_
  unfold readDecimal? at h
  dsimp only at h
  generalize cs.dropWhile Char.isDigit = rest at h ⊢
  split at h
  · split at h
    · cases h
    · obtain ⟨e, he, -⟩ := Option.map_eq_some_iff.1 h
      exact List.forall_mem_cons.2
        ⟨by decide, isReadable_takeWhile (isReadable_of_readExponent he)⟩
  · split at h
    · cases h
    · obtain ⟨e, he, -⟩ := Option.map_eq_some_iff.1 h
      exact isReadable_of_readExponent he

def words : List (List Char) :=
  [['i', 'n', 'f'], ['i', 'n', 'f', 'i', 'n', 'i', 't', 'y'], ['n', 'a', 'n']]

def isWord (s : String) : Bool := words.contains (s.toList.map Char.toLower)

theorem readMagnitude?_cases (negative : Bool) (cs : List Char) :
    (cs.map Char.toLower ∈ words ∧ (readMagnitude? negative cs).isSome = true) ∨
      (cs.map Char.toLower ∉ words ∧ readMagnitude? negative cs = readDecimal? negative cs) := by
  unfold readMagnitude?
  generalize cs.map Char.toLower = word
  by_cases hinf : word = ['i', 'n', 'f'] ∨ word = ['i', 'n', 'f', 'i', 'n', 'i', 't', 'y']
  · rcases hinf with rfl | rfl <;> simp [words]
  · rw [not_or] at hinf
    by_cases hnan : word = ['n', 'a', 'n']
    · simp [words, hnan]
    · simp [words, hinf, hnan]

theorem isReadable_of_readMagnitude {negative : Bool} {cs : List Char} {x : Number}
    (h : readMagnitude? negative cs = some x) : ∀ c ∈ cs, isReadable c = true := by
  rcases readMagnitude?_cases negative cs with ⟨hword, -⟩ | ⟨-, heq⟩
  · have hletters : words.all (fun word => word.all Char.isAlphanum) = true := by decide
    have hletter := List.all_eq_true.1 (List.all_eq_true.1 hletters _ hword)
    exact fun c hc => isReadable_of_toLower (hletter _ (List.mem_map_of_mem hc))
  · exact isReadable_of_readDecimal (heq ▸ h)

theorem isReadable_of_read {s : String} {x : Number} (h : read? s = some x) :
    ∀ c ∈ s.toList, isReadable c = true := by
  unfold read? readList? at h
  split at h
  · next heq =>
    exact heq ▸ List.forall_mem_cons.2 ⟨by decide, isReadable_of_readMagnitude h⟩
  · next heq =>
    exact heq ▸ List.forall_mem_cons.2 ⟨by decide, isReadable_of_readMagnitude h⟩
  · exact isReadable_of_readMagnitude h

theorem read?_eq_none_of_mem {s : String} {c : Char} (hc : c ∈ s.toList)
    (h : isReadable c = false) : read? s = none := by
  cases hread : read? s with
  | none => rfl
  | some x => simp [isReadable_of_read hread c hc] at h

theorem isSome_read?_identifier {s : String} (h : IsIdentifier s) :
    (read? s).isSome = isWord s := by
  obtain ⟨first, hfirst, hdigit⟩ := h.start
  obtain ⟨cs, hcs⟩ := List.head?_eq_some_iff.1 hfirst
  have hplain : ∀ d, isIdentifierChar d = false → first ≠ d := by
    rintro d hd rfl
    simp [h.chars first (by simp [hcs])] at hd
  have hread : read? s = readMagnitude? false s.toList := by
    rw [read?, hcs, readList?]
    · exact fun _ heq => hplain '-' (by decide) (List.cons.inj heq).1
    · exact fun _ heq => hplain '+' (by decide) (List.cons.inj heq).1
  rw [hread, isWord]
  rcases readMagnitude?_cases false s.toList with ⟨hword, hsome⟩ | ⟨hword, heq⟩
  · simp [hword, hsome]
  · have hpoint := hplain '.' (by decide)
    have hnone : readDecimal? false s.toList = none := by
      simp [readDecimal?, hcs, hdigit, hpoint]
    rw [heq, hnone]
    simpa using hword

def IsDecimal (cs : List Char) : Prop :=
  ∃ whole fraction, cs = decimalText whole fraction ∧ whole ≠ [] ∧ areDigits whole ∧
    areDigits fraction

theorem isDecimal_of_areDigits {ds : List Char} (hne : ds ≠ []) (h : areDigits ds) :
    IsDecimal ds :=
  ⟨ds, [], by simp [decimalText], hne, h, by simp [areDigits]⟩

theorem isDecimal_positional (m : Nat) (k : Int) : IsDecimal (positional m k) := by
  cases k with
  | ofNat k =>
    change IsDecimal (Nat.toDigits 10 m ++ List.replicate k '0')
    exact isDecimal_of_areDigits (by simp)
      (areDigits_append (areDigits_toDigits m) (areDigits_replicate_zero k))
  | negSucc k =>
    let digits := Nat.toDigits 10 m
    let padded := List.replicate (k + 1 + 1 - digits.length) '0' ++ digits
    have hdigits : areDigits padded :=
      areDigits_append (areDigits_replicate_zero _) (areDigits_toDigits m)
    have hlength : k + 1 < padded.length := by
      simp only [padded, List.length_append, List.length_replicate]
      omega
    refine ⟨padded.take (padded.length - (k + 1)), padded.drop (padded.length - (k + 1)), ?_, ?_,
      fun c hc => hdigits c (List.mem_of_mem_take hc),
      fun c hc => hdigits c (List.mem_of_mem_drop hc)⟩
    · have hne : (padded.drop (padded.length - (k + 1))).isEmpty = false := by
        rw [List.isEmpty_eq_false_iff, ← List.length_pos_iff, List.length_drop]
        omega
      simp only [decimalText, hne, Bool.false_eq_true, if_false]
      rfl
    · rw [← List.length_pos_iff, List.length_take]
      omega

theorem isDecimal_toString (n : Nat) : IsDecimal (toString n).toList := by
  simpa using isDecimal_of_areDigits Nat.toDigits_ne_nil (areDigits_toDigits n)

theorem code_cases (negative : Bool) (units : Nat) :
    ∃ cs, IsDecimal cs ∧ ((code (.finite negative units)).toList = cs ∨
      (code (.finite negative units)).toList = '-' :: cs) := by
  have hdisplay : ∃ cs, IsDecimal cs ∧ ((display (.finite negative units)).toList = cs ∨
      (display (.finite negative units)).toList = '-' :: cs) := by
    refine ⟨if units = 0 then ['0'] else positional (shortest units).1 (shortest units).2, ?_, ?_⟩
    · split
      · exact isDecimal_of_areDigits (by simp) (by simp [areDigits])
      · exact isDecimal_positional _ _
    · cases negative <;> simp [display]
  unfold code
  split
  · next i _ =>
    split
    · cases i with
      | ofNat n => exact ⟨_, isDecimal_toString n, .inl rfl⟩
      | negSucc n =>
        refine ⟨_, isDecimal_toString (n + 1), .inr ?_⟩
        change ("-" ++ toString (n + 1)).toList = _
        rw [String.toList_append]
        rfl
    · exact hdisplay
  · exact hdisplay

theorem isSome_readMagnitude? (negative : Bool) {cs : List Char} (h : IsDecimal cs) :
    (readMagnitude? negative cs).isSome = true := by
  rcases readMagnitude?_cases negative cs with ⟨-, hsome⟩ | ⟨-, heq⟩
  · exact hsome
  · obtain ⟨whole, fraction, rfl, hne, hwhole, hfraction⟩ := h
    rw [heq, readDecimal_decimalText negative hne hwhole hfraction]
    rfl

theorem isSome_read?_code (negative : Bool) (units : Nat) :
    (read? (code (.finite negative units))).isSome = true := by
  obtain ⟨cs, hcs, heq | heq⟩ := code_cases negative units
  · rw [read?, heq]
    obtain ⟨whole, fraction, rfl, hne, hwhole, hfraction⟩ := hcs
    have hread := read_decimalText hne hwhole hfraction
    rw [read?, String.toList_ofList] at hread
    rw [hread]
    rfl
  · rw [read?, heq]
    exact isSome_readMagnitude? true hcs

end Number

namespace Rules

def AreDecimal (ds : List Char) : Prop := ds ≠ [] ∧ ∀ d ∈ ds, isDecimalDigit d = true

inductive Exponent : List Char → Prop
  | none : Exponent []
  | digits {e : Char} {s ds : List Char} : e ∈ ['e', 'E'] → s ∈ [[], ['-'], ['+']] →
    AreDecimal ds → Exponent (e :: (s ++ ds))

inductive Fraction : List Char → Prop
  | none {rest : List Char} : Exponent rest → Fraction rest
  | digits {ds rest : List Char} : AreDecimal ds → Exponent rest → Fraction ('.' :: (ds ++ rest))

inductive Numeral : List Char → Prop
  | digits {s ds rest : List Char} : s ∈ [[], ['-']] → AreDecimal ds → Fraction rest →
    Numeral (s ++ (ds ++ rest))

def IsPlain (code : String) : Prop :=
  (code ≠ "" ∧ ∀ c ∈ code.toList, isWordChar c = true) ∨ Numeral code.toList

theorem AreDecimal.append_ne {ds : List Char} (h : AreDecimal ds) {c : Char}
    (hc : isDecimalDigit c = false) (rest cs : List Char) : ds ++ rest ≠ c :: cs := by
  obtain ⟨d, ds, rfl⟩ := List.exists_cons_of_ne_nil h.1
  rintro ⟨⟩
  simp [h.2 c List.mem_cons_self] at hc

theorem areDecimal_iff (ds : List Char) :
    (!ds.isEmpty && ds.all isDecimalDigit) = true ↔ AreDecimal ds := by
  simp [AreDecimal]

theorem areDecimal_takeWhile (cs : List Char) :
    (!(cs.takeWhile isDecimalDigit).isEmpty) = true ↔ AreDecimal (cs.takeWhile isDecimalDigit) := by
  refine ⟨fun h => ⟨by simpa using h, fun d hd => List.mem_takeWhile_imp hd⟩, fun h => ?_⟩
  simpa using h.1

theorem isExponent_iff (cs : List Char) : isExponent cs = true ↔ Exponent cs := by
  constructor
  · intro h
    unfold isExponent at h
    split at h
    · exact .none
    · next e cs =>
      rw [Bool.and_assoc, Bool.and_eq_true, areDecimal_iff] at h
      obtain ⟨he, h⟩ := h
      replace he : e ∈ ['e', 'E'] := by simpa using he
      split at h
      · exact .digits (s := ['-']) he (by simp) h
      · exact .digits (s := ['+']) he (by simp) h
      · exact .digits (s := []) he (by simp) h
  · intro h
    cases h with
    | none => rfl
    | @digits e sign ds he hsign hds =>
      have hcode : ((e == 'e' || e == 'E') && !ds.isEmpty && ds.all isDecimalDigit) = true := by
        rw [Bool.and_assoc, Bool.and_eq_true, areDecimal_iff]
        exact ⟨by simpa using he, hds⟩
      simp only [List.mem_cons, List.not_mem_nil, or_false] at hsign
      rcases hsign with rfl | rfl | rfl
      · rw [List.nil_append, ← List.append_nil ds, isExponent, List.append_nil]
        · exact hcode
        · exact hds.append_ne (c := '-') (by decide) []
        · exact hds.append_ne (c := '+') (by decide) []
      · exact hcode
      · exact hcode

theorem Exponent.head {cs : List Char} (h : Exponent cs) :
    ∀ c, cs.head? = some c → isDecimalDigit c = false ∧ c ≠ '.' := by
  intro c hc
  cases h with
  | none => cases hc
  | digits he =>
    cases hc
    simp only [List.mem_cons, List.not_mem_nil, or_false] at he
    rcases he with rfl | rfl <;> exact ⟨by decide, by decide⟩

theorem Fraction.head {cs : List Char} (h : Fraction cs) :
    ∀ c, cs.head? = some c → isDecimalDigit c = false := by
  intro c hc
  cases h with
  | none h => exact (h.head c hc).1
  | digits =>
    cases hc
    decide

theorem isFraction_iff (cs : List Char) : isFraction cs = true ↔ Fraction cs := by
  constructor
  · intro h
    unfold isFraction at h
    split at h
    · next ds =>
      rw [Bool.and_eq_true, areDecimal_takeWhile, isExponent_iff] at h
      rw [← List.takeWhile_append_dropWhile (p := isDecimalDigit) (l := ds)]
      exact .digits h.1 h.2
    · exact .none ((isExponent_iff _).1 h)
  · intro h
    cases h with
    | none h =>
      unfold isFraction
      split
      · exact ((h.head '.' rfl).2 rfl).elim
      · exact (isExponent_iff _).2 h
    | @digits ds rest hds hrest =>
      obtain ⟨htake, hdrop⟩ := Number.span_append hds.2 fun c hc => (hrest.head c hc).1
      rw [isFraction, Bool.and_eq_true, areDecimal_takeWhile, isExponent_iff, htake, hdrop]
      exact ⟨hds, hrest⟩

theorem isNumeral_iff (cs : List Char) : isNumeral cs = true ↔ Numeral cs := by
  constructor
  · intro h
    unfold isNumeral at h
    rw [Bool.and_eq_true, areDecimal_takeWhile, isFraction_iff] at h
    split at h
    · next ds =>
      rw [← List.takeWhile_append_dropWhile (p := isDecimalDigit) (l := ds)]
      exact .digits (s := ['-']) (by simp) h.1 h.2
    · rw [← List.takeWhile_append_dropWhile (p := isDecimalDigit) (l := cs)]
      exact .digits (s := []) (by simp) h.1 h.2
  · intro h
    cases h with
    | @digits sign ds rest hsign hds hrest =>
      obtain ⟨htake, hdrop⟩ := Number.span_append hds.2 hrest.head
      have hcode : (!((ds ++ rest).takeWhile isDecimalDigit).isEmpty &&
          isFraction ((ds ++ rest).dropWhile isDecimalDigit)) = true := by
        rw [Bool.and_eq_true, areDecimal_takeWhile, isFraction_iff, htake, hdrop]
        exact ⟨hds, hrest⟩
      simp only [List.mem_cons, List.not_mem_nil, or_false] at hsign
      rcases hsign with rfl | rfl
      · rw [List.nil_append, isNumeral]
        · exact hcode
        · exact hds.append_ne (c := '-') (by decide) rest
      · exact hcode

theorem isSimple_iff (code : String) : isSimple code = true ↔ IsPlain code := by
  simp [isSimple, IsPlain, isNumeral_iff]

theorem isPlain_of_isIdentifier {name : String} (h : IsIdentifier name) : IsPlain name :=
  .inl ⟨h.ne_empty, fun c hc => isWordChar_of_isIdentifierChar (h.chars c hc)⟩

theorem numeral_of_isDecimal {s cs : List Char} (hs : s ∈ [[], ['-']])
    (h : Number.IsDecimal cs) : Numeral (s ++ cs) := by
  obtain ⟨whole, fraction, rfl, hne, hwhole, hfraction⟩ := h
  have hdigits : ∀ {ds : List Char}, Number.areDigits ds →
      ∀ d ∈ ds, isDecimalDigit d = true :=
    fun h d hd => isDecimalDigit_of_isDigit (h d hd)
  unfold Number.decimalText
  split
  · simpa using Numeral.digits hs ⟨hne, hdigits hwhole⟩ (.none .none)
  · next hempty =>
    rw [← List.append_nil fraction]
    exact .digits hs ⟨hne, hdigits hwhole⟩
      (.digits ⟨by simpa using hempty, hdigits hfraction⟩ .none)

theorem isPlain_code (negative : Bool) (units : Nat) :
    IsPlain (Number.code (.finite negative units)) := by
  obtain ⟨cs, hcs, hcode | hcode⟩ := Number.code_cases negative units
  · exact .inr (hcode ▸ numeral_of_isDecimal (s := []) (by simp) hcs)
  · exact .inr (hcode ▸ numeral_of_isDecimal (s := ['-']) (by simp) hcs)

end Rules

end BlockCode
