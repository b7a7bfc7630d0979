import BlockCode.Field
import Mathlib

namespace BlockCode

theorem digitsValue_eq (ds : List Char) : digitsValue ds = Nat.ofDigitChars 10 ds 0 := by
  simp [digitsValue, Nat.ofDigitChars_eq_foldl]

namespace Number

/-- The numbers with at most 53 binary digits that are not too large. -/
def isBinary64 : Number → Bool
  | .finite _ units => decide (units < limit) && units % spacing units == 0
  | _ => true

theorem isBinary64_finite {negative : Bool} {units : Nat} :
    isBinary64 (.finite negative units) = true ↔ units < limit ∧ spacing units ∣ units := by
  simp [isBinary64, Nat.dvd_iff_mod_eq_zero]

theorem roundDiv_mul (q : Nat) {d : Nat} (hd : 0 < d) : roundDiv (q * d) d = q := by
  simp [roundDiv, hd]

theorem roundDiv_le (n d : Nat) : roundDiv n d ≤ n / d + 1 := by
  simp only [roundDiv]
  split
  · omega
  · split
    · omega
    · split <;> omega

theorem natPow_pos {b : Nat} (hb : 0 < b) (e : Nat) : 0 < Nat.pow b e := Nat.pow_pos hb

theorem one_pos : 0 < one := by
  unfold one
  generalize 1074 = e
  exact natPow_pos (by decide) e

theorem spacing_pos (units : Nat) : 0 < spacing units := natPow_pos (by decide) _

theorem nearest_mul {units d : Nat} (h : spacing units ∣ units) (hd : 0 < d) :
    nearest (units * d) d = units := by
  obtain ⟨q, hq⟩ := h
  have hs := spacing_pos units
  simp only [nearest, Nat.mul_div_cancel _ hd]
  have hn : units * d = q * (d * spacing units) := by
    conv_lhs => rw [hq]
    ring
  rw [hn, roundDiv_mul _ (Nat.mul_pos hd hs), Nat.mul_comm, ← hq]

theorem spacing_dvd_of_le {q : Nat} (hq : q ≤ 2 ^ 53) (a : Nat) :
    spacing (q * 2 ^ a) ∣ q * 2 ^ a := by
  rcases Nat.eq_zero_or_pos q with rfl | hpos
  · simp
  · have hne : q * 2 ^ a ≠ 0 := Nat.ne_of_gt (Nat.mul_pos hpos (Nat.two_pow_pos a))
    rcases Nat.lt_or_eq_of_le hq with hlt | rfl
    · have hlog : (q * 2 ^ a).log2 < 53 + a := by
        rw [Nat.log2_lt hne, Nat.pow_add]
        exact Nat.mul_lt_mul_of_pos_right hlt (Nat.two_pow_pos a)
      apply Dvd.dvd.mul_left
      exact Nat.pow_dvd_pow 2 (by omega)
    · rw [← Nat.pow_add, spacing, Nat.log2_two_pow]
      exact Nat.pow_dvd_pow 2 (by omega)

theorem spacing_dvd_nearest (n d : Nat) : spacing (nearest n d) ∣ nearest n d := by
  apply spacing_dvd_of_le
  apply Nat.le_trans (roundDiv_le n _)
  rw [← Nat.div_div_eq_div_mul]
  apply Nat.succ_le_of_lt
  apply (Nat.div_lt_iff_lt_mul (spacing_pos _)).2
  have hlt : n / d < 2 ^ ((n / d).log2 + 1) := Nat.lt_log2_self
  apply Nat.lt_of_lt_of_le hlt
  rw [spacing, Nat.pow_eq, ← Nat.pow_add]
  exact Nat.pow_le_pow_right (by decide) (by omega)

theorem isBinary64_ofRatio (negative : Bool) (n d : Nat) :
    (ofRatio negative n d).isBinary64 = true := by
  unfold ofRatio ofUnits
  split
  · exact isBinary64_finite.2 ⟨‹_›, spacing_dvd_nearest _ _⟩
  · rfl

theorem isBinary64_zero (negative : Bool) : isBinary64 (.finite negative 0) = true := by
  have hlimit : 0 < limit := by
    unfold limit
    generalize 2098 = e
    exact natPow_pos (by decide) e
  exact isBinary64_finite.2 ⟨hlimit, Nat.dvd_zero _⟩

theorem isBinary64_ofDecimal (negative : Bool) (digits : Nat) (exponent : Int) :
    (ofDecimal negative digits exponent).isBinary64 = true := by
  unfold ofDecimal
  split
  · exact isBinary64_zero negative
  · split
    · split
      · rfl
      · exact isBinary64_ofRatio _ _ _
    · split
      · exact isBinary64_zero negative
      · exact isBinary64_ofRatio _ _ _

theorem isBinary64_of_readDecimal {negative : Bool} {cs : List Char} {x : Number}
    (h : readDecimal? negative cs = some x) : x.isBinary64 = true := by
  simp only [readDecimal?] at h
  split at h
  all_goals
    split at h
    · cases h
    · obtain ⟨e, -, rfl⟩ := Option.map_eq_some_iff.1 h
      exact isBinary64_ofDecimal _ _ _

theorem isBinary64_of_readMagnitude {negative : Bool} {cs : List Char} {x : Number}
    (h : readMagnitude? negative cs = some x) : x.isBinary64 = true := by
  simp only [readMagnitude?] at h
  split at h
  · cases h
    rfl
  · split at h
    · cases h
      rfl
    · exact isBinary64_of_readDecimal h

theorem isBinary64_of_read {s : String} {x : Number} (h : read? s = some x) :
    x.isBinary64 = true := by
  simp only [read?, readList?] at h
  split at h <;> exact isBinary64_of_readMagnitude h

theorem ofDecimal_of_decimalAt {units m : Nat} {k : Int} (h : decimalAt? units k = some m) :
    ofDecimal false m k = .finite false units := by
  simp only [decimalAt?, beq_iff_eq] at h
  split at h
  · rename_i hlow
    split at h
    · rename_i hhigh
      cases h
      simpa using (Bool.and_eq_true_iff.1 hhigh).2
    · cases h
      exact hlow
  · split at h
    · rename_i hhigh
      cases h
      exact hhigh
    · cases h

theorem ofUnits_of_lt {negative : Bool} {units : Nat} (h : units < limit) :
    ofUnits negative units = .finite negative units := by
  simp [ofUnits, h]

theorem le_log2_mul_five_pow {units : Nat} (hpos : 0 < units) (e : Nat) :
    e ≤ (units * 5 ^ e).log2 := by
  rw [Nat.le_log2 (by positivity)]
  calc
    2 ^ e ≤ 5 ^ e := Nat.pow_le_pow_left (by decide) e
    _ ≤ units * 5 ^ e := Nat.le_mul_of_pos_left _ hpos

theorem ofDecimal_five_pow {units n e : Nat} (hpos : 0 < units)
    (h : isBinary64 (.finite false units) = true) (hone : one = Nat.pow 2 n) (hn : n = e + 1) :
    ofDecimal false (units * Nat.pow 5 n) (.negSucc e) = .finite false units := by
  subst hn
  obtain ⟨hlt, hdvd⟩ := isBinary64_finite.1 h
  have hne : units * Nat.pow 5 (e + 1) ≠ 0 :=
    Nat.ne_of_gt (Nat.mul_pos hpos (natPow_pos (by decide) _))
  have hlog : ¬ (units * Nat.pow 5 (e + 1)).log2 + 400 ≤ e := by
    have hle : e + 1 ≤ (units * Nat.pow 5 (e + 1)).log2 := le_log2_mul_five_pow hpos (e + 1)
    omega
  have hunits : units * Nat.pow 5 (e + 1) * one = units * Nat.pow 10 (e + 1) := by
    rw [hone, Nat.mul_assoc]
    exact congrArg _ (Nat.mul_pow 5 2 (e + 1)).symm
  simp only [ofDecimal, if_neg hne, if_neg hlog, ofRatio, hunits]
  rw [nearest_mul hdvd (natPow_pos (by decide) _), ofUnits_of_lt hlt]

theorem ofDecimal_exactDecimal {units : Nat} (hpos : 0 < units)
    (h : isBinary64 (.finite false units) = true) :
    ofDecimal false (exactDecimal units).1 (exactDecimal units).2 = .finite false units := by
  have hexponent : (-1074 : Int) = .negSucc 1073 := rfl
  rw [exactDecimal, hexponent]
  have hone : one = Nat.pow 2 1074 := by delta one; exact Eq.refl _
  dsimp only
  generalize hn : 1074 = n at hone ⊢
  exact ofDecimal_five_pow hpos h hone hn.symm

theorem ofDecimal_searchDecimal {units : Nat} (hpos : 0 < units)
    (h : isBinary64 (.finite false units) = true) (tries : Nat) (k : Int) :
    ofDecimal false (searchDecimal units tries k).1 (searchDecimal units tries k).2 =
      .finite false units := by
  induction tries generalizing k with
  | zero => exact ofDecimal_exactDecimal hpos h
  | succ tries ih =>
    rw [searchDecimal]
    split
    · rename_i m hm
      exact ofDecimal_of_decimalAt hm
    · exact ih (k - 1)

theorem ofDecimal_shortest {units : Nat} (hpos : 0 < units)
    (h : isBinary64 (.finite false units) = true) :
    ofDecimal false (shortest units).1 (shortest units).2 = .finite false units :=
  ofDecimal_searchDecimal hpos h _ _

def areDigits (ds : List Char) : Prop := ∀ c ∈ ds, c.isDigit = true

def decimalText (whole fraction : List Char) : List Char :=
  whole ++ if fraction.isEmpty then [] else '.' :: fraction

theorem span_append {p : Char → Bool} {cs rest : List Char} (hcs : ∀ c ∈ cs, p c = true)
    (hrest : ∀ c, rest.head? = some c → p c = false) :
    (cs ++ rest).takeWhile p = cs ∧ (cs ++ rest).dropWhile p = rest := by
  rw [List.takeWhile_append_of_pos hcs, List.dropWhile_append_of_pos hcs]
  cases rest with
  | nil => simp
  | cons c rest => simp [hrest c rfl]

theorem span_nil {p : Char → Bool} : ∀ c, ([] : List Char).head? = some c → p c = false := by
  simp

theorem readDecimal_decimalText (negative : Bool) {whole fraction : List Char}
    (hne : whole ≠ []) (hw : areDigits whole) (hf : areDigits fraction) :
    readDecimal? negative (decimalText whole fraction) =
      some (ofDecimal negative (digitsValue (whole ++ fraction)) (-fraction.length)) := by
  cases fraction with
  | nil =>
    obtain ⟨htake, hdrop⟩ := span_append hw span_nil
    rw [List.append_nil] at htake hdrop
    simp [decimalText, readDecimal?, htake, hdrop, readExponent?, hne]
  | cons f fs =>
    have hpoint : ∀ c, ('.' :: f :: fs).head? = some c → c.isDigit = false := by simp
    obtain ⟨htake, hdrop⟩ := span_append hw hpoint
    obtain ⟨htake', hdrop'⟩ := span_append hf span_nil
    rw [List.append_nil] at htake' hdrop'
    simp [decimalText, readDecimal?, htake, hdrop, htake', hdrop', readExponent?]

theorem readMagnitude_of_head_digit (negative : Bool) {c : Char} {cs : List Char}
    (h : c.isDigit = true) :
    readMagnitude? negative (c :: cs) = readDecimal? negative (c :: cs) := by
  have hlower : c.toLower = c := by
    simp only [Char.isDigit, Bool.and_eq_true, decide_eq_true_eq] at h
    apply dif_neg
    rintro ⟨hA, -⟩
    exact absurd (UInt32.le_trans hA h.2) (by decide)
  have hne : ∀ d : Char, d.isDigit = false → c ≠ d := by
    rintro d hd rfl
    simp [h] at hd
  have hi : c ≠ 'i' := hne 'i' (by decide)
  have hn : c ≠ 'n' := hne 'n' (by decide)
  simp [readMagnitude?, hlower, hi, hn]

theorem read_of_head_digit {c : Char} {cs : List Char} (h : c.isDigit = true) :
    read? (String.ofList (c :: cs)) = readDecimal? false (c :: cs) := by
  rw [read?, String.toList_ofList, readList?]
  · exact readMagnitude_of_head_digit false h
  · rintro ds ⟨⟩
    exact absurd h (by decide)
  · rintro ds ⟨⟩
    exact absurd h (by decide)

theorem read_decimalText {whole fraction : List Char} (hne : whole ≠ []) (hw : areDigits whole)
    (hf : areDigits fraction) :
    read? (String.ofList (decimalText whole fraction)) =
      some (ofDecimal false (digitsValue (whole ++ fraction)) (-fraction.length)) := by
  rw [← readDecimal_decimalText false hne hw hf]
  cases whole with
  | nil => exact absurd rfl hne
  | cons c cs => exact read_of_head_digit (hw c List.mem_cons_self)

theorem areDigits_toDigits (n : Nat) : areDigits (Nat.toDigits 10 n) :=
  fun _ hc => Nat.isDigit_of_mem_toDigits (by decide) (by decide) hc

theorem areDigits_replicate_zero (n : Nat) : areDigits (List.replicate n '0') := by
  intro c hc
  rw [List.eq_of_mem_replicate hc]
  decide

theorem areDigits_append {ds es : List Char} (hd : areDigits ds) (he : areDigits es) :
    areDigits (ds ++ es) := by
  intro c hc
  rcases List.mem_append.1 hc with hc | hc
  · exact hd c hc
  · exact he c hc

theorem positional_spec {m units : Nat} {k : Int} (hpos : 0 < units)
    (h : ofDecimal false m k = .finite false units) :
    ∃ whole fraction, positional m k = decimalText whole fraction ∧ whole ≠ [] ∧
      areDigits whole ∧ areDigits fraction ∧
      ofDecimal false (digitsValue (whole ++ fraction)) (-fraction.length) =
        .finite false units := by
  have hm : m ≠ 0 := by
    rintro rfl
    simp [ofDecimal] at h
    omega
  cases k with
  | ofNat k =>
    have hk : ¬ 400 ≤ k := by
      intro hk
      simp [ofDecimal, hm, hk] at h
    refine ⟨Nat.toDigits 10 m ++ List.replicate k '0', [], by simp [positional, decimalText],
      by simp, areDigits_append (areDigits_toDigits m) (areDigits_replicate_zero k),
      by simp [areDigits], ?_⟩
    have hvalue : digitsValue (Nat.toDigits 10 m ++ List.replicate k '0' ++ []) = m * 10 ^ k := by
      rw [List.append_nil, digitsValue_eq, Nat.ofDigitChars_append, Nat.ofDigitChars_ten_toDigits,
        Nat.ofDigitChars_replicate_zero, Nat.mul_comm]
    rw [← h, hvalue]
    simp [ofDecimal, hm, hk]
  | negSucc k =>
    -- The point stands among the digits; zeros in front see to it that a digit comes before it.
    let digits := Nat.toDigits 10 m
    let padded := List.replicate (k + 1 + 1 - digits.length) '0' ++ digits
    have hdigits : areDigits padded :=
      areDigits_append (areDigits_replicate_zero _) (areDigits_toDigits m)
    have hlength : k + 1 < padded.length := by
      simp only [padded, List.length_append, List.length_replicate]
      omega
    have hdrop : (padded.drop (padded.length - (k + 1))).length = k + 1 := by
      rw [List.length_drop]
      omega
    refine ⟨padded.take (padded.length - (k + 1)), padded.drop (padded.length - (k + 1)), ?_, ?_,
      fun c hc => hdigits c (List.mem_of_mem_take hc),
      fun c hc => hdigits c (List.mem_of_mem_drop hc), ?_⟩
    · have hne : (padded.drop (padded.length - (k + 1))).isEmpty = false := by
        rw [List.isEmpty_eq_false_iff, ← List.length_pos_iff, hdrop]
        omega
      simp only [decimalText, hne, Bool.false_eq_true, if_false]
      rfl
    · rw [← List.length_pos_iff, List.length_take]
      omega
    · have hvalue : digitsValue padded = m := by
        rw [digitsValue_eq, Nat.ofDigitChars_append, Nat.ofDigitChars_replicate_zero, Nat.mul_zero,
          Nat.ofDigitChars_ten_toDigits]
      rw [List.take_append_drop, hvalue, hdrop, ← h]
      rfl

theorem ofDecimal_whole (negative : Bool) {n units : Nat}
    (h : isBinary64 (.finite negative units) = true) (hunits : units = n * one) :
    ofDecimal negative n 0 = .finite negative units := by
  obtain ⟨hlt, hdvd⟩ := isBinary64_finite.1 h
  by_cases hn : n = 0
  · simp [ofDecimal, hn, hunits]
  · change ofDecimal negative n (.ofNat 0) = _
    simp only [ofDecimal, if_neg hn, ofRatio, Nat.pow_eq, Nat.pow_zero, Nat.mul_one, ← hunits]
    have := nearest_mul hdvd Nat.one_pos
    rw [Nat.mul_one] at this
    simp [this, ofUnits_of_lt hlt]

theorem toInt?_of_whole (negative : Bool) {units : Nat} (h : units % one = 0) :
    toInt? (.finite negative units) =
      some (if negative then -((units / one : Nat) : Int) else (units / one : Nat)) := by
  rw [toInt?, if_pos h]
  rfl

theorem toInt?_of_not_whole (negative : Bool) {units : Nat} (h : units % one ≠ 0) :
    toInt? (.finite negative units) = none := by
  rw [toInt?, if_neg h]

theorem code_spec {units : Nat} (h : isBinary64 (.finite false units) = true) :
    ∃ whole fraction, (code (.finite false units)).toList = decimalText whole fraction ∧
      whole ≠ [] ∧ areDigits whole ∧ areDigits fraction ∧
      ofDecimal false (digitsValue (whole ++ fraction)) (-fraction.length) =
        .finite false units := by
  have hdisplay : units ≠ 0 → ∃ whole fraction,
      (display (.finite false units)).toList = decimalText whole fraction ∧
      whole ≠ [] ∧ areDigits whole ∧ areDigits fraction ∧
      ofDecimal false (digitsValue (whole ++ fraction)) (-fraction.length) =
        .finite false units := by
    intro hne
    have hpos := Nat.pos_of_ne_zero hne
    simpa [display, hne] using positional_spec hpos (ofDecimal_shortest hpos h)
  -- A whole number is written as an integer unless it is large, and then it is displayed as others.
  by_cases hwhole : units % one = 0
  · have htoInt : toInt? (.finite false units) = some ((units / one : Nat) : Int) :=
      toInt?_of_whole false hwhole
    have hunits : units = units / one * one :=
      (Nat.div_mul_cancel (Nat.dvd_of_mod_eq_zero hwhole)).symm
    simp only [code, htoInt, Int.natAbs_natCast]
    split
    · refine ⟨Nat.toDigits 10 (units / one), [], ?_, Nat.toDigits_ne_nil, areDigits_toDigits _,
        by simp [areDigits], ?_⟩
      · change (toString (units / one)).toList = _
        simp [decimalText]
      · rw [List.append_nil, digitsValue_eq, Nat.ofDigitChars_ten_toDigits]
        exact ofDecimal_whole false h hunits
    · apply hdisplay
      rintro rfl
      simp at *
  · have htoInt : toInt? (.finite false units) = none := toInt?_of_not_whole false hwhole
    simp only [code, htoInt]
    apply hdisplay
    rintro rfl
    simp at hwhole

theorem read_code {units : Nat} (h : isBinary64 (.finite false units) = true) :
    read? (code (.finite false units)) = some (.finite false units) := by
  obtain ⟨whole, fraction, htext, hne, hw, hf, hvalue⟩ := code_spec h
  rw [← String.ofList_toList (s := code _), htext, read_decimalText hne hw hf, hvalue]

theorem code_negative {units : Nat} (hpos : 0 < units) :
    code (.finite true units) = "-" ++ code (.finite false units) := by
  have hdisplay : display (.finite true units) = "-" ++ display (.finite false units) := by
    rw [← String.toList_inj]
    simp [display, Nat.ne_of_gt hpos]
  by_cases hwhole : units % one = 0
  · have hn : 0 < units / one :=
      Nat.div_pos (Nat.le_of_dvd hpos (Nat.dvd_of_mod_eq_zero hwhole)) one_pos
    obtain ⟨n, hn⟩ := Nat.exists_eq_succ_of_ne_zero (Nat.ne_of_gt hn)
    have hneg : toInt? (.finite true units) = some (.negSucc n) := by
      rw [toInt?_of_whole true hwhole, hn]
      rfl
    have hposInt : toInt? (.finite false units) = some ((n + 1 : Nat) : Int) := by
      rw [toInt?_of_whole false hwhole, hn]
      rfl
    simp only [code, hneg, hposInt, hdisplay, Int.natAbs_natCast, Int.natAbs_negSucc]
    split <;> rfl
  · rw [code, code, toInt?_of_not_whole true hwhole, toInt?_of_not_whole false hwhole]
    exact hdisplay

theorem code_zero (negative : Bool) : code (.finite negative 0) = "0" := by
  rw [code, toInt?_of_whole negative (Nat.zero_mod one), Nat.zero_div]
  cases negative <;> rfl

theorem finite_lt_zero (negative : Bool) (units : Nat) :
    lt (.finite negative units) .zero = true ↔ negative = true ∧ 0 < units := by
  cases negative <;> simp [lt, rank?, zero]

end Number

def Field.isBinary64 : Field → Bool
  | .number x => x.isBinary64
  | _ => true

theorem Field.isBinary64_toNumber {f : Field} (h : f.isBinary64 = true) {x : Number}
    (hx : f.toNumber? = some x) : x.isBinary64 = true := by
  cases f with
  | text s => exact Number.isBinary64_of_read hx
  | number y =>
    cases hx
    exact h
  | flag b =>
    rw [toNumber?, Option.some.injEq] at hx
    rw [← hx]
    exact Number.isBinary64_ofRatio _ _ _
  | «variable» id => cases hx

end BlockCode
