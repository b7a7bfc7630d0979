import BlockCode.Proofs.Bounds

namespace BlockCode

open Render

namespace Number

theorem isBinary64_whole (negative : Bool) {n : Nat} (h : n ≤ 2 ^ 53) :
    isBinary64 (.finite negative (n * one)) = true := by
  have hlt : ∀ a b : Nat, 53 + a < b → n * Nat.pow 2 a < Nat.pow 2 b := fun a b hab =>
    calc n * 2 ^ a ≤ 2 ^ 53 * 2 ^ a := Nat.mul_le_mul_right _ h
      _ = 2 ^ (53 + a) := (Nat.pow_add 2 53 a).symm
      _ < 2 ^ b := Nat.pow_lt_pow_right (by decide) hab
  refine isBinary64_finite.2 ⟨?_, ?_⟩
  · unfold one limit
    apply hlt
    decide
  · unfold one
    generalize 1074 = e
    exact spacing_dvd_of_le h e

theorem readMagnitude_digits (negative : Bool) {n : Nat} (h : n ≤ 2 ^ 53) :
    readMagnitude? negative (toString n).toList = some (.finite negative (n * one)) := by
  obtain ⟨d, ds, htext, hdigit, hdigits, hvalue⟩ := Quantity.exists_digits n
  have hread : readDecimal? negative (decimalText (d :: ds) []) =
      some (ofDecimal negative (digitsValue (d :: ds ++ [])) (-([] : List Char).length)) :=
    readDecimal_decimalText negative (List.cons_ne_nil d ds) hdigits (by simp [areDigits])
  have hdecimal : decimalText (d :: ds) [] = d :: ds := by simp [decimalText]
  rw [hdecimal, List.append_nil, hvalue] at hread
  rw [htext, readMagnitude_of_head_digit negative hdigit, hread]
  exact congrArg some (ofDecimal_whole negative (isBinary64_whole negative h) rfl)

theorem read?_toString {i : Int} (h : i.natAbs ≤ 2 ^ 53) :
    read? (toString i) = some (.finite (decide (i < 0)) (i.natAbs * one)) := by
  cases i with
  | ofNat n =>
    obtain ⟨d, ds, htext, hdigit, -⟩ := Quantity.exists_digits n
    have hplain : ∀ c : Char, c.isDigit = false → ∀ cs, (toString n).toList ≠ c :: cs := by
      intro c hc cs heq
      rw [htext] at heq
      cases heq
      simp [hdigit] at hc
    have hsign : decide (Int.ofNat n < 0) = false :=
      decide_eq_false (not_lt.2 (Int.natCast_nonneg n))
    change readList? (toString n).toList = _
    rw [readList?, hsign]
    · exact readMagnitude_digits false h
    · exact hplain '-' (by decide)
    · exact hplain '+' (by decide)
  | negSucc n =>
    have htext : (toString (Int.negSucc n)).toList = '-' :: (toString (n + 1)).toList := by
      change ("-" ++ toString (n + 1)).toList = _
      rw [String.toList_append]
      rfl
    have hsign : decide (Int.negSucc n < 0) = true := decide_eq_true (Int.negSucc_lt_zero n)
    rw [read?, htext, readList?, hsign]
    exact readMagnitude_digits true h

theorem lt_whole (i j : Int) :
    lt (.finite (decide (j < 0)) (j.natAbs * one)) (.finite (decide (i < 0)) (i.natAbs * one)) =
      decide (j < i) := by
  have hrank : ∀ (i : Int) (u : Nat),
      rank? (.finite (decide (i < 0)) (i.natAbs * u)) = some (i * u) := by
    intro i u
    rw [rank?, Nat.cast_mul]
    by_cases hi : i < 0
    · have habs : (i.natAbs : Int) = -i := by omega
      simp [hi, habs]
    · have habs : (i.natAbs : Int) = i := by omega
      simp [hi, habs]
  have hone : (0 : Int) < one := Int.natCast_pos.2 one_pos
  simp only [lt, hrank, mul_lt_mul_iff_left₀ hone]

theorem code_of_toInt? {x : Number} {i : Int} (h : x.toInt? = some i) (hi : i.natAbs < 10 ^ 15) :
    x.code = toString i := by
  have hi : i.natAbs < Nat.pow 10 15 := hi
  rw [code, h]
  exact if_pos hi

end Number

theorem Rules.dropMinus_toString (i : Int) : dropMinus (toString i) = toString i.natAbs := by
  obtain ⟨d, ds, htext, hdigit, -⟩ := Quantity.exists_digits i.natAbs
  have hminus : ¬ (d == '-') = true := by
    rintro h
    rw [eq_of_beq h] at hdigit
    cases hdigit
  have hdrop : (toString i.natAbs).toList.dropWhile (· == '-') = (toString i.natAbs).toList := by
    rw [htext, List.dropWhile_cons_of_neg (p := (· == '-')) hminus]
  have hsign : (toString i).toList.dropWhile (· == '-') =
      (toString i.natAbs).toList.dropWhile (· == '-') := by
    cases i with
    | ofNat n => rfl
    | negSucc n =>
      change ("-" ++ toString (n + 1)).toList.dropWhile _ = _
      rw [String.toList_append]
      rfl
  rw [dropMinus, hsign, hdrop, String.ofList_toList]

def Head.literal? (head : Head) : Option Int := ((head.fieldNumber? "NUM").getD .zero).toInt?

/-- The enabled block at an input, or the default, is a whole number or the value of a variable. -/
inductive Tree.Stands (t : Names) (default : Int) : Option Tree → Quantity → Prop
  | default : Stands t default none (.literal default)
  | number {head : Head} {values statements : List (String × Option Tree)} {next : Option Tree}
    {i : Int} : head.type = "math_number" → head.literal? = some i → i.natAbs < 10 ^ 15 →
    Stands t default (some (.block head values statements next)) (.literal i)
  | variable {head : Head} {values statements : List (String × Option Tree)} {next : Option Tree}
    {name : String} : head.type = "variables_get" →
    t.find? head.variableKey .variable = some name →
    Stands t default (some (.block head values statements next)) (.variable name)

theorem Tree.Stands.natAbs_lt {t : Names} {default i : Int} {child : Option Tree}
    (h : Stands t default child (.literal i)) (hdefault : default.natAbs < 10 ^ 15) :
    i.natAbs < 10 ^ 15 := by
  cases h with
  | default => exact hdefault
  | number _ _ hi => exact hi

theorem Rules.splice_of_literal {x : Number} {i : Int} (hx : x.toInt? = some i)
    (hi : i.natAbs < 10 ^ 15) {least : Level} (hleast : least ≤ Level.unary) :
    (numberFragment x).splice least = toString i := by
  cases x with
  | nan => cases hx
  | infinite negative => cases hx
  | finite negative units =>
    rw [splice_numberFragment negative units hleast, Number.code_of_toInt? hx hi]

section

variable {c : Setup} (hc : c.book = .builtin) {head : Head}
  {values statements : List (String × Option Tree)}
include hc

theorem Tree.code_of_stands {input : String} {least : Level} (hleast : least ≤ Level.unary)
    {default : Int} {t : Names} {q : Quantity} (hq : Stands t default (enabledAt? values input) q)
    {code : String}
    (h : Gave ((siteOf c head values statements).valueOr input least (toString default)) t code) :
    q.IsNamed ∧ code = q.code := by
  obtain ⟨p, p', hs, hrun, ht⟩ := h
  rcases code_of_valueOr hrun with ⟨hnone, rfl, -⟩ | ⟨child, f, hchild, htext, hcode⟩
  · rw [hnone] at hq
    cases hq
    exact ⟨trivial, rfl⟩
  · rw [hchild] at hq
    cases hq with
    | number htype hliteral hi =>
      cases fragment_of_number hc htype htext
      refine ⟨trivial, ?_⟩
      rw [hcode, if_neg (Rules.numberFragment_ne_empty _),
        Rules.splice_of_literal hliteral hi hleast]
      rfl
    | «variable» htype hfind =>
      obtain ⟨name, rfl, hs', hfind', hidentifier⟩ := fragment_of_variable hc htype hs htext
      cases hfind.symm.trans (ht.find? hs' hfind')
      refine ⟨hidentifier, ?_⟩
      rw [hcode, if_neg hidentifier.ne_empty]
      exact Fragment.splice_of_le (hleast.trans (by decide : Level.unary ≤ Level.atomic))

end

theorem Quantity.isPlain_code {q : Quantity} (h : q.IsNamed) : Rules.IsPlain q.code := by
  cases q with
  | literal i =>
    cases i with
    | ofNat n =>
      exact .inr (Rules.numeral_of_isDecimal (s := []) (by simp) (Number.isDecimal_toString n))
    | negSucc n =>
      have htext : (code (.literal (.negSucc n))).toList = ['-'] ++ (toString (n + 1)).toList := by
        change ("-" ++ toString (n + 1)).toList = _
        rw [String.toList_append]
        rfl
      rw [Rules.IsPlain, htext]
      exact .inr (Rules.numeral_of_isDecimal (by simp) (Number.isDecimal_toString (n + 1)))
  | «variable» name => exact Rules.isPlain_of_isIdentifier h

namespace Enumeration

/-- The text is read as an enumeration that counts, whatever values the variables have. -/
def Counts (first last : Quantity) (step : Int) (text : String) : Prop :=
  ∃ e, read? text = some e ∧ ∀ env, ∃ vs, e.values env = some vs ∧
    Counted (first.value env) (last.value env) step vs

variable {step : Int} (hne : step ≠ 0) (hsmall : step.natAbs < 2 ^ 64)
include hne hsmall

theorem counts_choiceText {first last : Quantity} (hfirst : first.IsNamed)
    (hlast : last.IsNamed) {rising falling : String}
    (hrising : Rules.RangeText first.code last.code (toString step.natAbs) false rising)
    (hfalling : Rules.RangeText first.code last.code (toString step.natAbs) true falling) :
    Counts first last step (choiceText first.code last.code rising falling) := by
  refine ⟨_, read?_choiceText hfirst hlast hrising hfalling, fun env =>
    ⟨_, ?_, counted_everyNth (first.value env) (last.value env) hne⟩⟩
  have hdirection := RangeExpr.values_direction env first last
  have hpos := Int.natAbs_pos.2 hne
  rw [values]
  split
  · next h =>
    rw [if_pos h] at hdirection
    exact RangeExpr.values_stepped hdirection hpos hsmall
  · next h =>
    rw [if_neg h] at hdirection
    exact RangeExpr.values_stepped hdirection hpos hsmall

theorem counts_numeric {i j : Int} {falls : Bool} (h : falls = decide (j < i)) {range : String}
    (hrange : Rules.RangeText (toString i) (toString j) (toString step.natAbs) falls range) :
    Counts (.literal i) (.literal j) step range := by
  refine ⟨_, read?_numeric hrange, fun env => ⟨_, ?_, counted_everyNth i j hne⟩⟩
  have hdirection : RangeExpr.values env (if i ≤ j then .inclusive (.literal i) (.literal j)
      else .rev (.inclusive (.literal j) (.literal i))) = some (towards i j) :=
    RangeExpr.values_direction env (.literal i) (.literal j)
  refine RangeExpr.values_stepped ?_ (Int.natAbs_pos.2 hne) hsmall
  rw [RangeExpr.directed, h]
  by_cases hlt : j < i
  · rw [if_neg (not_le.2 hlt)] at hdirection
    rwa [if_pos (decide_eq_true hlt)]
  · rw [if_pos (not_lt.1 hlt)] at hdirection
    rwa [if_neg (by simpa using hlt)]

end Enumeration

namespace Rules.Counter.IsLoop

variable {k : Counter} {loop : String} {names : List String} {step : Int} (hne : step ≠ 0)
  (hsmall : step.natAbs < 2 ^ 64) (hstep : k.step = toString step.natAbs)
include hne hsmall hstep

theorem counts_of_fixed (h : k.IsLoop true loop names) {i j : Int} (hi : i.natAbs ≤ 2 ^ 53)
    (hj : j.natAbs ≤ 2 ^ 53) (hstart : k.start = toString i) (hstop : k.stop = toString j) :
    ∃ range, loop = forLoop k.name range k.body ∧
      Enumeration.Counts (.literal i) (.literal j) step range := by
  cases h with
  | @fixed a b range ha hb hrange =>
    rw [hstart, Number.read?_toString hi] at ha
    rw [hstop, Number.read?_toString hj] at hb
    cases ha
    cases hb
    rw [hstart, hstop, hstep] at hrange
    exact ⟨range, rfl, Enumeration.counts_numeric hne hsmall (Number.lt_whole i j) hrange⟩

theorem counts_of_chosen (h : k.IsLoop false loop names) {first last : Quantity}
    (hfirst : first.IsNamed) (hlast : last.IsNamed) (hstart : k.start = first.code)
    (hstop : k.stop = last.code) :
    ∃ range choice, loop = "let " ++ range ++ ": Box<dyn Iterator<Item = _>> = " ++ choice ++
        ";\n" ++ forLoop k.name range k.body ∧
      Enumeration.Counts first last step choice := by
  cases h with
  | @chosen start stop size range rising falling bs bs' bs'' hbs hbs' hbs'' hrising hfalling =>
    rw [hstart] at hbs
    rw [hstop] at hbs'
    rw [hstep] at hbs''
    obtain ⟨rfl, rfl⟩ := hbs.eq_of_isPlain (Quantity.isPlain_code hfirst)
    obtain ⟨rfl, rfl⟩ := hbs'.eq_of_isPlain (Quantity.isPlain_code hlast)
    obtain ⟨rfl, rfl⟩ :=
      hbs''.eq_of_isPlain (Quantity.isPlain_code (q := .literal step.natAbs) trivial)
    refine ⟨range, _, ?_, Enumeration.counts_choiceText hne hsmall hfirst hlast hrising hfalling⟩
    simp [bindings, Enumeration.choiceText, Text.line, ← String.toList_inj]

end Rules.Counter.IsLoop

section

variable {c : Setup} {head : Head} {values statements : List (String × Option Tree)}

/--
A counting loop between whole numbers and variables counts. With numbers at both ends the loop has
the values in its header; if an end is not taken for a number, they are those of an iterator that is
made before, and the variables may have any values.
-/
theorem Tree.counted_of_text (hc : c.book = .builtin) {next : Option Tree}
    (htype : head.type = "controls_for") {p p' : Pass} (hs : p.names.Sound) {text : BlockText}
    (hrun : ((Tree.block head values statements next).text c).run p = (.ok text, p'))
    {first last : Quantity} {step : Int}
    (hfirst : Stands p'.names 0 (enabledAt? values "FROM") first)
    (hlast : Stands p'.names 0 (enabledAt? values "TO") last)
    (hstep : Stands p'.names 1 (enabledAt? values "BY") (.literal step)) (hne : step ≠ 0) :
    ∃ name body, p'.names.find? head.variableKey .variable = some name ∧
      (∀ i j, first = .literal i → last = .literal j → ∃ range,
        text = .statement ((siteOf c head values statements).wrap
          (Rules.forLoop name range body)) ∧
        Enumeration.Counts first last step range) ∧
      ((p'.names.fixes (enabledAt? values "FROM") &&
          p'.names.fixes (enabledAt? values "TO")) = false → ∃ range choice,
        text = .statement ((siteOf c head values statements).wrap
          ("let " ++ range ++ ": Box<dyn Iterator<Item = _>> = " ++ choice ++ ";\n" ++
            Rules.forLoop name range body)) ∧
        Enumeration.Counts first last step choice) := by
  obtain ⟨k, loop, names, rfl, hname, hstart, hstop, ⟨size, hsize, hby⟩, hloop⟩ :=
    isLoop_of_text hc htype hs hrun
  obtain ⟨-, hfix⟩ := codeAt_of_gave hc hstart
  obtain ⟨-, hfix'⟩ := codeAt_of_gave hc hstop
  obtain ⟨hnamed, hstart⟩ := code_of_stands hc (by decide) hfirst hstart
  obtain ⟨hnamed', hstop⟩ := code_of_stands hc (by decide) hlast hstop
  obtain ⟨-, hby⟩ := code_of_stands hc (by decide) hstep hby
  have hsize : k.step = toString step.natAbs := by
    rw [hsize, hby]
    exact Rules.dropMinus_toString step
  have hsmall : step.natAbs < 2 ^ 64 := (hstep.natAbs_lt (by decide)).trans (by decide)
  refine ⟨k.name, k.body, hname, ?_, fun hfixed => ?_⟩
  · rintro i j rfl rfl
    have hi := (hfirst.natAbs_lt (by decide)).le.trans (by decide : 10 ^ 15 ≤ 2 ^ 53)
    have hj := (hlast.natAbs_lt (by decide)).le.trans (by decide : 10 ^ 15 ≤ 2 ^ 53)
    have hread := (congrArg Number.read? hstart).trans (Number.read?_toString hi)
    have hread' := (congrArg Number.read? hstop).trans (Number.read?_toString hj)
    rw [← hfix, ← hfix', hread, hread'] at hloop
    obtain ⟨range, rfl, hcounts⟩ := hloop.counts_of_fixed hne hsmall hsize hi hj hstart hstop
    exact ⟨range, rfl, hcounts⟩
  · rw [hfixed] at hloop
    obtain ⟨range, choice, rfl, hcounts⟩ :=
      hloop.counts_of_chosen hne hsmall hsize hnamed hnamed' hstart hstop
    exact ⟨range, choice, rfl, hcounts⟩

end

theorem Tree.counted_of_text_falling :
    let number (text : String) : Tree :=
      .block { id := text, type := "math_number", fields := ⟨[("NUM", .text text)]⟩ } [] [] none
    let n : Tree :=
      .block { id := "n", type := "variables_get", fields := ⟨[("VAR", .text "n")]⟩ } [] [] none
    let head : Head := { id := "loop", type := "controls_for", fields := ⟨[("VAR", .text "i")]⟩ }
    let loop (last : Tree) : Tree := .block head
      [("FROM", some (number "10")), ("TO", some last), ("BY", some (number "-5"))] [] none
    let c : Setup := {}
    let p : Pass := { names := { hints := [("i", "i"), ("n", "n")] } }
    let fixed := r"for i in (-2..=10).rev().step_by(5 as usize) {
}
"
    let chosen := r"let i_range: Box<dyn Iterator<Item = _>> = if 10 <= n" ++
      r" { Box::new((10..=n).step_by(5 as usize)) }" ++
      r" else { Box::new((n..=10).rev().step_by(5 as usize)) };
for i in i_range {
}
"
    p.names.Sound ∧ (((loop (number "-2")).text c).run p).1 = .ok (.statement fixed) ∧
      (∃ name body range, fixed = Rules.forLoop name range body ∧
        Enumeration.Counts (.literal 10) (.literal (-2)) (-5) range) ∧
      (((loop n).text c).run p).1 = .ok (.statement chosen) ∧
      ∃ name body range choice,
        chosen = "let " ++ range ++ ": Box<dyn Iterator<Item = _>> = " ++ choice ++ ";\n" ++
          Rules.forLoop name range body ∧
        Enumeration.Counts (.literal 10) (.variable "n") (-5) choice := by
  intro number n head loop c p fixed chosen
  have hs : p.names.Sound := { Names.Sound.start [] with }
  have hfixed : (((loop (number "-2")).text c).run p).1 = .ok (.statement fixed) := by
    decide +kernel
  have hchosen : (((loop n).text c).run p).1 = .ok (.statement chosen) := by decide +kernel
  have hnumber : ∀ t default text i,
      Head.literal? { id := text, type := "math_number", fields := ⟨[("NUM", .text text)]⟩ } =
        some i →
      i.natAbs < 10 ^ 15 → Stands t default (some (number text)) (.literal i) :=
    fun _ _ _ _ hliteral hi => .number rfl hliteral hi
  have hten := fun t default => hnumber t default "10" 10 (by decide +kernel) (by decide)
  have hstep := fun t default => hnumber t default "-5" (-5) (by decide +kernel) (by decide)
  have hlast := fun t default => hnumber t default "-2" (-2) (by decide +kernel) (by decide)
  obtain ⟨p', hrun, hfind, hfix⟩ : ∃ p', ((loop n).text c).run p = (.ok (.statement chosen), p') ∧
      p'.names.find? "n" .variable = some "n" ∧
      (p'.names.fixes (some (number "10")) && p'.names.fixes (some n)) = false :=
    ⟨_, run_of_fst hchosen, by decide +kernel, by decide +kernel⟩
  have hn : Stands p'.names 0 (some n) (.variable "n") := .variable rfl hfind
  obtain ⟨name, body, -, hliterals, -⟩ := counted_of_text (c := c) rfl rfl hs (run_of_fst hfixed)
    (hten _ 0) (hlast _ 0) (hstep _ 1) (by decide)
  obtain ⟨range, hrange, hcounts⟩ := hliterals 10 (-2) rfl rfl
  obtain ⟨name', body', -, -, hchoice⟩ := counted_of_text (c := c) rfl rfl hs hrun (hten _ 0) hn
    (hstep _ 1) (by decide)
  obtain ⟨range', choice, hrange', hcounts'⟩ := hchoice hfix
  have hwrap : ∀ {code code' : String} {s : Site}, s.options = {} →
      BlockText.statement code = .statement (s.wrap code') → code = code' := by
    intro code code' s hs h
    simpa [Site.wrap, Site.before?, Site.after?, hs] using h
  exact ⟨hs, hfixed, ⟨name, body, range, hwrap rfl hrange, hcounts⟩, hchosen, name', body', range',
    choice, hwrap rfl hrange', hcounts'⟩

end BlockCode
