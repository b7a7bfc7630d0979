import BlockCode.Proofs.Demands
import BlockCode.Proofs.Directions
import BlockCode.Proofs.Programs

namespace BlockCode

open Text Render

def Emission.IsStatement : Emission → Prop
  | .expression _ => False
  | _ => True

def Emission.Spans (e : Emission) : Prop := ∀ f, e = .expression f → Span f.code

theorem Emission.IsStatement.spans {e : Emission} (h : e.IsStatement) : e.Spans := by
  rintro f rfl
  exact h.elim

theorem Emission.IsTidy.spans {e : Emission} (h : e.IsTidy) : e.Spans := by
  rintro f rfl
  exact h

namespace Rules

variable (s : Site)

theorem statement_conditional : Ensures (conditional s) Emission.IsStatement :=
  .bind fun _ => .bind fun _ => .pure trivial

theorem statement_repetition : Ensures (repetition s) Emission.IsStatement :=
  .bind fun _ => .bind fun _ => .bind fun _ => .bind fun _ => .pure trivial

theorem statement_jump : Ensures (jump s) Emission.IsStatement := by
  unfold jump
  split <;> exact .bind fun _ => .bind fun inside => by split <;> exact .pure trivial

theorem statement_print : Ensures (print s) Emission.IsStatement :=
  .bind fun message => by cases message <;> exact .pure trivial

end Rules

theorem Rulebook.spans_builtin {s : Site} (hs : s.HasSpans) {type : String} {rule : Rule}
    (h : builtinRules.lookup type = some rule) (hsteady : (rule s).Steady) :
    Yields (rule s) Emission.Spans := by
  obtain ⟨before, after, hrules, -⟩ := List.lookup_eq_some_iff.1 h
  have hmem : (type, rule) ∈ builtinRules := by simp [hrules]
  have hstatement : Ensures (rule s) Emission.IsStatement → Yields (rule s) Emission.Spans :=
    fun hrule p e p' _ hrun => ⟨hsteady.continues hrun, (hrule p e p' hrun).spans⟩
  have hexpression : Yields (rule s) Emission.IsTidy → Yields (rule s) Emission.Spans :=
    fun hrule p e p' hp hrun => ⟨hsteady.continues hrun, (hrule p e p' hp hrun).2.spans⟩
  have hall : ∀ r ∈ builtinRules,
      Ensures (r.2 s) Emission.IsStatement ∨ Yields (r.2 s) Emission.IsTidy := by
    simp only [builtinRules, List.forall_mem_cons, List.not_mem_nil, false_implies, implies_true,
      and_true]
    exact ⟨.inl (Rules.statement_conditional s), .inl (Rules.statement_conditional s),
      .inl (Rules.statement_repetition s), .inl (Rules.statement_repetition s),
      .inl (.bind fun _ => .bind fun _ => .pure trivial),
      .inl (.bind fun _ => .bind fun _ => .pure trivial), .inl (Rules.statement_jump s),
      .inr (Rules.tidy_boolean s),
      .inr (.pure (by decide : Span "None")), .inr (Rules.tidy_negation hs),
      .inr (Rules.tidy_comparison hs), .inr (Rules.tidy_logicOperation hs),
      .inr (Rules.tidy_choice hs), .inr (Rules.tidy_number s), .inr (Rules.tidy_arithmetic hs),
      .inr (Rules.tidy_leftOperator hs (by decide) _ _ _),
      .inl (.bind fun _ => .bind fun _ => .pure trivial), .inr (Rules.tidy_text s),
      .inl (Rules.statement_print s), .inr (Rules.tidy_variableValue s),
      .inl (.bind fun _ => .bind fun _ => .pure trivial)⟩
  exact (hall _ hmem).elim hstatement hexpression

namespace Tree

variable {c : Setup} {head : Head} {values statements : List (String × Option Tree)}

theorem hasSpans_of_values (h : ∀ input t, (input, some t) ∈ values →
    Yields (t.operand c).text fun text => ∀ f, text = .expression f → Span f.code) :
    Site.HasSpans ⟨head, c.options, operands c values, chains c statements⟩ := by
  intro input operand hoperand
  rw [join_lookup_operands] at hoperand
  obtain ⟨t, ht, rfl⟩ := Option.map_eq_some_iff.1 hoperand
  exact h input t (mem_of_at? ht)

theorem spans_operand (hc : c.book = .builtin) (t : Tree) :
    Yields (t.operand c).text fun text => ∀ f, text = .expression f → Span f.code := by
  induction t using induct with
  | missing => exact yields_throw _
  | endless => exact yields_throw _
  | block head values statements next ihvalues _ _ =>
    rw [operand]
    intro p text p' hp hrun
    obtain ⟨rule, emission, hrule, hrun', rfl⟩ := Setup.run_emit_eq_ok hc hrun
    have hsite := steady_site hc head values statements
    have hsteady := Rulebook.kept_builtin steady_kept hsite hrule
    obtain ⟨-, hspans⟩ := Rulebook.spans_builtin (hasSpans_of_values ihvalues) hrule hsteady
      (p.entering head) emission p' hp hrun'
    exact ⟨(Setup.kept_emit steady_kept hsite hc).continues hrun,
      fun f hf => hspans f (Emission.text_eq_expression hf)⟩

theorem hasSpans (hc : c.book = .builtin) :
    Site.HasSpans ⟨head, c.options, operands c values, chains c statements⟩ :=
  hasSpans_of_values fun _ t _ => t.spans_operand hc

theorem isPlain_of_valueOr (hc : c.book = .builtin) {input code : String} {p p' : Pass}
    (hs : p.names.Sound)
    (hrun : (Site.valueOr ⟨head, c.options, operands c values, chains c statements⟩ input
      Level.range.tighter "0").run p = (.ok code, p'))
    (hread : (Number.read? code).isSome = true) : Rules.IsPlain code := by
  rcases code_of_valueOr hrun with ⟨-, rfl, -⟩ | ⟨child, f, -, htext, hcode⟩
  · exact (Rules.isSimple_iff "0").1 (by decide)
  · obtain ⟨hne, -⟩ := isSome_read?_operand hc child hs htext
    rw [hcode, if_neg hne] at hread ⊢
    cases child with
    | missing => cases htext
    | endless => cases htext
    | block head values statements next =>
      by_cases hnumber : head.type = "math_number"
      · cases fragment_of_number hc hnumber htext
        rw [Rules.isSome_read?_numberFragment] at hread
        generalize (head.fieldNumber? "NUM").getD .zero = x at hread
        cases x with
        | nan => cases hread
        | infinite negative => cases hread
        | finite negative units =>
          rw [Rules.splice_numberFragment _ _ (by decide)]
          exact Rules.isPlain_code negative units
      · by_cases hvariable : head.type = "variables_get"
        · obtain ⟨name, rfl, -, -, hidentifier⟩ := fragment_of_variable hc hvariable hs htext
          exact Rules.isPlain_of_isIdentifier hidentifier
        · have hsymbolic := symbolic_of_other hc hnumber hvariable htext
          rw [hsymbolic.splice] at hread
          cases hread

end Tree

namespace Rules

/--
The code of a loop whose ends and step are evaluated once, and the names that the loop takes for
itself: its counter, the names that are bound to code before it, and that of its range.
-/
inductive EvaluatesOnce (s : Site) (p : Pass) : String → List String → Prop
  | repetition {times name bound body : String} {bs : List (String × String)} {q r r' : Pass} :
    s.head.type ∈ repeatTypes → (repeatCount s).run p = (.ok times, q) → OneLine times →
    Refers times bound bs → (s.loopBranch "DO").run r = (.ok body, r') →
    EvaluatesOnce s p (bindings bs ++ forLoop name ("0.." ++ bound) body) (name :: bs.map Prod.fst)
  | counting {k : Counter} {q : Pass} {fixed : Bool} {loop : String} {names : List String} :
    s.head.type = "controls_for" → (counter s).run p = (.ok k, q) →
    OneLine k.start ∧ OneLine k.stop ∧ OneLine k.step →
    (fixed = true → IsPlain k.start ∧ IsPlain k.stop) → k.IsLoop fixed loop names →
    EvaluatesOnce s p loop names

theorem oneLine_dropMinus {code : String} (h : OneLine code) : OneLine (dropMinus code) := by
  intro hmem
  rw [dropMinus, String.toList_ofList] at hmem
  exact h ((List.dropWhile_sublist _).subset hmem)

section

variable {c : Setup} (hc : c.book = .builtin) (head : Head)
  (values statements : List (String × Option Tree))
include hc

theorem yields_counter : Yields (counter (Tree.siteOf c head values statements)) fun k =>
    (OneLine k.start ∧ OneLine k.stop ∧ OneLine k.step) ∧
      ((Number.read? k.start).isSome = true → IsPlain k.start) ∧
      ((Number.read? k.stop).isSome = true → IsPlain k.stop) := by
  let s := Tree.siteOf c head values statements
  have hspans : s.HasSpans := Tree.hasSpans hc
  have hend : ∀ input, Yields (s.valueOr input Level.range.tighter "0") fun code =>
      OneLine code ∧ ((Number.read? code).isSome = true → IsPlain code) := by
    intro input p code p' hs hrun
    obtain ⟨hcont, hspan⟩ := hspans.valueOr (by decide) input _ p code p' hs hrun
    exact ⟨hcont, hspan.oneLine, Tree.isPlain_of_valueOr hc hs hrun⟩
  have hbody : Yields (s.loopBranch "DO") fun _ => True := fun p _ _ _ hrun =>
    ⟨(Site.kept_loopBranch steady_kept
      (Tree.steady_site hc head values statements) "DO").continues hrun, trivial⟩
  refine .bind (s.yields_variableName _) fun name _ => .bind (hend "FROM") fun start hstart =>
    .bind (hend "TO") fun stop hstop => .bind (hspans.valueOr (by decide) _ _) fun step hstep =>
      .bind hbody fun body _ => .pure ?_
  exact ⟨⟨hstart.1, hstop.1, oneLine_dropMinus hstep.oneLine⟩, hstart.2, hstop.2⟩

theorem onlyAsks_site : Site.Matches (fun _ => True) (fun act _ => act.OnlyAsks fun _ => True)
    (Tree.siteOf c head values statements) (Tree.operands c values) (Tree.chains c statements) :=
  Tree.kept_site (onlyAsks_kept _) (fun e p => ⟨[], .throw e p, by simp⟩) hc head values statements

theorem onlyAsks_counter :
    (counter (Tree.siteOf c head values statements)).OnlyAsks fun _ => True := by
  have hsite := onlyAsks_site hc head values statements
  exact @kept_counter _ _ (onlyAsks_kept _).toKeptSteps _ _ (Tree.chains c statements)
    hsite.toValuesMatch (Site.kept_loopBranch (onlyAsks_kept _) hsite "DO")

variable {p p' : Pass} (hs : p.names.Sound) {emission : Emission}
include hs

theorem evaluatesOnce_repetition (htype : head.type ∈ repeatTypes)
    (hrun : (repetition (Tree.siteOf c head values statements)).run p = (.ok emission, p')) :
    ∃ loop names before after, emission = .statement loop ∧
      EvaluatesOnce (Tree.siteOf c head values statements) p loop names ∧
      (repetition (Tree.siteOf c head values statements)).Asks p
        (before ++ names.map .temporary ++ after) := by
  obtain ⟨times, q, name, bound, bs, q', body, htimes, hbs, hbody, rfl, hasks⟩ :=
    repetition_cases hrun
  have hsite := onlyAsks_site hc head values statements
  obtain ⟨before, hbefore, -⟩ :=
    kept_repeatCount (onlyAsks_kept _).toKeptSteps hsite.toValuesMatch [] p
  obtain ⟨after, hafter, -⟩ := Site.kept_loopBranch (onlyAsks_kept _) hsite "DO" q'
  obtain ⟨-, hspan⟩ := tidy_repeatCount (Tree.hasSpans hc) p times q hs htimes
  exact ⟨_, _, before, after, rfl, .repetition htype htimes hspan.oneLine hbs hbody,
    hasks before after hbefore hafter⟩

theorem evaluatesOnce_countingLoop (htype : head.type = "controls_for")
    (hrun : (countingLoop (Tree.siteOf c head values statements)).run p = (.ok emission, p')) :
    ∃ loop names before after, emission = .statement loop ∧
      EvaluatesOnce (Tree.siteOf c head values statements) p loop names ∧
      (countingLoop (Tree.siteOf c head values statements)).Asks p
        (before ++ names.map .temporary ++ after) := by
  obtain ⟨k, q, loop, names, hk, -, rfl, hloop, hasks⟩ := countingLoop_cases hrun
  obtain ⟨log, hlog, -⟩ := onlyAsks_counter hc head values statements p
  obtain ⟨-, hlines, hplain, hplain'⟩ := yields_counter hc head values statements p k q hs hk
  refine ⟨loop, names, log, [], rfl, .counting htype hk hlines (fun hfixed => ?_) hloop, ?_⟩
  · rw [Bool.and_eq_true] at hfixed
    exact ⟨hplain hfixed.1, hplain' hfixed.2⟩
  · rw [List.append_nil]
    exact hasks log hlog

end

end Rules

theorem Setup.asks_emit {c : Setup} (hc : c.book = .builtin) {s : Site} {p p' : Pass} {rule : Rule}
    {emission : Emission} {log : List Request}
    (hrule : Rulebook.builtinRules.lookup s.head.type = some rule)
    (hrun : (rule s).run (p.entering s.head) = (.ok emission, p'))
    (h : (rule s).Asks (p.entering s.head) log) : (c.emit s).Asks p log := by
  unfold Setup.emit
  rw [hc, Rulebook.builtin_rule?, hrule, ← List.nil_append log, ← List.append_nil log]
  refine .bind (.report _ p) (run_report _ p) (.bind h hrun ?_)
  cases emission <;> exact .pure _ _

/--
A loop that counts or repeats evaluates its ends and its step once. The names that it takes for that
are different from each other, from those in use, among them those of all declared variables, and
from those that its ends, its step and its body ask for.
-/
theorem Tree.evaluatesOnce_of_text {c : Setup} (hc : c.book = .builtin) {head : Head}
    {values statements : List (String × Option Tree)} {next : Option Tree}
    (htype : head.type ∈ repeatTypes ++ ["controls_for"]) {p p' : Pass} (hs : p.names.Sound)
    {text : BlockText}
    (hrun : ((Tree.block head values statements next).text c).run p = (.ok text, p')) :
    ∃ loop names before after,
      text = .statement ((siteOf c head values statements).wrap loop) ∧
      Rules.EvaluatesOnce (siteOf c head values statements) (p.entering head) loop names ∧
      ((Tree.block head values statements next).text c).Asks p
        (before ++ names.map .temporary ++ after) ∧
      names.Nodup ∧ (∀ name ∈ names, name ∉ p.names.used ∧ ∀ r ∈ before ++ after, r.name ≠ name) ∧
      ∀ q developer own ids used, Pass.Declares q developer own ids used → q.names.Sound →
        q.names.Reaches p.names → ∀ name ∈ names, name ∉ own ++ used := by
  have htext : (Tree.block head values statements next).text c =
      c.emit (siteOf c head values statements) := pure_bind _ _
  rw [htext] at hrun ⊢
  obtain ⟨rule, emission, hrule, hemission, rfl⟩ := Setup.run_emit_eq_ok hc hrun
  obtain ⟨loop, names, before, after, rfl, honce, hasks⟩ : ∃ loop names before after,
      emission = .statement loop ∧
      Rules.EvaluatesOnce (siteOf c head values statements) (p.entering head) loop names ∧
      (rule (siteOf c head values statements)).Asks (p.entering head)
        (before ++ names.map .temporary ++ after) := by
    have hs : (p.entering head).names.Sound := hs
    rcases List.mem_append.1 htype with hrepeat | hfor
    · obtain rfl : Rules.repetition = rule := by
        simp only [repeatTypes, List.mem_cons, List.not_mem_nil, or_false] at hrepeat
        rcases hrepeat with h | h <;> rw [h] at hrule <;> exact Option.some.inj hrule
      exact Rules.evaluatesOnce_repetition hc head values statements hs hrepeat hemission
    · have hfor := List.mem_singleton.1 hfor
      rw [hfor] at hrule
      cases hrule
      exact Rules.evaluatesOnce_countingLoop hc head values statements hs hfor hemission
  have hasks := Setup.asks_emit hc hrule hemission hasks
  obtain ⟨hnodup, hnew⟩ := hasks.temporaries hs
  refine ⟨loop, names, before, after, rfl, honce, hasks, hnodup, hnew, ?_⟩
  intro q developer own ids used hdeclares hq hreach name hname hmem
  exact (hnew name hname).1 (hreach.used_subset (hdeclares.mem_used hq hmem))

/--
Sums at the start, at the step and for the number of rounds, next to a variable that has the name of
a bound. The step of a loop with a fixed direction stands in its header.
-/
theorem Tree.evaluatesOnce_of_text_sum :
    let read (id : String) : Tree :=
      .block { id, type := "variables_get", fields := ⟨[("VAR", .text id)]⟩ } [] [] none
    let number (text : String) : Tree :=
      .block { id := text, type := "math_number", fields := ⟨[("NUM", .text text)]⟩ } [] [] none
    let sum : Tree :=
      .block { id := "sum", type := "math_arithmetic", fields := ⟨[("OP", .text "ADD")]⟩ }
        [("A", some (read "a")), ("B", none)] [] none
    let count : Head := { id := "count", type := "controls_for", fields := ⟨[("VAR", .text "i")]⟩ }
    let again : Head := { id := "again", type := "controls_repeat_ext" }
    let c : Setup := {}
    let p : Pass := { names := { hints := [("i", "i"), ("a", "i_start"), ("n", "n")] } }
    let Once (head : Head) (values : List (String × Option Tree)) (loop : String) : Prop :=
      (((Tree.block head values [] none).text c).run p).1 = .ok (.statement loop) ∧
      ∃ names before after,
        Rules.EvaluatesOnce (siteOf c head values []) (p.entering head) loop names ∧
        ((Tree.block head values [] none).text c).Asks p
          (before ++ names.map .temporary ++ after) ∧
        names.Nodup ∧
        ∀ name ∈ names, name ∉ p.names.used ∧ ∀ r ∈ before ++ after, r.name ≠ name
    p.names.Sound ∧
      Once count [("FROM", some sum), ("TO", some (read "n")), ("BY", some sum)]
        (r"let i_start2 = i_start + 0;
let i_step = (i_start + 0);
let i_range: Box<dyn Iterator<Item = _>> = if i_start2 <= n" ++
          r" { Box::new((i_start2..=n).step_by(i_step as usize)) }" ++
          r" else { Box::new((n..=i_start2).rev().step_by(i_step as usize)) };
for i in i_range {
}
") ∧
      Once count [("FROM", some (number "10")), ("TO", some (number "-2")), ("BY", some sum)]
        r"for i in (-2..=10).rev().step_by((i_start + 0) as usize) {
}
" ∧
      Once count [("FROM", some (number "1")), ("TO", some (number "10"))] r"for i in 1..=10 {
}
" ∧
      Once again [("TIMES", some sum)] r"let repeat_end = i_start + 0;
for count in 0..repeat_end {
}
" := by
  intro read number sum count again c p Once
  have hs : p.names.Sound := { Names.Sound.start [] with }
  have honce : ∀ head values loop, head.type ∈ repeatTypes ++ ["controls_for"] →
      (((Tree.block head values [] none).text c).run p).1 = .ok (.statement loop) →
      Once head values loop := by
    intro head values loop htype htext
    obtain ⟨loop', names, before, after, hloop, hevaluates, hasks, hnodup, hnew, -⟩ :=
      evaluatesOnce_of_text (c := c) rfl htype hs (run_of_fst htext)
    have hsame : loop = loop' := by simpa [Site.wrap, Site.before?, Site.after?, c] using hloop
    exact ⟨htext, names, before, after, hsame ▸ hevaluates, hasks, hnodup, hnew⟩
  refine ⟨hs, honce _ _ _ (by decide) ?_, honce _ _ _ (by decide) ?_, honce _ _ _ (by decide) ?_,
    honce _ _ _ (by decide) ?_⟩ <;> decide +kernel

end BlockCode
