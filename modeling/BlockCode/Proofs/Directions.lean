import BlockCode.Proofs.Declarations
import BlockCode.Proofs.Expressions
import BlockCode.Proofs.LoopForms
import BlockCode.Proofs.Trees

/-!
When the direction of a counting loop is fixed. The rule for counting loops looks at the code of the
two ends and not at their blocks: it takes an end for a number if its code can be read as one. That
is so for finite number blocks and for the default, and also for a variable whose identifier is a
word for infinity or for what is not a number.
-/

namespace BlockCode

def Render.Ensures {α : Type} (act : Render α) (Q : α → Prop) : Prop :=
  ∀ p a p', act.run p = (.ok a, p') → Q a

section

variable {α β : Type} {Q : α → Prop}

theorem Render.Ensures.pure {a : α} (h : Q a) : Render.Ensures (pure a) Q := by
  rintro p _ _ ⟨⟩
  exact h

theorem Render.Ensures.bind {x : Render β} {f : β → Render α} (h : ∀ b, Render.Ensures (f b) Q) :
    Render.Ensures (x >>= f) Q := by
  intro p a p' hrun
  obtain ⟨b, q, -, hrest⟩ := Render.run_bind_eq_ok hrun
  exact h b q a p' hrest

end

def Fragment.IsSymbolic (f : Fragment) : Prop := f.code ≠ "" ∧ Number.read? f.code = none

theorem Fragment.IsSymbolic.of_mem {f : Fragment} {c : Char} (hc : c ∈ f.code.toList)
    (h : Number.isReadable c = false) : f.IsSymbolic := by
  refine ⟨?_, Number.read?_eq_none_of_mem hc h⟩
  intro hempty
  simp [hempty] at hc

theorem Fragment.IsSymbolic.splice {f : Fragment} (h : f.IsSymbolic) (least : Level) :
    Number.read? (f.splice least) = none := by
  unfold Fragment.splice
  split
  · exact Number.read?_eq_none_of_mem (by simp : '(' ∈ _) (by decide)
  · exact h.2

def Emission.IsSymbolic : Emission → Prop
  | .expression f => f.IsSymbolic
  | _ => True

namespace Rules

open Render

variable (s : Site)

theorem symbolic_operatorCode (a sign b : String) (level : Level) :
    (expression (operatorCode a sign b) level).IsSymbolic :=
  Fragment.IsSymbolic.of_mem (c := ' ') (by simp [operatorCode]) (by decide)

theorem symbolic_boolean : Ensures (boolean s) Emission.IsSymbolic := by
  refine .pure ?_
  change _ ≠ "" ∧ _ = none
  dsimp only
  split <;> exact ⟨by decide, by decide⟩

theorem symbolic_negation : Ensures (negation s) Emission.IsSymbolic :=
  .bind fun _ => .pure (Fragment.IsSymbolic.of_mem (c := '!') (by simp) (by decide))

theorem symbolic_leftOperator (left right sign : String) (level : Level) :
    Ensures (leftOperator left right sign level s) Emission.IsSymbolic :=
  .bind fun _ => .bind fun _ => .pure (symbolic_operatorCode _ _ _ _)

theorem symbolic_connective (sign identity : String) (level : Level) :
    Ensures (connective sign identity level s) Emission.IsSymbolic := by
  refine .bind fun a => .bind fun b => .pure ?_
  split <;> exact symbolic_operatorCode _ _ _ _

theorem symbolic_logicOperation : Ensures (logicOperation s) Emission.IsSymbolic := by
  unfold logicOperation
  split <;> exact symbolic_connective s _ _ _

theorem symbolic_choice : Ensures (choice s) Emission.IsSymbolic :=
  .bind fun _ => .bind fun _ => .bind fun _ =>
    .pure (Fragment.IsSymbolic.of_mem (c := ' ') (by simp) (by decide))

theorem symbolic_arithmetic : Ensures (arithmetic s) Emission.IsSymbolic := by
  unfold arithmetic
  split
  · exact .bind fun _ => .bind fun _ =>
      .pure (Fragment.IsSymbolic.of_mem (c := '(') (by simp) (by decide))
  all_goals exact symbolic_leftOperator s _ _ _ _

theorem symbolic_text : Ensures (text s) Emission.IsSymbolic :=
  .pure (Fragment.IsSymbolic.of_mem (c := '"') (by simp [Text.quote]) (by decide))

theorem symbolic_print : Ensures (print s) Emission.IsSymbolic :=
  .bind fun message => by cases message <;> exact .pure trivial

theorem symbolic_jump : Ensures (jump s) Emission.IsSymbolic := by
  unfold jump
  split <;> exact .bind fun _ => .bind fun inside => by split <;> exact .pure trivial

end Rules

open Render in
theorem Rulebook.symbolic_builtin (s : Site) {type : String} {rule : Rule}
    (h : builtinRules.lookup type = some rule) (hnumber : type ≠ "math_number")
    (hvariable : type ≠ "variables_get") : Ensures (rule s) Emission.IsSymbolic := by
  obtain ⟨before, after, hrules, -⟩ := List.lookup_eq_some_iff.1 h
  have hmem : (type, rule) ∈ builtinRules := by simp [hrules]
  have hall : ∀ r ∈ builtinRules, r.1 ≠ "math_number" → r.1 ≠ "variables_get" →
      Ensures (r.2 s) Emission.IsSymbolic := by
    simp only [builtinRules, List.forall_mem_cons, List.not_mem_nil, false_implies, implies_true,
      and_true, ne_eq, not_true_eq_false, true_and]
    have hconditional : Ensures (Rules.conditional s) Emission.IsSymbolic :=
      .bind fun _ => .bind fun _ => .pure trivial
    have hrepetition : Ensures (Rules.repetition s) Emission.IsSymbolic :=
      .bind fun _ => .bind fun _ => .bind fun _ => .bind fun _ => .pure trivial
    exact ⟨fun _ _ => hconditional, fun _ _ => hconditional, fun _ _ => hrepetition,
      fun _ _ => hrepetition, fun _ _ => .bind fun _ => .bind fun _ => .pure trivial,
      fun _ _ => .bind fun _ => .bind fun _ => .pure trivial, fun _ _ => Rules.symbolic_jump s,
      fun _ _ => Rules.symbolic_boolean s, fun _ _ => .pure ⟨by decide, by decide⟩,
      fun _ _ => Rules.symbolic_negation s,
      fun _ _ => .bind fun _ => .bind fun _ => .pure (Rules.symbolic_operatorCode _ _ _ _),
      fun _ _ => Rules.symbolic_logicOperation s, fun _ _ => Rules.symbolic_choice s,
      fun _ _ => Rules.symbolic_arithmetic s, fun _ _ => Rules.symbolic_leftOperator s _ _ _ _,
      fun _ _ => .bind fun _ => .bind fun _ => .pure trivial, fun _ _ => Rules.symbolic_text s,
      fun _ _ => Rules.symbolic_print s, fun _ _ => .bind fun _ => .bind fun _ => .pure trivial⟩
  exact hall _ hmem hnumber hvariable

def Tree.enabledAt? (values : List (String × Option Tree)) (input : String) : Option Tree :=
  (at? values input).filter fun t => !t.isDisabled

/--
Whether the code of this end of a loop is taken for a number: that of the default, of a finite
number, or of a variable whose identifier is a word for a number.
-/
def Names.fixes (t : Names) : Option Tree → Bool
  | none => true
  | some (.block head _ _ _) =>
    if head.type = "math_number" then ((head.fieldNumber? "NUM").getD .zero).isFinite
    else if head.type = "variables_get" then
      (t.find? head.variableKey .variable).any Number.isWord
    else false
  | some _ => false

def Emission.text (s : Site) : Emission → BlockText
  | .statement code => .statement (s.wrap code)
  | .instrumented code => .statement code
  | .expression f => .expression f

theorem Emission.text_eq_expression {s : Site} {emission : Emission} {f : Fragment}
    (h : emission.text s = .expression f) : emission = .expression f := by
  cases emission with
  | statement code => cases h
  | instrumented code => cases h
  | expression f => cases h; rfl

def Pass.entering (p : Pass) (head : Head) : Pass :=
  { p with events := p.events.push (.emitting head.type head.id) }

theorem Setup.run_emit_eq_ok {c : Setup} (hc : c.book = .builtin) {s : Site} {p p' : Pass}
    {text : BlockText} (h : (c.emit s).run p = (.ok text, p')) :
    ∃ rule emission, Rulebook.builtinRules.lookup s.head.type = some rule ∧
      (rule s).run (p.entering s.head) = (.ok emission, p') ∧ text = emission.text s := by
  unfold Setup.emit at h
  rw [hc, Rulebook.builtin_rule?] at h
  split at h
  · cases h
  · next rule hrule =>
    obtain ⟨_, q, hreport, hrest⟩ := Render.run_bind_eq_ok h
    obtain ⟨emission, q', hemission, htext⟩ := Render.run_bind_eq_ok hrest
    rw [Render.run_report] at hreport
    obtain ⟨-, rfl⟩ := Prod.mk.inj hreport
    obtain ⟨rfl, rfl⟩ : q' = p' ∧ text = emission.text s := by
      cases emission <;> cases htext <;> exact ⟨rfl, rfl⟩
    exact ⟨rule, emission, hrule, hemission, rfl⟩

theorem Fragment.splice_of_le {f : Fragment} {least : Level} (h : least ≤ f.level) :
    f.splice least = f.code := by
  rw [splice, needsParens, decide_eq_false (not_lt.2 h)]
  rfl

theorem Rules.splice_numberFragment (negative : Bool) (units : Nat) {least : Level}
    (h : least ≤ Level.unary) :
    (numberFragment (.finite negative units)).splice least =
      Number.code (.finite negative units) := by
  have hatomic : Level.unary ≤ Level.atomic := by decide
  refine Fragment.splice_of_le ?_
  change least ≤ if _ then _ else _
  split
  · exact h
  · exact h.trans hatomic

theorem Rules.isSome_read?_numberFragment (x : Number) :
    (Number.read? ((numberFragment x).splice Level.range.tighter)).isSome = x.isFinite := by
  cases x with
  | nan => decide
  | infinite negative => cases negative <;> decide
  | finite negative units =>
    rw [splice_numberFragment _ _ (by decide), Number.isSome_read?_code]
    rfl

theorem Rules.numberFragment_ne_empty (x : Number) : (numberFragment x).code ≠ "" := by
  cases x with
  | nan => decide
  | infinite negative => cases negative <;> decide
  | finite negative units =>
    obtain ⟨cs, ⟨whole, fraction, rfl, hne, -⟩, hcode⟩ := Number.code_cases negative units
    intro hempty
    change Number.code (.finite negative units) = "" at hempty
    rcases hcode with hcode | hcode <;> simp [hempty, Number.decimalText, hne] at hcode

theorem Render.find?_of_run_nameFor {key name : String} {category : Category} {p p' : Pass}
    (hs : p.names.Sound) (h : (nameFor key category).run p = (.ok name, p')) :
    p'.names.Sound ∧ p'.names.find? key category = some name ∧ IsIdentifier name := by
  obtain ⟨events, hname⟩ := run_nameFor key category p
  have hheld := Names.held_of_call hs (c := .resolve key category) rfl
  have hsound := (p.names.reaches_call (c := .resolve key category) (by simp)).sound hs
  cases h.symm.trans hname
  exact ⟨hsound, p.names.find?_resolve key category, hsound.used_identifier _ hheld.1⟩

namespace Tree

section

variable {c : Setup} {head : Head} {values statements : List (String × Option Tree)}
  {next : Option Tree} {p p' : Pass} {f : Fragment}

theorem fragment_of_number (hc : c.book = .builtin) (htype : head.type = "math_number")
    (hrun : ((block head values statements next).operand c).text.run p =
      (.ok (.expression f), p')) :
    f = Rules.numberFragment ((head.fieldNumber? "NUM").getD .zero) := by
  rw [operand] at hrun
  obtain ⟨rule, emission, hrule, hrun, htext⟩ := Setup.run_emit_eq_ok hc hrun
  cases Emission.text_eq_expression htext.symm
  rw [htype] at hrule
  cases hrule
  cases hrun
  rfl

theorem fragment_of_variable (hc : c.book = .builtin) (htype : head.type = "variables_get")
    (hs : p.names.Sound)
    (hrun : ((block head values statements next).operand c).text.run p =
      (.ok (.expression f), p')) :
    ∃ name, f = ⟨name, .atomic⟩ ∧ p'.names.Sound ∧
      p'.names.find? head.variableKey .variable = some name ∧ IsIdentifier name := by
  rw [operand] at hrun
  obtain ⟨rule, emission, hrule, hrun, htext⟩ := Setup.run_emit_eq_ok hc hrun
  cases Emission.text_eq_expression htext.symm
  rw [htype] at hrule
  cases hrule
  obtain ⟨name, q', hname, hpure⟩ := Render.run_bind_eq_ok hrun
  cases hpure
  exact ⟨name, rfl, Render.find?_of_run_nameFor (p := p.entering head) hs hname⟩

theorem symbolic_of_other (hc : c.book = .builtin) (hnumber : head.type ≠ "math_number")
    (hvariable : head.type ≠ "variables_get")
    (hrun : ((block head values statements next).operand c).text.run p =
      (.ok (.expression f), p')) : f.IsSymbolic := by
  rw [operand] at hrun
  obtain ⟨rule, emission, hrule, hrun, htext⟩ := Setup.run_emit_eq_ok hc hrun
  cases Emission.text_eq_expression htext.symm
  exact Rulebook.symbolic_builtin _ hrule hnumber hvariable _ _ p' hrun

end

theorem isSome_read?_operand {c : Setup} (hc : c.book = .builtin) (child : Tree)
    {p p' : Pass} (hs : p.names.Sound) {f : Fragment}
    (hrun : (child.operand c).text.run p = (.ok (.expression f), p')) :
    f.code ≠ "" ∧ ∀ t, p'.names.Reaches t →
      (Number.read? (f.splice Level.range.tighter)).isSome = t.fixes (some child) := by
  cases child with
  | missing => cases hrun
  | endless => cases hrun
  | block head values statements next =>
    by_cases hnumber : head.type = "math_number"
    · cases fragment_of_number hc hnumber hrun
      refine ⟨Rules.numberFragment_ne_empty _, fun t _ => ?_⟩
      rw [Rules.isSome_read?_numberFragment, Names.fixes, if_pos hnumber]
    · by_cases hvariable : head.type = "variables_get"
      · obtain ⟨name, rfl, hs', hfind, hidentifier⟩ := fragment_of_variable hc hvariable hs hrun
        refine ⟨hidentifier.ne_empty, fun t ht => ?_⟩
        change (Number.read? name).isSome = _
        rw [Number.isSome_read?_identifier hidentifier, Names.fixes, if_neg hnumber,
          if_pos hvariable, ht.find? hs' hfind]
        rfl
      · have hsymbolic := symbolic_of_other hc hnumber hvariable hrun
        refine ⟨hsymbolic.1, fun t _ => ?_⟩
        rw [hsymbolic.splice, Names.fixes, if_neg hnumber, if_neg hvariable]
        rfl

end Tree

def Tree.CodeAt (c : Setup) (values : List (String × Option Tree)) (input code : String) : Prop :=
  match enabledAt? values input with
  | none => code = "0"
  | some child => ∃ f p p', (child.operand c).text.run p = (.ok (.expression f), p') ∧
      code = f.splice Level.range.tighter

section

variable {c : Setup} {head : Head} {values statements : List (String × Option Tree)}

theorem Tree.code_of_valueOr {input default code : String} {least : Level} {p p' : Pass}
    (hrun : (Site.valueOr ⟨head, c.options, operands c values, chains c statements⟩ input least
      default).run p = (.ok code, p')) :
    (enabledAt? values input = none ∧ code = default ∧ p' = p) ∨
      ∃ child f, enabledAt? values input = some child ∧
        (child.operand c).text.run p = (.ok (.expression f), p') ∧
        code = if f.code = "" then default else f.splice least := by
  obtain ⟨value, q, hvalue, hpure⟩ := Render.run_bind_eq_ok hrun
  cases hpure
  unfold Site.value? at hvalue
  rw [join_lookup_operands] at hvalue
  cases hat : at? values input with
  | none =>
    rw [hat] at hvalue
    cases hvalue
    exact .inl ⟨by simp [enabledAt?, hat], rfl, rfl⟩
  | some child =>
    rw [hat] at hvalue
    simp only [Option.map_some, disabled_operand] at hvalue
    cases hdisabled : child.isDisabled with
    | true =>
      rw [hdisabled] at hvalue
      cases hvalue
      exact .inl ⟨by simp [enabledAt?, hat, hdisabled], rfl, rfl⟩
    | false =>
      rw [hdisabled] at hvalue
      obtain ⟨text, q', htext, hcode⟩ := Render.run_bind_eq_ok hvalue
      cases text with
      | statement code => cases hcode
      | expression f =>
        cases hcode
        refine .inr ⟨child, f, by simp [enabledAt?, hat, hdisabled], htext, ?_⟩
        by_cases hempty : f.code = "" <;> simp [hempty]

theorem Tree.codeAt_of_valueOr (hc : c.book = .builtin) {input code : String} {p p' : Pass}
    (hs : p.names.Sound)
    (hrun : (Site.valueOr ⟨head, c.options, operands c values, chains c statements⟩ input
      Level.range.tighter "0").run p = (.ok code, p')) :
    CodeAt c values input code ∧ ∀ t, p'.names.Reaches t →
      (Number.read? code).isSome = t.fixes (enabledAt? values input) := by
  unfold CodeAt
  rcases code_of_valueOr hrun with ⟨hnone, rfl, -⟩ | ⟨child, f, hchild, htext, hcode⟩
  · have hzero : (Number.read? "0").isSome = true := by decide
    rw [hnone]
    exact ⟨rfl, fun _ _ => hzero⟩
  · obtain ⟨hne, hread⟩ := isSome_read?_operand hc child hs htext
    rw [hchild, hcode, if_neg hne]
    exact ⟨⟨f, p, p', htext, rfl⟩, hread⟩

end

/-- The action has given the result at some time, and the table has all names of that time. -/
def Render.Gave {α : Type} (act : Render α) (t : Names) (a : α) : Prop :=
  ∃ p p', p.names.Sound ∧ act.run p = (.ok a, p') ∧ p'.names.Reaches t

section

variable {c : Setup} {head : Head} {values statements : List (String × Option Tree)}

theorem Rules.gave_of_counter (hc : c.book = .builtin) {p p' : Pass} (hs : p.names.Sound)
    {k : Counter} (hrun : (counter (Tree.siteOf c head values statements)).run p = (.ok k, p'))
    {t : Names} (ht : p'.names.Reaches t) :
    t.find? head.variableKey .variable = some k.name ∧
      Render.Gave (Site.valueOr (Tree.siteOf c head values statements) "FROM" Level.range.tighter
        "0") t k.start ∧
      Render.Gave (Site.valueOr (Tree.siteOf c head values statements) "TO" Level.range.tighter
        "0") t k.stop ∧
      ∃ step, k.step = dropMinus step ∧ Render.Gave
        (Site.valueOr (Tree.siteOf c head values statements) "BY" .cast "1") t step := by
  obtain ⟨name, q₁, hname, h₁⟩ := Render.run_bind_eq_ok hrun
  obtain ⟨start, q₂, hstart, h₂⟩ := Render.run_bind_eq_ok h₁
  obtain ⟨stop, q₃, hstop, h₃⟩ := Render.run_bind_eq_ok h₂
  obtain ⟨step, q₄, hstep, h₄⟩ := Render.run_bind_eq_ok h₃
  obtain ⟨body, q₅, hbody, hpure⟩ := Render.run_bind_eq_ok h₄
  cases hpure
  have hsite := Tree.steady_site hc head values statements
  have hvalue := fun input least default =>
    Site.kept_valueOr Render.steady_kept.toKeptSteps hsite.toValuesMatch [] input least default
  -- Names are only added, so what a part has been called at its time it is called later on.
  obtain ⟨hs₁, hfind, -⟩ := Render.find?_of_run_nameFor hs hname
  have hs₂ := ((hvalue _ _ _).continues hstart).names.sound hs₁
  have hs₃ := ((hvalue _ _ _).continues hstop).names.sound hs₂
  have ht₄ := ((Site.kept_loopBranch Render.steady_kept hsite _).continues hbody).names.trans ht
  have ht₃ := ((hvalue _ _ _).continues hstep).names.trans ht₄
  have ht₂ := ((hvalue _ _ _).continues hstop).names.trans ht₃
  have ht₁ := ((hvalue _ _ _).continues hstart).names.trans ht₂
  exact ⟨ht₁.find? hs₁ hfind, ⟨q₁, q₂, hs₁, hstart, ht₂⟩, ⟨q₂, q₃, hs₂, hstop, ht₃⟩, step, rfl,
    q₃, q₄, hs₃, hstep, ht₄⟩

theorem Tree.codeAt_of_gave (hc : c.book = .builtin) {input code : String} {t : Names}
    (h : Render.Gave (Site.valueOr (siteOf c head values statements) input Level.range.tighter "0")
      t code) :
    CodeAt c values input code ∧
      (Number.read? code).isSome = t.fixes (enabledAt? values input) := by
  obtain ⟨p, p', hs, hrun, ht⟩ := h
  obtain ⟨hcode, hread⟩ := codeAt_of_valueOr hc hs hrun
  exact ⟨hcode, hread t ht⟩

theorem Tree.isLoop_of_text (hc : c.book = .builtin) {next : Option Tree}
    (htype : head.type = "controls_for") {p p' : Pass} (hs : p.names.Sound) {text : BlockText}
    (hrun : ((Tree.block head values statements next).text c).run p = (.ok text, p')) :
    ∃ k loop names, text = .statement ((siteOf c head values statements).wrap loop) ∧
      p'.names.find? head.variableKey .variable = some k.name ∧
      Render.Gave (Site.valueOr (siteOf c head values statements) "FROM" Level.range.tighter "0")
        p'.names k.start ∧
      Render.Gave (Site.valueOr (siteOf c head values statements) "TO" Level.range.tighter "0")
        p'.names k.stop ∧
      (∃ step, k.step = Rules.dropMinus step ∧ Render.Gave
        (Site.valueOr (siteOf c head values statements) "BY" .cast "1") p'.names step) ∧
      Rules.Counter.IsLoop k (p'.names.fixes (enabledAt? values "FROM") &&
        p'.names.fixes (enabledAt? values "TO")) loop names := by
  obtain ⟨rule, emission, hrule, hloop, rfl⟩ := Setup.run_emit_eq_ok hc hrun
  rw [htype] at hrule
  cases hrule
  obtain ⟨k, q, loop, names, hk, hcont, rfl, hisLoop, -⟩ := Rules.countingLoop_cases hloop
  obtain ⟨hname, hstart, hstop, hstep⟩ :=
    Rules.gave_of_counter hc (p := p.entering head) hs hk hcont.names
  obtain ⟨-, hread⟩ := codeAt_of_gave hc hstart
  obtain ⟨-, hread'⟩ := codeAt_of_gave hc hstop
  rw [hread, hread'] at hisLoop
  exact ⟨k, loop, names, rfl, hname, hstart, hstop, hstep, hisLoop⟩

/--
A counting loop has the form with a fixed direction exactly if both of its ends are taken for
numbers; any other block at an end makes it choose when it runs.
-/
theorem Tree.counts_of_text (hc : c.book = .builtin) {next : Option Tree}
    (htype : head.type = "controls_for") {p p' : Pass} (hs : p.names.Sound) {text : BlockText}
    (hrun : ((Tree.block head values statements next).text c).run p = (.ok text, p')) :
    ∃ k loop names,
      text = .statement
        (Site.wrap ⟨head, c.options, operands c values, chains c statements⟩ loop) ∧
      p'.names.find? head.variableKey .variable = some k.name ∧
      CodeAt c values "FROM" k.start ∧ CodeAt c values "TO" k.stop ∧
      Rules.Counter.IsLoop k (p'.names.fixes (enabledAt? values "FROM") &&
        p'.names.fixes (enabledAt? values "TO")) loop names := by
  obtain ⟨k, loop, names, rfl, hname, hstart, hstop, -, hisLoop⟩ := isLoop_of_text hc htype hs hrun
  obtain ⟨hcode, -⟩ := codeAt_of_gave hc hstart
  obtain ⟨hcode', -⟩ := codeAt_of_gave hc hstop
  exact ⟨k, loop, names, rfl, hname, hcode, hcode', hisLoop⟩

end

theorem Tree.counts_of_text_variable :
    let last : Tree :=
      .block { id := "last", type := "variables_get", fields := ⟨[("VAR", .text "n")]⟩ } [] [] none
    let values := [("FROM", none), ("TO", some last)]
    let t : Tree :=
      .block { id := "loop", type := "controls_for", fields := ⟨[("VAR", .text "i")]⟩ } values []
        none
    let c : Setup := {}
    let p : Pass := { names := { reserved := [], hints := [("i", "i"), ("n", "nano")] } }
    let loop := r"let i_range: Box<dyn Iterator<Item = _>> = if 0 <= nano { Box::new(0..=nano)" ++
      r" } else { Box::new((nano..=0).rev()) };
for i in i_range {
}
"
    p.names.Sound ∧ ((t.text c).run p).1 = .ok (.statement loop) ∧
      ∃ k names, k.name = "i" ∧ k.start = "0" ∧ CodeAt c values "TO" k.stop ∧
        Rules.Counter.IsLoop k false loop names := by
  intro last values t c p loop
  have hs : p.names.Sound := { Names.Sound.start [] with }
  have htext : ((t.text c).run p).1 = .ok (.statement loop) := by decide +kernel
  obtain ⟨p', hrun, hname, hchoice⟩ : ∃ p', (t.text c).run p = (.ok (.statement loop), p') ∧
      p'.names.find? "i" .variable = some "i" ∧
      (p'.names.fixes (enabledAt? values "FROM") && p'.names.fixes (enabledAt? values "TO")) =
        false :=
    ⟨((t.text c).run p).2, Prod.ext htext rfl, by decide +kernel, by decide +kernel⟩
  obtain ⟨k, loop', names, hloop, hname', hstart, hstop, hisLoop⟩ :=
    counts_of_text (c := c) rfl rfl hs hrun
  have hsame : loop = loop' := by simpa [Site.wrap, Site.before?, Site.after?, c] using hloop
  rw [← hsame, hchoice] at hisLoop
  exact ⟨hs, htext, k, names, Option.some.inj (hname'.symm.trans hname), hstart, hstop, hisLoop⟩

/-- A variable whose identifier is a word for infinity is taken for a number. -/
theorem Setup.generate_counting_from_inf :
    let w : Workspace := {
      blocks := #[
        { id := "first", type := "variables_get", fields := ⟨[("VAR", .text "v")]⟩ },
        { id := "last", type := "math_number", fields := ⟨[("NUM", .text "5")]⟩ },
        { id := "loop", type := "controls_for", fields := ⟨[("VAR", .text "i")]⟩,
          values := ⟨[("FROM", some 0), ("TO", some 1)]⟩ }],
      roots := [2], variableNames := [("i", "i"), ("v", "inf")] }
    let declarations := "let (mut i, mut inf);\n\n"
    let fixed := r"for i in (5..=inf).rev() {
}
"
    Setup.generate {} w = .ok (declarations ++ fixed) ∧ ∀ (k : Rules.Counter) loop names,
      k.IsLoop false loop names → Setup.generate {} w ≠ .ok (declarations ++ loop) := by
  intro w declarations fixed
  have hcode : Setup.generate {} w = .ok (declarations ++ fixed) := by decide +kernel
  refine ⟨hcode, fun k loop names hloop hchoice => ?_⟩
  have hfixed : fixed = loop := by
    simpa using (hcode.symm.trans hchoice)
  have hhead := hloop.head
  rw [← hfixed] at hhead
  exact absurd hhead (by decide)

end BlockCode
