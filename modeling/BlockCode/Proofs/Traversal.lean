import BlockCode.Proofs.ByName
import BlockCode.Proofs.Runs

/-!
What holds of every pass over blocks. A relation between actions that is kept by the steps of the
rules relates the code of a tree to that of what is visible of it: the rules put nothing together in
any other way, and they do not look into disabled blocks. A property of actions is a relation that
leaves the second action aside.
-/

namespace BlockCode

def Fault.isOfLinks : Fault → Bool
  | .missingBlock | .endless => true
  | _ => false

def Head.variableKey (h : Head) : String := (h.fieldText? "VAR").getD ""

/--
A relation that the steps of the rules keep, if only allowed blocks ask for their variables. Loop
bodies are left aside.
-/
structure Render.KeptSteps (allowed : Head → Prop)
    (P : ∀ {α : Type}, Render α → Render α → Prop) : Prop where
  pure {α : Type} (a : α) : P (pure a) (pure a)
  bind {α β : Type} {x y : Render α} {f g : α → Render β} :
    P x y → (∀ a, P (f a) (g a)) → P (x >>= f) (y >>= g)
  throw {α : Type} (e : Fault) : e.isOfLinks = false → P (throw e : Render α) (throw e)
  report (e : Event) : P (Render.report e) (Render.report e)
  variableName (h : Head) :
    allowed h → P (Render.nameFor h.variableKey .variable) (Render.nameFor h.variableKey .variable)
  distinctName (hint : String) :
    P (Render.distinctName hint .variable) (Render.distinctName hint .variable)
  inLoop : P Render.inLoop Render.inLoop

structure Render.Kept (allowed : Head → Prop) (P : ∀ {α : Type}, Render α → Render α → Prop) : Prop
    extends Render.KeptSteps allowed P where
  asLoopBody {α : Type} {act act' : Render α} : P act act' → P act.asLoopBody act'.asLoopBody

section

variable {allowed : Head → Prop} {P : ∀ {α : Type}, Render α → Render α → Prop}
  (hP : Render.KeptSteps allowed P)
include hP

namespace Render.KeptSteps

theorem mapM {α β : Type} {f g : α → Render β} {as : List α} (h : ∀ a ∈ as, P (f a) (g a)) :
    P (as.mapM f) (as.mapM g) := by
  induction as with
  | nil => exact hP.pure []
  | cons a as ih =>
    rw [List.mapM_cons, List.mapM_cons]
    exact hP.bind (h a List.mem_cons_self) fun _ =>
      hP.bind (ih fun a ha => h a (List.mem_cons_of_mem _ ha)) fun _ => hP.pure _

theorem map {α β : Type} {x y : Render α} (f : α → β) (h : P x y) : P (f <$> x) (f <$> y) := by
  rw [map_eq_pure_bind, map_eq_pure_bind]
  exact hP.bind h fun a => hP.pure (f a)

end Render.KeptSteps

end

structure Operand.Matches (P : ∀ {α : Type}, Render α → Render α → Prop) (o o' : Operand) :
    Prop where
  disabled : o.disabled = o'.disabled
  type : o.disabled = false → o.type = o'.type
  text : o.disabled = false → P o.text o'.text

def InputsMatch {α : Type} (R : α → α → Prop) (es es' : List (String × Option α)) : Prop :=
  List.Forall₂ (fun e e' => e.1 = e'.1 ∧ Option.Rel R e.2 e'.2) es es'

namespace InputsMatch

variable {α : Type} {R : α → α → Prop} {es es' : List (String × Option α)}

theorem lookup (h : InputsMatch R es es') (n : String) :
    Option.Rel (Option.Rel R) (es.lookup n) (es'.lookup n) := by
  induction h with
  | nil => exact .none
  | @cons e e' es es' he _ ih =>
    obtain ⟨name, a⟩ := e
    obtain ⟨name', a'⟩ := e'
    obtain ⟨rfl, ha⟩ := he
    rw [ByName.lookup_cons_eq, ByName.lookup_cons_eq]
    split
    · exact .some ha
    · exact ih

theorem join_lookup (h : InputsMatch R es es') (n : String) :
    Option.Rel R (es.lookup n).join (es'.lookup n).join := by
  have hlookup := h.lookup n
  generalize es.lookup n = o, es'.lookup n = o' at hlookup
  cases hlookup with
  | none => exact .none
  | some ha => exact ha

theorem isSome_lookup (h : InputsMatch R es es') (n : String) :
    (es.lookup n).isSome = (es'.lookup n).isSome := by
  have hlookup := h.lookup n
  generalize es.lookup n = o, es'.lookup n = o' at hlookup
  cases hlookup <;> rfl

end InputsMatch

structure Site.ValuesMatch (allowed : Head → Prop) (P : ∀ {α : Type}, Render α → Render α → Prop)
    (s : Site) (values : List (String × Option Operand)) : Prop where
  allowed : allowed s.head
  values : InputsMatch (Operand.Matches P) s.values values

structure Site.Matches (allowed : Head → Prop) (P : ∀ {α : Type}, Render α → Render α → Prop)
    (s : Site) (values : List (String × Option Operand))
    (statements : List (String × Option (Render String))) : Prop
    extends Site.ValuesMatch allowed P s values where
  statements : InputsMatch P s.statements statements

section

variable {allowed : Head → Prop} {P : ∀ {α : Type}, Render α → Render α → Prop}
  (hP : Render.KeptSteps allowed P) {s : Site} {values : List (String × Option Operand)}
  {statements : List (String × Option (Render String))}

namespace Site

theorem Matches.declares (hs : s.Matches allowed P values statements) (input : String) :
    Site.declares { s with values, statements } input = s.declares input := by
  rw [Site.declares, Site.declares, hs.values.isSome_lookup, hs.statements.isSome_lookup]

include hP

section

variable (hs : s.ValuesMatch allowed P values)
include hs

theorem kept_variableName : P (s.variableName "VAR") (s.variableName "VAR") :=
  hP.variableName s.head hs.allowed

theorem kept_value? (statements : List (String × Option (Render String))) (input : String)
    (least : Level) :
    P (s.value? input least) (value? { s with values, statements } input least) := by
  have hinput := hs.values.join_lookup input
  unfold value?
  generalize (s.values.lookup input).join = o, (values.lookup input).join = o' at hinput
  cases hinput with
  | none => exact hP.pure none
  | @some o o' ho =>
    simp only [← ho.disabled]
    split
    · exact hP.pure none
    · next hd =>
      have hd := Bool.eq_false_iff.2 hd
      refine hP.bind (ho.text hd) fun text => ?_
      cases text with
      | expression f => exact hP.pure _
      | statement code =>
        rw [ho.type hd]
        exact hP.throw _ rfl

theorem kept_valueOr (statements : List (String × Option (Render String))) (input : String)
    (least : Level) (default : String) :
    P (s.valueOr input least default)
      (valueOr { s with values, statements } input least default) :=
  hP.bind (kept_value? hP hs statements input least) fun _ => hP.pure _

end

theorem kept_statementsOf (values : List (String × Option Operand)) {input : String}
    (hinput : Option.Rel P (s.statements.lookup input).join (statements.lookup input).join) :
    P (s.statementsOf input) (statementsOf { s with values, statements } input) := by
  unfold statementsOf
  generalize (s.statements.lookup input).join = code, (statements.lookup input).join = code'
    at hinput
  cases hinput with
  | none => exact hP.pure ""
  | some hcode => exact hcode

theorem kept_branchOf (values : List (String × Option Operand)) {input : String}
    (hinput : Option.Rel P (s.statements.lookup input).join (statements.lookup input).join) :
    P (s.branch input) (branch { s with values, statements } input) :=
  hP.bind (kept_statementsOf hP values hinput) fun _ => hP.pure _

variable (hs : s.Matches allowed P values statements)
include hs

theorem kept_branch (input : String) :
    P (s.branch input) (branch { s with values, statements } input) :=
  kept_branchOf hP values (hs.statements.join_lookup input)

omit hP hs in
theorem kept_loopBranch (hP : Render.Kept allowed P) (hs : s.Matches allowed P values statements)
    (input : String) :
    P (s.loopBranch input) (loopBranch { s with values, statements } input) :=
  hP.bind (hP.asLoopBody (kept_branch hP.toKeptSteps hs input)) fun _ => hP.pure _

end Site

namespace Rules

section

include hP

theorem kept_jump (s : Site) : P (jump s) (jump s) := by
  have hcode : ∀ keyword, P (do
      if ← Render.inLoop then return Emission.statement (keyword ++ ";\n")
      else return .statement ("// " ++ keyword ++ " outside of a loop\n")) (do
      if ← Render.inLoop then return Emission.statement (keyword ++ ";\n")
      else return .statement ("// " ++ keyword ++ " outside of a loop\n")) := fun keyword =>
    hP.bind hP.inLoop fun inside => by split <;> exact hP.pure _
  unfold jump
  split
  · exact hP.bind (hP.pure _) hcode
  · exact hP.bind (hP.pure _) hcode
  · exact hP.bind (hP.throw _ rfl) hcode

theorem kept_hoist (hint code : String) : P (hoist hint code) (hoist hint code) := by
  unfold hoist
  split
  · exact hP.pure _
  · exact hP.bind (hP.distinctName _) fun _ => hP.pure _

theorem Counter.kept_loop (k : Counter) : P k.loop k.loop := by
  unfold loop
  split
  · exact hP.pure _
  · exact hP.bind (kept_hoist hP _ _) fun _ => hP.bind (kept_hoist hP _ _) fun _ =>
      hP.bind (kept_hoist hP _ _) fun _ => hP.bind (hP.distinctName _) fun _ => hP.pure _

end

section

variable (hs : s.ValuesMatch allowed P values)
include hP hs

theorem kept_negation : P (negation s) (negation { s with values, statements }) :=
  hP.bind (Site.kept_valueOr hP hs _ _ _ _) fun _ => hP.pure _

theorem kept_comparison : P (comparison s) (comparison { s with values, statements }) :=
  hP.bind (Site.kept_valueOr hP hs _ _ _ _) fun _ =>
    hP.bind (Site.kept_valueOr hP hs _ _ _ _) fun _ => hP.pure _

theorem kept_leftOperator (left right sign : String) (level : Level) :
    P (leftOperator left right sign level s)
      (leftOperator left right sign level { s with values, statements }) :=
  hP.bind (Site.kept_valueOr hP hs _ _ _ _) fun _ =>
    hP.bind (Site.kept_valueOr hP hs _ _ _ _) fun _ => hP.pure _

theorem kept_connective (sign identity : String) (level : Level) :
    P (connective sign identity level s)
      (connective sign identity level { s with values, statements }) :=
  hP.bind (Site.kept_value? hP hs _ _ _) fun _ =>
    hP.bind (Site.kept_value? hP hs _ _ _) fun _ => hP.pure _

theorem kept_logicOperation :
    P (logicOperation s) (logicOperation { s with values, statements }) := by
  change P (if s.fieldText? "OP" == some "OR" then _ else _)
    (if s.fieldText? "OP" == some "OR" then _ else _)
  split <;> exact kept_connective hP hs _ _ _

theorem kept_choice : P (choice s) (choice { s with values, statements }) :=
  hP.bind (Site.kept_valueOr hP hs _ _ _ _) fun _ =>
    hP.bind (Site.kept_valueOr hP hs _ _ _ _) fun _ =>
      hP.bind (Site.kept_valueOr hP hs _ _ _ _) fun _ => hP.pure _

theorem kept_power : P (power s) (power { s with values, statements }) :=
  hP.bind (Site.kept_valueOr hP hs _ _ _ _) fun _ =>
    hP.bind (Site.kept_valueOr hP hs _ _ _ _) fun _ => hP.pure _

theorem kept_arithmetic : P (arithmetic s) (arithmetic { s with values, statements }) := by
  have hfield : Site.fieldText? { s with values, statements } "OP" = s.fieldText? "OP" := rfl
  unfold arithmetic
  rw [hfield]
  split
  · exact kept_power hP hs
  all_goals exact kept_leftOperator hP hs _ _ _ _

theorem kept_assignment : P (assignment s) (assignment { s with values, statements }) :=
  hP.bind (Site.kept_valueOr hP hs _ _ _ _) fun _ =>
    hP.bind (Site.kept_variableName hP hs) fun _ => hP.pure _

theorem kept_increment : P (increment s) (increment { s with values, statements }) :=
  hP.bind (Site.kept_valueOr hP hs _ _ _ _) fun _ =>
    hP.bind (Site.kept_variableName hP hs) fun _ => hP.pure _

theorem kept_print : P (print s) (print { s with values, statements }) := by
  refine hP.bind (Site.kept_value? hP hs _ _ _) fun message => ?_
  cases message <;> exact hP.pure _

theorem kept_repeatCount (statements : List (String × Option (Render String))) :
    P (repeatCount s) (repeatCount { s with values, statements }) := by
  unfold repeatCount
  dsimp only
  split
  · exact hP.pure _
  · refine hP.bind (Site.kept_valueOr hP hs _ _ _ _) fun _ => ?_
    split <;> exact hP.pure _

variable (hbody : P (s.loopBranch "DO") (Site.loopBranch { s with values, statements } "DO"))
include hbody

theorem kept_repetition : P (repetition s) (repetition { s with values, statements }) :=
  hP.bind (kept_repeatCount hP hs _) fun _ => hP.bind (hP.distinctName _) fun _ =>
    hP.bind (kept_hoist hP _ _) fun _ => hP.bind hbody fun _ => hP.pure _

theorem kept_whileLoop : P (whileLoop s) (whileLoop { s with values, statements }) :=
  hP.bind (Site.kept_value? hP hs _ _ _) fun _ => hP.bind hbody fun _ => hP.pure _

theorem kept_counter : P (counter s) (counter { s with values, statements }) :=
  hP.bind (Site.kept_variableName hP hs) fun _ =>
    hP.bind (Site.kept_valueOr hP hs _ _ _ _) fun _ =>
      hP.bind (Site.kept_valueOr hP hs _ _ _ _) fun _ =>
        hP.bind (Site.kept_valueOr hP hs _ _ _ _) fun _ => hP.bind hbody fun _ => hP.pure _

theorem kept_countingLoop : P (countingLoop s) (countingLoop { s with values, statements }) :=
  hP.bind (kept_counter hP hs hbody) fun k => hP.bind (k.kept_loop hP) fun _ => hP.pure _

end

section

variable (hs : s.Matches allowed P values statements)
include hP hs

omit hP in
theorem armCount_eq : armCount { s with values, statements } = armCount s := by
  have hlength : values.length + statements.length = s.values.length + s.statements.length := by
    rw [hs.values.length_eq, hs.statements.length_eq]
  simp only [armCount, hlength, hs.declares]

theorem kept_arm (n : Nat) : P (arm s n) (arm { s with values, statements } n) :=
  hP.bind (Site.kept_valueOr hP hs.toValuesMatch _ _ _ _) fun _ =>
    hP.bind (Site.kept_branch hP hs _) fun _ => hP.pure _

theorem kept_alternative : P (alternative s) (alternative { s with values, statements }) := by
  have hafter : Site.after? { s with values, statements } = s.after? := rfl
  unfold alternative
  rw [hs.declares, hafter]
  split
  · exact hP.bind (Site.kept_branch hP hs _) fun _ => hP.pure _
  · exact hP.pure _

theorem kept_conditional : P (conditional s) (conditional { s with values, statements }) := by
  unfold conditional
  rw [armCount_eq hs]
  exact hP.bind (hP.mapM fun n _ => kept_arm hP hs n) fun _ =>
    hP.bind (kept_alternative hP hs) fun _ => hP.pure _

end

end Rules

end

def conditionalTypes : List String := ["controls_if", "controls_ifelse"]

def repeatTypes : List String := ["controls_repeat_ext", "controls_repeat"]

def loopTypes : List String := repeatTypes ++ ["controls_whileUntil", "controls_for"]

theorem Rulebook.kept_of_branches {allowed : Head → Prop}
    {P : ∀ {α : Type}, Render α → Render α → Prop} (hP : Render.KeptSteps allowed P) {s : Site}
    {values : List (String × Option Operand)}
    {statements : List (String × Option (Render String))} (hs : s.ValuesMatch allowed P values)
    {type : String}
    (hbranches : type ∈ conditionalTypes → s.Matches allowed P values statements)
    (hbody : type ∈ loopTypes →
      P (s.loopBranch "DO") (Site.loopBranch { s with values, statements } "DO"))
    {rule : Rule} (h : builtinRules.lookup type = some rule) :
    P (rule s) (rule { s with values, statements }) := by
  obtain ⟨before, after, hrules, -⟩ := List.lookup_eq_some_iff.1 h
  have hmem : (type, rule) ∈ builtinRules := by simp [hrules]
  have hall : ∀ r ∈ builtinRules,
      (r.1 ∈ conditionalTypes → s.Matches allowed P values statements) →
      (r.1 ∈ loopTypes →
        P (s.loopBranch "DO") (Site.loopBranch { s with values, statements } "DO")) →
      P (r.2 s) (r.2 { s with values, statements }) := by
    simp only [builtinRules, List.forall_mem_cons, List.not_mem_nil, false_implies, implies_true,
      and_true]
    exact ⟨fun h _ => Rules.kept_conditional hP (h (by decide)),
      fun h _ => Rules.kept_conditional hP (h (by decide)),
      fun _ h => Rules.kept_repetition hP hs (h (by decide)),
      fun _ h => Rules.kept_repetition hP hs (h (by decide)),
      fun _ h => Rules.kept_whileLoop hP hs (h (by decide)),
      fun _ h => Rules.kept_countingLoop hP hs (h (by decide)),
      fun _ _ => Rules.kept_jump hP s, fun _ _ => hP.pure _, fun _ _ => hP.pure _,
      fun _ _ => Rules.kept_negation hP hs, fun _ _ => Rules.kept_comparison hP hs,
      fun _ _ => Rules.kept_logicOperation hP hs, fun _ _ => Rules.kept_choice hP hs,
      fun _ _ => hP.pure _, fun _ _ => Rules.kept_arithmetic hP hs,
      fun _ _ => Rules.kept_leftOperator hP hs _ _ _ _, fun _ _ => Rules.kept_increment hP hs,
      fun _ _ => hP.pure _, fun _ _ => Rules.kept_print hP hs,
      fun _ _ => hP.bind (Site.kept_variableName hP hs) fun _ => hP.pure _,
      fun _ _ => Rules.kept_assignment hP hs⟩
  exact hall _ hmem hbranches hbody

section

variable {allowed : Head → Prop} {P : ∀ {α : Type}, Render α → Render α → Prop}
  (hP : Render.Kept allowed P) {s : Site} {values : List (String × Option Operand)}
  {statements : List (String × Option (Render String))} (hs : s.Matches allowed P values statements)
include hP hs

theorem Rulebook.kept_builtin {type : String} {rule : Rule}
    (h : builtinRules.lookup type = some rule) :
    P (rule s) (rule { s with values, statements }) :=
  kept_of_branches hP.toKeptSteps hs.toValuesMatch (fun _ => hs)
    (fun _ => Site.kept_loopBranch hP hs "DO") h

theorem Setup.kept_emit {c : Setup} (hc : c.book = .builtin) :
    P (c.emit s) (c.emit { s with values, statements }) := by
  unfold Setup.emit
  dsimp only
  split
  · exact hP.throw _ rfl
  · next rule hrule =>
    rw [hc, Rulebook.builtin_rule?] at hrule
    refine hP.bind (hP.report _) fun _ =>
      hP.bind (Rulebook.kept_builtin hP hs hrule) fun emission => ?_
    cases emission <;> exact hP.pure _

end

def Head.hidden : Head := { id := "", type := "", disabled := true }

namespace Tree

mutual

def isWhole : Tree → Bool
  | .missing | .endless => false
  | .block _ values statements next => areWhole values && areWhole statements && isWholeLink next

def areWhole : List (String × Option Tree) → Bool
  | [] => true
  | (_, link) :: rest => isWholeLink link && areWhole rest

def isWholeLink : Option Tree → Bool
  | none => true
  | some t => t.isWhole

end

mutual

/-- The tree with nothing left of a disabled block but that it is there, and what comes next. -/
def visible : Tree → Tree
  | .missing => .missing
  | .endless => .endless
  | .block head values statements next =>
    if head.disabled then .block .hidden [] [] (visibleLink next)
    else .block head (visibleInputs values) (visibleInputs statements) (visibleLink next)

def visibleInputs : List (String × Option Tree) → List (String × Option Tree)
  | [] => []
  | (name, link) :: rest => (name, visibleLink link) :: visibleInputs rest

def visibleLink : Option Tree → Option Tree
  | none => none
  | some t => some t.visible

end

mutual

def enabled : Tree → List Head
  | .missing | .endless => []
  | .block head values statements next =>
    (if head.disabled then [] else head :: (enabledInputs values ++ enabledInputs statements)) ++
      enabledLink next

def enabledInputs : List (String × Option Tree) → List Head
  | [] => []
  | (_, link) :: rest => enabledLink link ++ enabledInputs rest

def enabledLink : Option Tree → List Head
  | none => []
  | some t => t.enabled

end

structure Every (Q : Head → Prop) (t : Tree) : Prop where
  isWhole : t.isWhole = true
  enabled : ∀ h ∈ t.enabled, Q h

structure EveryInput (Q : Head → Prop) (vs : List (String × Option Tree)) : Prop where
  areWhole : areWhole vs = true
  enabled : ∀ h ∈ enabledInputs vs, Q h

section

variable {Q : Head → Prop} {head : Head} {values statements rest : List (String × Option Tree)}
  {next link : Option Tree} {name : String} {t : Tree}

theorem Every.tail (h : (block head values statements (some t)).Every Q) : t.Every Q := by
  obtain ⟨hwhole, henabled⟩ := h
  simp only [Tree.isWhole, Bool.and_eq_true, isWholeLink] at hwhole
  exact ⟨hwhole.2, fun h hh => henabled h (by simp [Tree.enabled, enabledLink, hh])⟩

theorem Every.block (h : (block head values statements next).Every Q) (hd : head.disabled = false) :
    Q head ∧ EveryInput Q values ∧ EveryInput Q statements := by
  obtain ⟨hwhole, henabled⟩ := h
  simp only [Tree.isWhole, Bool.and_eq_true] at hwhole
  simp only [Tree.enabled, hd, Bool.false_eq_true, if_false, List.forall_mem_append,
    List.forall_mem_cons] at henabled
  exact ⟨henabled.1.1, ⟨hwhole.1.1, henabled.1.2.1⟩, ⟨hwhole.1.2, henabled.1.2.2⟩⟩

theorem EveryInput.cons_some (h : EveryInput Q ((name, some t) :: rest)) :
    t.Every Q ∧ EveryInput Q rest := by
  obtain ⟨hwhole, henabled⟩ := h
  simp only [Tree.areWhole, Bool.and_eq_true, isWholeLink] at hwhole
  simp only [enabledInputs, enabledLink, List.forall_mem_append] at henabled
  exact ⟨⟨hwhole.1, henabled.1⟩, ⟨hwhole.2, henabled.2⟩⟩

theorem EveryInput.cons_none (h : EveryInput Q ((name, none) :: rest)) : EveryInput Q rest := by
  obtain ⟨hwhole, henabled⟩ := h
  simp only [Tree.areWhole, Bool.and_eq_true] at hwhole
  simp only [enabledInputs, enabledLink, List.nil_append] at henabled
  exact ⟨hwhole.2, henabled⟩

end

variable {allowed : Head → Prop} {P : ∀ {α : Type}, Render α → Render α → Prop} {c : Setup}

mutual

theorem kept_chain (hP : Render.Kept allowed P) (hc : c.book = .builtin) :
    ∀ t : Tree, t.Every allowed → P (t.chain c) (t.visible.chain c)
  | .missing, h | .endless, h => nomatch h.isWhole
  | .block head values statements next, h => by
    have hnext : ∀ code, P (match next with
        | none => return code
        | some t => return code ++ (← chain c t)) (match visibleLink next with
        | none => return code
        | some t => return code ++ (← chain c t)) := by
      cases next with
      | none => exact fun code => hP.pure code
      | some t => exact fun code => hP.bind (kept_chain hP hc t h.tail) fun _ => hP.pure _
    rw [visible]
    split
    · next hd =>
      have hhidden : Head.hidden.disabled = true := rfl
      rw [chain, chain, if_pos hd, if_pos hhidden]
      exact hP.bind (hP.pure "") hnext
    · next hd =>
      obtain ⟨hhead, hvalues, hstatements⟩ := h.block (Bool.eq_false_iff.2 hd)
      let s : Site := ⟨head, c.options, operands c values, chains c statements⟩
      have hsite : s.Matches allowed P (operands c (visibleInputs values))
          (chains c (visibleInputs statements)) :=
        ⟨⟨hhead, match_operands hP hc values hvalues⟩, match_chains hP hc statements hstatements⟩
      rw [chain, chain, if_neg hd, if_neg hd]
      exact hP.bind (hP.map _ (Setup.kept_emit hP hsite hc)) hnext

theorem match_operand (hP : Render.Kept allowed P) (hc : c.book = .builtin) :
    ∀ t : Tree, t.Every allowed → Operand.Matches P (t.operand c) (t.visible.operand c)
  | .missing, h | .endless, h => nomatch h.isWhole
  | .block head values statements next, h => by
    rw [visible]
    split
    · next hd =>
      have hdisabled : (operand c (.block head values statements next)).disabled = true := hd
      exact ⟨hdisabled, fun h => by simp [hdisabled] at h, fun h => by simp [hdisabled] at h⟩
    · next hd =>
      obtain ⟨hhead, hvalues, hstatements⟩ := h.block (Bool.eq_false_iff.2 hd)
      rw [operand, operand]
      refine ⟨rfl, fun _ => rfl, fun _ => ?_⟩
      exact Setup.kept_emit hP ⟨⟨hhead, match_operands hP hc values hvalues⟩,
        match_chains hP hc statements hstatements⟩ hc

theorem match_operands (hP : Render.Kept allowed P) (hc : c.book = .builtin) :
    ∀ vs : List (String × Option Tree), EveryInput allowed vs →
    InputsMatch (Operand.Matches P) (operands c vs) (operands c (visibleInputs vs))
  | [], _ => by simp [operands, visibleInputs, InputsMatch]
  | (name, none) :: rest, h => by
    simp only [visibleInputs, visibleLink, operands]
    exact .cons ⟨rfl, .none⟩ (match_operands hP hc rest h.cons_none)
  | (name, some t) :: rest, h => by
    simp only [visibleInputs, visibleLink, operands]
    exact .cons ⟨rfl, .some (match_operand hP hc t h.cons_some.1)⟩
      (match_operands hP hc rest h.cons_some.2)

theorem match_chains (hP : Render.Kept allowed P) (hc : c.book = .builtin) :
    ∀ vs : List (String × Option Tree), EveryInput allowed vs →
    InputsMatch P (chains c vs) (chains c (visibleInputs vs))
  | [], _ => by simp [chains, visibleInputs, InputsMatch]
  | (name, none) :: rest, h => by
    simp only [visibleInputs, visibleLink, chains]
    exact .cons ⟨rfl, .none⟩ (match_chains hP hc rest h.cons_none)
  | (name, some t) :: rest, h => by
    simp only [visibleInputs, visibleLink, chains]
    exact .cons ⟨rfl, .some (kept_chain hP hc t h.cons_some.1)⟩
      (match_chains hP hc rest h.cons_some.2)

end

end Tree

end BlockCode
