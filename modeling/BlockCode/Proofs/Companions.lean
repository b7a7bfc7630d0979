import BlockCode.Proofs.Declarations
import BlockCode.Proofs.Demands
import BlockCode.Proofs.Layout

/-!
Two passes over the same blocks that differ only in the code that the options put in. They come to
the same blocks and stop at the same fault, which is the first one on the way; if there is none,
both have code, and it is related line by line. The relation is left open here: what is asked of it
is that texts can be put together and indented.
-/

namespace BlockCode

open Text

def statementTypes : List String := conditionalTypes ++ loopTypes ++
  ["controls_flow_statements", "math_change", "text_print", "variables_set"]

namespace Outline

def isRegistered (o : Outline) : Bool := Rulebook.builtin.contains o.head.type

def jumps (o : Outline) : Bool :=
  o.head.type != "controls_flow_statements" ||
    (o.head.fieldText? "FLOW" == some "BREAK" || o.head.fieldText? "FLOW" == some "CONTINUE")

def isStatement (o : Outline) : Bool := statementTypes.contains o.head.type

end Outline

def Visit.fault? : Visit → Option Fault
  | .enter o =>
    if !o.isRegistered then some (.unknownType o.head.type o.head.id)
    else if !o.jumps then some (.missingInput o.head.type "FLOW")
    else none
  | .use o => if o.isStatement then some (.notExpression o.head.type) else none

namespace Render

variable {α α' β β' : Type} {good : Outline → Prop}

section

variable {x : Render α} {p q : Pass}

theorem run_asLoopBody_ok {a : α}
    (h : x.run { p with loopDepth := p.loopDepth + 1 } = (.ok a, q)) :
    x.asLoopBody.run p = (.ok a, { q with loopDepth := q.loopDepth - 1 }) := by
  have hx : x { p with loopDepth := p.loopDepth + 1 } = (.ok a, q) := h
  change asLoopBody x p = _
  rw [asLoopBody, hx]

theorem run_asLoopBody_error {e : Fault}
    (h : x.run { p with loopDepth := p.loopDepth + 1 } = (.error e, q)) :
    x.asLoopBody.run p =
      (.error e, if e = .missingBlock then q else { q with loopDepth := q.loopDepth - 1 }) := by
  have hx : x { p with loopDepth := p.loopDepth + 1 } = (.error e, q) := h
  change asLoopBody x p = _
  rw [asLoopBody, hx]
  cases e <;> rfl

end

/--
Two actions that make the same visits. Both stop at the first fault, or both succeed with related
results; they leave the same pass behind. Only blocks of the given kind are visited.
-/
def Paired (good : Outline → Prop) (x : Render α) (x' : Render α') (visits : List Visit)
    (R : α → α' → Prop) : Prop :=
  (∀ o, .enter o ∈ visits → good o) → ∀ p,
    match visits.findSome? Visit.fault? with
    | some e => ∃ q, x.run p = (.error e, q) ∧ x'.run p = (.error e, q)
    | none => ∃ a a' q, x.run p = (.ok a, q) ∧ x'.run p = (.ok a', q) ∧ R a a'

namespace Paired

variable {R : α → α' → Prop} {S : β → β' → Prop} {visits visits' : List Visit}

theorem pure {a : α} {a' : α'} (h : R a a') : Paired good (pure a) (pure a') [] R :=
  fun _ p => ⟨a, a', p, rfl, rfl, h⟩

theorem bind {x : Render α} {x' : Render α'} {f : α → Render β} {f' : α' → Render β'}
    (hx : Paired good x x' visits R)
    (hf : ∀ a a', R a a' → Paired good (f a) (f' a') visits' S) :
    Paired good (x >>= f) (x' >>= f') (visits ++ visits') S := by
  intro hgood p
  have hfirst := hx (fun o ho => hgood o (List.mem_append_left _ ho)) p
  rw [List.findSome?_append]
  cases hfault : visits.findSome? Visit.fault? with
  | some e =>
    simp only [hfault] at hfirst
    obtain ⟨q, hrun, hrun'⟩ := hfirst
    exact ⟨q, by rw [run_bind, hrun], by rw [run_bind, hrun']⟩
  | none =>
    simp only [hfault] at hfirst
    obtain ⟨a, a', q, hrun, hrun', ha⟩ := hfirst
    rw [run_bind_ok hrun, run_bind_ok hrun', Option.none_or]
    exact hf a a' ha (fun o ho => hgood o (List.mem_append_right _ ho)) q

theorem same {x : Render α} {Q : α → Prop} (h : ∀ p, ∃ a q, x.run p = (.ok a, q) ∧ Q a) :
    Paired good x x [] fun a a' => a = a' ∧ Q a := by
  intro _ p
  obtain ⟨a, q, hrun, ha⟩ := h p
  exact ⟨a, a, q, hrun, hrun, rfl, ha⟩

theorem unchanged {x : Render α} (h : ∀ p, ∃ a q, x.run p = (.ok a, q)) :
    Paired good x x [] Eq := by
  intro _ p
  obtain ⟨a, q, hrun⟩ := h p
  exact ⟨a, a, q, hrun, hrun, rfl⟩

theorem read {x x' : Render α} {f : α → Render β} {f' : α → Render β'}
    (hx : Paired good x x' visits Eq) (hf : ∀ a, Paired good (f a) (f' a) visits' S) :
    Paired good (x >>= f) (x' >>= f') (visits ++ visits') S := by
  refine hx.bind ?_
  rintro a _ rfl
  exact hf a

theorem bind_silent {x : Render α} {x' : Render α'} {f : α → Render β} {f' : α' → Render β'}
    (hx : Paired good x x' [] R) (hf : ∀ a a', R a a' → Paired good (f a) (f' a') visits S) :
    Paired good (x >>= f) (x' >>= f') visits S :=
  hx.bind hf

theorem read_silent {x x' : Render α} {f : α → Render β} {f' : α → Render β'}
    (hx : Paired good x x' [] Eq) (hf : ∀ a, Paired good (f a) (f' a) visits S) :
    Paired good (x >>= f) (x' >>= f') visits S :=
  hx.read hf

theorem weaken {x : Render α} {x' : Render α'} {R' : α → α' → Prop}
    (hx : Paired good x x' visits R) (h : ∀ a a', R a a' → R' a a') :
    Paired good x x' visits R' := by
  intro hgood p
  have hrun := hx hgood p
  split at hrun
  · exact hrun
  · obtain ⟨a, a', q, hrun, hrun', ha⟩ := hrun
    exact ⟨a, a', q, hrun, hrun', h a a' ha⟩

theorem pass {visit : Visit} (h : visit.fault? = none) {x : Render α} {x' : Render α'}
    (hx : Paired good x x' visits R) : Paired good x x' (visit :: visits) R := by
  intro hgood p
  rw [List.findSome?_cons, h]
  exact hx (fun o ho => hgood o (List.mem_cons_of_mem _ ho)) p

theorem throw {visit : Visit} {e : Fault} (h : visit.fault? = some e) :
    Paired good (throw e : Render α) (throw e : Render α') [visit] R := by
  intro _ p
  rw [List.findSome?_cons, h]
  exact ⟨p, rfl, rfl⟩

theorem asLoopBody {x : Render α} {x' : Render α'} (hx : Paired good x x' visits R) :
    Paired good x.asLoopBody x'.asLoopBody visits R := by
  intro hgood p
  have hbody := hx hgood { p with loopDepth := p.loopDepth + 1 }
  split at hbody
  · obtain ⟨q, hx, hx'⟩ := hbody
    exact ⟨_, run_asLoopBody_error hx, run_asLoopBody_error hx'⟩
  · obtain ⟨a, a', q, hx, hx', ha⟩ := hbody
    exact ⟨a, a', _, run_asLoopBody_ok hx, run_asLoopBody_ok hx', ha⟩

theorem mapM {γ : Type} {f : γ → Render α} {f' : γ → Render α'} {visits : γ → List Visit}
    {as : List γ} (h : ∀ a ∈ as, Paired good (f a) (f' a) (visits a) R) :
    Paired good (as.mapM f) (as.mapM f') (as.flatMap visits) fun bs bs' =>
      bs.length = as.length ∧ List.Forall₂ R bs bs' := by
  induction as with
  | nil => exact pure ⟨rfl, .nil⟩
  | cons a as ih =>
    obtain ⟨ha, has⟩ := List.forall_mem_cons.1 h
    rw [List.mapM_cons, List.mapM_cons, List.flatMap_cons]
    refine ha.bind fun b b' hb => ?_
    rw [← List.append_nil (as.flatMap visits)]
    exact (ih has).bind fun bs bs' hbs => pure ⟨congrArg (· + 1) hbs.1, .cons hb hbs.2⟩

end Paired

end Render

open Render

def Text.IsTerminated (text : String) : Prop := text.toList.getLast? = some '\n'

instance : DecidablePred Text.IsTerminated := fun _ => inferInstanceAs (Decidable (_ = _))

theorem Text.IsTerminated.prepend {b : String} (h : IsTerminated b) (a : String) :
    IsTerminated (a ++ b) := by
  rw [IsTerminated] at h ⊢
  rw [String.toList_append, List.getLast?_append, h]
  rfl

theorem Text.IsTerminated.ne_empty {a : String} (h : IsTerminated a) : a ≠ "" := by
  rintro rfl
  cases h

/-- A relation between texts that is kept when whole lines are put together or indented. -/
structure Text.Layered (L : String → String → Prop) : Prop where
  empty : L "" ""
  line {text : String} : IsTerminated text → L text text
  append {a a' b b' : String} : L a a' → L b b' → L (a ++ b) (a' ++ b')
  indent {a a' : String} : L a a' → L (indent a) (indent a')

def Text.Chained (L : String → String → Prop) (a a' : String) : Prop :=
  L a a' ∧ (a = "" ↔ a' = "")

inductive Emission.Alike (L : String → String → Prop) : Bool → Emission → Emission → Prop
  | statement {a a' : String} : L a a' → a ≠ "" → a' ≠ "" →
    Alike L true (.statement a) (.statement a')
  | instrumented {a a' : String} : L a a' → a ≠ "" → a' ≠ "" →
    Alike L true (.instrumented a) (.instrumented a')
  | expression (f : Fragment) : Alike L false (.expression f) (.expression f)

theorem Emission.alike_line {L : String → String → Prop} (hL : Layered L) {code : String}
    (h : IsTerminated code) : Alike L true (.statement code) (.statement code) :=
  .statement (hL.line h) h.ne_empty h.ne_empty

inductive BlockText.Alike (L : String → String → Prop) : Bool → BlockText → BlockText → Prop
  | statement {a a' : String} : L a a' → a ≠ "" → a' ≠ "" →
    Alike L true (.statement a) (.statement a')
  | expression (f : Fragment) : Alike L false (.expression f) (.expression f)

def Outline.inserted (o : Outline) (template? : Option String) : String :=
  (template?.map fun template => terminate (fillTemplate template o.head.id)).getD ""

structure Outline.Fits (o : Outline) (L : String → String → Prop) (options options' : Options) :
    Prop where
  before : L (o.inserted options.before) (o.inserted options'.before)
  after : L (o.inserted options.after) (o.inserted options'.after)
  trap : L (o.inserted options.trap) (o.inserted options'.trap)
  alternative : o.head.type ∈ conditionalTypes →
    o.declares "ELSE" = true ∨ options.after.isSome = options'.after.isSome

structure Site.Paired (L : String → String → Prop) (good : Outline → Prop) (o : Outline)
    (visitsAt : Reading → List Visit) (s s' : Site) : Prop where
  head : s.head = o.head
  head' : s'.head = o.head
  declares : ∀ input, s.declares input = o.declares input
  declares' : ∀ input, s'.declares input = o.declares input
  size : s.values.length + s.statements.length = o.inputs.length
  size' : s'.values.length + s'.statements.length = o.inputs.length
  undeclared : ∀ input, o.declares input = false → visitsAt (.statements input) = []
  value? : ∀ input least, Render.Paired good (s.value? input least) (s'.value? input least)
    (visitsAt (.value input)) Eq
  statementsOf : ∀ input, Render.Paired good (s.statementsOf input) (s'.statementsOf input)
    (visitsAt (.statements input)) L

namespace Site

variable {s : Site} {o : Outline} (h : s.head = o.head)
include h

theorem inserted_eq (template? : Option String) :
    (template?.map s.instrument).getD "" = o.inserted template? := by
  rw [Outline.inserted, ← h]
  rfl

theorem wrap_eq (code : String) :
    s.wrap code = o.inserted s.options.before ++ code ++ o.inserted s.options.after := by
  rw [wrap, before?, after?, inserted_eq h, inserted_eq h]

omit h in
theorem wrap_ne_empty {code : String} (hne : code ≠ "") : s.wrap code ≠ "" := by
  simp [wrap, hne]

theorem getD_indent (template? : Option String) :
    ((template?.map s.instrument).map indent).getD "" = indent (o.inserted template?) := by
  rw [← inserted_eq h]
  cases template? <;> rfl

theorem trapped_eq (body : String) :
    s.trapped body = indent (o.inserted s.options.after) ++ indent (o.inserted s.options.trap) ++
      body ++ indent (o.inserted s.options.before) := by
  simp only [trapped, before?, after?, trap?, getD_indent h]

end Site

section

variable {L : String → String → Prop} {good : Outline → Prop} {o : Outline}
  {visitsAt : Reading → List Visit} {s s' : Site} (hL : Layered L)
  (hs : Site.Paired L good o visitsAt s s') (hfits : o.Fits L s.options s'.options)

theorem Render.paired_nameFor (key : String) (category : Category) :
    Render.Paired good (nameFor key category) (nameFor key category) [] Eq := by
  refine .unchanged fun p => ?_
  obtain ⟨events, hrun⟩ := run_nameFor key category p
  exact ⟨_, _, hrun⟩

theorem Render.paired_distinctName (hint : String) :
    Render.Paired good (distinctName hint .variable) (distinctName hint .variable) [] Eq :=
  .unchanged fun _ => ⟨_, _, rfl⟩

namespace Site.Paired

include hs

theorem valueOr (input : String) (least : Level) (default : String) :
    Render.Paired good (s.valueOr input least default) (s'.valueOr input least default)
      (visitsAt (.value input)) Eq := by
  rw [← List.append_nil (visitsAt (.value input))]
  refine (hs.value? input least).bind ?_
  rintro code _ rfl
  exact .pure rfl

theorem fieldText? (field : String) : s'.fieldText? field = s.fieldText? field := by
  rw [Site.fieldText?, Site.fieldText?, hs.head, hs.head']

theorem variableName (field : String) :
    Render.Paired good (s.variableName field) (s'.variableName field) [] Eq := by
  rw [Site.variableName, Site.variableName, hs.fieldText?]
  exact paired_nameFor _ _

include hL

theorem branch (input : String) :
    Render.Paired good (s.branch input) (s'.branch input) (visitsAt (.statements input)) L := by
  rw [← List.append_nil (visitsAt (.statements input))]
  exact (hs.statementsOf input).bind fun _ _ h => .pure (hL.indent h)

include hfits

theorem wrap {a a' : String} (h : L a a') : L (s.wrap a) (s'.wrap a') := by
  rw [wrap_eq hs.head, wrap_eq hs.head']
  exact hL.append (hL.append hfits.before h) hfits.after

theorem loopBranch (input : String) :
    Render.Paired good (s.loopBranch input) (s'.loopBranch input) (visitsAt (.statements input))
      L := by
  rw [← List.append_nil (visitsAt (.statements input))]
  refine (hs.branch hL input).asLoopBody.bind fun body body' hbody => .pure ?_
  rw [trapped_eq hs.head, trapped_eq hs.head']
  exact hL.append (hL.append (hL.append (hL.indent hfits.after) (hL.indent hfits.trap)) hbody)
    (hL.indent hfits.before)

end Site.Paired

namespace Rules

include hs

theorem paired_negation : Render.Paired good (negation s) (negation s')
    ([.value "BOOL"].flatMap visitsAt) (Emission.Alike L false) :=
  (hs.valueOr _ _ _).read fun _ => .pure (.expression _)

theorem paired_leftOperator (left right sign : String) (level : Level) :
    Render.Paired good (leftOperator left right sign level s)
      (leftOperator left right sign level s') ([.value left, .value right].flatMap visitsAt)
      (Emission.Alike L false) :=
  (hs.valueOr _ _ _).read fun _ => (hs.valueOr _ _ _).read fun _ => .pure (.expression _)

theorem paired_comparison : Render.Paired good (comparison s) (comparison s')
    ([.value "A", .value "B"].flatMap visitsAt) (Emission.Alike L false) := by
  unfold comparison
  rw [hs.fieldText?]
  exact (hs.valueOr _ _ _).read fun _ => (hs.valueOr _ _ _).read fun _ => .pure (.expression _)

theorem paired_connective (sign identity : String) (level : Level) :
    Render.Paired good (connective sign identity level s) (connective sign identity level s')
      ([.value "A", .value "B"].flatMap visitsAt) (Emission.Alike L false) :=
  (hs.value? _ _).read fun _ => (hs.value? _ _).read fun _ => .pure (.expression _)

theorem paired_logicOperation : Render.Paired good (logicOperation s) (logicOperation s')
    ([.value "A", .value "B"].flatMap visitsAt) (Emission.Alike L false) := by
  unfold logicOperation
  rw [hs.fieldText?]
  split <;> exact paired_connective hs _ _ _

theorem paired_choice : Render.Paired good (choice s) (choice s')
    ([.value "IF", .value "THEN", .value "ELSE"].flatMap visitsAt) (Emission.Alike L false) :=
  (hs.valueOr _ _ _).read fun _ => (hs.valueOr _ _ _).read fun _ =>
    (hs.valueOr _ _ _).read fun _ => .pure (.expression _)

theorem paired_arithmetic : Render.Paired good (arithmetic s) (arithmetic s')
    ([.value "A", .value "B"].flatMap visitsAt) (Emission.Alike L false) := by
  unfold arithmetic
  rw [hs.fieldText?]
  split
  · exact (hs.valueOr _ _ _).read fun _ => (hs.valueOr _ _ _).read fun _ => .pure (.expression _)
  all_goals exact paired_leftOperator hs _ _ _ _

theorem paired_boolean :
    Render.Paired good (boolean s) (boolean s') [] (Emission.Alike L false) := by
  unfold boolean
  rw [hs.fieldText?]
  exact .pure (.expression _)

theorem paired_number : Render.Paired good (number s) (number s') [] (Emission.Alike L false) := by
  unfold number Site.fieldNumber?
  rw [hs.head, hs.head']
  exact .pure (.expression _)

theorem paired_text : Render.Paired good (text s) (text s') [] (Emission.Alike L false) := by
  unfold text
  rw [hs.fieldText?]
  exact .pure (.expression _)

theorem paired_variableValue :
    Render.Paired good (variableValue s) (variableValue s') [] (Emission.Alike L false) :=
  (hs.variableName _).read fun _ => .pure (.expression _)

include hL

theorem paired_assignment : Render.Paired good (assignment s) (assignment s')
    ([.value "VALUE"].flatMap visitsAt) (Emission.Alike L true) :=
  (hs.valueOr _ _ _).read fun _ => (hs.variableName _).read fun _ =>
    .pure (Emission.alike_line hL (.prepend (by decide) _))

theorem paired_increment : Render.Paired good (increment s) (increment s')
    ([.value "DELTA"].flatMap visitsAt) (Emission.Alike L true) :=
  (hs.valueOr _ _ _).read fun _ => (hs.variableName _).read fun _ =>
    .pure (Emission.alike_line hL (.prepend (by decide) _))

theorem paired_print : Render.Paired good (print s) (print s')
    ([.value "TEXT"].flatMap visitsAt) (Emission.Alike L true) := by
  refine (hs.value? _ _).read fun message => ?_
  cases message with
  | none => exact .pure (Emission.alike_line hL (by decide))
  | some message => exact .pure (Emission.alike_line hL (.prepend (by decide) _))

theorem paired_jump
    (hjump : s.fieldText? "FLOW" = some "BREAK" ∨ s.fieldText? "FLOW" = some "CONTINUE") :
    Render.Paired good (jump s) (jump s') [] (Emission.Alike L true) := by
  have hcode : ∀ keyword, Render.Paired good (do
      if ← Render.inLoop then return Emission.statement (keyword ++ ";\n")
      else return .statement ("// " ++ keyword ++ " outside of a loop\n")) (do
      if ← Render.inLoop then return Emission.statement (keyword ++ ";\n")
      else return .statement ("// " ++ keyword ++ " outside of a loop\n")) []
      (Emission.Alike L true) := by
    intro keyword
    refine Paired.read_silent (.unchanged fun p => ⟨_, p, rfl⟩) fun inside => ?_
    split <;> exact .pure (Emission.alike_line hL (.prepend (by decide) _))
  unfold jump
  rw [hs.fieldText?]
  rcases hjump with hjump | hjump
  · rw [hjump]
    exact Paired.read_silent (.pure rfl) hcode
  · rw [hjump]
    exact Paired.read_silent (.pure rfl) hcode

omit hs in
theorem forLoop_related {body body' : String} (name range : String) (h : L body body') :
    L (forLoop name range body) (forLoop name range body') :=
  hL.append (hL.append (hL.line (.prepend (by decide) _)) h) (hL.line (by decide))

omit hs hL in
theorem forLoop_ne_empty (name range body : String) : forLoop name range body ≠ "" :=
  (IsTerminated.prepend (by decide) _).ne_empty

omit hs hL in
theorem paired_hoist (hint code : String) :
    Render.Paired good (hoist hint code) (hoist hint code) [] fun a a' =>
      a = a' ∧ (a.2 = "" ∨ IsTerminated a.2) := by
  refine Paired.same fun p => ?_
  unfold hoist
  split
  · exact ⟨_, p, rfl, .inl rfl⟩
  · exact ⟨_, _, rfl, .inr (.prepend (by decide) _)⟩

omit hL in
theorem paired_repeatCount : Render.Paired good (repeatCount s) (repeatCount s')
    ((if (o.head.field? "TIMES").isSome then [] else [.value "TIMES"]).flatMap visitsAt) Eq := by
  unfold repeatCount
  rw [hs.head, hs.head']
  cases o.head.field? "TIMES" with
  | some field => exact .pure rfl
  | none =>
    refine (hs.valueOr _ _ _).read fun code => ?_
    split <;> exact .pure rfl

omit hs in
theorem lines_related {lines : String} (h : lines = "" ∨ IsTerminated lines) : L lines lines := by
  rcases h with rfl | h
  · exact hL.empty
  · exact hL.line h

include hfits

theorem paired_repetition (htype : o.head.type ∈ repeatTypes) :
    Render.Paired good (repetition s) (repetition s') (o.readings.flatMap visitsAt)
      (Emission.Alike L true) := by
  have hloop : o.head.type ∈ loopTypes := List.mem_append_left _ htype
  have hreadings : o.readings =
      (if (o.head.field? "TIMES").isSome then [] else [.value "TIMES"]) ++ [.statements "DO"] := by
    rw [Outline.readings, if_neg (Outline.not_mem_conditionalTypes _ hloop), if_pos hloop,
      Outline.operands, if_pos htype]
    split <;> rfl
  rw [hreadings, List.flatMap_append]
  refine (paired_repeatCount hs).read fun times => (paired_distinctName _).read fun name =>
    (paired_hoist _ _).bind ?_
  rintro ⟨bound, lines⟩ _ ⟨rfl, hlines⟩
  refine (hs.loopBranch hL hfits _).bind fun body body' hbody => .pure (.statement ?_ ?_ ?_)
  · exact hL.append (lines_related hL hlines) (forLoop_related hL _ _ hbody)
  · exact (IsTerminated.prepend (.prepend (by decide) _) _).ne_empty
  · exact (IsTerminated.prepend (.prepend (by decide) _) _).ne_empty

theorem paired_whileLoop : Render.Paired good (whileLoop s) (whileLoop s')
    ([.value "BOOL", .statements "DO"].flatMap visitsAt) (Emission.Alike L true) := by
  unfold whileLoop
  rw [hs.fieldText?]
  refine (hs.value? _ _).read fun condition =>
    (hs.loopBranch hL hfits _).bind fun body body' hbody => .pure (.statement ?_ ?_ ?_)
  · exact hL.append (hL.append (hL.line (.prepend (by decide) _)) hbody) (hL.line (by decide))
  · exact (IsTerminated.prepend (by decide) _).ne_empty
  · exact (IsTerminated.prepend (by decide) _).ne_empty

omit hs hfits in
theorem Counter.paired_loop (k : Counter) {body body' : String} (h : L body body') :
    Render.Paired good (loop { k with body }) (loop { k with body := body' }) []
      fun a a' => L a a' ∧ a ≠ "" ∧ a' ≠ "" := by
  unfold loop
  dsimp only
  split
  · exact .pure ⟨forLoop_related hL _ _ h, forLoop_ne_empty _ _ _, forLoop_ne_empty _ _ _⟩
  refine (paired_hoist _ _).bind_silent ?_
  rintro ⟨first, firstLines⟩ _ ⟨rfl, hfirst⟩
  refine (paired_hoist _ _).bind_silent ?_
  rintro ⟨last, lastLines⟩ _ ⟨rfl, hlast⟩
  refine (paired_hoist _ _).bind_silent ?_
  rintro ⟨stride, strideLines⟩ _ ⟨rfl, hstride⟩
  refine (paired_distinctName _).read_silent fun range => .pure ⟨?_, ?_, ?_⟩
  · refine hL.append (hL.append (hL.append (hL.append ?_ ?_) ?_) ?_) (forLoop_related hL _ _ h)
    · exact lines_related hL hfirst
    · exact lines_related hL hlast
    · exact lines_related hL hstride
    · exact hL.line (.prepend (by decide) _)
  · exact (IsTerminated.prepend (.prepend (by decide) _) _).ne_empty
  · exact (IsTerminated.prepend (.prepend (by decide) _) _).ne_empty

theorem paired_counter : Render.Paired good (counter s) (counter s')
    ([.value "FROM", .value "TO", .value "BY", .statements "DO"].flatMap visitsAt)
    fun k k' => L k.body k'.body ∧ k' = { k with body := k'.body } :=
  (hs.variableName _).read fun _ => (hs.valueOr _ _ _).read fun _ =>
    (hs.valueOr _ _ _).read fun _ => (hs.valueOr _ _ _).read fun _ =>
      (hs.loopBranch hL hfits _).bind fun _ _ hbody => .pure ⟨hbody, rfl⟩

theorem paired_countingLoop : Render.Paired good (countingLoop s) (countingLoop s')
    ([.value "FROM", .value "TO", .value "BY", .statements "DO"].flatMap visitsAt)
    (Emission.Alike L true) := by
  rw [← List.append_nil (List.flatMap _ _)]
  refine (paired_counter hL hs hfits).bind fun k k' hk => ?_
  rw [hk.2]
  exact (k.paired_loop hL hk.1).bind_silent fun loop loop' hloop =>
    .pure (.statement hloop.1 hloop.2.1 hloop.2.2)

omit hs hL hfits in
theorem append_braced (h : s.head = o.head) (lead body : String) :
    lead ++ braced s body =
      lead ++ line r"{" ++ (indent (o.inserted s.options.after) ++ body) ++ r"}" := by
  simp only [braced, Site.after?, Site.getD_indent h, String.append_assoc]

omit hs hL hfits in
theorem armsAfter_cons (lead body : String) (arms : List String) :
    armsAfter ((lead ++ line r"{" ++ body ++ r"}") :: arms) =
      r"} else " ++ lead ++ line r"{" ++ body ++ armsAfter arms := by
  rw [armsAfter, String.append_assoc, intercalate_arms]
  · simp only [String.append_assoc]
  · simp

inductive ArmAlike (L : String → String → Prop) : String → String → Prop
  | intro (lead : String) {body body' : String} : L body body' →
    ArmAlike L (lead ++ line r"{" ++ body ++ r"}") (lead ++ line r"{" ++ body' ++ r"}")

omit hs hfits in
theorem armsAfter_related {arms arms' : List String} (h : List.Forall₂ (ArmAlike L) arms arms') :
    L (armsAfter arms) (armsAfter arms') := by
  induction h with
  | nil => exact hL.line (by decide)
  | cons harm _ ih =>
    obtain ⟨lead, hbody⟩ := harm
    rw [armsAfter_cons, armsAfter_cons]
    exact hL.append (hL.append (hL.line (.prepend (by decide) _)) hbody) ih

omit hs hfits in
theorem arms_related {arms arms' : List String} (hne : arms ≠ [])
    (h : List.Forall₂ (ArmAlike L) arms arms') :
    L (" else ".intercalate arms ++ "\n") (" else ".intercalate arms' ++ "\n") := by
  cases h with
  | nil => exact absurd rfl hne
  | cons harm harms =>
    obtain ⟨lead, hbody⟩ := harm
    rw [intercalate_arms, intercalate_arms]
    exact hL.append (hL.append (hL.line (.prepend (by decide) _)) hbody)
      (armsAfter_related hL harms)

omit hL hfits in
theorem armCount_eq_arms : armCount s = o.arms ∧ armCount s' = o.arms := by
  simp only [armCount, Outline.arms, hs.size, hs.size', hs.declares, hs.declares', and_self]

theorem braced_related {body body' : String} (lead : String) (h : L body body') :
    ArmAlike L (lead ++ braced s body) (lead ++ braced s' body') := by
  rw [append_braced hs.head, append_braced hs.head']
  exact .intro lead (hL.append (hL.indent hfits.after) h)

theorem paired_arm (n : Nat) : Render.Paired good (arm s n) (arm s' n)
    ([.value ("IF" ++ toString n), .statements ("DO" ++ toString n)].flatMap visitsAt)
    (ArmAlike L) :=
  (hs.valueOr _ _ _).read fun _ => (hs.branch hL _).bind fun _ _ hbody =>
    .pure (braced_related hL hs hfits _ hbody)

theorem paired_alternative (htype : o.head.type ∈ conditionalTypes) :
    Render.Paired good (alternative s) (alternative s') ([.statements "ELSE"].flatMap visitsAt)
      (List.Forall₂ (ArmAlike L)) := by
  have hbranch : Render.Paired good (do return [braced s (← s.branch "ELSE")])
      (do return [braced s' (← s'.branch "ELSE")]) ([.statements "ELSE"].flatMap visitsAt)
      (List.Forall₂ (ArmAlike L)) := by
    refine (hs.branch hL _).bind fun body body' hbody => .pure (.cons ?_ .nil)
    have harm := braced_related hL hs hfits "" hbody
    rwa [String.empty_append, String.empty_append] at harm
  unfold alternative
  rw [hs.declares, hs.declares']
  cases hdeclares : o.declares "ELSE" with
  | true => exact hbranch
  | false =>
    have hafter : s.after?.isSome = s'.after?.isSome := by
      simpa [Site.after?, hdeclares] using hfits.alternative htype
    rw [Bool.false_or, Bool.false_or, ← hafter]
    split
    · exact hbranch
    · rw [List.flatMap_singleton, hs.undeclared _ hdeclares]
      exact .pure .nil

theorem paired_conditional (htype : o.head.type ∈ conditionalTypes) :
    Render.Paired good (conditional s) (conditional s') (o.readings.flatMap visitsAt)
      (Emission.Alike L true) := by
  obtain ⟨hcount, hcount'⟩ := armCount_eq_arms hs
  unfold conditional
  rw [hcount, hcount', Outline.readings, if_pos htype, List.flatMap_append, List.flatMap_assoc]
  refine (Paired.mapM fun n _ => paired_arm hL hs hfits n).bind fun arms arms' harms => ?_
  rw [← List.append_nil (List.flatMap visitsAt _)]
  refine (paired_alternative hL hs hfits htype).bind fun last last' hlast =>
    .pure (.instrumented ?_ ?_ ?_)
  · rw [Site.before?, Site.before?, Site.inserted_eq hs.head, Site.inserted_eq hs.head',
      String.append_assoc, String.append_assoc]
    refine hL.append hfits.before (arms_related hL ?_ (List.rel_append harms.2 hlast))
    have hlength : arms.length = o.arms := by simpa using harms.1
    rintro hnil
    simp [(List.append_eq_nil_iff.1 hnil).1, Outline.arms] at hlength
  · exact (IsTerminated.prepend (by decide) _).ne_empty
  · exact (IsTerminated.prepend (by decide) _).ne_empty

end Rules

include hL hs hfits

theorem Rulebook.paired_builtin (hjumps : o.jumps = true) {rule : Rule}
    (h : builtinRules.lookup o.head.type = some rule) :
    Render.Paired good (rule s) (rule s') (o.readings.flatMap visitsAt)
      (Emission.Alike L o.isStatement) := by
  have hkind : ∀ {type : String} (kind : Bool), statementTypes.contains type = kind →
      type = o.head.type → o.isStatement = kind := by
    rintro type kind rfl rfl
    rfl
  -- Most types have the same operands in all blocks, and perhaps statements after them.
  have hfixed : ∀ {type : String} {rule : Rule} {visits : List Visit} {kind : Bool},
      type ∉ conditionalTypes ∧ type ∉ repeatTypes →
      (((fixedOperands.lookup type).getD []).map Reading.value ++
        if type ∈ loopTypes then [Reading.statements "DO"] else []).flatMap visitsAt = visits →
      statementTypes.contains type = kind →
      Render.Paired good (rule s) (rule s') visits (Emission.Alike L kind) →
      type = o.head.type →
      Render.Paired good (rule s) (rule s') (o.readings.flatMap visitsAt)
        (Emission.Alike L o.isStatement) := by
    rintro type rule _ kind ⟨hconditional, hrepeat⟩ rfl hcontains hrule rfl
    rwa [hkind kind hcontains rfl, Outline.readings, if_neg hconditional, Outline.operands,
      if_neg hrepeat]
  have hall : ∀ r ∈ builtinRules, r.1 = o.head.type →
      Render.Paired good (r.2 s) (r.2 s') (o.readings.flatMap visitsAt)
        (Emission.Alike L o.isStatement) := by
    simp only [builtinRules, List.forall_mem_cons, List.not_mem_nil, false_implies, implies_true,
      and_true]
    refine ⟨fun htype => ?_, fun htype => ?_, fun htype => ?_, fun htype => ?_, ?_⟩
    · rw [hkind true (by decide) htype]
      exact Rules.paired_conditional hL hs hfits (htype ▸ by decide)
    · rw [hkind true (by decide) htype]
      exact Rules.paired_conditional hL hs hfits (htype ▸ by decide)
    · rw [hkind true (by decide) htype]
      exact Rules.paired_repetition hL hs hfits (htype ▸ by decide)
    · rw [hkind true (by decide) htype]
      exact Rules.paired_repetition hL hs hfits (htype ▸ by decide)
    refine ⟨hfixed (by decide) (by rfl) (by decide) (Rules.paired_whileLoop hL hs hfits),
      hfixed (by decide) (by rfl) (by decide) (Rules.paired_countingLoop hL hs hfits),
      fun htype => ?_,
      hfixed (by decide) (by rfl) (by decide) (Rules.paired_boolean hs),
      hfixed (by decide) (by rfl) (by decide) (.pure (Emission.Alike.expression _)),
      hfixed (by decide) (by rfl) (by decide) (Rules.paired_negation hs),
      hfixed (by decide) (by rfl) (by decide) (Rules.paired_comparison hs),
      hfixed (by decide) (by rfl) (by decide) (Rules.paired_logicOperation hs),
      hfixed (by decide) (by rfl) (by decide) (Rules.paired_choice hs),
      hfixed (by decide) (by rfl) (by decide) (Rules.paired_number hs),
      hfixed (by decide) (by rfl) (by decide) (Rules.paired_arithmetic hs),
      hfixed (by decide) (by rfl) (by decide) (Rules.paired_leftOperator hs _ _ _ _),
      hfixed (by decide) (by rfl) (by decide) (Rules.paired_increment hL hs),
      hfixed (by decide) (by rfl) (by decide) (Rules.paired_text hs),
      hfixed (by decide) (by rfl) (by decide) (Rules.paired_print hL hs),
      hfixed (by decide) (by rfl) (by decide) (Rules.paired_variableValue hs),
      hfixed (by decide) (by rfl) (by decide) (Rules.paired_assignment hL hs)⟩
    have hjump : s.fieldText? "FLOW" = some "BREAK" ∨ s.fieldText? "FLOW" = some "CONTINUE" := by
      rw [Site.fieldText?, hs.head]
      simpa [Outline.jumps, ← htype] using hjumps
    exact hfixed (by decide) (by rfl) (by decide) (Rules.paired_jump hL hs hjump) htype
  obtain ⟨before, after, hrules, -⟩ := List.lookup_eq_some_iff.1 h
  exact hall (o.head.type, rule) (by simp [hrules]) rfl

omit hL hs hfits in
theorem Rules.run_jump_error (h : o.jumps = false) (hhead : s.head = o.head) (p : Pass) :
    (jump s).run p = (.error (.missingInput o.head.type "FLOW"), p) := by
  simp only [Outline.jumps, Bool.or_eq_false_iff, beq_eq_false_iff_ne] at h
  unfold jump Site.fieldText?
  rw [hhead]
  split
  · next hflow => exact absurd hflow h.2.1
  · next hflow => exact absurd hflow h.2.2
  · rfl

omit hL hs hfits in
theorem Outline.eq_of_jumps (h : o.jumps = false) : o.head.type = "controls_flow_statements" := by
  simp only [jumps, Bool.or_eq_false_iff, bne_eq_false_iff_eq] at h
  exact h.1

omit hfits in
theorem Setup.paired_emit {c c' : Setup} (hc : c.book = .builtin) (hc' : c'.book = .builtin)
    (hfits : good o → o.Fits L s.options s'.options) :
    Render.Paired good (c.emit s) (c'.emit s') (.enter o :: o.readings.flatMap visitsAt)
      (BlockText.Alike L o.isStatement) := by
  intro hgood p
  have hfits := hfits (hgood o List.mem_cons_self)
  have hregistered : o.isRegistered = (Rulebook.builtinRules.lookup o.head.type).isSome := by
    rw [← Rulebook.builtin_rule?]
    rfl
  unfold Setup.emit
  rw [hc, hc', hs.head, hs.head', Rulebook.builtin_rule?, List.findSome?_cons, Visit.fault?,
    hregistered]
  cases hrule : Rulebook.builtinRules.lookup o.head.type with
  | none => exact ⟨p, rfl, rfl⟩
  | some rule =>
    cases hjumps : o.jumps with
    | false =>
      rw [Outline.eq_of_jumps hjumps] at hrule
      cases hrule
      refine ⟨{ p with events := p.events.push (.emitting o.head.type o.head.id) }, ?_, ?_⟩
      · rw [run_bind_ok (run_report _ p), run_bind, Rules.run_jump_error hjumps hs.head]
      · rw [run_bind_ok (run_report _ p), run_bind, Rules.run_jump_error hjumps hs.head']
    | true =>
      refine Paired.read_silent (.unchanged fun _ => ⟨_, _, rfl⟩) (fun _ => ?_)
        (fun o' ho' => hgood o' (.tail _ ho')) p
      rw [← List.append_nil (o.readings.flatMap visitsAt)]
      refine (Rulebook.paired_builtin hL hs hfits hjumps hrule).bind fun e e' he => ?_
      generalize o.isStatement = kind at he
      cases he with
      | statement ha hne hne' =>
        exact .pure (.statement (hs.wrap hL hfits ha) (Site.wrap_ne_empty hne)
          (Site.wrap_ne_empty hne'))
      | instrumented ha hne hne' => exact .pure (.statement ha hne hne')
      | expression f => exact .pure (.expression f)

omit hfits in
theorem Site.Paired.asStatement (hfits : o.Fits L s.options s'.options) {kind : Bool}
    {text text' : BlockText} (h : BlockText.Alike L kind text text') :
    Chained L (s.asStatement text) (s'.asStatement text') := by
  cases h with
  | statement ha hne hne' => exact ⟨ha, iff_of_false hne hne'⟩
  | expression f =>
    have hline : IsTerminated (f.code ++ ";\n") := .prepend (by decide) _
    exact ⟨hs.wrap hL hfits (hL.line hline),
      iff_of_false (wrap_ne_empty hline.ne_empty) (wrap_ne_empty hline.ne_empty)⟩

end

theorem Text.Chained.append {L : String → String → Prop} (hL : Layered L) {a a' b b' : String}
    (ha : Chained L a a') (hb : Chained L b b') : Chained L (a ++ b) (a' ++ b') :=
  ⟨hL.append ha.1 hb.1, by rw [String.append_eq_empty_iff, String.append_eq_empty_iff, ha.2, hb.2]⟩

def Operand.code? (operand : Operand) (least : Level) : Render (Option String) :=
  if operand.disabled then return none
  else do
    match ← operand.text with
    | .expression f => return if f.code.isEmpty then none else some (f.splice least)
    | .statement _ => throw (.notExpression operand.type)

namespace Tree

variable {L : String → String → Prop} {c c' : Setup} {head : Head}
  {values statements : List (String × Option Tree)} {next : Option Tree} (hL : Layered L)
  (hc : c.book = .builtin) (hc' : c'.book = .builtin)

structure Paired (L : String → String → Prop) (c c' : Setup) (t : Tree) : Prop where
  operand : ∀ least, Render.Paired (fun o => o.Fits L c.options c'.options)
    ((t.operand c).code? least) ((t.operand c').code? least) t.operandVisits Eq
  chain : Render.Paired (fun o => o.Fits L c.options c'.options) (t.chain c) (t.chain c')
    t.chainVisits (Chained L)

theorem declares_site (input : String) :
    Site.declares ⟨head, c.options, operands c values, chains c statements⟩ input =
      (outline head values statements).declares input := by
  rw [Site.declares, ByName.isSome_lookup, ByName.isSome_lookup, operands_eq, chains_eq,
    Outline.declares, outline, List.map_map, List.map_map, List.contains_append]
  rfl

include hL in
theorem paired_site (hvalues : ∀ name t, (name, some t) ∈ values → t.Paired L c c')
    (hstatements : ∀ name t, (name, some t) ∈ statements → t.Paired L c c') :
    Site.Paired L (fun o => o.Fits L c.options c'.options) (outline head values statements)
      (visitsAt values statements)
      ⟨head, c.options, operands c values, chains c statements⟩
      ⟨head, c'.options, operands c' values, chains c' statements⟩ where
  head := rfl
  head' := rfl
  declares := declares_site
  declares' := declares_site
  size := by simp [operands_eq, chains_eq, outline]
  size' := by simp [operands_eq, chains_eq, outline]
  undeclared input h := by
    rw [Outline.declares, outline, List.contains_append, Bool.or_eq_false_iff,
      ← ByName.isSome_lookup, ← ByName.isSome_lookup] at h
    rw [visitsAt, at?, Option.isNone_iff_eq_none.1 (Option.isSome_eq_false_iff.1 h.2)]
    rfl
  value? input least := by
    simp only [Site.value?, join_lookup_operands]
    rw [visitsAt]
    cases hat : at? values input with
    | none => exact .pure rfl
    | some t => exact (hvalues _ _ (mem_of_at? hat)).operand least
  statementsOf input := by
    simp only [Site.statementsOf, join_lookup_chains]
    rw [visitsAt]
    cases hat : at? statements input with
    | none => exact .pure hL.empty
    | some t => exact (hstatements _ _ (mem_of_at? hat)).chain.weaken fun _ _ h => h.1

include hL in
theorem paired_chainAfter (hnext : ∀ t, next = some t → t.Paired L c c') {code code' : String}
    (hcode : Chained L code code') :
    Render.Paired (fun o => o.Fits L c.options c'.options) (chainAfter c next code)
      (chainAfter c' next code') ((next.map chainVisits).getD []) (Chained L) := by
  cases next with
  | none => exact .pure hcode
  | some t =>
    rw [Option.map_some, Option.getD_some, ← List.append_nil t.chainVisits]
    exact (hnext t rfl).chain.bind fun _ _ hrest => .pure (hcode.append hL hrest)

include hL hc hc'

theorem paired (t : Tree) (hwhole : t.isWhole = true) : t.Paired L c c' := by
  induction t using induct with
  | missing => cases hwhole
  | endless => cases hwhole
  | block head values statements next ihvalues ihstatements ihnext =>
    simp only [isWhole, Bool.and_eq_true] at hwhole
    let o := outline head values statements
    let s : Site := ⟨head, c.options, operands c values, chains c statements⟩
    let s' : Site := ⟨head, c'.options, operands c' values, chains c' statements⟩
    have hs : Site.Paired L (fun o => o.Fits L c.options c'.options) o
        (visitsAt values statements) s s' :=
      paired_site hL (fun name t ht => ihvalues name t ht (isWhole_of_mem hwhole.1.1 ht))
        fun name t ht => ihstatements name t ht (isWhole_of_mem hwhole.1.2 ht)
    have hemit : Render.Paired (fun o => o.Fits L c.options c'.options) (c.emit s) (c'.emit s')
        (blockVisits head values statements) (BlockText.Alike L o.isStatement) :=
      Setup.paired_emit hL hs hc hc' id
    -- Used as a value, a statement is a fault in both passes, whatever code it has in either.
    constructor
    · intro least
      rw [operandVisits_block, operand, operand, Operand.code?, Operand.code?]
      dsimp only
      split
      · exact .pure rfl
      · refine hemit.bind fun text text' htext => ?_
        cases hkind : o.isStatement with
        | true =>
          rw [hkind] at htext
          cases htext with
          | statement => exact .throw (if_pos hkind)
        | false =>
          rw [hkind] at htext
          cases htext with
          | expression f =>
            have hfault : (Visit.use o).fault? = none := if_neg (Bool.eq_false_iff.1 hkind)
            exact .pass hfault (.pure rfl)
    · have hnext : ∀ t, next = some t → t.Paired L c c' := by
        rintro t rfl
        exact ihnext t rfl hwhole.2
      rw [chain_block, chain_block, chainVisits_block]
      split
      · exact paired_chainAfter hL hnext ⟨hL.empty, Iff.rfl⟩
      · intro hgood
        have hfits := hgood o (List.mem_append_left _ List.mem_cons_self)
        exact hemit.bind (fun text text' htext =>
          paired_chainAfter hL hnext (hs.asStatement hL hfits htext)) hgood

end Tree

section

variable {L : String → String → Prop} (hL : Layered L)

theorem Text.isTerminated_terminate (text : String) : IsTerminated (terminate text) := by
  simp [IsTerminated, terminate]

theorem Text.join_terminated {parts : List String} (h : ∀ part ∈ parts, IsTerminated part) :
    String.join parts = "" ∨ IsTerminated (String.join parts) := by
  induction parts with
  | nil => exact .inl rfl
  | cons part parts ih =>
    obtain ⟨hpart, hparts⟩ := List.forall_mem_cons.1 h
    rw [String.join_cons]
    rcases ih hparts with hrest | hrest
    · rw [hrest, String.append_empty]
      exact .inr hpart
    · exact .inr (hrest.prepend part)

theorem Text.join_definitions (definitions : List (String × String)) :
    String.join (definitions.map fun d => terminate d.2) = "" ∨
      IsTerminated (String.join (definitions.map fun d => terminate d.2)) := by
  apply join_terminated
  intro part hpart
  obtain ⟨d, -, rfl⟩ := List.mem_map.1 hpart
  exact isTerminated_terminate d.2

include hL

theorem Text.Chained.join {parts parts' : List String}
    (h : List.Forall₂ (Chained L) parts parts') :
    Chained L (String.join parts) (String.join parts') := by
  induction h with
  | nil => exact ⟨hL.empty, Iff.rfl⟩
  | cons hpart _ ih =>
    rw [String.join_cons, String.join_cons]
    exact hpart.append hL ih

theorem assemble_related (definitions : List (String × String)) {body body' : String}
    (h : Chained L body body') : L (assemble definitions body) (assemble definitions body') := by
  have hhead := join_definitions definitions
  unfold assemble
  dsimp only
  generalize String.join (definitions.map fun d => terminate d.2) = head at hhead
  rcases hhead with rfl | hhead
  · exact h.1
  · have hne : head.isEmpty = false := by simpa using hhead.ne_empty
    have hsame : body.isEmpty = body'.isEmpty := by
      rw [Bool.eq_iff_iff, String.isEmpty_iff, String.isEmpty_iff]
      exact h.2
    simp only [hne, hsame, Bool.false_eq_true, if_false]
    split
    · exact hL.line hhead
    · exact hL.append (hL.line (.prepend (by decide) _)) h.1

omit hL in
theorem Setup.run_opened_congr {c c' : Setup} (hc : c.book = .builtin) (hc' : c'.book = .builtin)
    (hdialect : c.dialect = c'.dialect) (hdeveloper : c.options.developer = c'.options.developer)
    {w : Workspace} : (c'.opened w).run (c'.start w) = (c.opened w).run (c.start w) := by
  have hstart : c'.start w = c.start w := by
    simp only [start, names, hdialect, hdeveloper]
  have hopening : declareVariables c'.options = declareVariables c.options := by
    funext roots
    rw [declareVariables, declareVariables, hdeveloper]
  rw [hstart, opened, opened, runOpening, runOpening, hc, hc']
  simp only [Rulebook.builtin, hopening]

/--
Two programs that differ in the code that the options put in have the same fault, the first one on
the way, or have related code.
-/
theorem Setup.paired_generate {c c' : Setup} (hc : c.book = .builtin) (hc' : c'.book = .builtin)
    (hdialect : c.dialect = c'.dialect) (hdeveloper : c.options.developer = c'.options.developer)
    {w : Workspace} (hw : ∀ t ∈ w.rootTrees, t.isWhole = true)
    (hfits : ∀ o, .enter o ∈ w.visits → o.Fits L c.options c'.options) :
    match w.visits.findSome? Visit.fault? with
    | some e => c.generate w = .error e ∧ c'.generate w = .error e
    | none => ∃ code code', c.generate w = .ok code ∧ c'.generate w = .ok code' ∧ L code code' := by
  obtain ⟨ids, hids⟩ := referencedVariables_ok hw
  obtain ⟨own, used, p, hopened, -, -⟩ := run_opened hc hids
  have hopened' : (c'.opened w).run (c'.start w) = (.ok true, p) := by
    rw [run_opened_congr hc hc' hdialect hdeveloper, hopened]
  have hbody := (Paired.mapM fun t ht => (t.paired hL hc hc' (hw t ht)).chain) hfits p
  change match w.visits.findSome? Visit.fault? with
    | some e => _
    | none => _ at hbody
  split at hbody
  · next e _ =>
    obtain ⟨q, hrun, hrun'⟩ := hbody
    obtain ⟨events, hprogram⟩ := run_program hopened hrun
    obtain ⟨events', hprogram'⟩ := run_program hopened' hrun'
    exact ⟨congrArg Prod.fst hprogram, congrArg Prod.fst hprogram'⟩
  · obtain ⟨parts, parts', q, hrun, hrun', -, hparts⟩ := hbody
    obtain ⟨events, hprogram⟩ := run_program hopened hrun
    obtain ⟨events', hprogram'⟩ := run_program hopened' hrun'
    exact ⟨_, _, congrArg Prod.fst hprogram, congrArg Prod.fst hprogram',
      assemble_related hL q.definitions (.join hL hparts)⟩

end

end BlockCode
