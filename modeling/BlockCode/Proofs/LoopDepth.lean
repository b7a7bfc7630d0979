import BlockCode.Proofs.Companions
import BlockCode.Render.Template

namespace BlockCode

inductive Step where
  | value (type input : String)
  | statement (type input : String)
  | body
  deriving DecidableEq, Repr

def Step.entersLoop : Step → Bool
  | .value .. => false
  | .statement type input => loopTypes.contains type && input == "DO"
  | .body => true

/-- The steps that lead to a block, the last one first. -/
abbrev Path := List Step

def Path.isInLoop (path : Path) : Bool := path.any Step.entersLoop

/-- A jump that goes by the path to its block and does not look at the pass. -/
def Rules.jumpAlong (path : Path) : Rule := fun s =>
  match s.fieldText? "FLOW" with
  | some "BREAK" =>
    return .statement (if path.isInLoop then "break;\n" else "// break outside of a loop\n")
  | some "CONTINUE" =>
    return .statement (if path.isInLoop then "continue;\n" else "// continue outside of a loop\n")
  | _ => throw (.missingInput s.head.type "FLOW")

def Setup.along (c : Setup) (path : Path) : Setup :=
  { c with book := c.book.register "controls_flow_statements" (Rules.jumpAlong path) }

namespace Tree

mutual

def operandsAlong (c : Setup) (into : String → Path) :
    List (String × Option Tree) → List (String × Option Operand)
  | [] => []
  | (name, none) :: rest => (name, none) :: operandsAlong c into rest
  | (name, some t) :: rest =>
    (name, some (operandAlong c (into name) t)) :: operandsAlong c into rest

def operandAlong (c : Setup) (path : Path) : Tree → Operand
  | .missing => { text := throw .missingBlock }
  | .endless => { text := throw .endless }
  | .block head values statements _ =>
    ⟨head.type, head.disabled, (c.along path).emit ⟨head, c.options,
      operandsAlong c (.value head.type · :: path) values,
      chainsAlong c (.statement head.type · :: path) statements⟩⟩

def chainsAlong (c : Setup) (into : String → Path) :
    List (String × Option Tree) → List (String × Option (Render String))
  | [] => []
  | (name, none) :: rest => (name, none) :: chainsAlong c into rest
  | (name, some t) :: rest =>
    (name, some (chainAlong c (into name) t)) :: chainsAlong c into rest

def chainAlong (c : Setup) (path : Path) : Tree → Render String
  | .missing => throw .missingBlock
  | .endless => throw .endless
  | .block head values statements next => do
    let s : Site := ⟨head, c.options, operandsAlong c (.value head.type · :: path) values,
      chainsAlong c (.statement head.type · :: path) statements⟩
    let code ← if head.disabled then pure "" else s.asStatement <$> (c.along path).emit s
    match next with
    | none => return code
    | some t => return code ++ (← chainAlong c path t)

end

def siteAlong (c : Setup) (path : Path) (into : Step → Path) : Tree → Render Site
  | .missing => throw .missingBlock
  | .endless => throw .endless
  | .block head values statements _ =>
    return ⟨head, c.options, operandsAlong c (.value head.type · :: path) values,
      chainsAlong c (fun input => into (.statement head.type input)) statements⟩

def textAlong (c : Setup) (path : Path) (t : Tree) : Render BlockText := do
  (c.along path).emit (← t.siteAlong c path (· :: path))

end Tree

/-- The path to what a question is about: a loop body is inside of a loop, whoever asks for it. -/
def Query.pathFrom (path : Path) : Query → Path
  | .loopBranch _ => .body :: path
  | _ => path

inductive Tree.Call where
  | text (t : Tree)
  | ask (t : Tree) (q : Query)

namespace Tree.Call

def tree : Call → Tree
  | .text t => t
  | .ask t _ => t

def run (c : Setup) : Call → Render (BlockText ⊕ Answer)
  | .text t => .inl <$> t.text c
  | .ask t q => .inr <$> (t.site c >>= fun s => q.run s)

def runAlong (c : Setup) (path : Path) : Call → Render (BlockText ⊕ Answer)
  | .text t => .inl <$> t.textAlong c path
  | .ask t q => .inr <$> (t.siteAlong c path (fun _ => q.pathFrom path) >>= fun s => q.run s)

end Tree.Call

def Pass.after (c : Setup) (p : Pass) (calls : List Tree.Call) : Pass :=
  calls.foldl (fun p call => ((call.run c).run p).2) p

def Setup.programAlong (c : Setup) (w : Workspace) : Render String := do
  let _ ← c.opened w
  let parts ← w.rootTrees.mapM (Tree.chainAlong c [])
  let pass ← get
  Render.report (.finished pass.definitions.length pass.names.count)
  return assemble pass.definitions (String.join parts)

namespace Render

/--
On passes inside of a loop, or on passes outside of all loops, the actions do the same and leave the
depth as it is.
-/
structure Located (inside : Bool) {α : Type} (x y : Render α) : Prop where
  safe : x.Safe
  run_eq : ∀ p : Pass, decide (0 < p.loopDepth) = inside → x.run p = y.run p
  depth : ∀ p : Pass, decide (0 < p.loopDepth) = inside → (x.run p).2.loopDepth = p.loopDepth

namespace Located

variable {α β : Type} {inside : Bool}

theorem of_ok {x : Render α}
    (h : ∀ p, ∃ a p', x.run p = (.ok a, p') ∧ p'.loopDepth = p.loopDepth) : Located inside x x where
  safe := .of_ok fun p => by
    obtain ⟨a, p', hrun, -⟩ := h p
    exact ⟨a, congrArg Prod.fst hrun⟩
  run_eq _ _ := rfl
  depth p _ := by
    obtain ⟨a, p', hrun, hdepth⟩ := h p
    rw [hrun, hdepth]

theorem nameFor (key : String) (category : Category) :
    Located inside (Render.nameFor key category) (Render.nameFor key category) :=
  .of_ok fun p => by
    obtain ⟨events, hrun⟩ := run_nameFor key category p
    exact ⟨_, _, hrun, rfl⟩

theorem bind {x y : Render α} {f g : α → Render β} (h : Located inside x y)
    (h' : ∀ a, Located inside (f a) (g a)) : Located inside (x >>= f) (y >>= g) := by
  have hrun : ∀ p : Pass, decide (0 < p.loopDepth) = inside → (x >>= f).run p = (y >>= g).run p ∧
      ((x >>= f).run p).2.loopDepth = p.loopDepth := by
    intro p hp
    have hfirst := h.depth p hp
    rw [run_bind, run_bind, ← h.run_eq p hp]
    generalize x.run p = r at hfirst ⊢
    obtain ⟨e | a, q⟩ := r
    · exact ⟨rfl, hfirst⟩
    · have hfirst : q.loopDepth = p.loopDepth := hfirst
      have hq : decide (0 < q.loopDepth) = inside := by rw [hfirst, hp]
      exact ⟨(h' a).run_eq q hq, ((h' a).depth q hq).trans hfirst⟩
  exact ⟨h.safe.bind fun a => (h' a).safe, fun p hp => (hrun p hp).1, fun p hp => (hrun p hp).2⟩

theorem asLoopBody {x y : Render α} (h : Located true x y) :
    Located inside x.asLoopBody y.asLoopBody := by
  have hrun : ∀ p : Pass, x.asLoopBody.run p = y.asLoopBody.run p ∧
      (x.asLoopBody.run p).2.loopDepth = p.loopDepth := by
    intro p
    have hinside : decide (0 < p.loopDepth + 1) = true := decide_eq_true (Nat.succ_pos _)
    have hbody := h.run_eq { p with loopDepth := p.loopDepth + 1 } hinside
    have hdepth := h.depth { p with loopDepth := p.loopDepth + 1 } hinside
    cases hx : x.run { p with loopDepth := p.loopDepth + 1 } with
    | mk result q =>
      rw [hx] at hbody hdepth
      have hlowered : q.loopDepth - 1 = p.loopDepth := congrArg (· - 1) hdepth
      cases result with
      | ok a =>
        rw [run_asLoopBody_ok hx, run_asLoopBody_ok hbody.symm]
        exact ⟨rfl, hlowered⟩
      | error e =>
        have he : e ≠ .missingBlock := by
          rintro rfl
          cases h.safe _ .missingBlock (congrArg Prod.fst hx)
        rw [run_asLoopBody_error hx, run_asLoopBody_error hbody.symm, if_neg he]
        exact ⟨rfl, hlowered⟩
  exact ⟨fun p e he => h.safe _ e (fst_run_asLoopBody x p ▸ he), fun p _ => (hrun p).1,
    fun p _ => (hrun p).2⟩

end Located

theorem located_kept (inside : Bool) : KeptSteps (fun _ => True) (Located inside) where
  pure a := .of_ok fun p => ⟨a, p, rfl, rfl⟩
  bind := .bind
  throw _ he := ⟨safe_kept.throw _ he, fun _ _ => rfl, fun _ _ => rfl⟩
  report _ := .of_ok fun _ => ⟨(), _, rfl, rfl⟩
  variableName _ _ := .nameFor _ _
  distinctName _ := .of_ok fun _ => ⟨_, _, rfl, rfl⟩
  inLoop := .of_ok fun p => ⟨_, p, rfl, rfl⟩

end Render

open Render (Located located_kept)

section

variable {path : Path} {s : Site} {values : List (String × Option Operand)}
  {statements : List (String × Option (Render String))}

theorem Rules.located_jump (path : Path) (s : Site) (values : List (String × Option Operand))
    (statements : List (String × Option (Render String))) :
    Located path.isInLoop (jump s) (jumpAlong path { s with values, statements }) := by
  have hself := kept_jump (located_kept path.isInLoop) s
  refine ⟨hself.safe, fun p hp => ?_, hself.depth⟩
  have hinside : Render.inLoop.run p = (.ok path.isInLoop, p) := by rw [← hp]; rfl
  have hfield : Site.fieldText? { s with values, statements } "FLOW" = s.fieldText? "FLOW" := rfl
  unfold jump
  split
  · next hflow =>
    rw [pure_bind, Render.run_bind_ok hinside, jumpAlong, hfield, hflow]
    cases path.isInLoop <;> rfl
  · next hflow =>
    rw [pure_bind, Render.run_bind_ok hinside, jumpAlong, hfield, hflow]
    cases path.isInLoop <;> rfl
  · next hbreak hcontinue =>
    rw [jumpAlong, hfield]
    split
    · next hflow => exact (hbreak hflow).elim
    · next hflow => exact (hcontinue hflow).elim
    · rfl

theorem Site.located_value (hs : s.ValuesMatch (fun _ => True) (Located path.isInLoop) values)
    (statements : List (String × Option (Render String))) (input : String) (least : Level) :
    Located path.isInLoop (s.value input least)
      (Site.value { s with values, statements } input least) := by
  have hP := located_kept path.isInLoop
  refine hP.bind (Site.kept_value? hP hs statements input least) fun code => ?_
  cases code with
  | some code => exact hP.pure code
  | none => exact hP.throw _ rfl

section

variable {c : Setup} (hc : c.book = .builtin)
  (hs : s.ValuesMatch (fun _ => True) (Located path.isInLoop) values)
  (hbranches : s.head.type ∈ conditionalTypes →
    s.Matches (fun _ => True) (Located path.isInLoop) values statements)
  (hbody : s.head.type ∈ loopTypes → Located path.isInLoop (s.loopBranch "DO")
    (Site.loopBranch { s with values, statements } "DO"))

include hc hs hbranches hbody

theorem Setup.located_rule : Option.Rel
    (fun rule rule' : Rule =>
      Located path.isInLoop (rule s) (rule' { s with values, statements }))
    (c.book.rule? s.head.type) ((c.along path).book.rule? s.head.type) := by
  rw [Setup.along, Rulebook.register, Rulebook.rule?, Rulebook.rule?, ByName.get?_insert, hc,
    ← Rulebook.rule?, Rulebook.builtin_rule?]
  by_cases htype : s.head.type = "controls_flow_statements"
  · have hjump : Rulebook.builtinRules.lookup s.head.type = some Rules.jump := by
      rw [htype]
      rfl
    rw [if_pos htype, hjump]
    exact .some (Rules.located_jump path s values statements)
  · rw [if_neg htype]
    cases hlookup : Rulebook.builtinRules.lookup s.head.type with
    | none => exact .none
    | some rule =>
      exact .some (Rulebook.kept_of_branches (located_kept _) hs hbranches hbody hlookup)

theorem Setup.located_emit :
    Located path.isInLoop (c.emit s) ((c.along path).emit { s with values, statements }) := by
  have hP := located_kept path.isInLoop
  have hrule := located_rule hc hs hbranches hbody
  unfold Setup.emit
  dsimp only
  generalize c.book.rule? s.head.type = rule at hrule ⊢
  generalize (c.along path).book.rule? s.head.type = rule' at hrule ⊢
  cases hrule with
  | none => exact hP.throw _ rfl
  | some h =>
    refine hP.bind (hP.report _) fun _ => hP.bind h fun emission => ?_
    cases emission <;> exact hP.pure _

end

theorem Query.located_run (q : Query)
    (hs : s.ValuesMatch (fun _ => True) (Located path.isInLoop) values)
    (hstatements : InputsMatch (Located (q.pathFrom path).isInLoop) s.statements statements) :
    Located path.isInLoop (q.run s) (q.run { s with values, statements }) := by
  have hP := located_kept path.isInLoop
  have hself : ∀ {x : Render Answer}, (∀ p, ∃ a p', x.run p = (.ok a, p') ∧
      p'.loopDepth = p.loopDepth) → Located path.isInLoop x x := .of_ok
  have hchain := fun input => hstatements.join_lookup input
  cases q with
  | value input least => exact hP.map _ (Site.kept_value? hP hs statements input least)
  | valueOr input least default =>
    exact hP.map _ (Site.kept_valueOr hP hs statements input least default)
  | required input least => exact hP.map _ (Site.located_value hs statements input least)
  | statements input => exact hP.map _ (Site.kept_statementsOf hP values (hchain input))
  | branch input => exact hP.map _ (Site.kept_branchOf hP values (hchain input))
  | loopBranch input =>
    have hbranch := Site.kept_branchOf (located_kept true) values (hchain input)
    exact hP.map _ (hP.bind hbranch.asLoopBody fun _ => hP.pure _)
  | variableName field => exact hP.map _ (.nameFor _ _)
  | nameFor key category => exact hP.map _ (.nameFor _ _)
  | inLoop => exact hP.map _ hP.inLoop
  | trapped | before | after | fieldText | fieldNumber => exact hP.pure _
  | distinctName | define | isDefined | definitions | nameCount | isReserved =>
    exact hself fun p => ⟨_, _, rfl, rfl⟩

end

namespace Tree

variable {c : Setup}

theorem operandsAlong_eq (c : Setup) (into : String → Path) (vs : List (String × Option Tree)) :
    operandsAlong c into vs = vs.map fun e => (e.1, e.2.map (operandAlong c (into e.1))) := by
  induction vs with
  | nil => rfl
  | cons e vs ih =>
    obtain ⟨name, link⟩ := e
    cases link <;> rw [operandsAlong, ih] <;> rfl

theorem chainsAlong_eq (c : Setup) (into : String → Path) (vs : List (String × Option Tree)) :
    chainsAlong c into vs = vs.map fun e => (e.1, e.2.map (chainAlong c (into e.1))) := by
  induction vs with
  | nil => rfl
  | cons e vs ih =>
    obtain ⟨name, link⟩ := e
    cases link <;> rw [chainsAlong, ih] <;> rfl

structure Located (c : Setup) (t : Tree) : Prop where
  operand (path : Path) :
    Render.Located path.isInLoop (t.operand c).text (t.operandAlong c path).text
  chain (path : Path) : Render.Located path.isInLoop (t.chain c) (t.chainAlong c path)

section

variable {values statements : List (String × Option Tree)}

theorem located_values (h : ∀ name t, (name, some t) ∈ values → t.Located c) (type : String)
    (path : Path) : InputsMatch (Operand.Matches (Render.Located path.isInLoop))
      (operands c values) (operandsAlong c (.value type · :: path) values) := by
  rw [operands_eq, operandsAlong_eq]
  refine inputsMatch_map (f := fun _ => operand c)
    (g := fun name => operandAlong c (.value type name :: path)) fun name t ht => ?_
  exact ⟨by cases t <;> rfl, fun _ => by cases t <;> rfl,
    fun _ => (h name t ht).operand (.value type name :: path)⟩

theorem located_statements (h : ∀ name t, (name, some t) ∈ statements → t.Located c)
    {into : String → Path} {path : Path} (hinto : ∀ name, (into name).isInLoop = path.isInLoop) :
    InputsMatch (Render.Located path.isInLoop) (chains c statements)
      (chainsAlong c into statements) := by
  rw [chains_eq, chainsAlong_eq]
  refine inputsMatch_map (f := fun _ => chain c) (g := fun name => chainAlong c (into name))
    fun name t ht => ?_
  have hchain := (h name t ht).chain (into name)
  rwa [hinto] at hchain

theorem located_body (h : ∀ name t, (name, some t) ∈ statements → t.Located c) {type : String}
    (htype : type ∈ loopTypes) (path : Path) : Option.Rel (Render.Located true)
      ((chains c statements).lookup "DO").join
      ((chainsAlong c (.statement type · :: path) statements).lookup "DO").join := by
  have hinside : Path.isInLoop (.statement type "DO" :: path) = true := by
    simp [Path.isInLoop, Step.entersLoop, htype]
  rw [join_lookup_chains, chainsAlong_eq,
    join_lookup_map fun name => chainAlong c (.statement type name :: path)]
  cases hbody : at? statements "DO" with
  | none => exact .none
  | some t =>
    have hchain := (h "DO" t (mem_of_at? hbody)).chain (.statement type "DO" :: path)
    rw [hinside] at hchain
    exact .some hchain

theorem located_emit (head : Head) (hc : c.book = .builtin)
    (hvalues : ∀ name t, (name, some t) ∈ values → t.Located c)
    (hstatements : ∀ name t, (name, some t) ∈ statements → t.Located c) (path : Path) :
    Render.Located path.isInLoop
      (c.emit ⟨head, c.options, operands c values, chains c statements⟩)
      ((c.along path).emit ⟨head, c.options, operandsAlong c (.value head.type · :: path) values,
        chainsAlong c (.statement head.type · :: path) statements⟩) := by
  let s : Site := ⟨head, c.options, operands c values, chains c statements⟩
  have hs : s.ValuesMatch (fun _ => True) (Render.Located path.isInLoop) _ :=
    ⟨trivial, located_values hvalues head.type path⟩
  refine Setup.located_emit (s := s) hc hs (fun htype => ⟨hs, ?_⟩) fun htype => ?_
  · refine located_statements hstatements fun name => ?_
    have hloop : head.type ∉ loopTypes := fun hloop => by
      have hdisjoint : ∀ type ∈ conditionalTypes, type ∉ loopTypes := by decide
      exact hdisjoint head.type htype hloop
    simp [Path.isInLoop, Step.entersLoop, hloop]
  · have hbranch := Site.kept_branchOf (s := s) (located_kept true)
      (operandsAlong c (.value head.type · :: path) values) (located_body hstatements htype path)
    exact (located_kept _).bind hbranch.asLoopBody fun _ => (located_kept _).pure _

end

theorem located (hc : c.book = .builtin) (t : Tree) (hwhole : t.isWhole = true) : t.Located c := by
  induction t using induct with
  | missing | endless => cases hwhole
  | block head values statements next ihvalues ihstatements ihnext =>
    simp only [isWhole, Bool.and_eq_true] at hwhole
    have hemit := located_emit head hc
      (fun name t ht => ihvalues name t ht (isWhole_of_mem hwhole.1.1 ht))
      fun name t ht => ihstatements name t ht (isWhole_of_mem hwhole.1.2 ht)
    refine ⟨fun path => ?_, fun path => ?_⟩
    · rw [operand, operandAlong]
      exact hemit path
    · have hP := located_kept path.isInLoop
      rw [chain, chainAlong]
      cases next with
      | none =>
        split
        · exact hP.bind (hP.pure "") hP.pure
        · exact hP.bind (hP.map _ (hemit path)) hP.pure
      | some t =>
        have hnext := fun code : String =>
          hP.bind ((ihnext t rfl hwhole.2).chain path) fun rest => hP.pure (code ++ rest)
        split
        · exact hP.bind (hP.pure "") hnext
        · exact hP.bind (hP.map _ (hemit path)) hnext

theorem Call.located (hc : c.book = .builtin) (call : Call) (hwhole : call.tree.isWhole = true)
    (path : Path) : Render.Located path.isInLoop (call.run c) (call.runAlong c path) := by
  have hP := located_kept path.isInLoop
  have hlinks : ∀ {head values statements next}, (Tree.block head values statements next).isWhole →
      (∀ name t, (name, some t) ∈ values → t.Located c) ∧
        ∀ name t, (name, some t) ∈ statements → t.Located c := by
    intro head values statements next hwhole
    simp only [isWhole, Bool.and_eq_true] at hwhole
    exact ⟨fun name t ht => t.located hc (isWhole_of_mem hwhole.1.1 ht),
      fun name t ht => t.located hc (isWhole_of_mem hwhole.1.2 ht)⟩
  cases call with
  | text t =>
    cases t with
    | missing | endless => cases hwhole
    | block head values statements next =>
      obtain ⟨hvalues, hstatements⟩ := hlinks hwhole
      exact hP.map _ (located_emit head hc hvalues hstatements path)
  | ask t q =>
    cases t with
    | missing | endless => cases hwhole
    | block head values statements next =>
      obtain ⟨hvalues, hstatements⟩ := hlinks hwhole
      have hs : Site.ValuesMatch (fun _ => True) (Render.Located path.isInLoop)
          ⟨head, c.options, operands c values, chains c statements⟩ _ :=
        ⟨trivial, located_values hvalues head.type path⟩
      exact hP.map _ (q.located_run hs (located_statements hstatements fun _ => rfl))

theorem Call.loopDepth_run (hc : c.book = .builtin) (call : Call)
    (hwhole : call.tree.isWhole = true) (p : Pass) :
    ((call.run c).run p).2.loopDepth = p.loopDepth := by
  cases hp : decide (0 < p.loopDepth) with
  | false => exact (call.located hc hwhole []).depth p hp
  | true => exact (call.located hc hwhole [.body]).depth p hp

end Tree

theorem Pass.loopDepth_after {c : Setup} (hc : c.book = .builtin) (p : Pass)
    {calls : List Tree.Call} (hwhole : ∀ call ∈ calls, call.tree.isWhole = true) :
    (p.after c calls).loopDepth = p.loopDepth := by
  induction calls generalizing p with
  | nil => rfl
  | cons call calls ih =>
    obtain ⟨hcall, hcalls⟩ := List.forall_mem_cons.1 hwhole
    exact (ih _ hcalls).trans (call.loopDepth_run hc hcall p)

theorem located_declareVariables (inside : Bool) (options : Options) {roots : List Tree}
    (h : ∀ t ∈ roots, t.isWhole = true) :
    Located inside (declareVariables options roots) (declareVariables options roots) := by
  have hP := located_kept inside
  obtain ⟨ids, hids⟩ := referencedVariables_ok h
  unfold declareVariables
  refine hP.bind (hP.mapM fun _ _ => .nameFor _ _) fun own => ?_
  simp only [hids]
  refine hP.bind (hP.pure ids) fun _ => hP.bind (hP.mapM fun _ _ => .nameFor _ _) fun used => ?_
  split
  · exact .of_ok fun _ => ⟨(), _, rfl, rfl⟩
  · exact hP.pure ()

namespace Setup

variable {c : Setup} {w : Workspace}

theorem located_program (hc : c.book = .builtin) (h : ∀ t ∈ w.rootTrees, t.isWhole = true) :
    Located false (c.program w) (c.programAlong w) := by
  have hP := located_kept false
  have hopened : Located false (c.opened w) (c.opened w) := by
    unfold opened runOpening
    rw [hc]
    exact hP.bind (hP.report _) fun _ =>
      hP.bind (located_declareVariables false c.options h) fun _ => hP.pure true
  rw [program_eq, programAlong]
  refine hP.bind hopened fun _ => hP.bind (hP.mapM fun t ht => (t.located hc (h t ht)).chain [])
    fun _ => hP.bind (.of_ok fun p => ⟨p, p, rfl, rfl⟩) fun _ => hP.bind (hP.report _) fun _ => ?_
  exact hP.pure _

/--
Every call leaves the depth as it finds it, whether it succeeds or fails. This holds at any depth,
also for the statements of a loop, which are asked for one level further in: the depth is back at
that level when it is lowered, and never falls below zero. So a jump is code if and only if the path
to it leads into a loop, in a program and in all calls on a pass.
-/
theorem jumps_along (hc : c.book = .builtin) (hw : w.Acyclic) :
    (c.program w).run (c.start w) = (c.programAlong w).run (c.start w) ∧
    (∀ i < w.size, (w.tree i).isWhole = true) ∧
    ∀ (p : Pass) (calls : List Tree.Call), (∀ call ∈ calls, call.tree.isWhole = true) →
      (p.after c calls).loopDepth = p.loopDepth ∧
      ∀ call : Tree.Call, call.tree.isWhole = true →
        ((call.run c).run (p.after c calls)).2.loopDepth = p.loopDepth ∧
        ∀ path : Path, path.isInLoop = decide (0 < p.loopDepth) →
          (call.run c).run (p.after c calls) = (call.runAlong c path).run (p.after c calls) := by
  refine ⟨(located_program hc hw.isWhole_rootTrees).run_eq _ rfl,
    fun i hi => hw.isWhole_unfold .nil (by simp) hi (by simp), fun p calls hcalls => ?_⟩
  have hafter := p.loopDepth_after hc hcalls
  refine ⟨hafter, fun call hcall => ⟨?_, fun path hpath => ?_⟩⟩
  · rw [call.loopDepth_run hc hcall, hafter]
  · exact (call.located hc hcall path).run_eq _ (by rw [hafter, hpath])

/-- A loop that fails in its body leaves the depth at zero: the next jump is outside of loops. -/
theorem jumps_along_failed :
    let w : Workspace := {
      blocks := #[
        { id := "leave", type := "controls_flow_statements",
          fields := ⟨[("FLOW", .text "BREAK")]⟩ },
        { id := "test", type := "controls_if", statements := ⟨[("DO0", some 0)]⟩ },
        { id := "rest", type := "controls_flow_statements",
          fields := ⟨[("FLOW", .text "CONTINUE")]⟩ },
        { id := "loop", type := "controls_repeat", fields := ⟨[("TIMES", .text "2")]⟩,
          statements := ⟨[("DO", some 1)]⟩, next := some 2 },
        { id := "lost", type := "sensor" },
        { id := "round", type := "controls_whileUntil", statements := ⟨[("DO", some 4)]⟩ }],
      roots := [3] }
    let c : Setup := {}
    let failed := (c.start w).after c [.text (w.tree 5)]
    w.Acyclic ∧
      ((c.programAlong w).run (c.start w)).1 =
        .ok r"for count in 0..2 {
  if false {
    break;
  }
}
// continue outside of a loop
" ∧
      (((Tree.Call.text (w.tree 5)).run c).run (c.start w)).1 =
        .error (.unknownType "sensor" "lost") ∧
      failed.loopDepth = 0 ∧
      (((Tree.Call.text (w.tree 2)).runAlong c []).run failed).1 =
        .ok (.inl (.statement "// continue outside of a loop\n")) ∧
      (((Tree.Call.ask (w.tree 1) (.loopBranch "DO0")).runAlong c []).run failed).1 =
        .ok (.inr (.text "  break;\n")) := by
  intro w c failed
  have hw : w.Acyclic := Workspace.acyclic_of_rank id (by decide) (by decide)
  obtain ⟨hprogram, hwhole, hcalls⟩ := jumps_along (c := c) rfl hw
  obtain ⟨hdepth, hnext⟩ := hcalls (c.start w) [.text (w.tree 5)]
    (List.forall_mem_singleton.2 (hwhole 5 (by decide)))
  have hjump := (hnext (.text (w.tree 2)) (hwhole 2 (by decide))).2 [] rfl
  have hbody := (hnext (.ask (w.tree 1) (.loopBranch "DO0")) (hwhole 1 (by decide))).2 [] rfl
  refine ⟨hw, ?_, by decide +kernel, hdepth, ?_, ?_⟩
  · rw [← hprogram]
    decide +kernel
  · rw [← hjump]
    decide +kernel
  · rw [← hbody]
    decide +kernel

end Setup

/-- The call, with the input that it is about as a step of the path like any other one. -/
def Tree.Call.runThrough (c : Setup) (path : Path) : Call → Render (BlockText ⊕ Answer)
  | .text t => .inl <$> t.textAlong c path
  | .ask t q => .inr <$> (t.siteAlong c path (· :: path) >>= fun s => q.run s)

namespace Setup

/--
What is asked for as the body of a loop is inside of one although its block is no loop, and the body
of a loop is outside when it is asked for as any other input.
-/
theorem jumps_not_through :
    let w : Workspace := {
      blocks := #[
        { id := "leave", type := "controls_flow_statements",
          fields := ⟨[("FLOW", .text "BREAK")]⟩ },
        { id := "test", type := "controls_if", statements := ⟨[("DO0", some 0)]⟩ },
        { id := "loop", type := "controls_repeat", fields := ⟨[("TIMES", .text "2")]⟩,
          statements := ⟨[("DO", some 0)]⟩ }] }
    let c : Setup := {}
    let answer (call : Tree.Call) := ((call.run c).run (c.start w)).1
    let through (call : Tree.Call) := ((call.runThrough c []).run (c.start w)).1
    let inside : Tree.Call := .ask (w.tree 1) (.loopBranch "DO0")
    let outside : Tree.Call := .ask (w.tree 2) (.branch "DO")
    let flat : Tree.Call := .ask (w.tree 2) (.statements "DO")
    w.Acyclic ∧
      Path.isInLoop [.statement "controls_if" "DO0"] = false ∧
      answer inside = .ok (.inr (.text "  break;\n")) ∧
      through inside = .ok (.inr (.text "  // break outside of a loop\n")) ∧
      Path.isInLoop [.statement "controls_repeat" "DO"] = true ∧
      answer outside = .ok (.inr (.text "  // break outside of a loop\n")) ∧
      through outside = .ok (.inr (.text "  break;\n")) ∧
      answer flat = .ok (.inr (.text "// break outside of a loop\n")) ∧
      through flat = .ok (.inr (.text "break;\n")) := by
  intro w c answer through inside outside flat
  have hw : w.Acyclic := Workspace.acyclic_of_rank id (by decide) (by decide)
  exact ⟨hw, by decide, by decide +kernel, by decide +kernel, by decide, by decide +kernel,
    by decide +kernel, by decide +kernel, by decide +kernel⟩

end Setup

end BlockCode
