import BlockCode.Proofs.Acceptance
import BlockCode.Proofs.Listings

namespace BlockCode

open Text

def Reading.performed (inner : String → List Outline) : Reading → List Outline
  | .value _ => []
  | .statements input => inner input

namespace Tree

mutual

/-- The statements in a chain and in all that is inside, once each time they are performed. -/
def performed : Tree → List Outline
  | .missing | .endless => []
  | .block head values statements next =>
    (if head.disabled then []
    else
      outline head values statements :: (outline head values statements).readings.flatMap
        (Reading.performed fun input => ((performedTable statements).lookup input).getD [])) ++
      match next with
      | none => []
      | some t => performed t

def performedTable : List (String × Option Tree) → List (String × List Outline)
  | [] => []
  | (name, none) :: rest => (name, []) :: performedTable rest
  | (name, some t) :: rest => (name, performed t) :: performedTable rest

end

def performedAt (statements : List (String × Option Tree)) (input : String) : List Outline :=
  ((at? statements input).map performed).getD []

theorem performedTable_eq (statements : List (String × Option Tree)) :
    performedTable statements = statements.map fun e => (e.1, (e.2.map performed).getD []) := by
  induction statements with
  | nil => rfl
  | cons e statements ih => obtain ⟨name, _ | t⟩ := e <;> simp [performedTable, ih]

theorem performed_block (head : Head) (values statements : List (String × Option Tree))
    (next : Option Tree) : performed (.block head values statements next) =
      (if head.disabled then []
      else outline head values statements :: (outline head values statements).readings.flatMap
        (Reading.performed (performedAt statements))) ++ (next.map performed).getD [] := by
  have htable : (fun input => ((performedTable statements).lookup input).getD []) =
      performedAt statements := by
    funext input
    rw [performedTable_eq]
    exact getD_lookup_map performed statements input
  cases next <;> rw [performed, htable] <;> rfl

theorem enter_mem_chainVisits (t : Tree) : ∀ o ∈ t.performed, .enter o ∈ t.chainVisits := by
  induction t using induct with
  | missing | endless => exact fun _ h => nomatch h
  | block head values statements next _ ihstatements ihnext =>
    rw [performed_block, chainVisits_block]
    intro o ho
    rcases List.mem_append.1 ho with ho | ho
    · refine List.mem_append_left _ ?_
      split at ho
      · cases ho
      · next hd =>
        rw [if_neg hd, blockVisits]
        rcases List.mem_cons.1 ho with rfl | ho
        · exact List.mem_cons_self
        · obtain ⟨reading, hreading, ho⟩ := List.mem_flatMap.1 ho
          refine List.mem_cons_of_mem _ (List.mem_flatMap.2 ⟨reading, hreading, ?_⟩)
          cases reading with
          | value input => cases ho
          | statements input =>
            rw [Reading.performed, performedAt] at ho
            rw [visitsAt]
            cases hat : at? statements input with
            | none => simp [hat] at ho
            | some t =>
              rw [hat] at ho
              exact ihstatements input t (mem_of_at? hat) o ho
    · refine List.mem_append_right _ ?_
      cases next with
      | none => cases ho
      | some t => exact ihnext t rfl o ho

end Tree

def Workspace.performed (w : Workspace) : List Outline := w.rootTrees.flatMap Tree.performed

theorem Workspace.exists_of_performed {w : Workspace} {o : Outline} (h : o ∈ w.performed) :
    ∃ b ∈ w.blocks, o = b.outline := by
  obtain ⟨t, ht, ho⟩ := List.mem_flatMap.1 h
  have hvisit : .enter o ∈ w.visits := List.mem_flatMap.2 ⟨t, ht, t.enter_mem_chainVisits o ho⟩
  obtain ⟨role, i, b, -, hb, hv⟩ := arises_of_mem_visits hvisit
  exact ⟨b, Array.mem_of_getElem? hb, by simpa using hv⟩

def Setup.filled (c : Setup) (T : Templates) : Setup :=
  { c with options := {
      before := some (T.text .before)
      after := some (T.text .after)
      trap := some (T.text .trap)
      developer := c.options.developer } }

namespace Render

variable {α β : Type}

/--
Whatever the templates are, the action has the same fault, or a result that depends on them as told;
it leaves the same pass behind.
-/
def Uniform (x : Templates → Render α) (Q : (Templates → α) → Prop) : Prop :=
  ∀ p : Pass, (∃ e q, ∀ T, (x T).run p = (.error e, q)) ∨
    ∃ a q, Q a ∧ ∀ T, (x T).run p = (.ok (a T), q)

def Fixed (a : Templates → α) : Prop := ∃ v, a = fun _ => v

namespace Uniform

variable {x : Templates → Render α} {f : Templates → α → Render β} {Q : (Templates → α) → Prop}
  {R : (Templates → β) → Prop}

theorem pure {a : Templates → α} (h : Q a) : Uniform (fun T => pure (a T)) Q :=
  fun p => .inr ⟨a, p, h, fun _ => rfl⟩

theorem throw (e : Fault) : Uniform (fun _ => throw e) Q := fun p => .inl ⟨e, p, fun _ => rfl⟩

theorem same (x : Render α) : Uniform (fun _ => x) Fixed := by
  intro p
  cases hrun : x.run p with
  | mk result q =>
    cases result with
    | error e => exact .inl ⟨e, q, fun _ => hrun⟩
    | ok v => exact .inr ⟨fun _ => v, q, ⟨v, rfl⟩, fun _ => hrun⟩

theorem bind (hx : Uniform x Q) (hf : ∀ a, Q a → Uniform (fun T => f T (a T)) R) :
    Uniform (fun T => x T >>= f T) R := by
  intro p
  rcases hx p with ⟨e, q, hrun⟩ | ⟨a, q, ha, hrun⟩
  · exact .inl ⟨e, q, fun T => by rw [run_bind, hrun]⟩
  · rcases hf a ha q with ⟨e, q', hrun'⟩ | ⟨b, q', hb, hrun'⟩
    · exact .inl ⟨e, q', fun T => by rw [run_bind_ok (hrun T), hrun']⟩
    · exact .inr ⟨b, q', hb, fun T => by rw [run_bind_ok (hrun T), hrun']⟩

theorem read (hx : Uniform x Fixed) (hf : ∀ a, Uniform (fun T => f T a) R) :
    Uniform (fun T => x T >>= f T) R := by
  refine hx.bind ?_
  rintro _ ⟨a, rfl⟩
  exact hf a

theorem asLoopBody (hx : Uniform x Q) : Uniform (fun T => (x T).asLoopBody) Q := by
  intro p
  rcases hx { p with loopDepth := p.loopDepth + 1 } with ⟨e, q, hrun⟩ | ⟨a, q, ha, hrun⟩
  · exact .inl ⟨e, _, fun T => run_asLoopBody_error (hrun T)⟩
  · exact .inr ⟨a, _, ha, fun T => run_asLoopBody_ok (hrun T)⟩

theorem mapM {γ : Type} {f : Templates → γ → Render α} {Q : γ → (Templates → α) → Prop}
    {cs : List γ} (h : ∀ c ∈ cs, Uniform (fun T => f T c) (Q c)) :
    Uniform (fun T => cs.mapM (f T)) fun bs =>
      ∃ as, List.Forall₂ Q cs as ∧ bs = fun T => as.map fun a => a T := by
  induction cs with
  | nil => exact pure ⟨[], .nil, rfl⟩
  | cons c cs ih =>
    obtain ⟨hc, hcs⟩ := List.forall_mem_cons.1 h
    simp only [List.mapM_cons]
    refine hc.bind fun a ha => (ih hcs).bind ?_
    rintro _ ⟨as, has, rfl⟩
    exact pure ⟨a :: as, .cons ha has, rfl⟩

theorem weaken {Q' : (Templates → α) → Prop} (hx : Uniform x Q) (h : ∀ a, Q a → Q' a) :
    Uniform x Q' := by
  intro p
  rcases hx p with hfault | ⟨a, q, ha, hrun⟩
  · exact .inl hfault
  · exact .inr ⟨a, q, h a ha, hrun⟩

theorem of_paired {good : Templates → Outline → Prop} {visits : List Visit} {S : α → α → Prop}
    {P : α → Prop} (h : ∀ T, Paired (good T) (x default) (x T) visits S)
    (hgood : ∀ T o, good T o) (hS : ∀ a a', S a a' → a = a' ∧ P a) :
    Uniform x fun a => ∃ v, P v ∧ a = fun _ => v := by
  intro p
  have hrun := fun T => h T (fun o _ => hgood T o) p
  cases hfault : visits.findSome? Visit.fault? with
  | some e =>
    simp only [hfault] at hrun
    obtain ⟨q, hdefault, -⟩ := hrun default
    refine .inl ⟨e, q, fun T => ?_⟩
    obtain ⟨q', hdefault', hrun'⟩ := hrun T
    rw [hrun', ← hdefault', hdefault]
  | none =>
    simp only [hfault] at hrun
    obtain ⟨a, _, q, hdefault, -, ha⟩ := hrun default
    refine .inr ⟨fun _ => a, q, ⟨a, (hS _ _ ha).2, rfl⟩, fun T => ?_⟩
    obtain ⟨a', a'', q', hdefault', hrun', ha'⟩ := hrun T
    rw [hrun', ← (hS _ _ ha').1, ← hdefault', hdefault]

end Uniform

end Render

open Render (Uniform Fixed)

def Lists (os : List Outline) (code : Templates → String) : Prop :=
  ∃ ls, Listing os ls ∧ code = fun T => Line.text T ls

def Rules.ArmLists (o : Outline) (h : '\n' ∉ o.head.id.toList) (os : List Outline)
    (code : Templates → String) : Prop :=
  ∃ lead ls, Listing os ls ∧ code = fun T =>
    lead ++ line r"{" ++ Line.text T ((.put .after o h :: ls).map .deeper) ++ r"}"

inductive Emission.Lists (o : Outline) (h : '\n' ∉ o.head.id.toList)
    (inner : String → List Outline) : (Templates → Emission) → Prop
  | expression (f : Fragment) : o.head.type ∉ loopTypes → o.head.type ∉ conditionalTypes →
    Lists o h inner fun _ => .expression f
  | statement {code : String} : o.head.type ∉ loopTypes → o.head.type ∉ conditionalTypes →
    IsTerminated code → Lists o h inner fun _ => .statement code
  | loop (header : List Row) {ls : List Line} : o.head.type ∈ loopTypes →
    Listing (inner "DO") ls → Lists o h inner fun T =>
      .statement (Line.text T (header.map .own ++ bodyListing o h ls ++ [.close]))
  | conditional {arms : List Arm} : o.head.type ∈ conditionalTypes → arms.length = o.arms + 1 →
    (∀ arm ∈ arms, Listing arm.performed arm.lines) →
    arms.flatMap Arm.performed =
      (List.range o.arms).flatMap (fun n => inner ("DO" ++ toString n)) ++ inner "ELSE" →
    Lists o h inner fun T =>
      .instrumented (Line.text T (.put .before o h :: arms.flatMap (Arm.listing o h) ++ [.close]))

structure Site.Uniform (o : Outline) (inner : String → List Outline) (s : Templates → Site) :
    Prop where
  head (T : Templates) : (s T).head = o.head
  before (T : Templates) : (s T).options.before = some (T.text .before)
  after (T : Templates) : (s T).options.after = some (T.text .after)
  trap (T : Templates) : (s T).options.trap = some (T.text .trap)
  armCount (T : Templates) : Rules.armCount (s T) = o.arms
  value? (input : String) (least : Level) :
    Render.Uniform (fun T => (s T).value? input least) Fixed
  statementsOf (input : String) : o.Reads (.statements input) →
    Render.Uniform (fun T => (s T).statementsOf input) (BlockCode.Lists (inner input))

section

variable {o : Outline} {inner : String → List Outline} {s : Templates → Site}
  (h : '\n' ∉ o.head.id.toList) (hs : Site.Uniform o inner s)

namespace Site.Uniform

include hs

theorem valueOr (input : String) (least : Level) (default : String) :
    Render.Uniform (fun T => (s T).valueOr input least default) Fixed :=
  (hs.value? input least).read fun _ => .pure ⟨_, rfl⟩

theorem fieldText? (T : Templates) (field : String) :
    (s T).fieldText? field = o.head.fieldText? field := by
  rw [Site.fieldText?, hs.head]

theorem variableName (field : String) :
    Render.Uniform (fun T => (s T).variableName field) Fixed := by
  simp only [Site.variableName, hs.fieldText?]
  exact .same _

theorem branch {input : String} (hreads : o.Reads (.statements input)) :
    Render.Uniform (fun T => (s T).branch input) fun code =>
      ∃ ls, Listing (inner input) ls ∧ code = fun T => Line.text T (ls.map .deeper) := by
  refine (hs.statementsOf input hreads).bind ?_
  rintro _ ⟨ls, hls, rfl⟩
  exact .pure ⟨ls, hls, funext fun T => Line.indent_text T ls⟩

theorem trapped (T : Templates) (ls : List Line) :
    (s T).trapped (Line.text T (ls.map .deeper)) = Line.text T (bodyListing o h ls) := by
  rw [trapped_eq (hs.head T), hs.before, hs.after, hs.trap, ← Line.text_put T .before o h,
    ← Line.text_put T .after o h, ← Line.text_put T .trap o h, Line.indent_text, Line.indent_text,
    Line.indent_text, bodyListing, ← Line.text_append, ← Line.text_append, ← Line.text_append]
  simp

theorem loopBranch (htype : o.head.type ∈ loopTypes) :
    Render.Uniform (fun T => (s T).loopBranch "DO") fun code =>
      ∃ ls, Listing (inner "DO") ls ∧ code = fun T => Line.text T (bodyListing o h ls) := by
  refine (hs.branch (.body htype)).asLoopBody.bind ?_
  rintro _ ⟨ls, hls, rfl⟩
  exact .pure ⟨ls, hls, funext fun T => hs.trapped h T ls⟩

theorem wrap (T : Templates) (ls : List Line) :
    (s T).wrap (Line.text T ls) =
      Line.text T (.put .before o h :: ls ++ [.put .after o h]) := by
  rw [wrap_eq (hs.head T), hs.before, hs.after, ← Line.text_put T .before o h,
    ← Line.text_put T .after o h, ← Line.text_append, ← Line.text_append]
  rfl

end Site.Uniform

namespace Rules

include hs

section

variable (hloop : o.head.type ∉ loopTypes) (hconditional : o.head.type ∉ conditionalTypes)
include hloop hconditional

theorem uniform_assignment : Uniform (fun T => assignment (s T)) (Emission.Lists o h inner) :=
  (hs.valueOr _ _ _).read fun _ => (hs.variableName _).read fun _ =>
    .pure (.statement hloop hconditional (.prepend (by decide) _))

theorem uniform_increment : Uniform (fun T => increment (s T)) (Emission.Lists o h inner) :=
  (hs.valueOr _ _ _).read fun _ => (hs.variableName _).read fun _ =>
    .pure (.statement hloop hconditional (.prepend (by decide) _))

theorem uniform_print : Uniform (fun T => print (s T)) (Emission.Lists o h inner) := by
  refine (hs.value? _ _).read fun message => ?_
  cases message with
  | none => exact .pure (.statement hloop hconditional (by decide))
  | some message => exact .pure (.statement hloop hconditional (.prepend (by decide) _))

theorem uniform_jump : Uniform (fun T => jump (s T)) (Emission.Lists o h inner) := by
  have hcode : ∀ keyword, Uniform (fun _ => do
      if ← Render.inLoop then return Emission.statement (keyword ++ ";\n")
      else return .statement ("// " ++ keyword ++ " outside of a loop\n"))
      (Emission.Lists o h inner) := by
    intro keyword
    refine (Uniform.same Render.inLoop).read fun inside => ?_
    cases inside <;> exact .pure (.statement hloop hconditional (.prepend (by decide) _))
  simp only [jump, hs.fieldText?, hs.head]
  split
  · exact (Uniform.pure ⟨_, rfl⟩).read hcode
  · exact (Uniform.pure ⟨_, rfl⟩).read hcode
  · exact (Uniform.throw (Q := Fixed) _).read hcode

end

omit hs in
theorem lists_loop (htype : o.head.type ∈ loopTypes) {header : String}
    (hheader : IsTerminated header) {ls : List Line} (hls : Listing (inner "DO") ls)
    {e : Templates → Emission}
    (he : ∀ T, e T = .statement (header ++ Line.text T (bodyListing o h ls) ++ line r"}")) :
    Emission.Lists o h inner e := by
  obtain ⟨rows, hrows⟩ := Line.exists_rows (.inr hheader)
  have heq : e = fun T =>
      .statement (Line.text T (rows.map .own ++ bodyListing o h ls ++ [.close])) := by
    funext T
    rw [he, Line.text_append, Line.text_append, hrows]
    rfl
  rw [heq]
  exact .loop rows htype hls

omit hs in
theorem append_forLoop (lines name range body : String) :
    lines ++ forLoop name range body =
      lines ++ line ("for " ++ name ++ " in " ++ range ++ r" {") ++ body ++ line r"}" := by
  simp only [forLoop, String.append_assoc]

omit hs in
theorem Counter.uniform_loop (k : Counter) (body : Templates → String) :
    Uniform (fun T => loop { k with body := body T }) fun code =>
      ∃ header, IsTerminated header ∧ code = fun T => header ++ body T ++ line r"}" := by
  unfold loop
  dsimp only
  split
  · dsimp only [fixed, forLoop]
    exact .pure ⟨_, .prepend (by decide) _, rfl⟩
  · dsimp only [chosen]
    refine (Uniform.same _).read fun first => (Uniform.same _).read fun last =>
      (Uniform.same _).read fun stride => (Uniform.same _).read fun range => .pure ?_
    refine ⟨_, ?_, funext fun T => append_forLoop _ k.name range (body T)⟩
    exact .prepend (.prepend (by decide) _) _

theorem uniform_repeatCount : Uniform (fun T => repeatCount (s T)) Fixed := by
  simp only [repeatCount, hs.head]
  split
  · exact .same _
  · refine (hs.valueOr _ _ _).read fun code => ?_
    split <;> exact .same _

theorem uniform_repetition (htype : o.head.type ∈ loopTypes) :
    Uniform (fun T => repetition (s T)) (Emission.Lists o h inner) := by
  refine (uniform_repeatCount hs).read fun times => (Uniform.same _).read fun name =>
    (Uniform.same _).read fun bound => (hs.loopBranch h htype).bind ?_
  rintro _ ⟨ls, hls, rfl⟩
  exact .pure (lists_loop h htype (.prepend (.prepend (by decide) _) _) hls fun T =>
    congrArg _ (append_forLoop _ _ _ _))

theorem uniform_whileLoop (htype : o.head.type ∈ loopTypes) :
    Uniform (fun T => whileLoop (s T)) (Emission.Lists o h inner) := by
  simp only [whileLoop, hs.fieldText?]
  refine (hs.value? _ _).read fun condition => (hs.loopBranch h htype).bind ?_
  rintro _ ⟨ls, hls, rfl⟩
  exact .pure (lists_loop h htype (.prepend (by decide) _) hls fun T => rfl)

theorem uniform_counter (htype : o.head.type ∈ loopTypes) :
    Uniform (fun T => counter (s T)) fun k => ∃ (j : Counter) (ls : List Line),
      Listing (inner "DO") ls ∧
        k = fun T => { j with body := Line.text T (bodyListing o h ls) } := by
  refine (hs.variableName _).read fun name => (hs.valueOr _ _ _).read fun start =>
    (hs.valueOr _ _ _).read fun stop => (hs.valueOr _ _ _).read fun step =>
      (hs.loopBranch h htype).bind ?_
  rintro _ ⟨ls, hls, rfl⟩
  exact .pure ⟨⟨name, start, stop, dropMinus step, ""⟩, ls, hls, rfl⟩

theorem uniform_countingLoop (htype : o.head.type ∈ loopTypes) :
    Uniform (fun T => countingLoop (s T)) (Emission.Lists o h inner) := by
  refine (uniform_counter h hs htype).bind ?_
  rintro _ ⟨j, ls, hls, rfl⟩
  refine (j.uniform_loop _).bind ?_
  rintro _ ⟨header, hheader, rfl⟩
  exact .pure (lists_loop h htype hheader hls fun T => rfl)

theorem braced_text (lead : String) (T : Templates) (ls : List Line) :
    lead ++ braced (s T) (Line.text T (ls.map .deeper)) =
      lead ++ line r"{" ++ Line.text T ((.put .after o h :: ls).map .deeper) ++ r"}" := by
  rw [append_braced (hs.head T), hs.after, ← Line.text_put T .after o h, Line.indent_text,
    ← Line.text_append]
  rfl

theorem uniform_arm (htype : o.head.type ∈ conditionalTypes) {n : Nat} (hn : n < o.arms) :
    Uniform (fun T => arm (s T) n) (ArmLists o h (inner ("DO" ++ toString n))) := by
  have hreads : o.Reads (.statements ("DO" ++ toString n)) :=
    .branch n htype ((o.lt_arms_iff n).1 hn)
  refine (hs.valueOr _ _ _).read fun condition => (hs.branch hreads).bind ?_
  rintro _ ⟨ls, hls, rfl⟩
  exact .pure ⟨_, ls, hls, funext fun T => braced_text h hs _ T ls⟩

theorem uniform_alternative (htype : o.head.type ∈ conditionalTypes) :
    Uniform (fun T => alternative (s T)) fun last =>
      ∃ code, ArmLists o h (inner "ELSE") code ∧ last = fun T => [code T] := by
  have hafter : ∀ T, ((s T).declares "ELSE" || (s T).after?.isSome) = true := fun T => by
    simp [Site.after?, hs.after]
  simp only [alternative, hafter, if_true]
  refine (hs.branch (.alternative htype)).bind ?_
  rintro _ ⟨ls, hls, rfl⟩
  refine .pure ⟨_, ⟨"", ls, hls, funext fun T => ?_⟩, rfl⟩
  rw [← braced_text h hs, String.empty_append]

omit hs in
theorem exists_listing (lead : String) (os : List Outline) (ls : List Line) :
    ∃ rows, ∀ T, Line.text T (Arm.listing o h ⟨rows, os, ls⟩) =
      lead ++ line r"{" ++ Line.text T ((.put .after o h :: ls).map .deeper) := by
  have hheader : IsTerminated (lead ++ line r"{") := .prepend (by decide) _
  obtain ⟨rows, hrows⟩ := Line.exists_rows (.inr hheader)
  exact ⟨rows, fun T => by rw [Arm.listing, Line.text_append, hrows]⟩

omit hs in
theorem exists_armsAfter {oss : List (List Outline)} {codes : List (Templates → String)}
    (harms : List.Forall₂ (ArmLists o h) oss codes) :
    ∃ arms : List Arm, arms.map Arm.performed = oss ∧
      (∀ arm ∈ arms, Listing arm.performed arm.lines) ∧
      ∀ T, armsAfter (codes.map fun code => code T) =
        Line.text T (arms.flatMap (Arm.listing o h) ++ [.close]) := by
  induction harms with
  | nil => exact ⟨[], rfl, by simp, fun _ => rfl⟩
  | @cons os code oss codes harm _ ih =>
    obtain ⟨lead, ls, hls, rfl⟩ := harm
    obtain ⟨arms, rfl, hlistings, hcode⟩ := ih
    obtain ⟨rows, hrows⟩ := exists_listing h (r"} else " ++ lead) os ls
    refine ⟨⟨rows, os, ls⟩ :: arms, rfl, List.forall_mem_cons.2 ⟨hls, hlistings⟩, fun T => ?_⟩
    rw [List.map_cons, armsAfter_cons, hcode, List.flatMap_cons, List.append_assoc,
      Line.text_append _ (Arm.listing o h _), hrows]

omit hs in
theorem exists_arms {oss : List (List Outline)} {codes : List (Templates → String)}
    (hne : oss ≠ []) (harms : List.Forall₂ (ArmLists o h) oss codes) :
    ∃ arms : List Arm, arms.map Arm.performed = oss ∧
      (∀ arm ∈ arms, Listing arm.performed arm.lines) ∧
      ∀ T, " else ".intercalate (codes.map fun code => code T) ++ "\n" =
        Line.text T (arms.flatMap (Arm.listing o h) ++ [.close]) := by
  cases harms with
  | nil => exact absurd rfl hne
  | @cons os code oss codes harm harms =>
    obtain ⟨lead, ls, hls, rfl⟩ := harm
    obtain ⟨arms, rfl, hlistings, hcode⟩ := exists_armsAfter h harms
    obtain ⟨rows, hrows⟩ := exists_listing h lead os ls
    refine ⟨⟨rows, os, ls⟩ :: arms, rfl, List.forall_mem_cons.2 ⟨hls, hlistings⟩, fun T => ?_⟩
    rw [List.map_cons, intercalate_arms, hcode, List.flatMap_cons, List.append_assoc,
      Line.text_append _ (Arm.listing o h _), hrows]

theorem uniform_conditional (htype : o.head.type ∈ conditionalTypes) :
    Uniform (fun T => conditional (s T)) (Emission.Lists o h inner) := by
  simp only [conditional, hs.armCount]
  refine (Uniform.mapM fun n hn => uniform_arm h hs htype (List.mem_range.1 hn)).bind ?_
  rintro _ ⟨codes, hcodes, rfl⟩
  refine (uniform_alternative h hs htype).bind ?_
  rintro _ ⟨last, hlast, rfl⟩
  have hall : List.Forall₂ (ArmLists o h)
      ((List.range o.arms).map (fun n => inner ("DO" ++ toString n)) ++ [inner "ELSE"])
      (codes ++ [last]) :=
    List.rel_append (List.forall₂_map_left_iff.2 hcodes) (.cons hlast .nil)
  obtain ⟨arms, hperformed, hlistings, hcode⟩ := exists_arms h (by simp) hall
  have hlength : arms.length = o.arms + 1 := by
    simpa using congrArg List.length hperformed
  have hinner : arms.flatMap Arm.performed =
      (List.range o.arms).flatMap (fun n => inner ("DO" ++ toString n)) ++ inner "ELSE" := by
    rw [List.flatMap_def, hperformed, List.flatten_append, List.flatten_singleton, List.flatMap_def]
  have hlists := Emission.Lists.conditional (h := h) htype hlength hlistings hinner
  have heq : (fun T => Emission.instrumented ((s T).before?.getD "" ++
      " else ".intercalate (codes.map (fun code => code T) ++ [last T]) ++ "\n")) = fun T =>
      .instrumented
        (Line.text T (.put .before o h :: arms.flatMap (Arm.listing o h) ++ [.close])) := by
    funext T
    have hcode := hcode T
    rw [List.map_append, List.map_singleton] at hcode
    rw [Site.before?, Site.inserted_eq (hs.head T), hs.before, ← Line.text_put T .before o h,
      String.append_assoc, hcode, ← Line.text_append]
    rfl
  rw [← heq] at hlists
  exact .pure hlists

end Rules

theorem Reading.flatMap_values (inner : String → List Outline) (inputs : List String) :
    (inputs.map Reading.value).flatMap (Reading.performed inner) = [] := by
  rw [List.flatMap_map]
  exact List.flatMap_eq_nil_iff.2 fun _ _ => rfl

theorem Outline.flatMap_readings_plain (inner : String → List Outline)
    (hloop : o.head.type ∉ loopTypes) (hconditional : o.head.type ∉ conditionalTypes) :
    o.readings.flatMap (Reading.performed inner) = [] := by
  rw [readings, if_neg hconditional, if_neg hloop, List.append_nil, Reading.flatMap_values]

theorem Outline.flatMap_readings_loop (inner : String → List Outline)
    (hloop : o.head.type ∈ loopTypes) :
    o.readings.flatMap (Reading.performed inner) = inner "DO" := by
  rw [readings, if_neg (not_mem_conditionalTypes _ hloop), if_pos hloop, List.flatMap_append,
    Reading.flatMap_values, List.nil_append, List.flatMap_singleton, Reading.performed]

theorem Outline.flatMap_readings_conditional (inner : String → List Outline)
    (hconditional : o.head.type ∈ conditionalTypes) :
    o.readings.flatMap (Reading.performed inner) =
      (List.range o.arms).flatMap (fun n => inner ("DO" ++ toString n)) ++ inner "ELSE" := by
  rw [readings, if_pos hconditional, List.flatMap_append, List.flatMap_assoc,
    List.flatMap_singleton]
  simp [Reading.performed]

include hs

theorem Rulebook.uniform_statement (hkind : o.isStatement = true) {rule : Rule}
    (hrule : builtinRules.lookup o.head.type = some rule) :
    Uniform (fun T => rule (s T)) (Emission.Lists o h inner) := by
  have hof : ∀ {type : String} {rule' : Rule}, o.head.type = type →
      builtinRules.lookup type = some rule' →
      Uniform (fun T => rule' (s T)) (Emission.Lists o h inner) →
      Uniform (fun T => rule (s T)) (Emission.Lists o h inner) := by
    rintro type rule' rfl hrule' hlists
    cases hrule.symm.trans hrule'
    exact hlists
  have hmem : o.head.type ∈ statementTypes := by simpa [Outline.isStatement] using hkind
  simp only [statementTypes, conditionalTypes, loopTypes, repeatTypes, List.cons_append,
    List.nil_append, List.mem_cons, List.not_mem_nil, or_false] at hmem
  rcases hmem with ht | ht | ht | ht | ht | ht | ht | ht | ht | ht
  · exact hof ht rfl (Rules.uniform_conditional h hs (ht ▸ by decide))
  · exact hof ht rfl (Rules.uniform_conditional h hs (ht ▸ by decide))
  · exact hof ht rfl (Rules.uniform_repetition h hs (ht ▸ by decide))
  · exact hof ht rfl (Rules.uniform_repetition h hs (ht ▸ by decide))
  · exact hof ht rfl (Rules.uniform_whileLoop h hs (ht ▸ by decide))
  · exact hof ht rfl (Rules.uniform_countingLoop h hs (ht ▸ by decide))
  · exact hof ht rfl (Rules.uniform_jump h hs (ht ▸ by decide) (ht ▸ by decide))
  · exact hof ht rfl (Rules.uniform_increment h hs (ht ▸ by decide) (ht ▸ by decide))
  · exact hof ht rfl (Rules.uniform_print h hs (ht ▸ by decide) (ht ▸ by decide))
  · exact hof ht rfl (Rules.uniform_assignment h hs (ht ▸ by decide) (ht ▸ by decide))

include h

theorem Site.Uniform.lists_wrap {code : String} (hloop : o.head.type ∉ loopTypes)
    (hconditional : o.head.type ∉ conditionalTypes) (hcode : IsTerminated code) :
    Lists (o :: o.readings.flatMap (Reading.performed inner)) fun T => (s T).wrap code := by
  obtain ⟨rows, hrows⟩ := Line.exists_rows (.inr hcode)
  rw [Outline.flatMap_readings_plain inner hloop hconditional]
  refine ⟨_, .plain h rows hloop hconditional .nil, funext fun T => ?_⟩
  rw [← hrows T, hs.wrap h]

theorem Emission.Lists.asStatement {e : Templates → Emission} (he : Emission.Lists o h inner e) :
    Render.Uniform (fun T => (match e T with
      | .statement code => return .statement ((s T).wrap code)
      | .instrumented code => return .statement code
      | .expression f => return .expression f : Render BlockText)) fun text =>
      BlockCode.Lists (o :: o.readings.flatMap (Reading.performed inner))
        fun T => (s T).asStatement (text T) := by
  cases he with
  | expression f hloop hconditional =>
    exact .pure (hs.lists_wrap h hloop hconditional (.prepend (by decide) _))
  | statement hloop hconditional hcode => exact .pure (hs.lists_wrap h hloop hconditional hcode)
  | loop header htype hls =>
    have hlisting := Listing.loop h header htype hls .nil
    rw [Outline.flatMap_readings_loop inner htype]
    rw [List.append_nil] at hlisting
    exact .pure ⟨_, hlisting, funext fun T => (hs.wrap h T _).trans (by simp)⟩
  | conditional htype hlength hlistings hinner =>
    have hlisting := Listing.conditional h htype hlength hlistings .nil
    rw [Outline.flatMap_readings_conditional inner htype, ← hinner]
    rw [List.append_nil] at hlisting
    exact .pure ⟨_, hlisting, rfl⟩

theorem Setup.uniform_asStatement {c : Setup} (hc : c.book = .builtin)
    {good : Templates → Outline → Prop} (hgood : ∀ T o, good T o)
    {visits : Reading → List Visit}
    (hpaired : ∀ T, Site.Paired (fun _ _ => True) (good T) o visits (s default) (s T)) :
    Uniform (fun T => (s T).asStatement <$> (c.filled T).emit (s T))
      (Lists (o :: o.readings.flatMap (Reading.performed inner))) := by
  have hemit : Uniform (fun T => (c.filled T).emit (s T)) fun text =>
      Lists (o :: o.readings.flatMap (Reading.performed inner))
        fun T => (s T).asStatement (text T) := by
    cases hkind : o.isStatement with
    | false =>
      have hfits : ∀ T, o.Fits (fun _ _ => True) (s default).options (s T).options := fun T =>
        ⟨trivial, trivial, trivial, fun _ => .inr (by rw [hs.after, hs.after]; rfl)⟩
      have hpair : ∀ T, Render.Paired (good T) ((c.filled default).emit (s default))
          ((c.filled T).emit (s T)) (.enter o :: o.readings.flatMap visits)
          (BlockText.Alike (fun _ _ => True) false) := fun T => by
        rw [← hkind]
        exact paired_emit layered_true (hpaired T) hc hc fun _ => hfits T
      have hkind' : ∀ text text', BlockText.Alike (fun _ _ => True) false text text' →
          text = text' ∧ ∃ f, text = .expression f := by
        intro text text' halike
        cases halike with
        | expression f => exact ⟨rfl, f, rfl⟩
      refine (Uniform.of_paired hpair hgood hkind').weaken ?_
      rintro _ ⟨_, ⟨f, rfl⟩, rfl⟩
      have hmem : o.head.type ∉ statementTypes := by simpa [Outline.isStatement] using hkind
      simp only [statementTypes, List.mem_append, not_or] at hmem
      exact hs.lists_wrap h hmem.1.2 hmem.1.1 (.prepend (by decide) _)
    | true =>
      simp only [emit, filled, hc, hs.head, Rulebook.builtin_rule?]
      cases hrule : Rulebook.builtinRules.lookup o.head.type with
      | none => exact .throw _
      | some rule =>
        exact (Uniform.same _).read fun _ =>
          (Rulebook.uniform_statement h hs hkind hrule).bind fun e he => he.asStatement h hs
  simp only [map_eq_pure_bind]
  exact hemit.bind fun text htext => .pure htext

end

namespace Tree

variable {c : Setup}

theorem fits_filled (c : Setup) (T T' : Templates) (o : Outline) :
    o.Fits (fun _ _ => True) (c.filled T).options (c.filled T').options :=
  ⟨trivial, trivial, trivial, fun _ => .inr rfl⟩

section

variable {head : Head} {values statements : List (String × Option Tree)}

theorem paired_filled (head : Head) (hc : c.book = .builtin) (hvalues : areWhole values = true)
    (hstatements : areWhole statements = true) (T : Templates) :
    Site.Paired (fun _ _ => True)
      (fun o => o.Fits (fun _ _ => True) (c.filled default).options (c.filled T).options)
      (outline head values statements) (visitsAt values statements)
      (siteOf (c.filled default) head values statements)
      (siteOf (c.filled T) head values statements) := by
  have hbook : ∀ T, (c.filled T).book = .builtin := fun _ => hc
  exact paired_site layered_true
    (fun _ t ht => t.paired layered_true (hbook _) (hbook _) (isWhole_of_mem hvalues ht))
    fun _ t ht => t.paired layered_true (hbook _) (hbook _) (isWhole_of_mem hstatements ht)

theorem uniform_site (hc : c.book = .builtin) (hvalues : areWhole values = true)
    (hstatements : areWhole statements = true)
    (hchains : ∀ input t, at? statements input = some t →
      (outline head values statements).Reads (.statements input) →
      Uniform (fun T => t.chain (c.filled T)) (Lists t.performed)) :
    Site.Uniform (outline head values statements) (performedAt statements)
      fun T => siteOf (c.filled T) head values statements where
  head _ := rfl
  before _ := rfl
  after _ := rfl
  trap _ := rfl
  armCount T := (Rules.armCount_eq_arms (paired_filled head hc hvalues hstatements T)).2
  value? input least := by
    have hpaired := fun T => (paired_filled head hc hvalues hstatements T).value? input least
    refine (Uniform.of_paired hpaired (fits_filled c default) (P := fun _ => True) ?_).weaken ?_
    · exact fun _ _ h => ⟨h, trivial⟩
    · rintro _ ⟨v, -, rfl⟩
      exact ⟨v, rfl⟩
  statementsOf input hreads := by
    simp only [Site.statementsOf, join_lookup_chains]
    rw [performedAt]
    cases hat : at? statements input with
    | none => exact .pure ⟨[], .nil, rfl⟩
    | some t => exact hchains input t hat hreads

end

theorem uniform_chain (hc : c.book = .builtin) (t : Tree) (hwhole : t.isWhole = true)
    (hids : ∀ o ∈ t.performed, '\n' ∉ o.head.id.toList) :
    Uniform (fun T => t.chain (c.filled T)) (Lists t.performed) := by
  induction t using induct with
  | missing | endless => cases hwhole
  | block head values statements next _ ihstatements ihnext =>
    simp only [isWhole, Bool.and_eq_true] at hwhole
    rw [performed_block, List.forall_mem_append] at hids
    have hnext : ∀ {os code}, Lists os code →
        Uniform (fun T => chainAfter (c.filled T) next (code T))
          (Lists (os ++ (next.map performed).getD [])) := by
      rintro os _ ⟨ls, hls, rfl⟩
      cases next with
      | none => exact .pure ⟨ls, by simpa using hls, rfl⟩
      | some t =>
        refine (ihnext t rfl hwhole.2 hids.2).bind ?_
        rintro _ ⟨ls', hls', rfl⟩
        exact .pure ⟨ls ++ ls', hls.append hls', funext fun T => (Line.text_append T ls ls').symm⟩
    simp only [chain_block]
    rw [performed_block]
    by_cases hd : head.disabled = true
    · simp only [hd, if_true]
      exact hnext ⟨[], .nil, rfl⟩
    · simp only [hd, if_false, Bool.false_eq_true, List.forall_mem_cons] at hids ⊢
      have hchains : ∀ input t, at? statements input = some t →
          (outline head values statements).Reads (.statements input) →
          Uniform (fun T => t.chain (c.filled T)) (Lists t.performed) := by
        intro input t hat hreads
        have hmem := mem_of_at? hat
        refine ihstatements input t hmem (isWhole_of_mem hwhole.1.2 hmem) fun o ho => ?_
        refine hids.1.2 o (List.mem_flatMap.2 ⟨_, Outline.mem_readings.2 hreads, ?_⟩)
        rwa [Reading.performed, performedAt, hat]
      have hsite := uniform_site hc hwhole.1.1 hwhole.1.2 hchains
      have hstatement := Setup.uniform_asStatement hids.1.1 hsite hc (fits_filled c default)
        (paired_filled head hc hwhole.1.1 hwhole.1.2)
      simp only [← bind_map_left]
      exact hstatement.bind fun code hcode => hnext hcode

end Tree

theorem Lists.join {oss : List (List Outline)} {codes : List (Templates → String)}
    (h : List.Forall₂ Lists oss codes) :
    Lists oss.flatten fun T => String.join (codes.map fun code => code T) := by
  induction h with
  | nil => exact ⟨[], .nil, rfl⟩
  | cons hcode _ ih =>
    obtain ⟨ls, hls, rfl⟩ := hcode
    obtain ⟨rest, hrest, heq⟩ := ih
    refine ⟨ls ++ rest, hls.append hrest, funext fun T => ?_⟩
    rw [List.map_cons, String.join_cons, congrFun heq T, Line.text_append]

theorem exists_front (definitions : List (String × String)) (ls : List Line) :
    ∃ front : List Row, ∀ T,
      assemble definitions (Line.text T ls) = Line.text T (front.map .own ++ ls) := by
  have hhead := join_definitions definitions
  unfold assemble
  dsimp only
  generalize String.join (definitions.map fun d => terminate d.2) = head at hhead
  by_cases hempty : head = ""
  · exact ⟨[], fun T => by simp [hempty]⟩
  · cases ls with
    | nil =>
      obtain ⟨front, hfront⟩ := Line.exists_rows hhead
      refine ⟨front, fun T => ?_⟩
      have hbody : (Line.text T []).isEmpty = true := rfl
      rw [List.append_nil, hfront, hbody]
      simp [hempty]
    | cons l ls =>
      have hline : IsTerminated (head ++ "\n") := .prepend (by decide) head
      obtain ⟨front, hfront⟩ := Line.exists_rows (.inr hline)
      refine ⟨front, fun T => ?_⟩
      have hbody : Line.text T (l :: ls) ≠ "" := fun h => nomatch (Line.text_eq_empty T).1 h
      rw [Line.text_append, hfront]
      simp [hempty, hbody]

namespace Setup

variable {c : Setup} {w : Workspace}

theorem exists_listing (hc : c.book = .builtin) (hw : w.Acyclic)
    (hids : ∀ b ∈ w.blocks, '\n' ∉ b.id.toList) {T : Templates} {code : String}
    (hcode : (c.filled T).generate w = .ok code) :
    ∃ (front : List Row) (ls : List Line), Listing w.performed ls ∧
      ∀ T, (c.filled T).generate w = .ok (Line.text T (front.map .own ++ ls)) := by
  obtain ⟨ids, hreferenced⟩ := referencedVariables_ok hw.isWhole_rootTrees
  have hbook : ∀ T, (c.filled T).book = .builtin := fun _ => hc
  obtain ⟨own, used, p, hopened, -, -⟩ := run_opened (hbook default) hreferenced
  have hopened : ∀ T, ((c.filled T).opened w).run ((c.filled T).start w) = (.ok true, p) :=
    fun T => (run_opened_congr (hbook default) (hbook T) rfl rfl).trans hopened
  have hchains : ∀ t ∈ w.rootTrees,
      Uniform (fun T => t.chain (c.filled T)) (Lists t.performed) := by
    refine fun t ht => t.uniform_chain hc (hw.isWhole_rootTrees t ht) fun o ho => ?_
    obtain ⟨b, hb, rfl⟩ := Workspace.exists_of_performed (List.mem_flatMap.2 ⟨t, ht, ho⟩)
    exact hids b hb
  rcases Uniform.mapM hchains p with ⟨e, q, hrun⟩ | ⟨_, q, ⟨codes, hcodes, rfl⟩, hrun⟩
  · obtain ⟨events, hprogram⟩ := run_program (hopened T) (hrun T)
    have hfault : (c.filled T).generate w = .error e := congrArg Prod.fst hprogram
    cases hfault.symm.trans hcode
  · obtain ⟨ls, hls, hjoin⟩ := Lists.join (List.forall₂_map_left_iff.2 hcodes)
    obtain ⟨front, hfront⟩ := exists_front q.definitions ls
    refine ⟨front, ls, by rwa [Workspace.performed, List.flatMap_def], fun T => ?_⟩
    obtain ⟨events, hprogram⟩ := run_program (hopened T) (hrun T)
    refine (congrArg Prod.fst hprogram).trans (congrArg Except.ok ?_)
    rw [← hfront, ← congrFun hjoin T]

/--
Every place has its code exactly once. The marker of a place is in the lines for it, if it is not in
the code that is made with nothing in its template.
-/
theorem countLines_generate (hc : c.book = .builtin) (hw : w.Acyclic)
    (hids : ∀ b ∈ w.blocks, '\n' ∉ b.id.toList) {T : Templates} {marker : Mark → String}
    (hmarks : ∀ mark, Marks (marker mark).toList (T.text mark).toList) {code : String}
    (hcode : (c.filled T).generate w = .ok code)
    (hfresh : ∀ mark other, (c.filled (T.blank mark)).generate w = .ok other →
      ¬ (marker mark).toList <:+: other.toList) :
    countLines (marker .before) code =
      w.performed.length + w.performed.countP Outline.isLoop ∧
    countLines (marker .trap) code = w.performed.countP Outline.isLoop ∧
    countLines (marker .after) code =
      w.performed.length - w.performed.countP Outline.isConditional +
        w.performed.countP Outline.isLoop +
        ((w.performed.filter Outline.isConditional).map (·.arms + 1)).sum ∧
    ∃ (front : List Row) (ls : List Line), code = Line.text T (front.map .own ++ ls) ∧
      Listing w.performed ls ∧ ∀ mark, ∀ l ∈ front.map .own ++ ls,
        ((marker mark).toList <:+: l.chars T ↔ l.isPut mark = true) := by
  obtain ⟨front, ls, hls, hgenerate⟩ := exists_listing hc hw hids hcode
  obtain rfl : Line.text T (front.map .own ++ ls) = code := by
    cases (hgenerate T).symm.trans hcode
    rfl
  have hfresh := fun mark => hfresh mark _ (hgenerate (T.blank mark))
  have hcount : ∀ mark, countLines (marker mark) (Line.text T (front.map .own ++ ls)) =
      (w.performed.map (·.puts mark)).sum := fun mark => by
    rw [Line.countLines_text (hmarks mark) (hfresh mark), List.countP_append, Line.countP_own,
      Nat.zero_add, hls.countP_isPut]
  refine ⟨?_, ?_, ?_, front, ls, rfl, hls, fun mark l hl => ?_⟩
  · rw [hcount, Outline.sum_puts_before]
  · rw [hcount, Outline.sum_puts_trap]
  · rw [hcount, Outline.sum_puts_after]
  · exact Line.infix_chars_iff (hmarks mark) (hfresh mark) hl

theorem countLines_generate_nested :
    let w : Workspace := {
      blocks := #[
        { id := "choose", type := "controls_if" },
        { id := "round", type := "controls_whileUntil", statements := ⟨[("DO", some 0)]⟩ }],
      roots := [1] }
    let c : Setup := {}
    let text : Mark → String
      | .before => "@b;"
      | .after => "@a;"
      | .trap => "%1 @t"
    let marker : Mark → String
      | .before => "@b"
      | .after => "@a"
      | .trap => "@t"
    let T : Templates := ⟨text, fun mark => by cases mark <;> decide⟩
    let code := r#"@b;
loop {
  @a;
  "round" @t
  @b;
  if false {
    @a;
  } else {
    @a;
  }
  @b;
}
@a;
"#
    w.Acyclic ∧ (∀ mark, Marks (marker mark).toList (T.text mark).toList) ∧
      (c.filled T).generate w = .ok code ∧ countLines (marker .before) code = 2 + 1 ∧
      countLines (marker .trap) code = 1 ∧
      countLines (marker .after) code = 2 - 1 + 1 + (1 + 1) := by
  intro w c text marker T code
  have hw : w.Acyclic := Workspace.acyclic_of_rank id (by decide) (by decide)
  have hmarks : ∀ mark, Marks (marker mark).toList (T.text mark).toList := by
    intro mark
    cases mark <;> decide
  have hcode : (c.filled T).generate w = .ok code := by decide +kernel
  have hblank : ∀ mark, ((c.filled (T.blank mark)).generate w).toOption.all
      (fun other => !decide ((marker mark).toList <:+: other.toList)) = true := by
    intro mark
    cases mark <;> decide +kernel
  have hfresh : ∀ mark other, (c.filled (T.blank mark)).generate w = .ok other →
      ¬ (marker mark).toList <:+: other.toList := by
    intro mark other hother
    simpa [hother, Except.toOption] using hblank mark
  have hlength : w.performed.length = 2 := by decide +kernel
  have hloops : w.performed.countP Outline.isLoop = 1 := by decide +kernel
  have hconditionals : w.performed.countP Outline.isConditional = 1 := by decide +kernel
  have harms : ((w.performed.filter Outline.isConditional).map (·.arms + 1)).sum = 1 + 1 := by
    decide +kernel
  obtain ⟨hbefore, htrap, hafter, -⟩ :=
    countLines_generate (c := c) rfl hw (by decide) hmarks hcode hfresh
  rw [hlength, hloops] at hbefore
  rw [hloops] at htrap
  rw [hlength, hloops, hconditionals, harms] at hafter
  exact ⟨hw, hmarks, hcode, hbefore, htrap, hafter⟩

end Setup

end BlockCode
