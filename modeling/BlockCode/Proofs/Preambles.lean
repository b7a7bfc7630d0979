import BlockCode.Proofs.Companions
import BlockCode.Render.Template

namespace BlockCode

namespace Preamble

theorem map_fst_putDefinition (key code : String) (ds : List (String × String)) :
    (putDefinition key code ds).map Prod.fst =
      ds.map Prod.fst ++ if key ∈ ds.map Prod.fst then [] else [key] := by
  induction ds with
  | nil => rfl
  | cons d ds ih =>
    rw [putDefinition, List.map_cons]
    by_cases hkey : d.1 = key
    · simp [hkey]
    · have hmem : key ∈ d.1 :: ds.map Prod.fst ↔ key ∈ ds.map Prod.fst := by
        rw [List.mem_cons, or_iff_right (Ne.symm hkey)]
      rw [if_neg hkey, List.map_cons, ih, List.cons_append, if_congr hmem rfl rfl]

theorem lookup_putDefinition (key code : String) (ds : List (String × String)) (k : String) :
    (putDefinition key code ds).lookup k = if k = key then some code else ds.lookup k := by
  induction ds with
  | nil => rw [putDefinition, ByName.lookup_cons_eq]
  | cons d ds ih =>
    rw [putDefinition]
    split
    · next hkey =>
      rw [ByName.lookup_cons_eq, ByName.lookup_cons_eq, hkey]
      split <;> rfl
    · next hkey =>
      rw [ByName.lookup_cons_eq, ByName.lookup_cons_eq, ih]
      by_cases hk : k = d.1
      · rw [if_pos hk, if_pos hk, if_neg (hk ▸ hkey)]
      · rw [if_neg hk, if_neg hk]

def insertAll (ds insertions : List (String × String)) : List (String × String) :=
  insertions.foldl (fun ds d => putDefinition d.1 d.2 ds) ds

theorem insertAll_append (ds before later : List (String × String)) :
    insertAll ds (before ++ later) = insertAll (insertAll ds before) later :=
  List.foldl_append

theorem insertAll_concat (ds before : List (String × String)) (d : String × String) :
    insertAll ds (before ++ [d]) = putDefinition d.1 d.2 (insertAll ds before) :=
  insertAll_append ds before [d]

theorem map_fst_insertAll (insertions : List (String × String)) :
    (insertAll [] insertions).map Prod.fst = (insertions.map Prod.fst).eraseDups := by
  induction insertions using List.reverseRecOn with
  | nil => rfl
  | append_singleton before d ih =>
    rw [insertAll_concat, map_fst_putDefinition, ih, List.map_append, List.map_singleton,
      List.eraseDups_append]
    -- The last insertion has a place of its own only if none before it has the key.
    by_cases hkey : d.1 ∈ before.map Prod.fst
    · simp [hkey, List.removeAll]
    · simp [hkey, List.removeAll, List.eraseDups_cons]

theorem lookup_insertAll (insertions : List (String × String)) (key : String) :
    (insertAll [] insertions).lookup key = insertions.reverse.lookup key := by
  induction insertions using List.reverseRecOn with
  | nil => rfl
  | append_singleton before d ih =>
    rw [insertAll_concat, lookup_putDefinition, ih, List.reverse_append, List.reverse_singleton,
      List.singleton_append, ByName.lookup_cons_eq]

inductive Call where
  | insert (key code : String)
  | ask (key : String) (answer : Bool)
  deriving DecidableEq, Repr

def Call.insertion? : Call → Option (String × String)
  | .insert key code => some (key, code)
  | .ask _ _ => none

def insertions (log : List Call) : List (String × String) := log.filterMap Call.insertion?

/-- Every answer is right for the definitions that are there when it is given. -/
def Answered (ds : List (String × String)) : List Call → Prop
  | [] => True
  | .insert key code :: log => Answered (putDefinition key code ds) log
  | .ask key answer :: log => answer = (ds.lookup key).isSome ∧ Answered ds log

theorem answered_append {ds : List (String × String)} {log log' : List Call} :
    Answered ds (log ++ log') ↔
      Answered ds log ∧ Answered (insertAll ds (insertions log)) log' := by
  induction log generalizing ds with
  | nil => exact (iff_of_eq (true_and _)).symm
  | cons call log ih =>
    cases call with
    | insert key code => exact ih
    | ask key answer =>
      rw [List.cons_append, Answered, ih, Answered, and_assoc]
      rfl

theorem Answered.ask_iff {before after : List Call} {key : String} {answer : Bool}
    (h : Answered [] (before ++ .ask key answer :: after)) :
    answer = true ↔ key ∈ (insertions before).map Prod.fst := by
  obtain ⟨-, hanswer, -⟩ := answered_append.1 h
  rw [hanswer, ByName.isSome_lookup, List.contains_iff_mem, map_fst_insertAll, List.mem_eraseDups]

end Preamble

namespace Render

open Preamble

theorem run_tryCatch {α : Type} (act : Render α) (handle : Fault → Render α) (p : Pass) :
    (tryCatch act handle : Render α).run p =
      match act.run p with
      | (.ok a, p') => (.ok a, p')
      | (.error e, p') => (handle e).run p' := by
  cases hrun : act.run p with
  | mk result q =>
    have hact : act p = (result, q) := hrun
    change ExceptT.tryCatch act handle p = _
    simp only [ExceptT.tryCatch, ExceptT.mk, bind, StateT.bind, hact]
    cases result <;> rfl

/--
The calls on the definitions that an action makes on a pass, in order and with the answers. An
action may do all that a rule can do: look at the pass, report, ask for names, and go on after
another action, also after one that fails.
-/
inductive Calls : {α : Type} → Render α → Pass → List Call → Prop
  | pure {α : Type} (a : α) (p : Pass) : Calls (pure a) p []
  | throw {α : Type} (e : Fault) (p : Pass) : Calls (throw e : Render α) p []
  | get (p : Pass) : Calls get p []
  | report (e : Event) (p : Pass) : Calls (report e) p []
  | nameFor (key : String) (category : Category) (p : Pass) : Calls (nameFor key category) p []
  | distinctName (hint : String) (category : Category) (p : Pass) :
    Calls (distinctName hint category) p []
  | define (key code : String) (p : Pass) : Calls (define key code) p [.insert key code]
  | isDefined {key : String} {answer : Bool} {p p' : Pass} :
    (isDefined key).run p = (.ok answer, p') → Calls (isDefined key) p [.ask key answer]
  | bind {α β : Type} {x : Render α} {f : α → Render β} {p p' : Pass} {a : α}
    {log log' : List Call} :
    Calls x p log → x.run p = (.ok a, p') → Calls (f a) p' log' → Calls (x >>= f) p (log ++ log')
  | abort {α β : Type} {x : Render α} {f : α → Render β} {p p' : Pass} {e : Fault}
    {log : List Call} :
    Calls x p log → x.run p = (.error e, p') → Calls (x >>= f) p log
  | succeed {α : Type} {x : Render α} {handle : Fault → Render α} {p p' : Pass} {a : α}
    {log : List Call} :
    Calls x p log → x.run p = (.ok a, p') → Calls (tryCatch x handle) p log
  | recover {α : Type} {x : Render α} {handle : Fault → Render α} {p p' : Pass} {e : Fault}
    {log log' : List Call} :
    Calls x p log → x.run p = (.error e, p') → Calls (handle e) p' log' →
    Calls (tryCatch x handle) p (log ++ log')
  | asLoopBody {α : Type} {act : Render α} {p : Pass} {log : List Call} :
    Calls act { p with loopDepth := p.loopDepth + 1 } log → Calls act.asLoopBody p log

structure Effect (p p' : Pass) (log : List Call) : Prop where
  definitions : p'.definitions = insertAll p.definitions (insertions log)
  answered : Answered p.definitions log

theorem Effect.nil {p p' : Pass} (h : p'.definitions = p.definitions) : Effect p p' [] :=
  ⟨h, trivial⟩

theorem Effect.append {p p' p'' : Pass} {log log' : List Call} (h : Effect p p' log)
    (h' : Effect p' p'' log') : Effect p p'' (log ++ log') := by
  obtain ⟨hdefinitions, hanswered⟩ := h
  obtain ⟨hdefinitions', hanswered'⟩ := h'
  rw [hdefinitions] at hdefinitions' hanswered'
  refine ⟨?_, answered_append.2 ⟨hanswered, hanswered'⟩⟩
  rw [hdefinitions', ← insertAll_append, insertions, insertions, insertions,
    ← List.filterMap_append]

theorem Calls.effect {α : Type} {act : Render α} {p : Pass} {log : List Call}
    (h : act.Calls p log) : Effect p (act.run p).2 log := by
  induction h with
  | pure a p => exact .nil rfl
  | throw e p => exact .nil rfl
  | get p => exact .nil rfl
  | report e p => exact .nil rfl
  | nameFor key category p => exact .nil (continues_nameFor key category p).definitions
  | distinctName hint category p => exact .nil (continues_distinctName hint category p).definitions
  | define key code p => exact ⟨rfl, trivial⟩
  | isDefined hrun =>
    -- The answer is what the definitions say at this point of the run.
    cases hrun
    exact ⟨rfl, rfl, trivial⟩
  | bind hx hrun hf ihx ihf =>
    rw [run_bind_ok hrun]
    rw [hrun] at ihx
    exact ihx.append ihf
  | abort hx hrun ihx =>
    rw [run_bind, hrun]
    rw [hrun] at ihx
    exact ihx
  | succeed hx hrun ihx =>
    rw [run_tryCatch, hrun]
    rw [hrun] at ihx
    exact ihx
  | recover hx hrun hhandle ihx ihhandle =>
    rw [run_tryCatch, hrun]
    rw [hrun] at ihx
    exact ihx.append ihhandle
  | @asLoopBody _ act p log hact ih =>
    obtain ⟨depth, hpass⟩ := snd_run_asLoopBody act p
    rw [hpass]
    exact ⟨ih.definitions, ih.answered⟩

def Accounted {α : Type} (act : Render α) : Prop := ∀ p, ∃ log, act.Calls p log

theorem Accounted.bind {α β : Type} {x : Render α} {f : α → Render β} (hx : x.Accounted)
    (hf : ∀ a, (f a).Accounted) : (x >>= f).Accounted := by
  intro p
  obtain ⟨log, hlog⟩ := hx p
  cases hrun : x.run p with
  | mk result p' =>
    cases result with
    | error e => exact ⟨log, .abort hlog hrun⟩
    | ok a =>
      obtain ⟨log', hlog'⟩ := hf a p'
      exact ⟨log ++ log', .bind hlog hrun hlog'⟩

theorem accounted_pure {α : Type} (a : α) : (pure a : Render α).Accounted :=
  fun p => ⟨[], .pure a p⟩

theorem accounted_throw {α : Type} (e : Fault) : (throw e : Render α).Accounted :=
  fun p => ⟨[], .throw e p⟩

theorem accounted_get : (get : Render Pass).Accounted := fun p => ⟨[], .get p⟩

theorem accounted_report (e : Event) : (report e).Accounted := fun p => ⟨[], .report e p⟩

theorem accounted_nameFor (key : String) (category : Category) :
    (nameFor key category).Accounted :=
  fun p => ⟨[], .nameFor key category p⟩

theorem accounted_define (key code : String) : (define key code).Accounted :=
  fun p => ⟨[.insert key code], .define key code p⟩

theorem accounted_kept : Kept (fun _ => True) fun act _ => act.Accounted where
  pure := accounted_pure
  bind := .bind
  throw e _ := accounted_throw e
  report := accounted_report
  variableName _ _ := accounted_nameFor _ _
  distinctName hint := fun p => ⟨[], .distinctName hint .variable p⟩
  inLoop := accounted_get.bind fun _ => accounted_pure _
  asLoopBody h := fun p => by
    obtain ⟨log, hlog⟩ := h { p with loopDepth := p.loopDepth + 1 }
    exact ⟨log, .asLoopBody hlog⟩

theorem Accounted.map {α β : Type} {x : Render α} (f : α → β) (h : x.Accounted) :
    (f <$> x).Accounted :=
  accounted_kept.map (y := x) f h

theorem Accounted.mapM {α β : Type} {f : α → Render β} (h : ∀ a, (f a).Accounted) (as : List α) :
    (as.mapM f).Accounted :=
  accounted_kept.mapM (g := f) fun a _ => h a

end Render

open Render

def Site.Accounted (s : Site) : Prop :=
  s.Matches (fun _ => True) (fun act _ => act.Accounted) s.values s.statements

structure Rulebook.Accounted (book : Rulebook) : Prop where
  rules : ∀ type rule, book.rule? type = some rule → ∀ s : Site, s.Accounted → (rule s).Accounted
  opening : ∀ opening, book.opening = some opening →
    ∀ options roots, (opening options roots).Accounted

theorem accounted_declareVariables (options : Options) (roots : List Tree) :
    (declareVariables options roots).Accounted := by
  refine .bind (.mapM (fun _ => accounted_nameFor _ _) _) fun own => .bind ?_ fun ids =>
    .bind (.mapM (fun id => accounted_nameFor id _) ids) fun used => ?_
  · cases referencedVariables roots with
    | ok ids => exact accounted_pure ids
    | error e => exact accounted_throw e
  · split
    · exact accounted_define _ _
    · exact accounted_pure ()

namespace Rulebook

theorem accounted_builtin : builtin.Accounted where
  rules type rule hrule s hs := by
    rw [builtin_rule?] at hrule
    exact kept_builtin accounted_kept hs hrule
  opening opening hopening := by
    cases hopening
    exact accounted_declareVariables

variable {book : Rulebook}

theorem Accounted.register (h : book.Accounted) (type : String) {rule : Rule}
    (hrule : ∀ s : Site, s.Accounted → (rule s).Accounted) :
    (book.register type rule).Accounted where
  rules type' rule' hrule' s hs := by
    rw [rule?, Rulebook.register, ByName.get?_insert] at hrule'
    split at hrule'
    · cases hrule'
      exact hrule s hs
    · exact h.rules type' rule' hrule' s hs
  opening := h.opening

theorem Accounted.withOpening (h : book.Accounted) {opening : Opening}
    (hopening : ∀ options roots, (opening options roots).Accounted) :
    (book.withOpening (some opening)).Accounted where
  rules := h.rules
  opening opening' heq := by
    cases heq
    exact hopening

end Rulebook

theorem Query.accounted_run {s : Site} (hs : s.Accounted) (q : Query) : (q.run s).Accounted := by
  have hP := accounted_kept.toKeptSteps
  have hvalue : ∀ input least, (s.value? input least).Accounted :=
    Site.kept_value? hP hs.toValuesMatch s.statements
  cases q with
  | value input least => exact (hvalue input least).map _
  | valueOr input least default =>
    exact .map _ (.bind (hvalue input least) fun _ => accounted_pure _)
  | required input least =>
    refine .map _ (.bind (hvalue input least) fun code => ?_)
    cases code with
    | some code => exact accounted_pure code
    | none => exact accounted_throw _
  | statements input =>
    exact .map _ (Site.kept_statementsOf hP s.values (hs.statements.join_lookup input))
  | branch input => exact .map _ (Site.kept_branch hP hs input)
  | loopBranch input => exact .map _ (Site.kept_loopBranch accounted_kept hs input)
  | inLoop => exact .map _ accounted_kept.inLoop
  | variableName field => exact .map _ (accounted_nameFor _ _)
  | nameFor key category => exact .map _ (accounted_nameFor key category)
  | distinctName hint category => exact .map _ fun p => ⟨[], .distinctName hint category p⟩
  | define key code => exact .bind (accounted_define key code) fun _ => accounted_pure _
  | isDefined key => exact .map _ fun p => ⟨_, .isDefined rfl⟩
  | definitions | nameCount | isReserved => exact accounted_get.bind fun _ => accounted_pure _
  | trapped | before | after | fieldText | fieldNumber => exact accounted_pure _

namespace Template

theorem accounted_code {s : Site} (hs : s.Accounted) (t : Template) : (t.code s).Accounted := by
  induction t with
  | nil => exact accounted_pure ""
  | cons part t ih =>
    cases part with
    | literal text => exact ih.bind fun _ => accounted_pure _
    | query q => exact .bind (q.accounted_run hs) fun _ => ih.bind fun _ => accounted_pure _

theorem accounted_rule (t : Template) (kind : Kind) (s : Site) (hs : s.Accounted) :
    (t.rule kind s).Accounted := by
  refine .bind (t.accounted_code hs) fun code => ?_
  cases kind <;> exact accounted_pure _

theorem accounted_opening (t : Template) (options : Options) : (t.opening options).Accounted := by
  have hblank : (blankSite options).Accounted := ⟨⟨trivial, List.Forall₂.nil⟩, List.Forall₂.nil⟩
  exact .bind (t.accounted_code hblank) fun _ => accounted_pure ()

end Template

def Text.IsFragment (text fragment : String) : Prop :=
  ∃ stem n, text = stem ++ String.ofList (List.replicate n '\n') ∧ ¬ IsTerminated stem ∧
    fragment = stem ++ "\n"

theorem Text.isFragment_terminate (text : String) : IsFragment text (terminate text) := by
  let breaks := text.toList.reverse.takeWhile (· == '\n')
  let rest := text.toList.reverse.dropWhile (· == '\n')
  have hbreaks : breaks = List.replicate breaks.length '\n' :=
    List.eq_replicate_of_mem fun c hc => by simpa using List.mem_takeWhile_imp hc
  have htext : text.toList = rest.reverse ++ breaks.reverse := by
    rw [← List.reverse_append, List.takeWhile_append_dropWhile, List.reverse_reverse]
  refine ⟨String.ofList rest.reverse, breaks.length, ?_, ?_, ?_⟩
  · rw [← String.ofList_append, ← List.reverse_replicate, ← hbreaks, ← htext,
      String.ofList_toList]
  · -- Read from the end, what is left begins with something else than a line break.
    intro hlast
    rw [IsTerminated, String.toList_ofList, List.getLast?_reverse] at hlast
    have hhead := List.head?_dropWhile_not (· == '\n') text.toList.reverse
    simp only [rest] at hlast
    rw [hlast] at hhead
    simp at hhead
  · rw [terminate, ← String.toList_inj]
    simp [rest]

/--
The definitions, each ended by one line break, then an empty line and the body; what is empty is
left out, and the empty line with it.
-/
inductive Assembled : List (String × String) → String → String → Prop
  | bare (body : String) : Assembled [] body body
  | headed {definitions : List (String × String)} {fragments : List String} (body : String) :
    definitions ≠ [] → List.Forall₂ (fun d => Text.IsFragment d.2) definitions fragments →
    Assembled definitions body
      (String.join fragments ++ if body = "" then "" else "\n" ++ body)

theorem assembled_assemble (definitions : List (String × String)) (body : String) :
    Assembled definitions body (assemble definitions body) := by
  cases definitions with
  | nil => exact .bare body
  | cons d ds =>
    let fragments := (d :: ds).map fun d => Text.terminate d.2
    have hfragments : List.Forall₂ (fun d => Text.IsFragment d.2) (d :: ds) fragments :=
      List.forall₂_map_right_iff.2 (List.forall₂_same.2 fun d _ => Text.isFragment_terminate d.2)
    have hhead : (String.join fragments).isEmpty = false := by
      simp [fragments, Text.terminate, ← String.toList_inj]
    have hcode : assemble (d :: ds) body =
        String.join fragments ++ if body = "" then "" else "\n" ++ body := by
      unfold assemble
      dsimp only
      rw [hhead]
      by_cases hbody : body = ""
      · simp [hbody, fragments]
      · simp [hbody, fragments, String.append_assoc]
    rw [hcode]
    exact .headed body (List.cons_ne_nil d ds) hfragments

namespace Setup

variable {c : Setup}

theorem accounted_emit (hc : c.book.Accounted) (s : Site) (hs : s.Accounted) :
    (c.emit s).Accounted := by
  unfold emit
  split
  · exact accounted_throw _
  · next rule hrule =>
    refine .bind (accounted_report _) fun _ => .bind (hc.rules _ rule hrule s hs) fun emission => ?_
    cases emission <;> exact accounted_pure _

theorem accounted_program (hc : c.book.Accounted) (w : Workspace) : (c.program w).Accounted := by
  have hopening : (c.runOpening w).Accounted := by
    unfold runOpening
    split
    · exact accounted_pure false
    · next opening hopening =>
      exact .bind (hc.opening opening hopening _ _) fun _ => accounted_pure true
  have hchain : ∀ t : Tree, (t.chain c).Accounted := fun t =>
    (t.kept_of_emit accounted_kept.toKeptSteps accounted_throw (accounted_emit hc)).2
  exact .bind (accounted_report _) fun _ => hopening.bind fun _ =>
    .bind (.mapM hchain w.rootTrees) fun _ => accounted_get.bind fun _ =>
      .bind (accounted_report _) fun _ => accounted_pure _

def body (c : Setup) (w : Workspace) : Render String := do
  let _ ← c.opened w
  let parts ← w.rootTrees.mapM (Tree.chain c)
  return String.join parts

theorem generate_of_body {w : Workspace} {body : String}
    (h : ((c.body w).run (c.start w)).1 = .ok body) :
    c.generate w = .ok (assemble ((c.program w).run (c.start w)).2.definitions body) := by
  obtain ⟨b, p, hopened, hrun⟩ := run_bind_eq_ok (run_of_fst h)
  obtain ⟨parts, q, hparts, hrun⟩ := run_bind_eq_ok hrun
  obtain ⟨events, hprogram⟩ := run_program hopened hparts
  cases hrun
  change ((c.program w).run (c.start w)).1 = _
  rw [hprogram]
  rfl

/--
In a program the definitions stand in the order in which their keys were first inserted, each with
the text that was inserted last, whether by the opening or by a rule. A question for a key on the
way is answered by whether it has been inserted before. The definitions come in front of the code of
the blocks, one fragment for each key.
-/
theorem definitions_in_order (c : Setup) (w : Workspace) :
    (c.book.Accounted → ∃ log, (c.program w).Calls (c.start w) log) ∧
    ∀ log, (c.program w).Calls (c.start w) log →
      let definitions := ((c.program w).run (c.start w)).2.definitions
      let inserted := Preamble.insertions log
      definitions.map Prod.fst = (inserted.map Prod.fst).eraseDups ∧
      (∀ key, definitions.lookup key = inserted.reverse.lookup key) ∧
      (∀ before key answer after, log = before ++ .ask key answer :: after →
        (answer = true ↔ key ∈ (Preamble.insertions before).map Prod.fst)) ∧
      ∀ body, ((c.body w).run (c.start w)).1 = .ok body →
        ∃ code, c.generate w = .ok code ∧ Assembled definitions body code := by
  refine ⟨fun hc => accounted_program hc w _, fun log hlog => ?_⟩
  obtain ⟨hdefinitions, hanswered⟩ := hlog.effect
  have hstart : (c.start w).definitions = [] := rfl
  rw [hstart] at hdefinitions hanswered
  refine ⟨?_, fun key => ?_, ?_, fun body hbody => ?_⟩
  · rw [hdefinitions, Preamble.map_fst_insertAll]
  · rw [hdefinitions, Preamble.lookup_insertAll]
  · rintro before key answer after rfl
    exact hanswered.ask_iff
  · exact ⟨_, generate_of_body hbody, assembled_assemble _ body⟩

/--
The opening defines `b`, and then two blocks define `a` and `b`, each after asking for `a`. What is
defined as `b` stays in front and has its last text.
-/
theorem definitions_in_order_notes :
    let start : Template := [.query (.define "b" "use b;")]
    let note : Template := [.literal "// ", .query (.isDefined "a"), .literal "\n",
      .query (.define "a" "use a;\n\n"), .query (.define "b" "use c;")]
    let c : Setup := {
      book := (Rulebook.builtin.register "note" (note.rule .statement)).withOpening
        (some fun options _ => start.opening options) }
    let w : Workspace := {
      blocks := #[{ id := "first", type := "note", next := some 1 },
        { id := "second", type := "note" }]
      roots := [0] }
    let code := "use c;\nuse a;\n\n// false\n// true\n"
    c.book.Accounted ∧ c.generate w = .ok code ∧
      Assembled [("b", "use c;"), ("a", "use a;\n\n")] "// false\n// true\n" code ∧
      ∃ log, (c.program w).Calls (c.start w) log ∧
        ((Preamble.insertions log).map Prod.fst).eraseDups = ["b", "a"] ∧
        (Preamble.insertions log).reverse.lookup "b" = some "use c;" ∧
        ∀ before answer after, log = before ++ .ask "a" answer :: after →
          (answer = true ↔ "a" ∈ (Preamble.insertions before).map Prod.fst) := by
  intro start note c w code
  have hbook : c.book.Accounted :=
    (Rulebook.accounted_builtin.register "note" (note.accounted_rule .statement)).withOpening
      fun options _ => start.accounted_opening options
  obtain ⟨haccount, hlaws⟩ := definitions_in_order c w
  obtain ⟨log, hlog⟩ := haccount hbook
  obtain ⟨hkeys, htexts, hanswers, hcode⟩ := hlaws log hlog
  have hdefinitions : ((c.program w).run (c.start w)).2.definitions =
      [("b", "use c;"), ("a", "use a;\n\n")] := by decide +kernel
  have hgenerate : c.generate w = .ok code := by decide +kernel
  obtain ⟨code', hcode', hassembled⟩ := hcode "// false\n// true\n" (by decide +kernel)
  cases hgenerate.symm.trans hcode'
  rw [hdefinitions] at hkeys htexts hassembled
  exact ⟨hbook, hgenerate, hassembled, log, hlog, hkeys.symm, (htexts "b").symm,
    fun before => hanswers before "a"⟩

end Setup

end BlockCode
