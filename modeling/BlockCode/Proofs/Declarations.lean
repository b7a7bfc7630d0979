import BlockCode.Proofs.Requests

namespace BlockCode

theorem Field.reference?_var (f : Field) : f.reference? "VAR" = some f.toText := by
  cases f <;> rfl

theorem Head.mem_references {h : Head} {f : Field} (hf : h.field? "VAR" = some f) :
    f.toText ∈ h.references := by
  obtain ⟨before, after, hentries, -⟩ := List.lookup_eq_some_iff.1 hf
  exact List.mem_filterMap.2 ⟨("VAR", f), by simp [hentries], f.reference?_var⟩

theorem Names.foldl_setHint {α : Type} (key hint : α → String) (as : List α) (t : Names) :
    as.foldl (fun t a => t.setHint (key a) (hint a)) t =
      { t with hints := (as.map fun a => (key a, hint a)).reverse ++ t.hints } := by
  induction as generalizing t with
  | nil => rfl
  | cons a as ih => rw [List.foldl_cons, ih]; simp [Names.setHint]

theorem Setup.names_eq (c : Setup) (w : Workspace) :
    c.names w = { reserved := c.dialect.reserved, hints :=
      (c.options.developer.map fun name => (developerKey name, name)).reverse ++
        w.variableNames.reverse } := by
  have hvariables := Names.foldl_setHint Prod.fst Prod.snd w.variableNames
    { reserved := c.dialect.reserved }
  have hdeveloper := Names.foldl_setHint developerKey id c.options.developer
  simp only [List.map_id', List.append_nil, id_eq, Prod.mk.eta] at hvariables hdeveloper
  exact (congrArg (c.options.developer.foldl _) hvariables).trans (hdeveloper _)

theorem Setup.sound_names (c : Setup) (w : Workspace) : (c.names w).Sound := by
  rw [Setup.names_eq]
  exact { Names.Sound.start c.dialect.reserved with }

theorem Names.find?_resolve (t : Names) (key : String) (category : Category) :
    (t.resolve key category).2.find? key category = some (t.resolve key category).1 := by
  cases hfind : t.find? key category with
  | some name => rw [resolve_of_find hfind, hfind]
  | none => rw [resolve_of_not_find hfind, find?_assign_self]

namespace Render

theorem run_mapM_nameFor {α : Type} (key : α → String) (category : Category) (as : List α)
    {p : Pass} (hs : p.names.Sound) :
    ∃ names p', (as.mapM fun a => nameFor (key a) category).run p = (.ok names, p') ∧
      p.Continues p' ∧
      List.Forall₂ (fun a name => p'.names.find? (key a) category = some name) as names := by
  induction as generalizing p with
  | nil => exact ⟨[], p, rfl, .refl p, .nil⟩
  | cons a as ih =>
    obtain ⟨events, hname⟩ := run_nameFor (key a) category p
    generalize hp₁ : Pass.mk _ _ _ _ = p₁ at hname
    have hfind : p₁.names.find? (key a) category = some (p.names.resolve (key a) category).1 := by
      rw [← hp₁]
      exact p.names.find?_resolve (key a) category
    have hfirst : p.Continues p₁ := by simpa only [hname] using continues_nameFor (key a) category p
    have hs₁ := hfirst.names.sound hs
    obtain ⟨names, p', hrun, hrest, hnames⟩ := ih hs₁
    refine ⟨(p.names.resolve (key a) category).1 :: names, p', ?_, hfirst.trans hrest,
      .cons (hrest.names.find? hs₁ hfind) hnames⟩
    rw [List.mapM_cons, run_bind_ok hname, run_bind_ok hrun, run_pure]

end Render

/--
The pass has a name for each variable, the developer's own and those that blocks refer to, and its
definitions are the declaration of all of them.
-/
structure Pass.Declares (p : Pass) (developer own ids used : List String) : Prop where
  developer : List.Forall₂ (fun name identifier =>
    p.names.find? (developerKey name) .developer = some identifier) developer own
  referenced :
    List.Forall₂ (fun id identifier => p.names.find? id .variable = some identifier) ids used
  definitions : p.definitions = (declarationCode (own ++ used)).toList.map (declarationKey, ·)

theorem run_declareVariables (options : Options) {roots : List Tree} {ids : List String}
    (hids : referencedVariables roots = .ok ids) {p : Pass} (hs : p.names.Sound)
    (hp : p.definitions = []) :
    ∃ own used p', (declareVariables options roots).run p = (.ok (), p') ∧
      p.names.Reaches p'.names ∧ p'.Declares options.developer own ids used := by
  obtain ⟨own, p₁, hrun₁, hcont₁, hown⟩ :=
    Render.run_mapM_nameFor developerKey .developer options.developer hs
  have hs₁ := hcont₁.names.sound hs
  obtain ⟨used, p₂, hrun₂, hcont₂, hused⟩ :=
    Render.run_mapM_nameFor (fun id => id) .variable ids hs₁
  have hdefinitions : p₂.definitions = [] := by
    rw [hcont₂.definitions, hcont₁.definitions, hp]
  have hown₂ := hown.imp fun _ _ => hcont₂.names.find? hs₁
  have hreach := hcont₁.names.trans hcont₂.names
  rw [declareVariables, Render.run_bind_ok hrun₁, hids, declareVariables.liftExcept,
    Render.run_bind_ok (Render.run_pure ids p₁), Render.run_bind_ok hrun₂]
  cases hcode : declarationCode (own ++ used) with
  | none => exact ⟨own, used, p₂, rfl, hreach, hown₂, hused, by rw [hcode, hdefinitions]; rfl⟩
  | some code =>
    refine ⟨own, used, _, rfl, hreach, hown₂, hused, ?_⟩
    rw [hcode]
    exact congrArg (putDefinition declarationKey code) hdefinitions

namespace Setup

def opened (c : Setup) (w : Workspace) : Render Bool := do
  Render.report (.started w.roots.length w.size)
  c.runOpening w

theorem run_opened_reaches {c : Setup} (hc : c.book = .builtin) {w : Workspace} {ids : List String}
    (hids : referencedVariables w.rootTrees = .ok ids) :
    ∃ own used p, (c.opened w).run (c.start w) = (.ok true, p) ∧ (c.names w).Reaches p.names ∧
      p.Declares c.options.developer own ids used := by
  have hs := c.sound_names w
  obtain ⟨own, used, p, hrun, hreach, hdeclares⟩ :=
    run_declareVariables c.options hids (p := { c.start w with
      events := (c.start w).events.push (.started w.roots.length w.size) }) hs rfl
  refine ⟨own, used, p, ?_, hreach, hdeclares⟩
  rw [opened, Render.run_bind_ok (Render.run_report _ _), runOpening, hc]
  exact Render.run_bind_ok hrun _

theorem run_opened {c : Setup} (hc : c.book = .builtin) {w : Workspace} {ids : List String}
    (hids : referencedVariables w.rootTrees = .ok ids) :
    ∃ own used p, (c.opened w).run (c.start w) = (.ok true, p) ∧ p.names.Sound ∧
      p.Declares c.options.developer own ids used := by
  obtain ⟨own, used, p, hrun, hreach, hdeclares⟩ := run_opened_reaches hc hids
  exact ⟨own, used, p, hrun, hreach.sound (c.sound_names w), hdeclares⟩

theorem program_eq (c : Setup) (w : Workspace) : c.program w = do
    let _ ← c.opened w
    let parts ← w.rootTrees.mapM (Tree.chain c)
    let pass ← get
    Render.report (.finished pass.definitions.length pass.names.count)
    return assemble pass.definitions (String.join parts) := by
  simp only [program, opened, bind_assoc]

theorem run_program {c : Setup} {w : Workspace} {b : Bool} {p p' : Pass}
    {result : Except Fault (List String)} (hopened : (c.opened w).run (c.start w) = (.ok b, p))
    (hbody : (w.rootTrees.mapM (Tree.chain c)).run p = (result, p')) :
    ∃ events, (c.program w).run (c.start w) =
      (result.map fun parts => assemble p'.definitions (String.join parts),
        { p' with events }) := by
  rw [program_eq, Render.run_bind_ok hopened, Render.run_bind, hbody]
  cases result with
  | error e => exact ⟨p'.events, rfl⟩
  | ok parts => exact ⟨_, rfl⟩

end Setup

namespace Text

def words (cs : List Char) : List (List Char) :=
  (cs.splitOnP fun c => !isIdentifierChar c).filter (!·.isEmpty)

@[simp] theorem words_nil : words [] = [] := rfl

theorem words_cons {c : Char} (hc : isIdentifierChar c = false) (cs : List Char) :
    words (c :: cs) = words cs := by
  rw [words, List.splitOnP_cons_eq_if_modifyHead, if_pos (by simp [hc])]
  rfl

theorem words_append {word : List Char} (hne : word ≠ [])
    (hword : word.all isIdentifierChar = true) {c : Char} (hc : isIdentifierChar c = false)
    (cs : List Char) : words (word ++ c :: cs) = word :: words cs := by
  have hsplit : (word ++ c :: cs).splitOnP (fun c => !isIdentifierChar c) =
      word :: cs.splitOnP fun c => !isIdentifierChar c :=
    List.splitOnP_append_cons_of_forall_mem (fun d hd => by simp [List.all_eq_true.1 hword d hd]) c
      (by simp [hc]) cs
  rw [words, hsplit, List.filter_cons_of_pos (by simpa using hne)]
  rfl

end Text

def evenWords : List (List Char) → List String
  | _ :: word :: rest => String.ofList word :: evenWords rest
  | _ => []

/-- The identifiers that a declaration binds: after `let`, each has a `mut` before it. -/
def boundNames (code : String) : List String := evenWords (Text.words code.toList).tail

theorem IsIdentifier.words_append {name : String} (h : IsIdentifier name) {c : Char}
    (hc : isIdentifierChar c = false) (cs : List Char) :
    Text.words (name.toList ++ c :: cs) = name.toList :: Text.words cs := by
  obtain ⟨first, hfirst, -⟩ := h.start
  refine Text.words_append (fun hnil => ?_) (List.all_eq_true.2 h.chars) hc cs
  rw [hnil] at hfirst
  cases hfirst

def bindingWords (name : String) : List (List Char) := [['m', 'u', 't'], name.toList]

theorem words_binding {name : String} (h : IsIdentifier name) {c : Char}
    (hc : isIdentifierChar c = false) (cs : List Char) :
    Text.words (("mut " ++ name).toList ++ c :: cs) = bindingWords name ++ Text.words cs := by
  have hmut : ("mut " ++ name).toList ++ c :: cs =
      ['m', 'u', 't'] ++ ' ' :: (name.toList ++ c :: cs) := by simp
  rw [hmut, Text.words_append (by decide) (by decide) (by decide), h.words_append hc]
  rfl

theorem words_bindings {names : List String} (hne : names ≠ [])
    (h : ∀ name ∈ names, IsIdentifier name) :
    Text.words ((", ".intercalate (names.map ("mut " ++ ·))).toList ++ [')', ';']) =
      names.flatMap bindingWords := by
  induction names with
  | nil => exact absurd rfl hne
  | cons name names ih =>
    obtain ⟨hname, hnames⟩ := List.forall_mem_cons.1 h
    cases names with
    | nil =>
      rw [List.map_singleton, String.intercalate_singleton, words_binding hname (by decide),
        List.flatMap_singleton]
      rfl
    | cons name' names =>
      rw [List.map_cons, List.map_cons, String.intercalate_cons_cons, ← List.map_cons,
        String.toList_append, String.toList_append, List.append_assoc, List.append_assoc]
      exact (words_binding hname (by decide) _).trans
        (congrArg _ ((Text.words_cons (by decide) _).trans (ih (List.cons_ne_nil _ _) hnames)))

theorem evenWords_bindings (names : List String) :
    evenWords (names.flatMap bindingWords) = names := by
  induction names with
  | nil => rfl
  | cons name names ih => simp [bindingWords, evenWords, ih]

theorem boundNames_declarationCode {names : List String} (h : ∀ name ∈ names, IsIdentifier name)
    {code : String} (hcode : declarationCode names = some code) : boundNames code = names := by
  have hlet : ∀ cs,
      Text.words ('l' :: 'e' :: 't' :: ' ' :: cs) = ['l', 'e', 't'] :: Text.words cs :=
    Text.words_append (List.cons_ne_nil 'l' ['e', 't']) (by decide) (by decide)
  have hwords : Text.words code.toList = ['l', 'e', 't'] :: names.flatMap bindingWords := by
    unfold declarationCode at hcode
    split at hcode
    · cases hcode
    · next name =>
      obtain rfl := Option.some.inj hcode
      have hbinding := words_binding (h name (by simp)) (c := ';') (by decide) []
      simpa [hlet] using hbinding
    · next hnil hsingle =>
      obtain rfl := Option.some.inj hcode
      have hbindings := words_bindings hnil h
      have hopen := Text.words_cons (c := '(') (by decide)
      simpa [hlet, hopen] using hbindings
  rw [boundNames, hwords, List.tail_cons, evenWords_bindings]

def declaredNames (definitions : List (String × String)) : List String :=
  ((definitions.lookup declarationKey).map boundNames).getD []

theorem exists_mem_of_forall₂ {α β : Type} {R : α → β → Prop} {as : List α} {bs : List β}
    (h : List.Forall₂ R as bs) {b : β} (hb : b ∈ bs) : ∃ a ∈ as, R a b := by
  induction h with
  | nil => simp at hb
  | @cons a b' as bs hab _ ih =>
    rcases List.mem_cons.1 hb with rfl | hb
    · exact ⟨a, List.mem_cons_self, hab⟩
    · obtain ⟨a', ha', hab'⟩ := ih hb
      exact ⟨a', List.mem_cons_of_mem _ ha', hab'⟩

namespace Pass.Declares

variable {p : Pass} {developer own ids used : List String}

theorem mem_zip (h : p.Declares developer own ids used) {key name : String} (hkey : key ∈ ids)
    (hname : ∀ known, p.names.find? key .variable = some known → name = known) :
    (key, name) ∈ ids.zip used := by
  have hreferenced := h.referenced
  clear h
  induction hreferenced with
  | nil => simp at hkey
  | @cons id identifier ids used hid _ ih =>
    rw [List.zip_cons_cons, List.mem_cons]
    rcases List.mem_cons.1 hkey with rfl | hkey
    · exact .inl (congrArg _ (hname identifier hid))
    · exact .inr (ih hkey)

theorem nodup_used (h : p.Declares developer own ids used) (hs : p.names.Sound) (hids : ids.Nodup) :
    used.Nodup := by
  have hreferenced := h.referenced
  clear h
  induction hreferenced with
  | nil => exact .nil
  | @cons id identifier ids used hid hrest ih =>
    obtain ⟨hnew, hids⟩ := List.nodup_cons.1 hids
    refine List.nodup_cons.2 ⟨fun hmem => hnew ?_, ih hids⟩
    obtain ⟨id', hid', hfind⟩ := exists_mem_of_forall₂ hrest hmem
    cases hs.find?_injective hid hfind
    exact hid'

theorem disjoint (h : p.Declares developer own ids used) (hs : p.names.Sound) :
    own.Disjoint used := by
  intro name hown hused
  obtain ⟨_, -, hfind⟩ := exists_mem_of_forall₂ h.developer hown
  obtain ⟨_, -, hfind'⟩ := exists_mem_of_forall₂ h.referenced hused
  cases hs.find?_injective hfind hfind'

theorem mem_used (h : p.Declares developer own ids used) (hs : p.names.Sound) {name : String}
    (hname : name ∈ own ++ used) : name ∈ p.names.used := by
  rcases List.mem_append.1 hname with hmem | hmem
  · obtain ⟨_, -, hfind⟩ := exists_mem_of_forall₂ h.developer hmem
    exact hs.assigned_used _ (Names.find?_mem hfind)
  · obtain ⟨_, -, hfind⟩ := exists_mem_of_forall₂ h.referenced hmem
    exact hs.assigned_used _ (Names.find?_mem hfind)

theorem declaredNames_eq (h : p.Declares developer own ids used) (hs : p.names.Sound) :
    declaredNames p.definitions = own ++ used := by
  have hidentifiers : ∀ name ∈ own ++ used, IsIdentifier name := fun name hname =>
    hs.used_identifier name (h.mem_used hs hname)
  rw [declaredNames, h.definitions]
  cases hcode : declarationCode (own ++ used) with
  | none =>
    cases hnames : own ++ used with
    | nil => rfl
    | cons name names =>
      rw [hnames] at hcode
      cases names <;> cases hcode
  | some code =>
    have hlookup : [(declarationKey, code)].lookup declarationKey = some code :=
      List.lookup_cons_self
    rw [Option.toList_some, List.map_singleton, hlookup]
    exact boundNames_declarationCode hidentifiers hcode

end Pass.Declares

namespace Setup

/--
A pass over a workspace, parted after its opening: `p` is the state then, `own` and `used` are the
identifiers that the opening has declared, and the log holds the requests of all the blocks.
-/
structure Declared (c : Setup) (w : Workspace) (own ids used : List String) (p : Pass)
    (log : List Request) : Prop where
  referenced : referencedVariables w.rootTrees = .ok ids
  opened : (c.opened w).run (c.start w) = (.ok true, p)
  declares : p.Declares c.options.developer own ids used
  bound : declaredNames p.definitions = own ++ used
  asks : (w.rootTrees.mapM (Tree.chain c)).Asks p log
  ids_nodup : ids.Nodup
  used_nodup : used.Nodup
  disjoint : own.Disjoint used
  once : ∀ name ∈ used, (declaredNames p.definitions).count name = 1
  requests : ∀ block name, .variable block name ∈ log →
    block ∈ w.rootTrees.flatMap Tree.enabled ∧
    ((∃ field, block.field? "VAR" = some field ∧ field.toText ∈ ids ∧
      (field.toText, name) ∈ ids.zip used ∧ name ∈ declaredNames p.definitions) ∨
    (block.field? "VAR" = none ∧ block.variableKey = ""))
  temporaries : ∀ name, .temporary name ∈ log → name ∉ declaredNames p.definitions
  body_definitions : ((w.rootTrees.mapM (Tree.chain c)).run p).2.definitions = p.definitions
  definitions : ((c.program w).run (c.start w)).2.definitions = p.definitions

/-- The body of a program uses the variables that its opening has declared. -/
theorem declared_of_acyclic {c : Setup} (hc : c.book = .builtin) {w : Workspace} (hw : w.Acyclic) :
    ∃ own ids used p log, c.Declared w own ids used p log := by
  obtain ⟨ids, hids, hnodup, henabled⟩ := referencedVariables_enabled hw.isWhole_rootTrees
  obtain ⟨own, used, p, hopened, hs, hdeclares⟩ := run_opened hc hids
  obtain ⟨log, hasks, hblocks⟩ := Render.onlyAsks_chains hc (p := p) fun t ht =>
    ⟨hw.isWhole_rootTrees t ht, fun h hh => List.mem_flatMap.2 ⟨t, ht, hh⟩⟩
  obtain ⟨events, hprogram⟩ := run_program hopened (Prod.mk.eta ..).symm
  have hbound := hdeclares.declaredNames_eq hs
  have hused := hdeclares.nodup_used hs hnodup
  have hdisjoint := hdeclares.disjoint hs
  refine ⟨own, ids, used, p, log, hids, hopened, hdeclares, hbound, hasks, hnodup, hused, hdisjoint,
    fun name hname => ?_, fun block name hmem => ?_, fun name hmem hdeclared => ?_,
    hasks.continues.definitions, ?_⟩
  · rw [hbound, List.count_append, List.count_eq_zero.2 fun hown => hdisjoint hown hname,
      List.count_eq_one_of_mem hused hname]
  · have hblock := hblocks block name hmem
    refine ⟨hblock, ?_⟩
    cases hfield : block.field? "VAR" with
    | none => exact .inr ⟨rfl, by simp [Head.variableKey, Head.fieldText?, hfield]⟩
    | some field =>
      have hkey : block.variableKey = field.toText := by
        simp [Head.variableKey, Head.fieldText?, hfield]
      have hid := henabled block hblock (Head.mem_references hfield)
      have hpair : (field.toText, name) ∈ ids.zip used :=
        hdeclares.mem_zip hid (hkey ▸ hasks.fits hs _ hmem)
      refine .inl ⟨field, rfl, hid, hpair, ?_⟩
      rw [hbound]
      exact List.mem_append_right _ (List.of_mem_zip hpair).2
  · rw [hbound] at hdeclared
    exact hasks.fits hs _ hmem (hdeclares.mem_used hs hdeclared)
  · rw [hprogram]
    exact hasks.continues.definitions

theorem declared_counting_loop :
    let w : Workspace := {
      blocks := #[
        { id := "sum", type := "math_change", values := ⟨[("DELTA", some 1)]⟩ },
        { id := "step", type := "variables_get", fields := ⟨[("VAR", .text "v")]⟩ },
        { id := "loop", type := "controls_for", fields := ⟨[("VAR", .variable "v")]⟩,
          values := ⟨[("FROM", some 1), ("TO", some 1)]⟩, statements := ⟨[("DO", some 0)]⟩ }],
      roots := [2], variableNames := [("v", "v_range")] }
    let c : Setup := { options := { developer := ["v_range"] } }
    let definitions := [("variables", "let (mut v_range, mut v_range2);")]
    w.Acyclic ∧ declaredNames definitions = ["v_range", "v_range2"] ∧
      (∃ p log, c.Declared w ["v_range"] ["v"] ["v_range2"] p log ∧ p.definitions = definitions) ∧
      c.generate w = .ok ("let (mut v_range, mut v_range2);\n\n" ++
        "let v_range2_range: Box<dyn Iterator<Item = _>> = if v_range2 <= v_range2 " ++
        "{ Box::new(v_range2..=v_range2) } else { Box::new((v_range2..=v_range2).rev()) };\n" ++
        r"for v_range2 in v_range2_range {
  var += v_range2;
}
") := by
  intro w c definitions
  have hw : w.Acyclic := Workspace.acyclic_of_rank (fun i => if i = 1 then 0 else i + 1)
    (by decide) (by decide)
  have hnames : declaredNames definitions = ["v_range", "v_range2"] := by decide +kernel
  have hdefinitions : ((c.opened w).run (c.start w)).2.definitions = definitions := by
    decide +kernel
  obtain ⟨own, ids, used, p, log, h⟩ := declared_of_acyclic (c := c) rfl hw
  rw [h.opened] at hdefinitions
  obtain rfl : ["v"] = ids := Except.ok.inj h.referenced
  obtain ⟨rfl, rfl⟩ : own = ["v_range"] ∧ used = ["v_range2"] := by
    have hbound := h.bound
    rw [hdefinitions, hnames] at hbound
    have hlength : own.length = 1 := h.declares.developer.length_eq.symm
    exact List.append_inj hbound.symm hlength
  exact ⟨hw, hnames, ⟨p, log, h, hdefinitions⟩, by decide +kernel⟩

end Setup

end BlockCode
