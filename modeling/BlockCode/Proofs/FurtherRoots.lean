import BlockCode.Proofs.DeveloperVariables
import BlockCode.Proofs.Mentions

namespace BlockCode

theorem referencedVariables_append {roots more : List Tree}
    (h : ∀ t ∈ roots ++ more, t.isWhole = true) :
    ∃ ids extra, referencedVariables roots = .ok ids ∧
      referencedVariables (roots ++ more) = .ok (ids ++ extra) := by
  obtain ⟨hroots, hmore⟩ := List.forall_mem_append.1 h
  obtain ⟨mentions, hmentions, -⟩ := mapM_references_ok hroots
  obtain ⟨later, hlater, -⟩ := mapM_references_ok hmore
  refine ⟨mentions.flatten.eraseDups, (later.flatten.removeAll mentions.flatten).eraseDups,
    by rw [referencedVariables_eq, hmentions]; rfl, ?_⟩
  have hall : (roots ++ more).mapM Tree.references = .ok (mentions ++ later) := by
    rw [List.mapM_append, hmentions, hlater]
    rfl
  rw [referencedVariables_eq, hall, ← List.eraseDups_append, ← List.flatten_append]
  rfl

namespace Workspace

def withRoots (w : Workspace) (more : List Nat) : Workspace := { w with roots := w.roots ++ more }

variable {w : Workspace} {more : List Nat}

theorem unfold_withRoots (w : Workspace) (more : List Nat) (n i : Nat) :
    (w.withRoots more).unfold n i = w.unfold n i := by
  induction n generalizing i with
  | zero =>
    rw [unfold, unfold]
    rfl
  | succ n ih =>
    have hfollow : (w.withRoots more).unfold n = w.unfold n := funext ih
    cases hb : w.blocks[i]? with
    | none =>
      have hb' : (w.withRoots more).blocks[i]? = none := hb
      rw [unfold, unfold, hb, hb']
    | some b =>
      have hb' : (w.withRoots more).blocks[i]? = some b := hb
      rw [unfold_block hb, unfold_block hb', hfollow]

theorem rootTrees_withRoots (w : Workspace) (more : List Nat) :
    (w.withRoots more).rootTrees = w.rootTrees ++ more.map w.tree := by
  have htree : (w.withRoots more).tree = w.tree :=
    funext fun i => w.unfold_withRoots more w.size i
  rw [rootTrees, htree, withRoots, List.map_append]
  rfl

theorem Acyclic.withRoots (hw : w.Acyclic) (hmore : ∀ i ∈ more, i < w.size) :
    (w.withRoots more).Acyclic where
  roots_lt := List.forall_mem_append.2 ⟨hw.roots_lt, hmore⟩
  links_lt := hw.links_lt
  acyclic := hw.acyclic

end Workspace

def Options.declarationCalls (options : Options) (ids : List String) : List Names.Call :=
  (options.developer.map fun name => .resolve (developerKey name) .developer) ++
    ids.map (.resolve · .variable)

theorem Names.reaches_declarationCalls_append (t : Names) (options : Options)
    (ids extra : List String) : (t.after (options.declarationCalls ids)).Reaches
      (t.after (options.declarationCalls (ids ++ extra))) := by
  refine ⟨extra.map (.resolve · .variable), by simp, ?_⟩
  rw [← after_append, Options.declarationCalls, Options.declarationCalls, List.map_append,
    List.append_assoc]

theorem Render.names_mapM_nameFor {α : Type} (key : α → String) (category : Category) (as : List α)
    {names : List String} {p p' : Pass}
    (hrun : (as.mapM fun a => nameFor (key a) category).run p = (.ok names, p')) :
    p'.names = p.names.after (as.map fun a => .resolve (key a) category) := by
  induction as generalizing p names with
  | nil =>
    cases hrun
    rfl
  | cons a as ih =>
    obtain ⟨events, hname⟩ := run_nameFor (key a) category p
    rw [List.mapM_cons, run_bind_ok hname] at hrun
    obtain ⟨rest, q, hrest, hpure⟩ := run_bind_eq_ok hrun
    cases hpure
    exact ih hrest

theorem names_declareVariables {options : Options} {roots : List Tree} {ids : List String}
    (hids : referencedVariables roots = .ok ids) {p p' : Pass}
    (hrun : (declareVariables options roots).run p = (.ok (), p')) :
    p'.names = p.names.after (options.declarationCalls ids) := by
  rw [declareVariables] at hrun
  obtain ⟨own, p₁, hrun₁, hrun⟩ := Render.run_bind_eq_ok hrun
  rw [hids, declareVariables.liftExcept, Render.run_bind_ok (Render.run_pure ids p₁)] at hrun
  obtain ⟨used, p₂, hrun₂, hrun⟩ := Render.run_bind_eq_ok hrun
  have hnames₁ := Render.names_mapM_nameFor developerKey .developer options.developer hrun₁
  have hnames₂ := Render.names_mapM_nameFor (fun id => id) .variable ids hrun₂
  have hnames : p'.names = p₂.names := by
    split at hrun <;> cases hrun <;> rfl
  rw [hnames, hnames₂, hnames₁, ← Names.after_append]
  rfl

namespace Setup

variable {c : Setup} {w : Workspace} {ids : List String} {p : Pass}

theorem names_opened (hc : c.book = .builtin) (hids : referencedVariables w.rootTrees = .ok ids)
    {b : Bool} (hrun : (c.opened w).run (c.start w) = (.ok b, p)) :
    p.names = (c.names w).after (c.options.declarationCalls ids) := by
  rw [opened, Render.run_bind_ok (Render.run_report _ _), runOpening, hc] at hrun
  obtain ⟨_, q, hdeclare, hpure⟩ := Render.run_bind_eq_ok hrun
  cases hpure
  exact names_declareVariables hids hdeclare

def AlwaysCalls (c : Setup) (w : Workspace) (p : Pass) (key identifier : String) : Prop :=
  ∀ log, (w.rootTrees.mapM (Tree.chain c)).Asks p log →
    ∀ block answer, .variable block answer ∈ log → block.variableKey = key → answer = identifier

theorem alwaysCalls_of_find? (hs : p.names.Sound) {key identifier : String}
    (hfind : p.names.find? key .variable = some identifier) : c.AlwaysCalls w p key identifier := by
  rintro log hasks block answer hmem rfl
  exact hasks.fits hs _ hmem identifier hfind

/--
A pass over a workspace, parted after its opening, with a naming of the developer's variables and of
those that blocks refer to. The names are declared in order, and the body goes by them.
-/
structure Opens (c : Setup) (w : Workspace) (ids : List String) (own name : String → String)
    (p : Pass) : Prop where
  referenced : referencedVariables w.rootTrees = .ok ids
  opened : (c.opened w).run (c.start w) = (.ok true, p)
  declared : declaredNames p.definitions = c.options.developer.map own ++ ids.map name
  definitions : ((c.program w).run (c.start w)).2.definitions = p.definitions
  asks : ∃ log, (w.rootTrees.mapM (Tree.chain c)).Asks p log
  calls : ∀ id ∈ ids, c.AlwaysCalls w p id (name id)

theorem opens_of_reaches (hc : c.book = .builtin) (hw : w.Acyclic)
    (hids : referencedVariables w.rootTrees = .ok ids)
    (hopened : (c.opened w).run (c.start w) = (.ok true, p)) (hs : p.names.Sound)
    {own used : List String} (hdeclares : p.Declares c.options.developer own ids used) {t : Names}
    (ht : p.names.Reaches t) :
    c.Opens w ids (fun name => (t.find? (developerKey name) .developer).getD "")
      (fun id => (t.find? id .variable).getD "") p := by
  have hown := eq_map_of_forall₂ (hdeclares.developer.imp fun _ _ => ht.find? hs)
  have hused := eq_map_of_forall₂ (hdeclares.referenced.imp fun _ _ => ht.find? hs)
  have honly : (w.rootTrees.mapM (Tree.chain c)).OnlyAsks fun _ => True :=
    Render.onlyAsks_chains hc fun t ht => ⟨hw.isWhole_rootTrees t ht, fun _ _ => trivial⟩
  obtain ⟨log, hasks, -⟩ := honly p
  obtain ⟨events, hprogram⟩ := run_program hopened (Prod.mk.eta ..).symm
  refine ⟨hids, hopened, ?_, ?_, ⟨log, hasks⟩, fun id hid => ?_⟩
  · rw [hdeclares.declaredNames_eq hs, ← hown.1, ← hused.1]
  · rw [hprogram]
    exact hasks.continues.definitions
  · -- The opening has a name for the variable, and the later table the same one.
    obtain ⟨-, hfind⟩ := eq_map_of_forall₂ hdeclares.referenced
    have hlater := ht.find? hs (hfind id hid)
    rw [hlater]
    exact alwaysCalls_of_find? hs (hfind id hid)

/--
More roots do not change the names of variables. The identifiers that are declared for the earlier
roots are the first ones that are declared for all roots together, and each variable of the earlier
roots goes by the same identifier in both programs.
-/
theorem declaredNames_withRoots (hc : c.book = .builtin) (hw : w.Acyclic) {more : List Nat}
    (hmore : ∀ i ∈ more, i < w.size) :
    ∃ ids extra own name p p', c.Opens w ids own name p ∧
      c.Opens (w.withRoots more) (ids ++ extra) own name p' ∧
      declaredNames p.definitions <+: declaredNames p'.definitions := by
  have hw' := hw.withRoots hmore
  have hwhole := hw'.isWhole_rootTrees
  rw [w.rootTrees_withRoots] at hwhole
  obtain ⟨ids, extra, hids, hids'⟩ := referencedVariables_append hwhole
  rw [← w.rootTrees_withRoots] at hids'
  obtain ⟨_, _, p, hopened, hs, hdeclares⟩ := run_opened hc hids
  obtain ⟨_, _, p', hopened', hs', hdeclares'⟩ := run_opened hc hids'
  have hreach : p.names.Reaches p'.names := by
    rw [names_opened hc hids hopened, names_opened hc hids' hopened']
    exact Names.reaches_declarationCalls_append _ _ ids extra
  have hopens := opens_of_reaches hc hw hids hopened hs hdeclares hreach
  have hopens' := opens_of_reaches hc hw' hids' hopened' hs' hdeclares' (.refl _)
  refine ⟨ids, extra, _, _, p, p', hopens, hopens', ?_⟩
  rw [hopens.declared, hopens'.declared, List.map_append, ← List.append_assoc]
  exact List.prefix_append _ _

theorem declaredNames_withRoots_loops :
    let get : Block :=
      { id := "g", type := "variables_get", fields := ⟨[("VAR", .variable "v")]⟩ }
    let loop : Block :=
      { id := "l", type := "controls_for", fields := ⟨[("VAR", .variable "v")]⟩,
        values := ⟨[("FROM", some 0), ("TO", some 0)]⟩ }
    let other : Block :=
      { id := "o", type := "controls_for", fields := ⟨[("VAR", .text "u")]⟩,
        values := ⟨[("FROM", some 0)]⟩, statements := ⟨[("DO", some 3)]⟩ }
    let count : Block :=
      { id := "c", type := "controls_repeat_ext", values := ⟨[("TIMES", some 0)]⟩ }
    let w : Workspace := {
      blocks := #[get, loop, other, count], roots := [1],
      variableNames := [("u", "count"), ("v", "count")] }
    let c : Setup := {}
    w.Acyclic ∧ (∀ i ∈ [2, 3], i < w.size) ∧ ∃ p p',
      (c.opened w).run (c.start w) = (.ok true, p) ∧
      (c.opened (w.withRoots [2, 3])).run (c.start (w.withRoots [2, 3])) = (.ok true, p') ∧
      p.definitions = [("variables", "let mut count;")] ∧
      p'.definitions = [("variables", "let (mut count, mut count2);")] ∧
      c.AlwaysCalls w p "v" "count" ∧ c.AlwaysCalls (w.withRoots [2, 3]) p' "v" "count" := by
  intro get loop other count w c
  have hw : w.Acyclic := Workspace.acyclic_of_rank (fun i => if i = 3 then 1 else i + i)
    (by decide) (by decide)
  have hmore : ∀ i ∈ [2, 3], i < w.size := by decide
  obtain ⟨ids, extra, own, name, p, p', hopens, hopens', -⟩ :=
    declaredNames_withRoots (c := c) rfl hw hmore
  have hp : ((c.opened w).run (c.start w)).2.definitions =
      [("variables", "let mut count;")] := by decide +kernel
  have hp' : ((c.opened (w.withRoots [2, 3])).run (c.start (w.withRoots [2, 3]))).2.definitions =
      [("variables", "let (mut count, mut count2);")] := by decide +kernel
  rw [hopens.opened] at hp
  rw [hopens'.opened] at hp'
  obtain rfl : ["v"] = ids := Except.ok.inj hopens.referenced
  have hname : ["count"] = [name "v"] := by
    have hnames : declaredNames p.definitions = ["count"] := by
      rw [hp]
      decide +kernel
    exact hnames.symm.trans hopens.declared
  have hv := hopens.calls "v" (by simp)
  have hv' := hopens'.calls "v" (by simp)
  rw [← List.singleton_inj.1 hname] at hv hv'
  exact ⟨hw, hmore, p, p', hopens.opened, hopens'.opened, hp, hp', hv, hv'⟩

end Setup

end BlockCode
