import BlockCode.Proofs.Declarations

namespace BlockCode

structure Names.Agree (keys : List String) (t t' : Names) : Prop where
  reserved : t.reserved = t'.reserved
  assigned : t.assigned = t'.assigned
  used : t.used = t'.used
  hints : ∀ key ∈ keys, t.hints.lookup key = t'.hints.lookup key

namespace Names.Agree

variable {keys : List String} {t t' t'' : Names}

theorem refl (t : Names) : t.Agree keys t := ⟨rfl, rfl, rfl, fun _ _ => rfl⟩

theorem symm (h : t.Agree keys t') : t'.Agree keys t :=
  ⟨h.reserved.symm, h.assigned.symm, h.used.symm, fun key hkey => (h.hints key hkey).symm⟩

theorem trans (h : t.Agree keys t') (h' : t'.Agree keys t'') : t.Agree keys t'' :=
  ⟨h.reserved.trans h'.reserved, h.assigned.trans h'.assigned, h.used.trans h'.used,
    fun key hkey => (h.hints key hkey).trans (h'.hints key hkey)⟩

theorem free (h : t.Agree keys t') (base : String) : t.free base = t'.free base := by
  have htaken : t.isTaken = t'.isTaken := by
    funext name
    rw [isTaken, isTaken, h.used, h.reserved]
  have hfrom : ∀ n k, t.freeFrom base n k = t'.freeFrom base n k := by
    intro n
    induction n with
    | zero => exact fun _ => rfl
    | succ n ih => exact fun k => by rw [freeFrom, freeFrom, htaken, ih]
  rw [Names.free, Names.free, htaken, hfrom, h.used, h.reserved]

theorem use (h : t.Agree keys t') (name : String) : (t.use name).Agree keys (t'.use name) :=
  ⟨h.reserved, h.assigned, congrArg (name :: ·) h.used, h.hints⟩

theorem resolve (h : t.Agree keys t') {key : String} (hkey : key ∈ keys) (category : Category) :
    (t.resolve key category).1 = (t'.resolve key category).1 ∧
      (t.resolve key category).2.Agree keys (t'.resolve key category).2 := by
  have hbase : t.base key category = t'.base key category := by
    rw [base, base, h.hints key hkey]
  rw [Names.resolve, Names.resolve, find?, find?, h.assigned, hbase, h.free]
  split
  · exact ⟨rfl, h⟩
  · exact ⟨rfl, { h.use _ with assigned := rfl }⟩

theorem distinct (h : t.Agree keys t') (hint : String) (category : Category) :
    (t.distinct hint category).1 = (t'.distinct hint category).1 ∧
      (t.distinct hint category).2.Agree keys (t'.distinct hint category).2 := by
  rw [Names.distinct, Names.distinct, h.free]
  exact ⟨rfl, h.use _⟩

end Names.Agree

/-- All that the code depends on is the same; the events are left out. -/
structure Pass.Agree (keys : List String) (p p' : Pass) : Prop where
  names : p.names.Agree keys p'.names
  definitions : p.definitions = p'.definitions
  loopDepth : p.loopDepth = p'.loopDepth

namespace Render

variable {α β : Type} {keys : List String}

def Agrees (keys : List String) (x y : Render α) : Prop :=
  ∀ p p', Pass.Agree keys p p' →
    (x.run p).1 = (y.run p').1 ∧ Pass.Agree keys (x.run p).2 (y.run p').2

theorem Agrees.symm {x y : Render α} (h : x.Agrees keys y) : y.Agrees keys x := by
  intro p p' hp
  obtain ⟨hresult, hpass⟩ := h p' p ⟨hp.names.symm, hp.definitions.symm, hp.loopDepth.symm⟩
  exact ⟨hresult.symm, hpass.names.symm, hpass.definitions.symm, hpass.loopDepth.symm⟩

theorem Agrees.trans {x y z : Render α} (h : x.Agrees keys y) (h' : y.Agrees keys z) :
    x.Agrees keys z := by
  intro p p' hp
  obtain ⟨hresult, hpass⟩ := h p p' hp
  obtain ⟨hresult', hpass'⟩ := h' p' p' ⟨.refl _, rfl, rfl⟩
  exact ⟨hresult.trans hresult', hpass.names.trans hpass'.names,
    hpass.definitions.trans hpass'.definitions, hpass.loopDepth.trans hpass'.loopDepth⟩

theorem Agrees.bind {x y : Render α} {f g : α → Render β} (h : x.Agrees keys y)
    (h' : ∀ a, (f a).Agrees keys (g a)) : (x >>= f).Agrees keys (y >>= g) := by
  intro p p' hp
  obtain ⟨hresult, hpass⟩ := h p p' hp
  rw [run_bind, run_bind]
  generalize x.run p = r, y.run p' = r' at hresult hpass
  obtain ⟨result, q⟩ := r
  obtain ⟨result', q'⟩ := r'
  cases hresult
  cases result with
  | error e => exact ⟨rfl, hpass⟩
  | ok a => exact h' a q q' hpass

theorem agrees_pure (a : α) : (pure a : Render α).Agrees keys (pure a) := fun _ _ hp => ⟨rfl, hp⟩

theorem agrees_report (e e' : Event) : (report e).Agrees keys (report e') :=
  fun _ _ hp => ⟨rfl, hp.names, hp.definitions, hp.loopDepth⟩

theorem agrees_define (key code : String) : (define key code).Agrees keys (define key code) :=
  fun _ _ hp => ⟨rfl, hp.names, congrArg (putDefinition key code) hp.definitions, hp.loopDepth⟩

theorem agrees_nameFor {key : String} (hkey : key ∈ keys) (category : Category) :
    (nameFor key category).Agrees keys (nameFor key category) := by
  intro p p' hp
  obtain ⟨events, hrun⟩ := run_nameFor key category p
  obtain ⟨events', hrun'⟩ := run_nameFor key category p'
  obtain ⟨hname, hnames⟩ := hp.names.resolve hkey category
  rw [hrun, hrun']
  exact ⟨congrArg Except.ok hname, hnames, hp.definitions, hp.loopDepth⟩

theorem agrees_asLoopBody {x y : Render α} (h : x.Agrees keys y) :
    x.asLoopBody.Agrees keys y.asLoopBody := by
  intro p p' hp
  obtain ⟨hresult, hpass⟩ := h { p with loopDepth := p.loopDepth + 1 }
    { p' with loopDepth := p'.loopDepth + 1 }
    ⟨hp.names, hp.definitions, congrArg (· + 1) hp.loopDepth⟩
  change (x _).1 = (y _).1 at hresult
  change Pass.Agree keys (x _).2 (y _).2 at hpass
  change (asLoopBody x p).1 = (asLoopBody y p').1 ∧
    Pass.Agree keys (asLoopBody x p).2 (asLoopBody y p').2
  unfold asLoopBody
  generalize x { p with loopDepth := p.loopDepth + 1 } = r,
    y { p' with loopDepth := p'.loopDepth + 1 } = r' at hresult hpass ⊢
  obtain ⟨result, q⟩ := r
  obtain ⟨result', q'⟩ := r'
  cases hresult
  dsimp only
  split
  · exact ⟨rfl, hpass⟩
  · exact ⟨rfl, hpass.names, hpass.definitions, congrArg (· - 1) hpass.loopDepth⟩

theorem agrees_kept (keys : List String) :
    Kept (fun h => h.variableKey ∈ keys) (Agrees keys) where
  pure := agrees_pure
  bind := .bind
  throw e _ := fun _ _ hp => ⟨rfl, hp⟩
  report e := agrees_report e e
  variableName h hkey := agrees_nameFor hkey .variable
  distinctName hint := fun p p' hp => by
    obtain ⟨hname, hnames⟩ := hp.names.distinct hint .variable
    exact ⟨congrArg Except.ok hname, hnames, hp.definitions, hp.loopDepth⟩
  inLoop := fun p p' hp => ⟨congrArg (fun n => Except.ok (decide (0 < n))) hp.loopDepth, hp⟩
  asLoopBody := agrees_asLoopBody

end Render

namespace Tree

mutual

theorem references_visible : ∀ t : Tree, t.visible.references = t.references
  | .missing | .endless => rfl
  | .block head values statements next => by
    rw [visible]
    split
    · next hd =>
      have hhidden : Head.hidden.disabled = true := rfl
      rw [references, references, if_pos hhidden, if_pos hd, linkReferences_visible]
    · rw [references, references, inputReferences_visible, inputReferences_visible,
        linkReferences_visible]

theorem inputReferences_visible : ∀ vs : List (String × Option Tree),
    inputReferences (visibleInputs vs) = inputReferences vs
  | [] => rfl
  | (_, link) :: rest => by
    rw [visibleInputs, inputReferences, inputReferences, linkReferences_visible,
      inputReferences_visible]

theorem linkReferences_visible : ∀ link : Option Tree,
    linkReferences (visibleLink link) = linkReferences link
  | none => rfl
  | some t => references_visible t

end

end Tree

theorem referencedVariables_visible (roots : List Tree) :
    referencedVariables (roots.map Tree.visible) = referencedVariables roots := by
  have hmap : Tree.references ∘ Tree.visible = Tree.references := funext Tree.references_visible
  rw [referencedVariables_eq, referencedVariables_eq, List.mapM_map, hmap]

theorem Head.variableKey_mem {h : Head} {ids : List String} (hids : h.references ⊆ ids) :
    h.variableKey ∈ "" :: ids := by
  cases hfield : h.field? "VAR" with
  | none => simp [variableKey, fieldText?, hfield]
  | some f =>
    have hkey : h.variableKey = f.toText := by simp [variableKey, fieldText?, hfield]
    exact hkey ▸ List.mem_cons_of_mem _ (hids (mem_references hfield))

open Render in
theorem agrees_declareVariables {keys ids : List String} {options : Options}
    {roots roots' : List Tree} (hids : referencedVariables roots = .ok ids)
    (hids' : referencedVariables roots' = .ok ids) (hkeys : ids ⊆ keys)
    (hdeveloper : options.developer.map developerKey ⊆ keys) :
    (declareVariables options roots).Agrees keys (declareVariables options roots') := by
  have hkept := agrees_kept keys
  simp only [declareVariables, hids, hids', declareVariables.liftExcept, pure_bind]
  refine .bind (hkept.mapM fun name hname =>
    agrees_nameFor (hdeveloper (List.mem_map_of_mem hname)) _) fun own => ?_
  refine .bind (hkept.mapM fun id hid => agrees_nameFor (hkeys hid) _) fun used => ?_
  split
  · exact agrees_define _ _
  · exact agrees_pure ()

def Workspace.variableName? (w : Workspace) (id : String) : Option String :=
  w.variableNames.reverse.lookup id

namespace Setup

variable {c : Setup} {w w' : Workspace} {ids : List String}

def keys (c : Setup) (ids : List String) : List String :=
  "" :: ids ++ c.options.developer.map developerKey

theorem agree_start (hnames : ∀ id ∈ "" :: ids, w.variableName? id = w'.variableName? id) :
    (c.start w).Agree (c.keys ids) (c.start w') := by
  have hhints : ∀ key ∈ c.keys ids,
      (c.names w).hints.lookup key = (c.names w').hints.lookup key := by
    intro key hkey
    rw [names_eq, names_eq, List.lookup_append, List.lookup_append]
    rcases List.mem_append.1 hkey with hkey | hkey
    · exact congrArg _ (hnames key hkey)
    · -- A developer's own variable has its hint from the options.
      cases hlookup : List.lookup key
          (c.options.developer.map fun name => (developerKey name, name)).reverse with
      | some hint => rfl
      | none =>
        obtain ⟨name, hname, rfl⟩ := List.mem_map.1 hkey
        have hmem : (developerKey name, name) ∈
            (c.options.developer.map fun name => (developerKey name, name)).reverse := by
          simpa using hname
        simpa using List.lookup_eq_none_iff.1 hlookup _ hmem
  exact ⟨⟨by simp [start, names_eq], by simp [start, names_eq], by simp [start, names_eq], hhints⟩,
    rfl, rfl⟩

theorem agrees_chains (hc : c.book = .builtin) (hw : w.Acyclic)
    (hids : referencedVariables w.rootTrees = .ok ids) :
    (w.rootTrees.mapM (Tree.chain c)).Agrees (c.keys ids)
      ((w.rootTrees.map Tree.visible).mapM (Tree.chain c)) := by
  have hwhole := hw.isWhole_rootTrees
  obtain ⟨ids', hids', -, henabled⟩ := referencedVariables_enabled hwhole
  cases hids.symm.trans hids'
  rw [List.mapM_map]
  refine (Render.agrees_kept _).mapM fun t ht => Tree.kept_chain (Render.agrees_kept _) hc t
    ⟨hwhole t ht, fun h hh => ?_⟩
  exact List.mem_append_left _
    (Head.variableKey_mem (henabled h (List.mem_flatMap.2 ⟨t, ht, hh⟩)))

theorem agrees_program (hc : c.book = .builtin) (hw : w.Acyclic) (hw' : w'.Acyclic)
    (htrees : w.rootTrees.map Tree.visible = w'.rootTrees.map Tree.visible)
    (hids : referencedVariables w.rootTrees = .ok ids) :
    (c.program w).Agrees (c.keys ids) (c.program w') := by
  have hids' : referencedVariables w'.rootTrees = .ok ids := by
    rw [← referencedVariables_visible, ← htrees, referencedVariables_visible, hids]
  have hopening : (c.runOpening w).Agrees (c.keys ids) (c.runOpening w') := by
    rw [runOpening, runOpening, hc]
    exact .bind (agrees_declareVariables hids hids' (by simp [keys]) (by simp [keys]))
      fun _ => Render.agrees_pure true
  have hchains : (w.rootTrees.mapM (Tree.chain c)).Agrees (c.keys ids)
      (w'.rootTrees.mapM (Tree.chain c)) :=
    (agrees_chains hc hw hids).trans (htrees ▸ (agrees_chains hc hw' hids').symm)
  refine .bind (Render.agrees_report _ _) fun _ => .bind hopening fun _ =>
    .bind hchains fun parts p p' hp => ?_
  refine ⟨?_, hp.names, hp.definitions, hp.loopDepth⟩
  exact congrArg (fun definitions => Except.ok (assemble definitions (String.join parts)))
    hp.definitions

/--
Workspaces that unfold to the same trees, apart from the inside of disabled blocks, have the same
code or the same fault, if their variables have the same names.
-/
theorem generate_eq_of_visible (hc : c.book = .builtin) (hw : w.Acyclic) (hw' : w'.Acyclic)
    (htrees : w.rootTrees.map Tree.visible = w'.rootTrees.map Tree.visible)
    (hids : referencedVariables w.rootTrees = .ok ids)
    (hnames : ∀ id ∈ "" :: ids, w.variableName? id = w'.variableName? id) :
    c.generate w = c.generate w' :=
  (agrees_program hc hw hw' htrees hids _ _ (agree_start hnames)).1

theorem generate_eq_shared_copied :
    let value : Block :=
      { id := "v", type := "variables_get", fields := ⟨[("VAR", .variable "x")]⟩ }
    let print (i : Nat) (next : Option Nat) : Block :=
      { id := "p", type := "text_print", values := ⟨[("TEXT", some i)]⟩, next }
    let off (type : String) (i : Nat) : Block :=
      { id := type, type, disabled := true, next := some i }
    let w : Workspace := {
      blocks := #[value, print 0 none, off "math_change" 1, print 0 (some 2)]
      roots := [3], variableNames := [("x", "a"), ("y", "b")] }
    let w' : Workspace := {
      blocks := #[print 4 (some 1), off "logic_null" 2, print 3 none, value, value, off "text" 0]
      roots := [0], variableNames := [("x", "a")] }
    let c : Setup := {}
    w.Acyclic ∧ w'.Acyclic ∧ w ≠ w' ∧ c.generate w = c.generate w' := by
  intro value print off w w' c
  have hw : w.Acyclic := Workspace.acyclic_of_rank id (by decide) (by decide)
  have hw' : w'.Acyclic := Workspace.acyclic_of_rank (fun i => if i = 5 then 6 else 5 - i)
    (by decide) (by decide)
  have htrees : w.rootTrees.map Tree.visible = w'.rootTrees.map Tree.visible := by cbv
  have hids : referencedVariables w.rootTrees = .ok ["x"] := rfl
  exact ⟨hw, hw', by decide, generate_eq_of_visible (c := c) rfl hw hw' htrees hids (by decide)⟩

end Setup

end BlockCode
