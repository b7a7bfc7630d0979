import BlockCode.Proofs.Workspaces

namespace BlockCode

/-- The second pass comes after the first one: names are only added, and definitions are kept. -/
structure Pass.Continues (p p' : Pass) : Prop where
  names : p.names.Reaches p'.names
  definitions : p'.definitions = p.definitions

theorem Pass.Continues.refl (p : Pass) : p.Continues p := ⟨.refl _, rfl⟩

theorem Pass.Continues.trans {p p' p'' : Pass} (h : p.Continues p') (h' : p'.Continues p'') :
    p.Continues p'' :=
  ⟨h.names.trans h'.names, h'.definitions.trans h.definitions⟩

namespace Render

theorem continues_nameFor (key : String) (category : Category) (p : Pass) :
    p.Continues ((nameFor key category).run p).2 := by
  obtain ⟨events, hrun⟩ := run_nameFor key category p
  rw [hrun]
  exact ⟨p.names.reaches_call (c := .resolve key category) (by simp), rfl⟩

theorem continues_distinctName (hint : String) (category : Category) (p : Pass) :
    p.Continues ((distinctName hint category).run p).2 :=
  ⟨p.names.reaches_call (c := .distinct hint category) (by simp), rfl⟩

theorem snd_run_asLoopBody {α : Type} (act : Render α) (p : Pass) :
    ∃ depth, (act.asLoopBody.run p).2 =
      { (act.run { p with loopDepth := p.loopDepth + 1 }).2 with loopDepth := depth } := by
  change ∃ depth, (asLoopBody act p).2 = { (act _).2 with loopDepth := depth }
  unfold asLoopBody
  cases act { p with loopDepth := p.loopDepth + 1 } with
  | mk result p' =>
    dsimp only
    split <;> exact ⟨_, rfl⟩

theorem continues_asLoopBody {α : Type} {act : Render α} {p : Pass}
    (h : Pass.Continues { p with loopDepth := p.loopDepth + 1 }
      (act.run { p with loopDepth := p.loopDepth + 1 }).2) :
    p.Continues (act.asLoopBody.run p).2 := by
  obtain ⟨depth, hpass⟩ := snd_run_asLoopBody act p
  rw [hpass]
  exact ⟨h.names, h.definitions⟩

end Render

inductive Request where
  | variable (block : Head) (name : String)
  | temporary (name : String)

namespace Render

inductive Asks : {α : Type} → Render α → Pass → List Request → Prop
  | pure {α : Type} (a : α) (p : Pass) : Asks (pure a) p []
  | throw {α : Type} (e : Fault) (p : Pass) : Asks (throw e : Render α) p []
  | report (e : Event) (p : Pass) : Asks (report e) p []
  | inLoop (p : Pass) : Asks inLoop p []
  | variable (block : Head) {name : String} {p p' : Pass} :
    (nameFor block.variableKey .variable).run p = (.ok name, p') →
    Asks (nameFor block.variableKey .variable) p [.variable block name]
  | temporary {hint name : String} {p p' : Pass} :
    (distinctName hint .variable).run p = (.ok name, p') →
    Asks (distinctName hint .variable) p [.temporary name]
  | bind {α β : Type} {x : Render α} {f : α → Render β} {p p' : Pass} {a : α}
    {log log' : List Request} :
    Asks x p log → x.run p = (.ok a, p') → Asks (f a) p' log' → Asks (x >>= f) p (log ++ log')
  | abort {α β : Type} {x : Render α} {f : α → Render β} {p p' : Pass} {e : Fault}
    {log : List Request} :
    Asks x p log → x.run p = (.error e, p') → Asks (x >>= f) p log
  | asLoopBody {α : Type} {act : Render α} {p : Pass} {log : List Request} :
    Asks act { p with loopDepth := p.loopDepth + 1 } log → Asks act.asLoopBody p log

theorem Asks.continues {α : Type} {act : Render α} {p : Pass} {log : List Request}
    (h : act.Asks p log) : p.Continues (act.run p).2 := by
  induction h with
  | pure a p => exact .refl p
  | throw e p => exact .refl p
  | report e p => exact ⟨.refl _, rfl⟩
  | inLoop p => exact .refl p
  | «variable» block hrun => exact continues_nameFor _ _ _
  | temporary hrun => exact continues_distinctName _ _ _
  | bind hx hrun hf ihx ihf =>
    rw [run_bind_ok hrun]
    rw [hrun] at ihx
    exact ihx.trans ihf
  | abort hx hrun ihx =>
    rw [run_bind, hrun]
    rw [hrun] at ihx
    exact ihx
  | asLoopBody hact ih => exact continues_asLoopBody ih

end Render

/-- The answer is right for a table: a known variable has its name, and a new name is not in use. -/
def Request.Fits (t : Names) : Request → Prop
  | .variable block name => ∀ known, t.find? block.variableKey .variable = some known → name = known
  | .temporary name => name ∉ t.used

theorem Request.Fits.of_reaches {t t' : Names} (hs : t.Sound) (h : t.Reaches t') {r : Request}
    (hr : r.Fits t') : r.Fits t := by
  cases r with
  | «variable» block name => exact fun known hknown => hr known (h.find? hs hknown)
  | temporary name => exact fun hmem => hr (h.used_subset hmem)

namespace Render

theorem Asks.fits {α : Type} {act : Render α} {p : Pass} {log : List Request} (h : act.Asks p log)
    (hs : p.names.Sound) : ∀ r ∈ log, r.Fits p.names := by
  induction h with
  | pure a p => simp
  | throw e p => simp
  | report e p => simp
  | inLoop p => simp
  | @«variable» block name p p' hrun =>
    rw [List.forall_mem_singleton]
    intro known hknown
    obtain ⟨events, hname⟩ := run_nameFor block.variableKey .variable p
    rw [hname, Names.resolve_of_find hknown] at hrun
    cases hrun
    rfl
  | temporary hrun =>
    rw [List.forall_mem_singleton]
    cases hrun
    exact Names.free_not_mem_used _ _
  | bind hx hrun hf ihx ihf =>
    have hreach := hx.continues.names
    rw [hrun] at hreach
    rw [List.forall_mem_append]
    exact ⟨ihx hs, fun r hr => (ihf (hreach.sound hs) r hr).of_reaches hs hreach⟩
  | abort hx hrun ihx => exact ihx hs
  | asLoopBody hact ih => exact ih hs

def OnlyAsks {α : Type} (allowed : Head → Prop) (act : Render α) : Prop :=
  ∀ p, ∃ log, act.Asks p log ∧ ∀ block name, .variable block name ∈ log → allowed block

theorem OnlyAsks.bind {α β : Type} {allowed : Head → Prop} {x : Render α} {f : α → Render β}
    (hx : x.OnlyAsks allowed) (hf : ∀ a, (f a).OnlyAsks allowed) : (x >>= f).OnlyAsks allowed := by
  intro p
  obtain ⟨log, hasks, hlog⟩ := hx p
  cases hrun : x.run p with
  | mk r p' =>
    cases r with
    | error e => exact ⟨log, .abort hasks hrun, hlog⟩
    | ok a =>
      obtain ⟨log', hasks', hlog'⟩ := hf a p'
      refine ⟨log ++ log', .bind hasks hrun hasks', fun block name hmem => ?_⟩
      rcases List.mem_append.1 hmem with hmem | hmem
      · exact hlog block name hmem
      · exact hlog' block name hmem

theorem onlyAsks_kept (allowed : Head → Prop) :
    Kept allowed fun act _ => act.OnlyAsks allowed where
  pure a := fun p => ⟨[], .pure a p, by simp⟩
  bind := .bind
  throw e _ := fun p => ⟨[], .throw e p, by simp⟩
  report e := fun p => ⟨[], .report e p, by simp⟩
  variableName block hblock := fun p => by
    obtain ⟨events, hrun⟩ := run_nameFor block.variableKey .variable p
    refine ⟨_, .variable block hrun, fun block' name hmem => ?_⟩
    simp only [List.mem_singleton, Request.variable.injEq] at hmem
    exact hmem.1 ▸ hblock
  distinctName hint := fun p => ⟨_, .temporary rfl, by simp⟩
  inLoop := fun p => ⟨[], .inLoop p, by simp⟩
  asLoopBody h := fun p => by
    obtain ⟨log, hasks, hlog⟩ := h { p with loopDepth := p.loopDepth + 1 }
    exact ⟨log, .asLoopBody hasks, hlog⟩

theorem onlyAsks_chains {allowed : Head → Prop} {c : Setup} (hc : c.book = .builtin)
    {roots : List Tree} (h : ∀ t ∈ roots, t.Every allowed) :
    (roots.mapM (Tree.chain c)).OnlyAsks allowed :=
  (onlyAsks_kept allowed).mapM (g := Tree.chain c ∘ Tree.visible) fun t ht =>
    Tree.kept_chain (onlyAsks_kept allowed) hc t (h t ht)

end Render

theorem Names.answers_append (t : Names) (before calls : List Call) :
    t.answers (before ++ calls) = t.answers before ++ (t.after before).answers calls := by
  induction before generalizing t with
  | nil => rfl
  | cons c cs ih =>
    rw [List.cons_append, answers, answers, after, ih]
    split <;> rfl

namespace Request

def name : Request → String
  | .variable _ name => name
  | .temporary name => name

def owner? : Request → Option (Category × String)
  | .variable block _ => some (.variable, block.variableKey)
  | .temporary _ => none

end Request

namespace Render

theorem Asks.calls {α : Type} {act : Render α} {p : Pass} {log : List Request}
    (h : act.Asks p log) : ∃ calls, Names.Call.reset ∉ calls ∧
      (act.run p).2.names = p.names.after calls ∧
      ((p.names.answers calls).map fun a => (a.1.owner?, a.2)) =
        log.map fun r => (r.owner?, r.name) := by
  induction h with
  | pure a p => exact ⟨[], by simp, rfl, rfl⟩
  | throw e p => exact ⟨[], by simp, rfl, rfl⟩
  | report e p => exact ⟨[], by simp, rfl, rfl⟩
  | inLoop p => exact ⟨[], by simp, rfl, rfl⟩
  | @«variable» block name p p' hrun =>
    obtain ⟨events, hname⟩ := run_nameFor block.variableKey .variable p
    rw [hname] at hrun ⊢
    cases hrun
    exact ⟨[.resolve block.variableKey .variable], by simp, rfl, rfl⟩
  | @temporary hint name p p' hrun =>
    cases hrun
    exact ⟨[.distinct hint .variable], by simp, rfl, rfl⟩
  | bind hx hrun hf ihx ihf =>
    obtain ⟨calls, hcalls, hnames, hlog⟩ := ihx
    obtain ⟨calls', hcalls', hnames', hlog'⟩ := ihf
    rw [hrun] at hnames
    rw [hnames] at hnames' hlog'
    refine ⟨calls ++ calls', by simp [hcalls, hcalls'], ?_, ?_⟩
    · rw [run_bind_ok hrun, hnames', Names.after_append]
    · rw [Names.answers_append, List.map_append, List.map_append, hlog, hlog']
  | abort hx hrun ihx =>
    rw [hrun] at ihx
    rw [run_bind, hrun]
    exact ihx
  | @asLoopBody _ act p log hact ih =>
    obtain ⟨depth, hpass⟩ := snd_run_asLoopBody act p
    rw [hpass]
    exact ih

theorem Asks.apart {α : Type} {act : Render α} {p : Pass} {log : List Request}
    (h : act.Asks p log) (hs : p.names.Sound) : log.Pairwise fun r r' =>
      r.name = r'.name ↔ ∃ k, r.owner? = some k ∧ r'.owner? = some k := by
  obtain ⟨calls, hcalls, -, hlog⟩ := h.calls
  let Different (a b : Option (Category × String) × String) : Prop :=
    a.2 = b.2 ↔ ∃ k, a.1 = some k ∧ b.1 = some k
  have hanswers : ((p.names.answers calls).map fun a => (a.1.owner?, a.2)).Pairwise Different :=
    List.pairwise_map.2 (Names.answers_pairwise hs hcalls)
  rw [hlog] at hanswers
  exact List.pairwise_map.1 hanswers

theorem Asks.temporaries {α : Type} {act : Render α} {p : Pass} {before after : List Request}
    {names : List String} (h : act.Asks p (before ++ names.map .temporary ++ after))
    (hs : p.names.Sound) : names.Nodup ∧
      ∀ name ∈ names, name ∉ p.names.used ∧ ∀ r ∈ before ++ after, r.name ≠ name := by
  have hdifferent := h.apart hs
  simp only [List.pairwise_append, List.pairwise_map, List.forall_mem_append, List.mem_map,
    forall_exists_index, and_imp, forall_apply_eq_imp_iff₂] at hdifferent
  obtain ⟨⟨-, hnames, hbefore⟩, -, hafter⟩ := hdifferent
  refine ⟨hnames.imp fun hiff heq => ?_, fun name hname => ⟨?_, ?_⟩⟩
  · obtain ⟨k, hk, -⟩ := hiff.1 heq
    cases hk
  · exact h.fits hs (.temporary name) (by simp [hname])
  · refine List.forall_mem_append.2 ⟨fun r hr heq => ?_, fun r hr heq => ?_⟩
    · obtain ⟨k, -, hk⟩ := (hbefore r hr name hname).1 heq
      cases hk
    · obtain ⟨k, hk, -⟩ := (hafter.2 name hname r hr).1 heq.symm
      cases hk

end Render

end BlockCode
