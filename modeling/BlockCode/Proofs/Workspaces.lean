import BlockCode.Proofs.References

namespace BlockCode

def ByName.links (m : ByName (Option Nat)) : List Nat := m.entries.flatMap fun e => e.2.toList

def Block.links (b : Block) : List Nat := b.values.links ++ b.statements.links ++ b.next.toList

namespace Workspace

def targets (w : Workspace) : List Nat := w.roots ++ w.blocks.toList.flatMap Block.links

structure WellFormed (w : Workspace) : Prop where
  roots_lt : ∀ i ∈ w.roots, i < w.size
  links_lt : ∀ (i : Nat) (b : Block), w.blocks[i]? = some b → ∀ j ∈ b.links, j < i
  targets_nodup : w.targets.Nodup

def LinksTo (w : Workspace) (i j : Nat) : Prop := ∃ b, w.blocks[i]? = some b ∧ j ∈ b.links

structure Acyclic (w : Workspace) : Prop where
  roots_lt : ∀ i ∈ w.roots, i < w.size
  links_lt : ∀ i j, w.LinksTo i j → j < w.size
  acyclic : ∀ i, ¬ Relation.TransGen w.LinksTo i i

theorem LinksTo.lt_size {w : Workspace} {i j : Nat} (h : w.LinksTo i j) : i < w.size := by
  obtain ⟨b, hb, -⟩ := h
  exact (Array.getElem?_eq_some_iff.1 hb).1

theorem acyclic_of_rank {w : Workspace} (rank : Nat → Nat) (hroots : ∀ i ∈ w.roots, i < w.size)
    (hlinks : ∀ e ∈ w.blocks.toList.zipIdx, ∀ j ∈ e.1.links, j < w.size ∧ rank j < rank e.2) :
    w.Acyclic := by
  have hlink : ∀ i j, w.LinksTo i j → j < w.size ∧ rank j < rank i := by
    rintro i j ⟨b, hb, hj⟩
    have hmem : (b, i) ∈ w.blocks.toList.zipIdx := by
      rw [List.mk_mem_zipIdx_iff_getElem?, Array.getElem?_toList]
      exact hb
    exact hlinks (b, i) hmem j hj
  refine ⟨hroots, fun i j hij => (hlink i j hij).1, fun i hi => lt_irrefl (rank i) ?_⟩
  have hdown : ∀ j, Relation.TransGen w.LinksTo i j → rank j < rank i := by
    intro j hj
    induction hj with
    | single hij => exact (hlink _ _ hij).2
    | tail _ hij ih => exact (hlink _ _ hij).2.trans ih
  exact hdown i hi

theorem WellFormed.acyclic {w : Workspace} (h : w.WellFormed) : w.Acyclic := by
  refine acyclic_of_rank id h.roots_lt fun e he j hj => ?_
  obtain ⟨b, i⟩ := e
  rw [List.mk_mem_zipIdx_iff_getElem?, Array.getElem?_toList] at he
  have hji := h.links_lt i b he j hj
  exact ⟨hji.trans (LinksTo.lt_size ⟨b, he, hj⟩), hji⟩

theorem areWhole_map {w : Workspace} {n : Nat} {m : ByName (Option Nat)}
    (h : ∀ j ∈ m.links, (w.unfold n j).isWhole = true) :
    Tree.areWhole (m.entries.map fun (name, link) => (name, link.map (w.unfold n))) = true := by
  obtain ⟨entries⟩ := m
  simp only [ByName.links] at h ⊢
  induction entries with
  | nil => rfl
  | cons e es ih =>
    obtain ⟨name, link⟩ := e
    rw [List.flatMap_cons, List.forall_mem_append] at h
    simp only [List.map_cons, Tree.areWhole, Bool.and_eq_true]
    refine ⟨?_, ih h.2⟩
    cases link with
    | none => rfl
    | some j => exact h.1 j (by simp)

theorem Acyclic.isWhole_unfold {w : Workspace} (h : w.Acyclic) {n i : Nat} {above : List Nat}
    (hnodup : above.Nodup) (habove : ∀ a ∈ above, Relation.TransGen w.LinksTo a i)
    (hi : i < w.size) (hn : w.size ≤ n + above.length) : (w.unfold n i).isWhole = true := by
  have hpath : (i :: above).Nodup :=
    List.nodup_cons.2 ⟨fun hmem => h.acyclic i (habove i hmem), hnodup⟩
  induction n generalizing i above with
  | zero =>
    -- The positions above are all different: there are fewer of them than there are blocks.
    have hsub : i :: above ⊆ List.range w.size := by
      intro a ha
      rw [List.mem_range]
      rcases List.mem_cons.1 ha with rfl | ha
      · exact hi
      · obtain ⟨j, hj, -⟩ := Relation.TransGen.head'_iff.1 (habove a ha)
        exact hj.lt_size
    have hlength := (hpath.subperm hsub).length_le
    simp only [List.length_cons, List.length_range] at hlength
    omega
  | succ n ih =>
    have hlink : ∀ j ∈ (w.blocks[i]).links, (w.unfold n j).isWhole = true := fun j hj => by
      have hij : w.LinksTo i j := ⟨_, Array.getElem?_eq_getElem hi, hj⟩
      have habove' : ∀ a ∈ i :: above, Relation.TransGen w.LinksTo a j :=
        List.forall_mem_cons.2 ⟨.single hij, fun a ha => (habove a ha).tail hij⟩
      have hj : j ∉ i :: above := fun hmem => h.acyclic j (habove' j hmem)
      refine ih hpath habove' (h.links_lt i j hij) ?_ (List.nodup_cons.2 ⟨hj, hpath⟩)
      rw [List.length_cons]
      omega
    simp only [Block.links, List.mem_append] at hlink
    rw [unfold, Array.getElem?_eq_getElem hi]
    simp only [Tree.isWhole, Bool.and_eq_true]
    refine ⟨⟨areWhole_map fun j hj => hlink j (.inl (.inl hj)),
      areWhole_map fun j hj => hlink j (.inl (.inr hj))⟩, ?_⟩
    cases hnext : w.blocks[i].next with
    | none => rfl
    | some j => exact hlink j (.inr (by simp [hnext]))

theorem Acyclic.isWhole_rootTrees {w : Workspace} (h : w.Acyclic) :
    ∀ t ∈ w.rootTrees, t.isWhole = true := by
  intro t ht
  obtain ⟨i, hi, rfl⟩ := List.mem_map.1 ht
  exact h.isWhole_unfold .nil (by simp) (h.roots_lt i hi) (by simp)

theorem WellFormed.isWhole_rootTrees {w : Workspace} (h : w.WellFormed) :
    ∀ t ∈ w.rootTrees, t.isWhole = true :=
  h.acyclic.isWhole_rootTrees

end Workspace

namespace Render

/-- The action never fails because of a link that leads nowhere or in a circle. -/
def Safe {α : Type} (act : Render α) : Prop :=
  ∀ p e, (act.run p).1 = .error e → e.isOfLinks = false

theorem Safe.bind {α β : Type} {x : Render α} {f : α → Render β} (hx : x.Safe)
    (hf : ∀ a, (f a).Safe) : (x >>= f).Safe := by
  intro p e h
  rw [run_bind] at h
  have hx := hx p
  generalize x.run p = r at h hx
  obtain ⟨e' | a, p'⟩ := r
  · exact hx e (by simpa using h)
  · exact hf a p' e h

theorem Safe.of_ok {α : Type} {act : Render α} (h : ∀ p, ∃ a, (act.run p).1 = .ok a) :
    act.Safe := by
  intro p e he
  obtain ⟨a, ha⟩ := h p
  rw [ha] at he
  cases he

theorem safe_nameFor (key : String) (category : Category) : (nameFor key category).Safe :=
  .of_ok fun p => by
    obtain ⟨events, hrun⟩ := run_nameFor key category p
    exact ⟨_, congrArg Prod.fst hrun⟩

theorem fst_run_asLoopBody {α : Type} (act : Render α) (p : Pass) :
    (act.asLoopBody.run p).1 = (act.run { p with loopDepth := p.loopDepth + 1 }).1 := by
  change (asLoopBody act p).1 = (act _).1
  unfold asLoopBody
  split
  split <;> simp_all

theorem safe_kept : Kept (fun _ => True) fun act _ => act.Safe where
  pure a := .of_ok fun p => ⟨a, rfl⟩
  bind := .bind
  throw e he := fun p e' h => by
    cases h
    exact he
  report e := .of_ok fun p => ⟨(), rfl⟩
  variableName h _ := safe_nameFor _ _
  distinctName hint := .of_ok fun p => ⟨_, rfl⟩
  inLoop := .of_ok fun p => ⟨_, rfl⟩
  asLoopBody h := fun p e he => h _ e ((fst_run_asLoopBody _ p) ▸ he)

theorem Safe.mapM {α β : Type} {f : α → Render β} {as : List α} (h : ∀ a ∈ as, (f a).Safe) :
    (as.mapM f).Safe :=
  safe_kept.mapM (g := f) h

end Render

open Render in
theorem declareVariables_safe (options : Options) {roots : List Tree}
    (h : ∀ t ∈ roots, t.isWhole = true) : (declareVariables options roots).Safe := by
  obtain ⟨ids, hids⟩ := referencedVariables_ok h
  unfold declareVariables
  refine .bind (.mapM fun _ _ => safe_nameFor _ _) fun own => ?_
  simp only [hids]
  refine .bind (safe_kept.pure ids) fun _ =>
    .bind (.mapM fun _ _ => safe_nameFor _ _) fun used => ?_
  split
  · exact .of_ok fun p => ⟨(), rfl⟩
  · exact safe_kept.pure ()

open Render in
theorem Setup.program_safe {c : Setup} (hc : c.book = .builtin) {w : Workspace}
    (h : ∀ t ∈ w.rootTrees, t.isWhole = true) : (c.program w).Safe := by
  have hopening : (c.runOpening w).Safe := by
    rw [Setup.runOpening, hc]
    exact .bind (declareVariables_safe c.options h) fun _ => safe_kept.pure true
  refine .bind (safe_kept.report _) fun _ => .bind hopening fun _ =>
    .bind (.mapM fun t ht => Tree.kept_chain safe_kept hc t
      ⟨h t ht, fun _ _ => trivial⟩) fun _ => ?_
  exact .bind (.of_ok fun p => ⟨p, rfl⟩) fun _ =>
    .bind (safe_kept.report _) fun _ => safe_kept.pure _

theorem Setup.generate_safe {c : Setup} (hc : c.book = .builtin) {w : Workspace}
    (h : ∀ t ∈ w.rootTrees, t.isWhole = true) {e : Fault} (he : c.generate w = .error e) :
    e.isOfLinks = false :=
  c.program_safe hc h _ e he

end BlockCode
