import BlockCode.Proofs.Traversal

namespace BlockCode

namespace Tree

mutual

def references : Tree → Except Fault (List String)
  | .missing => .error .missingBlock
  | .endless => .error .endless
  | .block head values statements next => do
    if head.disabled then linkReferences next
    else
      let inside ← inputReferences values
      let below ← inputReferences statements
      return head.references ++ inside ++ below ++ (← linkReferences next)

def inputReferences : List (String × Option Tree) → Except Fault (List String)
  | [] => return []
  | (_, link) :: rest => return (← linkReferences link) ++ (← inputReferences rest)

def linkReferences : Option Tree → Except Fault (List String)
  | none => return []
  | some t => t.references

end

end Tree

theorem eraseDups_concat (ids : List String) (id : String) :
    (ids ++ [id]).eraseDups = ids.eraseDups ++ if id ∈ ids then [] else [id] := by
  rw [List.eraseDups_append]
  by_cases hmem : id ∈ ids
  · simp [List.removeAll, hmem]
  · simp [List.removeAll, hmem, List.eraseDups_cons]

theorem nodup_eraseDups (ids : List String) : ids.eraseDups.Nodup := by
  induction ids using List.reverseRecOn with
  | nil => exact .nil
  | append_singleton ids id ih =>
    rw [eraseDups_concat]
    split
    · rwa [List.append_nil]
    · next hnew =>
      refine ih.append (List.nodup_singleton id) ?_
      simpa using hnew

namespace Collected

structure Of (ids : List String) (c : Collected) : Prop where
  seen : ∀ id, id ∈ c.seen ↔ id ∈ ids
  inOrder : c.inOrder.toList = ids.eraseDups

variable {ids : List String} {c : Collected}

theorem Of.add (h : c.Of ids) (id : String) : (c.add id).Of (ids ++ [id]) := by
  have hseen : c.seen.contains id = true ↔ id ∈ ids := List.contains_iff_mem.trans (h.seen id)
  unfold Collected.add
  split
  · next hold =>
    have hmem := hseen.1 hold
    refine ⟨fun other => ?_, by rw [eraseDups_concat, if_pos hmem, List.append_nil, h.inOrder]⟩
    rw [h.seen, List.mem_append, List.mem_singleton]
    refine ⟨.inl, ?_⟩
    rintro (hother | rfl)
    · exact hother
    · exact hmem
  · next hnew =>
    have hmem : id ∉ ids := fun hmem => hnew (hseen.2 hmem)
    refine ⟨fun other => ?_, by simp [eraseDups_concat, if_neg hmem, h.inOrder]⟩
    rw [List.mem_cons, h.seen, List.mem_append, List.mem_singleton, or_comm]

theorem Of.foldl (h : c.Of ids) (more : List String) :
    (more.foldl Collected.add c).Of (ids ++ more) := by
  induction more generalizing c ids with
  | nil => rwa [List.append_nil]
  | cons id more ih =>
    have hrest := ih (h.add id)
    rwa [List.append_assoc] at hrest

def joined (x y : Except Fault (List String)) : Except Fault (List String) := do
  return (← x) ++ (← y)

/-- From any references on, the action goes on with those of the listing, or fails with it. -/
def Follows (listing : Except Fault (List String)) (act : Collected → Except Fault Collected) :
    Prop :=
  ∀ ids c, c.Of ids → match listing with
    | .ok more => ∃ c', act c = .ok c' ∧ c'.Of (ids ++ more)
    | .error e => act c = .error e

theorem follows_pure : Follows (.ok []) fun c => .ok c :=
  fun ids c hc => ⟨c, rfl, by rwa [List.append_nil]⟩

theorem follows_foldl (more : List String) : Follows (.ok more) fun c => .ok (more.foldl add c) :=
  fun _ _ hc => ⟨_, rfl, hc.foldl more⟩

theorem Follows.append {x y : Except Fault (List String)}
    {f g : Collected → Except Fault Collected} (hf : Follows x f) (hg : Follows y g) :
    Follows (joined x y) fun c => f c >>= g := by
  intro ids c hc
  have hfirst := hf ids c hc
  cases x with
  | error e => exact congrArg (· >>= g) hfirst
  | ok more =>
    obtain ⟨c', hrun, hc'⟩ := hfirst
    have hsecond := hg _ c' hc'
    have hbind : (f c >>= g) = g c' := congrArg (· >>= g) hrun
    cases y with
    | error e => exact hbind.trans hsecond
    | ok rest =>
      obtain ⟨c'', hrun', hc''⟩ := hsecond
      rw [List.append_assoc] at hc''
      exact ⟨c'', hbind.trans hrun', hc''⟩

end Collected

namespace Tree

open Collected (Follows joined)

theorem collect_block (head : Head) (values statements : List (String × Option Tree))
    (next : Option Tree) (c : Collected) : (Tree.block head values statements next).collect c =
      (if head.disabled then Except.ok c else
        Except.ok (head.references.foldl .add c) >>= (collectInputs · values) >>=
          (collectInputs · statements)) >>= (collectLink · next) := by
  rw [collect]
  cases head.disabled with
  | true => rfl
  | false =>
    change (collectInputs _ values >>= fun c => collectInputs c statements >>= _) = _
    rw [← bind_assoc]
    rfl

theorem references_block (head : Head) (values statements : List (String × Option Tree))
    (next : Option Tree) : (Tree.block head values statements next).references =
      joined (if head.disabled then .ok [] else
        joined (joined (.ok head.references) (inputReferences values))
          (inputReferences statements)) (linkReferences next) := by
  rw [references]
  cases head.disabled with
  | true => cases linkReferences next <;> rfl
  | false =>
    cases inputReferences values with
    | error e => rfl
    | ok inside => cases inputReferences statements <;> rfl

mutual

theorem follows_collect : ∀ t : Tree, Follows t.references t.collect
  | .missing | .endless => fun _ _ _ => rfl
  | .block head values statements next => by
    have hvalues := (Collected.follows_foldl head.references).append (follows_inputs values)
    have hinside := hvalues.append (follows_inputs statements)
    rw [references_block]
    simp only [collect_block]
    refine .append ?_ (follows_link next)
    cases head.disabled with
    | true => exact Collected.follows_pure
    | false => exact hinside

theorem follows_inputs : ∀ vs : List (String × Option Tree),
    Follows (inputReferences vs) (collectInputs · vs)
  | [] => Collected.follows_pure
  | (_, link) :: rest => by
    simp only [inputReferences, collectInputs]
    exact (follows_link link).append (follows_inputs rest)

theorem follows_link : ∀ link : Option Tree, Follows (linkReferences link) (collectLink · link)
  | none => Collected.follows_pure
  | some t => follows_collect t

end

mutual

theorem references_ok : ∀ t : Tree, t.isWhole = true →
    ∃ ids, t.references = .ok ids ∧ ∀ h ∈ t.enabled, h.references ⊆ ids
  | .missing, h | .endless, h => by simp [isWhole] at h
  | .block head values statements next, h => by
    simp only [isWhole, Bool.and_eq_true] at h
    obtain ⟨inside, hinside, hvalues⟩ := inputReferences_ok values h.1.1
    obtain ⟨below, hbelow, hstatements⟩ := inputReferences_ok statements h.1.2
    obtain ⟨after, hafter, hnext⟩ := linkReferences_ok next h.2
    simp only [references, enabled, hinside, hbelow, hafter]
    split
    · exact ⟨after, rfl, hnext⟩
    · refine ⟨head.references ++ inside ++ below ++ after, rfl, ?_⟩
      simp only [List.forall_mem_append, List.forall_mem_cons]
      exact ⟨⟨fun _ hid => by simp [hid], fun h hh _ hid => by simp [hvalues h hh hid],
        fun h hh _ hid => by simp [hstatements h hh hid]⟩,
        fun h hh _ hid => by simp [hnext h hh hid]⟩

theorem inputReferences_ok : ∀ vs : List (String × Option Tree), areWhole vs = true →
    ∃ ids, inputReferences vs = .ok ids ∧ ∀ h ∈ enabledInputs vs, h.references ⊆ ids
  | [], _ => ⟨[], rfl, by simp [enabledInputs]⟩
  | (name, link) :: rest, h => by
    simp only [areWhole, Bool.and_eq_true] at h
    obtain ⟨ids, hids, hlink⟩ := linkReferences_ok link h.1
    obtain ⟨more, hmore, hrest⟩ := inputReferences_ok rest h.2
    refine ⟨ids ++ more, by simp only [inputReferences, hids, hmore]; rfl, ?_⟩
    simp only [enabledInputs, List.forall_mem_append]
    exact ⟨fun h hh _ hid => by simp [hlink h hh hid], fun h hh _ hid => by simp [hrest h hh hid]⟩

theorem linkReferences_ok : ∀ link : Option Tree, isWholeLink link = true →
    ∃ ids, linkReferences link = .ok ids ∧ ∀ h ∈ enabledLink link, h.references ⊆ ids
  | none, _ => ⟨[], rfl, by simp [enabledLink]⟩
  | some t, h => by
    obtain ⟨ids, hids, henabled⟩ := t.references_ok h
    exact ⟨ids, hids, henabled⟩

end

end Tree

theorem Collected.follows_roots (roots : List Tree) :
    Follows (List.flatten <$> roots.mapM Tree.references) fun c => roots.foldlM Tree.collect c := by
  induction roots with
  | nil => exact follows_pure
  | cons t ts ih =>
    have hlisting : List.flatten <$> (t :: ts).mapM Tree.references =
        joined t.references (List.flatten <$> ts.mapM Tree.references) := by
      rw [List.mapM_cons]
      cases t.references with
      | error e => rfl
      | ok first => cases ts.mapM Tree.references <;> rfl
    rw [hlisting]
    exact (Tree.follows_collect t).append ih

theorem referencedVariables_eq (roots : List Tree) : referencedVariables roots =
    (fun lists => lists.flatten.eraseDups) <$> roots.mapM Tree.references := by
  have hroots := Collected.follows_roots roots [] {} ⟨by simp, rfl⟩
  rw [referencedVariables]
  cases hlists : roots.mapM Tree.references with
  | error e =>
    rw [hlists] at hroots
    exact congrArg (· >>= _) hroots
  | ok lists =>
    rw [hlists] at hroots
    obtain ⟨c, hrun, hc⟩ := hroots
    exact (congrArg (· >>= _) hrun).trans (congrArg Except.ok hc.inOrder)

theorem mapM_references_ok {roots : List Tree} (h : ∀ t ∈ roots, t.isWhole = true) :
    ∃ mentions, roots.mapM Tree.references = .ok mentions ∧
      ∀ h ∈ roots.flatMap Tree.enabled, h.references ⊆ mentions.flatten := by
  induction roots with
  | nil => exact ⟨[], rfl, by simp⟩
  | cons t ts ih =>
    obtain ⟨ids, hids, ht⟩ := t.references_ok (h t List.mem_cons_self)
    obtain ⟨more, hmore, hts⟩ := ih fun t ht => h t (List.mem_cons_of_mem _ ht)
    refine ⟨ids :: more, by simp only [List.mapM_cons, hids, hmore]; rfl, ?_⟩
    rw [List.flatMap_cons, List.forall_mem_append, List.flatten_cons]
    exact ⟨fun h hh => List.subset_append_of_subset_left _ (ht h hh),
      fun h hh => List.subset_append_of_subset_right _ (hts h hh)⟩

theorem referencedVariables_enabled {roots : List Tree} (h : ∀ t ∈ roots, t.isWhole = true) :
    ∃ ids, referencedVariables roots = .ok ids ∧ ids.Nodup ∧
      ∀ h ∈ roots.flatMap Tree.enabled, h.references ⊆ ids := by
  obtain ⟨mentions, hmentions, henabled⟩ := mapM_references_ok h
  refine ⟨mentions.flatten.eraseDups, by rw [referencedVariables_eq, hmentions]; rfl,
    nodup_eraseDups _, fun h hh id hid => ?_⟩
  exact List.mem_eraseDups.2 (henabled h hh hid)

theorem referencedVariables_ok {roots : List Tree} (h : ∀ t ∈ roots, t.isWhole = true) :
    ∃ ids, referencedVariables roots = .ok ids := by
  obtain ⟨ids, hids, -⟩ := referencedVariables_enabled h
  exact ⟨ids, hids⟩

end BlockCode
