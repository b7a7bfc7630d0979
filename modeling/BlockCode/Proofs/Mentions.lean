import BlockCode.Proofs.Demands

namespace BlockCode

def Field.key? : String × Field → Option String
  | (_, .variable id) => some id
  | ("VAR", f) => some f.toText
  | _ => none

def Head.keys (h : Head) : List String := h.fields.entries.filterMap Field.key?

theorem Head.references_eq_keys (h : Head) : h.references = h.keys := by
  refine congrArg (List.filterMap · h.fields.entries) (funext fun e => ?_)
  obtain ⟨name, f⟩ := e
  cases f <;> by_cases hname : name = "VAR" <;>
    simp [Field.reference?, Field.variableId?, Field.key?, hname]

namespace Workspace

/--
The chains that begin at these positions mention these variables, in order and with repetitions. A
disabled block is passed over with all that is inside it.
-/
inductive Mentions (w : Workspace) : List Nat → List String → Prop
  | nil : w.Mentions [] []
  | disabled {i : Nat} {b : Block} {heads : List Nat} {keys : List String} :
    w.blocks[i]? = some b → b.disabled = true → w.Mentions (b.next.toList ++ heads) keys →
    w.Mentions (i :: heads) keys
  | enabled {i : Nat} {b : Block} {heads : List Nat} {values statements after : List String} :
    w.blocks[i]? = some b → b.disabled = false → w.Mentions b.values.links values →
    w.Mentions b.statements.links statements → w.Mentions (b.next.toList ++ heads) after →
    w.Mentions (i :: heads) (b.keys ++ values ++ statements ++ after)

/--
A pass comes to this block: it is a root, it is next to a block that the pass comes to, or it is
connected to an input of one that is not disabled.
-/
inductive Visits (w : Workspace) : Nat → Prop
  | root {i : Nat} : i ∈ w.roots → w.Visits i
  | next {i j : Nat} {b : Block} : w.Visits i → w.blocks[i]? = some b → b.next = some j → w.Visits j
  | input {i j : Nat} {b : Block} : w.Visits i → w.blocks[i]? = some b → b.disabled = false →
    j ∈ b.values.links ++ b.statements.links → w.Visits j

variable {w : Workspace} {heads : List Nat} {keys : List String}

namespace Mentions

theorem eq (h : w.Mentions heads keys) {keys' : List String} (h' : w.Mentions heads keys') :
    keys' = keys := by
  induction h generalizing keys' with
  | nil =>
    cases h'
    rfl
  | disabled hb hd _ ih =>
    cases h' with
    | disabled hb' _ h' =>
      cases hb.symm.trans hb'
      exact ih h'
    | enabled hb' hd' _ _ _ =>
      cases hb.symm.trans hb'
      cases hd.symm.trans hd'
  | enabled hb hd _ _ _ ihvalues ihstatements ihafter =>
    cases h' with
    | disabled hb' hd' _ =>
      cases hb.symm.trans hb'
      cases hd.symm.trans hd'
    | enabled hb' _ hvalues hstatements hafter =>
      cases hb.symm.trans hb'
      rw [ihvalues hvalues, ihstatements hstatements, ihafter hafter]

theorem of_append (h : w.Mentions heads keys) {before rest : List Nat}
    (heads_eq : heads = before ++ rest) : ∃ later, w.Mentions rest later ∧ later ⊆ keys := by
  induction h generalizing before with
  | nil =>
    obtain ⟨rfl, rfl⟩ := List.append_eq_nil_iff.1 heads_eq.symm
    exact ⟨[], .nil, List.Subset.refl _⟩
  | @disabled i b heads keys hb hd hafter ih =>
    cases before with
    | nil =>
      obtain rfl : i :: heads = rest := heads_eq
      exact ⟨keys, .disabled hb hd hafter, List.Subset.refl _⟩
    | cons j before =>
      obtain ⟨rfl, rfl⟩ := List.cons.inj heads_eq
      exact ih (List.append_assoc _ _ _).symm
  | @enabled i b heads values statements after hb hd hvalues hstatements hafter _ _ ih =>
    cases before with
    | nil =>
      obtain rfl : i :: heads = rest := heads_eq
      exact ⟨_, .enabled hb hd hvalues hstatements hafter, List.Subset.refl _⟩
    | cons j before =>
      obtain ⟨rfl, rfl⟩ := List.cons.inj heads_eq
      obtain ⟨later, hlater, hsubset⟩ := ih (List.append_assoc _ _ _).symm
      exact ⟨later, hlater, List.subset_append_of_subset_right _ hsubset⟩

theorem of_mem (h : w.Mentions heads keys) {i : Nat} (hi : i ∈ heads) :
    ∃ rest later, w.Mentions (i :: rest) later ∧ later ⊆ keys := by
  obtain ⟨before, rest, rfl⟩ := List.append_of_mem hi
  obtain ⟨later, hlater, hsubset⟩ := h.of_append rfl
  exact ⟨rest, later, hlater, hsubset⟩

theorem visits (h : w.Mentions heads keys) (hheads : ∀ i ∈ heads, w.Visits i) :
    ∀ id ∈ keys, ∃ i b, w.Visits i ∧ w.blocks[i]? = some b ∧ b.disabled = false ∧
      id ∈ b.keys := by
  have hnext : ∀ {i : Nat} {b : Block} {heads : List Nat}, w.blocks[i]? = some b →
      (∀ j ∈ i :: heads, w.Visits j) → ∀ j ∈ b.next.toList ++ heads, w.Visits j := by
    intro i b heads hb hheads
    obtain ⟨hi, hheads⟩ := List.forall_mem_cons.1 hheads
    exact List.forall_mem_append.2 ⟨fun j hj => hi.next hb (Option.mem_toList.1 hj), hheads⟩
  induction h with
  | nil => simp
  | disabled hb _ _ ih => exact ih (hnext hb hheads)
  | @enabled i b heads _ _ _ hb hd _ _ _ ihvalues ihstatements ihafter =>
    have hi := hheads i List.mem_cons_self
    have hinside : ∀ j ∈ b.values.links ++ b.statements.links, w.Visits j :=
      fun j hj => hi.input hb hd hj
    obtain ⟨hvalues, hstatements⟩ := List.forall_mem_append.1 hinside
    simp only [List.forall_mem_append]
    exact ⟨⟨⟨fun id hid => ⟨i, b, hi, hb, hd, hid⟩, ihvalues hvalues⟩, ihstatements hstatements⟩,
      ihafter (hnext hb hheads)⟩

end Mentions

theorem Visits.mentions (h : w.Mentions w.roots keys) {i : Nat} (hi : w.Visits i) :
    ∃ rest later, w.Mentions (i :: rest) later ∧ later ⊆ keys := by
  induction hi with
  | root hi => exact h.of_mem hi
  | @next i j b _ hb hnext ih =>
    obtain ⟨rest, later, hlater, hsubset⟩ := ih
    have htail : b.next.toList ++ rest = j :: rest := by rw [hnext, Option.toList_some]; rfl
    cases hlater with
    | disabled hb' _ hafter =>
      cases hb.symm.trans hb'
      exact ⟨rest, later, htail ▸ hafter, hsubset⟩
    | @enabled _ _ _ _ _ after hb' _ _ _ hafter =>
      cases hb.symm.trans hb'
      exact ⟨rest, after, htail ▸ hafter, (List.append_subset.1 hsubset).2⟩
  | @input i j b _ hb hd hj ih =>
    obtain ⟨rest, later, hlater, hsubset⟩ := ih
    cases hlater with
    | disabled hb' hd' _ =>
      cases hb.symm.trans hb'
      cases hd.symm.trans hd'
    | @enabled _ _ _ values statements after hb' _ hvalues hstatements _ =>
      cases hb.symm.trans hb'
      simp only [List.append_subset] at hsubset
      obtain ⟨⟨⟨-, hinside⟩, hbelow⟩, -⟩ := hsubset
      rcases List.mem_append.1 hj with hj | hj
      · obtain ⟨rest, later, hlater, hlater'⟩ := hvalues.of_mem hj
        exact ⟨rest, later, hlater, List.Subset.trans hlater' hinside⟩
      · obtain ⟨rest, later, hlater, hlater'⟩ := hstatements.of_mem hj
        exact ⟨rest, later, hlater, List.Subset.trans hlater' hbelow⟩

theorem Mentions.mem_iff (h : w.Mentions w.roots keys) (id : String) : id ∈ keys ↔
    ∃ i b, w.Visits i ∧ w.blocks[i]? = some b ∧ b.disabled = false ∧ id ∈ b.keys := by
  refine ⟨h.visits (fun i hi => .root hi) id, ?_⟩
  rintro ⟨i, b, hi, hb, hd, hid⟩
  obtain ⟨rest, later, hlater, hsubset⟩ := hi.mentions h
  cases hlater with
  | disabled hb' hd' _ =>
    cases hb.symm.trans hb'
    cases hd.symm.trans hd'
  | enabled hb' _ _ _ _ =>
    cases hb.symm.trans hb'
    exact hsubset (by simp [hid])

def Lists (w : Workspace) (n i : Nat) : Prop :=
  ∃ keys, (w.unfold n i).references = .ok keys ∧
    ∀ heads after, w.Mentions heads after → w.Mentions (i :: heads) (keys ++ after)

theorem linkReferences_unfold {n : Nat} (hn : ∀ i, (w.unfold n i).isWhole = true → w.Lists n i)
    {link : Option Nat} (h : Tree.isWholeLink (link.map (w.unfold n)) = true) :
    ∃ keys, Tree.linkReferences (link.map (w.unfold n)) = .ok keys ∧
      ∀ heads after, w.Mentions heads after →
        w.Mentions (link.toList ++ heads) (keys ++ after) := by
  cases link with
  | none => exact ⟨[], rfl, fun _ _ hafter => hafter⟩
  | some i => exact hn i h

theorem inputReferences_unfold {n : Nat} (hn : ∀ i, (w.unfold n i).isWhole = true → w.Lists n i)
    {inputs : ByName (Option Nat)}
    (h : Tree.areWhole (inputs.entries.map fun e => (e.1, e.2.map (w.unfold n))) = true) :
    ∃ keys, Tree.inputReferences (inputs.entries.map fun e => (e.1, e.2.map (w.unfold n))) =
      .ok keys ∧ w.Mentions inputs.links keys := by
  obtain ⟨entries⟩ := inputs
  simp only [ByName.links] at h ⊢
  induction entries with
  | nil => exact ⟨[], rfl, .nil⟩
  | cons e entries ih =>
    rw [List.map_cons, Tree.areWhole, Bool.and_eq_true] at h
    obtain ⟨keys, hkeys, hlink⟩ := linkReferences_unfold hn h.1
    obtain ⟨more, hmore, hrest⟩ := ih h.2
    refine ⟨keys ++ more, ?_, hlink _ _ hrest⟩
    rw [List.map_cons, Tree.inputReferences, hkeys, hmore]
    rfl

theorem lists_of_isWhole (n i : Nat) (h : (w.unfold n i).isWhole = true) : w.Lists n i := by
  induction n generalizing i with
  | zero =>
    rw [unfold] at h
    split at h <;> cases h
  | succ n ih =>
    cases hb : w.blocks[i]? with
    | none =>
      rw [unfold, hb] at h
      cases h
    | some b =>
      rw [unfold_block hb, Tree.isWhole, Bool.and_eq_true, Bool.and_eq_true] at h
      obtain ⟨⟨hvalues, hstatements⟩, hnext⟩ := h
      obtain ⟨after, hafter, hchain⟩ := linkReferences_unfold ih hnext
      rw [Lists, unfold_block hb, Tree.references]
      cases hd : b.disabled with
      | true =>
        exact ⟨after, hafter, fun _ _ hrest => .disabled hb hd (hchain _ _ hrest)⟩
      | false =>
        obtain ⟨inside, hinside, hlists⟩ := inputReferences_unfold ih hvalues
        obtain ⟨below, hbelow, hlists'⟩ := inputReferences_unfold ih hstatements
        refine ⟨b.keys ++ inside ++ below ++ after, ?_, fun _ rest hrest => ?_⟩
        · rw [hinside, hbelow, hafter, b.references_eq_keys]
          rfl
        · rw [List.append_assoc _ after rest]
          exact .enabled hb hd hlists hlists' (hchain _ _ hrest)

theorem references_roots {roots : List Nat} (h : ∀ i ∈ roots, (w.tree i).isWhole = true) :
    ∃ lists, (roots.map w.tree).mapM Tree.references = .ok lists ∧
      w.Mentions roots lists.flatten := by
  induction roots with
  | nil => exact ⟨[], rfl, .nil⟩
  | cons i roots ih =>
    obtain ⟨hi, hroots⟩ := List.forall_mem_cons.1 h
    obtain ⟨keys, hkeys, hchain⟩ := lists_of_isWhole w.size i hi
    obtain ⟨lists, hlists, hmentions⟩ := ih hroots
    refine ⟨keys :: lists, ?_, hchain _ _ hmentions⟩
    rw [List.map_cons, List.mapM_cons, hlists]
    change (do let ids ← (w.unfold w.size i).references; _) = _
    rw [hkeys]
    rfl

/--
The variables of a program are those that its chains mention, each where it is mentioned first. They
are the variables in the fields of the blocks that a pass comes to and that are not disabled.
-/
theorem referencedVariables_eq_eraseDups (hw : w.Acyclic) :
    ∃ keys, w.Mentions w.roots keys ∧ (∀ keys', w.Mentions w.roots keys' → keys' = keys) ∧
      referencedVariables w.rootTrees = .ok keys.eraseDups ∧ keys.eraseDups.Nodup ∧
      ∀ id, id ∈ keys.eraseDups ↔
        ∃ i b, w.Visits i ∧ w.blocks[i]? = some b ∧ b.disabled = false ∧ id ∈ b.keys := by
  have hwhole : ∀ i ∈ w.roots, (w.tree i).isWhole = true := fun i hi =>
    hw.isWhole_rootTrees _ (List.mem_map_of_mem hi)
  obtain ⟨lists, hlists, hmentions⟩ := references_roots hwhole
  refine ⟨lists.flatten, hmentions, fun _ => hmentions.eq, ?_, ?_, fun id => ?_⟩
  · rw [referencedVariables_eq, rootTrees, hlists]
    rfl
  · exact nodup_eraseDups _
  · rw [List.mem_eraseDups]
    exact hmentions.mem_iff id

theorem referencedVariables_eq_eraseDups_loop :
    let get (id : String) (f : Field) : Block :=
      { id, type := "variables_get", fields := ⟨[("VAR", f)]⟩ }
    let w : Workspace := {
      blocks := #[
        get "a" (.variable "x"), get "b" (.text "y"),
        { id := "c", type := "variables_set", fields := ⟨[("VAR", .variable "z")]⟩,
          disabled := true, values := ⟨[("VALUE", some 0)]⟩, next := some 3 },
        { id := "d", type := "controls_for",
          fields := ⟨[("NOTE", .text "z"), ("VAR", .variable "x")]⟩,
          values := ⟨[("FROM", some 1), ("TO", some 0)]⟩, statements := ⟨[("DO", some 4)]⟩ },
        { id := "e", type := "text_print", values := ⟨[("TEXT", some 0)]⟩ }],
      roots := [2, 1] }
    w.Acyclic ∧ w.Mentions w.roots ["x", "y", "x", "x", "y"] ∧
      referencedVariables w.rootTrees = .ok ["x", "y"] ∧
      ∀ id, id ∈ ["x", "y"] ↔
        ∃ i b, w.Visits i ∧ w.blocks[i]? = some b ∧ b.disabled = false ∧ id ∈ b.keys := by
  intro get w
  have hw : w.Acyclic := acyclic_of_rank (fun i => if i < 2 then 0 else if i < 4 then 6 - i else 2)
    (by decide) (by decide)
  have hblock : ∀ {i b heads values statements after keys}, w.blocks[i]? = some b →
      b.disabled = false → w.Mentions b.values.links values →
      w.Mentions b.statements.links statements → w.Mentions (b.next.toList ++ heads) after →
      keys = b.keys ++ values ++ statements ++ after → w.Mentions (i :: heads) keys :=
    fun hb hd hvalues hstatements hafter hkeys =>
      hkeys ▸ .enabled hb hd hvalues hstatements hafter
  have hx : w.Mentions [0] ["x"] := hblock rfl rfl .nil .nil .nil rfl
  have hy : w.Mentions [1] ["y"] := hblock rfl rfl .nil .nil .nil rfl
  have hfrom : w.Mentions [1, 0] ["y", "x"] := hblock rfl rfl .nil .nil hx rfl
  have hprint : w.Mentions [4] ["x"] := hblock rfl rfl hx .nil .nil rfl
  have hroots : w.Mentions w.roots ["x", "y", "x", "x", "y"] :=
    .disabled rfl rfl (hblock rfl rfl hfrom hprint hy rfl)
  obtain ⟨keys, -, hkeys, hreferenced, -, hmem⟩ := referencedVariables_eq_eraseDups hw
  obtain rfl := hkeys _ hroots
  exact ⟨hw, hroots, hreferenced, hmem⟩

end Workspace

end BlockCode
