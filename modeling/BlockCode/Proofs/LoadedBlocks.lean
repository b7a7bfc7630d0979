import BlockCode.Proofs.Nodes

namespace BlockCode

namespace Block

theorem declares_eq (b : Block) (input : String) : b.declares input =
    ((b.declared? (.value input)).isSome || (b.declared? (.statement input)).isSome) := rfl

theorem isSome_declared?_declareShape {b : Block} {k : Connection}
    (h : (b.declared? k).isSome = true) (elseIfs : Nat) (hasElse : Bool) :
    ((b.declareShape elseIfs hasElse).declared? k).isSome = true := by
  obtain ⟨extra, hdeclaring⟩ := declaring_shape elseIfs hasElse
  rw [hdeclaring.declared?, Option.isSome_or, h, Bool.true_or]

theorem declared?_declareArm (b : Block) (n : Nat) (k : Connection) :
    (b.declareArm n).declared? k = (b.declared? k).or
      (if k = .value ("IF" ++ toString n) ∨ k = .statement ("DO" ++ toString n) then some none
        else none) := by
  cases k <;> simp [declareArm, declared?, ByName.get?_insertNew]

theorem isSome_declared?_foldl (ns : List Nat) (b : Block) (k : Connection) :
    ((ns.foldl declareArm b).declared? k).isSome = true ↔ (b.declared? k).isSome = true ∨
      ∃ n ∈ ns, k = .value ("IF" ++ toString n) ∨ k = .statement ("DO" ++ toString n) := by
  induction ns generalizing b with
  | nil => simp
  | cons n ns ih =>
    rw [List.foldl_cons, ih, declared?_declareArm]
    simp [or_assoc]

theorem declares_declareShape (b : Block) (elseIfs : Nat) (hasElse : Bool) :
    (∀ n ≤ elseIfs, (b.declareShape elseIfs hasElse).declares ("IF" ++ toString n) = true) ∧
      (hasElse = true → (b.declareShape elseIfs hasElse).declares "ELSE" = true) := by
  constructor
  · intro n hn
    have harm := (isSome_declared?_foldl (List.range (elseIfs + 1)) b
      (.value ("IF" ++ toString n))).2 (.inr ⟨n, List.mem_range.2 (by omega), .inl rfl⟩)
    have hvalue : ((b.declareShape elseIfs hasElse).declared?
        (.value ("IF" ++ toString n))).isSome = true := by
      unfold declareShape
      dsimp only
      split <;> exact harm
    rw [declares_eq, hvalue, Bool.true_or]
  · rintro rfl
    simp [declareShape, declares, ByName.contains, ByName.get?_insertNew]

end Block

theorem Slot.isSome_declared?_enter {slot : Slot} {b b' : Block} {link : Option Nat}
    {w w' : Workspace} (h : slot.enter b link w = .ok (b', w')) {k : Connection}
    (hk : (b.declared? k).isSome = true) : (b'.declared? k).isSome = true := by
  cases hslot : slot.connection? with
  | some k' =>
    rw [enter_of_connection hslot] at h
    cases h
    rw [Block.declared?_connect]
    split
    · rfl
    · exact hk
  | none =>
    cases slot with
    | field name entry =>
      cases entry with
      | fault f => cases h
      | _ =>
        cases h
        cases k <;> exact hk
    | shape elseIfs hasElse =>
      cases h
      exact Block.isSome_declared?_declareShape hk elseIfs hasElse
    | _ => cases hslot

namespace Encoding

variable {α : Type} [SizeOf α] (E : Encoding α)

theorem position_perm_nodesInside (parts : List (Slot × Option α))
    (h : ∀ slot u, (slot, some u) ∈ parts → ∀ n,
      ((E.nodes n u).map Node.position).Perm (List.range' n (E.nodes n u).length))
    (id : String) (n : Nat) :
    ((E.nodesInside id n parts).map Node.position).Perm
      (List.range' n (E.nodesInside id n parts).length) := by
  induction parts generalizing n with
  | nil => rfl
  | cons p parts ih =>
    obtain ⟨slot, link⟩ := p
    have ih := ih fun slot u hu => h slot u (List.mem_cons_of_mem _ hu)
    cases link with
    | none => exact ih n
    | some u =>
      have hu := h slot u List.mem_cons_self n
      rw [nodesInside_some, List.map_append, List.map_map, List.length_append, List.length_map,
        ← List.range'_append_1]
      exact hu.append (ih _)

theorem position_perm_nodes (n : Nat) (a : α) :
    ((E.nodes n a).map Node.position).Perm (List.range' n (E.nodes n a).length) := by
  have hinside := E.position_perm_nodesInside (E.parts a)
    (fun slot u hu k => position_perm_nodes k u) (E.idAt n a) n
  rw [nodes_eq, List.map_cons, List.length_cons, List.range'_1_concat]
  exact (hinside.cons _).trans (List.perm_append_singleton _ _).symm
termination_by sizeOf a
decreasing_by exact E.smaller hu

theorem position_perm_inRow (n : Nat) (tops : List α) :
    ((inRow E.nodes n tops).map Node.position).Perm
      (List.range' n (inRow E.nodes n tops).length) := by
  induction tops generalizing n with
  | nil => rfl
  | cons a tops ih =>
    rw [inRow, List.map_append, List.length_append, ← List.range'_append_1]
    exact (E.position_perm_nodes n a).append (ih _)

end Encoding

/--
A block has what the parts of its description say: an input is connected to the block of the node
that the last part about it leads to, and the inputs of a shape are declared.
-/
structure Block.Holds {α : Type} (b : Block) (row : List (Node α)) (path : List DocumentStep)
    (id : String) (parts : List (Slot × Option α)) : Prop where
  linked {before after : List (Slot × Option α)} {slot : Slot} {u : α} {k : Connection} :
    parts = before ++ (slot, some u) :: after → slot.connection? = some k →
    (∀ p ∈ after, p.1.connection? ≠ some k) →
    ∃ y ∈ row, y.path = path ++ [slot.step id] ∧ y.value = u ∧ b.link? k = some y.position
  shaped {elseIfs : Nat} {hasElse : Bool} {link : Option α} :
    (.shape elseIfs hasElse, link) ∈ parts →
    (∀ n ≤ elseIfs, b.declares ("IF" ++ toString n) = true) ∧
      (hasElse = true → b.declares "ELSE" = true)

namespace Block.Holds

variable {α : Type} {b : Block} {row row' : List (Node α)} {path : List DocumentStep} {id : String}
  {parts : List (Slot × Option α)}

theorem mono (h : b.Holds row path id parts) (hrow : row ⊆ row') :
    b.Holds row' path id parts where
  linked hparts hslot hafter := by
    obtain ⟨y, hy, hrest⟩ := h.linked hparts hslot hafter
    exact ⟨y, hrow hy, hrest⟩
  shaped := h.shaped

theorem within (h : b.Holds row path id parts) (step : DocumentStep) :
    b.Holds (row.map (.within step)) (step :: path) id parts where
  linked hparts hslot hafter := by
    obtain ⟨y, hy, hpath, hvalue, hlink⟩ := h.linked hparts hslot hafter
    exact ⟨y.within step, List.mem_map_of_mem hy, congrArg (step :: ·) hpath, hvalue, hlink⟩
  shaped := h.shaped

end Block.Holds

namespace Encoding

variable {α : Type} [SizeOf α] (E : Encoding α)

structure Describes (row : List (Node α)) (x : Node α) (b : Block) : Prop where
  id : b.id = E.id x
  type : (E.caption x.value).type = some b.type
  disabled : b.disabled = (E.caption x.value).disabled
  holds : b.Holds row x.path (E.id x) (E.parts x.value)

/-- The second workspace has further blocks, which are those of the nodes in a row. -/
structure Lays (w w' : Workspace) (row : List (Node α)) : Prop where
  size : w'.size = w.size + row.length
  kept {j : Nat} : j < w.size → w'.blocks[j]? = w.blocks[j]?
  laid {x : Node α} : x ∈ row → ∃ b, w'.blocks[x.position]? = some b ∧ E.Describes row x b

namespace Lays

variable {E} {w w' w'' : Workspace} {row row' : List (Node α)}

theorem same (h : w'.blocks = w.blocks) : E.Lays w w' [] where
  size := congrArg Array.size h
  kept _ := by rw [h]
  laid hx := by cases hx

theorem trans (h : E.Lays w w' row) (h' : E.Lays w' w'' row') : E.Lays w w'' (row ++ row') where
  size := by rw [h'.size, h.size, List.length_append, Nat.add_assoc]
  kept {j} hj := by
    have hsize := h.size
    rw [h'.kept (by omega), h.kept hj]
  laid {x} hx := by
    rcases List.mem_append.1 hx with hx | hx
    · obtain ⟨b, hb, hdescribes⟩ := h.laid hx
      have hlt : x.position < w'.size := (Array.getElem?_eq_some_iff.1 hb).1
      exact ⟨b, (h'.kept hlt).trans hb, { hdescribes with
        holds := hdescribes.holds.mono (List.subset_append_left _ _) }⟩
    · obtain ⟨b, hb, hdescribes⟩ := h'.laid hx
      exact ⟨b, hb, { hdescribes with
        holds := hdescribes.holds.mono (List.subset_append_right _ _) }⟩

theorem within (h : E.Lays w w' row) (step : DocumentStep) :
    E.Lays w w' (row.map (.within step)) where
  size := by rw [h.size, List.length_map]
  kept := h.kept
  laid hx := by
    obtain ⟨y, hy, rfl⟩ := List.mem_map.1 hx
    obtain ⟨b, hb, hdescribes⟩ := h.laid hy
    exact ⟨b, hb, { hdescribes with holds := hdescribes.holds.within step }⟩

theorem add (h : E.Lays w w' row) {x : Node α} {b : Block} (hx : x.position = w'.size)
    (hb : E.Describes row x b) : E.Lays w (w'.add b) (x :: row) where
  size := by
    have hsize := h.size
    simp only [Workspace.size, Workspace.add, Array.size_push, List.length_cons] at hsize ⊢
    omega
  kept {j} hj := by
    have hsize := h.size
    have hlt : j < w'.blocks.size := by
      simp only [Workspace.size] at hj hsize
      omega
    rw [← h.kept hj, Workspace.add, Array.getElem?_push_lt hlt, Array.getElem?_eq_getElem hlt]
  laid {y} hy := by
    have hmono := List.subset_cons_self x row
    rcases List.mem_cons.1 hy with rfl | hy
    · refine ⟨b, ?_, { hb with holds := hb.holds.mono hmono }⟩
      rw [hx]
      exact Array.getElem?_push_size
    · obtain ⟨b', hb', hdescribes⟩ := h.laid hy
      have hlt := (Array.getElem?_eq_some_iff.1 hb').1
      refine ⟨b', ?_, { hdescribes with holds := hdescribes.holds.mono hmono }⟩
      rw [← hb', Workspace.add, Array.getElem?_push_lt hlt, Array.getElem?_eq_getElem hlt]

end Lays

structure Enters (id : String) (parts : List (Slot × Option α)) (b b' : Block) (w w' : Workspace) :
    Prop where
  lays : E.Lays w w' (E.nodesInside id w.size parts)
  caption : b'.caption = b.caption
  holds : b'.Holds (E.nodesInside id w.size parts) [] id parts
  kept {k : Connection} : (∀ p ∈ parts, p.1.connection? ≠ some k) → b'.link? k = b.link? k
  declared {k : Connection} : (b.declared? k).isSome = true → (b'.declared? k).isSome = true

namespace Enters

variable {E} {id : String} {parts parts' : List (Slot × Option α)} {b b₁ b' : Block}
  {w w₁ w' : Workspace}

theorem nil (b : Block) (w : Workspace) : E.Enters id [] b b w w :=
  ⟨.same rfl, rfl, ⟨fun hparts => by simp at hparts, fun hmem => by cases hmem⟩, fun _ => rfl,
    fun hk => hk⟩

theorem declares (h : E.Enters id parts b b' w w') {input : String}
    (hb : b.declares input = true) : b'.declares input = true := by
  rw [Block.declares_eq, Bool.or_eq_true] at hb ⊢
  exact hb.imp h.declared h.declared

theorem append (h : E.Enters id parts b b₁ w w₁) (h' : E.Enters id parts' b₁ b' w₁ w') :
    E.Enters id (parts ++ parts') b b' w w' where
  lays := by
    rw [nodesInside_append, ← h.lays.size]
    exact h.lays.trans h'.lays
  caption := h'.caption.trans h.caption
  holds := by
    rw [nodesInside_append, ← h.lays.size]
    have hfirst := h.holds.mono (List.subset_append_left _ (E.nodesInside id w₁.size parts'))
    have hsecond := h'.holds.mono (List.subset_append_right (E.nodesInside id w.size parts) _)
    constructor
    · intro before after slot u k hsplit hslot hafter
      rcases List.append_eq_append_iff.1 hsplit with ⟨front, -, hsplit'⟩ | ⟨back, hparts, hback⟩
      · exact hsecond.linked hsplit' hslot hafter
      · cases back with
        | nil =>
          rw [← List.nil_append (_ :: after)] at hback
          exact hsecond.linked hback.symm hslot hafter
        | cons p back =>
          -- The later parts say nothing of this input.
          obtain ⟨rfl, rfl⟩ := List.cons.inj hback
          obtain ⟨y, hy, hpath, hvalue, hlink⟩ := hfirst.linked hparts hslot fun p hp =>
            hafter p (List.mem_append_left _ hp)
          have hkept := h'.kept fun p hp => hafter p (List.mem_append_right _ hp)
          exact ⟨y, hy, hpath, hvalue, hkept.trans hlink⟩
    · intro elseIfs hasElse link hmem
      rcases List.mem_append.1 hmem with hmem | hmem
      · obtain ⟨harms, halternative⟩ := hfirst.shaped hmem
        exact ⟨fun n hn => h'.declares (harms n hn), fun helse => h'.declares (halternative helse)⟩
      · exact hsecond.shaped hmem
  kept hparts := by
    rw [h'.kept fun p hp => hparts p (List.mem_append_right _ hp),
      h.kept fun p hp => hparts p (List.mem_append_left _ hp)]
  declared hk := h'.declared (h.declared hk)

end Enters

def BuildsNodes (a : α) : Prop :=
  ∀ {w w' : Workspace} {i : Nat}, (E.entry a).build w = .ok (i, w') →
    i + 1 = w'.size ∧ E.Lays w w' (E.nodes w.size a)

theorem lays_buildLink (id : String) (slot : Slot) {link : Option α}
    (hnode : ∀ u, link = some u → E.BuildsNodes u) {i : Option Nat} {w w' : Workspace}
    (h : buildLink (link.map E.entry) w = .ok (i, w')) :
    E.Lays w w' (E.nodesInside id w.size [(slot, link)]) ∧
      ∀ u, link = some u → ∃ y ∈ E.nodesInside id w.size [(slot, link)],
        y.path = [slot.step id] ∧ y.value = u ∧ i = some y.position := by
  cases link with
  | none =>
    cases h
    exact ⟨.same rfl, fun u hu => by cases hu⟩
  | some u =>
    obtain ⟨j, rfl, hbuild⟩ := buildLink_some_ok h
    obtain ⟨hj, hlays⟩ := hnode u rfl hbuild
    have hsize := hlays.size
    rw [nodesInside_some, nodesInside_nil, List.append_nil]
    refine ⟨hlays.within _, fun u' hu' => ?_⟩
    cases hu'
    rw [nodes_eq, List.length_cons] at hsize
    rw [nodes_eq, List.map_cons]
    exact ⟨_, List.mem_cons_self, rfl, rfl, congrArg some (by simp only [Node.within]; omega)⟩

theorem enters_enter {id : String} {slot : Slot} {link : Option α} {i : Option Nat} {b b' : Block}
    {w w₁ w' : Workspace} (hlays : E.Lays w w₁ (E.nodesInside id w.size [(slot, link)]))
    (hi : ∀ u, link = some u → ∃ y ∈ E.nodesInside id w.size [(slot, link)],
      y.path = [slot.step id] ∧ y.value = u ∧ i = some y.position)
    (henter : slot.enter b i w₁ = .ok (b', w')) : E.Enters id [(slot, link)] b b' w w' where
  lays := by
    have hall := hlays.trans (.same (Slot.enter_state henter).1)
    rwa [List.append_nil] at hall
  caption := Slot.caption_enter henter
  holds := by
    constructor
    · intro before after slot' u k hsplit hslot hafter
      obtain ⟨rfl, rfl⟩ : slot' = slot ∧ link = some u := by
        have hmem : (slot', some u) ∈ [(slot, link)] := by simp [hsplit]
        cases List.mem_singleton.1 hmem
        exact ⟨rfl, rfl⟩
      obtain ⟨y, hy, hpath, hvalue, hposition⟩ := hi u rfl
      rw [Slot.enter_of_connection hslot] at henter
      cases henter
      refine ⟨y, hy, hpath, hvalue, ?_⟩
      rw [Block.link?_eq, Block.declared?_connect, if_pos rfl]
      exact hposition
    · intro elseIfs hasElse link' hmem
      cases List.mem_singleton.1 hmem
      cases henter
      exact b.declares_declareShape elseIfs hasElse
  kept hparts := (Slot.enter_links henter).1 _ (hparts _ List.mem_cons_self)
  declared := Slot.isSome_declared?_enter henter

theorem enters_buildParts (id : String) {parts : List (Slot × Option α)}
    (hnodes : ∀ slot u, (slot, some u) ∈ parts → E.BuildsNodes u) {b b' : Block} {w w' : Workspace}
    (h : buildParts id (parts.map fun p => (p.1, p.2.map E.entry)) b w = .ok (b', w')) :
    E.Enters id parts b b' w w' := by
  induction parts generalizing b w with
  | nil =>
    cases h
    exact .nil _ _
  | cons p parts ih =>
    obtain ⟨slot, link⟩ := p
    obtain ⟨i, w₁, b₁, w₂, hlink, henter, hrest⟩ := buildParts_cons_ok h
    obtain ⟨hlays, hi⟩ := E.lays_buildLink id slot
      (fun u hu => hnodes slot u (hu ▸ List.mem_cons_self)) hlink
    have hfirst := E.enters_enter hlays hi henter
    exact hfirst.append (ih (fun slot u hu => hnodes slot u (List.mem_cons_of_mem _ hu)) hrest)

theorem buildsNodes (a : α) : E.BuildsNodes a := by
  intro w w' i h
  rcases E.entry_eq a with ⟨hentry, -⟩ | hentry
  · rw [hentry] at h
    cases h
  · rw [hentry] at h
    obtain ⟨type, b, w₁, htype, hparts, rfl, rfl⟩ := Entry.build_ok h
    have henters := E.enters_buildParts _ (fun slot u hu => buildsNodes u) hparts
    obtain ⟨hid, hkind, hdisabled⟩ := Caption.mk.inj henters.caption
    refine ⟨(Array.size_push ..).symm, ?_⟩
    rw [nodes_eq]
    exact henters.lays.add henters.lays.size.symm
      ⟨Option.some.inj hid, htype.trans hkind.symm, hdisabled, henters.holds⟩
termination_by sizeOf a
decreasing_by exact E.smaller hu

section

variable {toTop : α → Top} (htop : ∀ a, (toTop a).entry = E.entry a)

include htop

theorem lays_buildTops {items : List α} {placed : List (Top × Nat)} {w w' : Workspace}
    (h : Document.buildTops (items.map toTop) w = .ok (placed, w')) :
    E.Lays w w' (inRow E.nodes w.size items) := by
  induction items generalizing w placed with
  | nil =>
    cases h
    exact .same rfl
  | cons a items ih =>
    obtain ⟨i, w₁, more, hbuild, htops, -⟩ := Document.buildTops_cons_ok h
    rw [htop] at hbuild
    have hfirst := (E.buildsNodes a hbuild).2
    rw [inRow, ← hfirst.size]
    exact hfirst.trans (ih htops)

theorem lays_workspace {d : Document} {items : List α} {w : Workspace}
    (htops : ∀ tops, d.tops = some tops → tops = items.map toTop) (h : d.workspace = .ok w) :
    E.Lays {} w (E.listing items) ∧
      ((E.listing items).map Node.position).Perm (List.range w.size) := by
  obtain ⟨tops, placed, w₁, w₂, hd, hvariables, hplaced, rfl⟩ := Document.workspace_ok h
  rw [htops tops hd] at hplaced
  have hblocks := (Document.addVariables_state d.variableEntries hvariables).1
  have hsize : w₁.size = 0 := congrArg Array.size hblocks
  have hlays := (Lays.same hblocks).trans (E.lays_buildTops htop hplaced)
  rw [hsize] at hlays
  constructor
  · -- The roots are put in order after all blocks are laid.
    rw [← List.append_nil (E.listing items)]
    exact hlays.trans (.same rfl)
  · have hlength : w₂.size = (E.listing items).length := hlays.size.trans (Nat.zero_add _)
    have hperm := E.position_perm_inRow 0 items
    rw [← List.range_eq_range'] at hperm
    exact hlength ▸ hperm

end

end Encoding

end BlockCode
