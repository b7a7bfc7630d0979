import BlockCode.Proofs.Declarations
import BlockCode.Proofs.LoadedBlocks

namespace BlockCode

def placeOf {α : Type} (coordinate? : α → String → Option Int) (a : α) : Int ×ₗ Int :=
  toLex ((coordinate? a "y").getD (2 ^ 63 - 1), (coordinate? a "x").getD (2 ^ 63 - 1))

def Unplaced {α : Type} (coordinate? : α → String → Option Int) (a : α) : Prop :=
  coordinate? a "y" = none ∧ coordinate? a "x" = none

def Json.coordinate? (v : Json) (axis : String) : Option Int := (v.get? axis).bind int64?

def Xml.coordinate? (x : Xml) (axis : String) : Option Int := (x.attribute? axis).bind Text.int64?

theorem Top.before_iff {a b : Top} :
    a.before b = true ↔ toLex (a.row, a.column) ≤ toLex (b.row, b.column) := by
  simp [before, Prod.Lex.toLex_le_toLex]

theorem pair_sublist_or {α : Type} {a b : α} {as : List α} (ha : a ∈ as) (hb : b ∈ as)
    (hne : a ≠ b) : [a, b].Sublist as ∨ [b, a].Sublist as := by
  obtain ⟨before, after, rfl⟩ := List.append_of_mem ha
  rcases List.mem_append.1 hb with hb | hb
  · exact .inr ((List.singleton_sublist.2 hb).append
      (List.singleton_sublist.2 List.mem_cons_self))
  · have hb : b ∈ after := (List.mem_cons.1 hb).resolve_left hne.symm
    exact .inl (((List.singleton_sublist.2 hb).cons_cons a).trans (List.sublist_append_right _ _))

/--
The roots of a workspace are the blocks of these nodes, put in order by the places of the nodes. The
order of the nodes is kept for those at the same place.
-/
structure Workspace.RootsInOrder {α : Type} (w : Workspace) (coordinate? : α → String → Option Int)
    (tops order : List (Node α)) : Prop where
  roots : w.roots = order.map Node.position
  perm : order.Perm tops
  sorted : order.Pairwise fun a b => placeOf coordinate? a.value ≤ placeOf coordinate? b.value
  stable {a b : Node α} : [a, b].Sublist tops →
    placeOf coordinate? a.value = placeOf coordinate? b.value → [a, b].Sublist order

namespace Workspace.RootsInOrder

variable {α : Type} {w : Workspace} {coordinate? : α → String → Option Int}
  {tops order : List (Node α)} {a b : Node α}

theorem of_mergeSort (before : Node α → Node α → Bool) (hbefore : ∀ a b, before a b = true ↔
      placeOf coordinate? a.value ≤ placeOf coordinate? b.value)
    (hroots : w.roots = (tops.mergeSort before).map Node.position) :
    w.RootsInOrder coordinate? tops (tops.mergeSort before) := by
  have htrans (a b c : Node α) (hab : before a b = true) (hbc : before b c = true) :
      before a c = true :=
    (hbefore a c).2 (((hbefore a b).1 hab).trans ((hbefore b c).1 hbc))
  have htotal (a b : Node α) : (before a b || before b a) = true := by
    rw [Bool.or_eq_true, hbefore, hbefore]
    exact le_total _ _
  refine ⟨hroots, List.mergeSort_perm _ _, ?_, fun {a b} hab heq => ?_⟩
  · exact (List.pairwise_mergeSort htrans htotal tops).imp fun {a b} => (hbefore a b).1
  · exact List.pair_sublist_mergeSort htrans htotal ((hbefore a b).2 heq.le) hab

theorem pair_sublist_of_lt (h : w.RootsInOrder coordinate? tops order) (ha : a ∈ tops)
    (hb : b ∈ tops) (hlt : placeOf coordinate? a.value < placeOf coordinate? b.value) :
    [a, b].Sublist order := by
  have hne : a ≠ b := by
    rintro rfl
    exact lt_irrefl _ hlt
  have hpair := pair_sublist_or (h.perm.mem_iff.2 ha) (h.perm.mem_iff.2 hb) hne
  refine hpair.resolve_right fun hba => ?_
  have hle := List.pairwise_pair.1 (h.sorted.sublist hba)
  exact absurd hlt hle.not_gt

theorem unplaced_last (h : w.RootsInOrder coordinate? tops order) (ha : a ∈ tops) (hb : b ∈ tops)
    {y : Int} (hy : coordinate? a.value "y" = some y) (hlast : y < 2 ^ 63 - 1)
    (hnone : coordinate? b.value "y" = none) : [a, b].Sublist order := by
  refine h.pair_sublist_of_lt ha hb (Prod.Lex.toLex_lt_toLex.2 (.inl ?_))
  rw [hy, hnone]
  exact hlast

theorem unplaced_stable (h : w.RootsInOrder coordinate? tops order) (hab : [a, b].Sublist tops)
    (ha : Unplaced coordinate? a.value) (hb : Unplaced coordinate? b.value) :
    [a, b].Sublist order := by
  refine h.stable hab ?_
  rw [placeOf, placeOf, ha.1, ha.2, hb.1, hb.2]

end Workspace.RootsInOrder

def outermost {α : Type} (row : List (Node α)) : List (Node α) := row.filter fun x => x.path.isEmpty

theorem outermost_append {α : Type} (row row' : List (Node α)) :
    outermost (row ++ row') = outermost row ++ outermost row' :=
  List.filter_append ..

namespace Encoding

variable {α : Type} [SizeOf α] (E : Encoding α)

theorem outermost_nodesInside (id : String) (n : Nat) (parts : List (Slot × Option α)) :
    outermost (E.nodesInside id n parts) = [] := by
  induction parts generalizing n with
  | nil => rfl
  | cons p parts ih =>
    obtain ⟨slot, link⟩ := p
    cases link with
    | none => exact ih n
    | some u =>
      rw [nodesInside_some, outermost_append, ih, List.append_nil]
      refine List.filter_eq_nil_iff.2 fun x hx => ?_
      obtain ⟨y, -, rfl⟩ := List.mem_map.1 hx
      exact Bool.false_ne_true

theorem outermost_nodes (n : Nat) (a : α) :
    ∃ i, i + 1 = n + (E.nodes n a).length ∧ outermost (E.nodes n a) = [⟨[], n, i, a⟩] := by
  refine ⟨n + (E.nodesInside (E.idAt n a) n (E.parts a)).length, ?_, ?_⟩
  · rw [nodes_eq, List.length_cons, Nat.add_assoc]
  · rw [nodes_eq, outermost, List.filter_cons_of_pos rfl]
    exact congrArg _ (E.outermost_nodesInside _ n _)

theorem value_outermost (n : Nat) (items : List α) :
    (outermost (inRow E.nodes n items)).map Node.value = items := by
  induction items generalizing n with
  | nil => rfl
  | cons a items ih =>
    obtain ⟨i, -, ha⟩ := E.outermost_nodes n a
    rw [inRow, outermost_append, List.map_append, ih, ha]
    rfl

section

variable {toTop : α → Top} (htop : ∀ a, (toTop a).entry = E.entry a)

include htop

theorem placed_buildTops {items : List α} {placed : List (Top × Nat)} {w w' : Workspace}
    (h : Document.buildTops (items.map toTop) w = .ok (placed, w')) :
    placed = (outermost (inRow E.nodes w.size items)).map fun x => (toTop x.value, x.position) := by
  induction items generalizing w placed with
  | nil =>
    cases h
    rfl
  | cons a items ih =>
    obtain ⟨i, w₁, more, hbuild, htops, rfl⟩ := Document.buildTops_cons_ok h
    rw [htop] at hbuild
    obtain ⟨hi, hlays⟩ := E.buildsNodes a hbuild
    obtain ⟨j, hj, hnodes⟩ := E.outermost_nodes w.size a
    have hij : i = j := by
      have hsize := hlays.size
      omega
    rw [inRow, outermost_append, hnodes, List.map_append, ← hlays.size, ← ih htops, hij]
    rfl

theorem rootsInOrder_workspace {coordinate? : α → String → Option Int}
    (hx : ∀ a, (toTop a).x = coordinate? a "x") (hy : ∀ a, (toTop a).y = coordinate? a "y")
    {d : Document} {items : List α} {w : Workspace}
    (htops : ∀ tops, d.tops = some tops → tops = items.map toTop) (h : d.workspace = .ok w) :
    ∃ order, w.RootsInOrder coordinate? (outermost (E.listing items)) order := by
  obtain ⟨tops, placed, w₁, w₂, hd, hvariables, hplaced, rfl⟩ := Document.workspace_ok h
  have hsize : w₁.size = 0 :=
    congrArg Array.size (Document.addVariables_state d.variableEntries hvariables).1
  rw [htops tops hd] at hplaced
  have hpairs : placed = (outermost (inRow E.nodes w₁.size items)).map fun x =>
    (toTop x.value, x.position) := E.placed_buildTops htop hplaced
  rw [hsize, ← listing] at hpairs
  have hplace (a : α) : toLex ((toTop a).row, (toTop a).column) = placeOf coordinate? a := by
    rw [Top.row, Top.column, hx, hy]
    rfl
  -- To sort the blocks with their positions is to sort their nodes.
  have hsort := List.map_mergeSort (r := fun a b => (toTop a.value).before (toTop b.value))
    (s := fun a b => a.1.before b.1) (f := fun x : Node α => (toTop x.value, x.position))
    (l := outermost (E.listing items)) fun _ _ _ _ => rfl
  refine ⟨_, .of_mergeSort (fun a b => (toTop a.value).before (toTop b.value)) (fun a b => ?_) ?_⟩
  · rw [← hplace, ← hplace]
    exact Top.before_iff
  · change (placed.mergeSort fun a b => a.1.before b.1).map Prod.snd = _
    rw [hpairs, ← hsort, List.map_map]
    rfl

end

/--
A workspace has the blocks of a document. Those on their own are its roots, in the order of their
places: first those with a height, and at the end those without a place as the document has them.
-/
structure Arranges (coordinate? : α → String → Option Int) (items : List α) (w : Workspace)
    (order : List (Node α)) : Prop where
  values : (outermost (E.listing items)).map Node.value = items
  blocks {x : Node α} : x ∈ outermost (E.listing items) →
    ∃ b, w.blocks[x.position]? = some b ∧ E.Describes (E.listing items) x b
  roots : w.RootsInOrder coordinate? (outermost (E.listing items)) order
  unplaced_last {a b : Node α} : a ∈ outermost (E.listing items) →
    b ∈ outermost (E.listing items) → ∀ y, coordinate? a.value "y" = some y → y < 2 ^ 63 - 1 →
    Unplaced coordinate? b.value → [a, b].Sublist order
  unplaced_stable {a b : Node α} : [a, b].Sublist (outermost (E.listing items)) →
    Unplaced coordinate? a.value → Unplaced coordinate? b.value → [a, b].Sublist order

theorem arranges_workspace {toTop : α → Top} (htop : ∀ a, (toTop a).entry = E.entry a)
    {coordinate? : α → String → Option Int} (hx : ∀ a, (toTop a).x = coordinate? a "x")
    (hy : ∀ a, (toTop a).y = coordinate? a "y") {d : Document} {items : List α} {w : Workspace}
    (htops : ∀ tops, d.tops = some tops → tops = items.map toTop) (h : d.workspace = .ok w) :
    ∃ order, E.Arranges coordinate? items w order := by
  obtain ⟨order, horder⟩ := E.rootsInOrder_workspace htop hx hy htops h
  obtain ⟨hlays, -⟩ := E.lays_workspace htop htops h
  exact ⟨order, E.value_outermost 0 items, fun hmem => hlays.laid (List.mem_of_mem_filter hmem),
    horder, fun ha hb y hy hlast hnone => horder.unplaced_last ha hb hy hlast hnone.1,
    horder.unplaced_stable⟩

end Encoding

inductive Workspace.Renders (c : Setup) (w : Workspace) :
    List Nat → Pass → List String → Pass → Prop
  | nil (p : Pass) : w.Renders c [] p [] p
  | cons {i : Nat} {is : List Nat} {p p₁ p' : Pass} {text : String} {texts : List String} :
    ((w.tree i).chain c).run p = (.ok text, p₁) → w.Renders c is p₁ texts p' →
    w.Renders c (i :: is) p (text :: texts) p'

theorem Workspace.renders_iff {c : Setup} {w : Workspace} {is : List Nat} {p p' : Pass}
    {texts : List String} :
    w.Renders c is p texts p' ↔
      ((is.map w.tree).mapM (Tree.chain c)).run p = (.ok texts, p') := by
  constructor
  · intro h
    induction h with
    | nil p => rfl
    | cons htext _ ih =>
      rw [List.map_cons, List.mapM_cons, Render.run_bind_ok htext, Render.run_bind_ok ih]
      rfl
  · intro h
    induction is generalizing p texts with
    | nil =>
      cases h
      exact .nil _
    | cons i is ih =>
      rw [List.map_cons, List.mapM_cons] at h
      obtain ⟨text, p₁, htext, h⟩ := Render.run_bind_eq_ok h
      obtain ⟨rest, p₂, hrest, h⟩ := Render.run_bind_eq_ok h
      cases h
      exact .cons htext (ih hrest)

theorem Setup.renders_of_generate {c : Setup} {w : Workspace} {code : String}
    (h : c.generate w = .ok code) :
    ∃ b p texts p', (c.opened w).run (c.start w) = (.ok b, p) ∧ w.Renders c w.roots p texts p' ∧
      code = assemble p'.definitions (String.join texts) := by
  obtain ⟨q, hrun⟩ : ∃ q, (c.program w).run (c.start w) = (.ok code, q) := ⟨_, Render.run_of_fst h⟩
  rw [program_eq] at hrun
  obtain ⟨b, p, hopened, hrun⟩ := Render.run_bind_eq_ok hrun
  obtain ⟨texts, p', htexts, hrun⟩ := Render.run_bind_eq_ok hrun
  refine ⟨b, p, texts, p', hopened, Workspace.renders_iff.2 htexts, ?_⟩
  cases hrun
  rfl

/--
The roots of a document that can be read are its blocks on their own, from top to bottom and from
left to right, and code is made of the code of the roots in this order.
-/
theorem Document.roots_in_order :
    (∀ (v : Json) (w : Workspace), (ofJson v).workspace = .ok w →
      ∃ order, Encoding.json.Arranges Json.coordinate? v.topItems w order) ∧
    (∀ (x : Xml) (w : Workspace), (ofXml x).workspace = .ok w →
      ∃ order, Encoding.xml.Arranges Xml.coordinate? x.topItems w order) ∧
    ∀ (c : Setup) (w : Workspace) (code : String), c.generate w = .ok code →
      ∃ b p texts p', (c.opened w).run (c.start w) = (.ok b, p) ∧ w.Renders c w.roots p texts p' ∧
        code = assemble p'.definitions (String.join texts) := by
  refine ⟨fun v w h => ?_, fun x w h => ?_, fun c w code h => c.renders_of_generate h⟩
  · exact Encoding.json.arranges_workspace (fun _ => rfl) (fun _ => rfl) (fun _ => rfl)
      (fun _ => Json.eq_topItems_of_tops) h
  · exact Encoding.xml.arranges_workspace (fun _ => rfl) (fun _ => rfl) (fun _ => rfl)
      (fun _ htops => (Option.some.inj htops).symm) h

theorem Document.roots_in_order_columns :
    let entry (type id : String) (more : List (String × Json)) : Json :=
      .object ([("id", .string id), ("type", .string type)] ++ more)
    let flow (text : String) : String × Json := ("fields", .object [("FLOW", .string text)])
    let v : Json := .object [("blocks", .array [
      entry "text_print" "lost" [("y", .string "1")],
      entry "text_print" "right" [("x", .integer 7), ("y", .integer 20),
        ("inputs", .object [("TEXT", .object [("block", entry "text" "inner" [])])])],
      entry "controls_flow_statements" "left" [("x", .integer (-7)), ("y", .integer 20),
        flow "CONTINUE"],
      entry "logic_null" "none" [],
      entry "controls_flow_statements" "top" [("y", .integer 3), flow "BREAK"]])]
    let w : Workspace := {
      blocks := #[
        { id := "lost", type := "text_print" },
        { id := "inner", type := "text" },
        { id := "right", type := "text_print", values := ⟨[("TEXT", some 1)]⟩ },
        { id := "left", type := "controls_flow_statements",
          fields := ⟨[("FLOW", .text "CONTINUE")]⟩ },
        { id := "none", type := "logic_null" },
        { id := "top", type := "controls_flow_statements",
          fields := ⟨[("FLOW", .text "BREAK")]⟩ }],
      roots := [5, 3, 2, 0, 4] }
    let texts := ["// break outside of a loop\n", "// continue outside of a loop\n",
      "println!(\"{}\", \"\");\n", "println!();\n", "None;\n"]
    (ofJson v).workspace = .ok w ∧
      (∃ order, order.map Node.position = [5, 3, 2, 0, 4] ∧
        Encoding.json.Arranges Json.coordinate? v.topItems w order) ∧
      Setup.generate {} w = .ok (String.join texts) ∧
      ∃ p p', w.Renders {} [5, 3, 2, 0, 4] p texts p' ∧
        String.join texts = assemble p'.definitions (String.join texts) := by
  intro entry flow v w texts
  have hroots : (((v.topItems.map Json.top).zip [0, 2, 3, 4, 5]).mergeSort
      fun a b => a.1.before b.1).map Prod.snd = [5, 3, 2, 0, 4] := by
    -- The entries of the blocks play no part in the order, and only the coordinates are sorted.
    let place (t : Top × Nat) : (Int × Int) × Nat := ((t.1.row, t.1.column), t.2)
    have hplaces := List.map_mergeSort (r := fun a b => a.1.before b.1) (f := place)
      (s := fun a b => a.1.1 < b.1.1 || (a.1.1 == b.1.1 && a.1.2 ≤ b.1.2))
      (l := (v.topItems.map Json.top).zip [0, 2, 3, 4, 5]) fun _ _ _ _ => rfl
    have hsnd : Prod.snd ∘ place = Prod.snd := rfl
    rw [← hsnd, ← List.map_map, hplaces]
    let last := Top.lastCoordinate
    change (List.mergeSort [((last, last), 0), ((20, 7), 2), ((20, -7), 3), ((last, last), 4),
      ((3, last), 5)] _).map Prod.snd = _
    cbv
  have hload : (ofJson v).workspace = .ok w := by
    change _ = Except.ok ({ w with roots := [5, 3, 2, 0, 4] } : Workspace)
    rw [← hroots]
    rfl
  have hgenerate : Setup.generate {} w = .ok (String.join texts) := by decide +kernel
  obtain ⟨hjson, -, hcode⟩ := roots_in_order
  obtain ⟨order, horder⟩ := hjson v w hload
  obtain ⟨b, p, texts', p', hopened, hrenders, heq⟩ := hcode {} w _ hgenerate
  have hsame : texts' = texts := by
    have hrun := congrArg Prod.fst (Workspace.renders_iff.1 hrenders)
    obtain rfl : (((({} : Setup).opened w).run (Setup.start {} w)).2) = p :=
      congrArg Prod.snd hopened
    have htexts : (((w.roots.map w.tree).mapM (Tree.chain {})).run
        (((({} : Setup).opened w).run (Setup.start {} w)).2)).1 = .ok texts := by decide +kernel
    exact Except.ok.inj (hrun.symm.trans htexts)
  rw [hsame] at hrenders heq
  exact ⟨hload, ⟨order, horder.roots.roots.symm, horder⟩, hgenerate, p, p', hrenders, heq⟩

end BlockCode
