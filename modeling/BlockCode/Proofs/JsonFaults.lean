import BlockCode.Proofs.JsonDocuments
import BlockCode.Proofs.Nodes

namespace BlockCode

namespace Json

mutual

def InOrder : Json → Prop
  | .object members => (members.map Prod.fst).Pairwise (· < ·) ∧ MembersInOrder members
  | .array items => ItemsInOrder items
  | .null | .bool _ | .integer _ | .real _ | .string _ => True

def MembersInOrder : List (String × Json) → Prop
  | [] => True
  | (_, v) :: rest => v.InOrder ∧ MembersInOrder rest

def ItemsInOrder : List Json → Prop
  | [] => True
  | v :: rest => v.InOrder ∧ ItemsInOrder rest

end

theorem membersInOrder_iff {members : List (String × Json)} :
    MembersInOrder members ↔ ∀ m ∈ members, m.2.InOrder := by
  induction members with
  | nil => simp [MembersInOrder]
  | cons m rest ih => simp [MembersInOrder, ih]

theorem itemsInOrder_iff {items : List Json} : ItemsInOrder items ↔ ∀ v ∈ items, v.InOrder := by
  induction items with
  | nil => simp [ItemsInOrder]
  | cons v rest ih => simp [ItemsInOrder, ih]

theorem inOrder_of_parse {s : String} {v : Json} (h : parse? s = some v) : v.InOrder := by
  refine parse_spec (fun v hitems hmembers => ?_) (fun items hitems => itemsInOrder_iff.2 hitems)
    (fun members hmembers => ?_) h
  · cases v with
    | array items => cases hitems
    | object members => cases hmembers
    | _ => trivial
  · obtain ⟨hsorted, hmem⟩ := ByName.entries_ofList members
    exact ⟨List.pairwise_map.2 hsorted, membersInOrder_iff.2 fun m hm => hmembers m (hmem m hm)⟩

inductive Offends (v : Json) : Prop
  | notObject : (∀ members, v ≠ .object members) → Offends v
  | noType : (∀ type, v.get? "type" ≠ some (.string type)) → Offends v
  | arrayField (name : String) (items : List Json) :
    (name, .array items) ∈ v.membersAt "fields" → Offends v
  | noId (name : String) (members : List (String × Json)) :
    (name, .object members) ∈ v.membersAt "fields" →
    (∀ id, members.lookup "id" ≠ some (.string id)) → Offends v

def fieldFault? : Json → Option DocumentFault
  | .array _ => some .arrayField
  | .object members =>
    if ((members.lookup "id").bind text?).isNone then some .variableFieldWithoutId else none
  | .null | .bool _ | .integer _ | .real _ | .string _ => none

def error? (id : String) (v : Json) : Option DocumentError :=
  if v.members?.isNone then some ⟨[], .notObject⟩
  else if ((v.get? "type").bind text?).isNone then some ⟨[], .missingType id⟩
  else (v.membersAt "fields").findSome? fun f =>
    f.2.fieldFault?.map fun fault => ⟨[.field id f.1], fault⟩

theorem bind_text?_eq_none {o : Option Json} :
    o.bind text? = none ↔ ∀ s, o ≠ some (.string s) := by
  cases o with
  | none => simp
  | some v => cases v <;> simp [text?]

theorem isSome_fieldFault? {v : Json} : v.fieldFault?.isSome = true ↔ (∃ items, v = .array items) ∨
    ∃ members, v = .object members ∧ ∀ id, members.lookup "id" ≠ some (.string id) := by
  cases v with
  | object members =>
    have hid := bind_text?_eq_none (o := members.lookup "id")
    simpa [fieldFault?] using hid
  | _ => simp [fieldFault?]

theorem isSome_error? (id : String) (v : Json) : (v.error? id).isSome = true ↔ v.Offends := by
  have hfields : ((v.membersAt "fields").findSome? fun f =>
      f.2.fieldFault?.map fun fault => (⟨[.field id f.1], fault⟩ : DocumentError)).isSome = true ↔
        ∃ f ∈ v.membersAt "fields", f.2.fieldFault?.isSome = true := by
    simp [List.isSome_findSome?]
  have hnone : v.members?.isNone = true ↔ ∀ members, v ≠ .object members := by
    cases v <;> simp [members?]
  have htype := bind_text?_eq_none (o := v.get? "type")
  rw [← Option.isNone_iff_eq_none] at htype
  constructor
  · intro h
    unfold error? at h
    split at h
    · next hv => exact .notObject (hnone.1 hv)
    · split at h
      · next ht => exact .noType (htype.1 ht)
      · obtain ⟨⟨name, f⟩, hf, hfault⟩ := hfields.1 h
        rcases isSome_fieldFault?.1 hfault with ⟨items, rfl⟩ | ⟨members, rfl, hid⟩
        · exact .arrayField name items hf
        · exact .noId name members hf hid
  · intro h
    unfold error?
    split
    · rfl
    · next hv =>
      split
      · rfl
      · next ht =>
        rw [hfields]
        cases h with
        | notObject h => exact absurd (hnone.2 h) hv
        | noType h => exact absurd (htype.2 h) ht
        | arrayField name items h => exact ⟨_, h, rfl⟩
        | noId name members h hid => exact ⟨_, h, isSome_fieldFault?.2 (.inr ⟨members, rfl, hid⟩)⟩

end Json

def Node.error? (x : Node Json) : Option DocumentError :=
  (x.value.error? (Encoding.json.id x)).map fun e => { e with path := x.path ++ e.path }

theorem Node.error?_within (step : DocumentStep) (x : Node Json) :
    (x.within step).error? = x.error?.map (.within step) := by
  simp only [Node.error?, Option.map_map]
  rfl

theorem Node.isSome_error? (x : Node Json) : x.error?.isSome = true ↔ x.value.Offends := by
  rw [Node.error?, Option.isSome_map, Json.isSome_error?]

theorem findSome?_error?_within (step : DocumentStep) (row : List (Node Json)) :
    (row.map (.within step)).findSome? Node.error? =
      (row.findSome? Node.error?).map (.within step) := by
  rw [List.findSome?_map, List.map_findSome?]
  exact congrArg (List.findSome? · row) (funext (Node.error?_within step))

theorem findSome?_cons_or {α β : Type} (f : α → Option β) (a : α) (as : List α) :
    (a :: as).findSome? f = (f a).or (as.findSome? f) := by
  rw [List.findSome?_cons]
  cases f a <;> rfl

/-- From this workspace the action fails with an error, or else it succeeds and adds `k` blocks. -/
def Build.Ends {α : Type} (act : Build α) (w : Workspace) (error? : Option DocumentError)
    (k : Nat) : Prop :=
  match error? with
  | some e => act w = .error e
  | none => ∃ a w', act w = .ok (a, w') ∧ w'.size = w.size + k

namespace Build.Ends

variable {α β : Type} {x : Build α} {f : α → Build β} {w : Workspace}
  {error? error?' : Option DocumentError} {k k' : Nat}

theorem pure (a : α) : Ends (pure a) w none 0 := ⟨a, w, rfl, rfl⟩

theorem bind (hx : x.Ends w error? k)
    (hf : ∀ a w', w'.size = w.size + k → (f a).Ends w' error?' k') :
    (x >>= f).Ends w (error?.or error?') (k + k') := by
  cases error? with
  | some e => exact bind_of_error hx f
  | none =>
    obtain ⟨a, w', hrun, hsize⟩ := hx
    have hnext := hf a w' hsize
    rw [Option.none_or]
    cases error?' with
    | some e => exact bind_of_ok hrun hnext
    | none =>
      obtain ⟨b, w'', hrun', hsize'⟩ := hnext
      exact ⟨b, w'', bind_of_ok hrun hrun', by omega⟩

theorem within (hx : x.Ends w error? k) (step : DocumentStep) :
    (x.within step).Ends w (error?.map (.within step)) k := by
  cases error? with
  | some e =>
    have hx : x w = .error e := hx
    change x.within step w = _
    rw [Build.within, hx]
  | none =>
    obtain ⟨a, w', hrun, hsize⟩ := hx
    exact ⟨a, w', within_of_ok hrun step, hsize⟩

theorem congr {y : Build α} (hy : y.Ends w error? k) (h : x w = y w) : x.Ends w error? k := by
  unfold Ends
  rwa [h]

theorem eq_error_iff (hx : x.Ends w error? k) {e : DocumentError} :
    x w = .error e ↔ error? = some e := by
  cases error? with
  | some e' =>
    have hx : x w = .error e' := hx
    simp [hx]
  | none =>
    obtain ⟨a, w', hrun, -⟩ := hx
    simp [hrun]

end Build.Ends

open Build Encoding

theorem ends_enter_field (name : String) (v : Json) (b : Block) (w : Workspace) :
    Ends (Slot.enter b none (.field name (v.fieldEntry name))) w
      (v.fieldFault?.map fun fault => ⟨[], fault⟩) 0 := by
  have hvariable : ∀ id shown,
      Ends (Slot.enter b none (.field name (.variable id shown))) w none 0 := fun id shown =>
    ⟨_, _, rfl, congrArg Array.size (w.blocks_addVariable id shown)⟩
  cases v with
  | array items => rfl
  | string s =>
    rw [Json.fieldEntry]
    split
    · exact hvariable s s
    · exact ⟨_, _, rfl, rfl⟩
  | object members =>
    rw [Json.fieldEntry, Json.fieldFault?]
    dsimp only [Json.get?]
    cases (members.lookup "id").bind Json.text? with
    | none => rfl
    | some id => exact hvariable id _
  | _ => exact ⟨_, _, rfl, rfl⟩

theorem ends_fields (id : String) (fields : List (String × Json)) (b : Block) (w : Workspace) :
    Ends (buildParts id (fields.map fun f => (.field f.1 (f.2.fieldEntry f.1), none)) b) w
      (fields.findSome? fun f => f.2.fieldFault?.map fun fault => ⟨[.field id f.1], fault⟩) 0 := by
  induction fields generalizing b w with
  | nil => exact .pure b
  | cons f fields ih =>
    have hfield := (ends_enter_field f.1 f.2 b w).within (.field id f.1)
    rw [Option.map_map] at hfield
    have hall := hfield.bind fun b' w' _ => ih b' w'
    rw [List.map_cons, buildParts, findSome?_cons_or]
    exact hall

theorem ends_enter {slot : Slot} (h : ∀ name entry, slot ≠ .field name entry) (b : Block)
    (link : Option Nat) (w : Workspace) : Ends (slot.enter b link) w none 0 := by
  cases slot with
  | field name entry => exact absurd rfl (h name entry)
  | _ => exact ⟨_, w, rfl, rfl⟩

theorem ends_parts (id : String) (parts : List (Slot × Option Json))
    (hslots : ∀ p ∈ parts, ∀ name entry, p.1 ≠ .field name entry)
    (hnodes : ∀ slot u, (slot, some u) ∈ parts → ∀ w, Ends u.blockEntry.build w
      ((json.nodes w.size u).findSome? Node.error?) (json.nodes w.size u).length)
    (b : Block) (w : Workspace) :
    Ends (buildParts id (parts.map fun p => (p.1, p.2.map Json.blockEntry)) b) w
      ((json.nodesInside id w.size parts).findSome? Node.error?)
      (json.nodesInside id w.size parts).length := by
  induction parts generalizing b w with
  | nil => exact .pure b
  | cons p parts ih =>
    obtain ⟨slot, link⟩ := p
    obtain ⟨hslot, hslots⟩ := List.forall_mem_cons.1 hslots
    have hrest := ih hslots fun slot u hu => hnodes slot u (List.mem_cons_of_mem _ hu)
    rw [List.map_cons, buildParts]
    cases link with
    | none =>
      have hpart := (ends_enter hslot b none w).within (slot.step id)
      have hall := hpart.bind fun b' w' hw' => by
        have hrest' := hrest b' w'
        rwa [hw', Nat.add_zero] at hrest'
      rwa [Nat.zero_add] at hall
    | some u =>
      have hlink := (hnodes slot u List.mem_cons_self w).bind fun i w' _ =>
        Ends.pure (w := w') (some i)
      have hpart := (hlink.bind fun link w' _ => ends_enter hslot b link w').within (slot.step id)
      rw [Option.or_none, Option.or_none] at hpart
      have hall := hpart.bind fun b' w' hw' => by
        have hrest' := hrest b' w'
        rwa [hw'] at hrest'
      rw [nodesInside_some, List.findSome?_append, findSome?_error?_within, List.length_append,
        List.length_map, Option.map_some, buildLink, map_eq_pure_bind]
      exact hall

theorem ends_blockEntry (v : Json) (w : Workspace) :
    Ends v.blockEntry.build w ((json.nodes w.size v).findSome? Node.error?)
      (json.nodes w.size v).length := by
  have hself : ∀ position, Node.error? ⟨[], w.size, position, v⟩ =
      v.error? (json.idAt w.size v) := fun position => by
    simp [Node.error?, Encoding.id]
  rw [nodes_eq, findSome?_cons_or, hself, List.length_cons]
  rcases v.blockEntry_eq with ⟨hmalformed, -⟩ | hblock
  · have hmembers : v.members? = none := by
      cases v with
      | object members => simp [Json.blockEntry] at hmalformed
      | _ => rfl
    rw [hmalformed, Json.error?, hmembers]
    rfl
  · have hmembers : v.members?.isNone = false := by
      cases v with
      | object members => rfl
      | _ => simp [Json.blockEntry] at hblock
    rw [hblock, Json.error?, hmembers]
    cases htype : (v.get? "type").bind Json.text? with
    | none => exact Entry.build_of_no_type htype w
    | some type =>
      have hlinks := fun b w' => ends_parts (json.idAt w.size v) v.linkParts
        (fun p hp => Json.ne_field_of_mem_linkParts hp) (fun slot u hu => ends_blockEntry u) b w'
      have hfields := ends_fields (json.idAt w.size v) (v.membersAt "fields")
        { id := json.idAt w.size v, type, disabled := v.caption.disabled } w
      have hparts := hfields.bind fun b w' hw' => by
        have hlinks' := hlinks b w'
        rwa [hw', Nat.add_zero] at hlinks'
      have hadd : ∀ (b : Block) (w' : Workspace),
          Ends (modifyGet fun w => (w.size, w.add b)) w' none 1 := fun b w' =>
        ⟨_, _, rfl, Array.size_push ..⟩
      have hall := hparts.bind fun b w' _ => hadd b w'
      rw [Option.or_none, Nat.zero_add, ← Json.nodesInside_nodeParts, ← buildParts_append] at hall
      refine hall.congr ?_
      rw [Json.nodeParts, List.map_append, List.map_map]
      exact Entry.build_of_type htype w
termination_by sizeOf v
decreasing_by exact Json.smaller_nodeParts (List.mem_append_right _ hu)

open Document

theorem ends_buildTops (items : List Json) (w : Workspace) :
    Ends (buildTops (items.map Json.top)) w
      ((inRow json.nodes w.size items).findSome? Node.error?)
      (inRow json.nodes w.size items).length := by
  induction items generalizing w with
  | nil => exact .pure []
  | cons v items ih =>
    have hrest := fun i (w' : Workspace)
        (hw' : w'.size = w.size + (json.nodes w.size v).length) => by
      have hall := (ih w').bind fun placed w'' _ => Ends.pure (w := w'') ((v.top, i) :: placed)
      rwa [hw', Option.or_none] at hall
    rw [List.map_cons, buildTops, inRow, List.findSome?_append, List.length_append]
    exact (ends_blockEntry v w).bind hrest

theorem addVariables_of_none_mem {entries : List (Option (String × String))} (h : none ∈ entries)
    (w : Workspace) : addVariables entries w = .error ⟨[], .variableWithoutId⟩ := by
  induction entries generalizing w with
  | nil => cases h
  | cons entry rest ih =>
    cases entry with
    | none => rfl
    | some entry => exact ih (by simpa using h) _

theorem ends_addVariables {entries : List (Option (String × String))} (h : none ∉ entries)
    (w : Workspace) : Ends (addVariables entries) w none 0 := by
  induction entries generalizing w with
  | nil => exact .pure ()
  | cons entry rest ih =>
    cases entry with
    | none => exact absurd List.mem_cons_self h
    | some entry =>
      have hadd : Ends (modify (·.addVariable entry.1 entry.2)) w none 0 :=
        ⟨_, _, rfl, congrArg Array.size (w.blocks_addVariable ..)⟩
      exact hadd.bind fun _ w' _ => ih (fun h' => h (List.mem_cons_of_mem _ h')) w'

theorem ends_build {d : Document} {items : List Json} (hvariables : none ∉ d.variableEntries)
    (htops : d.tops = some (items.map Json.top)) :
    Ends d.build {} ((json.listing items).findSome? Node.error?) (json.listing items).length := by
  have hroots : ∀ (roots : List Nat) (w : Workspace),
      Ends (modify fun w => { w with roots }) w none 0 := fun roots w => ⟨_, _, rfl, rfl⟩
  have hblocks := fun (w : Workspace) (hw : w.size = 0) => by
    have hall := (ends_buildTops items w).bind fun placed w' _ =>
      hroots ((placed.mergeSort fun a b => a.1.before b.1).map Prod.snd) w'
    rwa [hw, Option.or_none] at hall
  have hall := (ends_addVariables hvariables {}).bind fun _ w hw => hblocks w hw
  rw [Nat.zero_add] at hall
  rw [build, htops]
  exact hall

theorem Document.workspace_eq_error_iff {d : Document} {e : DocumentError} :
    d.workspace = .error e ↔ d.build {} = .error e := by
  unfold workspace StateT.run
  cases d.build {} <;> simp [bind, Except.bind, pure, Except.pure]

namespace Json

def ListsNameless (v : Json) : Prop :=
  ∃ items, v.get? "variables" = some (.array items) ∧
    ∃ u ∈ items, ∀ id, u.get? "id" ≠ some (.string id)

def MisplacesBlocks (v : Json) : Prop :=
  ∃ u, v.get? "blocks" = some u ∧ (∀ items, u ≠ .array items) ∧ ∀ members, u ≠ .object members

/-- The error that a document is refused with. -/
inductive Refused (v : Json) : DocumentError → Prop
  | nameless : v.ListsNameless → Refused v ⟨[], .variableWithoutId⟩
  | misplaced : ¬ v.ListsNameless → v.MisplacesBlocks → Refused v ⟨[], .blocksShape⟩
  | node (before after : List (Node Json)) (x : Node Json) (e : DocumentError) :
    ¬ v.ListsNameless → v.blockNodes = before ++ x :: after →
    (∀ y ∈ before, ¬ y.value.Offends) → x.error? = some e → Refused v e

theorem none_mem_variableEntries {v : Json} :
    none ∈ (ofJson v).variableEntries ↔ v.ListsNameless := by
  have hentry : ∀ u : Json, u.variableEntry = none ↔ ∀ id, u.get? "id" ≠ some (.string id) :=
    fun u => by rw [variableEntry, Option.map_eq_none_iff, bind_text?_eq_none]
  unfold ListsNameless ofJson
  cases v.get? "variables" with
  | none => simp
  | some u => cases u <;> simp [items?, hentry]

theorem tops_ofJson {v : Json} (h : ¬ v.MisplacesBlocks) :
    (ofJson v).tops = some (v.topItems.map top) := by
  unfold MisplacesBlocks at h
  unfold ofJson topItems
  cases hblocks : v.get? "blocks" with
  | none => rfl
  | some u => cases u <;> simp_all [get?]

theorem tops_of_misplaced {v : Json} (h : v.MisplacesBlocks) :
    (ofJson v).tops = none ∧ v.topItems = [] := by
  obtain ⟨u, hblocks, harray, hobject⟩ := h
  simp only [ofJson, topItems, hblocks]
  cases u <;> simp_all

theorem refused_of_listsNameless {v : Json} (h : v.ListsNameless) {e : DocumentError} :
    v.Refused e ↔ some ⟨[], .variableWithoutId⟩ = some e := by
  constructor
  · rintro (- | ⟨hvariables, -⟩ | ⟨-, -, -, _, hvariables, -, -, -⟩)
    · rfl
    · exact absurd h hvariables
    · exact absurd h hvariables
  · rintro ⟨⟩
    exact .nameless h

theorem refused_of_misplacesBlocks {v : Json} (hvariables : ¬ v.ListsNameless)
    (h : v.MisplacesBlocks) {e : DocumentError} :
    v.Refused e ↔ some ⟨[], .blocksShape⟩ = some e := by
  constructor
  · rintro (h' | - | ⟨before, after, x, _, -, hsplit, -, -⟩)
    · exact absurd h' hvariables
    · rfl
    · rw [blockNodes, (tops_of_misplaced h).2] at hsplit
      simp [listing, inRow] at hsplit
  · rintro ⟨⟩
    exact .misplaced hvariables h

theorem refused_iff_findSome? {v : Json} (hvariables : ¬ v.ListsNameless)
    (hblocks : ¬ v.MisplacesBlocks) {e : DocumentError} :
    v.Refused e ↔ v.blockNodes.findSome? Node.error? = some e := by
  have hnone : ∀ y : Node Json, y.error? = none ↔ ¬ y.value.Offends := fun y => by
    rw [← y.isSome_error?, Bool.not_eq_true, Option.isSome_eq_false_iff, Option.isNone_iff_eq_none]
  rw [List.findSome?_eq_some_iff]
  constructor
  · rintro (h | ⟨-, h⟩ | ⟨before, after, x, _, -, hsplit, hbefore, hx⟩)
    · exact absurd h hvariables
    · exact absurd h hblocks
    · exact ⟨before, x, after, hsplit, hx, fun y hy => (hnone y).2 (hbefore y hy)⟩
  · rintro ⟨before, x, after, hsplit, hx, hbefore⟩
    exact .node before after x e hvariables hsplit (fun y hy => (hnone y).1 (hbefore y hy)) hx

theorem workspace_eq_error_iff_refused (v : Json) (e : DocumentError) :
    (ofJson v).workspace = .error e ↔ v.Refused e := by
  rw [workspace_eq_error_iff]
  by_cases hvariables : v.ListsNameless
  · have hadd := addVariables_of_none_mem (none_mem_variableEntries.2 hvariables) {}
    rw [refused_of_listsNameless hvariables, build, bind_of_error hadd]
    simp
  · have hentries := mt none_mem_variableEntries.1 hvariables
    by_cases hblocks : v.MisplacesBlocks
    · have hfail : ∀ w, Ends (Build.fail .blocksShape : Build Unit) w
          (some ⟨[], .blocksShape⟩) 0 := fun w => rfl
      have hbuild := (ends_addVariables hentries {}).bind fun _ w _ => hfail w
      rw [refused_of_misplacesBlocks hvariables hblocks, build, (tops_of_misplaced hblocks).1]
      exact hbuild.eq_error_iff
    · rw [refused_iff_findSome? hvariables hblocks]
      exact (ends_build hentries (tops_ofJson hblocks)).eq_error_iff

theorem exists_refused_iff (v : Json) : (∃ e, v.Refused e) ↔
    v.ListsNameless ∨ v.MisplacesBlocks ∨ ∃ x ∈ v.blockNodes, x.value.Offends := by
  constructor
  · rintro ⟨e, h | ⟨-, h⟩ | ⟨before, after, x, _, -, hsplit, -, hx⟩⟩
    · exact .inl h
    · exact .inr (.inl h)
    · exact .inr (.inr ⟨x, by simp [hsplit], x.isSome_error?.1 (by simp [hx])⟩)
  · intro h
    by_cases hvariables : v.ListsNameless
    · exact ⟨_, .nameless hvariables⟩
    · by_cases hblocks : v.MisplacesBlocks
      · exact ⟨_, .misplaced hvariables hblocks⟩
      · obtain ⟨x, hx, hoffends⟩ := (h.resolve_left hvariables).resolve_left hblocks
        have hsome : (v.blockNodes.findSome? Node.error?).isSome = true :=
          List.isSome_findSome?.trans (List.any_eq_true.2 ⟨x, hx, x.isSome_error?.2 hoffends⟩)
        obtain ⟨e, he⟩ := Option.isSome_iff_exists.1 hsome
        exact ⟨e, (refused_iff_findSome? hvariables hblocks).2 he⟩

end Json

/-- A document in JSON is refused if a variable is listed without an id, if the blocks are in the
wrong place, or if a node cannot stand for a block, and for no other reason. The error is that of
the first such node, under the steps that lead to it. -/
theorem Document.ofJson_refused (v : Json) :
    ((∃ e, (ofJson v).workspace = .error e) ↔
      v.ListsNameless ∨ v.MisplacesBlocks ∨ ∃ x ∈ v.blockNodes, x.value.Offends) ∧
    (∀ e, (ofJson v).workspace = .error e ↔ v.Refused e) ∧
    ∀ source, Json.parse? source = some v →
      v.InOrder ∧ Document.readJson source = (ofJson v).workspace := by
  have herror := v.workspace_eq_error_iff_refused
  refine ⟨?_, herror, fun source hsource => ⟨Json.inOrder_of_parse hsource, ?_⟩⟩
  · rw [← v.exists_refused_iff]
    exact exists_congr herror
  · rw [readJson, hsource]

theorem Document.ofJson_refused_shadow :
    let source := r#"{"blocks": [{"type": "text_print", "inputs": {"TEXT": {"# ++
      r#""block": {"id": "j", "type": "text_join", "inputs": {"ADD0": {"shadow": {"id": "t"}}}}}}}]}"#
    let e : DocumentError :=
      ⟨[.input .input "block1" "TEXT", .input .input "j" "ADD0"], .missingType "t"⟩
    Document.readJson source = .error e ∧
      ∃ v, Json.parse? source = some v ∧ v.InOrder ∧ (∃ x ∈ v.blockNodes, x.value.Offends) ∧
        ∃ before x after, v.blockNodes = before ++ x :: after ∧ x.error? = some e := by
  intro source e
  have hread : Document.readJson source = .error e := by decide +kernel
  refine ⟨hread, ?_⟩
  cases hsource : Json.parse? source with
  | none => simp [readJson, hsource, e] at hread
  | some v =>
    obtain ⟨-, herror, hparsed⟩ := Document.ofJson_refused v
    obtain ⟨horder, hload⟩ := hparsed source hsource
    generalize he : e = e' at hread ⊢
    cases (herror e').1 (hload.symm.trans hread) with
    | nameless => exact absurd he (by decide)
    | misplaced => exact absurd he (by decide)
    | node before after x _ _ hsplit _ hx =>
      have hoffends := x.isSome_error?.1 (hx ▸ rfl)
      exact ⟨v, rfl, horder, ⟨x, by simp [hsplit], hoffends⟩, before, x, after, hsplit, hx⟩

end BlockCode
