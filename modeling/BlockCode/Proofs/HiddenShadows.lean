import BlockCode.Proofs.Nodes

namespace BlockCode

def Node.map {α : Type} (f : α → α) (x : Node α) : Node α := { x with value := f x.value }

namespace Encoding

variable {α : Type} [SizeOf α] (E : Encoding α) {f : α → α}

theorem nodesInside_map (parts : List (Slot × Option α))
    (h : ∀ slot u, (slot, some u) ∈ parts → ∀ n, E.nodes n (f u) = (E.nodes n u).map (.map f))
    (id : String) (n : Nat) :
    E.nodesInside id n (parts.map fun p => (p.1, p.2.map f)) =
      (E.nodesInside id n parts).map (.map f) := by
  induction parts generalizing n with
  | nil => rfl
  | cons p parts ih =>
    obtain ⟨slot, link⟩ := p
    have ih := ih fun slot u hu => h slot u (List.mem_cons_of_mem _ hu)
    cases link with
    | none => exact ih n
    | some u =>
      have hu := h slot u List.mem_cons_self n
      simp only [List.map_cons, Option.map_some, nodesInside_some, hu, ih, List.map_append,
        List.map_map, List.length_map]
      rfl

section

variable (hcaption : ∀ a, E.caption (f a) = E.caption a)
  (hparts : ∀ a, E.parts (f a) = (E.parts a).map fun p => (p.1, p.2.map f))

include hcaption hparts

theorem entry_map (hmalformed : ∀ a, E.entry (f a) = .malformed ↔ E.entry a = .malformed) (a : α) :
    E.entry (f a) = E.entry a := by
  rcases E.entry_eq a with ⟨h, -⟩ | h
  · rw [h, (hmalformed a).2 h]
  · rcases E.entry_eq (f a) with ⟨hf, -⟩ | hf
    · rw [hf, (hmalformed a).1 hf]
    · rw [hf, h, hcaption, hparts, List.map_map]
      refine congrArg (Entry.block _) (List.map_congr_left fun p hp => ?_)
      obtain ⟨slot, link⟩ := p
      cases link with
      | none => rfl
      | some u =>
        -- The blocks inside are smaller.
        have hu := entry_map hmalformed u
        simp [hu]
termination_by sizeOf a
decreasing_by exact E.smaller hp

theorem nodes_map (n : Nat) (a : α) : E.nodes n (f a) = (E.nodes n a).map (.map f) := by
  have hid : E.idAt n (f a) = E.idAt n a := by rw [idAt, idAt, hcaption]
  have hinside := E.nodesInside_map (E.parts a)
    (fun slot u hu k => nodes_map k u) (E.idAt n a) n
  rw [nodes_eq, nodes_eq, hid, hparts, hinside, List.map_cons, List.length_map]
  rfl
termination_by sizeOf a
decreasing_by exact E.smaller hu

theorem listing_map (tops : List α) :
    E.listing (tops.map f) = (E.listing tops).map (.map f) := by
  unfold listing
  generalize 0 = n
  induction tops generalizing n with
  | nil => rfl
  | cons a tops ih =>
    rw [List.map_cons, inRow, inRow, E.nodes_map hcaption hparts, ih, List.map_append,
      List.length_map]

end

end Encoding

namespace Json

mutual

def bareBlock : Json → Json
  | .object members => .object (bareParts members)
  | v => v

def bareParts : List (String × Json) → List (String × Json)
  | [] => []
  | (n, v) :: rest =>
    (n, if n = "inputs" ∨ n = "statements" then bareInputs v
      else if n = "next" then bareConnection v
      else v) :: bareParts rest

def bareInputs : Json → Json
  | .object members => .object (bareEach members)
  | v => v

def bareEach : List (String × Json) → List (String × Json)
  | [] => []
  | (n, v) :: rest => (n, bareConnection v) :: bareEach rest

def bareConnection : Json → Json
  | .object members => .object (bareTargets (members.lookup "block").isSome members)
  | v => v

def bareTargets (hides : Bool) : List (String × Json) → List (String × Json)
  | [] => []
  | (n, v) :: rest =>
    if hides ∧ n = "shadow" then bareTargets hides rest
    else (n, if n = "block" ∨ n = "shadow" then bareBlock v else v) :: bareTargets hides rest

end

def bareItems : Json → Json
  | .array items => .array (items.map bareBlock)
  | v => v

def bareTops : Json → Json
  | .array items => .array (items.map bareBlock)
  | .object members =>
    .object (members.map fun m => (m.1, if m.1 = "blocks" then bareItems m.2 else m.2))
  | v => v

def bare : Json → Json
  | .object members =>
    .object (members.map fun m => (m.1, if m.1 = "blocks" then bareTops m.2 else m.2))
  | v => v

def connectionsOf (v : Json) : List Json :=
  (v.membersAt "inputs" ++ v.membersAt "statements").map Prod.snd ++ (v.get? "next").toList

def Crowded (c : Json) : Prop := (c.get? "block").isSome ∧ (c.get? "shadow").isSome

theorem bareParts_eq (members : List (String × Json)) :
    bareParts members = members.map fun m =>
      (m.1, if m.1 = "inputs" ∨ m.1 = "statements" then bareInputs m.2
        else if m.1 = "next" then bareConnection m.2
        else m.2) := by
  induction members with
  | nil => rfl
  | cons m rest ih => rw [bareParts, ih, List.map_cons]

theorem bareEach_eq (members : List (String × Json)) :
    bareEach members = members.map fun m => (m.1, bareConnection m.2) := by
  induction members with
  | nil => rfl
  | cons m rest ih => rw [bareEach, ih, List.map_cons]

theorem lookup_bareTargets (hides : Bool) (name : String) (members : List (String × Json)) :
    (bareTargets hides members).lookup name =
      if hides ∧ name = "shadow" then none
      else (members.lookup name).map fun v =>
        if name = "block" ∨ name = "shadow" then bareBlock v else v := by
  induction members with
  | nil => simp [bareTargets]
  | cons m rest ih =>
    obtain ⟨n, v⟩ := m
    rw [bareTargets, ByName.lookup_cons_eq]
    by_cases hname : name = n
    · subst hname
      split
      · next h => rw [ih, if_pos h]
      · simp
    · have hrest : (bareTargets hides rest).lookup name = (((n, if n = "block" ∨ n = "shadow"
          then bareBlock v else v) :: bareTargets hides rest).lookup name) := by
        rw [ByName.lookup_cons_eq, if_neg hname]
      rw [if_neg hname, ← ih, apply_ite (List.lookup name), ← hrest, ite_self]

theorem get?_bareBlock (name : String) (v : Json) :
    v.bareBlock.get? name = (v.get? name).map fun u =>
      if name = "inputs" ∨ name = "statements" then bareInputs u
      else if name = "next" then bareConnection u
      else u := by
  cases v with
  | object members =>
    rw [bareBlock, get?, get?, bareParts_eq]
    exact ByName.lookup_map (fun n u => if n = "inputs" ∨ n = "statements" then bareInputs u
      else if n = "next" then bareConnection u else u) members name
  | _ => simp [bareBlock, get?]

theorem get?_bareConnection (name : String) (c : Json) :
    c.bareConnection.get? name =
      if (c.get? "block").isSome ∧ name = "shadow" then none
      else (c.get? name).map fun v =>
        if name = "block" ∨ name = "shadow" then bareBlock v else v := by
  cases c with
  | object members =>
    rw [bareConnection, get?, lookup_bareTargets]
    rfl
  | _ => simp [bareConnection, get?]

theorem target?_bareConnection (c : Json) : c.bareConnection.target? = c.target?.map bareBlock := by
  rw [target?, target?, get?_bareConnection, get?_bareConnection]
  cases c.get? "block" <;> simp

theorem not_crowded_bareConnection (c : Json) : ¬ c.bareConnection.Crowded := by
  rintro ⟨hblock, hshadow⟩
  rw [get?_bareConnection] at hblock hshadow
  cases hget : c.get? "block" <;> simp [hget] at hblock hshadow

theorem membersAt_bareBlock {name : String} (h : name = "inputs" ∨ name = "statements") (v : Json) :
    v.bareBlock.membersAt name = (v.membersAt name).map fun m => (m.1, bareConnection m.2) := by
  rw [membersAt, membersAt, get?_bareBlock]
  simp only [if_pos h]
  cases v.get? name with
  | none => rfl
  | some u =>
    cases u with
    | object members => exact bareEach_eq members
    | _ => simp [bareInputs, members?]

theorem nodeParts_bareBlock (v : Json) :
    v.bareBlock.nodeParts = v.nodeParts.map fun p => (p.1, p.2.map bareBlock) := by
  have hfields : v.bareBlock.membersAt "fields" = v.membersAt "fields" := by
    simp [membersAt, get?_bareBlock]
  have hshape : v.bareBlock.shape? = v.shape? := by simp [shape?, get?_bareBlock]
  rw [nodeParts, nodeParts, linkParts, linkParts, hfields, hshape, membersAt_bareBlock (.inl rfl),
    membersAt_bareBlock (.inr rfl), get?_bareBlock]
  cases v.get? "next" <;> simp [target?_bareConnection, Function.comp_def]

theorem caption_bareBlock (v : Json) : v.bareBlock.caption = v.caption := by
  simp [caption, get?_bareBlock]

theorem blockEntry_bareBlock (v : Json) : v.bareBlock.blockEntry = v.blockEntry := by
  refine Encoding.json.entry_map caption_bareBlock nodeParts_bareBlock (fun v => ?_) v
  cases v with
  | object members => simp [Encoding.json, bareBlock, blockEntry]
  | _ => simp [bareBlock]

theorem top_bareBlock (v : Json) : v.bareBlock.top = v.top := by
  simp [top, blockEntry_bareBlock, get?_bareBlock]

theorem get?_bare (name : String) (v : Json) :
    v.bare.get? name = (v.get? name).map fun u => if name = "blocks" then bareTops u else u := by
  cases v with
  | object members =>
    exact ByName.lookup_map (fun n u => if n = "blocks" then bareTops u else u) members name
  | _ => simp [bare, get?]

theorem lookup_bareTops (members : List (String × Json)) :
    (members.map fun m => (m.1, if m.1 = "blocks" then bareItems m.2 else m.2)).lookup "blocks" =
      (members.lookup "blocks").map bareItems :=
  ByName.lookup_map (fun n u => if n = "blocks" then bareItems u else u) members "blocks"

theorem topItems_bare (v : Json) : v.bare.topItems = v.topItems.map bareBlock := by
  unfold topItems
  rw [get?_bare]
  cases v.get? "blocks" with
  | none => rfl
  | some u =>
    cases u with
    | object members =>
      simp only [Option.map_some, if_true, bareTops, lookup_bareTops]
      cases members.lookup "blocks" with
      | none => rfl
      | some u => cases u <;> rfl
    | _ => rfl

theorem ofJson_bare (v : Json) : Document.ofJson v.bare = Document.ofJson v := by
  unfold Document.ofJson
  rw [get?_bare, get?_bare]
  congr 1
  · simp
  · cases v.get? "blocks" with
    | none => rfl
    | some u =>
      cases u with
      | array items => simp [bareTops, top_bareBlock, Function.comp_def]
      | object members =>
        simp only [Option.map_some, if_true, bareTops, get?, lookup_bareTops]
        cases members.lookup "blocks" with
        | none => rfl
        | some u => cases u <;> simp [bareItems, items?, top_bareBlock, Function.comp_def]
      | _ => rfl

theorem connectionsOf_bareBlock (v : Json) :
    v.bareBlock.connectionsOf = v.connectionsOf.map bareConnection := by
  rw [connectionsOf, connectionsOf, membersAt_bareBlock (.inl rfl), membersAt_bareBlock (.inr rfl),
    get?_bareBlock]
  cases v.get? "next" <;> simp [Function.comp_def]

theorem not_crowded_of_mem_bare {v c : Json} {x : Node Json} (hx : x ∈ v.bare.blockNodes)
    (hc : c ∈ x.value.connectionsOf) : ¬ c.Crowded := by
  rw [blockNodes, topItems_bare,
    Encoding.json.listing_map caption_bareBlock nodeParts_bareBlock] at hx
  obtain ⟨y, -, rfl⟩ := List.mem_map.1 hx
  rw [Node.map, connectionsOf_bareBlock] at hc
  obtain ⟨c, -, rfl⟩ := List.mem_map.1 hc
  exact not_crowded_bareConnection c

end Json

namespace Xml

mutual

def bareBlock : Xml → Xml
  | .element tag attributes children => .element tag attributes (bareParts children)
  | .text s => .text s

def bareParts : List Xml → List Xml
  | [] => []
  | x :: rest => (if x.isConnection then bareConnection x else x) :: bareParts rest

def bareConnection : Xml → Xml
  | .element tag attributes children =>
    .element tag attributes (bareTargets (children.any (isElement "block")) children)
  | .text s => .text s

def bareTargets (hides : Bool) : List Xml → List Xml
  | [] => []
  | x :: rest =>
    if hides && x.isElement "shadow" then bareTargets hides rest
    else (if x.isElement "block" || x.isElement "shadow" then bareBlock x else x) ::
      bareTargets hides rest

end

def bare : Xml → Xml
  | .element tag attributes children => .element tag attributes (bareTargets false children)
  | .text s => .text s

def Crowded (c : Xml) : Prop :=
  c.children.any (isElement "block") ∧ c.children.any (isElement "shadow")

def connectionsOf (x : Xml) : List Xml := x.children.filter isConnection

def bareTarget (x : Xml) : Xml :=
  if x.isElement "block" || x.isElement "shadow" then bareBlock x else x

@[simp] theorem isElement_bareBlock (tag : String) (x : Xml) :
    x.bareBlock.isElement tag = x.isElement tag := by
  cases x <;> simp [bareBlock, isElement]

@[simp] theorem isElement_bareConnection (tag : String) (x : Xml) :
    x.bareConnection.isElement tag = x.isElement tag := by
  cases x <;> simp [bareConnection, isElement]

@[simp] theorem isElement_bareTarget (tag : String) (x : Xml) :
    x.bareTarget.isElement tag = x.isElement tag := by
  unfold bareTarget
  split <;> simp

@[simp] theorem attribute?_bareBlock (name : String) (x : Xml) :
    x.bareBlock.attribute? name = x.attribute? name := by
  cases x <;> simp [bareBlock, attribute?]

theorem bareParts_eq (children : List Xml) :
    bareParts children = children.map fun x => if x.isConnection then bareConnection x else x := by
  induction children with
  | nil => rfl
  | cons x rest ih => rw [bareParts, ih, List.map_cons]

theorem bareTargets_eq (hides : Bool) (children : List Xml) :
    bareTargets hides children =
      (children.filter fun x => !(hides && x.isElement "shadow")).map bareTarget := by
  induction children with
  | nil => rfl
  | cons x rest ih =>
    rw [bareTargets, ih]
    split
    · next h => rw [List.filter_cons_of_neg (by simpa using h)]
    · next h =>
      rw [Bool.not_eq_true] at h
      rw [List.filter_cons_of_pos (by simp [h]), List.map_cons, bareTarget]

theorem find?_bareTargets (hides : Bool) {tag : String} (h : tag ≠ "shadow") (children : List Xml) :
    (bareTargets hides children).find? (isElement tag) =
      (children.find? (isElement tag)).map bareTarget := by
  have htag : ∀ x : Xml, decide ((!(hides && x.isElement "shadow")) = true ∧
      x.isElement tag = true) = x.isElement tag := fun x => by
    cases hx : x.isElement tag with
    | false => simp
    | true => simp [isElement_of_ne hx h]
  rw [bareTargets_eq, List.find?_map, List.find?_filter]
  simp only [Function.comp_def, isElement_bareTarget, htag]

theorem map_bareTarget {x? : Option Xml} {tag : String} (htag : tag = "block" ∨ tag = "shadow")
    (h : ∀ x ∈ x?, x.isElement tag = true) : x?.map bareTarget = x?.map bareBlock := by
  refine Option.map_congr fun x hx => if_pos ?_
  rcases htag with rfl | rfl <;> simp [h x hx]

theorem target?_bareConnection (c : Xml) : c.bareConnection.target? = c.target?.map bareBlock := by
  cases c with
  | text s => rfl
  | element tag attributes children =>
    rw [bareConnection, target?, target?]
    simp only [Xml.children]
    rw [find?_bareTargets _ (by decide),
      map_bareTarget (.inl rfl) fun x hx => List.find?_some hx]
    cases hblock : children.find? (isElement "block") with
    | some x => simp
    | none =>
      have hhides : children.any (isElement "block") = false := by
        simpa [List.find?_eq_none] using hblock
      have hshadows : (bareTargets false children).filter (isElement "shadow") =
          (children.filter (isElement "shadow")).map bareTarget := by
        simp [bareTargets_eq, List.filter_map, Function.comp_def]
      rw [hhides, hshadows, List.getLast?_map, Option.map_none, Option.none_or, Option.none_or]
      exact map_bareTarget (.inr rfl) fun x hx =>
        List.of_mem_filter (List.mem_of_getLast? hx)

theorem not_crowded_bareConnection (c : Xml) : ¬ c.bareConnection.Crowded := by
  rintro ⟨hblock, hshadow⟩
  cases c with
  | text s => cases hblock
  | element tag attributes children =>
    rw [bareConnection] at hblock hshadow
    simp only [Xml.children, bareTargets_eq, List.any_map, List.any_filter, Function.comp_def,
      isElement_bareTarget] at hblock hshadow
    cases hhides : children.any (isElement "block") <;> simp_all

theorem slot?_bareConnection {c : Xml} (h : c.isConnection = true) :
    c.bareConnection.slot? = c.slot? := by
  cases c with
  | text s => rfl
  | element tag attributes children =>
    simp only [isConnection, isElement, Bool.or_eq_true, beq_iff_eq] at h
    rw [bareConnection]
    rcases h with (rfl | rfl) | rfl <;> rfl

theorem nodePart?_bare (c : Xml) :
    (if c.isConnection then bareConnection c else c).nodePart? =
      c.nodePart?.map fun p => (p.1, p.2.map bareBlock) := by
  unfold nodePart?
  cases hc : c.isConnection with
  | false => simp [hc, Function.comp_def]
  | true =>
    have hbare : c.bareConnection.isConnection = true := by simpa [isConnection] using hc
    simp [hbare, slot?_bareConnection hc, target?_bareConnection, Function.comp_def]

theorem nodeParts_bareBlock (x : Xml) :
    x.bareBlock.nodeParts = x.nodeParts.map fun p => (p.1, p.2.map bareBlock) := by
  cases x with
  | text s => rfl
  | element tag attributes children =>
    rw [bareBlock, nodeParts, nodeParts, Xml.children, bareParts_eq, List.filterMap_map,
      List.map_filterMap]
    exact congrArg (List.filterMap · children) (funext nodePart?_bare)

theorem caption_bareBlock (x : Xml) : x.bareBlock.caption = x.caption := by simp [caption]

theorem top_bareBlock (x : Xml) : x.bareBlock.top = x.top := by
  have hentry : x.bareBlock.blockEntry = x.blockEntry := by
    refine Encoding.xml.entry_map caption_bareBlock nodeParts_bareBlock (fun x => ?_) x
    cases x with
    | text s => simp [bareBlock]
    | element tag attributes children => simp [Encoding.xml, bareBlock, blockEntry]
  simp [top, hentry]

theorem topItems_bare (x : Xml) : x.bare.topItems = x.topItems.map bareBlock := by
  cases x with
  | text s => rfl
  | element tag attributes children =>
    rw [bare, topItems, topItems]
    simp only [Xml.children, bareTargets_eq, List.filter_map, Function.comp_def,
      isElement_bareTarget, Bool.false_and, Bool.not_false, List.filter_true]
    exact List.map_congr_left fun x hx => if_pos (List.of_mem_filter hx)

theorem ofXml_bare (x : Xml) : Document.ofXml x.bare = Document.ofXml x := by
  have hvariables : x.bare.children.find? (isElement "variables") =
      x.children.find? (isElement "variables") := by
    cases x with
    | text s => rfl
    | element tag attributes children =>
      rw [bare, Xml.children, Xml.children, find?_bareTargets _ (by decide)]
      cases hfound : children.find? (isElement "variables") with
      | none => rfl
      | some y =>
        have hy := List.find?_some hfound
        rw [Option.map_some, bareTarget, isElement_of_ne hy (by decide),
          isElement_of_ne hy (by decide)]
        rfl
  have htops : (Document.ofXml x.bare).tops = (Document.ofXml x).tops := by
    change some (x.bare.topItems.map top) = some (x.topItems.map top)
    rw [topItems_bare, List.map_map]
    exact congrArg (fun f => some (x.topItems.map f)) (funext top_bareBlock)
  have hentries : (Document.ofXml x.bare).variableEntries = (Document.ofXml x).variableEntries := by
    simp only [Document.ofXml, hvariables]
  exact congrArg₂ Document.mk hentries htops

theorem not_crowded_of_mem_bare {x c : Xml} {y : Node Xml} (hy : y ∈ x.bare.blockNodes)
    (hc : c ∈ y.value.connectionsOf) : ¬ c.Crowded := by
  rw [blockNodes, topItems_bare,
    Encoding.xml.listing_map caption_bareBlock nodeParts_bareBlock] at hy
  obtain ⟨⟨_, _, _, x⟩, -, rfl⟩ := List.mem_map.1 hy
  obtain ⟨hmem, hconnection⟩ := List.mem_filter.1 hc
  have hbare : ∃ c', c = bareConnection c' := by
    cases x with
    | text s => simp [Node.map, bareBlock, children] at hmem
    | element tag attributes children =>
      simp only [Node.map, bareBlock, Xml.children, bareParts_eq] at hmem
      obtain ⟨c', -, rfl⟩ := List.mem_map.1 hmem
      cases hc' : c'.isConnection with
      | true => exact ⟨c', if_pos rfl⟩
      | false => simp [hc'] at hconnection
  obtain ⟨c', rfl⟩ := hbare
  exact not_crowded_bareConnection c'

end Xml

/-- A shadow block behind another block is not seen. A document without any of them describes the
same workspace, or is refused with the same error. -/
theorem Document.workspace_bare :
    (∀ v : Json, (ofJson v.bare).workspace = (ofJson v).workspace ∧
      ∀ x ∈ v.bare.blockNodes, ∀ c ∈ x.value.connectionsOf, ¬ c.Crowded) ∧
    ∀ x : Xml, (ofXml x.bare).workspace = (ofXml x).workspace ∧
      ∀ y ∈ x.bare.blockNodes, ∀ c ∈ y.value.connectionsOf, ¬ c.Crowded :=
  ⟨fun v => ⟨congrArg workspace v.ofJson_bare, fun _ hx _ => Json.not_crowded_of_mem_bare hx⟩,
    fun x => ⟨congrArg workspace x.ofXml_bare, fun _ hy _ => Xml.not_crowded_of_mem_bare hy⟩⟩

/-- The shadow block is no object, and its block is there all the same. -/
theorem Document.workspace_bare_malformed :
    let text : Json := .object [("id", .string "t"), ("type", .string "text")]
    let print (connection : List (String × Json)) : Json := .object [("blocks", .array [.object [
      ("id", .string "p"), ("inputs", .object [("TEXT", .object connection)]),
      ("type", .string "text_print")]])]
    let v := print [("block", text), ("shadow", .array [])]
    v.bare = print [("block", text)] ∧
      (ofJson v).workspace = .ok {
        blocks := #[
          { id := "t", type := "text" },
          { id := "p", type := "text_print", values := ⟨[("TEXT", some 0)]⟩ }],
        roots := [1] } ∧
      (ofJson (print [("block", text)])).workspace = (ofJson v).workspace := by
  intro text print v
  have hbare : v.bare = print [("block", text)] := rfl
  refine ⟨hbare, by decide +kernel, ?_⟩
  rw [← hbare]
  exact (Document.workspace_bare.1 v).1

end BlockCode
