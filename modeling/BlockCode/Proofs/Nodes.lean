import BlockCode.Proofs.MadeUpIds
import BlockCode.Proofs.Pieces

/-!
Documents as they are written, node by node. A node that describes a block says what the block is in
a list of parts, and some of the parts lead to further nodes. All nodes of a document are listed in
the order in which they are visited, each with the steps that lead to it and with the position that
its block gets: a block is added after all the blocks inside it.
-/

namespace BlockCode

/-- How blocks are written as values of a type, one part of a block after the other. -/
structure Encoding (α : Type) [SizeOf α] where
  caption : α → Caption
  parts : α → List (Slot × Option α)
  entry : α → Entry
  smaller {a u : α} {slot : Slot} : (slot, some u) ∈ parts a → sizeOf u < sizeOf a
  entry_eq (a : α) : entry a = .malformed ∧ parts a = [] ∨
    entry a = .block (caption a) ((parts a).map fun p => (p.1, p.2.map entry))

structure Node (α : Type) where
  path : List DocumentStep
  earlier : Nat
  position : Nat
  value : α

def Node.within {α : Type} (step : DocumentStep) (x : Node α) : Node α :=
  { x with path := step :: x.path }

/-- Visits one value after the other; `n` counts what the visits have come to so far. -/
def inRow {α β : Type} (visit : Nat → α → List β) : Nat → List α → List β
  | _, [] => []
  | n, a :: as => visit n a ++ inRow visit (n + (visit n a).length) as

section

variable {α β γ : Type}

theorem inRow_append (visit : Nat → α → List β) (n : Nat) (as as' : List α) :
    inRow visit n (as ++ as') =
      inRow visit n as ++ inRow visit (n + (inRow visit n as).length) as' := by
  induction as generalizing n with
  | nil => rfl
  | cons a as ih =>
    rw [List.cons_append, inRow, inRow, ih, List.append_assoc, List.length_append, Nat.add_assoc]

theorem inRow_map (visit : Nat → α → List β) (f : γ → α) (n : Nat) (as : List γ) :
    inRow visit n (as.map f) = inRow (fun k a => visit k (f a)) n as := by
  induction as generalizing n with
  | nil => rfl
  | cons a as ih => rw [List.map_cons, inRow, inRow, ih]

theorem inRow_attach (visit : Nat → α → List β) (n : Nat) (as : List α) :
    inRow (fun k a => visit k a.1) n as.attach = inRow visit n as := by
  rw [← inRow_map visit Subtype.val, List.attach_map_subtype_val]

end

def targets {α : Type} (parts : List (Slot × Option α)) : List (Slot × α) :=
  parts.filterMap fun p => p.2.map fun u => (p.1, u)

theorem mem_targets {α : Type} {parts : List (Slot × Option α)} {slot : Slot} {u : α} :
    (slot, u) ∈ targets parts ↔ (slot, some u) ∈ parts := by
  unfold targets
  constructor
  · intro h
    obtain ⟨⟨slot', link⟩, hmem, heq⟩ := List.mem_filterMap.1 h
    obtain ⟨u', rfl, heq⟩ := Option.map_eq_some_iff.1 heq
    cases heq
    exact hmem
  · exact fun h => List.mem_filterMap.2 ⟨(slot, some u), h, rfl⟩

namespace Encoding

variable {α : Type} [SizeOf α] (E : Encoding α)

def idAt (n : Nat) (a : α) : String := (E.caption a).id.getD ("block" ++ toString (n + 1))

def id (x : Node α) : String := E.idAt x.earlier x.value

/-- A node with all nodes inside it, in the order of the visits. -/
def nodes (n : Nat) (a : α) : List (Node α) :=
  let row := inRow (fun k p => (nodes k p.1.2).map (.within (p.1.1.step (E.idAt n a)))) n
    (targets (E.parts a)).attach
  ⟨[], n, n + row.length, a⟩ :: row
termination_by sizeOf a
decreasing_by exact E.smaller (mem_targets.1 p.2)

def nodesInside (id : String) (n : Nat) (parts : List (Slot × Option α)) : List (Node α) :=
  inRow (fun k p => (E.nodes k p.2).map (.within (p.1.step id))) n (targets parts)

theorem nodes_eq (n : Nat) (a : α) :
    E.nodes n a = ⟨[], n, n + (E.nodesInside (E.idAt n a) n (E.parts a)).length, a⟩ ::
      E.nodesInside (E.idAt n a) n (E.parts a) := by
  have hrow := inRow_attach
    (fun k (p : Slot × α) => (E.nodes k p.2).map (Node.within (p.1.step (E.idAt n a)))) n
    (targets (E.parts a))
  rw [nodes, nodesInside, ← hrow]

def listing (tops : List α) : List (Node α) := inRow E.nodes 0 tops

@[simp] theorem nodesInside_nil (id : String) (n : Nat) : E.nodesInside id n [] = [] := rfl

theorem nodesInside_some (id : String) (n : Nat) (slot : Slot) (u : α)
    (parts : List (Slot × Option α)) :
    E.nodesInside id n ((slot, some u) :: parts) = (E.nodes n u).map (.within (slot.step id)) ++
      E.nodesInside id (n + (E.nodes n u).length) parts := by
  simp [nodesInside, targets, inRow]

theorem nodesInside_append (id : String) (n : Nat) (parts parts' : List (Slot × Option α)) :
    E.nodesInside id n (parts ++ parts') = E.nodesInside id n parts ++
      E.nodesInside id (n + (E.nodesInside id n parts).length) parts' := by
  simp only [nodesInside, targets, List.filterMap_append, inRow_append]

end Encoding

namespace Json

def target? (c : Json) : Option Json := (c.get? "block").or (c.get? "shadow")

def membersAt (v : Json) (name : String) : List (String × Json) :=
  ((v.get? name).bind members?).getD []

def shape? (v : Json) : Option (Nat × Bool) :=
  ((v.get? "extraState").bind members?).map fun members =>
    (((members.lookup "elseIfCount").bind natural?).getD 0,
      ((members.lookup "hasElse").bind flag?).getD false)

def linkParts (v : Json) : List (Slot × Option Json) :=
  (v.membersAt "inputs").map (fun c => (inputSlot c.1, c.2.target?)) ++
    (v.membersAt "statements").map (fun c => (statementSlot c.1, c.2.target?)) ++
    v.shape?.toList.map (fun s => (.shape s.1 s.2, none)) ++
    (v.get? "next").toList.map fun c => (.next, c.target?)

def nodeParts (v : Json) : List (Slot × Option Json) :=
  (v.membersAt "fields").map (fun f => (.field f.1 (f.2.fieldEntry f.1), none)) ++ v.linkParts

theorem ne_field_of_mem_linkParts {v : Json} {p : Slot × Option Json} (h : p ∈ v.linkParts)
    (name : String) (entry : FieldEntry) : p.1 ≠ .field name entry := by
  simp only [linkParts, List.mem_append, List.mem_map] at h
  obtain ((⟨c, -, rfl⟩ | ⟨c, -, rfl⟩) | ⟨c, -, rfl⟩) | ⟨c, -, rfl⟩ := h
  · unfold inputSlot
    split <;> simp
  · simp [statementSlot]
  · simp
  · simp

theorem sizeOf_of_mem {members : List (String × Json)} {name : String} {v : Json}
    (h : (name, v) ∈ members) : sizeOf v < sizeOf (Json.object members) := by
  have hlt := List.sizeOf_lt_of_mem h
  simp only [Prod.mk.sizeOf_spec, Json.object.sizeOf_spec] at hlt ⊢
  omega

theorem sizeOf_of_get? {v u : Json} {name : String} (h : v.get? name = some u) :
    sizeOf u < sizeOf v := by
  unfold get? at h
  split at h
  · obtain ⟨before, after, rfl, -⟩ := List.lookup_eq_some_iff.1 h
    exact sizeOf_of_mem (List.mem_append_right _ List.mem_cons_self)
  · cases h

theorem sizeOf_of_target? {c u : Json} (h : c.target? = some u) : sizeOf u < sizeOf c := by
  rcases Option.or_eq_some_iff.1 h with h | ⟨-, h⟩ <;> exact sizeOf_of_get? h

theorem sizeOf_of_membersAt {v c : Json} {name n : String} (h : (n, c) ∈ v.membersAt name) :
    sizeOf c < sizeOf v := by
  unfold membersAt at h
  cases hget : v.get? name with
  | none => simp [hget] at h
  | some u =>
    cases u with
    | object members =>
      rw [hget] at h
      exact (sizeOf_of_mem h).trans (sizeOf_of_get? hget)
    | _ => simp [hget, members?] at h

theorem smaller_nodeParts {v u : Json} {slot : Slot} (h : (slot, some u) ∈ v.nodeParts) :
    sizeOf u < sizeOf v := by
  simp only [nodeParts, linkParts, List.mem_append, List.mem_map, Option.mem_toList] at h
  obtain ⟨f, -, heq⟩ | ((⟨c, hc, heq⟩ | ⟨c, hc, heq⟩) | ⟨s, -, heq⟩) | ⟨c, hc, heq⟩ := h
  · cases heq
  · exact (sizeOf_of_target? (Prod.mk.inj heq).2).trans (sizeOf_of_membersAt hc)
  · exact (sizeOf_of_target? (Prod.mk.inj heq).2).trans (sizeOf_of_membersAt hc)
  · cases heq
  · exact (sizeOf_of_target? (Prod.mk.inj heq).2).trans (sizeOf_of_get? hc)

theorem entryAt_eq (name : String) (members : List (String × Json)) :
    entryAt name members = (members.lookup name).map blockEntry := by
  induction members with
  | nil => rfl
  | cons m rest ih =>
    obtain ⟨n, v⟩ := m
    rw [entryAt, ByName.lookup_cons_eq, ih]
    split <;> rfl

theorem connection_eq (c : Json) : c.connection = c.target?.map blockEntry := by
  cases c with
  | object members =>
    rw [connection, entryAt_eq, entryAt_eq, target?, get?, get?]
    cases members.lookup "block" <;> rfl
  | _ => simp [connection, target?, get?]

theorem connections_eq (slot : String → Slot) (members : List (String × Json)) :
    connections slot members = members.map fun m => (slot m.1, m.2.target?.map blockEntry) := by
  induction members with
  | nil => rfl
  | cons m rest ih => rw [connections, ih, connection_eq, List.map_cons]

theorem inputsAt_eq_map (name : String) (slot : String → Slot) (members : List (String × Json)) :
    inputsAt name slot members = ((Json.object members).membersAt name).map fun m =>
      (slot m.1, m.2.target?.map blockEntry) := by
  rw [inputsAt_eq, membersAt, get?]
  cases members.lookup name with
  | none => rfl
  | some v =>
    cases v with
    | object inner => exact connections_eq slot inner
    | _ => simp [inputParts, members?]

theorem shapeParts_eq (v : Json) :
    v.shapeParts = v.shape?.toList.map fun s => (.shape s.1 s.2, none) := by
  unfold shapeParts shape?
  cases v.get? "extraState" with
  | none => rfl
  | some u => cases u <;> rfl

theorem blockEntry_eq (v : Json) : v.blockEntry = .malformed ∧ v.nodeParts = [] ∨
    v.blockEntry = .block v.caption (v.nodeParts.map fun p => (p.1, p.2.map blockEntry)) := by
  cases v with
  | object members =>
    right
    rw [blockEntry, inputsAt_eq_map, inputsAt_eq_map, shapeParts_eq, nextAt_eq, fieldParts,
      nodeParts, linkParts, Option.toList_map]
    simp [connection_eq, membersAt, get?, Function.comp_def]
  | _ => exact .inl ⟨by simp [blockEntry], by simp [nodeParts, linkParts, membersAt, shape?, get?]⟩

end Json

def Encoding.json : Encoding Json where
  caption := Json.caption
  parts := Json.nodeParts
  entry := Json.blockEntry
  smaller := Json.smaller_nodeParts
  entry_eq := Json.blockEntry_eq

theorem Json.nodesInside_nodeParts (id : String) (n : Nat) (v : Json) :
    Encoding.json.nodesInside id n v.nodeParts = Encoding.json.nodesInside id n v.linkParts := by
  have hfields : targets ((v.membersAt "fields").map fun f =>
      (Slot.field f.1 (f.2.fieldEntry f.1), (none : Option Json))) = [] := by
    simp [targets, List.filterMap_map]
  rw [nodeParts, Encoding.nodesInside_append, Encoding.nodesInside, hfields]
  rfl

def Json.topItems (v : Json) : List Json :=
  match v.get? "blocks" with
  | some (.array items) => items
  | some (.object members) => ((members.lookup "blocks").bind items?).getD []
  | _ => []

theorem Json.eq_topItems_of_tops {v : Json} {tops : List Top}
    (h : (Document.ofJson v).tops = some tops) : tops = v.topItems.map Json.top := by
  unfold Document.ofJson at h
  unfold topItems
  cases hblocks : v.get? "blocks" with
  | none => simp_all
  | some u => cases u <;> simp_all [get?]

def Json.blockNodes (v : Json) : List (Node Json) := Encoding.json.listing v.topItems

namespace Xml

def target? (x : Xml) : Option Xml :=
  (x.children.find? (isElement "block")).or (x.children.filter (isElement "shadow")).getLast?

theorem isElement_of_ne {x : Xml} {tag tag' : String} (h : x.isElement tag = true)
    (hne : tag ≠ tag') : x.isElement tag' = false := by
  cases x with
  | text s => rfl
  | element n attributes children => simp_all [isElement]

def isConnection (x : Xml) : Bool :=
  x.isElement "value" || x.isElement "statement" || x.isElement "next"

def slot? : Xml → Option Slot
  | .text _ => none
  | .element tag attributes children =>
    let x := Xml.element tag attributes children
    let name := (attributes.get? "name").getD ""
    match tag with
    | "field" => some (.field name (x.fieldEntry name))
    | "value" => some (.value .value name)
    | "statement" => some (.statement .statement name)
    | "next" => some .next
    | "mutation" => some x.shapeSlot
    | _ => none

theorem slot?_of_field {x : Xml} (h : x.isElement "field" = true) :
    ∃ name, name = (x.attribute? "name").getD "" ∧
      x.slot? = some (.field name (x.fieldEntry name)) := by
  cases x with
  | text s => cases h
  | element tag attributes children =>
    obtain rfl := beq_iff_eq.1 h
    exact ⟨_, rfl, rfl⟩

theorem slot?_of_isConnection {x : Xml} (h : x.isConnection = true) :
    ∃ slot k, x.slot? = some slot ∧ slot.connection? = some k := by
  cases x with
  | text s => cases h
  | element tag attributes children =>
    simp only [isConnection, isElement, Bool.or_eq_true, beq_iff_eq] at h
    rcases h with (rfl | rfl) | rfl <;> exact ⟨_, _, rfl, rfl⟩

theorem slot?_of_other {x : Xml} (hfield : x.isElement "field" = false)
    (hconnection : x.isConnection = false) {slot : Slot} (h : x.slot? = some slot) :
    slot = x.shapeSlot := by
  cases x with
  | text s => cases h
  | element tag attributes children =>
    simp only [isConnection, isElement, Bool.or_eq_false_iff, beq_eq_false_iff_ne]
      at hfield hconnection
    unfold slot? at h
    dsimp only at h
    split at h <;> simp_all

def nodePart? (x : Xml) : Option (Slot × Option Xml) :=
  x.slot?.map fun slot => (slot, if x.isConnection then x.target? else none)

def nodeParts (x : Xml) : List (Slot × Option Xml) := x.children.filterMap nodePart?

theorem sizeOf_of_mem_children {x c : Xml} (h : c ∈ x.children) : sizeOf c < sizeOf x := by
  cases x with
  | text s => cases h
  | element tag attributes children =>
    have hlt := List.sizeOf_lt_of_mem h
    simp only [Xml.children, Xml.element.sizeOf_spec] at hlt ⊢
    omega

theorem sizeOf_of_target? {x u : Xml} (h : x.target? = some u) : sizeOf u < sizeOf x := by
  rcases Option.or_eq_some_iff.1 h with h | ⟨-, h⟩
  · exact sizeOf_of_mem_children (List.mem_of_find?_eq_some h)
  · exact sizeOf_of_mem_children (List.mem_of_mem_filter (List.mem_of_getLast? h))

theorem target?_of_nodePart? {c : Xml} {slot : Slot} {u : Xml}
    (h : c.nodePart? = some (slot, some u)) : c.target? = some u := by
  obtain ⟨slot', -, heq⟩ := Option.map_eq_some_iff.1 h
  have hlink := (Prod.mk.inj heq).2
  split at hlink
  · exact hlink
  · cases hlink

theorem smaller_nodeParts {x u : Xml} {slot : Slot} (h : (slot, some u) ∈ x.nodeParts) :
    sizeOf u < sizeOf x := by
  obtain ⟨c, hc, hpart⟩ := List.mem_filterMap.1 h
  exact (sizeOf_of_target? (target?_of_nodePart? hpart)).trans (sizeOf_of_mem_children hc)

theorem connection_eq (shadow : Option Entry) (children : List Xml) :
    connection shadow children =
      ((children.find? (isElement "block")).map blockEntry).or
        ((((children.filter (isElement "shadow")).getLast?).map blockEntry).or shadow) := by
  induction children generalizing shadow with
  | nil => simp [connection]
  | cons x rest ih =>
    rw [connection, List.find?_cons]
    split
    · next h => simp [h]
    · next h =>
      simp only [h]
      split
      · next hs =>
        rw [ih, List.filter_cons_of_pos hs, List.getLast?_cons]
        cases (List.filter (isElement "shadow") rest).getLast? <;> simp
      · next hs => rw [ih, List.filter_cons_of_neg hs]

theorem part_eq (c : Xml) :
    c.part = c.nodePart?.toList.map fun p => (p.1, p.2.map blockEntry) := by
  cases c with
  | text s => rfl
  | element tag attributes children =>
    have hconnection : connection none children =
        (Xml.element tag attributes children).target?.map blockEntry := by
      rw [connection_eq, target?, Option.or_none]
      simp [Xml.children, Option.map_or]
    unfold part nodePart? slot?
    dsimp only
    rw [hconnection]
    split <;> simp [isConnection, isElement, *]

theorem parts_eq (children : List Xml) :
    parts children = (children.filterMap nodePart?).map fun p => (p.1, p.2.map blockEntry) := by
  induction children with
  | nil => rfl
  | cons c rest ih =>
    rw [parts, ih, part_eq]
    cases hpart : c.nodePart? <;> simp [hpart]

theorem blockEntry_eq (x : Xml) : x.blockEntry = .malformed ∧ x.nodeParts = [] ∨
    x.blockEntry = .block x.caption (x.nodeParts.map fun p => (p.1, p.2.map blockEntry)) := by
  cases x with
  | text s => exact .inl ⟨by rw [blockEntry], rfl⟩
  | element tag attributes children =>
    right
    rw [blockEntry, parts_eq]
    rfl

end Xml

def Encoding.xml : Encoding Xml where
  caption := Xml.caption
  parts := Xml.nodeParts
  entry := Xml.blockEntry
  smaller := Xml.smaller_nodeParts
  entry_eq := Xml.blockEntry_eq

def Xml.topItems (x : Xml) : List Xml :=
  x.children.filter fun c => c.isElement "block" || c.isElement "shadow"

def Xml.blockNodes (x : Xml) : List (Node Xml) := Encoding.xml.listing x.topItems

end BlockCode
