import BlockCode.Document.OfJson
import BlockCode.Document.OfXml
import BlockCode.Proofs.ByName
import BlockCode.Proofs.Numbers

namespace BlockCode

inductive InputKind where
  | value
  | statement
  deriving DecidableEq, Repr

inductive PieceField where
  | text (s : String)
  | variable (id name : String)
  deriving DecidableEq, Repr

structure PieceHead where
  id : Option String := none
  type : String
  disabled : Bool := false
  fields : List (String × PieceField) := []
  shape : Option (Nat × Bool) := none

inductive Piece where
  | block (head : PieceHead) (inputs : List (String × Option Piece)) (next : Option Piece)

structure PlacedPiece where
  piece : Piece
  x : Option Int := none
  y : Option Int := none

structure Sheet where
  variableNames : List (String × String) := []
  tops : List PlacedPiece

def member? {α : Type} (name : String) (a : Option α) : List (String × α) :=
  (a.map fun a => (name, a)).toList

@[simp] theorem lookup_member?_append {α : Type} (name : String) (a : Option α)
    (rest : List (String × α)) (n : String) :
    (member? name a ++ rest).lookup n =
      if n = name then a.or (rest.lookup n) else rest.lookup n := by
  cases a with
  | none => simp [member?]
  | some a => simp [member?, ByName.lookup_cons_eq]

@[simp] theorem lookup_member? {α : Type} (name : String) (a : Option α) (n : String) :
    (member? name a).lookup n = if n = name then a else none := by
  simpa using lookup_member?_append name a [] n

namespace PieceField

def json : PieceField → Json
  | .text s => .string s
  | .variable id name => .object [("id", .string id), ("name", .string name)]

end PieceField

def shapeJson (shape : Nat × Bool) : Json :=
  .object [("elseIfCount", .integer shape.1), ("hasElse", .bool shape.2)]

def PieceHead.members (h : PieceHead) (inputs : List (String × Json)) (next : Option Json)
    (x y : Option Int) : List (String × Json) :=
  member? "disabled" (if h.disabled then some (Json.bool true) else none) ++
    (member? "extraState" (h.shape.map shapeJson) ++
    (member? "fields" (some (Json.object (h.fields.map fun f => (f.1, f.2.json)))) ++
    (member? "id" (h.id.map Json.string) ++ (member? "inputs" (some (Json.object inputs)) ++
    (member? "next" next ++ (member? "type" (some (Json.string h.type)) ++
    (member? "x" (x.map Json.integer) ++ member? "y" (y.map Json.integer))))))))

namespace Piece

mutual

def json (x y : Option Int) : Piece → Json
  | .block head inputs next => .object (head.members (inputMembers inputs) (nextJson next) x y)

def inputMembers : List (String × Option Piece) → List (String × Json)
  | [] => []
  | (name, child) :: rest => (name, linkJson child) :: inputMembers rest

def linkJson : Option Piece → Json
  | none => .object []
  | some p => .object [("block", p.json none none)]

def nextJson : Option Piece → Option Json
  | none => none
  | some p => some (.object [("block", p.json none none)])

end

end Piece

def Sheet.json (s : Sheet) : Json :=
  .object [
    ("blocks", .object [
      ("blocks", .array (s.tops.map fun t => t.piece.json t.x t.y)),
      ("languageVersion", .integer 0)]),
    ("variables", .array (s.variableNames.map fun v =>
      .object [("id", .string v.1), ("name", .string v.2)]))]

def textNodes (s : String) : List Xml := if s.isEmpty then [] else [.text s]

def PieceField.xml (name : String) : PieceField → Xml
  | .text s => .element "field" ⟨[("name", name)]⟩ (textNodes s)
  | .variable id shown => .element "field" ⟨[("id", id), ("name", name)]⟩ (textNodes shown)

def shapeXml (shape : Nat × Bool) : Xml :=
  .element "mutation"
    ⟨[("else", if shape.2 then "1" else "0"), ("elseif", toString shape.1)]⟩ []

def InputKind.tag : InputKind → String
  | .value => "value"
  | .statement => "statement"

def PieceHead.attributes (h : PieceHead) (x y : Option Int) : ByName String :=
  ⟨member? "disabled" (if h.disabled then some "true" else none) ++ (member? "id" h.id ++
    (member? "type" (some h.type) ++
      (member? "x" (x.map toString) ++ member? "y" (y.map toString))))⟩

namespace Piece

mutual

def xml (kind : String → String → InputKind) (x y : Option Int) : Piece → Xml
  | .block head inputs next =>
    .element "block" (head.attributes x y) <|
      (head.shape.map shapeXml).toList ++ (head.fields.map fun f => f.2.xml f.1) ++
        inputElements kind head.type inputs ++ nextElements kind next

def inputElements (kind : String → String → InputKind) (type : String) :
    List (String × Option Piece) → List Xml
  | [] => []
  | (name, child) :: rest =>
    .element (kind type name).tag ⟨[("name", name)]⟩ (linkElements kind child) ::
      inputElements kind type rest

def linkElements (kind : String → String → InputKind) : Option Piece → List Xml
  | none => []
  | some p => [p.xml kind none none]

def nextElements (kind : String → String → InputKind) : Option Piece → List Xml
  | none => []
  | some p => [.element "next" ⟨[]⟩ [p.xml kind none none]]

end

end Piece

def Sheet.xml (kind : String → String → InputKind) (s : Sheet) : Xml :=
  .element "xml" ⟨[]⟩ <|
    .element "variables" ⟨[]⟩
      (s.variableNames.map fun v => .element "variable" ⟨[("id", v.1)]⟩ (textNodes v.2)) ::
    s.tops.map fun t => t.piece.xml kind t.x t.y

def PieceHead.caption (h : PieceHead) : Caption := ⟨h.id, some h.type, h.disabled⟩

/-- A field that holds a text under the name of variables holds a variable. -/
def PieceField.entry (name : String) : PieceField → FieldEntry
  | .text s => if name = "VAR" then .variable s s else .plain (.text s)
  | .variable id shown => .variable id shown

def PieceHead.fieldParts (h : PieceHead) : List (Slot × Option Entry) :=
  h.fields.map fun f => (.field f.1 (f.2.entry f.1), none)

def PieceHead.shapeParts (h : PieceHead) : List (Slot × Option Entry) :=
  (h.shape.map fun s => (Slot.shape s.1 s.2, none)).toList

structure Layout where
  slot : String → String → Slot
  shapeFirst : Bool

def Layout.parts (l : Layout) (h : PieceHead) (inputs : List (Slot × Option Entry)) :
    List (Slot × Option Entry) :=
  if l.shapeFirst then h.shapeParts ++ h.fieldParts ++ inputs
  else h.fieldParts ++ inputs ++ h.shapeParts

namespace Piece

mutual

def entry (l : Layout) : Piece → Entry
  | .block head inputs next =>
    .block head.caption (l.parts head (inputParts l head.type inputs) ++ nextParts l next)

def inputParts (l : Layout) (type : String) :
    List (String × Option Piece) → List (Slot × Option Entry)
  | [] => []
  | (name, child) :: rest => (l.slot type name, linkEntry l child) :: inputParts l type rest

def linkEntry (l : Layout) : Option Piece → Option Entry
  | none => none
  | some p => some (p.entry l)

def nextParts (l : Layout) : Option Piece → List (Slot × Option Entry)
  | none => []
  | some p => [(.next, some (p.entry l))]

end

end Piece

def PlacedPiece.top (l : Layout) (t : PlacedPiece) : Top where
  entry := t.piece.entry l
  x := t.x.bind fun i => (Json.integer i).int64?
  y := t.y.bind fun i => (Json.integer i).int64?

def Sheet.document (l : Layout) (s : Sheet) : Document where
  variableEntries := s.variableNames.map some
  tops := some (s.tops.map (PlacedPiece.top l))

namespace Json

theorem nextAt_eq (members : List (String × Json)) :
    nextAt members = ((members.lookup "next").map fun v => (Slot.next, v.connection)).toList := by
  induction members with
  | nil => rfl
  | cons m rest ih =>
    rw [nextAt, ByName.lookup_cons_eq, ih]
    by_cases h : m.1 = "next"
    · rw [if_pos h, if_pos h.symm]
      rfl
    · rw [if_neg h, if_neg (Ne.symm h)]

theorem inputsAt_eq (name : String) (slot : String → Slot) (members : List (String × Json)) :
    inputsAt name slot members = ((members.lookup name).map (inputParts slot)).getD [] := by
  induction members with
  | nil => rfl
  | cons m rest ih =>
    rw [inputsAt, ByName.lookup_cons_eq, ih]
    split <;> rfl

end Json

theorem PieceField.fieldEntry_json (name : String) (f : PieceField) :
    f.json.fieldEntry name = f.entry name := by
  cases f with
  | text s => rfl
  | «variable» id shown => rfl

section

variable (h : PieceHead) (inputs : List (String × Json)) (next : Option Json) (x y : Option Int)

theorem PieceHead.caption_json :
    (Json.object (h.members inputs next x y)).caption = h.caption := by
  obtain ⟨id, type, disabled, fields, shape⟩ := h
  cases id <;> cases disabled <;>
    simp [Json.caption, PieceHead.caption, PieceHead.members, Json.get?, Json.text?, Json.flag?]

theorem PieceHead.fieldParts_json :
    (Json.object (h.members inputs next x y)).fieldParts = h.fieldParts := by
  simp [Json.fieldParts, PieceHead.fieldParts, PieceHead.members, Json.get?, Json.members?,
    PieceField.fieldEntry_json]

theorem PieceHead.shapeParts_json :
    (Json.object (h.members inputs next x y)).shapeParts = h.shapeParts := by
  have hget : (Json.object (h.members inputs next x y)).get? "extraState" =
      h.shape.map shapeJson := by
    simp [PieceHead.members, Json.get?]
  unfold Json.shapeParts PieceHead.shapeParts
  rw [hget]
  cases h.shape <;> rfl

end

def Layout.json : Layout where
  slot _ name := Json.inputSlot name
  shapeFirst := false

namespace Piece

mutual

theorem blockEntry_json : ∀ (p : Piece) (x y : Option Int), (p.json x y).blockEntry = p.entry .json
  | .block head inputs next, x, y => by
    have hinputs : Json.inputsAt "inputs" Json.inputSlot
        (head.members (inputMembers inputs) (nextJson next) x y) =
          inputParts .json head.type inputs := by
      rw [Json.inputsAt_eq]
      simpa [PieceHead.members, Json.inputParts] using connections_json head.type inputs
    have hstatements : Json.inputsAt "statements" Json.statementSlot
        (head.members (inputMembers inputs) (nextJson next) x y) = [] := by
      rw [Json.inputsAt_eq]
      simp [PieceHead.members]
    have hnext : Json.nextAt (head.members (inputMembers inputs) (nextJson next) x y) =
        nextParts .json next := by
      rw [Json.nextAt_eq]
      simpa [PieceHead.members] using nextParts_json next
    rw [json, Json.blockEntry, entry, hinputs, hstatements, hnext, PieceHead.caption_json,
      PieceHead.fieldParts_json, PieceHead.shapeParts_json, List.append_nil]
    rfl

theorem connections_json (type : String) : ∀ inputs : List (String × Option Piece),
    Json.connections Json.inputSlot (inputMembers inputs) = inputParts .json type inputs
  | [] => by simp [inputMembers, Json.connections, inputParts]
  | (name, child) :: rest => by
    rw [inputMembers, Json.connections, inputParts, connection_json child,
      connections_json type rest]
    rfl

theorem connection_json : ∀ child : Option Piece,
    (linkJson child).connection = linkEntry .json child
  | none => by simp [linkJson, linkEntry, Json.connection, Json.entryAt]
  | some p => by
    simp [linkJson, linkEntry, Json.connection, Json.entryAt, blockEntry_json p none none]

theorem nextParts_json : ∀ next : Option Piece,
    ((nextJson next).map fun v => (Slot.next, v.connection)).toList = nextParts .json next
  | none => by simp [nextJson, nextParts]
  | some p => by
    simp [nextJson, nextParts, Json.connection, Json.entryAt, blockEntry_json p none none]

end

end Piece

def PieceField.Trimmed : PieceField → Prop
  | .text s => Text.trim s = s
  | .variable _ name => Text.trim name = name

/-- What can be written in XML without loss. -/
structure PieceHead.Writable (h : PieceHead) : Prop where
  fields : ∀ f ∈ h.fields, f.2.Trimmed
  shape : ∀ s, h.shape = some s → s.1 < 2 ^ 64

theorem PieceHead.writable_iff {h : PieceHead} :
    h.Writable ↔ (∀ f ∈ h.fields, f.2.Trimmed) ∧ ∀ s, h.shape = some s → s.1 < 2 ^ 64 :=
  ⟨fun hh => ⟨hh.fields, hh.shape⟩, fun hh => ⟨hh.1, hh.2⟩⟩

theorem innerText_textNodes (name : String) (attributes : ByName String) (s : String) :
    (Xml.element name attributes (textNodes s)).innerText = s := by
  unfold textNodes
  split
  · next h =>
    obtain rfl : s = "" := by simpa using h
    rfl
  · simp [Xml.innerText, Xml.children]

theorem PieceField.part_xml (name : String) {f : PieceField} (h : f.Trimmed) :
    Xml.part (f.xml name) = [(.field name (f.entry name), none)] := by
  cases f with
  | text s =>
    simp only [PieceField.Trimmed] at h
    simp [PieceField.xml, Xml.part, Xml.fieldEntry, Xml.attribute?, ByName.get?, Xml.label,
      innerText_textNodes, h, PieceField.entry, List.lookup]
  | «variable» id shown =>
    simp only [PieceField.Trimmed] at h
    simp [PieceField.xml, Xml.part, Xml.fieldEntry, Xml.attribute?, ByName.get?, Xml.label,
      innerText_textNodes, h, PieceField.entry, List.lookup]

theorem Text.digitsNat?_toDigits (n : Nat) : digitsNat? (Nat.toDigits 10 n) = some n := by
  have hdigits : (Nat.toDigits 10 n).all Char.isDigit = true :=
    List.all_eq_true.2 fun c hc => Number.areDigits_toDigits n c hc
  have hne : (Nat.toDigits 10 n).isEmpty = false := by simp [Nat.toDigits_ne_nil]
  simp only [digitsNat?, hne, hdigits, Bool.not_false, Bool.and_self, if_true]
  rw [digitsValue_eq, Nat.ofDigitChars_ten_toDigits]

theorem Text.toDigits_ne_cons {n : Nat} {c : Char} {cs : List Char} (hc : c.isDigit = false) :
    Nat.toDigits 10 n ≠ c :: cs := by
  intro heq
  have hdigit := Number.areDigits_toDigits n c (by simp [heq])
  rw [hc] at hdigit
  cases hdigit

theorem Text.natural?_toString {n : Nat} (h : n < 2 ^ 64) : natural? (toString n) = some n := by
  have htext : (toString n).toList = Nat.toDigits 10 n := by
    rw [Nat.toString_eq_repr, Nat.toList_repr]
  unfold natural?
  rw [htext]
  split
  · next heq => exact absurd heq (toDigits_ne_cons (by decide))
  · rw [digitsNat?_toDigits]
    exact if_pos h

theorem Text.int64?_toString (i : Int) : int64? (toString i) = (Json.integer i).int64? := by
  have hrange : ∀ i : Int,
      ((some i).bind fun i => if -Int.pow 2 63 ≤ i ∧ i < Int.pow 2 63 then some i else none) =
        (Json.integer i).int64? := fun i => rfl
  unfold int64?
  cases i with
  | ofNat n =>
    have htext : (toString (Int.ofNat n)).toList = Nat.toDigits 10 n := Nat.toList_repr
    rw [htext]
    split
    · next heq => exact absurd heq (toDigits_ne_cons (by decide))
    · next heq => exact absurd heq (toDigits_ne_cons (by decide))
    · rw [digitsNat?_toDigits, Option.map_some]
      exact hrange (Int.ofNat n)
  | negSucc n =>
    have htext : (toString (Int.negSucc n)).toList = '-' :: Nat.toDigits 10 (n + 1) := by
      change ("-" ++ Nat.repr (n + 1)).toList = _
      rw [String.toList_append, Nat.toList_repr]
      rfl
    rw [htext]
    simp only []
    rw [digitsNat?_toDigits]
    exact hrange (Int.negSucc n)

theorem part_shapeXml {s : Nat × Bool} (h : s.1 < 2 ^ 64) :
    Xml.part (shapeXml s) = [(.shape s.1 s.2, none)] := by
  obtain ⟨n, hasElse⟩ := s
  have hcount : (shapeXml (n, hasElse)).attribute? "elseif" = some (toString n) := rfl
  have helse :
      (shapeXml (n, hasElse)).attribute? "else" = some (if hasElse then "1" else "0") := rfl
  have hflag : (some (if hasElse then "1" else "0")).any
      (fun v => v == "1" || Text.sameIgnoringCase "true" v) = hasElse := by
    cases hasElse <;> decide
  have hslot : (shapeXml (n, hasElse)).shapeSlot = .shape n hasElse := by
    rw [Xml.shapeSlot, hcount, helse, hflag, Option.bind_some, Text.natural?_toString h,
      Option.getD_some]
  rw [← hslot]
  rfl

theorem parts_append (xs ys : List Xml) : Xml.parts (xs ++ ys) = Xml.parts xs ++ Xml.parts ys := by
  induction xs with
  | nil => rfl
  | cons x xs ih => rw [List.cons_append, Xml.parts, Xml.parts, ih, List.append_assoc]

theorem PieceHead.caption_xml (h : PieceHead) (x y : Option Int) (children : List Xml) :
    (Xml.element "block" (h.attributes x y) children).caption = h.caption := by
  obtain ⟨id, type, disabled, fields, shape⟩ := h
  have htrue : Text.sameIgnoringCase "true" "true" = true := rfl
  cases id <;> cases disabled <;>
    simp [Xml.caption, PieceHead.caption, PieceHead.attributes, Xml.attribute?, ByName.get?, htrue]

def InputKind.slot (name : String) : InputKind → Slot
  | .value => .value .value name
  | .statement => .statement .statement name

theorem part_input (k : InputKind) (name : String) (children : List Xml) :
    Xml.part (.element k.tag ⟨[("name", name)]⟩ children) =
      [(k.slot name, Xml.connection none children)] := by
  cases k <;> simp [InputKind.tag, InputKind.slot, Xml.part, ByName.get?]

def Layout.xml (kind : String → String → InputKind) : Layout where
  slot type name := (kind type name).slot name
  shapeFirst := true

theorem PieceHead.parts_shape {h : PieceHead} (hh : h.Writable) :
    Xml.parts (h.shape.map shapeXml).toList = h.shapeParts := by
  unfold PieceHead.shapeParts
  cases hs : h.shape with
  | none => rfl
  | some s => simp [Xml.parts, part_shapeXml (hh.shape s hs)]

theorem PieceHead.parts_fields {h : PieceHead} (hh : h.Writable) :
    Xml.parts (h.fields.map fun f => f.2.xml f.1) = h.fieldParts := by
  have hfields := hh.fields
  unfold PieceHead.fieldParts
  generalize h.fields = fields at hfields ⊢
  induction fields with
  | nil => rfl
  | cons f fields ih =>
    obtain ⟨hf, hfields⟩ := List.forall_mem_cons.1 hfields
    rw [List.map_cons, Xml.parts, PieceField.part_xml f.1 hf, ih hfields]
    rfl

namespace Piece

inductive Every (P : PieceHead → List (String × Option Piece) → Prop) : Piece → Prop
  | block {head : PieceHead} {inputs : List (String × Option Piece)} {next : Option Piece} :
    P head inputs → (∀ i ∈ inputs, ∀ p, i.2 = some p → Every P p) →
    (∀ p, next = some p → Every P p) →
    Every P (.block head inputs next)

theorem every_block {P : PieceHead → List (String × Option Piece) → Prop} {head : PieceHead}
    {inputs : List (String × Option Piece)} {next : Option Piece} :
    (block head inputs next).Every P ↔ P head inputs ∧
      (∀ i ∈ inputs, ∀ p, i.2 = some p → p.Every P) ∧ ∀ p, next = some p → p.Every P := by
  refine ⟨fun h => ?_, fun ⟨hhead, hinputs, hnext⟩ => .block hhead hinputs hnext⟩
  cases h with
  | block hhead hinputs hnext => exact ⟨hhead, hinputs, hnext⟩

theorem connection_some {kind : String → String → InputKind} {p : Piece}
    (h : (p.xml kind none none).blockEntry = p.entry (.xml kind)) :
    Xml.connection none [p.xml kind none none] = some (p.entry (.xml kind)) := by
  cases p with
  | block head inputs next =>
    rw [Xml.connection, ← h]
    rfl

mutual

theorem blockEntry_xml (kind : String → String → InputKind) :
    ∀ (p : Piece) (x y : Option Int), p.Every (fun head _ => head.Writable) →
    (p.xml kind x y).blockEntry = p.entry (.xml kind)
  | .block head inputs next, x, y, .block hhead hinputs hnext => by
    rw [xml, Xml.blockEntry, PieceHead.caption_xml, entry, parts_append, parts_append,
      parts_append, PieceHead.parts_shape hhead, PieceHead.parts_fields hhead,
      parts_inputs kind head.type inputs hinputs, parts_next kind next hnext]
    rfl

theorem parts_inputs (kind : String → String → InputKind) (type : String) :
    ∀ inputs : List (String × Option Piece),
    (∀ i ∈ inputs, ∀ p, i.2 = some p → p.Every (fun head _ => head.Writable)) →
    Xml.parts (inputElements kind type inputs) = inputParts (.xml kind) type inputs
  | [], _ => by simp [inputElements, Xml.parts, inputParts]
  | (name, child) :: rest, h => by
    obtain ⟨hchild, hrest⟩ := List.forall_mem_cons.1 h
    rw [inputElements, Xml.parts, inputParts, part_input, connection_xml kind child hchild,
      parts_inputs kind type rest hrest]
    rfl

theorem connection_xml (kind : String → String → InputKind) : ∀ child : Option Piece,
    (∀ p, child = some p → p.Every (fun head _ => head.Writable)) →
    Xml.connection none (linkElements kind child) = linkEntry (.xml kind) child
  | none, _ => by simp [linkElements, linkEntry, Xml.connection]
  | some p, h => connection_some (blockEntry_xml kind p none none (h p rfl))

theorem parts_next (kind : String → String → InputKind) : ∀ next : Option Piece,
    (∀ p, next = some p → p.Every (fun head _ => head.Writable)) →
    Xml.parts (nextElements kind next) = nextParts (.xml kind) next
  | none, _ => by simp [nextElements, nextParts, Xml.parts]
  | some p, h => by
    have hlink := connection_some (blockEntry_xml kind p none none (h p rfl))
    rw [nextElements, nextParts, Xml.parts, Xml.parts, ← hlink]
    rfl

end

end Piece

theorem PlacedPiece.top_json (t : PlacedPiece) : (t.piece.json t.x t.y).top = t.top .json := by
  obtain ⟨p, x, y⟩ := t
  have hx : (p.json x y).get? "x" = x.map .integer := by
    cases p
    simp [Piece.json, PieceHead.members, Json.get?]
  have hy : (p.json x y).get? "y" = y.map .integer := by
    cases p
    simp [Piece.json, PieceHead.members, Json.get?]
  rw [Json.top, hx, hy, Option.bind_map, Option.bind_map, Piece.blockEntry_json]
  rfl

theorem PlacedPiece.top_xml (kind : String → String → InputKind) {t : PlacedPiece}
    (h : t.piece.Every (fun head _ => head.Writable)) :
    (t.piece.xml kind t.x t.y).top = t.top (.xml kind) := by
  obtain ⟨p, x, y⟩ := t
  have hx : (p.xml kind x y).attribute? "x" = x.map toString := by
    cases p
    simp [Piece.xml, PieceHead.attributes, Xml.attribute?, ByName.get?]
  have hy : (p.xml kind x y).attribute? "y" = y.map toString := by
    cases p
    simp [Piece.xml, PieceHead.attributes, Xml.attribute?, ByName.get?]
  have hread : Text.int64? ∘ toString = fun i => (Json.integer i).int64? :=
    funext Text.int64?_toString
  rw [Xml.top, hx, hy, Option.bind_map, Option.bind_map, hread, Piece.blockEntry_xml kind p x y h]
  rfl

namespace Sheet

theorem ofJson_json (s : Sheet) : Document.ofJson s.json = s.document .json := by
  simp [Document.ofJson, json, document, Json.get?, Json.items?, Json.variableEntry, Json.text?,
    PlacedPiece.top_json, List.lookup, Function.comp_def]

structure Writable (s : Sheet) : Prop where
  variableNames : ∀ v ∈ s.variableNames, Text.trim v.2 = v.2
  pieces : ∀ t ∈ s.tops, t.piece.Every fun head _ => head.Writable

theorem ofXml_xml (kind : String → String → InputKind) {s : Sheet} (h : s.Writable) :
    Document.ofXml (s.xml kind) = s.document (.xml kind) := by
  have hvariables : (s.variableNames.map fun v =>
      (Xml.element "variable" ⟨[("id", v.1)]⟩ (textNodes v.2)).variableEntry) =
      s.variableNames.map some := by
    refine List.map_congr_left fun v hv => ?_
    rw [Xml.variableEntry, Xml.label, innerText_textNodes, h.variableNames v hv]
    rfl
  have htops : (s.tops.map fun t => (t.piece.xml kind t.x t.y).top) =
      s.tops.map (PlacedPiece.top (.xml kind)) :=
    List.map_congr_left fun t ht => PlacedPiece.top_xml kind (h.pieces t ht)
  have hblock : ∀ t : PlacedPiece, (t.piece.xml kind t.x t.y).isElement "block" = true := by
    rintro ⟨⟨head, inputs, next⟩, x, y⟩
    simp [Piece.xml, Xml.isElement]
  have helement : ∀ (n name : String) (attributes : ByName String) (children : List Xml),
      (Xml.element n attributes children).isElement name = (n == name) := fun _ _ _ _ => rfl
  simp only [Document.ofXml, xml, document, ← hvariables, ← htops]
  simp [Xml.children, helement, List.filter_map, hblock, Function.comp_def]

end Sheet

end BlockCode
