import BlockCode.Proofs.Pieces

namespace BlockCode

inductive Sketch where
  | block (head : PieceHead) (values statements : List (String × Option Sketch))
    (next : Option Sketch)

structure PlacedSketch where
  sketch : Sketch
  x : Option Int := none
  y : Option Int := none

structure Forest where
  tops : List PlacedSketch

namespace Sketch

/-- What is made of a block, given what is made of the blocks that are attached to it. -/
abbrev Alg (α : Type) :=
  PieceHead → List (String × Option α) → List (String × Option α) → Option α → α

section

variable {α β : Type}

mutual

def fold (f : Alg α) : Sketch → α
  | .block head values statements next =>
    f head (foldInputs f values) (foldInputs f statements) (foldLink f next)

def foldInputs (f : Alg α) : List (String × Option Sketch) → List (String × Option α)
  | [] => []
  | (name, child) :: rest => (name, foldLink f child) :: foldInputs f rest

def foldLink (f : Alg α) : Option Sketch → Option α
  | none => none
  | some s => some (s.fold f)

end

def foldTop (f₀ f : Alg α) : Sketch → α
  | .block head values statements next =>
    f₀ head (foldInputs f values) (foldInputs f statements) (foldLink f next)

def mapInputs (g : α → β) (inputs : List (String × Option α)) : List (String × Option β) :=
  inputs.map fun i => (i.1, i.2.map g)

@[simp] theorem names_mapInputs (g : α → β) (inputs : List (String × Option α)) :
    (mapInputs g inputs).map Prod.fst = inputs.map Prod.fst := by
  simp [mapInputs]

@[simp] theorem names_foldInputs (f : Alg α) (inputs : List (String × Option Sketch)) :
    (foldInputs f inputs).map Prod.fst = inputs.map Prod.fst := by
  induction inputs with
  | nil => rfl
  | cons i inputs ih => rw [foldInputs, List.map_cons, ih, List.map_cons]

theorem map_foldLink {f : Alg α} {f' : Alg β} {g : α → β} {child : Option Sketch}
    (h : ∀ s, child = some s → g (s.fold f) = s.fold f') :
    (foldLink f child).map g = foldLink f' child := by
  cases child with
  | none => rfl
  | some s => exact congrArg some (h s rfl)

theorem mapInputs_foldInputs {f : Alg α} {f' : Alg β} {g : α → β}
    {inputs : List (String × Option Sketch)}
    (h : ∀ i ∈ inputs, ∀ s, i.2 = some s → g (s.fold f) = s.fold f') :
    mapInputs g (foldInputs f inputs) = foldInputs f' inputs := by
  induction inputs with
  | nil => rfl
  | cons i inputs ih =>
    obtain ⟨hchild, hinputs⟩ := List.forall_mem_cons.1 h
    rw [foldInputs, foldInputs, ← ih hinputs, ← map_foldLink hchild]
    rfl

end

def inputJson (child : Option Json) : Json := .object (member? "block" child)

def blockJson (x y : Option Int) (head : PieceHead)
    (values statements : List (String × Option Json)) (next : Option Json) : Json :=
  .object <| ByName.insertEntry "statements"
    (.object (statements.map fun i => (i.1, inputJson i.2)))
    (head.members (values.map fun i => (i.1, inputJson i.2))
      (next.map fun v => .object [("block", v)]) x y)

def json (x y : Option Int) : Sketch → Json := foldTop (blockJson x y) (blockJson none none)

def inputXml (kind : InputKind) (i : String × Option Xml) : Xml :=
  .element kind.tag ⟨[("name", i.1)]⟩ i.2.toList

def blockXml (x y : Option Int) (head : PieceHead) (values statements : List (String × Option Xml))
    (next : Option Xml) : Xml :=
  .element "block" (head.attributes x y) <|
    (head.fields.map fun f => f.2.xml f.1) ++ values.map (inputXml .value) ++
      statements.map (inputXml .statement) ++ (head.shape.map shapeXml).toList ++
      (next.map fun b => .element "next" ⟨[]⟩ [b]).toList

def xml (x y : Option Int) : Sketch → Xml := foldTop (blockXml x y) (blockXml none none)

def blockParts (place : Place) (head : PieceHead) (values statements : List (String × Option Entry))
    (next : Option Entry) : List (Slot × Option Entry) :=
  head.fieldParts ++ values.map (fun i => (.value place i.1, i.2)) ++
    statements.map (fun i => (.statement .statement i.1, i.2)) ++ head.shapeParts ++
    (next.map fun e => (Slot.next, some e)).toList

def blockEntry (place : Place) : Alg Entry := fun head values statements next =>
  .block head.caption (blockParts place head values statements next)

def entry (place : Place) : Sketch → Entry := fold (blockEntry place)

end Sketch

/--
The parts of a block stand in the order of their names. The names tell that texts are not variables
and that values are not statements.
-/
structure PieceHead.Orderly (h : PieceHead) (values statements : List String) : Prop
    extends h.Writable where
  texts : ∀ f ∈ h.fields, ∀ s, f.2 = .text s → f.1 ≠ "VAR"
  fieldNames : (h.fields.map Prod.fst).Pairwise (· < ·)
  valueNames : values.Pairwise (· < ·)
  statementNames : statements.Pairwise (· < ·)
  areValues : ∀ name ∈ values, isStatementInput name = false

namespace Sketch

inductive Writable : Sketch → Prop
  | block {head : PieceHead} {values statements : List (String × Option Sketch)}
      {next : Option Sketch} :
    head.Orderly (values.map Prod.fst) (statements.map Prod.fst) →
    (∀ i ∈ values, ∀ s, i.2 = some s → Writable s) →
    (∀ i ∈ statements, ∀ s, i.2 = some s → Writable s) →
    (∀ s, next = some s → Writable s) →
    Writable (.block head values statements next)

def Reads {α β : Type} (g : α → β) (f₀ f : Alg α) (f' : Alg β) : Prop :=
  ∀ (head : PieceHead) (values statements : List (String × Option Sketch)) (next : Option Sketch),
    head.Orderly (values.map Prod.fst) (statements.map Prod.fst) →
    g (f₀ head (foldInputs f values) (foldInputs f statements) (foldLink f next)) =
      f' head (mapInputs g (foldInputs f values)) (mapInputs g (foldInputs f statements))
        ((foldLink f next).map g)

section

variable {α β : Type} {g : α → β} {f₀ f : Alg α} {f' : Alg β} {s : Sketch}

theorem Writable.fold_eq (hs : s.Writable) (h : Reads g f f f') : g (s.fold f) = s.fold f' := by
  induction hs with
  | block hhead _ _ _ ihvalues ihstatements ihnext =>
    rw [fold, h _ _ _ _ hhead, mapInputs_foldInputs ihvalues, mapInputs_foldInputs ihstatements,
      map_foldLink ihnext, fold]

theorem Writable.foldTop_eq (hs : s.Writable) (h₀ : Reads g f₀ f f') (h : Reads g f f f') :
    g (s.foldTop f₀ f) = s.fold f' := by
  cases hs with
  | block hhead hvalues hstatements hnext =>
    rw [foldTop, h₀ _ _ _ _ hhead,
      mapInputs_foldInputs fun i hi s hs => (hvalues i hi s hs).fold_eq h,
      mapInputs_foldInputs fun i hi s hs => (hstatements i hi s hs).fold_eq h,
      map_foldLink fun s hs => (hnext s hs).fold_eq h, fold]

end

theorem connection_inputJson (child : Option Json) :
    (inputJson child).connection = child.map Json.blockEntry := by
  cases child <;> simp [inputJson, member?, Json.connection, Json.entryAt]

theorem connections_inputJson (slot : String → Slot) (inputs : List (String × Option Json)) :
    Json.connections slot (inputs.map fun i => (i.1, inputJson i.2)) =
      (mapInputs Json.blockEntry inputs).map fun i => (slot i.1, i.2) := by
  induction inputs with
  | nil => rfl
  | cons i inputs ih =>
    rw [List.map_cons, Json.connections, connection_inputJson, ih]
    rfl

theorem get?_insertEntry (v : Json) (members : List (String × Json)) {name : String}
    (h : name ≠ "statements") :
    (Json.object (ByName.insertEntry "statements" v members)).get? name =
      (Json.object members).get? name :=
  (ByName.lookup_insertEntry "statements" v members name).trans (if_neg h)

theorem parts_insertEntry (v : Json) (members : List (String × Json)) :
    (Json.object (ByName.insertEntry "statements" v members)).caption =
        (Json.object members).caption ∧
      (Json.object (ByName.insertEntry "statements" v members)).fieldParts =
        (Json.object members).fieldParts ∧
      (Json.object (ByName.insertEntry "statements" v members)).shapeParts =
        (Json.object members).shapeParts := by
  refine ⟨?_, ?_, ?_⟩
  · simp [Json.caption, get?_insertEntry]
  · simp [Json.fieldParts, get?_insertEntry]
  · simp [Json.shapeParts, get?_insertEntry]

theorem reads_json (x y : Option Int) :
    Reads Json.blockEntry (blockJson x y) (blockJson none none) (blockEntry .input) := by
  intro head values statements next hhead
  generalize hvalues : foldInputs (blockJson none none) values = values'
  generalize foldInputs (blockJson none none) statements = statements'
  generalize foldLink (blockJson none none) next = next'
  have hslots : (mapInputs Json.blockEntry values').map (fun i => (Json.inputSlot i.1, i.2)) =
      (mapInputs Json.blockEntry values').map fun i => (.value .input i.1, i.2) := by
    refine List.map_congr_left fun i hi => ?_
    have hname : i.1 ∈ (mapInputs Json.blockEntry values').map Prod.fst := List.mem_map_of_mem hi
    rw [names_mapInputs, ← hvalues, names_foldInputs] at hname
    rw [Json.inputSlot, hhead.areValues i.1 hname]
    rfl
  have hnext : ∀ v : Json, (Json.object [("block", v)]).connection = some v.blockEntry := by
    simp [Json.connection, Json.entryAt]
  rw [blockJson, Json.blockEntry, Json.inputsAt_eq, Json.inputsAt_eq, Json.nextAt_eq]
  simp only [ByName.lookup_insertEntry, parts_insertEntry, PieceHead.caption_json,
    PieceHead.fieldParts_json, PieceHead.shapeParts_json]
  simp [PieceHead.members, Json.inputParts, connections_inputJson, hslots, hnext, blockEntry,
    blockParts, Json.statementSlot, Function.comp_def]

theorem blockEntry_json {s : Sketch} (h : s.Writable) (x y : Option Int) :
    (s.json x y).blockEntry = s.entry .input :=
  h.foldTop_eq (reads_json x y) (reads_json none none)

theorem connection_foldLink (child : Option Sketch) :
    Xml.connection none (foldLink (blockXml none none) child).toList =
      (foldLink (blockXml none none) child).map Xml.blockEntry := by
  cases child with
  | none => rfl
  | some s =>
    cases s
    rfl

theorem parts_inputs (kind : InputKind) (inputs : List (String × Option Sketch)) :
    Xml.parts ((foldInputs (blockXml none none) inputs).map (inputXml kind)) =
      (mapInputs Xml.blockEntry (foldInputs (blockXml none none) inputs)).map fun i =>
        (kind.slot i.1, i.2) := by
  induction inputs with
  | nil => rfl
  | cons i inputs ih =>
    rw [foldInputs, List.map_cons, Xml.parts, inputXml, part_input, connection_foldLink, ih]
    rfl

theorem parts_next (next : Option Sketch) :
    Xml.parts ((foldLink (blockXml none none) next).map fun b =>
        Xml.element "next" ⟨[]⟩ [b]).toList =
      (((foldLink (blockXml none none) next).map Xml.blockEntry).map fun e =>
        (Slot.next, some e)).toList := by
  cases next with
  | none => rfl
  | some s =>
    cases s
    rfl

theorem reads_xml (x y : Option Int) :
    Reads Xml.blockEntry (blockXml x y) (blockXml none none) (blockEntry .value) := by
  intro head values statements next hhead
  rw [blockXml, Xml.blockEntry, PieceHead.caption_xml, parts_append, parts_append, parts_append,
    parts_append, PieceHead.parts_fields hhead.toWritable, parts_inputs, parts_inputs,
    PieceHead.parts_shape hhead.toWritable, parts_next]
  rfl

theorem blockEntry_xml {s : Sketch} (h : s.Writable) (x y : Option Int) :
    (s.xml x y).blockEntry = s.entry .value :=
  h.foldTop_eq (reads_xml x y) (reads_xml none none)

end Sketch

namespace PlacedSketch

def top (place : Place) (t : PlacedSketch) : Top where
  entry := t.sketch.entry place
  x := t.x.bind fun i => (Json.integer i).int64?
  y := t.y.bind fun i => (Json.integer i).int64?

theorem top_json {t : PlacedSketch} (h : t.sketch.Writable) :
    (t.sketch.json t.x t.y).top = t.top .input := by
  obtain ⟨s, x, y⟩ := t
  have hx : (s.json x y).get? "x" = x.map .integer := by
    cases s
    rw [Sketch.json, Sketch.foldTop, Sketch.blockJson, Sketch.get?_insertEntry _ _ (by decide)]
    simp [PieceHead.members, Json.get?]
  have hy : (s.json x y).get? "y" = y.map .integer := by
    cases s
    rw [Sketch.json, Sketch.foldTop, Sketch.blockJson, Sketch.get?_insertEntry _ _ (by decide)]
    simp [PieceHead.members, Json.get?]
  rw [Json.top, hx, hy, Option.bind_map, Option.bind_map, Sketch.blockEntry_json h]
  rfl

theorem top_xml {t : PlacedSketch} (h : t.sketch.Writable) :
    (t.sketch.xml t.x t.y).top = t.top .value := by
  obtain ⟨s, x, y⟩ := t
  have hx : (s.xml x y).attribute? "x" = x.map toString := by
    cases s
    simp [Sketch.xml, Sketch.foldTop, Sketch.blockXml, PieceHead.attributes, Xml.attribute?,
      ByName.get?]
  have hy : (s.xml x y).attribute? "y" = y.map toString := by
    cases s
    simp [Sketch.xml, Sketch.foldTop, Sketch.blockXml, PieceHead.attributes, Xml.attribute?,
      ByName.get?]
  have hread : Text.int64? ∘ toString = fun i => (Json.integer i).int64? :=
    funext Text.int64?_toString
  rw [Xml.top, hx, hy, Option.bind_map, Option.bind_map, hread, Sketch.blockEntry_xml h]
  rfl

end PlacedSketch

namespace Forest

def json (f : Forest) : Json :=
  .object [("blocks", .object [
    ("blocks", .array (f.tops.map fun t => t.sketch.json t.x t.y)),
    ("languageVersion", .integer 0)])]

def xml (f : Forest) : Xml :=
  .element "xml" ⟨[]⟩ (f.tops.map fun t => t.sketch.xml t.x t.y)

def document (place : Place) (f : Forest) : Document where
  tops := some (f.tops.map (PlacedSketch.top place))

def Writable (f : Forest) : Prop := ∀ t ∈ f.tops, t.sketch.Writable

theorem ofJson_json {f : Forest} (h : f.Writable) : Document.ofJson f.json = f.document .input := by
  have htops : (f.tops.map fun t => (t.sketch.json t.x t.y).top) =
      f.tops.map (PlacedSketch.top .input) :=
    List.map_congr_left fun t ht => PlacedSketch.top_json (h t ht)
  simp [Document.ofJson, json, document, Json.get?, Json.items?, List.lookup, Function.comp_def,
    htops]

theorem ofXml_xml {f : Forest} (h : f.Writable) : Document.ofXml f.xml = f.document .value := by
  have htops : (f.tops.map fun t => (t.sketch.xml t.x t.y).top) =
      f.tops.map (PlacedSketch.top .value) :=
    List.map_congr_left fun t ht => PlacedSketch.top_xml (h t ht)
  have helement : ∀ (t : PlacedSketch) (name : String),
      (t.sketch.xml t.x t.y).isElement name = ("block" == name) := by
    rintro ⟨⟨⟩, x, y⟩ name
    rfl
  have hvariables : f.xml.children.find? (Xml.isElement "variables") = none := by
    simp [xml, Xml.children, helement]
  rw [Document.ofXml, hvariables]
  simp [xml, document, Xml.children, List.filter_map, helement, Function.comp_def, htops]

end Forest

end BlockCode
