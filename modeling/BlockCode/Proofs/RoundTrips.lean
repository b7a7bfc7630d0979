import BlockCode.Proofs.Formats
import BlockCode.Proofs.Rows

namespace BlockCode

def register (names : List (String × String)) (v : String × String) : List (String × String) :=
  if (names.lookup v.1).isSome then names else names ++ [v]

namespace Workspace

def extend (w : Workspace) (bs : List Block) (vs : List (String × String)) : Workspace :=
  { w with blocks := w.blocks ++ bs.toArray, variableNames := vs.foldl register w.variableNames }

@[simp] theorem extend_nil (w : Workspace) : w.extend [] [] = w := by
  simp [extend]

@[simp] theorem extend_extend (w : Workspace) (bs bs' : List Block)
    (vs vs' : List (String × String)) :
    (w.extend bs vs).extend bs' vs' = w.extend (bs ++ bs') (vs ++ vs') := by
  simp [extend]

@[simp] theorem size_extend (w : Workspace) (bs : List Block) (vs : List (String × String)) :
    (w.extend bs vs).size = w.size + bs.length := by
  simp [extend, size]

theorem addVariable_eq (w : Workspace) (id name : String) :
    w.addVariable id name = w.extend [] [(id, name)] := by
  unfold addVariable
  split
  · next h => simp [extend, register, h]
  · next h => simp [extend, register, h]

theorem empty_extend (bs : List Block) (vs : List (String × String)) :
    extend {} bs vs = { blocks := bs.toArray, variableNames := vs.foldl register [] } := by
  simp [extend]

theorem add_eq (w : Workspace) (b : Block) : w.add b = w.extend [b] [] := by
  simp [extend, add]

end Workspace

theorem buildParts_cons {slot : Slot} {entry : Option Entry} {link : Option Nat} {b b' : Block}
    {w w' w'' : Workspace} (hlink : buildLink entry w = .ok (link, w'))
    (henter : slot.enter b link w' = .ok (b', w'')) (id : String)
    (parts : List (Slot × Option Entry)) :
    buildParts id ((slot, entry) :: parts) b w = buildParts id parts b' w'' := by
  rw [buildParts]
  exact Build.bind_of_ok (Build.within_of_ok (Build.bind_of_ok hlink henter) _) rfl

theorem PieceField.enter_field {name : String} {f : PieceField}
    (h : ∀ s, f = .text s → name ≠ "VAR") (b : Block) (link : Option Nat) (w : Workspace) :
    Slot.enter b link (.field name (f.entry name)) w =
      .ok (b.setField name f.content, w.extend [] f.mentions) := by
  cases f with
  | text s =>
    rw [entry, if_neg (h s rfl), mentions, Workspace.extend_nil]
    rfl
  | «variable» id shown =>
    rw [mentions, ← Workspace.addVariable_eq]
    rfl

theorem buildParts_fields (id : String) {fields : List (String × PieceField)}
    (h : ∀ f ∈ fields, ∀ s, f.2 = .text s → f.1 ≠ "VAR") (b : Block) (w : Workspace) :
    buildParts id (fields.map fun f => (.field f.1 (f.2.entry f.1), none)) b w =
      .ok ({ b with
          fields := (fields.map fun f => (f.1, f.2.content)).foldl (fun m e => m.insert e.1 e.2)
            b.fields },
        w.extend [] (fields.flatMap fun f => f.2.mentions)) := by
  induction fields generalizing b w with
  | nil =>
    rw [List.flatMap_nil, Workspace.extend_nil]
    rfl
  | cons f fields ih =>
    obtain ⟨hf, hfields⟩ := List.forall_mem_cons.1 h
    rw [List.map_cons, buildParts_cons rfl (PieceField.enter_field hf b none w), ih hfields,
      Workspace.extend_extend, List.flatMap_cons]
    rfl

theorem PieceHead.buildParts_fieldParts {h : PieceHead} {values statements : List String}
    (hh : h.Orderly values statements) (id : String) {b : Block} (hb : b.fields = {})
    (w : Workspace) :
    buildParts id h.fieldParts b w =
      .ok ({ b with fields := ⟨h.fields.map fun f => (f.1, f.2.content)⟩ },
        w.extend [] h.mentions) := by
  have hsorted : ((h.fields.map fun f => (f.1, f.2.content)).map Prod.fst).Pairwise (· < ·) := by
    simpa [Function.comp_def] using hh.fieldNames
  rw [fieldParts, buildParts_fields id hh.texts, hb, mentions,
    ← ByName.ofList_of_pairwise hsorted]
  rfl

namespace InputKind

def connection (k : InputKind) (name : String) : Connection :=
  match k with
  | .value => .value name
  | .statement => .statement name

def inputs (k : InputKind) (b : Block) : ByName (Option Nat) :=
  match k with
  | .value => b.values
  | .statement => b.statements

def setInputs (k : InputKind) (b : Block) (m : ByName (Option Nat)) : Block :=
  match k with
  | .value => { b with values := m }
  | .statement => { b with statements := m }

def connectAll (k : InputKind) (links : List (String × Option Nat)) (b : Block) : Block :=
  links.foldl (fun b l => b.connect l.2 (k.connection l.1)) b

theorem connectAll_eq (k : InputKind) {links : List (String × Option Nat)} {b : Block}
    (hb : k.inputs b = {}) (h : (links.map Prod.fst).Pairwise (· < ·)) :
    k.connectAll links b = k.setInputs b ⟨links⟩ := by
  have hfold : ∀ (links : List (String × Option Nat)) (b : Block), k.connectAll links b =
      k.setInputs b (links.foldl (fun m l => m.insert l.1 l.2) (k.inputs b)) := by
    unfold connectAll
    intro links
    induction links with
    | nil => exact fun _ => by cases k <;> rfl
    | cons l links ih =>
      intro b
      rw [List.foldl_cons, ih]
      cases k <;> rfl
  rw [hfold, hb, ← ByName.ofList_of_pairwise h]
  rfl

end InputKind

namespace Sketch

theorem names_inputLinks (inputs : List (String × Option Sketch)) (n : Nat) :
    (inputLinks n inputs).map Prod.fst = inputs.map Prod.fst := by
  induction inputs generalizing n with
  | nil => rfl
  | cons i inputs ih => rw [inputLinks, List.map_cons, ih, List.map_cons]

def Builds (place : Place) (s : Sketch) : Prop :=
  ∀ w : Workspace, (s.entry place).build w =
    .ok (s.position w.size, w.extend (s.blocks w.size) (mentions s.heads))

section

variable {place : Place}

theorem buildLink_link {child : Option Sketch} (h : ∀ s, child = some s → s.Builds place)
    (w : Workspace) :
    buildLink (foldLink (blockEntry place) child) w =
      .ok (child.map (position w.size),
        w.extend (linkBlocks w.size child) (mentions (linkHeads child))) := by
  cases child with
  | none =>
    rw [linkBlocks, linkHeads, mentions_nil, Workspace.extend_nil]
    rfl
  | some s =>
    rw [foldLink, buildLink, map_eq_pure_bind]
    exact Build.bind_of_ok (h s rfl w) rfl

theorem buildParts_inputs {slot : String → Slot} {k : InputKind}
    (hslot : ∀ name, (slot name).connection? = some (k.connection name)) (id : String)
    {inputs : List (String × Option Sketch)} (hnames : (inputs.map Prod.fst).Pairwise (· < ·))
    (h : ∀ i ∈ inputs, ∀ s, i.2 = some s → s.Builds place) {b : Block} (hb : k.inputs b = {})
    (w : Workspace) :
    buildParts id ((foldInputs (blockEntry place) inputs).map fun i => (slot i.1, i.2)) b w =
      .ok (k.setInputs b ⟨inputLinks w.size inputs⟩,
        w.extend (inputBlocks w.size inputs) (mentions (inputHeads inputs))) := by
  rw [← k.connectAll_eq hb (by rwa [names_inputLinks])]
  clear hnames hb
  induction inputs generalizing b w with
  | nil =>
    rw [inputBlocks, inputHeads, mentions_nil, Workspace.extend_nil]
    rfl
  | cons i inputs ih =>
    obtain ⟨name, child⟩ := i
    obtain ⟨hchild, hinputs⟩ := List.forall_mem_cons.1 h
    rw [foldInputs, List.map_cons,
      buildParts_cons (buildLink_link hchild w) (Slot.enter_of_connection (hslot name) b _ _),
      ih hinputs, Workspace.extend_extend, Workspace.size_extend, length_linkBlocks, inputBlocks,
      inputHeads, mentions_append]
    rfl

theorem buildParts_next (id : String) {next : Option Sketch}
    (h : ∀ s, next = some s → s.Builds place) {b : Block} (hb : b.next = none) (w : Workspace) :
    buildParts id ((foldLink (blockEntry place) next).map fun e => (Slot.next, some e)).toList b w =
      .ok ({ b with next := next.map (position w.size) },
        w.extend (linkBlocks w.size next) (mentions (linkHeads next))) := by
  cases next with
  | none =>
    rw [linkBlocks, linkHeads, mentions_nil, Workspace.extend_nil, Option.map_none, ← hb]
    rfl
  | some s =>
    have hlink := buildLink_link h w
    rw [foldLink] at hlink ⊢
    exact buildParts_cons hlink rfl id []

theorem buildParts_parts {head : PieceHead} {values statements : List (String × Option Sketch)}
    {next : Option Sketch} (hhead : head.Orderly (values.map Prod.fst) (statements.map Prod.fst))
    (hvalues : ∀ i ∈ values, ∀ s, i.2 = some s → s.Builds place)
    (hstatements : ∀ i ∈ statements, ∀ s, i.2 = some s → s.Builds place)
    (hnext : ∀ s, next = some s → s.Builds place) (w : Workspace) (id : String) :
    buildParts id
        (blockParts place head (foldInputs (blockEntry place) values)
          (foldInputs (blockEntry place) statements) (foldLink (blockEntry place) next))
        { id := (head.head w.size).id, type := head.type, disabled := head.disabled } w =
      .ok (linked w.size head values statements next,
        w.extend
          (inputBlocks w.size values ++ inputBlocks (w.size + inputsSize values) statements ++
            linkBlocks (w.size + inputsSize values + inputsSize statements) next)
          (head.mentions ++ mentions (inputHeads values) ++ mentions (inputHeads statements) ++
            mentions (linkHeads next))) := by
  have hvalue : ∀ name, (Slot.value place name).connection? =
      some (InputKind.value.connection name) := fun _ => rfl
  have hstatement : ∀ name, (Slot.statement .statement name).connection? =
      some (InputKind.statement.connection name) := fun _ => rfl
  have hfieldParts := PieceHead.buildParts_fieldParts hhead id
    (b := { id := (head.head w.size).id, type := head.type, disabled := head.disabled }) rfl w
  have hvalueParts := buildParts_inputs hvalue id hhead.valueNames hvalues
    (b := { toHead := head.head w.size }) rfl (w.extend [] head.mentions)
  have hstatementParts := buildParts_inputs hstatement id hhead.statementNames hstatements
    (b := { toHead := head.head w.size, values := ⟨inputLinks w.size values⟩ }) rfl
    (w.extend (inputBlocks w.size values) (head.mentions ++ mentions (inputHeads values)))
  have hshapeParts : buildParts id head.shapeParts
      { toHead := head.head w.size
        values := ⟨inputLinks w.size values⟩
        statements := ⟨inputLinks (w.size + inputsSize values) statements⟩ } =
      pure (linked w.size head values statements none) := by
    rw [buildParts_shapeParts, Block.shaped_eq]
    rfl
  have hnextParts := buildParts_next id hnext (b := linked w.size head values statements none) rfl
    (w.extend (inputBlocks w.size values ++ inputBlocks (w.size + inputsSize values) statements)
      (head.mentions ++ mentions (inputHeads values) ++ mentions (inputHeads statements)))
  -- Each step begins where the one before it ends, once the further blocks are put together.
  simp only [Workspace.extend_extend, Workspace.size_extend, List.length_nil, Nat.add_zero,
    List.nil_append, List.length_append, length_inputBlocks, ← Nat.add_assoc]
    at hvalueParts hstatementParts hnextParts
  rw [blockParts, buildParts_append, buildParts_append, buildParts_append, buildParts_append]
  exact Build.bind_of_ok (Build.bind_of_ok (Build.bind_of_ok (Build.bind_of_ok hfieldParts
    hvalueParts) hstatementParts) (congrFun hshapeParts _)) hnextParts

theorem Writable.builds {s : Sketch} (hs : s.Writable) : s.Builds place := by
  induction hs with
  | @block head values statements next hhead _ _ _ ihvalues ihstatements ihnext =>
    intro w
    have hparts := buildParts_parts hhead ihvalues ihstatements ihnext w (head.head w.size).id
    rw [entry, fold, blockEntry, Entry.build]
    refine Build.bind_of_ok rfl (Build.bind_of_ok hparts ?_)
    change Except.ok (_, Workspace.add _ _) = _
    rw [Workspace.add_eq, Workspace.extend_extend, Workspace.size_extend, position, blocks, heads]
    simp only [List.length_append, length_inputBlocks, length_linkBlocks, List.append_nil,
      mentions_cons, mentions_append, ← Nat.add_assoc, ← List.append_assoc]

end

end Sketch

def PlacedSketch.before (a b : PlacedSketch) : Bool := (a.top .value).before (b.top .value)

namespace Forest

open Sketch

def numbered {α : Type} (g : Nat → Sketch → α) : Nat → List PlacedSketch → List α
  | _, [] => []
  | n, t :: tops => g n t.sketch :: numbered g (n + t.sketch.size) tops

def arranged {α : Type} (f : Forest) (g : Nat → Sketch → α) : List α :=
  ((f.tops.zip (numbered g 0 f.tops)).mergeSort fun a b => a.1.before b.1).map Prod.snd

def heads (f : Forest) : List PieceHead := f.tops.flatMap fun t => t.sketch.heads

def workspace (f : Forest) : Workspace where
  blocks := (numbered blocks 0 f.tops).flatten.toArray
  roots := f.arranged position
  variableNames := (mentions f.heads).foldl register []

theorem buildTops_tops (place : Place) {tops : List PlacedSketch}
    (h : ∀ t ∈ tops, t.sketch.Writable) (w : Workspace) :
    Document.buildTops (tops.map (PlacedSketch.top place)) w =
      .ok ((tops.zip (numbered position w.size tops)).map fun t => (t.1.top place, t.2),
        w.extend (numbered blocks w.size tops).flatten
          (mentions (tops.flatMap fun t => t.sketch.heads))) := by
  induction tops generalizing w with
  | nil => exact congrArg (fun w => Except.ok ([], w)) w.extend_nil.symm
  | cons t tops ih =>
    obtain ⟨ht, htops⟩ := List.forall_mem_cons.1 h
    have hrest := ih htops (w.extend (t.sketch.blocks w.size) (mentions t.sketch.heads))
    rw [Workspace.size_extend, length_blocks, Workspace.extend_extend] at hrest
    rw [List.map_cons, Document.buildTops, numbered, numbered, List.flatten_cons,
      List.flatMap_cons, mentions_append]
    exact Build.bind_of_ok (ht.builds w) (Build.bind_of_ok hrest rfl)

theorem map_arranged {α β : Type} (f : Forest) {g : Nat → Sketch → α} {k : α → β}
    {g' : Nat → Sketch → β} (h : (numbered g 0 f.tops).map k = numbered g' 0 f.tops) :
    (f.arranged g).map k = f.arranged g' := by
  have hsort : ((f.tops.zip (numbered g 0 f.tops)).mergeSort fun a b => a.1.before b.1).map
      (Prod.map id k) =
        ((f.tops.zip (numbered g 0 f.tops)).map (Prod.map id k)).mergeSort fun a b =>
          a.1.before b.1 := List.map_mergeSort fun _ _ _ _ => rfl
  rw [arranged, arranged, ← h, List.zip_map_right, ← hsort, List.map_map, List.map_map]
  rfl

theorem workspace_document (place : Place) {f : Forest} (h : f.Writable) :
    (f.document place).workspace = .ok f.workspace := by
  have hsort : ((f.tops.zip (numbered position 0 f.tops)).mergeSort fun a b =>
      a.1.before b.1).map (fun t => (t.1.top place, t.2)) =
        ((f.tops.zip (numbered position 0 f.tops)).map fun t =>
          (t.1.top place, t.2)).mergeSort fun a b => a.1.before b.1 :=
    List.map_mergeSort fun _ _ _ _ => rfl
  have hroots : (((f.tops.zip (numbered position 0 f.tops)).map fun t =>
      (t.1.top place, t.2)).mergeSort fun a b => a.1.before b.1).map Prod.snd =
        f.arranged position := by
    rw [← hsort, List.map_map]
    rfl
  have hbuild : (f.document place).build {} = .ok ((), f.workspace) := by
    refine Build.bind_of_ok rfl (Build.bind_of_ok (buildTops_tops place h {}) ?_)
    rw [Workspace.empty_extend]
    exact congrArg (fun roots => Except.ok ((), { f.workspace with roots })) hroots
  change ((f.document place).build {}).bind (fun r => .ok r.2) = _
  rw [hbuild]
  rfl

theorem length_numbered (tops : List PlacedSketch) (n : Nat) :
    (numbered blocks n tops).flatten.length = (tops.flatMap fun t => t.sketch.heads).length := by
  induction tops generalizing n with
  | nil => rfl
  | cons t tops ih =>
    rw [numbered, List.flatten_cons, List.length_append, length_blocks, ih, List.flatMap_cons,
      List.length_append, size]

theorem size_workspace (f : Forest) : f.workspace.size = f.heads.length :=
  length_numbered f.tops 0

theorem tree_numbered {w : Workspace} {tops : List PlacedSketch} {n : Nat}
    (h : w.HasAt n (numbered blocks n tops).flatten)
    (hsize : n + (numbered blocks n tops).flatten.length ≤ w.size) :
    (numbered position n tops).map w.tree = numbered tree n tops := by
  induction tops generalizing n with
  | nil => rfl
  | cons t tops ih =>
    rw [numbered, List.flatten_cons] at h hsize
    rw [List.length_append, length_blocks] at hsize
    have hrest := h.right
    rw [length_blocks] at hrest
    have hposition := t.sketch.position_add_one n
    rw [numbered, numbered, List.map_cons, ih hrest (by omega), Workspace.tree,
      unfold_position t.sketch h.left (by omega)]

theorem rootTrees_workspace (f : Forest) : f.workspace.rootTrees = f.arranged tree := by
  have hblocks : f.workspace.HasAt 0 (numbered blocks 0 f.tops).flatten := fun i b hb => by
    simpa [workspace] using hb
  refine f.map_arranged (tree_numbered hblocks ?_)
  simp [workspace, Workspace.size]

/--
Both formats of a forest are read into the same workspace. From its roots, which go from top to
bottom and from left to right, it unfolds into the sketches, with the inputs that their shapes
imply; the variables have the names that they are first mentioned with.
-/
theorem workspace_json_xml {f : Forest} (h : f.Writable) :
    ∃ w : Workspace,
      (Document.ofJson f.json).workspace = .ok w ∧ (Document.ofXml f.xml).workspace = .ok w ∧
      (∀ source, Json.parse? source = some f.json → Document.readJson source = .ok w) ∧
      (∀ source, Xml.parse? source = some f.xml → Document.readXml source = .ok w) ∧
      w.rootTrees = f.arranged Sketch.tree ∧ w.size = f.heads.length ∧
      w.variableNames = (mentions f.heads).foldl register [] := by
  have hjson : (Document.ofJson f.json).workspace = .ok f.workspace := by
    rw [ofJson_json h, workspace_document _ h]
  have hxml : (Document.ofXml f.xml).workspace = .ok f.workspace := by
    rw [ofXml_xml h, workspace_document _ h]
  refine ⟨f.workspace, hjson, hxml, fun source hsource => ?_, fun source hsource => ?_,
    f.rootTrees_workspace, f.size_workspace, rfl⟩
  · rw [Document.readJson, hsource]
    exact hjson
  · rw [Document.readXml, hsource]
    exact hxml

/--
A conditional with two conditions, of which one is left empty and not even declared, and a block
that stands above it.
-/
theorem workspace_json_xml_conditional :
    let truth : Sketch :=
      .block { type := "logic_boolean", fields := [("BOOL", .text "TRUE")] } [] [] none
    let set : Sketch :=
      .block
        { id := "s", type := "variables_set", disabled := true,
          fields := [("VAR", .variable "v" "count")] }
        [("VALUE", none)] [] none
    let conditional : Sketch :=
      .block { type := "controls_if", shape := some (1, true) } [("IF0", some truth)]
        [("DO0", some set)] (some truth)
    let f : Forest :=
      { tops := [{ sketch := conditional, y := some 20 }, { sketch := truth, y := some 10 }] }
    let truthTree (id : String) : Tree :=
      .block { id, type := "logic_boolean", fields := ⟨[("BOOL", .text "TRUE")]⟩ } [] [] none
    let setTree : Tree :=
      .block
        { id := "s", type := "variables_set", disabled := true,
          fields := ⟨[("VAR", .variable "v")]⟩ }
        [("VALUE", none)] [] none
    let conditionalTree : Tree :=
      .block { id := "block1", type := "controls_if" }
        [("IF0", some (truthTree "block1")), ("IF1", none)]
        [("DO0", some setTree), ("DO1", none), ("ELSE", none)] (some (truthTree "block3"))
    f.Writable ∧ ∃ w, (Document.ofJson f.json).workspace = .ok w ∧
      (Document.ofXml f.xml).workspace = .ok w ∧
      w.rootTrees = [truthTree "block5", conditionalTree] ∧ w.size = 5 ∧
      w.variableNames = [("v", "count")] := by
  intro truth set conditional f truthTree setTree conditionalTree
  have htrim : ∀ t ∈ ["TRUE", "count"], Text.trim t = t := by decide
  have hvalues : ∀ name ∈ ["VALUE", "IF0"], isStatementInput name = false := by decide
  simp only [List.forall_mem_cons] at htrim hvalues
  have htruth : truth.Writable := by
    refine .block ⟨⟨?_, ?_⟩, ?_, ?_, ?_, ?_, ?_⟩ ?_ ?_ ?_ <;> simp [PieceField.Trimmed, htrim]
  have hset : set.Writable := by
    refine .block ⟨⟨?_, ?_⟩, ?_, ?_, ?_, ?_, ?_⟩ ?_ ?_ ?_ <;>
      simp [PieceField.Trimmed, htrim, hvalues]
  have hconditional : conditional.Writable := by
    refine .block ⟨⟨?_, ?_⟩, ?_, ?_, ?_, ?_, ?_⟩ ?_ ?_ ?_ <;> simp [htruth, hset, hvalues]
  have hf : f.Writable := by simp [f, Writable, htruth, hconditional]
  have hbefore :
      PlacedSketch.before ⟨conditional, none, some 20⟩ ⟨truth, none, some 10⟩ = false := by
    decide
  have hsort : f.arranged tree = [truth.tree conditional.size, conditional.tree 0] := by
    simp [arranged, f, numbered, List.mergeSort, List.MergeSort.Internal.splitInTwo, hbefore]
  obtain ⟨w, hjson, hxml, -, -, htrees, hsize, hvariables⟩ := workspace_json_xml hf
  have htruthTree : truth.tree conditional.size = truthTree "block5" := by cbv
  have hconditionalTree : conditional.tree 0 = conditionalTree := by cbv
  rw [htruthTree, hconditionalTree] at hsort
  exact ⟨hf, w, hjson, hxml, htrees.trans hsort, hsize, hvariables⟩

end Forest

end BlockCode
