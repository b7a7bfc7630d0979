import BlockCode.Proofs.Builds
import BlockCode.Proofs.Sketches

namespace BlockCode

def ByName.declare {α : Type} (m : ByName (Option α)) (names : List String) : ByName (Option α) :=
  names.foldl (fun m name => m.insertNew name none) m

namespace Sketch

variable {α β : Type}

theorem mapInputs_insertEntry (g : α → β) (name : String) (a : Option α)
    (es : List (String × Option α)) :
    mapInputs g (ByName.insertEntry name a es) =
      ByName.insertEntry name (a.map g) (mapInputs g es) := by
  induction es with
  | nil => rfl
  | cons e es ih =>
    simp only [mapInputs, List.map_cons, ByName.insertEntry] at ih ⊢
    split
    · rfl
    · split
      · rfl
      · rw [List.map_cons, ih]

theorem contains_mapInputs (g : α → β) (es : List (String × Option α)) (name : String) :
    (ByName.mk (mapInputs g es)).contains name = (ByName.mk es).contains name := by
  simp only [ByName.contains, ByName.get?]
  induction es with
  | nil => rfl
  | cons e es ih =>
    obtain ⟨n, a⟩ := e
    simp only [mapInputs, List.map_cons, ByName.lookup_cons_eq] at ih ⊢
    split
    · rfl
    · exact ih

theorem mapInputs_declare (g : α → β) (m : ByName (Option α)) (names : List String) :
    mapInputs g (m.declare names).entries =
      ((ByName.mk (mapInputs g m.entries)).declare names).entries := by
  unfold ByName.declare
  induction names generalizing m with
  | nil => rfl
  | cons name names ih =>
    rw [List.foldl_cons, ih, List.foldl_cons]
    congr 2
    rw [ByName.insertNew, ByName.insertNew, contains_mapInputs]
    split
    · rfl
    · rw [ByName.insert, mapInputs_insertEntry]
      rfl

end Sketch

namespace PieceHead

def conditions (h : PieceHead) : List String :=
  match h.shape with
  | none => []
  | some (elseIfs, _) => (List.range (elseIfs + 1)).map fun k => "IF" ++ toString k

def branches (h : PieceHead) : List String :=
  match h.shape with
  | none => []
  | some (elseIfs, hasElse) =>
    (List.range (elseIfs + 1)).map (fun k => "DO" ++ toString k) ++
      if hasElse then ["ELSE"] else []

end PieceHead

theorem Block.foldl_declareArm (ns : List Nat) (b : Block) :
    ns.foldl declareArm b =
      { b with
        values := b.values.declare (ns.map fun k => "IF" ++ toString k)
        statements := b.statements.declare (ns.map fun k => "DO" ++ toString k) } := by
  induction ns generalizing b with
  | nil => rfl
  | cons n ns ih =>
    rw [List.foldl_cons, ih]
    rfl

theorem Block.shaped_eq (h : PieceHead) (b : Block) :
    b.shaped h.shape =
      { b with
        values := b.values.declare h.conditions
        statements := b.statements.declare h.branches } := by
  unfold shaped PieceHead.conditions PieceHead.branches
  rcases h.shape with _ | ⟨elseIfs, hasElse⟩
  · rfl
  · dsimp only
    rw [declareShape, foldl_declareArm]
    cases hasElse with
    | false => simp
    | true => simp [ByName.declare]

def PieceField.content : PieceField → Field
  | .text s => .text s
  | .variable id _ => .variable id

def PieceField.mentions : PieceField → List (String × String)
  | .text _ => []
  | .variable id name => [(id, name)]

def PieceHead.head (n : Nat) (h : PieceHead) : Head where
  id := h.id.getD ("block" ++ toString (n + 1))
  type := h.type
  fields := ⟨h.fields.map fun f => (f.1, f.2.content)⟩
  disabled := h.disabled

def PieceHead.mentions (h : PieceHead) : List (String × String) :=
  h.fields.flatMap fun f => f.2.mentions

def mentions (heads : List PieceHead) : List (String × String) := heads.flatMap PieceHead.mentions

@[simp] theorem mentions_nil : mentions [] = [] := rfl

@[simp] theorem mentions_cons (h : PieceHead) (heads : List PieceHead) :
    mentions (h :: heads) = h.mentions ++ mentions heads := rfl

@[simp] theorem mentions_append (heads heads' : List PieceHead) :
    mentions (heads ++ heads') = mentions heads ++ mentions heads' :=
  List.flatMap_append

namespace Sketch

mutual

def heads : Sketch → List PieceHead
  | .block head values statements next =>
    head :: (inputHeads values ++ inputHeads statements ++ linkHeads next)

def inputHeads : List (String × Option Sketch) → List PieceHead
  | [] => []
  | (_, child) :: rest => linkHeads child ++ inputHeads rest

def linkHeads : Option Sketch → List PieceHead
  | none => []
  | some s => s.heads

end

def size (s : Sketch) : Nat := s.heads.length

def inputsSize (inputs : List (String × Option Sketch)) : Nat := (inputHeads inputs).length

def linkSize (child : Option Sketch) : Nat := (linkHeads child).length

mutual

def tree (n : Nat) : Sketch → Tree
  | .block head values statements next =>
    .block (head.head n) ((ByName.mk (inputTrees n values)).declare head.conditions).entries
      ((ByName.mk (inputTrees (n + inputsSize values) statements)).declare head.branches).entries
      (linkTree (n + inputsSize values + inputsSize statements) next)

def inputTrees (n : Nat) : List (String × Option Sketch) → List (String × Option Tree)
  | [] => []
  | (name, child) :: rest => (name, linkTree n child) :: inputTrees (n + linkSize child) rest

def linkTree (n : Nat) : Option Sketch → Option Tree
  | none => none
  | some s => some (s.tree n)

end

def position (n : Nat) : Sketch → Nat
  | .block _ values statements next =>
    n + inputsSize values + inputsSize statements + linkSize next

def inputLinks (n : Nat) : List (String × Option Sketch) → List (String × Option Nat)
  | [] => []
  | (name, child) :: rest => (name, child.map (position n)) :: inputLinks (n + linkSize child) rest

/-- A block with links to the blocks attached to it, which come before it in this order. -/
def linked (n : Nat) (head : PieceHead) (values statements : List (String × Option Sketch))
    (next : Option Sketch) : Block where
  toHead := head.head n
  values := (ByName.mk (inputLinks n values)).declare head.conditions
  statements := (ByName.mk (inputLinks (n + inputsSize values) statements)).declare head.branches
  next := next.map (position (n + inputsSize values + inputsSize statements))

mutual

def blocks (n : Nat) : Sketch → List Block
  | .block head values statements next =>
    inputBlocks n values ++ inputBlocks (n + inputsSize values) statements ++
      linkBlocks (n + inputsSize values + inputsSize statements) next ++
      [linked n head values statements next]

def inputBlocks (n : Nat) : List (String × Option Sketch) → List Block
  | [] => []
  | (_, child) :: rest => linkBlocks n child ++ inputBlocks (n + linkSize child) rest

def linkBlocks (n : Nat) : Option Sketch → List Block
  | none => []
  | some s => s.blocks n

end

theorem inputsSize_cons (name : String) (child : Option Sketch)
    (rest : List (String × Option Sketch)) :
    inputsSize ((name, child) :: rest) = linkSize child + inputsSize rest := by
  rw [inputsSize, inputHeads, List.length_append, linkSize, inputsSize]

theorem position_add_one (n : Nat) (s : Sketch) : s.position n + 1 = n + s.size := by
  cases s
  simp only [position, size, heads, inputsSize, linkSize, List.length_cons, List.length_append]
  omega

mutual

theorem length_blocks : ∀ (s : Sketch) (n : Nat), (s.blocks n).length = s.size
  | .block head values statements next, n => by
    simp only [blocks, List.length_append, length_inputBlocks values, length_inputBlocks statements,
      length_linkBlocks next, List.length_singleton]
    simp only [size, heads, inputsSize, linkSize, List.length_cons, List.length_append]

theorem length_inputBlocks : ∀ (inputs : List (String × Option Sketch)) (n : Nat),
    (inputBlocks n inputs).length = inputsSize inputs
  | [], n => by rfl
  | (name, child) :: rest, n => by
    rw [inputBlocks, List.length_append, length_linkBlocks child, length_inputBlocks rest,
      inputsSize_cons]

theorem length_linkBlocks : ∀ (child : Option Sketch) (n : Nat),
    (linkBlocks n child).length = linkSize child
  | none, n => by rfl
  | some s, n => length_blocks s n

end

end Sketch

def Workspace.HasAt (w : Workspace) (n : Nat) (bs : List Block) : Prop :=
  ∀ (i : Nat) (b : Block), bs[i]? = some b → w.blocks[n + i]? = some b

namespace Workspace

variable {w : Workspace} {n : Nat} {bs bs' : List Block}

theorem HasAt.left (h : w.HasAt n (bs ++ bs')) : w.HasAt n bs := fun i b hb => by
  refine h i b ?_
  rw [List.getElem?_append_left (List.getElem?_eq_some_iff.1 hb).1, hb]

theorem HasAt.right (h : w.HasAt n (bs ++ bs')) : w.HasAt (n + bs.length) bs' := fun i b hb => by
  rw [Nat.add_assoc]
  refine h (bs.length + i) b ?_
  rw [List.getElem?_append_right (Nat.le_add_right _ _), Nat.add_sub_cancel_left, hb]

theorem unfold_succ {i : Nat} {b : Block} (h : w.blocks[i]? = some b) (fuel : Nat) :
    w.unfold (fuel + 1) i =
      .block b.toHead (Sketch.mapInputs (w.unfold fuel) b.values.entries)
        (Sketch.mapInputs (w.unfold fuel) b.statements.entries) (b.next.map (w.unfold fuel)) := by
  rw [unfold, h]
  rfl

end Workspace

namespace Sketch

variable {w : Workspace}

mutual

theorem unfold_position : ∀ (s : Sketch) {n fuel : Nat}, w.HasAt n (s.blocks n) →
    s.position n < fuel → w.unfold fuel (s.position n) = s.tree n
  | .block head values statements next, n, fuel + 1, h, hfuel => by
    rw [blocks] at h
    -- The block stands last, so that its position bounds those of all blocks attached to it.
    have hlast := h.right 0 _ rfl
    have hnext := h.left.right
    have hstatements := h.left.left.right
    have hvalues := h.left.left.left
    simp only [List.length_append, length_inputBlocks, length_linkBlocks, Nat.add_zero,
      ← Nat.add_assoc] at hlast hnext hstatements
    simp only [position] at hfuel ⊢
    rw [Workspace.unfold_succ hlast, tree, linked, mapInputs_declare, mapInputs_declare,
      unfold_inputLinks values hvalues (by omega),
      unfold_inputLinks statements hstatements (by omega), unfold_link next hnext (by omega)]

theorem unfold_inputLinks : ∀ (inputs : List (String × Option Sketch)) {n fuel : Nat},
    w.HasAt n (inputBlocks n inputs) → n + inputsSize inputs ≤ fuel →
    mapInputs (w.unfold fuel) (inputLinks n inputs) = inputTrees n inputs
  | [], n, fuel, _, _ => by rfl
  | (name, child) :: rest, n, fuel, h, hfuel => by
    rw [inputBlocks] at h
    have hrest := h.right
    rw [length_linkBlocks] at hrest
    rw [inputsSize_cons] at hfuel
    have hlink : n + linkSize child ≤ fuel := by omega
    have hlinks : n + linkSize child + inputsSize rest ≤ fuel := by omega
    rw [inputTrees, ← unfold_link child h.left hlink, ← unfold_inputLinks rest hrest hlinks]
    rfl

theorem unfold_link : ∀ (child : Option Sketch) {n fuel : Nat},
    w.HasAt n (linkBlocks n child) → n + linkSize child ≤ fuel →
    (child.map (position n)).map (w.unfold fuel) = linkTree n child
  | none, n, fuel, _, _ => by rfl
  | some s, n, fuel, h, hfuel => by
    have hlt : s.position n < fuel := by
      have hposition := s.position_add_one n
      change n + s.size ≤ fuel at hfuel
      omega
    exact congrArg some (unfold_position s h hlt)

end

end Sketch

end BlockCode
