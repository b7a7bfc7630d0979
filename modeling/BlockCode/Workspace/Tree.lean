import BlockCode.Workspace.Basic

/-!
Blocks unfolded into trees. A tree holds a block with everything that its links lead to, so that
what is computed from a block follows the tree and needs no look at the workspace.
-/

namespace BlockCode

inductive Tree where
  | missing
  /-- A path longer than the workspace has blocks: only links in a circle lead here. -/
  | endless
  | block (head : Head) (values statements : List (String × Option Tree)) (next : Option Tree)
  deriving Inhabited

namespace Workspace

/-- The tree of the block at position `i`; `n` bounds the length of its paths. -/
def unfold (w : Workspace) : Nat → Nat → Tree
  | n, i =>
    match w.blocks[i]? with
    | none => .missing
    | some b =>
      match n with
      | 0 => .endless
      | n + 1 =>
        let follow : Option Nat → Option Tree := Option.map (unfold w n)
        .block b.toHead (b.values.entries.map fun (name, link) => (name, follow link))
          (b.statements.entries.map fun (name, link) => (name, follow link)) (follow b.next)

def tree (w : Workspace) (i : Nat) : Tree := w.unfold w.size i

def rootTrees (w : Workspace) : List Tree := w.roots.map w.tree

end Workspace

def Workspace.chain (w : Workspace) : Nat → Option Nat → List (Nat × Block) × Bool
  | _, none => ([], true)
  | n, some i =>
    match w.blocks[i]? with
    | none => ([], false)
    | some b =>
      match n with
      | 0 => ([], false)
      | n + 1 =>
        let (rest, ends) := w.chain n b.next
        ((i, b) :: rest, ends)

end BlockCode
