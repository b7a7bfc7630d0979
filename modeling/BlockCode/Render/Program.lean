import BlockCode.Render.Blocks

namespace BlockCode

def assemble (definitions : List (String × String)) (body : String) : String :=
  let head := String.join (definitions.map fun d => Text.terminate d.2)
  if head.isEmpty then body
  else if body.isEmpty then head
  else head ++ "\n" ++ body

namespace Setup

def runOpening (c : Setup) (w : Workspace) : Render Bool := do
  match c.book.opening with
  | none => return false
  | some opening =>
    opening c.options w.rootTrees
    return true

def program (c : Setup) (w : Workspace) : Render String := do
  Render.report (.started w.roots.length w.size)
  let _ ← c.runOpening w
  let parts ← w.rootTrees.mapM (Tree.chain c)
  let pass ← get
  Render.report (.finished pass.definitions.length pass.names.count)
  return assemble pass.definitions (String.join parts)

def run (c : Setup) (w : Workspace) : Except Fault String × List Event :=
  let (result, pass) := (c.program w).run (c.start w)
  (result, pass.events.toList)

def generate (c : Setup) (w : Workspace) : Except Fault String := (c.run w).1

end Setup

end BlockCode
