import BlockCode.Render.Site
import BlockCode.Workspace.Tree

namespace BlockCode

/-- The variable that a field refers to. A field named `VAR` refers to one whatever it holds. -/
def Field.reference? (name : String) (f : Field) : Option String :=
  match f.variableId? with
  | some id => some id
  | none => if name = "VAR" then some f.toText else none

def Head.references (h : Head) : List String :=
  h.fields.entries.filterMap fun (name, f) => f.reference? name

/-- The variables that were come across, and the same in the order in which they came. -/
structure Collected where
  seen : List String := []
  inOrder : Array String := #[]

def Collected.add (c : Collected) (id : String) : Collected :=
  if c.seen.contains id then c else ⟨id :: c.seen, c.inOrder.push id⟩

namespace Tree

mutual

def collect (c : Collected) : Tree → Except Fault Collected
  | .missing => .error .missingBlock
  | .endless => .error .endless
  | .block head values statements next => do
    let mut c := c
    -- A disabled block is passed over with all that is inside it.
    if !head.disabled then
      c := head.references.foldl .add c
      c ← collectInputs c values
      c ← collectInputs c statements
    collectLink c next

def collectInputs (c : Collected) : List (String × Option Tree) → Except Fault Collected
  | [] => return c
  | (_, link) :: rest => do collectInputs (← collectLink c link) rest

def collectLink (c : Collected) : Option Tree → Except Fault Collected
  | none => return c
  | some t => t.collect c

end

end Tree

def referencedVariables (roots : List Tree) : Except Fault (List String) := do
  return (← roots.foldlM Tree.collect {}).inOrder.toList

def declarationKey : String := "variables"

def declarationCode : List String → Option String
  | [] => none
  | [name] => some ("let mut " ++ name ++ ";")
  | names => some ("let (" ++ ", ".intercalate (names.map ("mut " ++ ·)) ++ ");")

def declareVariables (options : Options) (roots : List Tree) : Render Unit := do
  let own ← options.developer.mapM fun name => Render.nameFor (developerKey name) .developer
  let ids ← liftExcept (referencedVariables roots)
  let used ← ids.mapM fun id => Render.nameFor id .variable
  match declarationCode (own ++ used) with
  | some code => Render.define declarationKey code
  | none => return
where
  liftExcept {α : Type} : Except Fault α → Render α
    | .ok a => return a
    | .error e => throw e

end BlockCode
