import BlockCode.Render.Rulebook

namespace BlockCode

structure Setup where
  book : Rulebook := .builtin
  dialect : Dialect := .rust
  options : Options := {}

namespace Setup

def names (c : Setup) (w : Workspace) : Names :=
  let start : Names := { reserved := c.dialect.reserved }
  let hinted := w.variableNames.foldl (fun t (id, name) => t.setHint id name) start
  c.options.developer.foldl (fun t name => t.setHint (developerKey name) name) hinted

def start (c : Setup) (w : Workspace) : Pass := { names := c.names w }

end Setup

end BlockCode
