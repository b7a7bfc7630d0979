import BlockCode.Render.Setup

namespace BlockCode

def Setup.emit (c : Setup) (s : Site) : Render BlockText := do
  match c.book.rule? s.head.type with
  | none => throw (.unknownType s.head.type s.head.id)
  | some rule =>
    Render.report (.emitting s.head.type s.head.id)
    match ← rule s with
    | .statement code => return .statement (s.wrap code)
    | .instrumented code => return .statement code
    | .expression f => return .expression f

def Site.asStatement (s : Site) : BlockText → String
  | .statement code => code
  | .expression f => s.wrap (f.code ++ ";\n")

namespace Tree

mutual

def operands (c : Setup) : List (String × Option Tree) → List (String × Option Operand)
  | [] => []
  | (name, none) :: rest => (name, none) :: operands c rest
  | (name, some t) :: rest => (name, some (operand c t)) :: operands c rest

def operand (c : Setup) : Tree → Operand
  | .missing => { text := throw .missingBlock }
  | .endless => { text := throw .endless }
  | .block head values statements _ =>
    ⟨head.type, head.disabled, c.emit ⟨head, c.options, operands c values, chains c statements⟩⟩

def chains (c : Setup) : List (String × Option Tree) → List (String × Option (Render String))
  | [] => []
  | (name, none) :: rest => (name, none) :: chains c rest
  | (name, some t) :: rest => (name, some (chain c t)) :: chains c rest

def chain (c : Setup) : Tree → Render String
  | .missing => throw .missingBlock
  | .endless => throw .endless
  | .block head values statements next => do
    let s : Site := ⟨head, c.options, operands c values, chains c statements⟩
    let code ← if head.disabled then pure "" else s.asStatement <$> c.emit s
    match next with
    | none => return code
    | some t => return code ++ (← chain c t)

end

def site (c : Setup) : Tree → Render Site
  | .missing => throw .missingBlock
  | .endless => throw .endless
  | .block head values statements _ =>
    return ⟨head, c.options, operands c values, chains c statements⟩

def text (c : Setup) (t : Tree) : Render BlockText := do
  c.emit (← t.site c)

end Tree

end BlockCode
