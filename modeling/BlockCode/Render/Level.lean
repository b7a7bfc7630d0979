namespace BlockCode

/-- Larger numbers bind more tightly. -/
abbrev Level := Nat

namespace Level

def loosest : Level := 0
def assignment : Level := 1
def range : Level := 2
def disjunction : Level := 3
def conjunction : Level := 4
def comparison : Level := 5
def additive : Level := 10
def multiplicative : Level := 11
def cast : Level := 12
def unary : Level := 13
def call : Level := 14
def atomic : Level := 15

def tighter (l : Level) : Level := min (l + 1) atomic

end Level

structure Fragment where
  code : String
  level : Level
  deriving DecidableEq, Repr

namespace Fragment

def needsParens (level least : Level) : Bool := decide (level < least)

def splice (f : Fragment) (least : Level) : String :=
  if needsParens f.level least then "(" ++ f.code ++ ")" else f.code

end Fragment

end BlockCode
