import BlockCode.Text.WordRanges

namespace BlockCode.Text

def isDecimalDigit (c : Char) : Bool :=
  if c.toNat < 0x80 then c.isDigit
  else digitZeros.any fun z => z ≤ c.toNat && c.toNat < z + 10

def isWordChar (c : Char) : Bool :=
  if c.toNat < 0x80 then c.isAlphanum || c == '_'
  else wordRanges.any fun run => run.any fun (first, last) => first ≤ c.toNat && c.toNat ≤ last

end BlockCode.Text
