namespace BlockCode.Text

def sameIgnoringCase (a b : String) : Bool :=
  a.toList.map Char.toLower == b.toList.map Char.toLower

end BlockCode.Text
