namespace BlockCode.Text

/--
Writes `mark` in front of every line that holds more than its line break. The flag says whether the
text begins a line.
-/
def markList (mark : List Char) : Bool → List Char → List Char
  | _, [] => []
  | _, '\n' :: cs => '\n' :: markList mark true cs
  | true, c :: cs => mark ++ c :: markList mark false cs
  | false, c :: cs => c :: markList mark false cs

def markLines (mark text : String) : String :=
  String.ofList (markList mark.toList true text.toList)

def line (code : String) : String := code ++ "\n"

def indentStep : String := "  "

def indent (text : String) : String := markLines indentStep text

def terminate (text : String) : String :=
  String.ofList ((text.toList.reverse.dropWhile (· == '\n')).reverse ++ ['\n'])

end BlockCode.Text
