import BlockCode.Console.Arguments
import BlockCode.Console.Files
import BlockCode.Document.OfJson
import BlockCode.Document.OfXml
import BlockCode.Render.Program

namespace BlockCode

inductive Format where
  | json
  | xml
  deriving DecidableEq, Repr

def Format.label : Format → String
  | .json => "JSON"
  | .xml => "XML"

/-- What stands after the last dot of a file name, unless the dot is its first character. -/
def fileExtension? (name : String) : Option String :=
  let back := name.toList.reverse
  match back.dropWhile (· != '.') with
  | [] | ['.'] => none
  | _ :: _ => some (String.ofList (back.takeWhile (· != '.')).reverse)

def Format.ofFileName (name : String) : Format :=
  if (fileExtension? name).any (Text.sameIgnoringCase "xml") then .xml else .json

def Format.read (source : String) : Format → Except DocumentError Workspace
  | .json => Document.readJson source
  | .xml => Document.readXml source

inductive RunFault where
  | inputNotFound (path : String)
  | unreadable (path : String) (fault : FileFault)
  | invalidWorkspace (format : Format) (path : String) (error : DocumentError)
  | generation (path : String) (fault : Fault)
  | unwritable (fault : FileFault)

def RunFault.message : RunFault → String
  | .inputNotFound path => "Input file not found: '" ++ path ++ "'."
  | .unreadable path fault => "Failed to read '" ++ path ++ "'.: " ++ fault.message
  | .invalidWorkspace format path error =>
    "Invalid workspace " ++ format.label ++ " '" ++ path ++ "'.: " ++ error.message
  | .generation path fault => "Generation failed for '" ++ path ++ "': " ++ fault.message
  | .unwritable fault => fault.message

inductive GenerateFault where
  | file (fault : RunFault)
  | blocks (fault : Fault)

structure InputFile where
  path : String
  name : String
  text : Except FileFault String

def InputFile.load (f : InputFile) : Except RunFault Workspace := do
  match f.text with
  | .error fault => throw (.unreadable f.path fault)
  | .ok source =>
    let format := Format.ofFileName f.name
    match format.read source with
    | .ok w => return w
    | .error e => throw (.invalidWorkspace format f.path e)

inductive Delivery where
  | none
  | print (code : String)
  | write (path code : String)

namespace Command

def task (c : Command) : String := if c.check then "Check" else "Generate"

def target? (c : Command) : Option String := if c.check then none else c.output

def stages (c : Command) : List String :=
  ["Resolving input path", "Loading workspace", "Generating code"] ++
    (if c.target?.isSome then ["Writing output"] else [])

def stageEvent (c : Command) (step : Nat) : Event :=
  .stage c.task (c.stages[step - 1]?.getD "") step c.stages.length

def progressBar (step total width : Nat) : String :=
  let filled := (step * width + total / 2) / total
  "[" ++ String.ofList (List.replicate (min filled width) '=' ++
    List.replicate (width - filled) '-') ++ "]"

def progressLine (c : Command) (step : Nat) : String :=
  let total := c.stages.length
  "[" ++ c.task ++ "] " ++ c.stages[step - 1]?.getD "" ++ "... (" ++ toString step ++ "/" ++
    toString total ++ ") " ++ progressBar step total 14 ++ "\n"

def delivery (c : Command) (code : String) : Delivery :=
  if c.check then .none
  else match c.output with
    | some path => .write path code
    | none => .print code

structure Outcome where
  progress : String
  events : List Event
  result : Except RunFault Delivery

def run (c : Command) (input : Option InputFile) : Outcome :=
  let lines := c.progressLine 1
  let events := [c.stageEvent 1]
  match input with
  | none => ⟨lines, events, .error (.inputNotFound c.input)⟩
  | some file =>
    let lines := lines ++ c.progressLine 2
    let events := events ++ [c.stageEvent 2]
    match file.load with
    | .error fault => ⟨lines, events, .error fault⟩
    | .ok w =>
      let (result, inner) := Setup.run { options := c.options } w
      let lines := lines ++ c.progressLine 3
      let events := events ++ [c.stageEvent 3] ++ inner
      match result with
      | .error fault => ⟨lines, events, .error (.generation file.path fault)⟩
      | .ok code =>
        match c.delivery code with
        | .write path code =>
          ⟨lines ++ c.progressLine 4, events ++ [c.stageEvent 4], .ok (.write path code)⟩
        | done => ⟨lines, events, .ok done⟩

end Command

namespace Files

def inputFile? (fs : Files) (path : String) : Option InputFile := do
  let (place, content) ← fs.file? path
  let text := match fs.unreadable? place with
    | some fault => .error fault
    | none => readText content
  return ⟨absolute place, place.getLastD "", text⟩

def generate (fs : Files) (path : String) (options : Options) : Except GenerateFault String :=
  match fs.inputFile? path with
  | none => .error (.file (.inputNotFound path))
  | some file =>
    match file.load with
    | .error fault => .error (.file fault)
    | .ok w => (Setup.generate { options } w).mapError .blocks

structure Aftermath where
  files : Files
  printed : String
  progress : String
  events : List Event
  result : Except RunFault Unit

def run (fs : Files) (c : Command) : Aftermath :=
  let o := c.run (fs.inputFile? c.input)
  let aftermath (fs : Files) (printed : String) (result : Except RunFault Unit) : Aftermath :=
    ⟨fs, printed, o.progress, o.events, result⟩
  match o.result with
  | .error fault => aftermath fs "" (.error fault)
  | .ok .none => aftermath fs "" (.ok ())
  | .ok (.print code) => aftermath fs code (.ok ())
  | .ok (.write path code) =>
    match fs.write path code with
    | .ok fs => aftermath fs "" (.ok ())
    | .error fault => aftermath fs "" (.error (.unwritable fault))

end Files

end BlockCode
