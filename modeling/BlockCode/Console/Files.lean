namespace BlockCode

inductive FileFault where
  | notFound
  | notDirectory
  | isDirectory
  | notText
  | denied
  | other (message : String)
  deriving DecidableEq, Repr

def FileFault.message : FileFault → String
  | .notFound => "No such file or directory (os error 2)"
  | .notDirectory => "Not a directory (os error 20)"
  | .isDirectory => "Is a directory (os error 21)"
  | .notText => "stream did not contain valid UTF-8"
  | .denied => "Permission denied (os error 13)"
  | .other message => message

inductive FileNode where
  | directory
  | file (content : ByteArray)

abbrev FilePlace := List String

structure Files where
  home : FilePlace := []
  nodes : List (FilePlace × FileNode) := []
  unreadable? : FilePlace → Option FileFault := fun _ => none
  unwritable? : FilePlace → Option FileFault := fun _ => none

def splitAtSlashes : List Char → List (List Char)
  | [] => [[]]
  | '/' :: cs => [] :: splitAtSlashes cs
  | c :: cs => (splitAtSlashes cs).modifyHead (c :: ·)

def pathNames (path : String) : List String := (splitAtSlashes path.toList).map String.ofList

namespace Files

/-- What stands at a place. A place with something below it is a directory. -/
def node? (fs : Files) (place : FilePlace) : Option FileNode :=
  if place.isPrefixOf fs.home then some .directory
  else match fs.nodes.lookup place with
    | some n => some n
    | none => if fs.nodes.any fun n => place.isPrefixOf n.1 then some .directory else none

/-- Follows names from a place; each name but the last has to lead to a directory. -/
def follow (fs : Files) (place : FilePlace) : List String → Except FileFault FilePlace
  | [] => .ok place
  | name :: rest =>
    match fs.node? place with
    | none => .error .notFound
    | some (.file _) => .error .notDirectory
    | some .directory =>
      if name = "" || name = "." then fs.follow place rest
      -- Nothing is above the root: there, two dots lead to the root again.
      else if name = ".." then fs.follow place.dropLast rest
      else fs.follow (place ++ [name]) rest

def start (fs : Files) (path : String) : FilePlace :=
  if path.toList.head? = some '/' then [] else fs.home

def place (fs : Files) (path : String) : Except FileFault FilePlace :=
  if path = "" then .error .notFound else fs.follow (fs.start path) (pathNames path)

def absolute (place : FilePlace) : String := "/" ++ "/".intercalate place

def file? (fs : Files) (path : String) : Option (FilePlace × ByteArray) :=
  match fs.place path with
  | .error _ => none
  | .ok place =>
    match fs.node? place with
    | some (.file content) => some (place, content)
    | _ => none

def put (fs : Files) (place : FilePlace) (content : ByteArray) : Files :=
  { fs with nodes := (place, .file content) :: fs.nodes.filter (·.1 != place) }

def obstacle? (fs : Files) (place : FilePlace) (endsInSlash : Bool) : Option FileFault :=
  match fs.node? place with
  | some .directory => some .isDirectory
  | some (.file _) => if endsInSlash then some .notDirectory else fs.unwritable? place
  | none => if endsInSlash then some .isDirectory else fs.unwritable? place

def write (fs : Files) (path : String) (content : String) : Except FileFault Files := do
  if path = "" then throw .notFound
  let names := pathNames path
  let stem := (names.reverse.dropWhile (· = "")).reverse
  let place ← fs.follow (fs.start path) stem
  match fs.obstacle? place (stem.length < names.length) with
  | some fault => throw fault
  | none => return fs.put place content.toUTF8

def readText (content : ByteArray) : Except FileFault String :=
  match String.fromUTF8? content with
  | some s => .ok s
  | none => .error .notText

end Files

end BlockCode
