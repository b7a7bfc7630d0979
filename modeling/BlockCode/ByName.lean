namespace BlockCode

structure ByName (α : Type) where
  entries : List (String × α)
  deriving DecidableEq, Repr

namespace ByName

variable {α : Type}

def empty : ByName α := ⟨[]⟩

instance : EmptyCollection (ByName α) := ⟨empty⟩

instance : Inhabited (ByName α) := ⟨empty⟩

def insertEntry (name : String) (a : α) : List (String × α) → List (String × α)
  | [] => [(name, a)]
  | (n, b) :: rest =>
    if name < n then (name, a) :: (n, b) :: rest
    else if name = n then (name, a) :: rest
    else (n, b) :: insertEntry name a rest

def insert (m : ByName α) (name : String) (a : α) : ByName α :=
  ⟨insertEntry name a m.entries⟩

def get? (m : ByName α) (name : String) : Option α := m.entries.lookup name

def contains (m : ByName α) (name : String) : Bool := (m.get? name).isSome

def insertNew (m : ByName α) (name : String) (a : α) : ByName α :=
  if m.contains name then m else m.insert name a

def erase (m : ByName α) (name : String) : ByName α :=
  ⟨m.entries.filter (·.1 != name)⟩

def names (m : ByName α) : List String := m.entries.map Prod.fst

def size (m : ByName α) : Nat := m.entries.length

/-- Of several entries with one name the last one counts. -/
def ofList (entries : List (String × α)) : ByName α :=
  entries.foldl (fun m e => m.insert e.1 e.2) empty

end ByName

end BlockCode
