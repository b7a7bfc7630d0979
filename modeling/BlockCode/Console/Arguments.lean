import BlockCode.Options

/-!
The arguments of the command line. An argument that takes part of a command is entered when the next
one arrives or the arguments end, and what is wrong with it is found then; an argument that is not
known at all is refused at once.
-/

namespace BlockCode

structure Command where
  input : String
  output : Option String := none
  check : Bool := false
  options : Options := {}

inductive UsageFault where
  | displayHelp
  | unknownArgument
  | invalidValue
  | argumentConflict
  | tooManyValues
  | missingRequiredArgument
  deriving DecidableEq, Repr

def UsageFault.exitCode : UsageFault → Nat
  | .displayHelp => 0
  | _ => 2

inductive ValueOption where
  | before
  | after
  | trap
  | developer

inductive NamedOption where
  | value (option : ValueOption)
  | check
  | help

def NamedOption.ofName? : String → Option NamedOption
  | "statement-prefix" => some (.value .before)
  | "statement-suffix" => some (.value .after)
  | "loop-trap" => some (.value .trap)
  | "developer-var" => some (.value .developer)
  | "check" => some .check
  | "help" => some .help
  | _ => none

inductive Waiting where
  | option (option : ValueOption) (value : Option String)
  | positional (value : String)

structure Arguments where
  positionals : List String := []
  check : Bool := false
  options : Options := {}
  waiting : Option Waiting := none
  onlyPositionals : Bool := false

namespace Arguments

def once (old : Option String) (value : String) : Except UsageFault (Option String) :=
  if old.isSome then .error .argumentConflict else .ok (some value)

def setOption (o : Options) (value : String) : ValueOption → Except UsageFault Options
  | .before => return { o with before := ← once o.before value }
  | .after => return { o with after := ← once o.after value }
  | .trap => return { o with trap := ← once o.trap value }
  | .developer => return { o with developer := o.developer ++ [value] }

def settle (a : Arguments) : Except UsageFault Arguments := do
  match a.waiting with
  | none => return a
  | some (.positional value) =>
    if value.isEmpty then throw .invalidValue
    return { a with positionals := a.positionals ++ [value], waiting := none }
  | some (.option _ none) => throw .invalidValue
  | some (.option option (some value)) =>
    return { a with options := ← setOption a.options value option, waiting := none }

def positionalCount (a : Arguments) : Nat :=
  a.positionals.length + match a.waiting with
    | some (.positional _) => 1
    | _ => 0

def positional (a : Arguments) (value : String) : Except UsageFault Arguments :=
  if a.positionalCount < 2 then return { ← a.settle with waiting := some (.positional value) }
  else throw .unknownArgument

def named (a : Arguments) (option : NamedOption) (value? : Option String) :
    Except UsageFault Arguments :=
  match option, value? with
  | .value option, some value => do
    let a ← a.settle
    return { a with options := ← setOption a.options value option }
  | .value option, none => return { ← a.settle with waiting := some (.option option none) }
  | _, some _ => throw .tooManyValues
  | .help, none => do
    let _ ← a.settle
    throw .displayHelp
  | .check, none => do
    let a ← a.settle
    if a.check then throw .argumentConflict
    return { a with check := true }

def long (a : Arguments) (cs : List Char) : Except UsageFault Arguments :=
  let value? := match cs.dropWhile (· != '=') with
    | _ :: value => some (String.ofList value)
    | [] => none
  match NamedOption.ofName? (String.ofList (cs.takeWhile (· != '='))) with
  | some option => a.named option value?
  | none => throw .unknownArgument

def plain (a : Arguments) (value : String) : Except UsageFault Arguments :=
  match a.waiting with
  | some (.option option none) => return { a with waiting := some (.option option (some value)) }
  | _ => a.positional value

def step (a : Arguments) (arg : String) : Except UsageFault Arguments :=
  if a.onlyPositionals then a.positional arg
  else match arg.toList with
    | ['-', '-'] => return { a with onlyPositionals := true }
    | '-' :: '-' :: cs => a.long cs
    | ['-'] => a.plain arg
    | '-' :: 'h' :: _ => a.named .help none
    | '-' :: _ => throw .unknownArgument
    | _ => a.plain arg

def finish (a : Arguments) : Except UsageFault Command := do
  let a ← a.settle
  match a.positionals with
  | [] => throw .missingRequiredArgument
  | input :: rest =>
    return { input, output := rest.head?, check := a.check, options := a.options }

end Arguments

def Command.parse (args : List String) : Except UsageFault Command := do
  (← args.foldlM Arguments.step {}).finish

end BlockCode
