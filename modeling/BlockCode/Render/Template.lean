import BlockCode.Render.Site

namespace BlockCode

inductive Query where
  | value (input : String) (least : Level)
  | valueOr (input : String) (least : Level) (default : String)
  | required (input : String) (least : Level)
  | statements (input : String)
  | branch (input : String)
  | loopBranch (input : String)
  | trapped (body : String)
  | before
  | after
  | inLoop
  | fieldText (name : String)
  | fieldNumber (name : String)
  | variableName (field : String)
  | nameFor (key : String) (category : Category)
  | distinctName (hint : String) (category : Category)
  | define (key code : String)
  | isDefined (key : String)
  | definitions
  | nameCount
  | isReserved (word : String)

inductive Answer where
  | text (s : String)
  | absent
  | flag (b : Bool)
  | count (n : Nat)
  | table (entries : List (String × String))
  deriving DecidableEq, Repr

namespace Answer

def ofText? : Option String → Answer
  | some s => .text s
  | none => .absent

def code : Answer → String
  | .text s => s
  | .absent => "<none>"
  | .flag b => if b then "true" else "false"
  | .count n => toString n
  | .table _ => ""

end Answer

def Query.run (s : Site) : Query → Render Answer
  | .value input least => .ofText? <$> s.value? input least
  | .valueOr input least default => .text <$> s.valueOr input least default
  | .required input least => .text <$> s.value input least
  | .statements input => .text <$> s.statementsOf input
  | .branch input => .text <$> s.branch input
  | .loopBranch input => .text <$> s.loopBranch input
  | .trapped body => return .text (s.trapped body)
  | .before => return .ofText? s.before?
  | .after => return .ofText? s.after?
  | .inLoop => .flag <$> Render.inLoop
  | .fieldText name => return .ofText? (s.fieldText? name)
  | .fieldNumber name => return .ofText? ((s.fieldNumber? name).map Number.display)
  | .variableName field => .text <$> s.variableName field
  | .nameFor key category => .text <$> Render.nameFor key category
  | .distinctName hint category => .text <$> Render.distinctName hint category
  | .define key code => do
    Render.define key code
    return .text ""
  | .isDefined key => .flag <$> Render.isDefined key
  | .definitions => return .table (← get).definitions
  | .nameCount => return .count (← get).names.count
  | .isReserved word => return .flag ((← get).names.isReserved word)

inductive TemplatePart where
  | literal (s : String)
  | query (q : Query)

abbrev Template := List TemplatePart

namespace Template

def code (s : Site) : Template → Render String
  | [] => return ""
  | .literal text :: rest => return text ++ (← code s rest)
  | .query q :: rest => do
    let answer ← q.run s
    return answer.code ++ (← code s rest)

inductive Kind where
  | statement
  | instrumented
  | expression (level : Level)

def rule (t : Template) (kind : Kind) : Rule := fun s => do
  let code ← t.code s
  match kind with
  | .statement => return .statement code
  | .instrumented => return .instrumented code
  | .expression level => return .expression ⟨code, level⟩

def blankSite (options : Options) : Site := { head := { id := "", type := "" }, options }

def opening (t : Template) (options : Options) : Render Unit := do
  let _ ← t.code (blankSite options)

end Template

end BlockCode
