import BlockCode.Proofs.ByName
import BlockCode.Proofs.Phrases
import BlockCode.Proofs.Runs

namespace BlockCode

open Grammar

def Grammar.Expr.ofNumbers (op : BinaryOp) (a b : Option Expr) : Expr :=
  .binary op (a.getD (.number .zero)) (b.getD (.number .zero))

/-- A connective between two operands; one that is missing changes nothing, and two are false. -/
def Grammar.Expr.ofTruths (op : BinaryOp) (identity : Constant) : Option Expr → Option Expr → Expr
  | none, none => .binary op (.constant .false) (.constant .false)
  | a, b => .binary op (a.getD (.constant identity)) (b.getD (.constant identity))

def Grammar.BinaryOp.ofComparison : Option String → BinaryOp
  | some "NEQ" => .unequal
  | some "LT" => .less
  | some "LTE" => .lessEqual
  | some "GT" => .greater
  | some "GTE" => .greaterEqual
  | _ => .equal

def Grammar.BinaryOp.ofArithmetic : Option String → BinaryOp
  | some "MINUS" => .minus
  | some "MULTIPLY" => .times
  | some "DIVIDE" => .divide
  | _ => .plus

namespace Head

def expr (h : Head) (identifier : String → String) (operand : String → Option Expr) : Expr :=
  match h.type with
  | "math_number" => ((h.fieldNumber? "NUM").getD .zero).expr
  | "math_arithmetic" =>
    if h.fieldText? "OP" = some "POWER" then
      .power ((operand "A").getD (.number .zero)) ((operand "B").getD (.number .zero))
    else .ofNumbers (.ofArithmetic (h.fieldText? "OP")) (operand "A") (operand "B")
  | "math_modulo" => .ofNumbers .remainder (operand "DIVIDEND") (operand "DIVISOR")
  | "logic_boolean" =>
    .constant (if h.fieldText? "BOOL" ∈ [some "TRUE", some "true"] then .true else .false)
  | "logic_negate" => .unary .not ((operand "BOOL").getD (.constant .true))
  | "logic_compare" => .ofNumbers (.ofComparison (h.fieldText? "OP")) (operand "A") (operand "B")
  | "logic_operation" =>
    if h.fieldText? "OP" = some "OR" then .ofTruths .or .false (operand "A") (operand "B")
    else .ofTruths .and .true (operand "A") (operand "B")
  | "logic_ternary" =>
    .choice ((operand "IF").getD (.constant .false)) ((operand "THEN").getD (.constant .none))
      ((operand "ELSE").getD (.constant .none))
  | "text" => .literal ((h.fieldText? "TEXT").getD "")
  | "variables_get" => .name (identifier ((h.fieldText? "VAR").getD ""))
  | _ => .constant .none

def expressionTypes : List String :=
  ["math_number", "math_arithmetic", "math_modulo", "logic_boolean", "logic_null", "logic_negate",
    "logic_compare", "logic_operation", "logic_ternary", "text", "variables_get"]

/-- A block of a type for expressions. The numbers in its fields are numbers of 64 bits. -/
def isExpression (h : Head) : Bool :=
  expressionTypes.contains h.type && h.fields.entries.all fun f => f.2.isBinary64

end Head

namespace Tree

def isDisabled : Tree → Bool
  | .block head _ _ _ => head.disabled
  | _ => false

mutual

def isExpression : Tree → Bool
  | .block head values _ _ => head.isExpression && areExpressions values
  | _ => false

def areExpressions : List (String × Option Tree) → Bool
  | [] => true
  | (_, none) :: rest => areExpressions rest
  | (_, some t) :: rest => (t.isDisabled || t.isExpression) && areExpressions rest

end

mutual

def expr (identifier : String → String) : Tree → Expr
  | .block head values _ _ =>
    head.expr identifier fun input => ((operandExprs identifier values).lookup input).join
  | _ => .constant .none

def operandExprs (identifier : String → String) :
    List (String × Option Tree) → List (String × Option Expr)
  | [] => []
  | (name, none) :: rest => (name, none) :: operandExprs identifier rest
  | (name, some t) :: rest =>
    (name, if t.isDisabled then none else some (t.expr identifier)) ::
      operandExprs identifier rest

end

end Tree

def Names.Spells (t : Names) (identifier : String → String) : Prop :=
  ∀ key name, t.find? key .variable = some name → identifier key = name

theorem Names.Spells.of_reaches {t t' : Names} (hs : t.Sound) (h : t.Reaches t')
    {identifier : String → String} (hi : t'.Spells identifier) : t.Spells identifier :=
  fun key name hfind => hi key name (h.find? hs hfind)

theorem Names.exists_spells (t : Names) : ∃ identifier, t.Spells identifier :=
  ⟨fun key => (t.find? key .variable).getD "", fun key name h => by simp [h]⟩

namespace Render

variable {α β : Type}

/--
The action succeeds whatever the state of the pass, and what it gives is related to the identifiers
of the variables.
-/
def Gives (act : Render α) (related : (String → String) → α → Prop) : Prop :=
  ∀ p : Pass, p.names.Guards rustWords → ∃ a p', act.run p = (.ok a, p') ∧
    p.names.Reaches p'.names ∧ ∀ identifier, p'.names.Spells identifier → related identifier a

theorem Gives.pure {a : α} {related : (String → String) → α → Prop}
    (h : ∀ identifier, related identifier a) : Gives (pure a) related :=
  fun p _ => ⟨a, p, rfl, .refl _, fun identifier _ => h identifier⟩

theorem Gives.bind_of {x : Render α} {f : α → Render β} {related : (String → String) → α → Prop}
    {related' : (String → String) → β → Prop} (hx : Gives x related)
    (hf : ∀ a, (∃ identifier, related identifier a) →
      Gives (f a) fun identifier b => related identifier a → related' identifier b) :
    Gives (x >>= f) related' := by
  intro p hp
  obtain ⟨a, p', hrun, hreach, ha⟩ := hx p hp
  obtain ⟨identifier, hi⟩ := p'.names.exists_spells
  obtain ⟨b, p'', hrun', hreach', hb⟩ := hf a ⟨identifier, ha identifier hi⟩ p' (hp.reaches hreach)
  -- Identifiers of the last table are those of the one in between, where the keys were known.
  refine ⟨b, p'', (run_bind_ok hrun f).trans hrun', hreach.trans hreach', fun identifier hi => ?_⟩
  exact hb identifier hi (ha identifier (hi.of_reaches (hp.reaches hreach).sound hreach'))

theorem Gives.bind {x : Render α} {f : α → Render β} {related : (String → String) → α → Prop}
    {related' : (String → String) → β → Prop} (hx : Gives x related)
    (hf : ∀ a, Gives (f a) fun identifier b => related identifier a → related' identifier b) :
    Gives (x >>= f) related' :=
  hx.bind_of fun a _ => hf a

theorem gives_report (e : Event) : Gives (report e) fun _ _ => True :=
  fun p _ => ⟨(), _, run_report e p, .refl _, fun _ _ => trivial⟩

theorem gives_nameFor (key : String) : Gives (nameFor key .variable) fun identifier name =>
    identifier key = name ∧ IsIdentifier name ∧ name ∉ rustWords := by
  intro p hp
  obtain ⟨events, hrun⟩ := run_nameFor key .variable p
  have hreach := p.names.reaches_call (c := .resolve key .variable) (by simp)
  have hheld := Names.held_of_call hp.sound (c := .resolve key .variable) rfl
  have hp' := hp.reaches hreach
  refine ⟨_, _, hrun, hreach, fun identifier hi =>
    ⟨hi key _ ((hheld.2 .variable key).2 rfl), ?_, ?_⟩⟩
  · exact hp'.sound.used_identifier _ hheld.1
  · exact fun hmem => hp'.sound.used_unreserved _ hheld.1 (hp'.reserved _ hmem)

end Render

open Render

namespace Site

def Operands (s : Site) (operand : (String → String) → String → Option Expr) : Prop :=
  ∀ input least, Gives (s.value? input least) fun identifier code? =>
    Option.Rel (Phrase (Level.tier least)) code? (operand identifier input)

variable {s : Site} {operand : (String → String) → String → Option Expr}

theorem Operands.valueOr (h : s.Operands operand) (input : String) (least : Level)
    {default : String} {e : Expr} (he : Phrase 7 default e) :
    Gives (s.valueOr input least default) fun identifier code =>
      Phrase (Level.tier least) code ((operand identifier input).getD e) := by
  refine (h input least).bind fun code? => .pure fun identifier hrel => ?_
  generalize operand identifier input = e? at hrel
  cases hrel with
  | none => exact he.loosen_to (Level.tier_le_seven least)
  | some hphrase => exact hphrase

end Site

inductive Stands : Option Operand → ((String → String) → Option Expr) → Prop
  | missing : Stands none fun _ => none
  | disabled {o : Operand} : o.disabled = true → Stands (some o) fun _ => none
  | enabled {o : Operand} {e : (String → String) → Expr} : o.disabled = false →
      (Gives o.text fun identifier text => ∃ f, text = .expression f ∧ f.Denotes (e identifier)) →
      Stands (some o) fun identifier => some (e identifier)

theorem Stands.value? {s : Site} {input : String} {e? : (String → String) → Option Expr}
    (h : Stands (s.values.lookup input).join e?) (least : Level) :
    Gives (s.value? input least) fun identifier code? =>
      Option.Rel (Phrase (Level.tier least)) code? (e? identifier) := by
  unfold Site.value?
  generalize (s.values.lookup input).join = o? at h
  cases h with
  | missing => exact .pure fun _ => .none
  | disabled hd =>
    simp only [hd, if_true]
    exact .pure fun _ => .none
  | enabled hd htext =>
    simp only [hd, Bool.false_eq_true, if_false]
    refine htext.bind_of ?_
    rintro _ ⟨_, f, rfl, -⟩
    refine .pure fun identifier ⟨f', heq, hf⟩ => ?_
    cases heq
    simp only [hf.2.ne_empty, Bool.false_eq_true, if_false]
    exact .some (hf.splice least)

def Expresses (act : Render Emission) (e : (String → String) → Expr) : Prop :=
  Gives act fun identifier emission => ∃ f, emission = .expression f ∧ f.Denotes (e identifier)

namespace Rules

variable {s : Site} {operand : (String → String) → String → Option Expr}

theorem expresses_pure {f : Fragment} {e : (String → String) → Expr}
    (h : ∀ identifier, f.Denotes (e identifier)) : Expresses (pure (.expression f)) e :=
  .pure fun identifier => ⟨f, rfl, h identifier⟩

theorem boolean_expresses : Expresses (boolean s) fun _ =>
    .constant (if s.fieldText? "BOOL" ∈ [some "TRUE", some "true"] then .true else .false) := by
  refine expresses_pure fun _ => ?_
  by_cases h : s.fieldText? "BOOL" ∈ [some "TRUE", some "true"]
  · have htrue :
        (s.fieldText? "BOOL" == some "TRUE" || s.fieldText? "BOOL" == some "true") = true := by
      simpa using h
    simp only [h, htrue, if_true]
    exact Fragment.denotes_constant .true
  · have hfalse :
        (s.fieldText? "BOOL" == some "TRUE" || s.fieldText? "BOOL" == some "true") = false := by
      simpa using h
    simp only [h, hfalse, if_false, Bool.false_eq_true]
    exact Fragment.denotes_constant .false

theorem negation_expresses (h : s.Operands operand) : Expresses (negation s) fun identifier =>
    .unary .not ((operand identifier "BOOL").getD (.constant .true)) :=
  (h.valueOr "BOOL" .unary (.constant .true)).bind fun _ => .pure fun _ ha =>
    ⟨_, rfl, Fragment.denotes_unary .not ha⟩

theorem comparisonSign_eq (text : Option String) :
    comparisonSign text = (BinaryOp.ofComparison text).sign := by
  fun_cases comparisonSign text <;> simp_all [BinaryOp.ofComparison, BinaryOp.sign]

theorem ofComparison_level (text : Option String) :
    (BinaryOp.ofComparison text).level = .comparison := by
  fun_cases BinaryOp.ofComparison text <;> rfl

theorem comparison_expresses (h : s.Operands operand) : Expresses (comparison s) fun identifier =>
    .ofNumbers (.ofComparison (s.fieldText? "OP")) (operand identifier "A")
      (operand identifier "B") := by
  refine (h.valueOr "A" Level.comparison.tighter .zero).bind fun a =>
    (h.valueOr "B" Level.comparison.tighter .zero).bind fun b => .pure fun identifier hb ha => ?_
  have hlevel := ofComparison_level (s.fieldText? "OP")
  rw [comparisonSign_eq]
  generalize BinaryOp.ofComparison (s.fieldText? "OP") = op at hlevel ⊢
  refine ⟨_, rfl, hlevel ▸ Fragment.denotes_binary op ?_ ?_⟩
  · rw [op.leftTier_eq, if_pos hlevel, hlevel]
    exact ha
  · rw [← op.tier_tighter, hlevel]
    exact hb

theorem leftOperator_expresses (h : s.Operands operand) (left right : String) (op : BinaryOp)
    (hop : op.level ≠ .comparison) :
    Expresses (leftOperator left right op.sign op.level s) fun identifier =>
      .ofNumbers op (operand identifier left) (operand identifier right) := by
  refine (h.valueOr left op.level .zero).bind fun a =>
    (h.valueOr right op.level.tighter .zero).bind fun b => .pure fun identifier hb ha =>
      ⟨_, rfl, Fragment.denotes_binary op ?_ ?_⟩
  · rw [op.leftTier_eq, if_neg hop]
    exact ha
  · exact op.tier_tighter ▸ hb

theorem connective_expresses (h : s.Operands operand) (op : BinaryOp) (identity : Constant)
    (hop : op.level ≠ .comparison) :
    Expresses (connective op.sign identity.word op.level s) fun identifier =>
      .ofTruths op identity (operand identifier "A") (operand identifier "B") := by
  refine (h "A" op.level).bind fun a? => (h "B" op.level.tighter).bind fun b? =>
    .pure fun identifier hb ha => ⟨_, rfl, ?_⟩
  beta_reduce
  generalize operand identifier "A" = x at ha
  generalize operand identifier "B" = y at hb
  have hleft : op.leftTier = Level.tier op.level := by rw [op.leftTier_eq, if_neg hop]
  have hconstant : ∀ (c : Constant) (l : Level), Phrase (Level.tier l) c.word (.constant c) :=
    fun c l => (Phrase.constant c).loosen_to (Level.tier_le_seven l)
  rw [← hleft] at ha
  rw [op.tier_tighter] at hb
  cases ha with
  | none =>
    cases hb with
    | none =>
      exact Fragment.denotes_binary op (hleft ▸ hconstant .false _)
        (op.tier_tighter ▸ hconstant .false _)
    | some hb => exact Fragment.denotes_binary op (hleft ▸ hconstant identity _) hb
  | some ha =>
    cases hb with
    | none => exact Fragment.denotes_binary op ha (op.tier_tighter ▸ hconstant identity _)
    | some hb => exact Fragment.denotes_binary op ha hb

theorem logicOperation_expresses (h : s.Operands operand) :
    Expresses (logicOperation s) fun identifier =>
      if s.fieldText? "OP" = some "OR" then
        .ofTruths .or .false (operand identifier "A") (operand identifier "B")
      else .ofTruths .and .true (operand identifier "A") (operand identifier "B") := by
  simp only [logicOperation, beq_iff_eq]
  split
  · exact connective_expresses h .or .false (by decide)
  · exact connective_expresses h .and .true (by decide)

theorem power_expresses (h : s.Operands operand) : Expresses (power s) fun identifier =>
    .power ((operand identifier "A").getD (.number .zero))
      ((operand identifier "B").getD (.number .zero)) :=
  (h.valueOr "A" .loosest .zero).bind fun _ => (h.valueOr "B" .loosest .zero).bind fun _ =>
    .pure fun _ hb ha => ⟨_, rfl, Fragment.denotes_power ha hb⟩

theorem arithmetic_eq (s : Site) : arithmetic s =
    if s.fieldText? "OP" = some "POWER" then power s
    else
      let op := BinaryOp.ofArithmetic (s.fieldText? "OP")
      leftOperator "A" "B" op.sign op.level s := by
  fun_cases arithmetic s <;> simp_all [BinaryOp.ofArithmetic, BinaryOp.sign, BinaryOp.level]

theorem ofArithmetic_level (text : Option String) :
    (BinaryOp.ofArithmetic text).level ≠ .comparison := by
  fun_cases BinaryOp.ofArithmetic text <;> decide

theorem arithmetic_expresses (h : s.Operands operand) : Expresses (arithmetic s) fun identifier =>
    if s.fieldText? "OP" = some "POWER" then
      .power ((operand identifier "A").getD (.number .zero))
        ((operand identifier "B").getD (.number .zero))
    else .ofNumbers (.ofArithmetic (s.fieldText? "OP")) (operand identifier "A")
      (operand identifier "B") := by
  rw [arithmetic_eq]
  split
  · exact power_expresses h
  · exact leftOperator_expresses h "A" "B" _ (ofArithmetic_level _)

theorem choice_expresses (h : s.Operands operand) : Expresses (choice s) fun identifier =>
    .choice ((operand identifier "IF").getD (.constant .false))
      ((operand identifier "THEN").getD (.constant .none))
      ((operand identifier "ELSE").getD (.constant .none)) :=
  (h.valueOr "IF" .loosest (.constant .false)).bind fun _ =>
    (h.valueOr "THEN" .loosest (.constant .none)).bind fun _ =>
      (h.valueOr "ELSE" .loosest (.constant .none)).bind fun _ =>
        .pure fun _ hb ha hc => ⟨_, rfl, Fragment.denotes_choice hc ha hb⟩

theorem number_expresses (h : s.head.isExpression = true) :
    Expresses (number s) fun _ => ((s.fieldNumber? "NUM").getD .zero).expr := by
  refine expresses_pure fun _ => denotes_numberFragment ?_
  cases hnumber : s.fieldNumber? "NUM" with
  | none => exact Number.isBinary64_zero false
  | some x =>
    obtain ⟨f, hfield, hx⟩ := Option.bind_eq_some_iff.1 hnumber
    obtain ⟨before, after, hentries, -⟩ := List.lookup_eq_some_iff.1 hfield
    have hf : f.isBinary64 = true := by
      simp only [Head.isExpression, Bool.and_eq_true, List.all_eq_true] at h
      exact h.2 ("NUM", f) (by simp [hentries])
    exact Field.isBinary64_toNumber hf hx

theorem text_expresses : Expresses (text s) fun _ => .literal ((s.fieldText? "TEXT").getD "") :=
  expresses_pure fun _ => ⟨rfl, _, spelled_literal _, .literal⟩

theorem variableValue_expresses : Expresses (variableValue s) fun identifier =>
    .name (identifier ((s.fieldText? "VAR").getD "")) := by
  refine (gives_nameFor _).bind fun name => .pure fun identifier ⟨heq, hname, hfree⟩ => ?_
  beta_reduce
  rw [heq]
  exact ⟨_, rfl, rfl, Phrase.name hname hfree⟩

end Rules

theorem Tree.disabled_operand {c : Setup} (t : Tree) : (t.operand c).disabled = t.isDisabled := by
  cases t <;> rfl

theorem Setup.gives_emit {c : Setup} (hc : c.book = .builtin) {s : Site} {rule : Rule}
    {e : (String → String) → Expr}
    (hrule : Rulebook.builtinRules.lookup s.head.type = some rule) (h : Expresses (rule s) e) :
    Gives (c.emit s) fun identifier text =>
      ∃ f, text = .expression f ∧ f.Denotes (e identifier) := by
  have hbook : c.book.rule? s.head.type = some rule := by
    rw [hc, Rulebook.builtin_rule?, hrule]
  simp only [Setup.emit, hbook]
  refine (gives_report _).bind fun _ => h.bind_of ?_
  rintro _ ⟨_, f, rfl, -⟩
  refine .pure fun identifier ⟨f', heq, hf⟩ _ => ?_
  cases heq
  exact ⟨f, rfl, hf⟩

theorem Setup.emit_expression {c : Setup} (hc : c.book = .builtin) {s : Site}
    {operand : (String → String) → String → Option Expr} (hs : s.head.isExpression = true)
    (h : s.Operands operand) :
    Gives (c.emit s) fun identifier text => ∃ f, text = .expression f ∧
      f.Denotes (s.head.expr identifier (operand identifier)) := by
  have htype : s.head.type ∈ Head.expressionTypes := by
    simp only [Head.isExpression, Bool.and_eq_true, List.contains_iff_mem] at hs
    exact hs.1
  obtain ⟨⟨id, type, fields, disabled⟩, options, values, statements⟩ := s
  simp only [Head.expressionTypes, List.mem_cons, List.not_mem_nil, or_false] at htype
  rcases htype with rfl | rfl | rfl | rfl | rfl | rfl | rfl | rfl | rfl | rfl | rfl
  · exact Setup.gives_emit hc rfl (Rules.number_expresses hs)
  · exact Setup.gives_emit hc rfl (Rules.arithmetic_expresses h)
  · exact Setup.gives_emit hc rfl
      (Rules.leftOperator_expresses h "DIVIDEND" "DIVISOR" .remainder (by decide))
  · exact Setup.gives_emit hc rfl Rules.boolean_expresses
  · exact Setup.gives_emit hc rfl (Rules.expresses_pure fun _ => Fragment.denotes_constant .none)
  · exact Setup.gives_emit hc rfl (Rules.negation_expresses h)
  · exact Setup.gives_emit hc rfl (Rules.comparison_expresses h)
  · exact Setup.gives_emit hc rfl (Rules.logicOperation_expresses h)
  · exact Setup.gives_emit hc rfl (Rules.choice_expresses h)
  · exact Setup.gives_emit hc rfl Rules.text_expresses
  · exact Setup.gives_emit hc rfl Rules.variableValue_expresses

mutual

theorem Tree.gives_operand {c : Setup} (hc : c.book = .builtin) :
    ∀ t : Tree, t.isExpression = true →
    Gives (t.operand c).text fun identifier text => ∃ f, text = .expression f ∧
      f.Denotes (t.expr identifier)
  | .missing, h | .endless, h => by simp [Tree.isExpression] at h
  | .block head values statements next, h => by
    simp only [Tree.isExpression, Bool.and_eq_true] at h
    simp only [Tree.operand, Tree.expr]
    exact Setup.emit_expression hc h.1 fun input least =>
      (Tree.stands_operands hc values h.2 input).value? least

theorem Tree.stands_operands {c : Setup} (hc : c.book = .builtin) :
    ∀ vs : List (String × Option Tree), Tree.areExpressions vs = true → ∀ input,
    Stands ((Tree.operands c vs).lookup input).join fun identifier =>
      ((Tree.operandExprs identifier vs).lookup input).join
  | [], _, input => .missing
  | (name, none) :: rest, h, input => by
    simp only [Tree.operands, Tree.operandExprs, ByName.lookup_cons_eq]
    split
    · exact .missing
    · exact Tree.stands_operands hc rest h input
  | (name, some t) :: rest, h, input => by
    simp only [Tree.areExpressions, Bool.and_eq_true, Bool.or_eq_true] at h
    simp only [Tree.operands, Tree.operandExprs, ByName.lookup_cons_eq]
    split
    · cases hd : t.isDisabled with
      | true => exact .disabled (t.disabled_operand.trans hd)
      | false =>
        have ht := h.1.resolve_left (by simp [hd])
        exact .enabled (t.disabled_operand.trans hd) (t.gives_operand hc ht)
    · exact Tree.stands_operands hc rest h.2 input

end

theorem Tree.run_text_eq {c : Setup} {t : Tree} (h : t.isExpression = true) (p : Pass) :
    (t.text c).run p = (t.operand c).text.run p := by
  cases t with
  | missing => simp [Tree.isExpression] at h
  | endless => simp [Tree.isExpression] at h
  | block head values statements next =>
    simp only [Tree.operand]
    rfl

/--
The code of a block for an expression is read as the tree of the block and as nothing else, in every
state that a pass can be in, and its level is that of the outermost part of the expression.
Variables appear under the identifiers that the pass has for them in the end.
-/
theorem Tree.reads_text_iff {c : Setup} (hbook : c.book = .builtin) {words : List String}
    (hdialect : c.dialect = Dialect.rust.reserve words) {t : Tree} (ht : t.isExpression = true)
    {p : Pass} {calls : List Names.Call}
    (hp : p.names = ({ reserved := c.dialect.reserved } : Names).after calls) :
    ∃ f p', (t.text c).run p = (.ok (.expression f), p') ∧
      let e := t.expr fun key => (p'.names.find? key .variable).getD ""
      f.level = e.level ∧ ∀ e', Reads f.code e' ↔ e' = e := by
  have hguards : p.names.Guards rustWords := by
    rw [hp, hdialect]
    exact ⟨(Names.Sound.start _).after calls, fun word hword => by
      simp [Dialect.reserve, Dialect.rust, hword]⟩
  obtain ⟨_, p', hrun, -, hgives⟩ := t.gives_operand hbook ht p hguards
  obtain ⟨f, rfl, hlevel, hphrase⟩ := hgives (fun key => (p'.names.find? key .variable).getD "")
    fun key name hfind => by simp [hfind]
  exact ⟨f, p', (Tree.run_text_eq ht p).trans hrun, hlevel, hphrase.reads_iff⟩

theorem Tree.reads_text_product :
    let value : Tree :=
      .block { id := "1", type := "variables_get", fields := ⟨[("VAR", .variable "v")]⟩ } [] [] none
    let off : Tree := .block { id := "2", type := "controls_if", disabled := true } [] [] none
    let sum : Tree := .block { id := "3", type := "math_arithmetic" }
      [("A", some value), ("B", some off)] [] none
    let choice : Tree := .block { id := "4", type := "logic_ternary" } [("THEN", some sum)] [] none
    let product : Tree := .block
      { id := "5", type := "math_arithmetic", fields := ⟨[("OP", .text "MULTIPLY")]⟩ }
      [("A", some sum), ("B", some choice)] [] none
    let c : Setup := { dialect := Dialect.rust.reserve ["loop2"] }
    let names := ({ reserved := c.dialect.reserved } : Names).after [.setHint "v" "loop"]
    product.isExpression = true ∧
      ∃ f p', (product.text c).run { names } = (.ok (.expression f), p') ∧
      let e := product.expr fun key => (p'.names.find? key .variable).getD ""
      f.level = e.level ∧ ∀ e', Reads f.code e' ↔ e' = e := by
  intro value off sum choice product c names
  have hproduct : product.isExpression = true := by decide
  exact ⟨hproduct, Tree.reads_text_iff (c := c) rfl rfl hproduct rfl⟩

end BlockCode
