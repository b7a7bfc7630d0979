import BlockCode.Proofs.Lexing

namespace BlockCode

open Grammar

def Level.operators : List Level :=
  [.assignment, .disjunction, .conjunction, .comparison, .additive, .multiplicative, .unary]

def Level.tier (l : Level) : Nat := Level.operators.countP (· < l)

theorem Level.tier_mono {l m : Level} (h : l ≤ m) : tier l ≤ tier m :=
  List.countP_mono_left fun _ _ hk => by simpa using Nat.lt_of_lt_of_le (by simpa using hk) h

theorem Level.tier_le_seven (l : Level) : tier l ≤ 7 := List.countP_le_length

namespace Grammar

def BinaryOp.level : BinaryOp → Level
  | .or => .disjunction
  | .and => .conjunction
  | .equal | .unequal | .less | .lessEqual | .greater | .greaterEqual => .comparison
  | .plus | .minus => .additive
  | .times | .divide | .remainder => .multiplicative

def Expr.level : Expr → Level
  | .number _ | .literal _ | .name _ | .constant _ => .atomic
  | .power _ _ => .call
  | .unary _ _ => .unary
  | .binary op _ _ => op.level
  | .choice _ _ _ => .assignment

@[simp] theorem BinaryOp.tier_level (op : BinaryOp) : Level.tier op.level = op.tier := by
  cases op <;> rfl

theorem BinaryOp.tier_tighter (op : BinaryOp) : Level.tier op.level.tighter = op.tier + 1 := by
  cases op <;> rfl

theorem BinaryOp.leftTier_eq (op : BinaryOp) :
    op.leftTier = Level.tier (if op.level = .comparison then op.level.tighter else op.level) := by
  cases op <;> rfl

def Phrase (tier : Nat) (code : String) (e : Expr) : Prop :=
  ∃ ts, Spelled code ts ∧ Derives tier ts e

namespace Phrase

variable {k : Nat} {code : String} {e : Expr}

theorem loosen_to {j : Nat} (h : Phrase k code e) (hjk : j ≤ k) : Phrase j code e := by
  obtain ⟨ts, hs, hd⟩ := h
  exact ⟨ts, hs, hd.loosen_to hjk⟩

theorem ne_empty (h : Phrase k code e) : code.isEmpty = false := by
  obtain ⟨ts, hs, hd⟩ := h
  obtain ⟨t, ts, rfl⟩ := List.exists_cons_of_ne_nil hd.ne_nil
  exact hs.ne_empty

theorem reads_iff (h : Phrase k code e) (e' : Expr) : Reads code e' ↔ e' = e := by
  obtain ⟨ts, hs, hd⟩ := h
  exact ⟨fun h' => h'.unique (hs.reads hd), fun he => he ▸ hs.reads hd⟩

theorem group (h : Phrase k code e) : Phrase 7 ("(" ++ code ++ ")") e := by
  obtain ⟨ts, hs, hd⟩ := h
  exact ⟨_, hs.group, .group (hd.loosen_to (Nat.zero_le k))⟩

theorem constant (c : Constant) : Phrase 7 c.word (.constant c) := by
  refine ⟨[.word c.word], ?_, .constant⟩
  cases c <;> exact spelled_word rfl (List.all_eq_true.1 (by decide)) (by decide)

theorem name {s : String} (h : IsIdentifier s) (hs : s ∉ rustWords) : Phrase 7 s (.name s) := by
  obtain ⟨c, hhead, hdigit⟩ := h.start
  obtain ⟨cs, hcs⟩ := List.head?_eq_some_iff.1 hhead
  have hchars : ∀ d ∈ c :: cs, isWordChar d = true := fun d hd => by
    simp [isWordChar, h.chars d (hcs ▸ hd)]
  exact ⟨_, spelled_word hcs hchars hdigit, .name h hs⟩

theorem number {units : Nat} (h : Number.isBinary64 (.finite false units) = true) :
    Phrase 7 (Number.code (.finite false units)) (.number (.finite false units)) := by
  obtain ⟨whole, fraction, htext, hne, hw, hf, -⟩ := Number.code_spec h
  exact ⟨_, spelled_numeral htext hne hw hf, .number (Number.read_code h)⟩

theorem zero : Phrase 7 "0" (.number .zero) :=
  Number.code_zero false ▸ number (Number.isBinary64_zero false)

end Phrase

end Grammar

namespace Fragment

/-- The code is read as the expression, and its level is that of the expression. -/
def Denotes (f : Fragment) (e : Expr) : Prop :=
  f.level = e.level ∧ Phrase (Level.tier f.level) f.code e

variable {a b c : String} {e e' e'' : Expr}

theorem Denotes.splice {f : Fragment} (h : f.Denotes e) (least : Level) :
    Phrase (Level.tier least) (f.splice least) e := by
  rw [Fragment.splice, needsParens]
  split
  · exact h.2.group.loosen_to (Level.tier_le_seven least)
  · next hlevel => exact h.2.loosen_to (Level.tier_mono (by simpa using hlevel))

theorem denotes_unary (op : UnaryOp) (h : Phrase 6 a e) :
    Denotes ⟨op.sign ++ a, .unary⟩ (.unary op e) := by
  obtain ⟨ts, hs, hd⟩ := h
  exact ⟨rfl, _, hs.unary op, .unary hd⟩

theorem denotes_binary (op : BinaryOp) (ha : Phrase op.leftTier a e)
    (hb : Phrase (op.tier + 1) b e') :
    Denotes ⟨Rules.operatorCode a op.sign b, op.level⟩ (.binary op e e') := by
  obtain ⟨ts, hs, hd⟩ := ha
  obtain ⟨us, hs', hd'⟩ := hb
  exact ⟨rfl, _, hs.binary hs' op, op.tier_level.symm ▸ .binary hd hd'⟩

theorem denotes_power (ha : Phrase 0 a e) (hb : Phrase 0 b e') :
    Denotes ⟨"f64::powf(" ++ a ++ ", " ++ b ++ ")", .call⟩ (.power e e') := by
  obtain ⟨ts, hs, hd⟩ := ha
  obtain ⟨us, hs', hd'⟩ := hb
  exact ⟨rfl, _, hs.power hs', .power hd hd'⟩

theorem denotes_choice (hc : Phrase 0 c e) (ha : Phrase 0 a e') (hb : Phrase 0 b e'') :
    Denotes ⟨"if " ++ c ++ r" { " ++ a ++ r" } else { " ++ b ++ r" }", .assignment⟩
      (.choice e e' e'') := by
  obtain ⟨ts, hs, hd⟩ := hc
  obtain ⟨us, hs', hd'⟩ := ha
  obtain ⟨vs, hs'', hd''⟩ := hb
  exact ⟨rfl, _, hs.choice hs' hs'', .choice hd hd' hd''⟩

theorem denotes_constant (c : Constant) : Denotes ⟨c.word, .atomic⟩ (.constant c) :=
  ⟨rfl, .constant c⟩

end Fragment

/-- A number as an expression: the sign is an operator, and there is only one zero. -/
def Number.expr : Number → Expr
  | .nan => .constant .nan
  | .infinite false => .constant .infinity
  | .infinite true => .unary .minus (.constant .infinity)
  | .finite negative units =>
    if negative = true ∧ 0 < units then .unary .minus (.number (.finite false units))
    else .number (.finite false units)

theorem Rules.denotes_numberFragment {x : Number} (h : x.isBinary64 = true) :
    (numberFragment x).Denotes x.expr := by
  cases x with
  | nan => exact Fragment.denotes_constant .nan
  | infinite negative =>
    cases negative with
    | false => exact Fragment.denotes_constant .infinity
    | true =>
      exact Fragment.denotes_unary .minus ((Phrase.constant .infinity).loosen_to (by decide))
  | finite negative units =>
    have hphrase : Phrase 7 (Number.code (.finite false units)) _ :=
      Phrase.number (by simpa [Number.isBinary64] using h)
    by_cases hneg : negative = true ∧ 0 < units
    · obtain ⟨rfl, hpos⟩ := hneg
      have hlt := (Number.finite_lt_zero true units).2 ⟨rfl, hpos⟩
      simp only [numberFragment, Number.expr, hlt, hpos, Number.code_negative hpos, if_true,
        and_self]
      exact Fragment.denotes_unary .minus (hphrase.loosen_to (by decide))
    · have hlt : Number.lt (.finite negative units) .zero = false := by
        simpa using mt (Number.finite_lt_zero negative units).1 hneg
      have hcode : Number.code (.finite negative units) = Number.code (.finite false units) := by
        cases negative with
        | false => rfl
        | true =>
          obtain rfl : units = 0 := by simpa using hneg
          rw [Number.code_zero, Number.code_zero]
      simp only [numberFragment, Number.expr, hlt, hneg, hcode, if_false, Bool.false_eq_true]
      exact ⟨rfl, hphrase⟩

end BlockCode
