import BlockCode.Number.Read
import BlockCode.Options
import BlockCode.Proofs.Identifiers
import BlockCode.Proofs.Literals

/-!
The grammar of expressions in generated code. A phrase has a tier: 0 for any expression, 1 for `||`,
2 for `&&`, 3 for comparisons, 4 for sums, 5 for products, 6 for signed phrases and 7 for phrases
that stand on their own. The grammar is unambiguous: a list of tokens is read as at most one
expression.
-/

namespace BlockCode.Grammar

inductive Token where
  | word (s : String)
  | numeral (s : String)
  | literal (s : String)
  | sign (s : String)
  deriving DecidableEq, Repr

inductive Constant where
  | nan
  | infinity
  | true
  | false
  | none
  deriving DecidableEq, Repr

def Constant.word : Constant → String
  | .nan => "f64::NAN"
  | .infinity => "f64::INFINITY"
  | .true => "true"
  | .false => "false"
  | .none => "None"

inductive UnaryOp where
  | minus
  | not
  deriving DecidableEq, Repr

def UnaryOp.sign : UnaryOp → String
  | .minus => "-"
  | .not => "!"

inductive BinaryOp where
  | or
  | and
  | equal
  | unequal
  | less
  | lessEqual
  | greater
  | greaterEqual
  | plus
  | minus
  | times
  | divide
  | remainder
  deriving DecidableEq, Repr

namespace BinaryOp

def sign : BinaryOp → String
  | .or => "||"
  | .and => "&&"
  | .equal => "=="
  | .unequal => "!="
  | .less => "<"
  | .lessEqual => "<="
  | .greater => ">"
  | .greaterEqual => ">="
  | .plus => "+"
  | .minus => "-"
  | .times => "*"
  | .divide => "/"
  | .remainder => "%"

def tier : BinaryOp → Nat
  | .or => 1
  | .and => 2
  | .equal | .unequal | .less | .lessEqual | .greater | .greaterEqual => 3
  | .plus | .minus => 4
  | .times | .divide | .remainder => 5

/-- The tier of the left operand: comparisons do not chain, all others group to the left. -/
def leftTier (op : BinaryOp) : Nat := if op.tier = 3 then 4 else op.tier

end BinaryOp

inductive Expr where
  | number (x : Number)
  | literal (s : String)
  | name (s : String)
  | constant (c : Constant)
  | power (a b : Expr)
  | unary (op : UnaryOp) (a : Expr)
  | binary (op : BinaryOp) (a b : Expr)
  | choice (condition yes no : Expr)
  deriving DecidableEq, Repr

/-- `Derives k ts e`: the tokens are a phrase of tier `k` or above for the expression. -/
inductive Derives : Nat → List Token → Expr → Prop
  | number {s x} : Number.read? s = some x → Derives 7 [.numeral s] (.number x)
  | literal {s} : Derives 7 [.literal s] (.literal s)
  | name {s} : IsIdentifier s → s ∉ rustWords → Derives 7 [.word s] (.name s)
  | constant {c} : Derives 7 [.word (Constant.word c)] (.constant c)
  | power {ts us a b} : Derives 0 ts a → Derives 0 us b →
      Derives 7 (.word "f64::powf" :: .sign "(" :: ts ++ .sign "," :: us ++ [.sign ")"])
        (.power a b)
  | group {ts e} : Derives 0 ts e → Derives 7 (.sign "(" :: ts ++ [.sign ")"]) e
  | unary {op ts e} : Derives 6 ts e → Derives 6 (.sign (UnaryOp.sign op) :: ts) (.unary op e)
  | binary {op ts us a b} : Derives (BinaryOp.leftTier op) ts a → Derives (op.tier + 1) us b →
      Derives op.tier (ts ++ .sign op.sign :: us) (.binary op a b)
  | choice {ts us vs c a b} : Derives 0 ts c → Derives 0 us a → Derives 0 vs b →
      Derives 0 (.word "if" :: ts ++ .sign r"{" :: us ++ .sign r"}" :: .word "else" ::
        .sign r"{" :: vs ++ [.sign r"}"]) (.choice c a b)
  | loosen {k ts e} : Derives (k + 1) ts e → Derives k ts e

theorem Derives.le_seven {k : Nat} {ts : List Token} {e : Expr} (h : Derives k ts e) : k ≤ 7 := by
  induction h with
  | @binary op => cases op <;> decide
  | loosen => omega
  | _ => decide

theorem Derives.loosen_to {j k : Nat} {ts : List Token} {e : Expr} (h : Derives k ts e)
    (hjk : j ≤ k) : Derives j ts e := by
  induction hjk with
  | refl => exact h
  | step _ ih => exact ih h.loosen

theorem Derives.ne_nil {k : Nat} {ts : List Token} {e : Expr} (h : Derives k ts e) : ts ≠ [] := by
  induction h with
  | loosen _ ih => exact ih
  | _ => simp

def expect (t : Token) : List Token → Option (List Token)
  | [] => none
  | u :: us => if u = t then some us else none

def constant? (s : String) : Option Constant :=
  [Constant.nan, .infinity, .true, .false, .none].find? fun c => c.word == s

def unaryAt? : List Token → Option (UnaryOp × List Token)
  | .sign s :: ts => ([UnaryOp.minus, .not].find? fun op => op.sign == s).map (·, ts)
  | _ => none

def binaryOps : List BinaryOp :=
  [.or, .and, .equal, .unequal, .less, .lessEqual, .greater, .greaterEqual, .plus, .minus, .times,
    .divide, .remainder]

def binaryAt? (k : Nat) : List Token → Option (BinaryOp × List Token)
  | .sign s :: ts => (binaryOps.find? fun op => op.tier == k && op.sign == s).map (·, ts)
  | _ => none

mutual

def phrase (k : Nat) (ts : List Token) (n : Nat) : Option (Expr × List Token) :=
  match n, k with
  | 0, _ => none
  | n + 1, 0 =>
    match expect (.word "if") ts with
    | some ts => do
      let (c, ts) ← phrase 0 ts n
      let ts ← expect (.sign r"{") ts
      let (a, ts) ← phrase 0 ts n
      let ts ← expect (.sign r"}") ts
      let ts ← expect (.word "else") ts
      let ts ← expect (.sign r"{") ts
      let (b, ts) ← phrase 0 ts n
      let ts ← expect (.sign r"}") ts
      return (.choice c a b, ts)
    | none => phrase 1 ts n
  | n + 1, 6 =>
    match unaryAt? ts with
    | some (op, ts) => do
      let (e, ts) ← phrase 6 ts n
      return (.unary op e, ts)
    | none => primary ts n
  | n + 1, 7 => primary ts n
  | n + 1, k => do
    let (a, ts) ← phrase (k + 1) ts n
    operations k a ts n

def operations (k : Nat) (a : Expr) (ts : List Token) (n : Nat) : Option (Expr × List Token) :=
  match n with
  | 0 => none
  | n + 1 =>
    match binaryAt? k ts with
    | some (op, ts) => do
      let (b, ts) ← phrase (k + 1) ts n
      if k = 3 then return (.binary op a b, ts) else operations k (.binary op a b) ts n
    | none => some (a, ts)

def primary (ts : List Token) (n : Nat) : Option (Expr × List Token) :=
  match n, ts with
  | 0, _ => none
  | _ + 1, .numeral s :: ts => (Number.read? s).map fun x => (.number x, ts)
  | _ + 1, .literal s :: ts => some (.literal s, ts)
  | n + 1, .word s :: ts =>
    match constant? s with
    | some c => some (.constant c, ts)
    | none =>
      if s = "f64::powf" then do
        let ts ← expect (.sign "(") ts
        let (a, ts) ← phrase 0 ts n
        let ts ← expect (.sign ",") ts
        let (b, ts) ← phrase 0 ts n
        let ts ← expect (.sign ")") ts
        return (.power a b, ts)
      else some (.name s, ts)
  | n + 1, .sign s :: ts =>
    if s = "(" then do
      let (e, ts) ← phrase 0 ts n
      let ts ← expect (.sign ")") ts
      return (e, ts)
    else none
  | _ + 1, [] => none

end

/-- With enough calls the answer is `r`. -/
def Settles (f : Nat → Option (Expr × List Token)) (r : Option (Expr × List Token)) : Prop :=
  ∃ n, ∀ m, n ≤ m → f m = r

theorem Settles.unique {f : Nat → Option (Expr × List Token)} {r r' : Option (Expr × List Token)}
    (h : Settles f r) (h' : Settles f r') : r = r' := by
  obtain ⟨n, hn⟩ := h
  obtain ⟨n', hn'⟩ := h'
  rw [← hn (n + n') (by omega), hn' (n + n') (by omega)]

theorem Settles.of_succ {f : Nat → Option (Expr × List Token)} {r : Option (Expr × List Token)}
    (n : Nat) (h : ∀ m, n ≤ m → f (m + 1) = r) : Settles f r := by
  refine ⟨n + 1, fun m hm => ?_⟩
  obtain ⟨m, rfl⟩ : ∃ m', m = m' + 1 := ⟨m - 1, by omega⟩
  exact h m (by omega)

theorem Derives.head {k : Nat} {ts : List Token} {e : Expr} (h : Derives k ts e) :
    ∃ t us, ts = t :: us ∧ (0 < k → t ≠ .word "if") ∧
      (6 < k → ∀ op : UnaryOp, t ≠ .sign op.sign) := by
  induction h with
  | number | literal => exact ⟨_, _, rfl, by simp, by simp⟩
  | name _ hword =>
    refine ⟨_, _, rfl, fun _ heq => hword ?_, by simp⟩
    cases heq
    decide
  | @constant c =>
    refine ⟨_, _, rfl, fun _ => ?_, by simp⟩
    cases c <;> decide
  | power => exact ⟨_, _, rfl, fun _ => by decide, by simp⟩
  | group =>
    refine ⟨_, _, rfl, by simp, fun _ op => ?_⟩
    cases op <;> decide
  | unary => exact ⟨_, _, rfl, by simp, by simp⟩
  | @binary op ts us a b _ _ iha _ =>
    obtain ⟨t, ts', rfl, hword, -⟩ := iha
    refine ⟨t, _, rfl, fun _ => hword ?_, fun hlt => ?_⟩
    · cases op <;> decide
    · exact absurd hlt (by cases op <;> decide)
  | choice => exact ⟨_, _, rfl, by simp, by simp⟩
  | loosen _ ih =>
    obtain ⟨t, us, rfl, hword, hsign⟩ := ih
    exact ⟨t, us, rfl, fun _ => hword (by omega), fun _ => hsign (by omega)⟩

def Follows (k : Nat) (rest : List Token) : Prop :=
  ∀ op : BinaryOp, rest.head? = some (.sign op.sign) → op.tier < k

theorem Follows.mono {j k : Nat} {rest : List Token} (h : Follows j rest) (hjk : j ≤ k) :
    Follows k rest :=
  fun op hop => Nat.lt_of_lt_of_le (h op hop) hjk

theorem follows_nil (k : Nat) : Follows k [] := fun _ h => by simp at h

theorem follows_sign {s : String} (h : ∀ op : BinaryOp, op.sign ≠ s) (k : Nat) (rest : List Token) :
    Follows k (.sign s :: rest) := by
  intro op hop
  simp only [List.head?_cons, Option.some.injEq, Token.sign.injEq] at hop
  exact absurd hop.symm (h op)

theorem follows_closing {s : String} (hs : s ∈ [",", ")", r"{", r"}"]) (k : Nat)
    (rest : List Token) : Follows k (.sign s :: rest) := by
  apply follows_sign
  rintro op rfl
  revert hs
  cases op <;> decide

theorem BinaryOp.sign_injective {op op' : BinaryOp} (h : op.sign = op'.sign) : op = op' := by
  cases op <;> cases op' <;> first | rfl | exact absurd h (by decide)

theorem follows_op (op : BinaryOp) (rest : List Token) :
    Follows (op.tier + 1) (.sign op.sign :: rest) := by
  intro op' hop
  simp only [List.head?_cons, Option.some.injEq, Token.sign.injEq] at hop
  rw [BinaryOp.sign_injective hop]
  omega

theorem binaryAt_self (op : BinaryOp) (rest : List Token) :
    binaryAt? op.tier (.sign op.sign :: rest) = some (op, rest) := by
  cases op <;> rfl

theorem binaryAt_of_follows {k : Nat} {rest : List Token} (h : Follows k rest) :
    binaryAt? k rest = none := by
  unfold binaryAt?
  split
  · rename_i s ts
    simp only [Option.map_eq_none_iff, List.find?_eq_none, Bool.and_eq_true, beq_iff_eq]
    rintro op - ⟨rfl, rfl⟩
    exact absurd (h op rfl) (Nat.lt_irrefl _)
  · rfl

theorem settles_operations_of_follows {k : Nat} {rest : List Token} (h : Follows k rest)
    (a : Expr) : Settles (operations k a rest) (some (a, rest)) := by
  refine .of_succ 0 fun m _ => ?_
  rw [operations, binaryAt_of_follows h]

theorem phrase_operations {k : Nat} (hk : 1 ≤ k ∧ k ≤ 5) (n : Nat) (ts : List Token) :
    phrase k ts (n + 1) = (phrase (k + 1) ts n).bind fun r => operations k r.1 r.2 n := by
  rw [phrase]
  · rfl
  all_goals omega

theorem settles_phrase_operations {k : Nat} (hk : 1 ≤ k ∧ k ≤ 5) {ts rest : List Token} {a : Expr}
    {r : Option (Expr × List Token)} (ha : Settles (phrase (k + 1) ts) (some (a, rest)))
    (hr : Settles (operations k a rest) r) : Settles (phrase k ts) r := by
  obtain ⟨n, hn⟩ := ha
  obtain ⟨n', hn'⟩ := hr
  refine .of_succ (n + n') fun m hm => ?_
  rw [phrase_operations hk, hn m (by omega), Option.bind_some, hn' m (by omega)]

theorem settles_operations {op : BinaryOp} {ts rest : List Token} {b : Expr} (a : Expr)
    (hb : Settles (phrase (op.tier + 1) ts) (some (b, rest))) {r : Option (Expr × List Token)}
    (hr : if op.tier = 3 then r = some (.binary op a b, rest)
      else Settles (operations op.tier (.binary op a b) rest) r) :
    Settles (operations op.tier a (.sign op.sign :: ts)) r := by
  obtain ⟨n, hn⟩ := hb
  have hstep : ∀ m, n ≤ m → operations op.tier a (.sign op.sign :: ts) (m + 1) =
      if op.tier = 3 then some (.binary op a b, rest)
      else operations op.tier (.binary op a b) rest m := by
    intro m hm
    rw [operations, binaryAt_self]
    simp [hn m hm]
  by_cases hne : op.tier = 3
  · rw [if_pos hne] at hr
    refine .of_succ n fun m hm => ?_
    rw [hstep m hm, if_pos hne, hr]
  · rw [if_neg hne] at hr
    obtain ⟨n', hn'⟩ := hr
    refine .of_succ (n + n') fun m hm => ?_
    rw [hstep m (by omega), if_neg hne, hn' m (by omega)]

theorem word_of_name {s : String} (hs : IsIdentifier s) (hword : s ∉ rustWords) :
    constant? s = none ∧ s ≠ "f64::powf" := by
  have hcolon : ':' ∉ s.toList := fun h => absurd (hs.chars _ h) (by decide)
  constructor
  · simp only [constant?, List.find?_eq_none, beq_iff_eq]
    rintro c - rfl
    cases c with
    | nan | infinity => exact hcolon (by decide)
    | true | false | none => exact hword (by decide)
  · rintro rfl
    exact hcolon (by decide)

theorem settles_primary {ts : List Token} {r : Option (Expr × List Token)}
    (h : Settles (primary ts) r) : Settles (phrase 7 ts) r := by
  obtain ⟨n, hn⟩ := h
  refine .of_succ n fun m hm => ?_
  rw [phrase, hn m hm]

theorem settles_leaf {t : Token} {e : Expr}
    (h : ∀ m rest, primary (t :: rest) (m + 1) = some (e, rest)) (rest : List Token) :
    Settles (phrase 7 ([t] ++ rest)) (some (e, rest)) := by
  apply settles_primary
  exact .of_succ 0 fun m _ => h m rest

theorem settles_power {ts us rest : List Token} {a b : Expr}
    (ha : Settles (phrase 0 ts) (some (a, .sign "," :: us)))
    (hb : Settles (phrase 0 us) (some (b, .sign ")" :: rest))) :
    Settles (phrase 7 (.word "f64::powf" :: .sign "(" :: ts)) (some (.power a b, rest)) := by
  obtain ⟨n, ha⟩ := ha
  obtain ⟨n', hb⟩ := hb
  refine settles_primary (.of_succ (n + n') fun m hm => ?_)
  rw [primary, show constant? "f64::powf" = none from rfl]
  simp [expect, ha m (by omega), hb m (by omega)]

theorem settles_group {ts rest : List Token} {e : Expr}
    (he : Settles (phrase 0 ts) (some (e, .sign ")" :: rest))) :
    Settles (phrase 7 (.sign "(" :: ts)) (some (e, rest)) := by
  obtain ⟨n, he⟩ := he
  refine settles_primary (.of_succ n fun m hm => ?_)
  rw [primary]
  simp [expect, he m hm]

theorem settles_unary (op : UnaryOp) {ts rest : List Token} {e : Expr}
    (he : Settles (phrase 6 ts) (some (e, rest))) :
    Settles (phrase 6 (.sign op.sign :: ts)) (some (.unary op e, rest)) := by
  obtain ⟨n, he⟩ := he
  have hop : unaryAt? (.sign op.sign :: ts) = some (op, ts) := by cases op <;> rfl
  refine .of_succ n fun m hm => ?_
  rw [phrase, hop]
  simp [he m hm]

theorem settles_choice {ts us vs rest : List Token} {c a b : Expr}
    (hc : Settles (phrase 0 ts) (some (c, .sign r"{" :: us)))
    (ha : Settles (phrase 0 us) (some (a, .sign r"}" :: .word "else" :: .sign r"{" :: vs)))
    (hb : Settles (phrase 0 vs) (some (b, .sign r"}" :: rest))) :
    Settles (phrase 0 (.word "if" :: ts)) (some (.choice c a b, rest)) := by
  obtain ⟨n, hc⟩ := hc
  obtain ⟨n', ha⟩ := ha
  obtain ⟨n'', hb⟩ := hb
  refine .of_succ (n + n' + n'') fun m hm => ?_
  rw [phrase]
  simp [expect, hc m (by omega), ha m (by omega), hb m (by omega)]

theorem settles_zero {t : Token} (ht : t ≠ .word "if") {ts : List Token}
    {r : Option (Expr × List Token)} (h : Settles (phrase 1 (t :: ts)) r) :
    Settles (phrase 0 (t :: ts)) r := by
  obtain ⟨n, hn⟩ := h
  refine .of_succ n fun m hm => ?_
  rw [phrase, expect, if_neg ht]
  exact hn m hm

theorem settles_six {t : Token} (ht : ∀ op : UnaryOp, t ≠ .sign op.sign) {ts : List Token}
    {r : Option (Expr × List Token)} (h : Settles (phrase 7 (t :: ts)) r) :
    Settles (phrase 6 (t :: ts)) r := by
  have hunary : unaryAt? (t :: ts) = none := by
    cases t with
    | sign s =>
      have hne : ∀ op : UnaryOp, op.sign ≠ s := fun op hop => ht op (by rw [hop])
      simp [unaryAt?, hne]
    | _ => rfl
  obtain ⟨n, hn⟩ := h
  refine .of_succ n fun m hm => ?_
  have hprimary := hn (m + 1) (by omega)
  rw [phrase] at hprimary
  rw [phrase, hunary]
  exact hprimary

/-- The reader finds every phrase, and no more than the phrase where it cannot continue. -/
theorem Derives.settles_append {k : Nat} {ts : List Token} {e : Expr} (h : Derives k ts e) :
    (1 ≤ k ∧ k ≤ 5 ∧ k ≠ 3 → ∀ rest r, Follows (k + 1) rest →
      Settles (operations k e rest) r → Settles (phrase k (ts ++ rest)) r) ∧
    ∀ rest, Follows k rest → Settles (phrase k (ts ++ rest)) (some (e, rest)) := by
  -- The first half is for the left operand of an operator: once the operand is read the reader is
  -- among the operators of its tier, and the outer operator is the next of them.
  induction h with
  | number hs =>
    refine ⟨by omega, fun rest _ => settles_leaf (fun m rest => ?_) rest⟩
    rw [primary, hs]
    rfl
  | literal =>
    refine ⟨by omega, fun rest _ => settles_leaf (fun m rest => ?_) rest⟩
    rw [primary]
  | @name s hs hword =>
    refine ⟨by omega, fun rest _ => settles_leaf (fun m rest => ?_) rest⟩
    obtain ⟨hconstant, hpower⟩ := word_of_name hs hword
    rw [primary, hconstant]
    simp [hpower]
  | @constant c =>
    refine ⟨by omega, fun rest _ => settles_leaf (fun m rest => ?_) rest⟩
    have hc : constant? c.word = some c := by cases c <;> rfl
    rw [primary, hc]
  | power _ _ iha ihb =>
    refine ⟨by omega, fun rest _ => ?_⟩
    simp only [List.cons_append, List.append_assoc, List.nil_append]
    exact settles_power (iha.2 _ (follows_closing (by decide) _ _))
      (ihb.2 _ (follows_closing (by decide) _ _))
  | group _ ih =>
    refine ⟨by omega, fun rest _ => ?_⟩
    simp only [List.cons_append, List.append_assoc, List.nil_append]
    exact settles_group (ih.2 _ (follows_closing (by decide) _ _))
  | @unary op ts e _ ih =>
    exact ⟨by omega, fun rest hrest => settles_unary op (ih.2 rest hrest)⟩
  | @binary op ts us a b _ _ iha ihb =>
    have hgroup : op.tier ≠ 3 → ∀ rest r, Follows (op.tier + 1) rest →
        Settles (operations op.tier (.binary op a b) rest) r →
          Settles (phrase op.tier (ts ++ .sign op.sign :: us ++ rest)) r := by
      intro hne rest r hrest hr
      have hleft : op.leftTier = op.tier := if_neg hne
      have hrange : 1 ≤ op.tier ∧ op.tier ≤ 5 := by cases op <;> decide
      rw [hleft] at iha
      rw [List.append_assoc, List.cons_append]
      refine iha.1 ⟨hrange.1, hrange.2, hne⟩ _ r (follows_op op _) ?_
      exact settles_operations a (ihb.2 rest hrest) (by rwa [if_neg hne])
    refine ⟨fun hk => hgroup hk.2.2, fun rest hrest => ?_⟩
    have hnext : Follows (op.tier + 1) rest := hrest.mono (by omega)
    by_cases hne : op.tier = 3
    · -- A comparison takes no second one, so that the reader does not go on after the operand.
      have hleft : op.leftTier = op.tier + 1 := by rw [BinaryOp.leftTier, if_pos hne, hne]
      rw [hleft] at iha
      rw [List.append_assoc, List.cons_append]
      refine settles_phrase_operations (by omega) (iha.2 _ (follows_op op _)) ?_
      exact settles_operations a (ihb.2 rest hnext) (by rw [if_pos hne])
    · exact hgroup hne rest _ hnext (settles_operations_of_follows hrest _)
  | choice _ _ _ ihc iha ihb =>
    refine ⟨by omega, fun rest _ => ?_⟩
    simp only [List.cons_append, List.append_assoc, List.nil_append]
    exact settles_choice (ihc.2 _ (follows_closing (by decide) _ _))
      (iha.2 _ (follows_closing (by decide) _ _)) (ihb.2 _ (follows_closing (by decide) _ _))
  | @loosen k ts e h ih =>
    have hk := h.le_seven
    obtain ⟨t, us, rfl, hword, hsign⟩ := h.head
    have hlow : 1 ≤ k ∧ k ≤ 5 → ∀ rest r, Follows (k + 1) rest →
        Settles (operations k e rest) r → Settles (phrase k (t :: us ++ rest)) r :=
      fun hrange rest r hrest => settles_phrase_operations hrange (ih.2 rest hrest)
    refine ⟨fun hrange => hlow ⟨hrange.1, hrange.2.1⟩, fun rest hrest => ?_⟩
    have hnext : Follows (k + 1) rest := hrest.mono (by omega)
    by_cases hrange : 1 ≤ k ∧ k ≤ 5
    · exact hlow hrange rest _ hnext (settles_operations_of_follows hrest _)
    · obtain rfl | rfl : k = 0 ∨ k = 6 := by omega
      · exact settles_zero (hword (by omega)) (ih.2 rest hnext)
      · exact settles_six (hsign (by omega)) (ih.2 rest hnext)

theorem Derives.unique {ts : List Token} {e e' : Expr} (h : Derives 0 ts e) (h' : Derives 0 ts e') :
    e = e' := by
  have hread := h.settles_append.2 [] (follows_nil 0)
  have hread' := h'.settles_append.2 [] (follows_nil 0)
  simpa using hread.unique hread'

end BlockCode.Grammar
