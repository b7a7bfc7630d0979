import BlockCode.Proofs.Identifiers
import BlockCode.Proofs.Numbers
import BlockCode.Render.Loops

namespace BlockCode

inductive Quantity where
  | literal (i : Int)
  | variable (name : String)
  deriving DecidableEq, Repr

inductive RangeExpr where
  | inclusive (first last : Quantity)
  | rev (range : RangeExpr)
  | stepBy (range : RangeExpr) (size : Quantity)
  deriving DecidableEq, Repr

inductive Enumeration where
  | range (range : RangeExpr)
  /-- The first range if the comparison `left <= right` holds, or else the second one. -/
  | choice (left right : Quantity) (yes no : RangeExpr)
  deriving DecidableEq, Repr

def upTo (first last : Int) : List Int :=
  (List.range (last + 1 - first).toNat).map fun k : Nat => first + k

def everyNth (n : Nat) (vs : List Int) : List Int :=
  (List.range vs.length).filterMap fun k => vs[k * n]?

def wordValue (i : Int) : Nat := (i % 2 ^ 64).toNat

def Quantity.value (env : String → Int) : Quantity → Int
  | .literal i => i
  | .variable name => env name

def RangeExpr.values (env : String → Int) : RangeExpr → Option (List Int)
  | .inclusive first last => some (upTo (first.value env) (last.value env))
  | .rev range => (range.values env).map List.reverse
  | .stepBy range size =>
    if wordValue (size.value env) = 0 then none
    else (range.values env).map (everyNth (wordValue (size.value env)))

def Enumeration.values (env : String → Int) : Enumeration → Option (List Int)
  | .range r => r.values env
  | .choice left right yes no =>
    if left.value env ≤ right.value env then yes.values env else no.values env

def Quantity.read? : List Char → Option (Quantity × List Char)
  | [] => none
  | c :: cs =>
    if c = '-' then
      if cs.head?.any Char.isDigit then
        some (.literal (-digitsValue (cs.takeWhile Char.isDigit)), cs.dropWhile Char.isDigit)
      else none
    else if c.isDigit then
      some (.literal (digitsValue ((c :: cs).takeWhile Char.isDigit)),
        (c :: cs).dropWhile Char.isDigit)
    else if isIdentifierChar c then
      some (.variable (String.ofList ((c :: cs).takeWhile isIdentifierChar)),
        (c :: cs).dropWhile isIdentifierChar)
    else none

def expect (word : String) (cs : List Char) : Option (List Char) := word.toList.isPrefixOf? cs

namespace RangeExpr

def readEnds? (cs : List Char) : Option (RangeExpr × List Char) := do
  let (first, cs) ← Quantity.read? cs
  let cs ← expect "..=" cs
  let (last, cs) ← Quantity.read? cs
  return (.inclusive first last, cs)

def readStep? (cs : List Char) : Option (Quantity × List Char) := do
  let cs ← expect ".step_by(" cs
  let (size, cs) ← Quantity.read? cs
  let cs ← expect " as usize)" cs
  return (size, cs)

def readCalls : Nat → RangeExpr → List Char → RangeExpr × List Char
  | 0, range, cs => (range, cs)
  | n + 1, range, cs =>
    match expect ".rev()" cs with
    | some cs => readCalls n (.rev range) cs
    | none =>
      match readStep? cs with
      | some (size, cs) => readCalls n (.stepBy range size) cs
      | none => (range, cs)

def read? (cs : List Char) : Option (RangeExpr × List Char) :=
  match expect "(" cs with
  | none => readEnds? cs
  | some cs => do
    let (range, cs) ← readEnds? cs
    let cs ← expect ")" cs
    return readCalls cs.length range cs

end RangeExpr

namespace Enumeration

def readChoice? (cs : List Char) : Option (Enumeration × List Char) := do
  let (left, cs) ← Quantity.read? cs
  let cs ← expect " <= " cs
  let (right, cs) ← Quantity.read? cs
  let cs ← expect r" { Box::new(" cs
  let (yes, cs) ← RangeExpr.read? cs
  let cs ← expect r") } else { Box::new(" cs
  let (no, cs) ← RangeExpr.read? cs
  let cs ← expect r") }" cs
  return (.choice left right yes no, cs)

def read? (text : String) : Option Enumeration :=
  let result := match expect "if " text.toList with
    | some cs => readChoice? cs
    | none => (RangeExpr.read? text.toList).map fun (r, cs) => (.range r, cs)
  result.bind fun (enumeration, cs) => if cs.isEmpty then some enumeration else none

end Enumeration

def Passed (first last v : Int) : Prop := if first ≤ last then last < v else v < last

def stride (first last step : Int) : Int := if first ≤ last then |step| else -|step|

/-- The values from the first one on, in equal steps, as long as the last one is not passed. -/
def Counted (first last step : Int) (vs : List Int) : Prop :=
  ∃ n : Nat, vs = (List.range n).map (fun k : Nat => first + k * stride first last step) ∧
    (∀ k < n, ¬ Passed first last (first + k * stride first last step)) ∧
    Passed first last (first + n * stride first last step)

theorem everyNth_map_range {n m length : Nat} (f : Nat → Int) (hlt : ∀ k < m, k * n < length)
    (hle : length ≤ m * n) (hm : m ≤ length) :
    everyNth n ((List.range length).map f) = (List.range m).map fun k => f (k * n) := by
  let element (k : Nat) : Option Int := ((List.range length).map f)[k * n]?
  have hinside : (List.range m).filterMap element = (List.range m).map fun k => f (k * n) := by
    rw [← List.filterMap_eq_map]
    refine List.filterMap_congr fun k hk => ?_
    have hk := hlt k (List.mem_range.1 hk)
    simp [element, hk]
  have houtside : ((List.range (length - m)).map (m + ·)).filterMap element = [] := by
    refine List.filterMap_eq_nil_iff.2 fun k hk => ?_
    obtain ⟨j, -, rfl⟩ := List.mem_map.1 hk
    have hbeyond : length ≤ (m + j) * n := hle.trans (Nat.mul_le_mul_right n (by omega))
    simp [element, hbeyond]
  have hrange : List.range length = List.range m ++ (List.range (length - m)).map (m + ·) := by
    rw [← List.range_add, Nat.add_sub_cancel' hm]
  change (List.range ((List.range length).map f).length).filterMap element = _
  rw [List.length_map, List.length_range, hrange, List.filterMap_append, hinside, houtside,
    List.append_nil]

def towards (first last : Int) : List Int :=
  if first ≤ last then upTo first last else (upTo last first).reverse

theorem towards_eq (first last : Int) :
    towards first last = (List.range ((last - first).natAbs + 1)).map
      fun k : Nat => first + k * stride first last 1 := by
  unfold towards stride
  split
  · have hlength : (last + 1 - first).toNat = (last - first).natAbs + 1 := by omega
    simp [upTo, hlength]
  · have hlength : (first + 1 - last).toNat = (last - first).natAbs + 1 := by omega
    rw [upTo, hlength, ← List.map_reverse, List.range_eq_range', List.reverse_range', List.map_map,
      ← List.range_eq_range']
    refine List.map_congr_left fun k hk => ?_
    have hk := List.mem_range.1 hk
    simp only [Function.comp_apply, abs_one]
    omega

theorem passed_iff (first last : Int) (n : Nat) :
    Passed first last (first + n * stride first last 1) ↔ (last - first).natAbs < n := by
  unfold Passed stride
  split <;> simp only [abs_one] <;> omega

theorem counted_everyNth (first last : Int) {step : Int} (hstep : step ≠ 0) :
    Counted first last step (everyNth step.natAbs (towards first last)) := by
  have hpos : 0 < step.natAbs := Int.natAbs_pos.2 hstep
  let distance := (last - first).natAbs
  have hinside : ∀ k, k < distance / step.natAbs + 1 ↔ k * step.natAbs ≤ distance := fun k => by
    rw [Nat.lt_succ_iff, Nat.le_div_iff_mul_le hpos]
  have hstride : ∀ k : Nat,
      first + (k * step.natAbs : Nat) * stride first last 1 =
        first + k * stride first last step := by
    intro k
    unfold stride
    split <;> simp
  refine ⟨distance / step.natAbs + 1, ?_, fun k hk => ?_, ?_⟩
  · rw [towards_eq, everyNth_map_range (m := distance / step.natAbs + 1)]
    · exact List.map_congr_left fun k _ => hstride k
    · exact fun k hk => Nat.lt_succ_of_le ((hinside k).1 hk)
    · exact Nat.succ_le_of_lt (not_le.1 ((hinside _).not.1 (lt_irrefl _)))
    · exact Nat.succ_le_succ (Nat.div_le_self _ _)
  · rw [← hstride, passed_iff]
    exact not_lt.2 ((hinside k).1 hk)
  · rw [← hstride, passed_iff]
    exact not_le.1 ((hinside _).not.1 (lt_irrefl _))

namespace Rules

/--
The text of a range between two ends, both included, up or down. Steps of one are not written, and
any others once, behind the range in parentheses.
-/
inductive RangeText (start stop : String) : String → Bool → String → Prop
  | up : RangeText start stop "1" false (start ++ "..=" ++ stop)
  | upInSteps {step : String} : step ≠ "1" →
    RangeText start stop step false
      ("(" ++ start ++ "..=" ++ stop ++ ").step_by(" ++ step ++ " as usize)")
  | down : RangeText start stop "1" true ("(" ++ stop ++ "..=" ++ start ++ ").rev()")
  | downInSteps {step : String} : step ≠ "1" →
    RangeText start stop step true
      ("(" ++ stop ++ "..=" ++ start ++ ").rev().step_by(" ++ step ++ " as usize)")

/-- An end that begins with a parenthesis would be taken for a whole range in parentheses. -/
theorem rangeText_upward {start : String} (h : start.toList.head? ≠ some '(')
    (stop step : String) : RangeText start stop step false (inSteps (upward start stop) step) := by
  unfold inSteps
  split
  · next hone =>
    rw [hone]
    exact .up
  · next hone =>
    have hhead : (upward start stop).toList.head? ≠ some '(' := by
      cases hstart : start.toList with
      | nil => simp [upward, hstart]
      | cons c cs => simpa [upward, hstart] using h
    have htext : (if (upward start stop).toList.head? = some '(' then upward start stop
        else "(" ++ upward start stop ++ ")") ++ ".step_by(" ++ step ++ " as usize)" =
        "(" ++ start ++ "..=" ++ stop ++ ").step_by(" ++ step ++ " as usize)" := by
      rw [if_neg hhead]
      simp [upward, ← String.toList_inj]
    exact htext ▸ .upInSteps hone

theorem rangeText_downward (start stop step : String) :
    RangeText start stop step true (inSteps (downward start stop) step) := by
  unfold inSteps
  split
  · next hone =>
    rw [hone]
    exact .down
  · next hone =>
    have hhead : (downward start stop).toList.head? = some '(' := by simp [downward]
    have htext : (if (downward start stop).toList.head? = some '(' then downward start stop
        else "(" ++ downward start stop ++ ")") ++ ".step_by(" ++ step ++ " as usize)" =
        "(" ++ stop ++ "..=" ++ start ++ ").rev().step_by(" ++ step ++ " as usize)" := by
      rw [if_pos hhead]
      simp [downward, ← String.toList_inj]
    exact htext ▸ .downInSteps hone

end Rules

theorem expect_append (word : String) (rest : List Char) :
    expect word (word.toList ++ rest) = some rest := by
  have hlist : ∀ cs : List Char, cs.isPrefixOf? (cs ++ rest) = some rest := by
    intro cs
    induction cs with
    | nil => cases rest <;> rfl
    | cons c cs ih => simp [List.isPrefixOf?, ih]
  exact hlist word.toList

theorem expect_eq_none (word : String) {cs : List Char} {c d : Char}
    (hword : word.toList.head? = some d) (hcs : cs.head? = some c) (hne : d ≠ c) :
    expect word cs = none := by
  obtain ⟨ds, hds⟩ := List.head?_eq_some_iff.1 hword
  obtain ⟨cs, rfl⟩ := List.head?_eq_some_iff.1 hcs
  simp [expect, hds, List.isPrefixOf?, hne]

namespace Quantity

def code : Quantity → String
  | .literal i => toString i
  | .variable name => name

def IsNamed : Quantity → Prop
  | .literal _ => True
  | .variable name => IsIdentifier name

def WordEnds (rest : List Char) : Prop := ∀ c, rest.head? = some c → isIdentifierChar c = false

theorem WordEnds.not_isDigit {rest : List Char} (h : WordEnds rest) :
    ∀ c, rest.head? = some c → c.isDigit = false := by
  intro c hc
  by_contra hdigit
  have hword := isIdentifierChar_of_isDigit (Bool.eq_true_of_not_eq_false hdigit)
  simp [h c hc] at hword

theorem exists_digits (n : Nat) : ∃ d ds, (toString n).toList = d :: ds ∧ d.isDigit = true ∧
    Number.areDigits (d :: ds) ∧ digitsValue (d :: ds) = n := by
  have htext : (toString n).toList = Nat.toDigits 10 n := by simp
  obtain ⟨d, ds, hds⟩ := List.exists_cons_of_ne_nil (Nat.toDigits_ne_nil (b := 10) (n := n))
  have hdigits := hds ▸ Number.areDigits_toDigits n
  refine ⟨d, ds, htext.trans hds, hdigits d List.mem_cons_self, hdigits, ?_⟩
  rw [← hds, digitsValue_eq, Nat.ofDigitChars_ten_toDigits]

theorem read?_code {q : Quantity} (hq : q.IsNamed) {rest : List Char} (hrest : WordEnds rest) :
    read? (q.code.toList ++ rest) = some (q, rest) := by
  cases q with
  | literal i =>
    cases i with
    | ofNat n =>
      obtain ⟨d, ds, htext, hdigit, hdigits, hvalue⟩ := exists_digits n
      obtain ⟨htake, hdrop⟩ := Number.span_append hdigits hrest.not_isDigit
      have hminus : d ≠ '-' := by
        rintro rfl
        cases hdigit
      change read? ((toString n).toList ++ rest) = _
      rw [htext]
      rw [List.cons_append] at htake hdrop ⊢
      rw [read?, if_neg hminus, if_pos hdigit, htake, hdrop, hvalue]
      rfl
    | negSucc n =>
      obtain ⟨d, ds, htext, hdigit, hdigits, hvalue⟩ := exists_digits (n + 1)
      obtain ⟨htake, hdrop⟩ := Number.span_append hdigits hrest.not_isDigit
      have hcode : (code (.literal (.negSucc n))).toList = '-' :: d :: ds := by
        change ("-" ++ toString (n + 1)).toList = _
        rw [String.toList_append, htext]
        rfl
      rw [hcode, List.cons_append, read?, if_pos rfl, htake, hdrop, hvalue, List.cons_append,
        List.head?_cons, Option.any_some, if_pos hdigit]
      rfl
  | «variable» name =>
    obtain ⟨c, hc, hdigit⟩ := hq.start
    obtain ⟨cs, hcs⟩ := List.head?_eq_some_iff.1 hc
    obtain ⟨htake, hdrop⟩ := Number.span_append hq.chars hrest
    have hchar := hq.chars c (by simp [hcs])
    have hminus : c ≠ '-' := by
      rintro rfl
      cases hchar
    change read? (name.toList ++ rest) = _
    rw [hcs, List.cons_append] at htake hdrop ⊢
    rw [read?, if_neg hminus, hdigit, if_neg Bool.false_ne_true, if_pos hchar, htake, hdrop, ← hcs,
      String.ofList_toList]

theorem head_literal (i : Int) :
    ∃ c, (toString i).toList.head? = some c ∧ (c = '-' ∨ c.isDigit = true) := by
  cases i with
  | ofNat n =>
    obtain ⟨d, ds, htext, hdigit, -⟩ := exists_digits n
    exact ⟨d, congrArg List.head? htext, .inr hdigit⟩
  | negSucc n =>
    refine ⟨'-', ?_, .inl rfl⟩
    change ("-" ++ toString (n + 1)).toList.head? = _
    simp

theorem head_code {q : Quantity} (hq : q.IsNamed) :
    ∃ c, q.code.toList.head? = some c ∧ (c = '-' ∨ isIdentifierChar c = true) := by
  cases q with
  | literal i =>
    obtain ⟨c, hc, hkind⟩ := head_literal i
    exact ⟨c, hc, hkind.imp_right isIdentifierChar_of_isDigit⟩
  | «variable» name =>
    obtain ⟨c, hc, -⟩ := hq.start
    exact ⟨c, hc, .inr (hq.chars c (List.mem_of_mem_head? hc))⟩

end Quantity

namespace RangeExpr

variable {a b : Quantity} {rest : List Char}

def CallsEnd (rest : List Char) : Prop :=
  ∀ c, rest.head? = some c → c ≠ '.' ∧ isIdentifierChar c = false

theorem CallsEnd.wordEnds (h : CallsEnd rest) : Quantity.WordEnds rest := fun c hc => (h c hc).2

theorem wordEnds_append (word : String) (rest : List Char) {c : Char}
    (hword : word.toList.head? = some c) (hc : isIdentifierChar c = false) :
    Quantity.WordEnds (word.toList ++ rest) := by
  intro d hd
  obtain ⟨cs, hcs⟩ := List.head?_eq_some_iff.1 hword
  rw [hcs, List.cons_append, List.head?_cons, Option.some.injEq] at hd
  exact hd ▸ hc

theorem readEnds?_upward (ha : a.IsNamed) (hb : b.IsNamed) (hrest : Quantity.WordEnds rest) :
    readEnds? ((Rules.upward a.code b.code).toList ++ rest) = some (.inclusive a b, rest) := by
  have hdots : Quantity.WordEnds ("..=".toList ++ (b.code.toList ++ rest)) :=
    wordEnds_append _ _ rfl rfl
  rw [Rules.upward, String.toList_append, String.toList_append, List.append_assoc,
    List.append_assoc, readEnds?, Quantity.read?_code ha hdots]
  simp only [Option.bind_eq_bind, Option.bind_some, expect_append, Quantity.read?_code hb hrest]
  rfl

theorem expect_upward (ha : a.IsNamed) :
    expect "(" ((Rules.upward a.code b.code).toList ++ rest) = none := by
  obtain ⟨c, hc, hkind⟩ := Quantity.head_code ha
  refine expect_eq_none _ (d := '(') rfl (c := c) (by simp [Rules.upward, hc]) ?_
  rintro rfl
  obtain h | h := hkind <;> cases h

theorem readCalls_of_callsEnd (hrest : CallsEnd rest) (n : Nat) (r : RangeExpr) :
    readCalls n r rest = (r, rest) := by
  cases n with
  | zero => rfl
  | succ n =>
    have hnone : ∀ word : String, word.toList.head? = some '.' → expect word rest = none := by
      intro word hword
      cases rest with
      | nil =>
        obtain ⟨ds, hds⟩ := List.head?_eq_some_iff.1 hword
        rw [expect, hds]
        rfl
      | cons c cs => exact expect_eq_none word hword rfl (Ne.symm (hrest c rfl).1)
    rw [readCalls, hnone ".rev()" rfl, readStep?, hnone ".step_by(" rfl]
    rfl

theorem readCalls_rev (n : Nat) (r : RangeExpr) (rest : List Char) :
    readCalls (n + 1) r (".rev()".toList ++ rest) = readCalls n (.rev r) rest := by
  rw [readCalls, expect_append]

def stepCall (size : Nat) : String := ".step_by(" ++ toString size ++ " as usize)"

theorem readCalls_stepCall (n : Nat) (r : RangeExpr) (size : Nat) (rest : List Char) :
    readCalls (n + 1) r ((stepCall size).toList ++ rest) =
      readCalls n (.stepBy r (.literal size)) rest := by
  have hsize : Quantity.WordEnds (" as usize)".toList ++ rest) := wordEnds_append _ _ rfl rfl
  have hread : readStep? ((stepCall size).toList ++ rest) = some (.literal size, rest) := by
    have hcode : toString size = (Quantity.literal size).code := rfl
    rw [stepCall, String.toList_append, String.toList_append, List.append_assoc, List.append_assoc,
      readStep?, expect_append, hcode]
    simp only [Option.bind_eq_bind, Option.bind_some, expect_append,
      Quantity.read?_code (q := .literal size) trivial hsize]
    rfl
  have hrev : expect ".rev()" ((stepCall size).toList ++ rest) = none := by
    rw [stepCall, String.toList_append, String.toList_append, List.append_assoc]
    rfl
  rw [readCalls, hrev, hread]

def stepped (r : RangeExpr) (size : Nat) : RangeExpr :=
  if size = 1 then r else .stepBy r (.literal size)

theorem toString_eq_one_iff (size : Nat) : toString size = "1" ↔ size = 1 :=
  ⟨fun h => by simpa using Nat.repr_inj.1 (h : Nat.repr size = Nat.repr 1), fun h => h ▸ rfl⟩

theorem read?_grouped (ha : a.IsNamed) (hb : b.IsNamed) (calls : List Char) :
    read? (("(" ++ Rules.upward a.code b.code ++ ")").toList ++ calls) =
      some (readCalls calls.length (.inclusive a b) calls) := by
  have hclose : Quantity.WordEnds (")".toList ++ calls) := wordEnds_append _ _ rfl rfl
  rw [String.toList_append, String.toList_append, List.append_assoc, List.append_assoc, read?,
    expect_append]
  simp only [Option.bind_eq_bind, Option.bind_some, readEnds?_upward ha hb hclose, expect_append]
  rfl

def directed (first last : Quantity) (falls : Bool) : RangeExpr :=
  if falls then .rev (.inclusive last first) else .inclusive first last

theorem read?_rangeText (ha : a.IsNamed) (hb : b.IsNamed) {size : Nat} {falls : Bool}
    {text : String} (h : Rules.RangeText a.code b.code (toString size) falls text)
    (hrest : CallsEnd rest) :
    read? (text.toList ++ rest) = some (stepped (directed a b falls) size, rest) := by
  generalize hstep : toString size = step at h
  cases h with
  | up =>
    change read? ((Rules.upward a.code b.code).toList ++ rest) = _
    rw [stepped, if_pos ((toString_eq_one_iff size).1 hstep), read?, expect_upward ha]
    exact readEnds?_upward ha hb hrest.wordEnds
  | upInSteps hne =>
    have hcode : ("(" ++ a.code ++ "..=" ++ b.code ++ ").step_by(" ++ step ++ " as usize)").toList =
        ("(" ++ Rules.upward a.code b.code ++ ")").toList ++ (stepCall size).toList := by
      simp [Rules.upward, stepCall, hstep]
    obtain ⟨n, hn⟩ : ∃ n, ((stepCall size).toList ++ rest).length = n + 1 :=
      Nat.exists_eq_succ_of_ne_zero (by simp [stepCall])
    rw [hcode, List.append_assoc, read?_grouped ha hb, hn, readCalls_stepCall,
      readCalls_of_callsEnd hrest, stepped, if_neg fun h => hne (by rw [← hstep, h]; rfl)]
    rfl
  | down =>
    have hcode : ("(" ++ b.code ++ "..=" ++ a.code ++ ").rev()").toList =
        ("(" ++ Rules.upward b.code a.code ++ ")").toList ++ ".rev()".toList := by
      simp [Rules.upward]
    rw [hcode, List.append_assoc, read?_grouped hb ha]
    change some (readCalls (rest.length + 5 + 1) _ _) = _
    rw [readCalls_rev, readCalls_of_callsEnd hrest, stepped,
      if_pos ((toString_eq_one_iff size).1 hstep)]
    rfl
  | downInSteps hne =>
    have hcode : ("(" ++ b.code ++ "..=" ++ a.code ++ ").rev().step_by(" ++ step ++
        " as usize)").toList = ("(" ++ Rules.upward b.code a.code ++ ")").toList ++
          (".rev()".toList ++ (stepCall size).toList) := by
      simp [Rules.upward, stepCall, hstep]
    obtain ⟨n, hn⟩ :
        ∃ n, (".rev()".toList ++ ((stepCall size).toList ++ rest)).length = n + 1 + 1 :=
      ⟨(stepCall size).toList.length + rest.length + 4, by simp⟩
    rw [hcode, List.append_assoc, List.append_assoc, read?_grouped hb ha, hn, readCalls_rev,
      readCalls_stepCall, readCalls_of_callsEnd hrest, stepped,
      if_neg fun h => hne (by rw [← hstep, h]; rfl)]
    rfl

theorem everyNth_one (vs : List Int) : everyNth 1 vs = vs := by
  have hall : everyNth 1 ((List.range vs.length).map fun k => vs.getD k 0) =
      (List.range vs.length).map fun k => vs.getD (k * 1) 0 :=
    everyNth_map_range _ (by omega) (by omega) (by omega)
  have hvs : (List.range vs.length).map (fun k => vs.getD k 0) = vs :=
    List.ext_getElem (by simp) fun k hk hk' => by simp [List.getElem?_eq_getElem hk']
  simp only [mul_one, hvs] at hall
  exact hall

theorem values_stepped {env : String → Int} {r : RangeExpr} {vs : List Int} {size : Nat}
    (hr : r.values env = some vs) (hpos : 0 < size) (hlt : size < 2 ^ 64) :
    (stepped r size).values env = some (everyNth size vs) := by
  unfold stepped
  split
  · next hone => rw [hr, hone, everyNth_one]
  · have hword : wordValue size = size := by
      unfold wordValue
      omega
    simp [values, Quantity.value, hword, hr, hpos.ne']

theorem values_direction (env : String → Int) (a b : Quantity) :
    (if a.value env ≤ b.value env then inclusive a b else rev (inclusive b a)).values env =
      some (towards (a.value env) (b.value env)) := by
  unfold towards
  split <;> simp [values]

end RangeExpr

namespace Enumeration

variable {a b : Quantity}

def choiceText (start stop rising falling : String) : String :=
  "if " ++ start ++ " <= " ++ stop ++ r" { Box::new(" ++ rising ++ r") } else { Box::new(" ++
    falling ++ r") }"

theorem read?_choiceText (ha : a.IsNamed) (hb : b.IsNamed) {size : Nat} {rising falling : String}
    (hrising : Rules.RangeText a.code b.code (toString size) false rising)
    (hfalling : Rules.RangeText a.code b.code (toString size) true falling) :
    read? (choiceText a.code b.code rising falling) =
      some (.choice a b (.stepped (.directed a b false) size)
        (.stepped (.directed a b true) size)) := by
  have hclose : ∀ (word : String) (rest : List Char), word.toList.head? = some ')' →
      RangeExpr.CallsEnd (word.toList ++ rest) := by
    intro word rest hword c hc
    obtain ⟨cs, hcs⟩ := List.head?_eq_some_iff.1 hword
    rw [hcs] at hc
    cases hc
    exact ⟨by decide, rfl⟩
  have hleft := fun rest => Quantity.read?_code ha
    (RangeExpr.wordEnds_append " <= " rest rfl rfl)
  have hright := fun rest => Quantity.read?_code hb
    (RangeExpr.wordEnds_append r" { Box::new(" rest rfl rfl)
  have hyes := fun rest => RangeExpr.read?_rangeText ha hb hrising
    (hclose r") } else { Box::new(" rest rfl)
  have hno := RangeExpr.read?_rangeText ha hb hfalling (hclose r") }" [] rfl)
  have hlast := expect_append r") }" []
  rw [List.append_nil] at hno hlast
  simp only [read?, readChoice?, choiceText, String.toList_append, List.append_assoc, expect_append,
    hleft, hright, hyes, hno, hlast, Option.bind_eq_bind, Option.bind_some]
  rfl

theorem read?_of_range {text : String} {r : RangeExpr} {c : Char}
    (hhead : text.toList.head? = some c) (hc : c ≠ 'i')
    (hread : RangeExpr.read? (text.toList ++ []) = some (r, [])) :
    read? text = some (.range r) := by
  rw [List.append_nil] at hread
  rw [read?, expect_eq_none "if " rfl hhead hc.symm, hread]
  rfl

theorem read?_numeric {i j : Int} {size : Nat} {falls : Bool} {text : String}
    (h : Rules.RangeText (toString i) (toString j) (toString size) falls text) :
    read? text = some (.range (.stepped (.directed (.literal i) (.literal j) falls) size)) := by
  have hend : RangeExpr.CallsEnd [] := fun _ h => nomatch h
  have hread := RangeExpr.read?_rangeText (a := .literal i) (b := .literal j) trivial trivial h hend
  obtain ⟨c, hc, hne⟩ : ∃ c, text.toList.head? = some c ∧ c ≠ 'i' := by
    generalize toString size = step at h
    cases h with
    | up =>
      obtain ⟨c, hc, hkind⟩ := Quantity.head_literal i
      refine ⟨c, ?_, ?_⟩
      · rw [String.toList_append, String.toList_append, List.append_assoc, List.head?_append, hc]
        rfl
      · rintro rfl
        obtain h | h := hkind <;> cases h
    | upInSteps => exact ⟨'(', by simp, by decide⟩
    | down => exact ⟨'(', by simp, by decide⟩
    | downInSteps => exact ⟨'(', by simp, by decide⟩
  exact read?_of_range hc hne hread

end Enumeration

end BlockCode
