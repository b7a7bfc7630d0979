import BlockCode.Proofs.Trees

/-!
The blocks that a program asks for. The rule for a block reads some of its inputs, in an order that
its type fixes; which ones depends on its fields and on the names of its inputs, and on nothing
else. A block is demanded if it is enabled and in the chain of a root block, or at an input that the
rule for a demanded block reads. The visits of a program are its demanded blocks in the order in
which a pass comes to them.
-/

namespace BlockCode

inductive Reading where
  | value (input : String)
  | statements (input : String)
  deriving DecidableEq, Repr

structure Outline where
  head : Head
  inputs : List String
  deriving DecidableEq, Repr

def fixedOperands : List (String × List String) := [
  ("controls_whileUntil", ["BOOL"]),
  ("controls_for", ["FROM", "TO", "BY"]),
  ("logic_negate", ["BOOL"]),
  ("logic_compare", ["A", "B"]),
  ("logic_operation", ["A", "B"]),
  ("logic_ternary", ["IF", "THEN", "ELSE"]),
  ("math_arithmetic", ["A", "B"]),
  ("math_modulo", ["DIVIDEND", "DIVISOR"]),
  ("math_change", ["DELTA"]),
  ("text_print", ["TEXT"]),
  ("variables_set", ["VALUE"])]

namespace Outline

def declares (o : Outline) (input : String) : Bool := o.inputs.contains input

inductive Reads (o : Outline) : Reading → Prop
  | condition (n : Nat) : o.head.type ∈ conditionalTypes →
    (∀ k, 1 ≤ k → k ≤ n → o.declares ("IF" ++ toString k) = true) →
    Reads o (.value ("IF" ++ toString n))
  | branch (n : Nat) : o.head.type ∈ conditionalTypes →
    (∀ k, 1 ≤ k → k ≤ n → o.declares ("IF" ++ toString k) = true) →
    Reads o (.statements ("DO" ++ toString n))
  | alternative : o.head.type ∈ conditionalTypes → Reads o (.statements "ELSE")
  | times : o.head.type ∈ repeatTypes → o.head.field? "TIMES" = none → Reads o (.value "TIMES")
  | operand (input : String) : input ∈ (fixedOperands.lookup o.head.type).getD [] →
    Reads o (.value input)
  | body : o.head.type ∈ loopTypes → Reads o (.statements "DO")

def arms (o : Outline) : Nat :=
  ((List.range o.inputs.length).takeWhile fun n => o.declares ("IF" ++ toString (n + 1))).length + 1

def operands (o : Outline) : List String :=
  if o.head.type ∈ repeatTypes then if (o.head.field? "TIMES").isSome then [] else ["TIMES"]
  else (fixedOperands.lookup o.head.type).getD []

def readings (o : Outline) : List Reading :=
  if o.head.type ∈ conditionalTypes then
    ((List.range o.arms).flatMap fun n =>
      [.value ("IF" ++ toString n), .statements ("DO" ++ toString n)]) ++ [.statements "ELSE"]
  else
    o.operands.map .value ++ if o.head.type ∈ loopTypes then [.statements "DO"] else []

theorem le_length_inputs {o : Outline} {n : Nat}
    (h : ∀ k, 1 ≤ k → k ≤ n → o.declares ("IF" ++ toString k) = true) : n ≤ o.inputs.length := by
  have hnodup : ((List.range n).map fun k => "IF" ++ toString (k + 1)).Nodup := by
    refine List.Nodup.map ?_ List.nodup_range
    intro a b hab
    have hab : toString (a + 1) = toString (b + 1) := by simpa using hab
    exact Nat.succ_injective (Nat.repr_injective hab)
  have hsub : ((List.range n).map fun k => "IF" ++ toString (k + 1)) ⊆ o.inputs := by
    intro name hname
    obtain ⟨k, hk, rfl⟩ := List.mem_map.1 hname
    rw [List.mem_range] at hk
    simpa [declares] using h (k + 1) (by omega) (by omega)
  simpa using (hnodup.subperm hsub).length_le

theorem le_length_takeWhile_range {p : Nat → Bool} {m n : Nat} :
    n ≤ ((List.range m).takeWhile p).length ↔ n ≤ m ∧ ∀ k < n, p k = true := by
  constructor
  · intro hn
    have hprefix := List.takeWhile_prefix p (l := List.range m)
    have hlength := hprefix.length_le
    rw [List.length_range] at hlength
    refine ⟨by omega, fun k hk => ?_⟩
    have htake : (List.range m).takeWhile p = List.range ((List.range m).takeWhile p).length := by
      rw [List.prefix_iff_eq_take.1 hprefix, List.take_range]
      simp [hlength]
    have hmem : k ∈ (List.range m).takeWhile p := by
      rw [htake, List.mem_range]
      omega
    exact List.mem_takeWhile_imp hmem
  · rintro ⟨hm, hp⟩
    obtain ⟨d, rfl⟩ := Nat.exists_eq_add_of_le hm
    rw [List.range_add, List.takeWhile_append_of_pos (by simpa using hp)]
    simp

theorem lt_arms_iff (o : Outline) (n : Nat) :
    n < o.arms ↔ ∀ k, 1 ≤ k → k ≤ n → o.declares ("IF" ++ toString k) = true := by
  rw [arms, Nat.lt_succ_iff, le_length_takeWhile_range]
  constructor
  · rintro ⟨-, hdeclared⟩ k hk hn
    have hk' := hdeclared (k - 1) (by omega)
    rwa [Nat.sub_add_cancel hk] at hk'
  · intro hdeclared
    exact ⟨le_length_inputs hdeclared, fun k hk => hdeclared (k + 1) (by omega) (by omega)⟩

theorem not_mem_conditionalTypes : ∀ type ∈ loopTypes, type ∉ conditionalTypes := by decide

theorem not_mem_of_fixedOperands {type input : String}
    (h : input ∈ (fixedOperands.lookup type).getD []) :
    type ∉ conditionalTypes ∧ type ∉ repeatTypes := by
  have hall : ∀ e ∈ fixedOperands, e.1 ∉ conditionalTypes ∧ e.1 ∉ repeatTypes := by decide
  cases hlookup : fixedOperands.lookup type with
  | none => simp [hlookup] at h
  | some inputs =>
    obtain ⟨before, after, heq, -⟩ := List.lookup_eq_some_iff.1 hlookup
    exact hall (type, inputs) (by simp [heq])

theorem reads_of_mem_readings {o : Outline} {r : Reading} (h : r ∈ o.readings) : o.Reads r := by
  unfold readings at h
  split at h
  · next htype =>
    rcases List.mem_append.1 h with h | h
    · obtain ⟨n, hn, h⟩ := List.mem_flatMap.1 h
      have hn := (o.lt_arms_iff n).1 (List.mem_range.1 hn)
      rcases List.mem_pair.1 h with rfl | rfl
      · exact .condition n htype hn
      · exact .branch n htype hn
    · cases List.mem_singleton.1 h
      exact .alternative htype
  · rcases List.mem_append.1 h with h | h
    · obtain ⟨input, hinput, rfl⟩ := List.mem_map.1 h
      unfold operands at hinput
      split at hinput
      · next hrepeat =>
        split at hinput
        · cases hinput
        · next hfield =>
          cases List.mem_singleton.1 hinput
          exact .times hrepeat (by simpa using hfield)
      · exact .operand input hinput
    · split at h
      · next hloop =>
        cases List.mem_singleton.1 h
        exact .body hloop
      · cases h

theorem Reads.mem_readings {o : Outline} {r : Reading} (h : o.Reads r) : r ∈ o.readings := by
  unfold readings
  cases h with
  | condition n htype hn =>
    rw [if_pos htype]
    refine List.mem_append_left _ (List.mem_flatMap.2 ⟨n, ?_, by simp⟩)
    exact List.mem_range.2 ((o.lt_arms_iff n).2 hn)
  | branch n htype hn =>
    rw [if_pos htype]
    refine List.mem_append_left _ (List.mem_flatMap.2 ⟨n, ?_, by simp⟩)
    exact List.mem_range.2 ((o.lt_arms_iff n).2 hn)
  | alternative htype => simp [htype]
  | times htype hfield =>
    have hloop : o.head.type ∈ loopTypes := List.mem_append_left _ htype
    rw [if_neg (not_mem_conditionalTypes _ hloop)]
    simp [operands, htype, hfield]
  | operand input hinput =>
    obtain ⟨hconditional, hrepeat⟩ := not_mem_of_fixedOperands hinput
    rw [if_neg hconditional]
    simpa [operands, hrepeat] using hinput
  | body htype =>
    rw [if_neg (not_mem_conditionalTypes _ htype)]
    simp [htype]

theorem mem_readings {o : Outline} {r : Reading} : r ∈ o.readings ↔ o.Reads r :=
  ⟨reads_of_mem_readings, Reads.mem_readings⟩

end Outline

/-- A pass comes to a block, or finds that the code of a block is asked for as a value. -/
inductive Visit where
  | enter (block : Outline)
  | use (block : Outline)
  deriving DecidableEq, Repr

namespace Tree

def outline (head : Head) (values statements : List (String × Option Tree)) : Outline :=
  ⟨head, values.map Prod.fst ++ statements.map Prod.fst⟩

def visitsFrom (o : Outline) (values statements : List (String × List Visit)) : List Visit :=
  .enter o :: o.readings.flatMap fun
    | .value input => (values.lookup input).getD []
    | .statements input => (statements.lookup input).getD []

mutual

def operandVisits : Tree → List Visit
  | .missing | .endless => []
  | .block head values statements _ =>
    if head.disabled then []
    else
      visitsFrom (outline head values statements) (operandTable values) (chainTable statements) ++
      [.use (outline head values statements)]

def operandTable : List (String × Option Tree) → List (String × List Visit)
  | [] => []
  | (name, none) :: rest => (name, []) :: operandTable rest
  | (name, some t) :: rest => (name, operandVisits t) :: operandTable rest

def chainVisits : Tree → List Visit
  | .missing | .endless => []
  | .block head values statements next =>
    (if head.disabled then []
    else
      visitsFrom (outline head values statements) (operandTable values) (chainTable statements)) ++
      match next with
      | none => []
      | some t => chainVisits t

def chainTable : List (String × Option Tree) → List (String × List Visit)
  | [] => []
  | (name, none) :: rest => (name, []) :: chainTable rest
  | (name, some t) :: rest => (name, chainVisits t) :: chainTable rest

end

def visitsAt (values statements : List (String × Option Tree)) : Reading → List Visit
  | .value input => ((at? values input).map operandVisits).getD []
  | .statements input => ((at? statements input).map chainVisits).getD []

def blockVisits (head : Head) (values statements : List (String × Option Tree)) : List Visit :=
  .enter (outline head values statements) ::
    (outline head values statements).readings.flatMap (visitsAt values statements)

theorem isWhole_of_mem {inputs : List (String × Option Tree)} {name : String} {t : Tree}
    (h : areWhole inputs = true) (hmem : (name, some t) ∈ inputs) : t.isWhole = true := by
  induction inputs with
  | nil => cases hmem
  | cons e inputs ih =>
    simp only [areWhole, Bool.and_eq_true] at h
    rcases List.mem_cons.1 hmem with rfl | hmem
    · exact h.1
    · exact ih h.2 hmem

theorem operandTable_eq (values : List (String × Option Tree)) :
    operandTable values = values.map fun e => (e.1, (e.2.map operandVisits).getD []) := by
  induction values with
  | nil => rfl
  | cons e values ih => obtain ⟨name, _ | t⟩ := e <;> simp [operandTable, ih]

theorem chainTable_eq (statements : List (String × Option Tree)) :
    chainTable statements = statements.map fun e => (e.1, (e.2.map chainVisits).getD []) := by
  induction statements with
  | nil => rfl
  | cons e statements ih => obtain ⟨name, _ | t⟩ := e <;> simp [chainTable, ih]

theorem getD_lookup_map {α : Type} (f : Tree → List α) (inputs : List (String × Option Tree))
    (input : String) : ((inputs.map fun e => (e.1, (e.2.map f).getD [])).lookup input).getD [] =
      ((at? inputs input).map f).getD [] := by
  rw [ByName.lookup_map fun _ (link : Option Tree) => (link.map f).getD [], at?]
  cases inputs.lookup input with
  | none => rfl
  | some link => cases link <;> rfl

theorem visitsFrom_eq (head : Head) (values statements : List (String × Option Tree)) :
    visitsFrom (outline head values statements) (operandTable values) (chainTable statements) =
      blockVisits head values statements := by
  rw [visitsFrom, blockVisits, operandTable_eq, chainTable_eq]
  congr 2
  funext r
  cases r with
  | value input => exact getD_lookup_map operandVisits values input
  | statements input => exact getD_lookup_map chainVisits statements input

section

variable {head : Head} {values statements : List (String × Option Tree)} {next : Option Tree}

theorem operandVisits_block : operandVisits (.block head values statements next) =
    if head.disabled then []
    else blockVisits head values statements ++ [.use (outline head values statements)] := by
  rw [operandVisits, visitsFrom_eq]

theorem chainVisits_block : chainVisits (.block head values statements next) =
    (if head.disabled then [] else blockVisits head values statements) ++
      (next.map chainVisits).getD [] := by
  cases next <;> simp [chainVisits, visitsFrom_eq]

end

end Tree

inductive Role where
  | statement
  | value
  deriving DecidableEq, Repr

def Block.outline (b : Block) : Outline := ⟨b.toHead, b.values.names ++ b.statements.names⟩

theorem Block.declares_outline (b : Block) (input : String) :
    b.outline.declares input = b.declares input := by
  rw [Outline.declares, outline, List.contains_append, declares, ByName.contains, ByName.contains,
    ByName.get?, ByName.get?, ByName.isSome_lookup, ByName.isSome_lookup]
  rfl

namespace Workspace

def visits (w : Workspace) : List Visit := w.rootTrees.flatMap Tree.chainVisits

def NextTo (w : Workspace) (i j : Nat) : Prop := ∃ b, w.blocks[i]? = some b ∧ b.next = some j

def InChain (w : Workspace) : Nat → Nat → Prop := Relation.ReflTransGen w.NextTo

def IsEnabled (w : Workspace) (i : Nat) : Prop := ∃ b, w.blocks[i]? = some b ∧ b.disabled = false

inductive Demanded (w : Workspace) : Role → Nat → Prop
  | root {first i : Nat} : first ∈ w.roots → w.InChain first i → w.IsEnabled i →
    Demanded w .statement i
  | value {role : Role} {i j : Nat} {b : Block} {input : String} : Demanded w role i →
    w.blocks[i]? = some b → b.outline.Reads (.value input) → b.value? input = some j →
    w.IsEnabled j → Demanded w .value j
  | statement {role : Role} {i first j : Nat} {b : Block} {input : String} : Demanded w role i →
    w.blocks[i]? = some b → b.outline.Reads (.statements input) →
    b.statement? input = some first → w.InChain first j → w.IsEnabled j → Demanded w .statement j

section

variable {w : Workspace} {n i : Nat} {b : Block}

theorem unfold_block (hb : w.blocks[i]? = some b) :
    w.unfold (n + 1) i = .block b.toHead
      (b.values.entries.map fun e => (e.1, e.2.map (w.unfold n)))
      (b.statements.entries.map fun e => (e.1, e.2.map (w.unfold n)))
      (b.next.map (w.unfold n)) := by
  rw [unfold, hb]

theorem at?_unfold (f : Nat → Tree) (m : ByName (Option Nat)) (input : String) :
    Tree.at? (m.entries.map fun e => (e.1, e.2.map f)) input = (m.get? input).join.map f := by
  rw [Tree.at?, ByName.lookup_map fun _ => Option.map f, ByName.get?]
  cases m.entries.lookup input <;> rfl

theorem outline_unfold (f : Nat → Tree) (b : Block) :
    Tree.outline b.toHead (b.values.entries.map fun e => (e.1, e.2.map f))
      (b.statements.entries.map fun e => (e.1, e.2.map f)) = b.outline := by
  simp [Tree.outline, Block.outline, ByName.names, Function.comp_def]

def visitsAt (w : Workspace) (n : Nat) (b : Block) : Reading → List Visit
  | .value input => ((b.value? input).map fun j => (w.unfold n j).operandVisits).getD []
  | .statements input => ((b.statement? input).map fun j => (w.unfold n j).chainVisits).getD []

def blockVisits (w : Workspace) (n : Nat) (b : Block) : List Visit :=
  .enter b.outline :: b.outline.readings.flatMap (w.visitsAt n b)

theorem blockVisits_unfold (w : Workspace) (n : Nat) (b : Block) :
    Tree.blockVisits b.toHead (b.values.entries.map fun e => (e.1, e.2.map (w.unfold n)))
      (b.statements.entries.map fun e => (e.1, e.2.map (w.unfold n))) = w.blockVisits n b := by
  rw [Tree.blockVisits, outline_unfold, blockVisits]
  congr 2
  funext r
  cases r with
  | value input =>
    rw [Tree.visitsAt, at?_unfold, Option.map_map]
    rfl
  | statements input =>
    rw [Tree.visitsAt, at?_unfold, Option.map_map]
    rfl

theorem operandVisits_unfold (hb : w.blocks[i]? = some b) : (w.unfold (n + 1) i).operandVisits =
    if b.disabled then [] else w.blockVisits n b ++ [.use b.outline] := by
  rw [unfold_block hb, Tree.operandVisits_block, blockVisits_unfold, outline_unfold]

theorem chainVisits_unfold (hb : w.blocks[i]? = some b) : (w.unfold (n + 1) i).chainVisits =
    (if b.disabled then [] else w.blockVisits n b) ++
      (b.next.map fun j => (w.unfold n j).chainVisits).getD [] := by
  rw [unfold_block hb, Tree.chainVisits_block, blockVisits_unfold, Option.map_map]
  rfl

end

/-- The visit is to a demanded block, and asks for a value only if the block is demanded as one. -/
def Arises (w : Workspace) (v : Visit) : Prop :=
  ∃ role i b, w.Demanded role i ∧ w.blocks[i]? = some b ∧
    (v = .enter b.outline ∨ role = .value ∧ v = .use b.outline)

section

variable {w : Workspace} {n i : Nat} {b : Block} {role : Role}

theorem arises_blockVisits (hi : w.Demanded role i) (hb : w.blocks[i]? = some b)
    (hvalue : ∀ j, (w.IsEnabled j → w.Demanded .value j) →
      ∀ v ∈ (w.unfold n j).operandVisits, w.Arises v)
    (hchain : ∀ j, (∀ k, w.InChain j k → w.IsEnabled k → w.Demanded .statement k) →
      ∀ v ∈ (w.unfold n j).chainVisits, w.Arises v) :
    ∀ v ∈ w.blockVisits n b, w.Arises v := by
  intro v hv
  rcases List.mem_cons.1 hv with rfl | hv
  · exact ⟨role, i, b, hi, hb, .inl rfl⟩
  · obtain ⟨r, hr, hv⟩ := List.mem_flatMap.1 hv
    have hreads := Outline.mem_readings.1 hr
    cases r with
    | value input =>
      cases hj : b.value? input with
      | none => simp [visitsAt, hj] at hv
      | some j =>
        simp only [visitsAt, hj, Option.map_some, Option.getD_some] at hv
        exact hvalue j (.value hi hb hreads hj) v hv
    | statements input =>
      cases hj : b.statement? input with
      | none => simp [visitsAt, hj] at hv
      | some j =>
        simp only [visitsAt, hj, Option.map_some, Option.getD_some] at hv
        exact hchain j (fun k hk => .statement hi hb hreads hj hk) v hv

theorem arises_unfold (w : Workspace) (n : Nat) : ∀ i,
    ((w.IsEnabled i → w.Demanded .value i) →
      ∀ v ∈ (w.unfold n i).operandVisits, w.Arises v) ∧
    ((∀ j, w.InChain i j → w.IsEnabled j → w.Demanded .statement j) →
      ∀ v ∈ (w.unfold n i).chainVisits, w.Arises v) := by
  -- Both parts at once: the rule for a block may read values and statements.
  induction n with
  | zero =>
    intro i
    rw [unfold]
    cases w.blocks[i]? <;> simp [Tree.operandVisits, Tree.chainVisits]
  | succ n ih =>
    intro i
    cases hb : w.blocks[i]? with
    | none =>
      rw [unfold, hb]
      simp [Tree.operandVisits, Tree.chainVisits]
    | some b =>
      have hblock : ∀ role, w.Demanded role i → ∀ v ∈ w.blockVisits n b, w.Arises v :=
        fun role hi => arises_blockVisits hi hb (fun j => (ih j).1) fun j => (ih j).2
      constructor
      · intro hvalue v hv
        rw [operandVisits_unfold hb] at hv
        split at hv
        · cases hv
        · next hdisabled =>
          have hi := hvalue ⟨b, hb, by simpa using hdisabled⟩
          rcases List.mem_append.1 hv with hv | hv
          · exact hblock .value hi v hv
          · exact ⟨.value, i, b, hi, hb, .inr ⟨rfl, List.mem_singleton.1 hv⟩⟩
      · intro hchain v hv
        rw [chainVisits_unfold hb] at hv
        rcases List.mem_append.1 hv with hv | hv
        · split at hv
          · cases hv
          · next hdisabled =>
            exact hblock .statement (hchain i .refl ⟨b, hb, by simpa using hdisabled⟩) v hv
        · cases hnext : b.next with
          | none => simp [hnext] at hv
          | some j =>
            simp only [hnext, Option.map_some, Option.getD_some] at hv
            exact (ih j).2 (fun k hk => hchain k (.head ⟨b, hb, hnext⟩ hk)) v hv

theorem arises_of_mem_visits {v : Visit} (hv : v ∈ w.visits) : w.Arises v := by
  obtain ⟨t, ht, hv⟩ := List.mem_flatMap.1 hv
  obtain ⟨first, hfirst, rfl⟩ := List.mem_map.1 ht
  exact (w.arises_unfold w.size first).2 (fun j hj => .root hfirst hj) v hv

def IsVisited (w : Workspace) (i : Nat) : Prop :=
  ∃ n b, w.blocks[i]? = some b ∧ (w.unfold (n + 1) i).isWhole = true ∧
    w.blockVisits n b ⊆ w.visits

theorem exists_of_isWhole (h : (w.unfold n i).isWhole = true) :
    ∃ m b, n = m + 1 ∧ w.blocks[i]? = some b := by
  cases hb : w.blocks[i]? with
  | none => simp [unfold, hb, Tree.isWhole] at h
  | some b =>
    cases n with
    | zero => simp [unfold, hb, Tree.isWhole] at h
    | succ m => exact ⟨m, b, rfl, rfl⟩

theorem isWhole_of_links (hb : w.blocks[i]? = some b) (h : (w.unfold (n + 1) i).isWhole = true) :
    (∀ input j, b.value? input = some j → (w.unfold n j).isWhole = true) ∧
    (∀ input j, b.statement? input = some j → (w.unfold n j).isWhole = true) ∧
    ∀ j, b.next = some j → (w.unfold n j).isWhole = true := by
  rw [unfold_block hb] at h
  simp only [Tree.isWhole, Bool.and_eq_true] at h
  have hinput : ∀ {m : ByName (Option Nat)} {input : String} {j : Nat},
      (m.get? input).join = some j →
      Tree.areWhole (m.entries.map fun e => (e.1, e.2.map (w.unfold n))) = true →
      (w.unfold n j).isWhole = true := by
    intro m input j hj hm
    have hat := at?_unfold (w.unfold n) m input
    rw [hj] at hat
    exact Tree.isWhole_of_mem hm (Tree.mem_of_at? hat)
  refine ⟨fun input j hj => hinput hj h.1.1, fun input j hj => hinput hj h.1.2, fun j hj => ?_⟩
  rw [hj] at h
  exact h.2

theorem isVisited_of_inChain {first j : Nat} (hwhole : (w.unfold n first).isWhole = true)
    (hsub : (w.unfold n first).chainVisits ⊆ w.visits) (hchain : w.InChain first j)
    (hj : w.IsEnabled j) : w.IsVisited j := by
  induction hchain using Relation.ReflTransGen.head_induction_on generalizing n with
  | refl =>
    obtain ⟨m, -, rfl, -⟩ := exists_of_isWhole hwhole
    obtain ⟨b, hb, hdisabled⟩ := hj
    refine ⟨m, b, hb, hwhole, fun v hv => hsub ?_⟩
    rw [chainVisits_unfold hb, hdisabled]
    exact List.mem_append_left _ hv
  | head hnext _ ih =>
    obtain ⟨m, -, rfl, -⟩ := exists_of_isWhole hwhole
    obtain ⟨b, hb, hnext⟩ := hnext
    refine ih ((isWhole_of_links hb hwhole).2.2 _ hnext) fun v hv => hsub ?_
    rw [chainVisits_unfold hb, hnext]
    exact List.mem_append_right _ hv

theorem visitsAt_subset {r : Reading} (hr : b.outline.Reads r) :
    w.visitsAt n b r ⊆ w.blockVisits n b := by
  intro v hv
  exact List.mem_cons_of_mem _ (List.mem_flatMap.2 ⟨r, Outline.mem_readings.2 hr, hv⟩)

theorem isVisited_of_demanded (hw : w.Acyclic) (h : w.Demanded role i) :
    w.IsVisited i ∧ (role = .value → ∀ b, w.blocks[i]? = some b → .use b.outline ∈ w.visits) := by
  induction h with
  | root hfirst hchain hi =>
    refine ⟨isVisited_of_inChain (hw.isWhole_rootTrees _ (List.mem_map_of_mem hfirst)) ?_ hchain hi,
      fun h => nomatch h⟩
    exact fun v hv => List.mem_flatMap.2 ⟨_, List.mem_map_of_mem hfirst, hv⟩
  | @value role i j b input hdemanded hb hreads hj henabled ih =>
    obtain ⟨⟨n, b', hb', hwhole, hsub⟩, -⟩ := ih
    cases hb.symm.trans hb'
    have hvisits := List.Subset.trans (visitsAt_subset (w := w) hreads) hsub
    have hwhole' := (isWhole_of_links hb hwhole).1 _ _ hj
    obtain ⟨m, b', rfl, hb'⟩ := exists_of_isWhole hwhole'
    obtain ⟨b'', hb'', hdisabled⟩ := henabled
    cases hb'.symm.trans hb''
    simp only [visitsAt, hj, Option.map_some, Option.getD_some, operandVisits_unfold hb', hdisabled,
      Bool.false_eq_true, if_false, List.append_subset] at hvisits
    refine ⟨⟨m, b', hb', hwhole', hvisits.1⟩, fun _ b'' hb'' => ?_⟩
    cases hb'.symm.trans hb''
    exact hvisits.2 List.mem_cons_self
  | @statement role i first j b input hdemanded hb hreads hfirst hchain henabled ih =>
    obtain ⟨⟨n, b', hb', hwhole, hsub⟩, -⟩ := ih
    cases hb.symm.trans hb'
    have hvisits := List.Subset.trans (visitsAt_subset (w := w) hreads) hsub
    simp only [visitsAt, hfirst, Option.map_some, Option.getD_some] at hvisits
    exact ⟨isVisited_of_inChain ((isWhole_of_links hb hwhole).2.1 _ _ hfirst) hvisits hchain
      henabled, fun h => nomatch h⟩

theorem mem_visits_iff (hw : w.Acyclic) {v : Visit} : v ∈ w.visits ↔ w.Arises v := by
  refine ⟨arises_of_mem_visits, ?_⟩
  rintro ⟨role, i, b, hi, hb, hv⟩
  obtain ⟨⟨n, b', hb', -, hsub⟩, huse⟩ := isVisited_of_demanded hw hi
  cases hb.symm.trans hb'
  rcases hv with rfl | ⟨hrole, rfl⟩
  · exact hsub List.mem_cons_self
  · exact huse hrole b hb

end

end Workspace

end BlockCode
