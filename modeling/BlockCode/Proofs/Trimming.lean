import BlockCode.Proofs.ByName
import BlockCode.Proofs.References

namespace BlockCode

def Head.keeps {α : Type} (h : Head) (link : Option α) : Bool :=
  h.type != "logic_ternary" || link.isSome

def Head.trimmed {α : Type} (h : Head) (inputs : List (String × Option α)) :
    List (String × Option α) :=
  inputs.filter fun e => h.keeps e.2

def Block.trim (b : Block) : Block :=
  { b with
    values := ⟨b.toHead.trimmed b.values.entries⟩
    statements := ⟨b.toHead.trimmed b.statements.entries⟩ }

def Workspace.trim (w : Workspace) : Workspace := { w with blocks := w.blocks.map Block.trim }

structure Block.Distinct (b : Block) : Prop where
  values : (b.values.entries.map Prod.fst).Nodup
  statements : (b.statements.entries.map Prod.fst).Nodup

theorem ByName.lookup_filter {α : Type} (p : α → Bool) {es : List (String × α)}
    (h : (es.map Prod.fst).Nodup) (n : String) :
    (es.filter fun e => p e.2).lookup n = (es.lookup n).filter p := by
  induction es with
  | nil => rfl
  | cons e es ih =>
    obtain ⟨name, a⟩ := e
    obtain ⟨hnew, hes⟩ := List.nodup_cons.1 h
    rw [List.filter_cons, lookup_cons_eq]
    by_cases hp : p a = true
    · rw [if_pos hp, lookup_cons_eq, ih hes]
      split
      · exact (if_pos hp).symm
      · rfl
    · rw [if_neg hp, ih hes]
      split
      · next heq =>
        rw [heq, lookup_eq_none hnew]
        exact (if_neg hp).symm
      · rfl

namespace Head

variable {α β : Type}

theorem trimmed_of_ne {h : Head} (hne : h.type ≠ "logic_ternary")
    (inputs : List (String × Option α)) :
    h.trimmed inputs = inputs := by
  simp [trimmed, keeps, hne]

theorem lookup_trimmed (h : Head) {inputs : List (String × Option α)}
    (hinputs : (inputs.map Prod.fst).Nodup) (n : String) :
    (h.trimmed inputs).lookup n = (inputs.lookup n).filter h.keeps :=
  ByName.lookup_filter h.keeps hinputs n

theorem join_filter_keeps (h : Head) (o : Option (Option α)) :
    (o.filter h.keeps).join = o.join := by
  cases o with
  | none => rfl
  | some link =>
    cases link with
    | none => cases hkeeps : h.keeps (none : Option α) <;> simp [Option.filter, hkeeps]
    | some a => simp [Option.filter, keeps]

theorem trimmed_map (h : Head) (f : α → β) (inputs : List (String × Option α)) :
    h.trimmed (inputs.map fun e => (e.1, e.2.map f)) =
      (h.trimmed inputs).map fun e => (e.1, e.2.map f) := by
  simp [trimmed, List.filter_map, Function.comp_def, keeps]

end Head

theorem Site.value?_congr {s s' : Site}
    (h : ∀ n, (s.values.lookup n).join = (s'.values.lookup n).join)
    (input : String) (least : Level) : s.value? input least = s'.value? input least := by
  rw [value?, h input, value?]

theorem Rules.choice_congr {s s' : Site}
    (h : ∀ n, (s.values.lookup n).join = (s'.values.lookup n).join) : choice s = choice s' := by
  simp only [choice, Site.valueOr, Site.value?_congr h]

theorem Setup.emit_trimmed {c : Setup} (hc : c.book = .builtin) (h : Head)
    {values : List (String × Option Operand)} {statements : List (String × Option (Render String))}
    (hvalues : (values.map Prod.fst).Nodup) :
    c.emit ⟨h, c.options, h.trimmed values, h.trimmed statements⟩ =
      c.emit ⟨h, c.options, values, statements⟩ := by
  by_cases htype : h.type = "logic_ternary"
  · have hrule : Rulebook.builtin.rule? "logic_ternary" = some Rules.choice := by
      rw [Rulebook.builtin_rule?]
      rfl
    have hchoice : Rules.choice ⟨h, c.options, h.trimmed values, h.trimmed statements⟩ =
        Rules.choice ⟨h, c.options, values, statements⟩ :=
      Rules.choice_congr fun n => by rw [h.lookup_trimmed hvalues, h.join_filter_keeps]
    simp only [Setup.emit, hc, htype, hrule, hchoice]
    rfl
  · rw [Head.trimmed_of_ne htype, Head.trimmed_of_ne htype]

namespace Tree

theorem operands_eq (c : Setup) (vs : List (String × Option Tree)) :
    operands c vs = vs.map fun e => (e.1, e.2.map (operand c)) := by
  induction vs with
  | nil => rfl
  | cons e vs ih =>
    obtain ⟨name, link⟩ := e
    cases link <;> rw [operands, ih] <;> rfl

theorem chains_eq (c : Setup) (vs : List (String × Option Tree)) :
    chains c vs = vs.map fun e => (e.1, e.2.map (chain c)) := by
  induction vs with
  | nil => rfl
  | cons e vs ih =>
    obtain ⟨name, link⟩ := e
    cases link <;> rw [chains, ih] <;> rfl

/-- Nothing that is generated from one tree differs from what is generated from the other. -/
structure SameCode (c : Setup) (t t' : Tree) : Prop where
  operand : t.operand c = t'.operand c
  chain : t.chain c = t'.chain c
  references : t.references = t'.references

section

variable {c : Setup} {f g : Nat → Tree} (h : ∀ i, SameCode c (f i) (g i)) (head : Head)
include h

theorem emit_congr (hc : c.book = .builtin) (values statements : List (String × Option Nat))
    (hvalues : (values.map Prod.fst).Nodup) :
    c.emit ⟨head, c.options, operands c ((head.trimmed values).map fun e => (e.1, e.2.map f)),
        chains c ((head.trimmed statements).map fun e => (e.1, e.2.map f))⟩ =
      c.emit ⟨head, c.options, operands c (values.map fun e => (e.1, e.2.map g)),
        chains c (statements.map fun e => (e.1, e.2.map g))⟩ := by
  have hoperand : operand c ∘ f = operand c ∘ g := funext fun i => (h i).operand
  have hchain : chain c ∘ f = chain c ∘ g := funext fun i => (h i).chain
  simp only [operands_eq, chains_eq, List.map_map, Function.comp_def,
    Option.map_map] at hoperand hchain ⊢
  rw [hoperand, hchain, ← Head.trimmed_map, ← Head.trimmed_map]
  exact Setup.emit_trimmed hc head (by simpa [Function.comp_def] using hvalues)

theorem linkReferences_congr (link : Option Nat) :
    linkReferences (link.map f) = linkReferences (link.map g) := by
  cases link with
  | none => rfl
  | some i => simpa [linkReferences] using (h i).references

theorem inputReferences_congr (inputs : List (String × Option Nat)) :
    inputReferences ((head.trimmed inputs).map fun e => (e.1, e.2.map f)) =
      inputReferences (inputs.map fun e => (e.1, e.2.map g)) := by
  induction inputs with
  | nil => rfl
  | cons e inputs ih =>
    obtain ⟨name, link⟩ := e
    by_cases hkeeps : head.keeps link = true
    · have hcons : head.trimmed ((name, link) :: inputs) = (name, link) :: head.trimmed inputs :=
        List.filter_cons_of_pos hkeeps
      rw [hcons, List.map_cons, List.map_cons, inputReferences, inputReferences, ih,
        linkReferences_congr h]
    -- Only inputs without a link are left out, and these refer to nothing.
    · have hcons : head.trimmed ((name, link) :: inputs) = head.trimmed inputs :=
        List.filter_cons_of_neg hkeeps
      cases link with
      | some i => simp [Head.keeps] at hkeeps
      | none =>
        rw [hcons, ih, List.map_cons, inputReferences]
        cases inputReferences (inputs.map fun e => (e.1, e.2.map g)) <;> rfl

theorem sameCode_block (hc : c.book = .builtin) (values statements : List (String × Option Nat))
    (hvalues : (values.map Prod.fst).Nodup) (next : Option Nat) :
    SameCode c
      (.block head ((head.trimmed values).map fun e => (e.1, e.2.map f))
        ((head.trimmed statements).map fun e => (e.1, e.2.map f)) (next.map f))
      (.block head (values.map fun e => (e.1, e.2.map g))
        (statements.map fun e => (e.1, e.2.map g)) (next.map g)) where
  operand := by rw [operand, operand, emit_congr h head hc values statements hvalues]
  chain := by
    have hemit := emit_congr h head hc values statements hvalues
    cases next with
    | none =>
      simp only [chain, Option.map_none, hemit]
      rfl
    | some i =>
      simp only [chain, Option.map_some, hemit, (h i).chain]
      rfl
  references := by
    rw [references, references, inputReferences_congr h, inputReferences_congr h,
      linkReferences_congr h]

end

end Tree

namespace Workspace

@[simp] theorem size_trim (w : Workspace) : w.trim.size = w.size := by
  simp [trim, size]

theorem sameCode_unfold_trim {c : Setup} (hc : c.book = .builtin) {w : Workspace}
    (hw : ∀ b ∈ w.blocks, b.Distinct) (n i : Nat) :
    Tree.SameCode c (w.trim.unfold n i) (w.unfold n i) := by
  have hget : ∀ i : Nat, w.trim.blocks[i]? = (w.blocks[i]?).map Block.trim := by simp [trim]
  induction n generalizing i with
  | zero =>
    rw [unfold, unfold, hget]
    cases w.blocks[i]? <;> exact ⟨rfl, rfl, rfl⟩
  | succ n ih =>
    rw [unfold, unfold, hget]
    cases hb : w.blocks[i]? with
    | none => exact ⟨rfl, rfl, rfl⟩
    | some b =>
      exact Tree.sameCode_block ih b.toHead hc b.values.entries b.statements.entries
        (hw b (Array.mem_of_getElem? hb)).values b.next

end Workspace

theorem Setup.generate_trim {c : Setup} (hc : c.book = .builtin) {w : Workspace}
    (hw : ∀ b ∈ w.blocks, b.Distinct) : c.generate w.trim = c.generate w := by
  have hsame := Workspace.sameCode_unfold_trim hc hw w.size
  have hreferences : Tree.references ∘ w.trim.tree = Tree.references ∘ w.tree :=
    funext fun i => by simpa [Workspace.tree] using (hsame i).references
  have hchain : Tree.chain c ∘ w.trim.tree = Tree.chain c ∘ w.tree :=
    funext fun i => by simpa [Workspace.tree] using (hsame i).chain
  have hvariables : referencedVariables w.trim.rootTrees = referencedVariables w.rootTrees := by
    rw [referencedVariables_eq, referencedVariables_eq, Workspace.rootTrees, Workspace.rootTrees,
      List.mapM_map, List.mapM_map, hreferences]
    rfl
  have hopening : c.runOpening w.trim = c.runOpening w := by
    simp only [Setup.runOpening, hc, Rulebook.builtin, declareVariables, hvariables]
  have hparts : w.trim.rootTrees.mapM (Tree.chain c) = w.rootTrees.mapM (Tree.chain c) := by
    rw [Workspace.rootTrees, Workspace.rootTrees, List.mapM_map, List.mapM_map, hchain]
    rfl
  have hprogram : c.program w.trim = c.program w := by
    rw [Setup.program, Setup.program, hopening, hparts, Workspace.size_trim]
    rfl
  rw [Setup.generate, Setup.run, hprogram]
  rfl

end BlockCode
