import BlockCode.Proofs.Builds
import BlockCode.Proofs.Pieces

/-!
One program in two formats. A document in JSON does not say which inputs hold statements, and the
reader goes by their names; in XML the elements say so. The names are right for every input that the
rules read but one: the alternative of a choice is a value, and its name is one of statements.
-/

namespace BlockCode

open Build

theorem buildParts_shapeParts (id : String) (h : PieceHead) (b : Block) :
    buildParts id h.shapeParts b = pure (b.shaped h.shape) := by
  unfold PieceHead.shapeParts
  cases h.shape with
  | none => rfl
  | some s => rfl

theorem together_addVariable (id name : String) :
    Together (fun _ _ => True) (modify (·.addVariable id name)) (modify (·.addVariable id name)) :=
  fun _ _ hw => ⟨(), _, (), _, rfl, rfl, trivial, hw.addVariable id name⟩

theorem together_get : Together Workspace.Alike get get :=
  fun w w' hw => ⟨w, w, w', w', rfl, rfl, hw, hw⟩

section

variable {type : String} {shape : Option (Nat × Bool)} {idle : String → Prop}

theorem together_enter_field (name : String) (f : PieceField) {b b' : Block}
    (hb : Block.InStep type shape idle b b') (link link' : Option Nat) :
    Together (Block.InStep type shape idle) (Slot.enter b link (.field name (f.entry name)))
      (Slot.enter b' link' (.field name (f.entry name))) := by
  have hvariable : ∀ id shown, Together (Block.InStep type shape idle)
      (Slot.enter b link (.field name (.variable id shown)))
      (Slot.enter b' link' (.field name (.variable id shown))) := fun id shown =>
    .bind (together_addVariable id shown) fun _ _ _ => .pure (hb.setField name _)
  cases f with
  | text s =>
    rw [PieceField.entry]
    split
    · exact hvariable s s
    · exact .pure (hb.setField name _)
  | «variable» id shown => exact hvariable id shown

theorem together_fields (id : String) (h : PieceHead) {b b' : Block}
    (hb : Block.InStep type shape idle b b') :
    Together (Block.InStep type shape idle) (buildParts id h.fieldParts b)
      (buildParts id h.fieldParts b') := by
  unfold PieceHead.fieldParts
  induction h.fields generalizing b b' with
  | nil => exact .pure hb
  | cons f fields ih =>
    rw [List.map_cons, buildParts, buildParts]
    exact .bind (.within (.bind (.pure (R := Eq) rfl) fun _ _ _ =>
      together_enter_field f.1 f.2 hb _ _) _ _) fun _ _ => ih

theorem together_parts (kind : String → String → InputKind) (id : String) (h : PieceHead)
    {inputs inputs' : List (Slot × Option Entry)}
    (hinputs : ∀ b b', Block.InStep type h.shape idle b b' →
      Together (Block.InStep type h.shape idle) (buildParts id inputs b) (buildParts id inputs' b'))
    {b b' : Block} (hb : Block.InStep type h.shape idle b (b'.shaped h.shape)) :
    Together (Block.InStep type none idle) (buildParts id (Layout.json.parts h inputs) b)
      (buildParts id ((Layout.xml kind).parts h inputs') b') := by
  have hjson : Layout.json.parts h inputs = h.fieldParts ++ inputs ++ h.shapeParts := rfl
  have hxml : (Layout.xml kind).parts h inputs' = h.shapeParts ++ h.fieldParts ++ inputs' := rfl
  -- The shape comes last in JSON and first in XML: only the second block is ahead by its shape.
  rw [hjson, buildParts_append, buildParts_append, hxml, buildParts_append, buildParts_append,
    buildParts_shapeParts, pure_bind, ← bind_pure (_ >>= buildParts id inputs')]
  refine .bind (.bind (together_fields id h hb) hinputs) fun b b' hb => ?_
  rw [buildParts_shapeParts]
  exact .pure hb.shaped

end

theorem together_add {type : String} {idle : String → Prop} {b b' : Block}
    (hb : Block.InStep type none idle b b') :
    Together Eq (modifyGet fun w => (w.size, w.add b) : Build Nat)
      (modifyGet fun w => (w.size, w.add b')) :=
  fun _ _ hw => ⟨_, _, _, _, rfl, rfl, hw.size, hw.add hb.sorted hb.sorted' hb.trim_eq⟩

namespace Piece

def Idle (inputs : List (String × Option Piece)) (name : String) : Prop :=
  ∀ i ∈ inputs, i.1 = name → i.2 = none

def Agrees (kind : String → String → InputKind) (head : PieceHead)
    (inputs : List (String × Option Piece)) : Prop :=
  ∀ i ∈ inputs, (Json.inputSlot i.1).connection? = ((kind head.type i.1).slot i.1).connection? ∨
    head.type = "logic_ternary" ∧ Idle inputs i.1

variable {kind : String → String → InputKind}

theorem connection_inputSlot (name : String) :
    ∃ k : Connection, (Json.inputSlot name).connection? = some k ∧ k.input? = some name := by
  unfold Json.inputSlot
  split
  · exact ⟨_, rfl, rfl⟩
  · exact ⟨_, rfl, rfl⟩

theorem connection_slot (k : InputKind) (name : String) :
    ∃ k' : Connection, (k.slot name).connection? = some k' ∧ k'.input? = some name := by
  cases k <;> exact ⟨_, rfl, rfl⟩

theorem together_some {p : Piece} {R : Option Nat → Option Nat → Prop}
    (hR : ∀ i, R (some i) (some i))
    (h : Together Eq (p.entry .json).build (p.entry (.xml kind)).build) :
    Together R (buildLink (some (p.entry .json))) (buildLink (some (p.entry (.xml kind)))) := by
  rw [buildLink, buildLink, map_eq_pure_bind, map_eq_pure_bind]
  refine .bind h ?_
  rintro i _ rfl
  exact .pure (hR i)

mutual

theorem together_build : ∀ p : Piece, p.Every (Agrees kind) →
    Together Eq (p.entry .json).build (p.entry (.xml kind)).build
  | .block head inputs next, .block hhead hinputs hnext => by
    rw [entry, entry, Entry.build, Entry.build]
    refine .bind together_get fun w w' hw => ?_
    have hid : w.madeUpId = w'.madeUpId := by rw [Workspace.madeUpId, hw.size, Workspace.madeUpId]
    simp only [PieceHead.caption, hid]
    refine .bind (R := Block.InStep head.type none (Idle inputs)) ?_ fun b b' hb => together_add hb
    rw [buildParts_append, buildParts_append]
    refine .bind (together_parts kind _ head (fun b b' hb => ?_) ?_) fun b b' hb =>
      together_next _ next hnext hb
    · exact together_inputs head.type _ head.shape inputs inputs (List.Subset.refl _) hhead hinputs
        hb
    · exact .start head.shape (Idle inputs) ⟨_, head.type, {}, head.disabled⟩

theorem together_inputs (type id : String) (shape : Option (Nat × Bool))
    (all : List (String × Option Piece)) :
    ∀ inputs : List (String × Option Piece), inputs ⊆ all →
    (∀ i ∈ inputs, (Json.inputSlot i.1).connection? = ((kind type i.1).slot i.1).connection? ∨
      type = "logic_ternary" ∧ Idle all i.1) →
    (∀ i ∈ inputs, ∀ p, i.2 = some p → p.Every (Agrees kind)) →
    ∀ {b b' : Block}, Block.InStep type shape (Idle all) b b' →
    Together (Block.InStep type shape (Idle all))
      (buildParts id (inputParts .json type inputs) b)
      (buildParts id (inputParts (.xml kind) type inputs) b')
  | [], _, _, _, b, b', hb => .pure hb
  | (name, child) :: rest, hsub, hagrees, hevery, b, b', hb => by
    obtain ⟨hname, hrest⟩ := List.forall_mem_cons.1 hagrees
    obtain ⟨hchild, hmore⟩ := List.forall_mem_cons.1 hevery
    rw [inputParts, inputParts, buildParts, buildParts]
    refine .bind (.within (.bind (together_link child hchild) fun link link' hlink => ?_) _ _)
      fun _ _ hb => together_inputs type id shape all rest
        (fun i hi => hsub (List.mem_cons_of_mem _ hi)) hrest hmore hb
    obtain ⟨rfl, hnone⟩ := hlink
    obtain ⟨k, hk, hkname⟩ := connection_inputSlot name
    obtain ⟨k', hk', hkname'⟩ := connection_slot (kind type name) name
    have hmem : (name, child) ∈ all := hsub List.mem_cons_self
    -- Whether an input is idle depends on all inputs, not only on those that are left.
    refine fun w w' hw => ⟨_, w, _, w', Slot.enter_of_connection hk b link w,
      Slot.enter_of_connection hk' b' link w', hb.connect (fun n hn hidle => ?_) ?_, hw⟩
    · obtain rfl : name = n := by simpa [hkname'] using hn
      exact hnone (hidle _ hmem rfl)
    · rcases hname with heq | ⟨htype, hidle⟩
      · exact .inl (by simpa [hk, hk'] using heq)
      · exact .inr ⟨hnone (hidle _ hmem rfl), htype, name, hkname, hkname', hidle⟩

theorem together_link : ∀ child : Option Piece, (∀ p, child = some p → p.Every (Agrees kind)) →
    Together (fun link link' => link = link' ∧ (child = none → link = none))
      (buildLink (linkEntry .json child)) (buildLink (linkEntry (.xml kind) child))
  | none, _ => .pure ⟨rfl, fun _ => rfl⟩
  | some p, h => together_some (fun _ => ⟨rfl, nofun⟩) (together_build p (h p rfl))

theorem together_next (id : String) {type : String} {idle : String → Prop} : ∀ next : Option Piece,
    (∀ p, next = some p → p.Every (Agrees kind)) →
    ∀ {b b' : Block}, Block.InStep type none idle b b' →
    Together (Block.InStep type none idle) (buildParts id (nextParts .json next) b)
      (buildParts id (nextParts (.xml kind) next) b')
  | none, _, b, b', hb => .pure hb
  | some p, h, b, b', hb => by
    rw [nextParts, nextParts, buildParts, buildParts]
    have hlink := together_some (R := Eq) (fun _ => rfl) (together_build p (h p rfl))
    refine .bind (.within (.bind hlink ?_) _ _) fun _ _ hb => .pure hb
    rintro link _ rfl
    refine fun w w' hw =>
      ⟨_, w, _, w', rfl, rfl, hb.connect (k := .next) (fun n hn => ?_) (.inl rfl), hw⟩
    cases hn

end

end Piece

namespace Sheet

variable {kind : String → String → InputKind}

theorem together_variables (names : List (String × String)) :
    Together (fun _ _ => True) (Document.addVariables (names.map some))
      (Document.addVariables (names.map some)) := by
  induction names with
  | nil => exact .pure trivial
  | cons v names ih => exact .bind (together_addVariable v.1 v.2) fun _ _ _ => ih

def place (t : Top × Nat) : (Option Int × Option Int) × Nat := ((t.1.x, t.1.y), t.2)

theorem together_tops {tops : List PlacedPiece}
    (h : ∀ t ∈ tops, t.piece.Every (Piece.Agrees kind)) :
    Together (fun placed placed' => placed.map place = placed'.map place)
      (Document.buildTops (tops.map (PlacedPiece.top .json)))
      (Document.buildTops (tops.map (PlacedPiece.top (.xml kind)))) := by
  induction tops with
  | nil => exact .pure rfl
  | cons t tops ih =>
    obtain ⟨ht, htops⟩ := List.forall_mem_cons.1 h
    refine .bind (Piece.together_build t.piece ht) fun i i' hi =>
      .bind (ih htops) fun _ _ hplaced => ?_
    subst hi
    refine .pure ?_
    rw [List.map_cons, List.map_cons, hplaced]
    rfl

def placeBefore (a b : (Option Int × Option Int) × Nat) : Bool :=
  Top.before ⟨.malformed, a.1.1, a.1.2⟩ ⟨.malformed, b.1.1, b.1.2⟩

theorem map_snd_mergeSort (placed : List (Top × Nat)) :
    (placed.mergeSort fun a b => a.1.before b.1).map Prod.snd =
      ((placed.map place).mergeSort placeBefore).map Prod.snd := by
  have hplaces : (placed.mergeSort fun a b => a.1.before b.1).map place =
      (placed.map place).mergeSort placeBefore := List.map_mergeSort fun _ _ _ _ => rfl
  rw [← hplaces, List.map_map]
  rfl

theorem together_build {s : Sheet} (h : ∀ t ∈ s.tops, t.piece.Every (Piece.Agrees kind)) :
    Together (fun _ _ => True) (s.document .json).build (s.document (.xml kind)).build := by
  refine .bind (together_variables s.variableNames) fun _ _ _ => ?_
  refine .bind (together_tops h) fun placed placed' hplaced => fun w w' hw => ?_
  refine ⟨(), _, (), _, rfl, rfl, trivial, ?_⟩
  dsimp only
  rw [map_snd_mergeSort placed, hplaced, ← map_snd_mergeSort placed']
  exact hw.withRoots _

theorem workspaces_alike {s : Sheet} (h : ∀ t ∈ s.tops, t.piece.Every (Piece.Agrees kind)) :
    ∃ w w', (s.document .json).workspace = .ok w ∧ (s.document (.xml kind)).workspace = .ok w' ∧
      w.Alike w' := by
  obtain ⟨⟨⟩, w, ⟨⟩, w', hw, hw', -, halike⟩ := together_build h {} {} .empty
  refine ⟨w, w', ?_, ?_, halike⟩
  · change (Document.build _ {}).bind (fun r => .ok r.2) = _
    rw [hw]
    rfl
  · change (Document.build _ {}).bind (fun r => .ok r.2) = _
    rw [hw']
    rfl

end Sheet

def plainInputs : List (String × String × InputKind) := [
  ("controls_repeat_ext", "TIMES", .value), ("controls_repeat_ext", "DO", .statement),
  ("controls_repeat", "TIMES", .value), ("controls_repeat", "DO", .statement),
  ("controls_whileUntil", "BOOL", .value), ("controls_whileUntil", "DO", .statement),
  ("controls_for", "FROM", .value), ("controls_for", "TO", .value), ("controls_for", "BY", .value),
  ("controls_for", "DO", .statement),
  ("logic_negate", "BOOL", .value),
  ("logic_compare", "A", .value), ("logic_compare", "B", .value),
  ("logic_operation", "A", .value), ("logic_operation", "B", .value),
  ("logic_ternary", "IF", .value), ("logic_ternary", "THEN", .value),
  ("logic_ternary", "ELSE", .value),
  ("math_arithmetic", "A", .value), ("math_arithmetic", "B", .value),
  ("math_modulo", "DIVIDEND", .value), ("math_modulo", "DIVISOR", .value),
  ("math_change", "DELTA", .value),
  ("text_print", "TEXT", .value),
  ("variables_set", "VALUE", .value)]

inductive ReadAs : String → String → InputKind → Prop
  | condition {type : String} (n : Nat) :
    type ∈ ["controls_if", "controls_ifelse"] → ReadAs type ("IF" ++ toString n) .value
  | branch {type : String} (n : Nat) :
    type ∈ ["controls_if", "controls_ifelse"] → ReadAs type ("DO" ++ toString n) .statement
  | alternative {type : String} :
    type ∈ ["controls_if", "controls_ifelse"] → ReadAs type "ELSE" .statement
  | plain {type name : String} {kind : InputKind} :
    (type, name, kind) ∈ plainInputs → ReadAs type name kind

theorem isStatementInput_condition (n : Nat) : isStatementInput ("IF" ++ toString n) = false := by
  have hne : ∀ s : String, s.toList.head? ≠ some 'I' → "IF" ++ toString n ≠ s := by
    rintro s hs rfl
    exact hs (by simp)
  have helse := hne "ELSE" (by decide)
  have hstack := hne "STACK" (by decide)
  simpa [isStatementInput] using And.intro helse hstack

theorem isStatementInput_branch (n : Nat) : isStatementInput ("DO" ++ toString n) = true := by
  have hdigits : (Nat.toDigits 10 n).all Text.isDecimalDigit = true :=
    List.all_eq_true.2 fun c hc => Text.isDecimalDigit_of_isDigit (Number.areDigits_toDigits n c hc)
  have hname : ("DO" ++ toString n).toList = ['D', 'O'] ++ Nat.toDigits 10 n := by
    rw [String.toList_append, Nat.toString_eq_repr, Nat.toList_repr]
    rfl
  have hdrop : (['D', 'O'] ++ Nat.toDigits 10 n).drop "DO".length = Nat.toDigits 10 n := rfl
  unfold isStatementInput
  simp only [hname, hdrop, hdigits]
  simp

/-- The names tell what the inputs are read as, except for the alternative of a choice. -/
theorem ReadAs.isStatementInput_eq {type name : String} {kind : InputKind}
    (h : ReadAs type name kind) :
    type = "logic_ternary" ∧ name = "ELSE" ∨ isStatementInput name = (kind == .statement) := by
  cases h with
  | condition n _ => exact .inr (isStatementInput_condition n)
  | branch n _ => exact .inr (isStatementInput_branch n)
  | alternative _ => exact .inr (by decide)
  | plain hmem =>
    have hall : ∀ r ∈ plainInputs, r.1 = "logic_ternary" ∧ r.2.1 = "ELSE" ∨
        isStatementInput r.2.1 = (r.2.2 == .statement) := by decide
    exact hall _ hmem

theorem connection_inputSlot_eq {name : String} {kind : InputKind}
    (h : isStatementInput name = (kind == .statement)) :
    (Json.inputSlot name).connection? = (kind.slot name).connection? := by
  unfold Json.inputSlot
  rw [h]
  cases kind <;> rfl

def filedAs (kind : String → String → InputKind) (type name : String) : InputKind :=
  if type = "logic_ternary" ∧ name = "ELSE" then .statement else kind type name

theorem Piece.Every.imp₂ {P Q R : PieceHead → List (String × Option Piece) → Prop} {p : Piece}
    (hp : p.Every P) (hq : p.Every Q)
    (h : ∀ head inputs, P head inputs → Q head inputs → R head inputs) : p.Every R := by
  induction hp with
  | block hhead hinputs hnext ihinputs ihnext =>
    cases hq with
    | block hhead' hinputs' hnext' =>
      exact .block (h _ _ hhead hhead') (fun i hi p hp => ihinputs i hi p hp (hinputs' i hi p hp))
        fun p hp => ihnext p hp (hnext' p hp)

namespace Sheet

/-- The inputs are used as the rules read them. -/
def Uses (kind : String → String → InputKind) (s : Sheet) : Prop :=
  ∀ t ∈ s.tops, t.piece.Every fun head inputs =>
    ∀ i ∈ inputs, ReadAs head.type i.1 (kind head.type i.1)

def LacksAlternatives (s : Sheet) : Prop :=
  ∀ t ∈ s.tops, t.piece.Every fun head inputs =>
    head.type = "logic_ternary" → Piece.Idle inputs "ELSE"

variable {kind : String → String → InputKind} {s : Sheet}

theorem Uses.agrees_filedAs (h : s.Uses kind) :
    ∀ t ∈ s.tops, t.piece.Every (Piece.Agrees (filedAs kind)) := by
  refine fun t ht => (h t ht).imp₂ (h t ht) fun head inputs hread _ i hi => .inl ?_
  refine connection_inputSlot_eq ?_
  unfold filedAs
  split
  · next hchoice =>
    rw [hchoice.2]
    decide
  · next hother => exact (hread i hi).isStatementInput_eq.resolve_left hother

theorem Uses.agrees (h : s.Uses kind) (halternatives : s.LacksAlternatives) :
    ∀ t ∈ s.tops, t.piece.Every (Piece.Agrees kind) := by
  refine fun t ht => (h t ht).imp₂ (halternatives t ht) fun head inputs hread hidle i hi => ?_
  rcases (hread i hi).isStatementInput_eq with ⟨htype, hname⟩ | heq
  · exact .inr ⟨htype, hname ▸ hidle htype⟩
  · exact .inl (connection_inputSlot_eq heq)

theorem code_eq (h : ∀ t ∈ s.tops, t.piece.Every (Piece.Agrees kind)) {c : Setup}
    (hc : c.book = .builtin) :
    ∃ r, (s.document .json).workspace.map c.generate = .ok r ∧
      (s.document (.xml kind)).workspace.map c.generate = .ok r := by
  obtain ⟨w, w', hw, hw', halike⟩ := workspaces_alike h
  refine ⟨c.generate w, ?_, ?_⟩
  · rw [hw]
    rfl
  · rw [hw', halike.generate_eq hc]
    rfl

end Sheet

end BlockCode
