import BlockCode.Proofs.Registration
import BlockCode.Proofs.Rows

/-!
What the description of a block comes to, without a workspace: the tree that it describes, whether
all of it can be built, and how many blocks it has. A part of a description does the same whether it
comes before or after the others, if no other part has its topic.
-/

namespace BlockCode

namespace ByName

variable {α : Type} {name n : String}

theorem insertEntry_cons_of_lt (h : name < n) (a b : α) (es : List (String × α)) :
    insertEntry name a ((n, b) :: es) = (name, a) :: (n, b) :: es := by
  rw [insertEntry, if_pos h]

theorem insertEntry_cons_self (name : String) (a b : α) (es : List (String × α)) :
    insertEntry name a ((name, b) :: es) = (name, a) :: es := by
  rw [insertEntry, if_neg (lt_irrefl name), if_pos rfl]

theorem insertEntry_cons_of_gt (h : n < name) (a b : α) (es : List (String × α)) :
    insertEntry name a ((n, b) :: es) = (n, b) :: insertEntry name a es := by
  rw [insertEntry, if_neg h.asymm, if_neg h.ne']

theorem insertEntry_insertEntry (name : String) (a b : α) (es : List (String × α)) :
    insertEntry name a (insertEntry name b es) = insertEntry name a es := by
  induction es with
  | nil => exact insertEntry_cons_self name a b []
  | cons e es ih =>
    obtain ⟨n, c⟩ := e
    rcases lt_trichotomy name n with hlt | rfl | hlt
    · rw [insertEntry_cons_of_lt hlt, insertEntry_cons_self, insertEntry_cons_of_lt hlt]
    · rw [insertEntry_cons_self, insertEntry_cons_self, insertEntry_cons_self]
    · rw [insertEntry_cons_of_gt hlt, insertEntry_cons_of_gt hlt, ih, insertEntry_cons_of_gt hlt]

theorem insertEntry_comm_of_lt {name' : String} (h : name < name') (a a' : α)
    (es : List (String × α)) :
    insertEntry name a (insertEntry name' a' es) =
      insertEntry name' a' (insertEntry name a es) := by
  induction es with
  | nil => exact (insertEntry_cons_of_lt h a a' []).trans (insertEntry_cons_of_gt h a' a []).symm
  | cons e es ih =>
    obtain ⟨n, b⟩ := e
    rcases lt_trichotomy name n with hlt | rfl | hlt
    · rw [insertEntry_cons_of_lt hlt, insertEntry_cons_of_gt h]
      rcases lt_trichotomy name' n with hlt' | rfl | hlt'
      · rw [insertEntry_cons_of_lt hlt', insertEntry_cons_of_lt h]
      · rw [insertEntry_cons_self, insertEntry_cons_of_lt h]
      · rw [insertEntry_cons_of_gt hlt', insertEntry_cons_of_lt hlt]
    · rw [insertEntry_cons_of_gt h, insertEntry_cons_self, insertEntry_cons_self,
        insertEntry_cons_of_gt h]
    · rw [insertEntry_cons_of_gt (hlt.trans h), insertEntry_cons_of_gt hlt,
        insertEntry_cons_of_gt hlt, insertEntry_cons_of_gt (hlt.trans h), ih]

theorem insert_comm (m : ByName α) {name' : String} (h : name ≠ name') (a a' : α) :
    (m.insert name a).insert name' a' = (m.insert name' a').insert name a := by
  rcases lt_or_gt_of_ne h with hlt | hlt
  · exact congrArg ByName.mk (insertEntry_comm_of_lt hlt a a' m.entries).symm
  · exact congrArg ByName.mk (insertEntry_comm_of_lt hlt a' a m.entries)

theorem insertNew_insert (m : ByName (Option α)) (name name' : String) (a : Option α) :
    (m.insert name a).insertNew name' none = (m.insertNew name' none).insert name a := by
  by_cases h : name' = name
  · subst h
    have hnew : (m.insert name' a).contains name' = true := by simp [contains]
    rw [insertNew, if_pos hnew, insertNew]
    split
    · rfl
    · exact (congrArg ByName.mk (insertEntry_insertEntry name' a none m.entries)).symm
  · have hcontains : (m.insert name a).contains name' = m.contains name' := by simp [contains, h]
    rw [insertNew, insertNew, hcontains]
    split
    · rfl
    · exact m.insert_comm (Ne.symm h) a none

theorem declare_insert (m : ByName (Option α)) (names : List String) (name : String)
    (a : Option α) : (m.insert name a).declare names = (m.declare names).insert name a := by
  unfold declare
  induction names generalizing m with
  | nil => rfl
  | cons name' names ih => rw [List.foldl_cons, List.foldl_cons, insertNew_insert, ih]

end ByName

/-- A block in the making without its caption; what it is connected to is left open. -/
structure Draft (α : Type) where
  fields : ByName Field := {}
  values : ByName (Option α) := {}
  statements : ByName (Option α) := {}
  next : Option α := none

inductive Topic where
  | field (name : String)
  | value (name : String)
  | statement (name : String)
  | next
  | shape

namespace Slot

def topic : Slot → Topic
  | .field name _ => .field name
  | .value _ name => .value name
  | .statement _ name => .statement name
  | .next => .next
  | .shape _ _ => .shape

def isSound : Slot → Bool
  | .field _ (.fault _) => false
  | _ => true

end Slot

def Block.draft (b : Block) : Draft Nat := ⟨b.fields, b.values, b.statements, b.next⟩

namespace Draft

variable {α β : Type}

def map (f : α → β) (d : Draft α) : Draft β where
  fields := d.fields
  values := ⟨Sketch.mapInputs f d.values.entries⟩
  statements := ⟨Sketch.mapInputs f d.statements.entries⟩
  next := d.next.map f

def enter (d : Draft α) (link : Option α) : Slot → Draft α
  | .field name (.plain content) => { d with fields := d.fields.insert name content }
  | .field name (.variable id _) => { d with fields := d.fields.insert name (.variable id) }
  | .field _ (.fault _) => d
  | .value _ name => { d with values := d.values.insert name link }
  | .statement _ name => { d with statements := d.statements.insert name link }
  | .next => { d with next := link }
  | .shape elseIfs hasElse =>
    { d with
      values := d.values.declare ((List.range (elseIfs + 1)).map fun k => "IF" ++ toString k)
      statements := d.statements.declare
        ((List.range (elseIfs + 1)).map (fun k => "DO" ++ toString k) ++
          if hasElse then ["ELSE"] else []) }

theorem map_enter (f : α → β) (d : Draft α) (link : Option α) (slot : Slot) :
    (d.enter link slot).map f = (d.map f).enter (link.map f) slot := by
  cases slot with
  | field name entry => cases entry <;> rfl
  | value place name => simp only [enter, map, ByName.insert, Sketch.mapInputs_insertEntry]
  | statement place name => simp only [enter, map, ByName.insert, Sketch.mapInputs_insertEntry]
  | next => rfl
  | shape elseIfs hasElse => simp only [enter, map, Sketch.mapInputs_declare]

theorem enter_comm (d : Draft α) (link link' : Option α) {slot slot' : Slot}
    (h : slot.topic ≠ slot'.topic) :
    (d.enter link slot).enter link' slot' = (d.enter link' slot').enter link slot := by
  cases slot with
  | field name entry =>
    cases slot' with
    | field name' entry' =>
      have hne : name ≠ name' := fun heq => h (congrArg Topic.field heq)
      cases entry <;> cases entry' <;> simp only [enter, d.fields.insert_comm hne]
    | _ => cases entry <;> rfl
  | value place name =>
    cases slot' with
    | field name' entry => cases entry <;> rfl
    | value place' name' =>
      have hne : name ≠ name' := fun heq => h (congrArg Topic.value heq)
      simp only [enter, d.values.insert_comm hne]
    | shape elseIfs hasElse => simp only [enter, ByName.declare_insert]
    | _ => rfl
  | statement place name =>
    cases slot' with
    | field name' entry => cases entry <;> rfl
    | statement place' name' =>
      have hne : name ≠ name' := fun heq => h (congrArg Topic.statement heq)
      simp only [enter, d.statements.insert_comm hne]
    | shape elseIfs hasElse => simp only [enter, ByName.declare_insert]
    | _ => rfl
  | next =>
    cases slot' with
    | field name' entry => cases entry <;> rfl
    | next => exact absurd rfl h
    | _ => rfl
  | shape elseIfs hasElse =>
    cases slot' with
    | field name' entry => cases entry <;> rfl
    | shape elseIfs' hasElse' => exact absurd rfl h
    | next => rfl
    | _ => simp only [enter, ByName.declare_insert]

def tree (caption : Caption) (d : Draft Tree) : Tree :=
  .block
    { id := caption.id.getD "", type := caption.type.getD "", fields := d.fields,
      disabled := caption.disabled }
    d.values.entries d.statements.entries d.next

end Draft

theorem Workspace.unfold_draft {w : Workspace} {i : Nat} {b : Block} (h : w.blocks[i]? = some b)
    (n : Nat) : w.unfold (n + 1) i = (b.draft.map (w.unfold n)).tree b.caption :=
  unfold_succ h n

theorem Slot.enter_of_known (slot : Slot) (b : Block) (link : Option Nat) {w : Workspace}
    (hknown : ∀ m, slot.mention? = some m → (w.variableNames.lookup m.1).isSome = true) :
    (slot.isSound = true ∧ ∃ b', slot.enter b link w = .ok (b', w) ∧
      b'.draft = b.draft.enter link slot ∧ b'.caption = b.caption) ∨
    (slot.isSound = false ∧ ∃ e, slot.enter b link w = .error e) := by
  cases slot with
  | field name entry =>
    cases entry with
    | plain content => exact .inl ⟨rfl, _, rfl, rfl, rfl⟩
    | «variable» id shown =>
      have hsame : w.addVariable id shown = w := if_pos (hknown (id, shown) rfl)
      refine .inl ⟨rfl, b.setField name (.variable id), ?_, rfl, rfl⟩
      exact congrArg (fun w => Except.ok (_, w)) hsame
    | fault f => exact .inr ⟨rfl, _, rfl⟩
  | shape elseIfs hasElse =>
    have hshape := Block.shaped_eq { type := b.type, shape := some (elseIfs, hasElse) } b
    have hcaption := congrArg Block.caption hshape
    exact .inl ⟨rfl, b.declareShape elseIfs hasElse, rfl, congrArg Block.draft hshape, hcaption⟩
  | _ => exact .inl ⟨rfl, _, rfl, rfl, rfl⟩

structure Meaning where
  tree : Tree
  isComplete : Bool
  size : Nat

namespace Meaning

def enter (d : Draft Tree) (p : Slot × Option Meaning) : Draft Tree :=
  d.enter (p.2.map tree) p.1

def isCompletePart (p : Slot × Option Meaning) : Bool := p.2.all isComplete && p.1.isSound

def partSize (p : Slot × Option Meaning) : Nat := (p.2.map size).getD 0

def block (caption : Caption) (parts : List (Slot × Option Meaning)) : Meaning where
  tree := (parts.foldl enter {}).tree caption
  isComplete := caption.type.isSome && parts.all isCompletePart
  size := (parts.map partSize).sum + 1

theorem block_eq_of_perm (caption : Caption) {parts parts' : List (Slot × Option Meaning)}
    (h : parts.Perm parts') (htopics : (parts.map fun p => p.1.topic).Nodup) :
    block caption parts = block caption parts' := by
  have hdraft : parts.foldl enter {} = parts'.foldl enter {} := by
    refine h.foldl_eq' (fun p hp q hq d => ?_) ({} : Draft Tree)
    by_cases heq : p = q
    · rw [heq]
    · exact d.enter_comm _ _ fun htopic => heq (List.inj_on_of_nodup_map htopics hp hq htopic)
  rw [block, block, hdraft, h.all_eq, (h.map partSize).sum_eq]

end Meaning

mutual

def Entry.meaning : Entry → Meaning
  | .malformed => ⟨.missing, false, 0⟩
  | .block caption parts => .block caption (partMeanings parts)

def partMeanings : List (Slot × Option Entry) → List (Slot × Option Meaning)
  | [] => []
  | (slot, link) :: rest => (slot, linkMeaning link) :: partMeanings rest

def linkMeaning : Option Entry → Option Meaning
  | none => none
  | some e => some e.meaning

end

theorem linkMeaning_eq (link : Option Entry) : linkMeaning link = link.map Entry.meaning := by
  cases link <;> rfl

theorem partMeanings_eq (parts : List (Slot × Option Entry)) :
    partMeanings parts = parts.map fun p => (p.1, p.2.map Entry.meaning) := by
  induction parts with
  | nil => rfl
  | cons p parts ih => rw [partMeanings, ih, linkMeaning_eq, List.map_cons]

structure Workspace.Keeps (w w' : Workspace) : Prop where
  variableNames : w'.variableNames = w.variableNames
  blocks : ∀ i < w.size, w'.blocks[i]? = w.blocks[i]?

namespace Workspace

variable {w w' w'' : Workspace} {i : Nat} {t : Tree}

theorem Keeps.refl (w : Workspace) : w.Keeps w := ⟨rfl, fun _ _ => rfl⟩

theorem Keeps.size_le (h : w.Keeps w') : w.size ≤ w'.size := by
  by_contra hle
  have hlt : w'.size < w.size := Nat.lt_of_not_le hle
  have hnone : w'.blocks[w'.size]? = none := Array.getElem?_eq_none (le_refl _)
  rw [h.blocks _ hlt, Array.getElem?_eq_getElem hlt] at hnone
  cases hnone

theorem Keeps.trans (h : w.Keeps w') (h' : w'.Keeps w'') : w.Keeps w'' where
  variableNames := h'.variableNames.trans h.variableNames
  blocks i hi := (h'.blocks i (hi.trans_le h.size_le)).trans (h.blocks i hi)

theorem keeps_add (w : Workspace) (b : Block) : w.Keeps (w.add b) where
  variableNames := rfl
  blocks i hi := by
    rw [add, Array.getElem?_push_lt hi, Array.getElem?_eq_getElem hi]

def Unfolds (w : Workspace) (i : Nat) (t : Tree) : Prop :=
  ∀ w' n, w.Keeps w' → w.size ≤ n → w'.unfold n i = t

def LinkUnfolds (w : Workspace) (link : Option Nat) (t : Option Tree) : Prop :=
  ∀ w' n, w.Keeps w' → w.size ≤ n → link.map (w'.unfold n) = t

theorem Unfolds.of_keeps (h : w.Unfolds i t) (hw : w.Keeps w') : w'.Unfolds i t :=
  fun w'' n hw' hn => h w'' n (hw.trans hw') (hw.size_le.trans hn)

theorem Unfolds.tree_eq (h : w.Unfolds i t) : w.tree i = t := h w w.size (.refl w) (le_refl _)

end Workspace

namespace Build

/--
The outcome of a build. It succeeds for what is complete and then adds as many blocks as it should,
and for all else it fails.
-/
def Comes {α : Type} (isComplete : Bool) (size : Nat) (P : α → Workspace → Prop) (w : Workspace) :
    Except DocumentError (α × Workspace) → Prop
  | .ok (a, w') => isComplete = true ∧ w.Keeps w' ∧ w'.size = w.size + size ∧ P a w'
  | .error _ => isComplete = false

namespace Comes

variable {α β : Type} {isComplete isComplete' : Bool} {size size' : Nat} {P : α → Workspace → Prop}
  {w : Workspace}

theorem pure {a : α} (h : P a w) : Comes true 0 P w (pure (f := Build) a w) :=
  ⟨rfl, .refl w, rfl, h⟩

theorem imp {r : Except DocumentError (α × Workspace)} (h : Comes isComplete size P w r)
    {Q : α → Workspace → Prop} (hPQ : ∀ a w', w.Keeps w' → P a w' → Q a w') :
    Comes isComplete size Q w r := by
  cases r with
  | error e => exact h
  | ok r => exact ⟨h.1, h.2.1, h.2.2.1, hPQ _ _ h.2.1 h.2.2.2⟩

theorem within {x : Build α} (h : Comes isComplete size P w (x w)) (step : DocumentStep) :
    Comes isComplete size P w (x.within step w) := by
  unfold Build.within
  cases hx : x w with
  | error e =>
    rw [hx] at h
    exact h
  | ok r =>
    rw [hx] at h
    exact h

theorem bind {x : Build α} {f : α → Build β} {Q : β → Workspace → Prop}
    (hx : Comes isComplete size P w (x w))
    (hf : ∀ a w', w.Keeps w' → P a w' → Comes isComplete' size' Q w' (f a w')) :
    Comes (isComplete && isComplete') (size + size') Q w ((x >>= f) w) := by
  cases hrun : x w with
  | error e =>
    rw [hrun] at hx
    rw [bind_of_error hrun]
    exact congrArg (· && isComplete') hx
  | ok r =>
    obtain ⟨a, w₁⟩ := r
    rw [hrun] at hx
    obtain ⟨hcomplete, hkeeps, hsize, hP⟩ := hx
    have hrest := hf a w₁ hkeeps hP
    rw [bind_of_ok hrun rfl, hcomplete, Bool.true_and]
    cases hrun' : f a w₁ with
    | error e =>
      rw [hrun'] at hrest
      exact hrest
    | ok r' =>
      rw [hrun'] at hrest
      obtain ⟨hcomplete', hkeeps', hsize', hQ⟩ := hrest
      exact ⟨hcomplete', hkeeps.trans hkeeps', by omega, hQ⟩

end Comes

end Build

inductive Entry.Sure (names : List (String × String)) : Entry → Prop
  | malformed : Sure names .malformed
  | block {caption : Caption} {parts : List (Slot × Option Entry)} :
    caption.id.isSome = true →
    (∀ p ∈ parts, ∀ m, p.1.mention? = some m → (names.lookup m.1).isSome = true) →
    (∀ p ∈ parts, ∀ e, p.2 = some e → Sure names e) → Sure names (.block caption parts)

structure Meaning.Entered (parts : List (Slot × Option Meaning)) (b b' : Block) (w : Workspace) :
    Prop where
  caption : b'.caption = b.caption
  draft : ∀ w' n, w.Keeps w' → w.size ≤ n →
    b'.draft.map (w'.unfold n) = parts.foldl Meaning.enter (b.draft.map (w'.unfold n))

namespace Meaning.Entered

variable {parts parts' : List (Slot × Option Meaning)} {b b₁ b' : Block} {w w' : Workspace}

theorem append (h : Entered parts b b₁ w) (hw : w.Keeps w') (h' : Entered parts' b₁ b' w') :
    Entered (parts ++ parts') b b' w' where
  caption := h'.caption.trans h.caption
  draft w'' n hw' hn := by
    rw [List.foldl_append, ← h.draft w'' n (hw.trans hw') (hw.size_le.trans hn)]
    exact h'.draft w'' n hw' hn

theorem unfolds_add {id type : String} {disabled : Bool}
    (h : Entered parts { id, type, disabled } b w) :
    (w.add b).Unfolds w.size (Meaning.block ⟨id, type, disabled⟩ parts).tree := by
  intro w' n hw' hn
  have hsize : (w.add b).size = w.size + 1 := Array.size_push ..
  obtain ⟨n, rfl⟩ : ∃ m, n = m + 1 := ⟨n - 1, by omega⟩
  have hb : w'.blocks[w.size]? = some b := by
    rw [hw'.blocks _ (by omega)]
    exact Array.getElem?_push_size
  rw [Workspace.unfold_draft hb, h.draft w' n ((w.keeps_add b).trans hw') (by omega), h.caption]
  rfl

end Meaning.Entered

open Build

theorem Slot.comes_enter {slot : Slot} {b : Block} {link : Option Nat} {m : Option Meaning}
    {w : Workspace}
    (hknown : ∀ m, slot.mention? = some m → (w.variableNames.lookup m.1).isSome = true)
    (hlink : w.LinkUnfolds link (m.map Meaning.tree)) :
    Comes slot.isSound 0 (fun b' w' => Meaning.Entered [(slot, m)] b b' w') w
      (slot.enter b link w) := by
  rcases slot.enter_of_known b link hknown with
    ⟨hsound, b', henter, hdraft, hcaption⟩ | ⟨hsound, e, henter⟩
  · rw [henter]
    refine ⟨hsound, .refl w, rfl, hcaption, fun w' n hw' hn => ?_⟩
    rw [hdraft, Draft.map_enter, hlink w' n hw' hn]
    rfl
  · rw [henter]
    exact hsound

mutual

theorem Entry.comes_build : ∀ (e : Entry) {w : Workspace}, e.Sure w.variableNames →
    Comes e.meaning.isComplete e.meaning.size (fun i w' => w'.Unfolds i e.meaning.tree) w
      (e.build w)
  | .malformed, w, _ => by
    rw [Entry.build]
    exact rfl
  | .block ⟨id, type, disabled⟩ parts, w, .block hid hmentions hlinks => by
    obtain ⟨id, rfl⟩ := Option.isSome_iff_exists.1 hid
    cases type with
    | none =>
      rw [Entry.build_of_no_type rfl]
      exact rfl
    | some type =>
      rw [Entry.build_of_type rfl]
      have hadd (b : Block) (w₁ : Workspace)
          (hb : Meaning.Entered (partMeanings parts) { id, type, disabled } b w₁) :
          Comes true 1
            (fun i w' => w'.Unfolds i (Entry.block ⟨id, type, disabled⟩ parts).meaning.tree) w₁
            (.ok (w₁.size, w₁.add b)) :=
        ⟨rfl, w₁.keeps_add b, Array.size_push .., hb.unfolds_add⟩
      have hall := (comes_buildParts id parts hmentions hlinks).bind
        (f := fun b => modifyGet fun w => (w.size, w.add b)) fun b w₁ _ => hadd b w₁
      rw [Bool.and_true] at hall
      exact hall

theorem comes_buildParts (id : String) : ∀ (parts : List (Slot × Option Entry)) {b : Block}
    {w : Workspace},
    (∀ p ∈ parts, ∀ m, p.1.mention? = some m → (w.variableNames.lookup m.1).isSome = true) →
    (∀ p ∈ parts, ∀ e, p.2 = some e → e.Sure w.variableNames) →
    Comes ((partMeanings parts).all Meaning.isCompletePart)
      ((partMeanings parts).map Meaning.partSize).sum
      (fun b' w' => Meaning.Entered (partMeanings parts) b b' w') w (buildParts id parts b w)
  | [], b, w, _, _ => .pure ⟨rfl, fun _ _ _ _ => rfl⟩
  | (slot, link) :: rest, b, w, hmentions, hlinks => by
    obtain ⟨hslot, hrest⟩ := List.forall_mem_cons.1 hmentions
    obtain ⟨hlink, hlinks⟩ := List.forall_mem_cons.1 hlinks
    have hfirst := ((comes_buildLink link hlink).bind (f := fun i => slot.enter b i)
      fun i w₁ hw₁ hi => Slot.comes_enter (hw₁.variableNames ▸ hslot) hi).within (slot.step id)
    have hall := hfirst.bind (f := fun b => buildParts id rest b) fun b₁ w₂ hw₂ hb₁ =>
      (comes_buildParts id rest (hw₂.variableNames ▸ hrest) (hw₂.variableNames ▸ hlinks)).imp
        fun b' w' hw' hb' => hb₁.append hw' hb'
    rw [buildParts]
    exact hall

theorem comes_buildLink : ∀ (link : Option Entry) {w : Workspace},
    (∀ e, link = some e → e.Sure w.variableNames) →
    Comes ((linkMeaning link).all Meaning.isComplete)
      (((linkMeaning link).map Meaning.size).getD 0)
      (fun i w' => w'.LinkUnfolds i ((linkMeaning link).map Meaning.tree)) w (buildLink link w)
  | none, w, _ => .pure fun _ _ _ _ => rfl
  | some e, w, h => by
    have hsome (i : Nat) (w₁ : Workspace) (hi : w₁.Unfolds i e.meaning.tree) :
        Comes true 0 (fun i w' => w'.LinkUnfolds i (some e.meaning.tree)) w₁
          (pure (f := Build) (some i) w₁) :=
      .pure fun w' n hw' hn => congrArg some (hi w' n hw' hn)
    have hall := (e.comes_build (h e rfl)).bind (f := fun i => pure (some i)) fun i w₁ _ =>
      hsome i w₁
    rw [Bool.and_true] at hall
    rw [buildLink, map_eq_pure_bind]
    exact hall

end

def Top.meaning (t : Top) : (Int × Int) × Meaning := ((t.row, t.column), t.entry.meaning)

namespace Document

def treesInOrder (tops : List ((Int × Int) × Meaning)) : List Tree :=
  (tops.mergeSort fun a b => a.1.1 < b.1.1 || (a.1.1 == b.1.1 && a.1.2 ≤ b.1.2)).map fun t =>
    t.2.tree

theorem map_tree_mergeSort {w : Workspace} {placed : List (Top × Nat)}
    (h : ∀ p ∈ placed, w.tree p.2 = p.1.entry.meaning.tree) :
    ((placed.mergeSort fun a b => a.1.before b.1).map Prod.snd).map w.tree =
      treesInOrder (placed.map fun p => p.1.meaning) := by
  have hsort := List.map_mergeSort (r := fun a b => a.1.before b.1)
    (s := fun a b => a.1.1 < b.1.1 || (a.1.1 == b.1.1 && a.1.2 ≤ b.1.2))
    (f := fun p : Top × Nat => p.1.meaning) (l := placed) fun _ _ _ _ => rfl
  rw [treesInOrder, ← hsort, List.map_map, List.map_map]
  exact List.map_congr_left fun p hp => h p (List.mem_mergeSort.1 hp)

structure Placed (tops : List Top) (placed : List (Top × Nat)) (w : Workspace) : Prop where
  tops : placed.map Prod.fst = tops
  trees : ∀ p ∈ placed, w.Unfolds p.2 p.1.entry.meaning.tree

theorem Placed.cons {top : Top} {tops : List Top} {placed : List (Top × Nat)} {i : Nat}
    {w : Workspace} (h : Placed tops placed w) (hi : w.Unfolds i top.entry.meaning.tree) :
    Placed (top :: tops) ((top, i) :: placed) w where
  tops := congrArg (top :: ·) h.tops
  trees := List.forall_mem_cons.2 ⟨hi, h.trees⟩

theorem comes_buildTops : ∀ (tops : List Top) {w : Workspace},
    (∀ t ∈ tops, t.entry.Sure w.variableNames) →
    Comes (tops.all fun t => t.entry.meaning.isComplete)
      (tops.map fun t => t.entry.meaning.size).sum (Placed tops) w (buildTops tops w)
  | [], w, _ => .pure ⟨rfl, by simp⟩
  | top :: tops, w, h => by
    obtain ⟨htop, htops⟩ := List.forall_mem_cons.1 h
    have hmore (i : Nat) (w₁ : Workspace) (hw₁ : w.Keeps w₁)
        (hi : w₁.Unfolds i top.entry.meaning.tree) := by
      have hcomes := (comes_buildTops tops (hw₁.variableNames ▸ htops)).bind
        (f := fun more => pure ((top, i) :: more)) fun more w₂ hw₂ hplaced =>
          .pure (hplaced.cons (hi.of_keeps hw₂))
      rwa [Bool.and_true] at hcomes
    rw [buildTops]
    exact (top.entry.comes_build htop).bind hmore

structure Means (tops : List ((Int × Int) × Meaning)) (names : List (String × String))
    (w : Workspace) : Prop where
  variableNames : w.variableNames = names
  size : w.size = (tops.map fun t => t.2.size).sum
  roots : w.roots.length = tops.length
  rootTrees : w.rootTrees = treesInOrder tops

theorem means_workspace {d : Document} {tops : List Top} {w₁ : Workspace} (hd : d.tops = some tops)
    (hvariables : addVariables d.variableEntries {} = .ok ((), w₁))
    (hsure : ∀ t ∈ tops, t.entry.Sure w₁.variableNames) :
    if (tops.map Top.meaning).all (·.2.isComplete) then
      ∃ w, d.workspace = .ok w ∧ Means (tops.map Top.meaning) w₁.variableNames w
    else ∃ e, d.workspace = .error e := by
  have hsize : w₁.size = 0 := congrArg Array.size (addVariables_state _ hvariables).1
  have hall : (tops.map Top.meaning).all (·.2.isComplete) =
      tops.all fun t => t.entry.meaning.isComplete := List.all_map
  have hcomes := comes_buildTops tops hsure
  cases hplaced : buildTops tops w₁ with
  | error e =>
    have hbuild : d.build {} = .error e := by
      refine bind_of_ok hvariables ?_
      rw [hd]
      exact bind_of_error hplaced _
    rw [hplaced, ← hall] at hcomes
    rw [if_neg (Bool.eq_false_iff.1 hcomes)]
    refine ⟨e, ?_⟩
    change (d.build {}).bind (fun r => .ok r.2) = _
    rw [hbuild]
    rfl
  | ok r =>
    obtain ⟨placed, w₂⟩ := r
    let w : Workspace :=
      { w₂ with roots := (placed.mergeSort fun a b => a.1.before b.1).map Prod.snd }
    have hbuild : d.build {} = .ok ((), w) := by
      refine bind_of_ok hvariables ?_
      rw [hd]
      exact bind_of_ok hplaced rfl
    rw [hplaced, ← hall] at hcomes
    obtain ⟨hcomplete, hkeeps, hsize₂, rfl, htrees⟩ := hcomes
    rw [if_pos hcomplete]
    -- The roots are put in order last, which leaves the blocks and their trees as they are.
    have hw : w₂.Keeps w := ⟨rfl, fun _ _ => rfl⟩
    refine ⟨w, ?_, hkeeps.variableNames, ?_, ?_, ?_⟩
    · change (d.build {}).bind (fun r => .ok r.2) = _
      rw [hbuild]
      rfl
    · rw [List.map_map]
      exact hsize₂.trans (by rw [hsize, Nat.zero_add]; rfl)
    · simp [w]
    · rw [List.map_map]
      exact map_tree_mergeSort fun p hp => ((htrees p hp).of_keeps hw).tree_eq

end Document

end BlockCode
