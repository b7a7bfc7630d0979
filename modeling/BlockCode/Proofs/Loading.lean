import BlockCode.Document.OfJson
import BlockCode.Document.OfXml
import BlockCode.Proofs.Workspaces

namespace BlockCode

inductive Connection where
  | value (name : String)
  | statement (name : String)
  | next
  deriving DecidableEq

def Slot.connection? : Slot → Option Connection
  | .value _ name => some (.value name)
  | .statement _ name => some (.statement name)
  | .next => some .next
  | .field _ _ | .shape _ _ => none

def Block.link? (b : Block) : Connection → Option Nat
  | .value name => b.value? name
  | .statement name => b.statement? name
  | .next => b.next

/-- What a block says of a connection: nothing, or the link that it has or has not. -/
def Block.declared? (b : Block) : Connection → Option (Option Nat)
  | .value name => b.values.get? name
  | .statement name => b.statements.get? name
  | .next => some b.next

theorem Block.link?_eq (b : Block) (k : Connection) : b.link? k = (b.declared? k).join := by
  cases k <;> rfl

def Block.connect (b : Block) (link : Option Nat) : Connection → Block
  | .value name => b.setValue name link
  | .statement name => b.setStatement name link
  | .next => { b with next := link }

namespace ByName

theorem links_insert (m : ByName (Option Nat)) (name : String) (link : Option Nat) :
    ∃ dropped, ((m.insert name link).links ++ dropped).Perm (m.links ++ link.toList) ∧
      ((m.get? name).join = none → dropped = []) := by
  obtain ⟨entries⟩ := m
  simp only [links, insert, get?]
  induction entries with
  | nil => exact ⟨[], by simp [insertEntry], fun _ => rfl⟩
  | cons e es ih =>
    obtain ⟨n, old⟩ := e
    rw [insertEntry]
    split
    · refine ⟨[], List.perm_iff_count.2 fun i => ?_, fun _ => rfl⟩
      simp only [List.flatMap_cons, List.count_append, List.count_nil]
      omega
    · split
      · next heq =>
        refine ⟨old.toList, List.perm_iff_count.2 fun i => ?_, fun hold => ?_⟩
        · simp only [List.flatMap_cons, List.count_append]
          omega
        · rw [heq, List.lookup_cons_self, Option.join_some] at hold
          rw [hold, Option.toList_none]
      · next hne =>
        obtain ⟨dropped, hperm, hdropped⟩ := ih
        refine ⟨dropped, List.perm_iff_count.2 fun i => ?_, fun hold => hdropped ?_⟩
        · have hcount := List.perm_iff_count.1 hperm i
          simp only [List.flatMap_cons, List.count_append] at hcount ⊢
          omega
        · rwa [lookup_cons_eq, if_neg hne] at hold

theorem links_insert_none {m : ByName (Option Nat)} {name : String} (h : m.get? name = none) :
    (m.insert name none).links = m.links := by
  obtain ⟨entries⟩ := m
  simp only [links, insert, get?] at h ⊢
  induction entries with
  | nil => rfl
  | cons e es ih =>
    obtain ⟨n, old⟩ := e
    rw [lookup_cons_eq] at h
    rw [insertEntry]
    split
    · rfl
    · split
      · next heq => simp [heq] at h
      · next hne =>
        rw [if_neg hne] at h
        rw [List.flatMap_cons, List.flatMap_cons, ih h]

theorem links_insertNew_none (m : ByName (Option Nat)) (name : String) :
    (m.insertNew name none).links = m.links := by
  unfold insertNew
  split
  · rfl
  · next h => exact links_insert_none (by simpa [contains] using h)

theorem join_get?_insertNew_none (m : ByName (Option Nat)) (name n : String) :
    ((m.insertNew name none).get? n).join = (m.get? n).join := by
  rw [get?_insertNew]
  cases m.get? n with
  | none => split <;> rfl
  | some link => rfl

end ByName

namespace Block

@[simp] theorem links_declareArm (b : Block) (n : Nat) : (b.declareArm n).links = b.links := by
  simp only [declareArm, links, ByName.links_insertNew_none]

@[simp] theorem link?_declareArm (b : Block) (n : Nat) (k : Connection) :
    (b.declareArm n).link? k = b.link? k := by
  cases k <;> simp only [declareArm, link?, value?, statement?, ByName.join_get?_insertNew_none]

theorem declareShape_links (b : Block) (elseIfs : Nat) (hasElse : Bool) :
    (b.declareShape elseIfs hasElse).links = b.links ∧
      ∀ k, (b.declareShape elseIfs hasElse).link? k = b.link? k := by
  have harms : ∀ (ns : List Nat) (b : Block), (ns.foldl declareArm b).links = b.links ∧
      ∀ k, (ns.foldl declareArm b).link? k = b.link? k := by
    intro ns
    induction ns with
    | nil => exact fun b => ⟨rfl, fun k => rfl⟩
    | cons n ns ih =>
      intro b
      obtain ⟨hlinks, hlink⟩ := ih (b.declareArm n)
      exact ⟨hlinks.trans (b.links_declareArm n), fun k => (hlink k).trans (b.link?_declareArm n k)⟩
  obtain ⟨hlinks, hlink⟩ := harms (List.range (elseIfs + 1)) b
  unfold declareShape
  split
  · refine ⟨?_, fun k => ?_⟩
    · rw [← hlinks]
      simp only [links, ByName.links_insertNew_none]
    · rw [← hlink k]
      cases k <;> simp only [link?, value?, statement?, ByName.join_get?_insertNew_none]
  · exact ⟨hlinks, hlink⟩

end Block

structure Slot.Fits (slot : Slot) (b : Block) (link : Option Nat) : Prop where
  unconnected : ∀ k, slot.connection? = some k → b.link? k = none
  unused : slot.connection? = none → link = none

theorem Block.declared?_connect (b : Block) (link : Option Nat) (k k' : Connection) :
    (b.connect link k).declared? k' = if k' = k then some link else b.declared? k' := by
  cases k <;> cases k' <;> simp [connect, declared?, setValue, setStatement]

theorem Block.link?_connect_of_ne (b : Block) (link : Option Nat) {k k' : Connection} (h : k' ≠ k) :
    (b.connect link k).link? k' = b.link? k' := by
  rw [link?_eq, declared?_connect, if_neg h, link?_eq]

theorem Block.connect_links (b : Block) (link : Option Nat) (k : Connection) :
    ∃ dropped, ((b.connect link k).links ++ dropped).Perm (b.links ++ link.toList) ∧
      (b.link? k = none → dropped = []) := by
  cases k with
  | value name =>
    obtain ⟨dropped, hperm, hdropped⟩ := b.values.links_insert name link
    refine ⟨dropped, List.perm_iff_count.2 fun i => ?_, hdropped⟩
    have hcount := List.perm_iff_count.1 hperm i
    simp only [links, connect, setValue, List.count_append] at hcount ⊢
    omega
  | statement name =>
    obtain ⟨dropped, hperm, hdropped⟩ := b.statements.links_insert name link
    refine ⟨dropped, List.perm_iff_count.2 fun i => ?_, hdropped⟩
    have hcount := List.perm_iff_count.1 hperm i
    simp only [links, connect, setStatement, List.count_append] at hcount ⊢
    omega
  | next =>
    refine ⟨b.next.toList, List.perm_iff_count.2 fun i => ?_, fun h => ?_⟩
    · simp only [links, connect, List.count_append]
      omega
    · simp only [link?] at h
      rw [h, Option.toList_none]

theorem Slot.enter_plain {slot : Slot} (hslot : slot.connection? = none) {b b' : Block}
    {link : Option Nat} {w w' : Workspace} (h : slot.enter b link w = .ok (b', w')) :
    b'.links = b.links ∧ ∀ k, b'.link? k = b.link? k := by
  cases slot with
  | field name entry =>
    cases entry with
    | fault f => cases h
    | _ =>
      cases h
      exact ⟨rfl, fun k => by cases k <;> rfl⟩
  | shape elseIfs hasElse =>
    cases h
    exact b.declareShape_links elseIfs hasElse
  | _ => cases hslot

theorem Slot.enter_of_connection {slot : Slot} {k : Connection} (hslot : slot.connection? = some k)
    (b : Block) (link : Option Nat) (w : Workspace) :
    slot.enter b link w = .ok (b.connect link k, w) := by
  cases slot <;> cases hslot <;> rfl

theorem Slot.enter_links {slot : Slot} {b b' : Block} {link : Option Nat} {w w' : Workspace}
    (h : slot.enter b link w = .ok (b', w')) :
    (∀ k, slot.connection? ≠ some k → b'.link? k = b.link? k) ∧
    ∃ dropped, (b'.links ++ dropped).Perm (b.links ++ link.toList) ∧
      (slot.Fits b link → dropped = []) := by
  cases hslot : slot.connection? with
  | none =>
    obtain ⟨hlinks, hkeep⟩ := enter_plain hslot h
    exact ⟨fun k _ => hkeep k, link.toList, by rw [hlinks],
      fun hfits => by simp [hfits.unused hslot]⟩
  | some k =>
    rw [enter_of_connection hslot] at h
    cases h
    obtain ⟨dropped, hperm, hdropped⟩ := b.connect_links link k
    exact ⟨fun k' hk => b.link?_connect_of_ne link fun heq => hk (heq ▸ rfl), dropped, hperm,
      fun hfits => hdropped (hfits.unconnected k hslot)⟩

@[simp] theorem Workspace.blocks_addVariable (w : Workspace) (id name : String) :
    (w.addVariable id name).blocks = w.blocks := by
  unfold addVariable
  split <;> rfl

@[simp] theorem Workspace.roots_addVariable (w : Workspace) (id name : String) :
    (w.addVariable id name).roots = w.roots := by
  unfold addVariable
  split <;> rfl

theorem Slot.enter_state {slot : Slot} {b b' : Block} {link : Option Nat} {w w' : Workspace}
    (h : slot.enter b link w = .ok (b', w')) : w'.blocks = w.blocks ∧ w'.roots = w.roots := by
  cases slot with
  | field name entry =>
    cases entry with
    | plain content =>
      cases h
      exact ⟨rfl, rfl⟩
    | «variable» id shown =>
      cases h
      exact ⟨w.blocks_addVariable id shown, w.roots_addVariable id shown⟩
    | fault f => cases h
  | _ =>
    cases h
    exact ⟨rfl, rfl⟩

/--
The second workspace has further blocks at its end. Each of their positions is either the target of
one link from a further block, or it is among those that are free, or its link was lost.
-/
structure Workspace.Grows (w w' : Workspace) (new : List Block) (free lost : List Nat) : Prop where
  blocks : w'.blocks.toList = w.blocks.toList ++ new
  roots : w'.roots = w.roots
  links_lt : ∀ (k : Nat) (b : Block), new[k]? = some b → ∀ j ∈ b.links, j < w.size + k
  targets : (lost ++ free ++ new.flatMap Block.links).Perm (List.range' w.size new.length)

namespace Workspace.Grows

variable {w w' w'' : Workspace} {new new' : List Block} {free free' lost lost' : List Nat}

theorem size (h : w.Grows w' new free lost) : w'.size = w.size + new.length := by
  simpa [Workspace.size] using congrArg List.length h.blocks

theorem same (hblocks : w'.blocks = w.blocks) (hroots : w'.roots = w.roots) :
    w.Grows w' [] [] [] :=
  ⟨by simp [hblocks], hroots, by simp, by simp⟩

theorem trans (h : w.Grows w' new free lost) (h' : w'.Grows w'' new' free' lost') :
    w.Grows w'' (new ++ new') (free ++ free') (lost ++ lost') where
  blocks := by rw [h'.blocks, h.blocks, List.append_assoc]
  roots := h'.roots.trans h.roots
  links_lt k b hb j hj := by
    rw [List.getElem?_append] at hb
    split at hb
    · exact h.links_lt k b hb j hj
    · next hk =>
      have hlt := h'.links_lt _ b hb j hj
      have hsize := h.size
      omega
  targets := by
    have happend : List.range' w.size (new ++ new').length =
        List.range' w.size new.length ++ List.range' w'.size new'.length := by
      rw [List.length_append, h.size, List.range'_append_1]
    rw [happend]
    refine List.Perm.trans (List.perm_iff_count.2 fun i => ?_) (h.targets.append h'.targets)
    simp only [List.flatMap_append, List.count_append]
    omega

theorem perm (h : w.Grows w' new free lost) (hfree : free.Perm free') :
    w.Grows w' new free' lost where
  blocks := h.blocks
  roots := h.roots
  links_lt := h.links_lt
  targets := ((hfree.append_left lost).append_right _).symm.trans h.targets

theorem add (h : w.Grows w' new free lost) {b : Block} {dropped : List Nat}
    (hb : (b.links ++ dropped).Perm free) :
    w.Grows (w'.add b) (new ++ [b]) [w'.size] (dropped ++ lost) where
  blocks := by simp [Workspace.add, h.blocks]
  roots := h.roots
  links_lt k b' hb' j hj := by
    rw [List.getElem?_append] at hb'
    split at hb'
    · exact h.links_lt k b' hb' j hj
    · next hk =>
      obtain ⟨hk', rfl⟩ : k = new.length ∧ b = b' := by
        have := List.getElem?_eq_some_iff.1 hb'
        grind
      -- The block itself: all that it links to was free, and what is free lies before it.
      have hfree : j ∈ free := hb.subset (List.mem_append_left _ hj)
      have hrange := h.targets.subset (List.mem_append_left _ (List.mem_append_right _ hfree))
      have := List.mem_range'_1.1 hrange
      omega
  targets := by
    have happend : List.range' w.size (new ++ [b]).length =
        List.range' w.size new.length ++ [w'.size] := by
      rw [List.length_append, List.length_singleton, ← List.range'_append_1, h.size]
      rfl
    rw [happend]
    refine List.Perm.trans (List.perm_iff_count.2 fun i => ?_)
      (h.targets.append (List.Perm.refl [w'.size]))
    have hcount := List.perm_iff_count.1 hb i
    simp only [List.flatMap_append, List.flatMap_singleton, List.count_append] at hcount ⊢
    omega

end Workspace.Grows

namespace Build

variable {α β : Type}

theorem bind_ok {x : Build α} {f : α → Build β} {w w' : Workspace} {b : β}
    (h : (x >>= f) w = .ok (b, w')) : ∃ a w'', x w = .ok (a, w'') ∧ f a w'' = .ok (b, w') := by
  change (x w).bind (fun r => f r.1 r.2) = .ok (b, w') at h
  cases hx : x w with
  | error e =>
    rw [hx] at h
    cases h
  | ok r =>
    rw [hx] at h
    exact ⟨r.1, r.2, rfl, h⟩

theorem within_ok {step : DocumentStep} {act : Build α} {w w' : Workspace} {a : α}
    (h : act.within step w = .ok (a, w')) : act w = .ok (a, w') := by
  unfold within at h
  split at h
  · next hact => rw [hact, h]
  · cases h

theorem bind_of_ok {x : Build α} {f : α → Build β} {w w' : Workspace} {a : α}
    {r : Except DocumentError (β × Workspace)} (hx : x w = .ok (a, w')) (hf : f a w' = r) :
    (x >>= f) w = r := by
  change (x w).bind _ = r
  rw [hx]
  exact hf

theorem bind_of_error {x : Build α} {w : Workspace} {e : DocumentError} (hx : x w = .error e)
    (f : α → Build β) : (x >>= f) w = .error e := by
  change (x w).bind _ = _
  rw [hx]
  rfl

theorem within_of_ok {x : Build α} {w w' : Workspace} {a : α} (hx : x w = .ok (a, w'))
    (step : DocumentStep) : x.within step w = .ok (a, w') := by
  rw [within, hx]

end Build

def connections (parts : List (Slot × Option Entry)) : List Connection :=
  parts.filterMap fun part => part.1.connection?

theorem connections_cons (slot : Slot) (entry : Option Entry) (rest : List (Slot × Option Entry)) :
    connections ((slot, entry) :: rest) = slot.connection?.toList ++ connections rest := by
  cases h : slot.connection? <;> simp [connections, h]

mutual

def Entry.Every (P : List (Slot × Option Entry) → Prop) : Entry → Prop
  | .malformed => True
  | .block _ parts => P parts ∧ EveryPart P parts

def EveryPart (P : List (Slot × Option Entry) → Prop) : List (Slot × Option Entry) → Prop
  | [] => True
  | (_, none) :: rest => EveryPart P rest
  | (_, some e) :: rest => e.Every P ∧ EveryPart P rest

end

theorem EveryPart.cons {P : List (Slot × Option Entry) → Prop} {part : Slot × Option Entry}
    {rest : List (Slot × Option Entry)} (h : EveryPart P (part :: rest)) :
    (∀ e, part.2 = some e → e.Every P) ∧ EveryPart P rest := by
  obtain ⟨slot, entry⟩ := part
  cases entry with
  | none => exact ⟨by simp, h⟩
  | some e => exact ⟨fun _ he => Option.some.inj he ▸ h.1, h.2⟩

structure Separate (parts : List (Slot × Option Entry)) : Prop where
  nodup : (connections parts).Nodup
  plain : ∀ part ∈ parts, part.1.connection? = none → part.2 = none

open Workspace

theorem Entry.build_of_no_type {caption : Caption} {parts : List (Slot × Option Entry)}
    (h : caption.type = none) (w : Workspace) : (Entry.block caption parts).build w =
      .error ⟨[], .missingType (caption.id.getD w.madeUpId)⟩ := by
  rw [build]
  simp only [h]
  rfl

theorem Entry.build_of_type {caption : Caption} {parts : List (Slot × Option Entry)}
    {type : String} (h : caption.type = some type) (w : Workspace) :
    (Entry.block caption parts).build w =
      (do
        let id := caption.id.getD w.madeUpId
        let b ← buildParts id parts { id, type, disabled := caption.disabled }
        modifyGet fun w => (w.size, w.add b) : Build Nat) w := by
  rw [build]
  simp only [h]
  rfl

theorem Entry.build_ok {caption : Caption} {parts : List (Slot × Option Entry)}
    {w w' : Workspace} {i : Nat} (h : (Entry.block caption parts).build w = .ok (i, w')) :
    ∃ type b w₁, caption.type = some type ∧
      buildParts (caption.id.getD w.madeUpId) parts
        { id := caption.id.getD w.madeUpId, type, disabled := caption.disabled } w = .ok (b, w₁) ∧
      i = w₁.size ∧ w' = w₁.add b := by
  cases htype : caption.type with
  | none => simp [build_of_no_type htype] at h
  | some type =>
    rw [build_of_type htype] at h
    obtain ⟨b, w₁, hparts, h⟩ := Build.bind_ok h
    cases h
    exact ⟨type, b, w₁, rfl, hparts, rfl, rfl⟩

theorem buildParts_cons_ok {id : String} {slot : Slot} {entry : Option Entry}
    {rest : List (Slot × Option Entry)} {b b' : Block} {w w' : Workspace}
    (h : buildParts id ((slot, entry) :: rest) b w = .ok (b', w')) :
    ∃ link w₁ b₁ w₂, buildLink entry w = .ok (link, w₁) ∧ slot.enter b link w₁ = .ok (b₁, w₂) ∧
      buildParts id rest b₁ w₂ = .ok (b', w') := by
  rw [buildParts] at h
  obtain ⟨b₁, w₂, hslot, hrest⟩ := Build.bind_ok h
  obtain ⟨link, w₁, hlink, henter⟩ := Build.bind_ok (Build.within_ok hslot)
  exact ⟨link, w₁, b₁, w₂, hlink, henter, hrest⟩

theorem buildLink_some_ok {e : Entry} {link : Option Nat} {w w' : Workspace}
    (h : buildLink (some e) w = .ok (link, w')) :
    ∃ i, link = some i ∧ e.build w = .ok (i, w') := by
  rw [buildLink, map_eq_pure_bind] at h
  obtain ⟨i, w₁, hbuild, h⟩ := Build.bind_ok h
  cases h
  exact ⟨i, rfl, hbuild⟩

mutual

theorem Entry.grows_build : ∀ (e : Entry) {w w' : Workspace} {i : Nat}, e.build w = .ok (i, w') →
    ∃ new lost, w.Grows w' new [i] lost ∧ (e.Every Separate → lost = [])
  | .malformed, w, w', i, h => by simp [Entry.build, Build.fail] at h
  | .block caption parts, w, w', i, h => by
    obtain ⟨type, b, w₁, -, hparts, rfl, rfl⟩ := Entry.build_ok h
    obtain ⟨new, free, lost, dropped, hgrows, hperm, hseparate⟩ := grows_buildParts _ parts hparts
    refine ⟨_, _, hgrows.add hperm, fun hsep => ?_⟩
    obtain ⟨rfl, rfl⟩ := hseparate hsep.2 hsep.1 fun k _ => by cases k <;> rfl
    rfl

theorem grows_buildParts (id : String) : ∀ (parts : List (Slot × Option Entry)) {b b' : Block}
    {w w' : Workspace}, buildParts id parts b w = .ok (b', w') →
    ∃ new free lost dropped, w.Grows w' new free lost ∧
      (b'.links ++ dropped).Perm (b.links ++ free) ∧
      (EveryPart Separate parts → Separate parts →
        (∀ k ∈ connections parts, b.link? k = none) → lost = [] ∧ dropped = [])
  | [], b, b', w, w', h => by
    cases h
    exact ⟨[], [], [], [], .same rfl rfl, by simp, fun _ _ _ => ⟨rfl, rfl⟩⟩
  | (slot, entry) :: rest, b, b', w, w', h => by
    obtain ⟨link, w₂, b₁, w₁, hlink, henter, hrest⟩ := buildParts_cons_ok h
    obtain ⟨new, lost, hgrows, hlost⟩ := grows_buildLink entry hlink
    obtain ⟨hblocks, hroots⟩ := Slot.enter_state henter
    obtain ⟨hkeep, dropped, hperm, hdropped⟩ := Slot.enter_links henter
    obtain ⟨new', free', lost', dropped', hgrows', hperm', hseparate⟩ :=
      grows_buildParts id rest hrest
    refine ⟨new ++ new', link.toList ++ free', lost ++ lost', dropped ++ dropped', ?_, ?_, ?_⟩
    · simpa using (hgrows.trans (.same hblocks hroots)).trans hgrows'
    · refine List.perm_iff_count.2 fun i => ?_
      have hcount := List.perm_iff_count.1 hperm i
      have hcount' := List.perm_iff_count.1 hperm' i
      simp only [List.count_append] at hcount hcount' ⊢
      omega
    · intro hevery hsep hfree
      obtain ⟨hentry, hrest'⟩ := hevery.cons
      obtain ⟨hnodup, hplain⟩ := hsep
      rw [connections_cons] at hnodup hfree
      obtain ⟨-, hnodup', hdisjoint⟩ := List.nodup_append.1 hnodup
      rw [List.forall_mem_append] at hfree
      rw [List.forall_mem_cons] at hplain
      -- Nothing is connected in the place of this part yet, and none of the later parts goes there.
      have hfits : slot.Fits b link :=
        ⟨fun k hk => hfree.1 k (by simp [hk]), fun hnone => by
          obtain rfl := hplain.1 hnone
          cases hlink
          rfl⟩
      have hfree' : ∀ k ∈ connections rest, b₁.link? k = none := fun k hk => by
        rw [hkeep k fun heq => hdisjoint k (by simp [heq]) k hk rfl]
        exact hfree.2 k hk
      obtain ⟨rfl, rfl⟩ := hseparate hrest' ⟨hnodup', hplain.2⟩ hfree'
      rw [hlost hentry, hdropped hfits]
      exact ⟨rfl, rfl⟩

theorem grows_buildLink : ∀ (entry : Option Entry) {w w' : Workspace} {link : Option Nat},
    buildLink entry w = .ok (link, w') →
    ∃ new lost, w.Grows w' new link.toList lost ∧
      ((∀ e, entry = some e → e.Every Separate) → lost = [])
  | none, w, w', link, h => by
    cases h
    exact ⟨[], [], .same rfl rfl, fun _ => rfl⟩
  | some e, w, w', link, h => by
    obtain ⟨i, rfl, hbuild⟩ := buildLink_some_ok h
    obtain ⟨new, lost, hgrows, hlost⟩ := e.grows_build hbuild
    exact ⟨new, lost, hgrows, fun hsep => hlost (hsep e rfl)⟩

end

namespace Document

theorem addVariables_state : ∀ (entries : List (Option (String × String))) {w w' : Workspace},
    addVariables entries w = .ok ((), w') → w'.blocks = w.blocks ∧ w'.roots = w.roots
  | [], w, w', h => by
    cases h
    exact ⟨rfl, rfl⟩
  | none :: rest, w, w', h => by cases h
  | some (id, name) :: rest, w, w', h => by
    obtain ⟨hblocks, hroots⟩ := addVariables_state rest (w := w.addVariable id name) h
    exact ⟨hblocks.trans (w.blocks_addVariable id name), hroots.trans (w.roots_addVariable id name)⟩

theorem buildTops_cons_ok {top : Top} {tops : List Top} {placed : List (Top × Nat)}
    {w w' : Workspace} (h : buildTops (top :: tops) w = .ok (placed, w')) :
    ∃ i w₁ more, top.entry.build w = .ok (i, w₁) ∧ buildTops tops w₁ = .ok (more, w') ∧
      placed = (top, i) :: more := by
  rw [buildTops] at h
  obtain ⟨i, w₁, htop, h⟩ := Build.bind_ok h
  obtain ⟨more, w₂, htops, h⟩ := Build.bind_ok h
  cases h
  exact ⟨i, w₁, more, htop, htops, rfl⟩

theorem grows_buildTops : ∀ (tops : List Top) {w w' : Workspace} {placed : List (Top × Nat)},
    buildTops tops w = .ok (placed, w') →
    placed.map Prod.fst = tops ∧ ∃ new lost, w.Grows w' new (placed.map Prod.snd) lost ∧
      ((∀ top ∈ tops, top.entry.Every Separate) → lost = [])
  | [], w, w', placed, h => by
    cases h
    exact ⟨rfl, [], [], .same rfl rfl, fun _ => rfl⟩
  | top :: tops, w, w', placed, h => by
    obtain ⟨i, w₁, more, htop, htops, rfl⟩ := buildTops_cons_ok h
    obtain ⟨new, lost, hgrows, hlost⟩ := top.entry.grows_build htop
    obtain ⟨hfst, new', lost', hgrows', hlost'⟩ := grows_buildTops tops htops
    refine ⟨by rw [List.map_cons, hfst], _, _, hgrows.trans hgrows', fun hsep => ?_⟩
    rw [hlost (hsep top List.mem_cons_self), hlost' fun t ht => hsep t (List.mem_cons_of_mem _ ht)]
    rfl

theorem build_of_workspace {d : Document} {w : Workspace} (h : d.workspace = .ok w) :
    d.build {} = .ok ((), w) := by
  change (d.build {}).bind (fun r => .ok r.2) = .ok w at h
  cases hbuild : d.build {} with
  | error e =>
    rw [hbuild] at h
    cases h
  | ok r =>
    rw [hbuild] at h
    cases h
    rfl

theorem workspace_ok {d : Document} {w : Workspace} (h : d.workspace = .ok w) :
    ∃ tops placed w₁ w₂, d.tops = some tops ∧ addVariables d.variableEntries {} = .ok ((), w₁) ∧
      buildTops tops w₁ = .ok (placed, w₂) ∧
      w = { w₂ with roots := (placed.mergeSort fun a b => a.1.before b.1).map Prod.snd } := by
  obtain ⟨⟨⟩, w₁, hvariables, h⟩ := Build.bind_ok (build_of_workspace h)
  cases htops : d.tops with
  | none =>
    rw [htops] at h
    cases h
  | some tops =>
    rw [htops] at h
    obtain ⟨placed, w₂, hplaced, h⟩ := Build.bind_ok h
    cases h
    exact ⟨tops, placed, w₁, w₂, rfl, hvariables, hplaced, rfl⟩

theorem grows_build {d : Document} {w : Workspace} (h : d.workspace = .ok w) :
    ∃ tops w' new lost, d.tops = some tops ∧ w.blocks = w'.blocks ∧ w.roots.length = tops.length ∧
      Workspace.Grows {} w' new w.roots lost ∧
      ((∀ top ∈ tops, top.entry.Every Separate) → lost = []) := by
  obtain ⟨tops, placed, w₁, w₂, htops, hvariables, hplaced, rfl⟩ := workspace_ok h
  obtain ⟨hblocks, hroots⟩ := addVariables_state d.variableEntries hvariables
  obtain ⟨hfst, new, lost, hgrows, hlost⟩ := grows_buildTops tops hplaced
  have hperm := List.mergeSort_perm placed fun a b => a.1.before b.1
  refine ⟨tops, w₂, new, lost, htops, rfl, ?_, ?_, hlost⟩
  · rw [List.length_map, hperm.length_eq, ← hfst, List.length_map]
  · exact (Workspace.Grows.same hblocks hroots).trans (hgrows.perm (hperm.map Prod.snd).symm)

theorem workspace_links {d : Document} {w : Workspace} (h : d.workspace = .ok w) :
    w.WellFormed ∧ ∃ tops, d.tops = some tops ∧ w.roots.length = tops.length ∧
      ((∀ top ∈ tops, top.entry.Every Separate) → ∀ i < w.size, w.targets.count i = 1) := by
  obtain ⟨tops, w', new, lost, htops, hblocks, hlength, hgrows, hlost⟩ := grows_build h
  have hnew : w.blocks.toList = new := by rw [hblocks, hgrows.blocks]; rfl
  have hsize : w.size = new.length := by rw [← hnew]; rfl
  have htargets : (lost ++ w.targets).Perm (List.range w.size) := by
    rw [Workspace.targets, hnew, hsize, ← List.append_assoc, List.range_eq_range']
    exact hgrows.targets
  have hnodup : (lost ++ w.targets).Nodup := htargets.nodup_iff.2 List.nodup_range
  refine ⟨⟨fun i hi => ?_, fun i b hb => ?_, (List.nodup_append.1 hnodup).2.1⟩, tops, htops,
    hlength, fun hsep i hi => ?_⟩
  · have hmem := htargets.subset (List.mem_append_right _ (List.mem_append_left _ hi))
    exact List.mem_range.1 hmem
  · rw [← Array.getElem?_toList, hnew] at hb
    simpa [Workspace.size] using hgrows.links_lt i b hb
  · rw [hlost hsep, List.nil_append] at htargets
    rw [htargets.count_eq, List.nodup_range.count, if_pos (List.mem_range.2 hi)]

end Document

end BlockCode
