import BlockCode.Proofs.Builds

namespace BlockCode

/--
A block that a description begins. The path says at each step which of the blocks inside is meant,
and `earlier` counts the blocks that are finished before this one is begun.
-/
structure Begun where
  path : List Nat
  caption : Caption
  earlier : Nat

def Begun.under (k : Nat) (a : Begun) : Begun := { a with path := k :: a.path }

/-- The second path goes on from the first one, and only ever to the first block inside. -/
def FirstInside (p q : List Nat) : Prop := ∃ n, q = p ++ List.replicate n 0

mutual

def Entry.begun (n : Nat) : Entry → List Begun
  | .malformed => [⟨[], ⟨none, none, false⟩, n⟩]
  | .block caption parts => begunInside 0 n parts ++ [⟨[], caption, n⟩]

def begunInside (k n : Nat) : List (Slot × Option Entry) → List Begun
  | [] => []
  | (_, none) :: rest => begunInside k n rest
  | (_, some e) :: rest =>
    (e.begun n).map (.under k) ++ begunInside (k + 1) (n + (e.begun n).length) rest

end

namespace Document

def begunTops (k n : Nat) : List Top → List Begun
  | [] => []
  | top :: tops =>
    (top.entry.begun n).map (.under k) ++ begunTops (k + 1) (n + (top.entry.begun n).length) tops

def begun (d : Document) : List Begun := begunTops 0 0 (d.tops.getD [])

end Document

theorem firstInside_refl (p : List Nat) : FirstInside p p := ⟨0, p.append_nil.symm⟩

theorem firstInside_nil (p : List Nat) :
    FirstInside [] p ∨ FirstInside p [] ↔ ∃ n, p = List.replicate n 0 := by
  refine ⟨?_, .inl⟩
  rintro (h | ⟨n, hn⟩)
  · exact h
  · exact ⟨0, (List.append_eq_nil_iff.1 hn.symm).1⟩

theorem firstInside_cons {k l : Nat} {p q : List Nat} :
    FirstInside (k :: p) (l :: q) ↔ k = l ∧ FirstInside p q := by
  constructor
  · rintro ⟨n, hn⟩
    obtain ⟨rfl, rfl⟩ := List.cons.inj hn
    exact ⟨rfl, n, rfl⟩
  · rintro ⟨rfl, n, rfl⟩
    exact ⟨n, rfl⟩

/-- What holds of any blocks that stand in one row and are begun after `n` others. -/
structure Begun.Spread (n : Nat) (row : List Begun) : Prop where
  bounds : ∀ a ∈ row, n ≤ a.earlier ∧ a.earlier < n + row.length
  nodup : (row.map Begun.path).Nodup
  same : ∀ a ∈ row, ∀ b ∈ row,
    a.earlier = b.earlier ↔ FirstInside a.path b.path ∨ FirstInside b.path a.path

structure Begun.Inside (k n : Nat) (row : List Begun) : Prop extends Begun.Spread n row where
  heads : ∀ a ∈ row, ∃ l p, a.path = l :: p ∧ k ≤ l
  first : ∀ a ∈ row, a.earlier = n ↔ ∃ m, a.path = k :: List.replicate m 0

structure Begun.Whole (n : Nat) (row : List Begun) : Prop extends Begun.Spread n row where
  self : ∃ caption, ⟨[], caption, n⟩ ∈ row

namespace Begun

variable {k n : Nat} {row rest : List Begun}

theorem Inside.nil : Inside k n [] where
  bounds := by simp
  nodup := .nil
  same := by simp
  heads := by simp
  first := by simp

theorem Spread.under (h : Spread n row) (k : Nat) : Spread n (row.map (.under k)) where
  bounds := by simpa [Begun.under] using h.bounds
  nodup := by
    have hpaths : (row.map (.under k)).map path = (row.map path).map (k :: ·) := by
      simp [Begun.under]
    rw [hpaths]
    exact h.nodup.map fun p q hpq => (List.cons.inj hpq).2
  same := by
    simp only [List.forall_mem_map, Begun.under, firstInside_cons, true_and]
    exact h.same

theorem Inside.apart (hrest : Inside (k + 1) (n + row.length) rest) (h : Spread n row)
    {a b : Begun} (ha : a ∈ row.map (.under k)) (hb : b ∈ rest) :
    a.earlier ≠ b.earlier ∧ ¬ FirstInside a.path b.path ∧ ¬ FirstInside b.path a.path := by
  obtain ⟨a', ha', rfl⟩ := List.mem_map.1 ha
  have hrow := h.bounds a' ha'
  have hlater := hrest.bounds b hb
  obtain ⟨l, q, hq, hl⟩ := hrest.heads b hb
  rw [hq]
  simp only [Begun.under, firstInside_cons]
  omega

theorem Whole.cons (h : Whole n row) (hrest : Inside (k + 1) (n + row.length) rest) :
    Inside k n (row.map (.under k) ++ rest) where
  bounds := by
    have hrow := (h.toSpread.under k).bounds
    rw [List.length_map] at hrow
    rw [List.length_append, List.length_map, List.forall_mem_append]
    refine ⟨fun a ha => ?_, fun a ha => ?_⟩
    · have := hrow a ha
      omega
    · have := hrest.bounds a ha
      omega
  nodup := by
    rw [List.map_append]
    refine (h.toSpread.under k).nodup.append hrest.nodup fun p hp hp' => ?_
    obtain ⟨a, ha, rfl⟩ := List.mem_map.1 hp
    obtain ⟨b, hb, hpath⟩ := List.mem_map.1 hp'
    exact (hrest.apart h.toSpread ha hb).2.1 (hpath ▸ firstInside_refl b.path)
  same := by
    intro a ha b hb
    -- In the mixed cases one block is finished before the other is begun, so neither side holds.
    rcases List.mem_append.1 ha with ha | ha <;> rcases List.mem_append.1 hb with hb | hb
    · exact (h.toSpread.under k).same a ha b hb
    · have := hrest.apart h.toSpread ha hb
      tauto
    · have := hrest.apart h.toSpread hb ha
      tauto
    · exact hrest.same a ha b hb
  heads := by
    rw [List.forall_mem_append]
    refine ⟨List.forall_mem_map.2 fun a _ => ⟨k, a.path, rfl, le_refl k⟩, fun a ha => ?_⟩
    obtain ⟨l, p, hp, hl⟩ := hrest.heads a ha
    exact ⟨l, p, hp, by omega⟩
  first := by
    obtain ⟨caption, hself⟩ := h.self
    rw [List.forall_mem_append]
    refine ⟨List.forall_mem_map.2 fun a ha => ?_, fun a ha => ?_⟩
    · have hsame := h.same _ hself a ha
      rw [firstInside_nil] at hsame
      simpa [Begun.under, eq_comm] using hsame
    · have hpos := List.length_pos_of_mem hself
      have hlater := hrest.bounds a ha
      obtain ⟨l, p, hp, hl⟩ := hrest.heads a ha
      refine iff_of_false (by omega) ?_
      rintro ⟨m, hm⟩
      have := (List.cons.inj (hp.symm.trans hm)).1
      omega

theorem Inside.close (h : Inside 0 n row) (caption : Caption) :
    Whole n (row ++ [⟨[], caption, n⟩]) where
  bounds := by
    rw [List.forall_mem_append, List.forall_mem_singleton, List.length_append,
      List.length_singleton]
    refine ⟨fun a ha => ?_, le_refl n, Nat.lt_add_of_pos_right (Nat.succ_pos _)⟩
    have := h.bounds a ha
    omega
  nodup := by
    rw [List.map_append]
    refine h.nodup.append (by simp) fun p hp hp' => ?_
    obtain ⟨a, ha, rfl⟩ := List.mem_map.1 hp
    obtain ⟨l, q, hq, -⟩ := h.heads a ha
    simp [hq] at hp'
  same := by
    have hself : ∀ a ∈ row, n = a.earlier ↔ FirstInside [] a.path ∨ FirstInside a.path [] := by
      intro a ha
      obtain ⟨l, q, hq, -⟩ := h.heads a ha
      rw [eq_comm, h.first a ha, firstInside_nil, hq]
      refine ⟨fun ⟨m, hm⟩ => ⟨m + 1, hm⟩, ?_⟩
      rintro ⟨m, hm⟩
      cases m with
      | zero => cases hm
      | succ m => exact ⟨m, hm⟩
    intro a ha b hb
    rcases List.mem_append.1 ha with ha | ha <;> rcases List.mem_append.1 hb with hb | hb
    · exact h.same a ha b hb
    · cases List.mem_singleton.1 hb
      rw [eq_comm, hself a ha, or_comm]
    · cases List.mem_singleton.1 ha
      exact hself b hb
    · cases List.mem_singleton.1 ha
      cases List.mem_singleton.1 hb
      exact iff_of_true rfl (.inl (firstInside_refl []))
  self := ⟨caption, by simp⟩

end Begun

mutual

theorem Entry.whole_begun (n : Nat) : ∀ e : Entry, Begun.Whole n (e.begun n)
  | .malformed => by
    rw [Entry.begun]
    exact Begun.Inside.nil.close _
  | .block caption parts => by
    rw [Entry.begun]
    exact (inside_begunInside 0 n parts).close caption

theorem inside_begunInside (k n : Nat) :
    ∀ parts : List (Slot × Option Entry), Begun.Inside k n (begunInside k n parts)
  | [] => by
    rw [begunInside]
    exact .nil
  | (_, none) :: rest => by
    rw [begunInside]
    exact inside_begunInside k n rest
  | (_, some e) :: rest => by
    rw [begunInside]
    exact (e.whole_begun n).cons (inside_begunInside (k + 1) _ rest)

end

theorem Document.inside_begunTops (k n : Nat) (tops : List Top) :
    Begun.Inside k n (begunTops k n tops) := by
  induction tops generalizing k n with
  | nil => exact .nil
  | cons top tops ih => exact (top.entry.whole_begun n).cons (ih (k + 1) _)

structure Begun.Describes (a : Begun) (b : Block) : Prop where
  type : a.caption.type = some b.type
  disabled : a.caption.disabled = b.disabled
  id : b.id = a.caption.id.getD ("block" ++ toString (a.earlier + 1))

theorem Begun.Describes.under {a : Begun} {b : Block} (h : a.Describes b) (k : Nat) :
    (a.under k).Describes b :=
  ⟨h.type, h.disabled, h.id⟩

def Block.caption (b : Block) : Caption := ⟨some b.id, some b.type, b.disabled⟩

theorem Slot.caption_enter {slot : Slot} {b b' : Block} {link : Option Nat} {w w' : Workspace}
    (h : slot.enter b link w = .ok (b', w')) : b'.caption = b.caption := by
  cases slot with
  | field name entry =>
    cases entry with
    | fault f => cases h
    | _ =>
      cases h
      rfl
  | shape elseIfs hasElse =>
    cases h
    obtain ⟨extra, hdeclaring⟩ := Block.declaring_shape elseIfs hasElse
    exact congrArg (fun head => Caption.mk (some head.id) (some head.type) head.disabled)
      (hdeclaring.head b)
  | _ =>
    cases h
    rfl

def Workspace.Gains (w w' : Workspace) (row : List Begun) : Prop :=
  ∃ new, w'.blocks.toList = w.blocks.toList ++ new ∧ List.Forall₂ Begun.Describes row new

namespace Workspace.Gains

variable {w w' w'' : Workspace} {row row' : List Begun}

theorem same (h : w'.blocks = w.blocks) : w.Gains w' [] := ⟨[], by simp [h], .nil⟩

theorem trans (h : w.Gains w' row) (h' : w'.Gains w'' row') : w.Gains w'' (row ++ row') := by
  obtain ⟨new, hblocks, hnew⟩ := h
  obtain ⟨new', hblocks', hnew'⟩ := h'
  refine ⟨new ++ new', ?_, List.rel_append hnew hnew'⟩
  rw [hblocks', hblocks, List.append_assoc]

theorem size (h : w.Gains w' row) : w'.size = w.size + row.length := by
  obtain ⟨new, hblocks, hnew⟩ := h
  rw [hnew.length_eq]
  simpa [Workspace.size] using congrArg List.length hblocks

theorem under (h : w.Gains w' row) (k : Nat) : w.Gains w' (row.map (.under k)) := by
  obtain ⟨new, hblocks, hnew⟩ := h
  exact ⟨new, hblocks, List.forall₂_map_left_iff.2 (hnew.imp fun _ _ h => h.under k)⟩

theorem add (h : w.Gains w' row) {a : Begun} {b : Block} (hb : a.Describes b) :
    w.Gains (w'.add b) (row ++ [a]) :=
  h.trans ⟨[b], by simp [Workspace.add], .cons hb .nil⟩

end Workspace.Gains

mutual

theorem Entry.gains_build : ∀ (e : Entry) {w w' : Workspace} {i : Nat}, e.build w = .ok (i, w') →
    w.Gains w' (e.begun w.size)
  | .malformed, w, w', i, h => by simp [Entry.build, Build.fail] at h
  | .block caption parts, w, w', i, h => by
    obtain ⟨type, b, w₁, htype, hparts, rfl, rfl⟩ := Entry.build_ok h
    obtain ⟨hgains, hcaption⟩ := gains_buildParts _ 0 parts hparts
    obtain ⟨hid, hkind, hdisabled⟩ := Caption.mk.inj hcaption
    rw [Entry.begun]
    exact hgains.add ⟨htype.trans hkind.symm, hdisabled.symm, Option.some.inj hid⟩

theorem gains_buildParts (id : String) : ∀ (k : Nat) (parts : List (Slot × Option Entry))
    {b b' : Block} {w w' : Workspace}, buildParts id parts b w = .ok (b', w') →
    w.Gains w' (begunInside k w.size parts) ∧ b'.caption = b.caption
  | k, [], b, b', w, w', h => by
    cases h
    rw [begunInside]
    exact ⟨.same rfl, rfl⟩
  | k, (slot, none) :: rest, b, b', w, w', h => by
    obtain ⟨link, w₁, b₁, w₂, hlink, henter, hrest⟩ := buildParts_cons_ok h
    have hblocks := (Slot.enter_state henter).1
    have hcaption := Slot.caption_enter henter
    cases hlink
    obtain ⟨hgains, hcaption'⟩ := gains_buildParts id k rest hrest
    have hsize : w₂.size = w.size := congrArg Array.size hblocks
    rw [begunInside, ← hsize]
    exact ⟨(Workspace.Gains.same hblocks).trans hgains, hcaption'.trans hcaption⟩
  | k, (slot, some e) :: rest, b, b', w, w', h => by
    obtain ⟨link, w₁, b₁, w₂, hlink, henter, hrest⟩ := buildParts_cons_ok h
    have hblocks := (Slot.enter_state henter).1
    have hcaption := Slot.caption_enter henter
    obtain ⟨i, rfl, hbuild⟩ := buildLink_some_ok hlink
    have hfirst := (e.gains_build hbuild).trans (.same hblocks)
    rw [List.append_nil] at hfirst
    obtain ⟨hgains, hcaption'⟩ := gains_buildParts id (k + 1) rest hrest
    rw [begunInside, ← hfirst.size]
    exact ⟨(hfirst.under k).trans hgains, hcaption'.trans hcaption⟩

end

namespace Document

theorem gains_buildTops : ∀ (k : Nat) (tops : List Top) {w w' : Workspace}
    {placed : List (Top × Nat)}, buildTops tops w = .ok (placed, w') →
    w.Gains w' (begunTops k w.size tops)
  | k, [], w, w', placed, h => by
    cases h
    exact .same rfl
  | k, top :: tops, w, w', placed, h => by
    obtain ⟨i, w₁, more, htop, htops, -⟩ := buildTops_cons_ok h
    have hfirst := top.entry.gains_build htop
    rw [begunTops, ← hfirst.size]
    exact (hfirst.under k).trans (gains_buildTops (k + 1) tops htops)

theorem describes_workspace {d : Document} {w : Workspace} (h : d.workspace = .ok w) :
    List.Forall₂ Begun.Describes d.begun w.blocks.toList := by
  obtain ⟨tops, placed, w₁, w₂, htops, hvariables, hplaced, rfl⟩ := workspace_ok h
  have hblocks := (addVariables_state d.variableEntries hvariables).1
  have hsize : w₁.size = 0 := congrArg Array.size hblocks
  have hgains := gains_buildTops 0 tops hplaced
  rw [hsize] at hgains
  obtain ⟨new, hrow, hnew⟩ := (Workspace.Gains.same hblocks).trans hgains
  rw [begun, htops, hrow]
  exact hnew

/--
The blocks of a loaded document stand in the order in which they are finished, and a block that has
an id of its own keeps it. Two of the others get the same id just if one of them is the first block
inside the other one, or the first block inside the first block inside it, and so on.
-/
theorem madeUpId_eq_iff {d : Document} {w : Workspace} (h : d.workspace = .ok w) :
    List.Forall₂ Begun.Describes d.begun w.blocks.toList ∧ (d.begun.map Begun.path).Nodup ∧
    ∀ a a' b b', (a, b) ∈ d.begun.zip w.blocks.toList → (a', b') ∈ d.begun.zip w.blocks.toList →
      a.caption.id = none → a'.caption.id = none →
      (b.id = b'.id ↔ FirstInside a.path a'.path ∨ FirstInside a'.path a.path) := by
  have hdescribes := describes_workspace h
  have hspread : Begun.Spread 0 d.begun := (inside_begunTops 0 0 _).toSpread
  refine ⟨hdescribes, hspread.nodup, fun a a' b b' hmem hmem' hid hid' => ?_⟩
  have hmade := (List.forall₂_zip hdescribes hmem).id
  have hmade' := (List.forall₂_zip hdescribes hmem').id
  rw [hid, Option.getD_none] at hmade
  rw [hid', Option.getD_none] at hmade'
  rw [hmade, hmade', ← hspread.same a (List.of_mem_zip hmem).1 a' (List.of_mem_zip hmem').1]
  refine ⟨fun heq => ?_, fun heq => by rw [heq]⟩
  have := Names.numbered_injective "block" heq
  omega

theorem madeUpId_eq_iff_loop :
    let element (tag : String) (attributes : List (String × String)) (children : List Xml) : Xml :=
      .element tag ⟨attributes⟩ children
    let block (type : String) (children : List Xml) := element "block" [("type", type)] children
    let text := element "value" [("name", "TEXT")] [element "shadow" [("type", "text")] []]
    let next := element "next" [] [block "text_print" []]
    let body := element "statement" [("name", "DO")] [block "text_print" [text, next]]
    let d := ofXml (element "xml" [] [block "controls_whileUntil" [body]])
    d.begun.map (fun a => (a.path, a.caption.id)) =
      [([0, 0, 0], none), ([0, 0, 1], none), ([0, 0], none), ([0], none)] ∧
    ∃ w, d.workspace = .ok w ∧
      w.blocks.toList.map (·.id) = ["block1", "block2", "block1", "block1"] ∧
      ∀ a a' b b', (a, b) ∈ d.begun.zip w.blocks.toList → (a', b') ∈ d.begun.zip w.blocks.toList →
        (b.id = b'.id ↔ FirstInside a.path a'.path ∨ FirstInside a'.path a.path) := by
  intro element block text next body d
  have hbegun : d.begun.map (fun a => (a.path, a.caption.id)) =
      [([0, 0, 0], none), ([0, 0, 1], none), ([0, 0], none), ([0], none)] := by decide +kernel
  have hnone : ∀ a ∈ d.begun, a.caption.id = none := by decide +kernel
  refine ⟨hbegun, _, rfl, by decide +kernel, fun a a' b b' hmem hmem' => ?_⟩
  exact (madeUpId_eq_iff rfl).2.2 a a' b b' hmem hmem' (hnone a (List.of_mem_zip hmem).1)
    (hnone a' (List.of_mem_zip hmem').1)

/-- A block and the text in it have no ids of their own and get the same one, in either format. -/
theorem madeUpId_text_in_print :
    let ids (load : Except DocumentError Workspace) : Option (List String) :=
      load.toOption.map fun w => w.blocks.toList.map (·.id)
    ids (readJson (r#"{"blocks":{"blocks":[{"type":"text_print","inputs":"# ++
      r#"{"TEXT":{"shadow":{"type":"text"}}}}]}}"#)) = some ["block1", "block1"] ∧
    ids (readXml ("<xml><block type='text_print'><value name='TEXT'>" ++
      "<shadow type='text'/></value></block></xml>")) = some ["block1", "block1"] := by
  decide +kernel

end Document

end BlockCode
