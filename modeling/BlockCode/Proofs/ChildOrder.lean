import BlockCode.Proofs.Declarations
import BlockCode.Proofs.JsonFaults
import BlockCode.Proofs.Meanings

namespace BlockCode

section

variable {α β : Type} {R : α → α → Prop} {as bs : List α}

theorem map_eq_of_rel {f : α → β} (hf : ∀ a ∈ as, ∀ b, R a b → f b = f a)
    (h : List.Forall₂ R as bs) : bs.map f = as.map f := by
  induction h with
  | nil => rfl
  | cons hab _ ih =>
    obtain ⟨ha, has⟩ := List.forall_mem_cons.1 hf
    rw [List.map_cons, List.map_cons, ha _ hab, ih has]

theorem rel_filter_of_eq {p : α → Bool} (hp : ∀ a b, R a b → p b = p a)
    (h : List.Forall₂ R as bs) : List.Forall₂ R (as.filter p) (bs.filter p) := by
  refine List.rel_filter (fun a b hab => ?_) h
  simp only [hp a b hab]

theorem rel_find? {p : α → Bool} (hp : ∀ a b, R a b → p b = p a) (h : List.Forall₂ R as bs) :
    Option.Rel R (as.find? p) (bs.find? p) := by
  induction h with
  | nil => exact .none
  | cons hab _ ih =>
    rw [List.find?_cons, List.find?_cons, hp _ _ hab]
    split
    · exact .some hab
    · exact ih

theorem rel_getLast? (h : List.Forall₂ R as bs) : Option.Rel R as.getLast? bs.getLast? := by
  induction h with
  | nil => exact .none
  | @cons a b as bs hab _ ih =>
    rw [List.getLast?_cons, List.getLast?_cons]
    generalize as.getLast? = last at ih
    generalize bs.getLast? = last' at ih
    cases ih with
    | none => exact .some hab
    | some hlast => exact .some hlast

theorem rel_or {a a' b b' : Option α} (ha : Option.Rel R a a') (hb : Option.Rel R b b') :
    Option.Rel R (a.or b) (a'.or b') := by
  cases ha with
  | none => exact hb
  | some ha => exact .some ha

end

namespace Xml

/-- The second node is the first one but for the order of what stands inside blocks. -/
inductive Shuffled : Xml → Xml → Prop
  | text (s : String) : Shuffled (.text s) (.text s)
  | element {tag : String} {attributes : ByName String} {children children' : List Xml} :
    List.Forall₂ Shuffled children children' →
    Shuffled (.element tag attributes children) (.element tag attributes children')
  | block {tag : String} {attributes : ByName String} {children moved children' : List Xml} :
    tag = "block" ∨ tag = "shadow" → List.Forall₂ Shuffled children moved → moved.Perm children' →
    Shuffled (.element tag attributes children) (.element tag attributes children')

namespace Shuffled

variable {x x' : Xml}

theorem attribute?_eq (h : x.Shuffled x') (name : String) :
    x'.attribute? name = x.attribute? name := by
  cases h <;> rfl

theorem isElement_eq (h : x.Shuffled x') (tag : String) : x'.isElement tag = x.isElement tag := by
  cases h <;> rfl

theorem isConnection_eq (h : x.Shuffled x') : x'.isConnection = x.isConnection := by
  rw [isConnection, isConnection, h.isElement_eq, h.isElement_eq, h.isElement_eq]

theorem caption_eq (h : x.Shuffled x') : x'.caption = x.caption := by
  rw [caption, caption, h.attribute?_eq, h.attribute?_eq, h.attribute?_eq]

theorem children_of_isElement (h : x.Shuffled x') {tag : String} (htag : x.isElement tag = true)
    (hblock : tag ≠ "block") (hshadow : tag ≠ "shadow") :
    List.Forall₂ Shuffled x.children x'.children := by
  cases h with
  | text s => cases htag
  | element hchildren => exact hchildren
  | block hname =>
    obtain rfl := beq_iff_eq.1 htag
    exact absurd hname (not_or_intro hblock hshadow)

theorem label_eq (h : List.Forall₂ Shuffled x.children x'.children) : x'.label = x.label := by
  rw [label, label, innerText, innerText, map_eq_of_rel (fun c _ c' hc => ?_) h]
  cases hc <;> rfl

theorem slot?_eq (h : x.Shuffled x') : x'.slot? = x.slot? := by
  cases h with
  | text s => rfl
  | block htag => rcases htag with rfl | rfl <;> rfl
  | @element tag attributes children children' hchildren =>
    have hfield (name : String) : (Xml.element tag attributes children').fieldEntry name =
        (Xml.element tag attributes children).fieldEntry name := by
      have hlabel : (Xml.element tag attributes children').label =
          (Xml.element tag attributes children).label := label_eq hchildren
      rw [fieldEntry, fieldEntry, hlabel]
      rfl
    unfold slot?
    simp only [hfield]
    rfl

theorem rel_target? (h : x.Shuffled x') (hx : x.isConnection = true) :
    Option.Rel Shuffled x.target? x'.target? := by
  have hchildren : List.Forall₂ Shuffled x.children x'.children := by
    simp only [isConnection, Bool.or_eq_true] at hx
    rcases hx with (htag | htag) | htag <;>
      exact h.children_of_isElement htag (by decide) (by decide)
  exact rel_or (rel_find? (fun _ _ hc => hc.isElement_eq "block") hchildren)
    (rel_getLast? (rel_filter_of_eq (fun _ _ hc => hc.isElement_eq "shadow") hchildren))

mutual

theorem refl : ∀ x : Xml, x.Shuffled x
  | .text s => .text s
  | .element _ _ children => .element (refl_children children)

theorem refl_children : ∀ children : List Xml, List.Forall₂ Shuffled children children
  | [] => .nil
  | c :: children => .cons (refl c) (refl_children children)

end

def Parts (p p' : Slot × Option Xml) : Prop := p.1 = p'.1 ∧ Option.Rel Shuffled p.2 p'.2

theorem rel_nodePart? (h : x.Shuffled x') : Option.Rel Parts x.nodePart? x'.nodePart? := by
  rw [nodePart?, nodePart?, h.slot?_eq, h.isConnection_eq]
  cases x.slot? with
  | none => exact .none
  | some slot =>
    refine .some ⟨rfl, ?_⟩
    dsimp only
    split
    · next hx => exact h.rel_target? hx
    · exact .none

theorem rel_nodeParts (h : x.Shuffled x') :
    ∃ moved, List.Forall₂ Parts x.nodeParts moved ∧ moved.Perm x'.nodeParts := by
  have hparts {children children' : List Xml}
      (hchildren : List.Forall₂ Shuffled children children') :
      List.Forall₂ Parts (children.filterMap nodePart?) (children'.filterMap nodePart?) :=
    List.rel_filterMap (fun _ _ hc => rel_nodePart? hc) hchildren
  cases h with
  | text s => exact ⟨[], .nil, .nil⟩
  | element hchildren => exact ⟨_, hparts hchildren, .refl _⟩
  | block htag hchildren hperm => exact ⟨_, hparts hchildren, hperm.filterMap _⟩

end Shuffled

def about? : Xml → Option (String × String)
  | .text _ => none
  | .element tag attributes _ =>
    if tag ∈ ["field", "value", "statement"] then some (tag, (attributes.get? "name").getD "")
    else if tag ∈ ["next", "mutation"] then some (tag, "")
    else none

def Unambiguous (x : Xml) : Prop := (x.children.filterMap about?).Nodup

instance (x : Xml) : Decidable x.Unambiguous :=
  inferInstanceAs (Decidable (x.children.filterMap about?).Nodup)

end Xml

def Topic.tagged : Topic → String × String
  | .field name => ("field", name)
  | .value name => ("value", name)
  | .statement name => ("statement", name)
  | .next => ("next", "")
  | .shape => ("mutation", "")

namespace Xml

theorem about?_eq (x : Xml) : x.about? = x.slot?.map fun slot => slot.topic.tagged := by
  cases x with
  | text s => rfl
  | element tag attributes children =>
    unfold slot?
    dsimp only
    split <;> simp_all [about?, Slot.topic, Topic.tagged, shapeSlot]

theorem filterMap_about? (x : Xml) :
    x.children.filterMap about? = x.nodeParts.map fun p => p.1.topic.tagged := by
  rw [nodeParts, List.map_filterMap]
  refine congrArg (List.filterMap · x.children) (funext fun c => ?_)
  rw [about?_eq, nodePart?, Option.map_map]
  rfl

theorem Shuffled.unambiguous {x x' : Xml} (h : x.Shuffled x') (hx : x.Unambiguous) :
    x'.Unambiguous := by
  obtain ⟨moved, hparts, hperm⟩ := h.rel_nodeParts
  have hsame : moved.map (fun p => p.1.topic.tagged) = x.nodeParts.map fun p => p.1.topic.tagged :=
    map_eq_of_rel (fun p _ p' hp => by rw [hp.1]) hparts
  rw [Unambiguous, filterMap_about?] at hx ⊢
  rw [← hsame] at hx
  exact (hperm.map _).nodup_iff.1 hx

/-- A block and the blocks inside it are unambiguous, and have ids and names of their variables. -/
inductive Orderly (names : List (String × String)) : Xml → Prop
  | intro {x : Xml} : (x.attribute? "id").isSome = true → x.Unambiguous →
    (∀ p ∈ x.nodeParts, ∀ m, p.1.mention? = some m → (names.lookup m.1).isSome = true) →
    (∀ p ∈ x.nodeParts, ∀ u, p.2 = some u → Orderly names u) → Orderly names x

namespace Orderly

variable {names : List (String × String)} {x x' : Xml}

theorem blockEntry_eq (h : x.Orderly names) :
    x.blockEntry = .block x.caption (x.nodeParts.map fun p => (p.1, p.2.map blockEntry)) := by
  cases h with
  | intro hid =>
    cases x with
    | text s => cases hid
    | element tag attributes children =>
      rw [blockEntry, parts_eq]
      rfl

theorem sure (h : x.Orderly names) : x.blockEntry.Sure names := by
  have hentry := h.blockEntry_eq
  induction h with
  | intro hid _ hmentions hlinks ih =>
    rw [hentry]
    refine .block hid (fun p hp => ?_) fun p hp e he => ?_
    · obtain ⟨q, hq, rfl⟩ := List.mem_map.1 hp
      exact hmentions q hq
    · obtain ⟨q, hq, rfl⟩ := List.mem_map.1 hp
      obtain ⟨u, hu, rfl⟩ := Option.map_eq_some_iff.1 he
      exact ih q hq u hu (hlinks q hq u hu).blockEntry_eq

theorem shuffled (h : x.Orderly names) (hx : x.Shuffled x') : x'.Orderly names := by
  induction h generalizing x' with
  | intro hid hdistinct hmentions _ ih =>
    obtain ⟨moved, hparts, hperm⟩ := hx.rel_nodeParts
    have hfrom : ∀ p' ∈ x'.nodeParts, ∃ p ∈ _, Shuffled.Parts p p' := fun p' hp' =>
      exists_mem_of_forall₂ hparts (hperm.mem_iff.2 hp')
    refine .intro (hx.attribute?_eq "id" ▸ hid) (hx.unambiguous hdistinct) (fun p' hp' => ?_)
      fun p' hp' u' hu' => ?_
    · obtain ⟨p, hp, hslot, -⟩ := hfrom p' hp'
      exact hslot ▸ hmentions p hp
    · obtain ⟨⟨slot, link⟩, hp, -, hlink⟩ := hfrom p' hp'
      rw [hu'] at hlink
      cases hlink with
      | some hu => exact ih _ hp _ rfl hu

theorem meaning_eq (h : x.Orderly names) (hx : x.Shuffled x') :
    x'.blockEntry.meaning = x.blockEntry.meaning := by
  have hentry := h.blockEntry_eq
  have hentry' := (h.shuffled hx).blockEntry_eq
  induction h generalizing x' with
  | @intro x hid hdistinct _ hlinks ih =>
    obtain ⟨moved, hparts, hperm⟩ := hx.rel_nodeParts
    let f (p : Slot × Option Xml) : Slot × Option Meaning :=
      (p.1, (p.2.map blockEntry).map Entry.meaning)
    have hsame : moved.map f = x.nodeParts.map f := by
      refine map_eq_of_rel (fun p hp p' hpp' => ?_) hparts
      obtain ⟨slot, link⟩ := p
      obtain ⟨slot', link'⟩ := p'
      obtain ⟨rfl, hlink⟩ := hpp'
      cases hlink with
      | none => rfl
      | @some u u' hu =>
        have horderly := hlinks _ hp u rfl
        have hmeaning :=
          ih _ hp u rfl hu horderly.blockEntry_eq (horderly.shuffled hu).blockEntry_eq
        exact congrArg (fun m => (slot, some m)) hmeaning
    have htopics : ((x.nodeParts.map f).map fun p => p.1.topic).Nodup := by
      rw [Unambiguous, filterMap_about?] at hdistinct
      rw [List.map_map]
      refine List.Nodup.of_map Topic.tagged ?_
      rw [List.map_map]
      exact hdistinct
    rw [hentry, hentry', Entry.meaning, Entry.meaning, partMeanings_eq, partMeanings_eq,
      List.map_map, List.map_map, hx.caption_eq]
    refine (Meaning.block_eq_of_perm x.caption ?_ htopics).symm
    rw [← hsame]
    exact hperm.map f

end Orderly

end Xml

namespace Encoding

variable {α : Type} [SizeOf α] (E : Encoding α)

theorem exists_nodes_subset {parts : List (Slot × Option α)} {slot : Slot} {u : α}
    (h : (slot, some u) ∈ parts) (id : String) (n : Nat) :
    ∃ k, ∀ y ∈ E.nodes k u, y.within (slot.step id) ∈ E.nodesInside id n parts := by
  induction parts generalizing n with
  | nil => cases h
  | cons p parts ih =>
    rcases List.mem_cons.1 h with rfl | hmem
    · rw [nodesInside_some]
      exact ⟨n, fun y hy => List.mem_append_left _ (List.mem_map_of_mem hy)⟩
    · obtain ⟨slot', link⟩ := p
      cases link with
      | none => exact ih hmem n
      | some u' =>
        rw [nodesInside_some]
        obtain ⟨k, hk⟩ := ih hmem (n + (E.nodes n u').length)
        exact ⟨k, fun y hy => List.mem_append_right _ (hk y hy)⟩

theorem forall_nodes {P : α → Prop} {a : α} (ha : P a)
    (hinside : ∀ u ∈ (E.parts a).filterMap Prod.snd, ∀ n, ∀ y ∈ E.nodes n u, P y.value) (n : Nat) :
    ∀ y ∈ E.nodes n a, P y.value := by
  rw [nodes_eq, List.forall_mem_cons]
  refine ⟨ha, ?_⟩
  generalize E.idAt n a = id
  generalize E.parts a = parts at hinside
  induction parts generalizing n with
  | nil => exact fun y hy => by cases hy
  | cons p parts ih =>
    obtain ⟨slot, link⟩ := p
    cases link with
    | none => exact ih n hinside
    | some u =>
      obtain ⟨hu, hinside⟩ := List.forall_mem_cons.1 hinside
      rw [nodesInside_some, List.forall_mem_append, List.forall_mem_map]
      exact ⟨hu n, ih _ hinside⟩

theorem exists_nodes_subset_inRow {items : List α} {a : α} (h : a ∈ items) (n : Nat) :
    ∃ k, ∀ y ∈ E.nodes k a, y ∈ inRow E.nodes n items := by
  induction items generalizing n with
  | nil => cases h
  | cons b items ih =>
    rw [inRow]
    rcases List.mem_cons.1 h with rfl | hmem
    · exact ⟨n, fun y hy => List.mem_append_left _ hy⟩
    · obtain ⟨k, hk⟩ := ih hmem (n + (E.nodes n b).length)
      exact ⟨k, fun y hy => List.mem_append_right _ (hk y hy)⟩

end Encoding

namespace Xml

open Encoding

theorem orderly_of_nodes {names : List (String × String)} (x : Xml) {n : Nat}
    (hnodes : ∀ y ∈ xml.nodes n x,
      (y.value.attribute? "id").isSome = true ∧ y.value.Unambiguous)
    (hnames : ∀ m ∈ xml.mentions x, (names.lookup m.1).isSome = true) : x.Orderly names := by
  rw [nodes_eq, List.forall_mem_cons] at hnodes
  obtain ⟨⟨hid, hdistinct⟩, hinside⟩ := hnodes
  rw [mentions_eq] at hnames
  refine .intro hid hdistinct (fun p hp m hm => ?_) fun p hp u hu => ?_
  · refine hnames m (List.mem_flatMap.2 ⟨p, hp, List.mem_append_right _ ?_⟩)
    rw [hm]
    exact List.mem_singleton_self m
  · obtain ⟨slot, link⟩ := p
    obtain rfl : link = some u := hu
    obtain ⟨k, hk⟩ := xml.exists_nodes_subset hp (xml.idAt n x) n
    refine orderly_of_nodes u (fun y hy => hinside (y.within _) (hk y hy)) fun m hm => ?_
    exact hnames m (List.mem_flatMap.2 ⟨_, hp, List.mem_append_left _ hm⟩)
termination_by sizeOf x
decreasing_by exact smaller_nodeParts hp

section

variable {x x' : Xml} (h : List.Forall₂ Shuffled x.children x'.children)

include h

theorem topItems_shuffled : List.Forall₂ Shuffled x.topItems x'.topItems := by
  refine rel_filter_of_eq (fun c c' hc => ?_) h
  rw [hc.isElement_eq, hc.isElement_eq]

theorem variableEntries_shuffled :
    (Document.ofXml x').variableEntries = (Document.ofXml x).variableEntries := by
  have hfind := rel_find? (fun _ _ hc => hc.isElement_eq "variables") h
  unfold Document.ofXml
  dsimp only
  cases hlist : x.children.find? (isElement "variables") with
  | none =>
    rw [hlist] at hfind
    generalize x'.children.find? (isElement "variables") = list' at hfind
    cases hfind
    rfl
  | some list =>
    rw [hlist] at hfind
    generalize x'.children.find? (isElement "variables") = list' at hfind
    cases hfind with
    | some hshuffled =>
      have hchildren :=
        hshuffled.children_of_isElement (List.find?_some hlist) (by decide) (by decide)
      refine map_eq_of_rel (fun c hc c' hcc' => ?_)
        (rel_filter_of_eq (fun _ _ hc => hc.isElement_eq "variable") hchildren)
      have hlabel := Shuffled.label_eq
        (hcc'.children_of_isElement (List.mem_filter.1 hc).2 (by decide) (by decide))
      rw [variableEntry, variableEntry, hcc'.attribute?_eq, hlabel]

end

end Xml

theorem Setup.generate_eq_of_rootTrees (c : Setup) {w w' : Workspace}
    (hnames : w'.variableNames = w.variableNames) (hsize : w'.size = w.size)
    (hroots : w'.roots.length = w.roots.length) (htrees : w'.rootTrees = w.rootTrees) :
    c.generate w' = c.generate w := by
  have hprogram : c.program w' = c.program w := by
    simp only [program, runOpening, hsize, hroots, htrees]
  have hstart : c.start w' = c.start w := by rw [start, start, names_eq, names_eq, hnames]
  rw [generate, generate, run, run, hprogram, hstart]

namespace Document

open Xml

theorem addVariables_ofXml (x : Xml) :
    ∃ w, addVariables (ofXml x).variableEntries {} = .ok ((), w) ∧
      ∀ id ∈ x.listed.map Prod.fst, (w.variableNames.lookup id).isSome = true := by
  have hnone : none ∉ (ofXml x).variableEntries := by
    intro he
    unfold ofXml at he
    dsimp only at he
    split at he
    · obtain ⟨entry, -, hentry⟩ := List.mem_map.1 he
      cases hentry
    · cases he
  obtain ⟨_, w, hw, -⟩ := ends_addVariables hnone {}
  refine ⟨w, hw, fun id hid => ?_⟩
  have hregisters := registers_addVariables hw .empty
  rw [List.nil_append, reduceOption_variableEntries] at hregisters
  rw [hregisters.lookup, ByName.isSome_lookup]
  simpa using hid

theorem orderly_topItems {x : Xml} {names : List (String × String)}
    (hnodes : ∀ y ∈ x.blockNodes, (y.value.attribute? "id").isSome = true ∧ y.value.Unambiguous)
    (hnames : ∀ m ∈ x.mentioned, (names.lookup m.1).isSome = true) :
    ∀ a ∈ x.topItems, a.Orderly names := by
  intro a ha
  obtain ⟨k, hk⟩ := Encoding.xml.exists_nodes_subset_inRow ha 0
  rw [mentioned_eq] at hnames
  exact orderly_of_nodes a (fun y hy => hnodes y (hk y hy)) fun m hm =>
    hnames m (List.mem_flatMap.2 ⟨a, ha, hm⟩)

theorem meaning_top_shuffled {a a' : Xml} {names : List (String × String)} (ha : a.Orderly names)
    (h : a.Shuffled a') : a'.top.meaning = a.top.meaning := by
  have hplace (axis : String) : ((a'.attribute? axis).bind Text.int64?).getD Top.lastCoordinate =
      ((a.attribute? axis).bind Text.int64?).getD Top.lastCoordinate := by
    rw [h.attribute?_eq]
  have hrow : a'.top.row = a.top.row := hplace "y"
  have hcolumn : a'.top.column = a.top.column := hplace "x"
  have hentry : a'.top.entry.meaning = a.top.entry.meaning := ha.meaning_eq h
  rw [Top.meaning, Top.meaning, hrow, hcolumn, hentry]

/--
The order of the nodes inside blocks does not matter. A document can be read if and only if it can
be read in another order of them, and then the workspaces have the same variables, the roots unfold
into the same trees, and the code is the same.
-/
theorem workspace_shuffled {x x' : Xml} (h : List.Forall₂ Shuffled x.children x'.children)
    (hnodes : ∀ y ∈ x.blockNodes, (y.value.attribute? "id").isSome = true ∧ y.value.Unambiguous)
    (hlisted : ∀ m ∈ x.mentioned, m.1 ∈ x.listed.map Prod.fst) :
    ((∃ w, (ofXml x).workspace = .ok w) ↔ ∃ w', (ofXml x').workspace = .ok w') ∧
      ∀ w w', (ofXml x).workspace = .ok w → (ofXml x').workspace = .ok w' →
        w'.variableNames = w.variableNames ∧ w'.rootTrees = w.rootTrees ∧
          ∀ c : Setup, c.generate w' = c.generate w := by
  obtain ⟨w₁, hvariables, hknown⟩ := addVariables_ofXml x
  have horderly := orderly_topItems hnodes fun m hm => hknown m.1 (hlisted m hm)
  have htops := topItems_shuffled h
  have hmeaning : (x'.topItems.map top).map Top.meaning =
      (x.topItems.map top).map Top.meaning := by
    rw [List.map_map, List.map_map]
    exact map_eq_of_rel (fun a ha a' => meaning_top_shuffled (horderly a ha)) htops
  have hsure : ∀ t ∈ x.topItems.map top, t.entry.Sure w₁.variableNames := fun t ht => by
    obtain ⟨a, ha, rfl⟩ := List.mem_map.1 ht
    exact (horderly a ha).sure
  have hsure' : ∀ t ∈ x'.topItems.map top, t.entry.Sure w₁.variableNames := fun t ht => by
    obtain ⟨a', ha', rfl⟩ := List.mem_map.1 ht
    obtain ⟨a, ha, haa'⟩ := exists_mem_of_forall₂ htops ha'
    exact ((horderly a ha).shuffled haa').sure
  -- Both documents mean the same: they are complete or not, and they have the same trees.
  have hofXml (x : Xml) : (ofXml x).tops = some (x.topItems.map top) := rfl
  have hmeans := means_workspace (hofXml x) hvariables hsure
  have hmeans' := means_workspace (hofXml x') (variableEntries_shuffled h ▸ hvariables) hsure'
  rw [hmeaning] at hmeans'
  split at hmeans
  · next hcomplete =>
    rw [if_pos hcomplete] at hmeans'
    obtain ⟨w, hw, hmeans⟩ := hmeans
    obtain ⟨w', hw', hmeans'⟩ := hmeans'
    refine ⟨⟨fun _ => ⟨w', hw'⟩, fun _ => ⟨w, hw⟩⟩, fun v v' hv hv' => ?_⟩
    cases hw.symm.trans hv
    cases hw'.symm.trans hv'
    have hnames := hmeans'.variableNames.trans hmeans.variableNames.symm
    have htrees := hmeans'.rootTrees.trans hmeans.rootTrees.symm
    exact ⟨hnames, htrees, fun c => c.generate_eq_of_rootTrees hnames
      (hmeans'.size.trans hmeans.size.symm) (hmeans'.roots.trans hmeans.roots.symm) htrees⟩
  · next hcomplete =>
    rw [if_neg hcomplete] at hmeans'
    obtain ⟨e, he⟩ := hmeans
    obtain ⟨e', he'⟩ := hmeans'
    rw [he, he']
    exact ⟨by simp, by simp⟩

theorem workspace_shuffled_conditional :
    let field (id : List (String × String)) (name shown : String) : Xml :=
      .element "field" ⟨id ++ [("name", name)]⟩ [.text shown]
    let block (tag id type : String) (children : List Xml) : Xml :=
      .element tag ⟨[("id", id), ("type", type)]⟩ children
    let part (tag name : String) (target : Xml) : Xml := .element tag ⟨[("name", name)]⟩ [target]
    let listing : Xml :=
      .element "variables" {} [.element "variable" ⟨[("id", "v")]⟩ [.text "n"]]
    let get := block "block" "g" "variables_get" [field [("id", "v")] "VAR" "n"]
    let one := block "shadow" "o" "math_number" [field [] "NUM" "1"]
    let inSet := [field [("id", "v")] "VAR" "n", part "value" "VALUE" one]
    let inIf (inSet : List Xml) := [.element "mutation" ⟨[("else", "1"), ("elseif", "1")]⟩ [],
      part "value" "IF0" get, part "statement" "DO0" (block "block" "s" "variables_set" inSet)]
    let document (inIf : List Xml) : Xml :=
      .element "xml" {} [listing, block "block" "c" "controls_if" inIf]
    let x := document (inIf inSet)
    let x' := document (inIf inSet.reverse).reverse
    List.Forall₂ Shuffled x.children x'.children ∧
      (∀ y ∈ x.blockNodes, (y.value.attribute? "id").isSome = true ∧ y.value.Unambiguous) ∧
      (∀ m ∈ x.mentioned, m.1 ∈ x.listed.map Prod.fst) ∧
      ∃ w w', (ofXml x).workspace = .ok w ∧ (ofXml x').workspace = .ok w' ∧
        w.blocks.toList.map (·.id) = ["g", "o", "s", "c"] ∧
        w'.blocks.toList.map (·.id) = ["o", "s", "g", "c"] ∧ w'.rootTrees = w.rootTrees ∧
        ∀ c : Setup, c.generate w' = c.generate w := by
  intro field block part listing get one inSet inIf document x x'
  have hset : Shuffled (block "block" "s" "variables_set" inSet)
      (block "block" "s" "variables_set" inSet.reverse) :=
    .block (.inl rfl) (Shuffled.refl_children _) (List.reverse_perm _).symm
  have hif : List.Forall₂ Shuffled (inIf inSet) (inIf inSet.reverse) :=
    .cons (.refl _) (.cons (.refl _) (.cons (.element (.cons hset .nil)) .nil))
  have h : List.Forall₂ Shuffled x.children x'.children :=
    .cons (.refl _) (.cons (.block (.inl rfl) hif (List.reverse_perm _).symm) .nil)
  have hnodes : ∀ y ∈ x.blockNodes,
      (y.value.attribute? "id").isSome = true ∧ y.value.Unambiguous := by
    let P (a : Xml) : Prop := (a.attribute? "id").isSome = true ∧ a.Unambiguous
    have hget : ∀ n, ∀ y ∈ Encoding.xml.nodes n get, P y.value :=
      Encoding.xml.forall_nodes (by decide +kernel) (List.forall_mem_nil _)
    have hone : ∀ n, ∀ y ∈ Encoding.xml.nodes n one, P y.value :=
      Encoding.xml.forall_nodes (by decide +kernel) (List.forall_mem_nil _)
    have hset : ∀ n, ∀ y ∈ Encoding.xml.nodes n (block "block" "s" "variables_set" inSet),
        P y.value :=
      Encoding.xml.forall_nodes (by decide +kernel) (List.forall_mem_singleton.2 hone)
    have hif : ∀ n, ∀ y ∈ Encoding.xml.nodes n (block "block" "c" "controls_if" (inIf inSet)),
        P y.value :=
      Encoding.xml.forall_nodes (by decide +kernel)
        (List.forall_mem_cons.2 ⟨hget, List.forall_mem_singleton.2 hset⟩)
    exact List.forall_mem_append.2 ⟨hif 0, List.forall_mem_nil _⟩
  have hlisted : ∀ m ∈ x.mentioned, m.1 ∈ x.listed.map Prod.fst := by
    have hmentioned : x.mentioned = [("v", "n"), ("v", "n")] := by cbv
    rw [hmentioned]
    decide
  have hids : (ofXml x).workspace.toOption.map (·.blocks.toList.map (·.id)) =
      some ["g", "o", "s", "c"] := by decide +kernel +zetaReduce
  have hids' : (ofXml x').workspace.toOption.map (·.blocks.toList.map (·.id)) =
      some ["o", "s", "g", "c"] := by decide +kernel +zetaReduce
  refine ⟨h, hnodes, hlisted, ?_⟩
  cases hw : (ofXml x).workspace with
  | error e => rw [hw] at hids; cases hids
  | ok w =>
    obtain ⟨w', hw'⟩ := (workspace_shuffled h hnodes hlisted).1.1 ⟨w, hw⟩
    obtain ⟨_, htrees, hgenerate⟩ := (workspace_shuffled h hnodes hlisted).2 w w' hw hw'
    rw [hw] at hids
    rw [hw'] at hids'
    exact ⟨w, w', rfl, hw', Option.some.inj hids, Option.some.inj hids', htrees, hgenerate⟩

end Document

end BlockCode
