import BlockCode.Proofs.Nodes

namespace BlockCode

def Block.Covered (b : Block) (names : List (String × String)) : Prop :=
  ∀ name id, (name, .variable id) ∈ b.fields.entries → (names.lookup id).isSome

structure Workspace.Registers (w : Workspace) (names : List (String × String)) : Prop where
  distinct : (w.variableNames.map Prod.fst).Nodup
  lookup (id : String) : w.variableNames.lookup id = names.lookup id
  covered : ∀ b ∈ w.blocks, b.Covered names

theorem isSome_lookup_append_left {names : List (String × String)} {id : String}
    (h : (names.lookup id).isSome = true) (more : List (String × String)) :
    ((names ++ more).lookup id).isSome = true := by
  rw [List.lookup_append, Option.isSome_or, h, Bool.true_or]

theorem Block.Covered.append {b : Block} {names : List (String × String)} (h : b.Covered names)
    (more : List (String × String)) : b.Covered (names ++ more) :=
  fun name id hmem => isSome_lookup_append_left (h name id hmem) more

theorem Block.Covered.setField {b : Block} {names : List (String × String)} (h : b.Covered names)
    (name : String) {value : Field}
    (hvalue : ∀ id, value = .variable id → (names.lookup id).isSome) :
    (b.setField name value).Covered names := by
  intro name' id hmem
  rcases ByName.mem_insertEntry hmem with heq | hmem
  · exact hvalue id (Prod.mk.inj heq).2.symm
  · exact h name' id hmem

namespace Workspace.Registers

variable {w : Workspace} {names : List (String × String)}

theorem empty : Registers {} [] where
  distinct := .nil
  lookup _ := rfl
  covered _ hb := by simp at hb

theorem addVariable (h : w.Registers names) (id name : String) :
    (w.addVariable id name).Registers (names ++ [(id, name)]) := by
  refine ⟨?_, fun other => ?_, fun b hb => (h.covered b ?_).append _⟩
  · unfold Workspace.addVariable
    split
    · exact h.distinct
    · next hnew =>
      have hfresh : id ∉ w.variableNames.map Prod.fst := fun hmem =>
        hnew (by rw [ByName.isSome_lookup]; simpa using hmem)
      rw [List.map_append]
      exact List.Nodup.append h.distinct (List.nodup_singleton _) (by simpa using hfresh)
  · rw [List.lookup_append, ← h.lookup]
    unfold Workspace.addVariable
    split
    · next hold =>
      by_cases hother : other = id
      · subst hother
        cases hname : w.variableNames.lookup other with
        | none => simp [hname] at hold
        | some _ => rfl
      · rw [ByName.lookup_cons_eq, if_neg hother, List.lookup_nil, Option.or_none]
    · exact List.lookup_append
  · rwa [w.blocks_addVariable] at hb

theorem add (h : w.Registers names) {b : Block} (hb : b.Covered names) :
    (w.add b).Registers names where
  distinct := h.distinct
  lookup := h.lookup
  covered b' hb' := by
    rcases Array.mem_push.1 hb' with hb' | rfl
    · exact h.covered b' hb'
    · exact hb

theorem same {w' : Workspace} (h : w.Registers names) (hblocks : w'.blocks = w.blocks)
    (hnames : w'.variableNames = w.variableNames) : w'.Registers names where
  distinct := hnames ▸ h.distinct
  lookup := hnames ▸ h.lookup
  covered := hblocks ▸ h.covered

end Workspace.Registers

namespace Slot

def mention? : Slot → Option (String × String)
  | .field _ (.variable id name) => some (id, name)
  | _ => none

def Honest : Slot → Prop
  | .field _ (.plain content) => ∀ id, content ≠ .variable id
  | _ => True

theorem mention?_of_connection? {slot : Slot} {k : Connection} (h : slot.connection? = some k) :
    slot.mention? = none := by
  cases slot <;> first | rfl | cases h

theorem honest_of_connection? {slot : Slot} {k : Connection} (h : slot.connection? = some k) :
    slot.Honest := by
  cases slot <;> trivial

theorem registers_enter {slot : Slot} (hslot : slot.Honest) {b b' : Block} {link : Option Nat}
    {w w' : Workspace} {names : List (String × String)} (h : slot.enter b link w = .ok (b', w'))
    (hw : w.Registers names) (hb : b.Covered names) :
    w'.Registers (names ++ slot.mention?.toList) ∧ b'.Covered (names ++ slot.mention?.toList) := by
  have hplain : ∀ {b' : Block}, b'.Covered names →
      w.Registers (names ++ []) ∧ b'.Covered (names ++ []) := fun hb' => by
    rw [List.append_nil]
    exact ⟨hw, hb'⟩
  cases slot with
  | field name entry =>
    cases entry with
    | plain content =>
      cases h
      exact hplain (hb.setField name fun id hid => absurd hid (hslot id))
    | «variable» id shown =>
      cases h
      refine ⟨hw.addVariable id shown, (hb.append _).setField name fun id' hid' => ?_⟩
      cases hid'
      simp [mention?, List.lookup_append]
    | fault f => cases h
  | shape elseIfs hasElse =>
    cases h
    have hfields := congrArg Head.fields (Block.toHead_shaped (some (elseIfs, hasElse)) b)
    refine hplain fun name id hmem => hb name id ?_
    rwa [← hfields]
  | _ =>
    cases h
    exact hplain hb

end Slot

namespace Encoding

variable {α : Type} [SizeOf α] (E : Encoding α)

def mentions (a : α) : List (String × String) :=
  (E.parts a).attach.flatMap fun p =>
    (p.1.2.attach.map fun u => mentions u.1).getD [] ++ p.1.1.mention?.toList
termination_by sizeOf a
decreasing_by
  obtain ⟨⟨slot, link⟩, hp⟩ := p
  have hlink : link = some u.1 := u.2
  exact E.smaller (hlink ▸ hp)

def partMentions (p : Slot × Option α) : List (String × String) :=
  (p.2.map E.mentions).getD [] ++ p.1.mention?.toList

theorem mentions_eq (a : α) : E.mentions a = (E.parts a).flatMap E.partMentions := by
  rw [mentions]
  simp only [Option.attach_map_val, List.flatMap_subtype, List.unattach_attach]
  rfl

theorem registers_buildParts (id : String) {parts : List (Slot × Option α)}
    (hhonest : ∀ p ∈ parts, p.1.Honest)
    (hnodes : ∀ slot u, (slot, some u) ∈ parts → ∀ {w w' : Workspace} {i : Nat}
      {names : List (String × String)}, (E.entry u).build w = .ok (i, w') → w.Registers names →
      w'.Registers (names ++ E.mentions u))
    {b b' : Block} {w w' : Workspace} {names : List (String × String)}
    (h : buildParts id (parts.map fun p => (p.1, p.2.map E.entry)) b w = .ok (b', w'))
    (hw : w.Registers names) (hb : b.Covered names) :
    w'.Registers (names ++ parts.flatMap E.partMentions) ∧
      b'.Covered (names ++ parts.flatMap E.partMentions) := by
  induction parts generalizing b w names with
  | nil =>
    cases h
    rw [List.flatMap_nil, List.append_nil]
    exact ⟨hw, hb⟩
  | cons p parts ih =>
    obtain ⟨slot, link⟩ := p
    obtain ⟨hslot, hhonest⟩ := List.forall_mem_cons.1 hhonest
    obtain ⟨i, w₁, b₁, w₂, hlink, henter, hrest⟩ := buildParts_cons_ok h
    have hw₁ : w₁.Registers (names ++ (link.map E.mentions).getD []) := by
      cases link with
      | none =>
        cases hlink
        rwa [Option.map_none, Option.getD_none, List.append_nil]
      | some u =>
        obtain ⟨j, -, hbuild⟩ := buildLink_some_ok hlink
        exact hnodes slot u List.mem_cons_self hbuild hw
    obtain ⟨hw₂, hb₁⟩ := Slot.registers_enter hslot henter hw₁ (hb.append _)
    have hall :=
      ih hhonest (fun slot u hu => hnodes slot u (List.mem_cons_of_mem _ hu)) hrest hw₂ hb₁
    rw [List.flatMap_cons, partMentions]
    simpa only [List.append_assoc] using hall

theorem registers_build (hhonest : ∀ a, ∀ p ∈ E.parts a, p.1.Honest) (a : α) {w w' : Workspace}
    {i : Nat} {names : List (String × String)} (h : (E.entry a).build w = .ok (i, w'))
    (hw : w.Registers names) : w'.Registers (names ++ E.mentions a) := by
  rcases E.entry_eq a with ⟨hentry, -⟩ | hentry
  · rw [hentry] at h
    cases h
  · rw [hentry] at h
    obtain ⟨type, b, w₁, -, hparts, -, rfl⟩ := Entry.build_ok h
    obtain ⟨hw₁, hb⟩ := E.registers_buildParts _ (hhonest a)
      (fun slot u hu => registers_build hhonest u) hparts hw fun name id hmem => by cases hmem
    rw [mentions_eq]
    exact hw₁.add hb
termination_by sizeOf a
decreasing_by exact E.smaller hu

end Encoding

theorem Document.registers_addVariables {entries : List (Option (String × String))}
    {w w' : Workspace} {names : List (String × String)}
    (h : addVariables entries w = .ok ((), w')) (hw : w.Registers names) :
    w'.Registers (names ++ entries.reduceOption) := by
  induction entries generalizing w names with
  | nil =>
    cases h
    simpa using hw
  | cons entry rest ih =>
    cases entry with
    | none => cases h
    | some entry =>
      have hall := ih (w := w.addVariable entry.1 entry.2) h (hw.addVariable entry.1 entry.2)
      simpa using hall

section

variable {α : Type} [SizeOf α] (E : Encoding α) (hhonest : ∀ a, ∀ p ∈ E.parts a, p.1.Honest)
  {toTop : α → Top} (htop : ∀ a, (toTop a).entry = E.entry a)

include hhonest htop

theorem Document.registers_buildTops {items : List α} {placed : List (Top × Nat)}
    {w w' : Workspace} {names : List (String × String)}
    (h : buildTops (items.map toTop) w = .ok (placed, w')) (hw : w.Registers names) :
    w'.Registers (names ++ items.flatMap E.mentions) := by
  induction items generalizing w names placed with
  | nil =>
    cases h
    simpa using hw
  | cons a items ih =>
    obtain ⟨i, w₁, more, hbuild, htops, -⟩ := buildTops_cons_ok h
    rw [htop] at hbuild
    have hall := ih htops (E.registers_build hhonest a hbuild hw)
    rwa [List.append_assoc, ← List.flatMap_cons] at hall

theorem Document.registers_workspace {d : Document} {items : List α} {w : Workspace}
    (htops : ∀ tops, d.tops = some tops → tops = items.map toTop) (h : d.workspace = .ok w) :
    w.Registers (d.variableEntries.reduceOption ++ items.flatMap E.mentions) := by
  obtain ⟨tops, placed, w₁, w₂, hd, hvariables, hplaced, rfl⟩ := workspace_ok h
  rw [htops tops hd] at hplaced
  have hw₁ := registers_addVariables hvariables .empty
  exact (registers_buildTops E hhonest htop hplaced hw₁).same rfl rfl

end

namespace Json

def mention? (field : String) : Json → Option (String × String)
  | .string s => if field = "VAR" then some (s, s) else none
  | .object members => ((members.lookup "id").bind text?).map fun id =>
    (id, ((members.lookup "name").bind text?).getD id)
  | .null | .bool _ | .integer _ | .real _ | .array _ => none

def fieldMentions (v : Json) : List (String × String) :=
  (v.membersAt "fields").filterMap fun f => f.2.mention? f.1

def listed (v : Json) : List (String × String) :=
  (((v.get? "variables").bind items?).getD []).filterMap variableEntry

def mentioned (v : Json) : List (String × String) :=
  v.blockNodes.flatMap fun x => x.value.fieldMentions

theorem mention?_fieldEntry (field : String) (v : Json) :
    Slot.mention? (.field field (v.fieldEntry field)) = v.mention? field := by
  cases v with
  | string s =>
    rw [fieldEntry, mention?]
    split <;> rfl
  | object members =>
    rw [fieldEntry, mention?]
    dsimp only [get?]
    cases (members.lookup "id").bind text? <;> rfl
  | _ => rfl

theorem honest_fieldEntry (field : String) (v : Json) :
    Slot.Honest (.field field (v.fieldEntry field)) := by
  cases v with
  | string s =>
    rw [fieldEntry]
    split
    · trivial
    · exact fun id h => by cases h
  | object members =>
    rw [fieldEntry]
    split <;> trivial
  | array items => trivial
  | _ => exact fun id h => by cases h

theorem mention?_of_mem_linkParts {v : Json} {p : Slot × Option Json} (h : p ∈ v.linkParts) :
    p.1.mention? = none := by
  have hfield := ne_field_of_mem_linkParts h
  cases hslot : p.1 with
  | field name entry => exact absurd hslot (hfield name entry)
  | _ => rfl

theorem honest_nodeParts (v : Json) (p : Slot × Option Json) (h : p ∈ v.nodeParts) :
    p.1.Honest := by
  rcases List.mem_append.1 h with h | h
  · obtain ⟨f, -, rfl⟩ := List.mem_map.1 h
    exact honest_fieldEntry f.1 f.2
  · have hfield := ne_field_of_mem_linkParts h
    cases hslot : p.1 with
    | field name entry => exact absurd hslot (hfield name entry)
    | _ => trivial

open Encoding

theorem flatMap_nodesInside (parts : List (Slot × Option Json))
    (h : ∀ slot u, (slot, some u) ∈ parts → ∀ n,
      (json.nodes n u).flatMap (fun x => x.value.fieldMentions) = json.mentions u)
    (id : String) (n : Nat) :
    (json.nodesInside id n parts).flatMap (fun x => x.value.fieldMentions) =
      parts.flatMap fun p => (p.2.map json.mentions).getD [] := by
  induction parts generalizing n with
  | nil => rfl
  | cons p parts ih =>
    obtain ⟨slot, link⟩ := p
    have ih := ih fun slot u hu => h slot u (List.mem_cons_of_mem _ hu)
    cases link with
    | none => exact ih n
    | some u =>
      have hu := h slot u List.mem_cons_self n
      rw [nodesInside_some, List.flatMap_append, ih, List.flatMap_map, List.flatMap_cons]
      exact congrArg (· ++ _) hu

theorem flatMap_nodes (v : Json) (n : Nat) :
    (json.nodes n v).flatMap (fun x => x.value.fieldMentions) = json.mentions v := by
  have hfields : ((v.membersAt "fields").map fun f =>
      (Slot.field f.1 (f.2.fieldEntry f.1), (none : Option Json))).flatMap json.partMentions =
        v.fieldMentions := by
    rw [List.flatMap_map, fieldMentions, List.filterMap_eq_flatMap_toList]
    refine List.flatMap_congr fun f _ => ?_
    rw [partMentions, mention?_fieldEntry]
    rfl
  have hlinks : v.linkParts.flatMap json.partMentions =
      v.linkParts.flatMap fun p => (p.2.map json.mentions).getD [] :=
    List.flatMap_congr fun p hp => by
      rw [partMentions, mention?_of_mem_linkParts hp, Option.toList_none, List.append_nil]
  have hinside := flatMap_nodesInside v.linkParts
    (fun slot u hu k => flatMap_nodes u k) (json.idAt n v) n
  rw [mentions_eq, nodes_eq]
  change v.fieldMentions ++ (json.nodesInside _ n v.nodeParts).flatMap _ =
    v.nodeParts.flatMap json.partMentions
  rw [nodesInside_nodeParts, hinside, nodeParts, List.flatMap_append, hfields, hlinks]
termination_by sizeOf v
decreasing_by exact smaller_nodeParts (List.mem_append_right _ hu)

theorem mentioned_eq (v : Json) : v.mentioned = v.topItems.flatMap json.mentions := by
  unfold mentioned blockNodes listing
  generalize 0 = n
  induction v.topItems generalizing n with
  | nil => rfl
  | cons u items ih => rw [inRow, List.flatMap_append, flatMap_nodes, ih, List.flatMap_cons]

theorem registers_workspace {v : Json} {w : Workspace}
    (h : (Document.ofJson v).workspace = .ok w) : w.Registers (v.listed ++ v.mentioned) := by
  have hlisted : (Document.ofJson v).variableEntries.reduceOption = v.listed := by
    rw [Document.ofJson, List.reduceOption, List.filterMap_map]
    rfl
  rw [← hlisted, mentioned_eq]
  exact Document.registers_workspace json honest_nodeParts (fun _ => rfl)
    (fun _ => eq_topItems_of_tops) h

end Json

namespace Xml

def mention? (field : Xml) : Option (String × String) :=
  match field.attribute? "id" with
  | some id => some (id, field.label)
  | none =>
    if field.attribute? "name" = some "VAR" then some (field.label, field.label) else none

def fieldsIn (x : Xml) : List Xml :=
  x.children.attach.flatMap fun c =>
    if c.1.isElement "field" then [c.1]
    else if c.1.isConnection then (c.1.target?.attach.map fun u => fieldsIn u.1).getD []
    else []
termination_by sizeOf x
decreasing_by exact (sizeOf_of_target? u.2).trans (sizeOf_of_mem_children c.2)

theorem fieldsIn_eq (x : Xml) : x.fieldsIn = x.children.flatMap fun c =>
    if c.isElement "field" then [c]
    else if c.isConnection then (c.target?.map fieldsIn).getD []
    else [] := by
  rw [fieldsIn]
  simp only [Option.attach_map_val, List.flatMap_subtype, List.unattach_attach]

def listed (x : Xml) : List (String × String) :=
  ((x.children.find? (isElement "variables")).map fun list =>
    (list.children.filter (isElement "variable")).filterMap variableEntry).getD []

def mentioned (x : Xml) : List (String × String) :=
  (x.topItems.flatMap fieldsIn).filterMap mention?

theorem mention?_fieldEntry (x : Xml) {name : String}
    (hname : name = (x.attribute? "name").getD "") :
    Slot.mention? (.field name (x.fieldEntry name)) = x.mention? := by
  have hvar : name = "VAR" ↔ x.attribute? "name" = some "VAR" := by
    rw [hname]
    cases x.attribute? "name" <;> simp
  unfold fieldEntry mention?
  cases x.attribute? "id" with
  | some id => rfl
  | none => by_cases h : name = "VAR" <;> simp [h, ← hvar, Slot.mention?]

theorem honest_fieldEntry (x : Xml) (name : String) :
    Slot.Honest (.field name (x.fieldEntry name)) := by
  unfold fieldEntry
  split
  · trivial
  · split
    · trivial
    · exact fun id h => by cases h

theorem honest_nodeParts (x : Xml) (p : Slot × Option Xml) (h : p ∈ x.nodeParts) :
    p.1.Honest := by
  obtain ⟨c, -, hpart⟩ := List.mem_filterMap.1 h
  obtain ⟨slot, hslot, rfl⟩ := Option.map_eq_some_iff.1 hpart
  cases hfield : c.isElement "field" with
  | true =>
    obtain ⟨name, -, heq⟩ := slot?_of_field hfield
    cases hslot.symm.trans heq
    exact honest_fieldEntry c name
  | false =>
    cases hconnection : c.isConnection with
    | true =>
      obtain ⟨_, k, heq, hk⟩ := slot?_of_isConnection hconnection
      cases hslot.symm.trans heq
      exact Slot.honest_of_connection? hk
    | false =>
      rw [slot?_of_other hfield hconnection hslot]
      trivial

open Encoding

theorem partMentions_nodePart? (c : Xml) : c.nodePart?.toList.flatMap xml.partMentions =
    if c.isElement "field" then c.mention?.toList
    else if c.isConnection then (c.target?.map xml.mentions).getD []
    else [] := by
  unfold nodePart?
  cases hfield : c.isElement "field" with
  | true =>
    obtain ⟨name, hname, hslot⟩ := slot?_of_field hfield
    have hconnection : c.isConnection = false := by
      simp [isConnection, isElement_of_ne hfield]
    simp [hslot, hconnection, partMentions, mention?_fieldEntry c hname]
  | false =>
    cases hconnection : c.isConnection with
    | true =>
      obtain ⟨slot, k, hslot, hk⟩ := slot?_of_isConnection hconnection
      simp [hslot, partMentions, Slot.mention?_of_connection? hk]
    | false =>
      cases hslot : c.slot? with
      | none => rfl
      | some slot =>
        rw [slot?_of_other hfield hconnection hslot]
        rfl

theorem filterMap_fieldsIn (x : Xml) : x.fieldsIn.filterMap mention? = xml.mentions x := by
  have hparts : xml.mentions x =
      x.children.flatMap fun c => c.nodePart?.toList.flatMap xml.partMentions := by
    rw [mentions_eq, ← List.flatMap_assoc, ← List.filterMap_eq_flatMap_toList]
    rfl
  rw [hparts, fieldsIn_eq, List.filterMap_flatMap]
  refine List.flatMap_congr fun c hc => ?_
  rw [partMentions_nodePart?]
  split
  · rw [List.filterMap_cons]
    cases c.mention? <;> rfl
  · split
    · cases htarget : c.target? with
      | none => rfl
      | some u => exact filterMap_fieldsIn u
    · rfl
termination_by sizeOf x
decreasing_by exact (sizeOf_of_target? htarget).trans (sizeOf_of_mem_children hc)

theorem reduceOption_variableEntries (x : Xml) :
    (Document.ofXml x).variableEntries.reduceOption = x.listed := by
  rw [Document.ofXml, listed]
  cases x.children.find? (isElement "variables") with
  | none => rfl
  | some list =>
    rw [List.reduceOption, List.filterMap_map]
    rfl

theorem mentioned_eq (x : Xml) : x.mentioned = x.topItems.flatMap xml.mentions := by
  rw [mentioned, List.filterMap_flatMap]
  exact List.flatMap_congr fun c _ => filterMap_fieldsIn c

theorem registers_workspace {x : Xml} {w : Workspace}
    (h : (Document.ofXml x).workspace = .ok w) : w.Registers (x.listed ++ x.mentioned) := by
  rw [← reduceOption_variableEntries, mentioned_eq]
  exact Document.registers_workspace xml honest_nodeParts (fun _ => rfl)
    (fun tops htops => (Option.some.inj htops).symm) h

end Xml

/-- The variables of a workspace are those that were listed and those that were mentioned. A listed
one has the first name in the list, and any other has the name of its first mention. -/
structure Workspace.NamesFrom (w : Workspace) (listed mentioned : List (String × String)) :
    Prop where
  distinct : (w.variableNames.map Prod.fst).Nodup
  known : ∀ b ∈ w.blocks, ∀ field id, (field, .variable id) ∈ b.fields.entries →
    id ∈ w.variableNames.map Prod.fst
  of_listed (id name : String) : listed.lookup id = some name →
    w.variableNames.lookup id = some name
  of_mentioned (id : String) : listed.lookup id = none →
    w.variableNames.lookup id = mentioned.lookup id

theorem Workspace.Registers.namesFrom {w : Workspace} {listed mentioned : List (String × String)}
    (h : w.Registers (listed ++ mentioned)) : w.NamesFrom listed mentioned where
  distinct := h.distinct
  known b hb field id hmem := by
    have hsome := h.covered b hb field id hmem
    rw [← h.lookup, ByName.isSome_lookup] at hsome
    simpa using hsome
  of_listed id name hname := by rw [h.lookup, List.lookup_append, hname, Option.some_or]
  of_mentioned id hnone := by rw [h.lookup, List.lookup_append, hnone, Option.none_or]

/-- A document that is read makes known the variables that it lists or mentions, under their first
names, and every field has its variable among them. -/
theorem Document.namesFrom_workspace :
    (∀ (v : Json) (w : Workspace), (ofJson v).workspace = .ok w →
      w.NamesFrom v.listed v.mentioned) ∧
    ∀ (x : Xml) (w : Workspace), (ofXml x).workspace = .ok w → w.NamesFrom x.listed x.mentioned :=
  ⟨fun _ _ h => (Json.registers_workspace h).namesFrom,
    fun _ _ h => (Xml.registers_workspace h).namesFrom⟩

theorem Document.namesFrom_disabled :
    let field (id shown : String) : Xml :=
      .element "field" ⟨[("id", id), ("name", "VAR")]⟩ [.text shown]
    let entry (id shown : String) : Xml := .element "variable" ⟨[("id", id)]⟩ [.text shown]
    let get (id : String) (field : Xml) (rest : List Xml) : Xml :=
      .element "block" ⟨[("disabled", "true"), ("id", id), ("type", "variables_get")]⟩
        [field, .element "next" {} rest]
    let x : Xml := .element "xml" {} [
      .element "variables" {} [entry "a" "first", entry "a" "second"],
      get "g" (field "b" " total ") [get "h" (field "a" "third") [get "i" (field "b" "sum") []]]]
    ∃ w, (ofXml x).workspace = .ok w ∧ w.NamesFrom x.listed x.mentioned ∧
      w.size = 3 ∧ w.variableNames = [("a", "first"), ("b", "total")] := by
  intro field entry get x
  let block (id known : String) (next : Option Nat) : Block :=
    { id, type := "variables_get", fields := ⟨[("VAR", .variable known)]⟩, disabled := true, next }
  let w : Workspace := {
    blocks := #[block "i" "b" none, block "h" "a" (some 0), block "g" "b" (some 1)],
    roots := [2], variableNames := [("a", "first"), ("b", "total")] }
  have hload : (ofXml x).workspace = .ok w := by decide +kernel
  exact ⟨w, hload, Document.namesFrom_workspace.2 x w hload, rfl, rfl⟩

end BlockCode
