import BlockCode.Proofs.Loading

namespace BlockCode

namespace Json

mutual

def Keyed : Json → Prop
  | .object members => (members.map Prod.fst).Nodup ∧ KeyedMembers members
  | .array items => KeyedItems items
  | .null | .bool _ | .integer _ | .real _ | .string _ => True

def KeyedMembers : List (String × Json) → Prop
  | [] => True
  | (_, v) :: rest => v.Keyed ∧ KeyedMembers rest

def KeyedItems : List Json → Prop
  | [] => True
  | v :: rest => v.Keyed ∧ KeyedItems rest

end

theorem keyedMembers_iff {members : List (String × Json)} :
    KeyedMembers members ↔ ∀ m ∈ members, m.2.Keyed := by
  induction members with
  | nil => simp [KeyedMembers]
  | cons m rest ih => simp [KeyedMembers, ih]

theorem keyedItems_iff {items : List Json} : KeyedItems items ↔ ∀ v ∈ items, v.Keyed := by
  induction items with
  | nil => simp [KeyedItems]
  | cons v rest ih => simp [KeyedItems, ih]

theorem items_spec {α : Type} {item : List Char → Option (α × List Char)} {close : Char}
    {P : α → Prop} (hitem : ∀ cs a rest, item cs = some (a, rest) → P a) {n : Nat}
    {cs rest : List Char} {as : List α} (h : items item close n cs = some (as, rest)) :
    ∀ a ∈ as, P a := by
  induction n generalizing cs as rest with
  | zero => cases h
  | succ n ih =>
    obtain ⟨⟨a, cs'⟩, ha, h⟩ := Option.bind_eq_some_iff.1 h
    have hfirst := hitem cs a cs' ha
    dsimp only at h
    split at h
    · split at h
      · obtain ⟨⟨more, cs''⟩, hmore, h⟩ := Option.bind_eq_some_iff.1 h
        cases h
        exact List.forall_mem_cons.2 ⟨hfirst, ih hmore⟩
      · split at h
        · cases h
          simpa using hfirst
        · cases h
    · cases h

theorem bracketed_spec {α : Type} {item : List Char → Option (α × List Char)} {close : Char}
    {P : α → Prop} (hitem : ∀ cs a rest, item cs = some (a, rest) → P a)
    {cs rest : List Char} {as : List α} (h : bracketed item close cs = some (as, rest)) :
    ∀ a ∈ as, P a := by
  unfold bracketed at h
  split at h
  · cases h
  · split at h
    · cases h
      simp
    · exact items_spec hitem h

theorem scalar_of_number {cs rest : List Char} {v : Json} (h : number cs = some (v, rest)) :
    v.items? = none ∧ v.members? = none := by
  obtain ⟨⟨n, cs'⟩, hn, h⟩ := Option.bind_eq_some_iff.1 h
  obtain ⟨v', hv, h⟩ := Option.bind_eq_some_iff.1 h
  cases h
  have hreal : ∀ {x? : Option Number}, x?.map Json.real = some v →
      v.items? = none ∧ v.members? = none := by
    intro x? hx
    obtain ⟨x, -, rfl⟩ := Option.map_eq_some_iff.1 hx
    exact ⟨rfl, rfl⟩
  unfold Numeral.value? at hv
  dsimp only at hv
  split at hv
  · split at hv
    · split at hv
      · cases hv
        exact ⟨rfl, rfl⟩
      · exact hreal hv
    · split at hv
      · cases hv
        exact ⟨rfl, rfl⟩
      · exact hreal hv
  · exact hreal hv

theorem member_spec {item : List Char → Option (Json × List Char)} {P : Json → Prop}
    (hitem : ∀ cs v rest, item cs = some (v, rest) → P v) {cs rest : List Char}
    {m : String × Json} (h : member item cs = some (m, rest)) : P m.2 := by
  unfold member at h
  split at h
  · obtain ⟨⟨name, cs'⟩, hname, h⟩ := Option.bind_eq_some_iff.1 h
    dsimp only at h
    split at h
    · obtain ⟨⟨v, cs''⟩, hv, h⟩ := Option.bind_eq_some_iff.1 h
      cases h
      exact hitem _ v cs'' hv
    · cases h
  · cases h

section

variable {P : Json → Prop} (scalar : ∀ v : Json, v.items? = none → v.members? = none → P v)
  (array : ∀ items : List Json, (∀ v ∈ items, P v) → P (.array items))
  (object : ∀ members : List (String × Json), (∀ m ∈ members, P m.2) →
    P (.object (ByName.ofList members).entries))
include scalar array object

theorem value_spec {depth : Nat} {cs rest : List Char} {v : Json}
    (h : value depth cs = some (v, rest)) : P v := by
  induction depth using Nat.strong_induction_on generalizing cs rest v with
  | h depth ih =>
    rw [value.eq_def] at h
    dsimp only at h
    split at h
    · cases h
      exact scalar _ rfl rfl
    · cases h
      exact scalar _ rfl rfl
    · cases h
      exact scalar _ rfl rfl
    · obtain ⟨r, -, h⟩ := Option.map_eq_some_iff.1 h
      cases h
      exact scalar _ rfl rfl
    · split at h
      · cases h
      · obtain ⟨⟨vs, rest'⟩, hvs, h⟩ := Option.map_eq_some_iff.1 h
        cases h
        exact array vs (bracketed_spec (fun cs v rest hv => ih _ (Nat.lt_succ_self _) hv) hvs)
    · split at h
      · cases h
      · obtain ⟨⟨ms, rest'⟩, hms, h⟩ := Option.map_eq_some_iff.1 h
        cases h
        exact object ms (bracketed_spec (P := fun m : String × Json => P m.2)
          (fun cs m rest hm => member_spec (fun cs v rest hv => ih _ (Nat.lt_succ_self _) hv) hm)
          hms)
    · obtain ⟨hitems, hmembers⟩ := scalar_of_number h
      exact scalar v hitems hmembers

theorem parse_spec {s : String} {v : Json} (h : parse? s = some v) : P v := by
  unfold parse? parseList? at h
  split at h
  · next hvalue =>
    split at h
    · cases h
      exact value_spec scalar array object hvalue
    · cases h
  · cases h

end

theorem keyed_of_parse {s : String} {v : Json} (h : parse? s = some v) : v.Keyed := by
  refine parse_spec (fun v hitems hmembers => ?_) (fun items hitems => keyedItems_iff.2 hitems)
    (fun members hmembers => ?_) h
  · cases v with
    | array items => cases hitems
    | object members => cases hmembers
    | _ => trivial
  · obtain ⟨hsorted, hmem⟩ := ByName.entries_ofList members
    exact ⟨hsorted.nodup, keyedMembers_iff.2 fun m hm => hmembers m (hmem m hm)⟩

end Json

/-- No name is given both among the inputs, as one for statements, and among the statements. -/
def SharesNoName (parts : List (Slot × Option Entry)) : Prop :=
  ∀ name, Slot.statement .input name ∈ parts.map Prod.fst →
    Slot.statement .statement name ∉ parts.map Prod.fst

theorem connections_append (parts parts' : List (Slot × Option Entry)) :
    connections (parts ++ parts') = connections parts ++ connections parts' :=
  List.filterMap_append

theorem connections_eq_filterMap (parts : List (Slot × Option Entry)) :
    connections parts = (parts.map Prod.fst).filterMap Slot.connection? := by
  rw [List.filterMap_map]
  rfl

theorem connections_eq_nil {parts : List (Slot × Option Entry)}
    (h : ∀ part ∈ parts, part.1.connection? = none ∧ part.2 = none) : connections parts = [] :=
  List.filterMap_eq_nil_iff.2 fun part hpart => (h part hpart).1

namespace Json

def namesAt (name : String) (members : List (String × Json)) : List String :=
  ((members.lookup name).bind members?).getD [] |>.map Prod.fst

theorem nodup_namesAt {members : List (String × Json)} (h : KeyedMembers members) (name : String) :
    (namesAt name members).Nodup := by
  unfold namesAt
  cases hlookup : members.lookup name with
  | none => exact .nil
  | some v =>
    obtain ⟨before, after, hmembers, -⟩ := List.lookup_eq_some_iff.1 hlookup
    have hv := keyedMembers_iff.1 h (name, v) (by simp [hmembers])
    cases v with
    | object inner => exact hv.1
    | _ => exact .nil

theorem connections_fst (slot : String → Slot) (members : List (String × Json)) :
    (connections slot members).map Prod.fst = members.map fun m => slot m.1 := by
  induction members with
  | nil => rfl
  | cons m rest ih => simp [connections, ih]

theorem inputsAt_fst (name : String) (slot : String → Slot) (members : List (String × Json)) :
    (inputsAt name slot members).map Prod.fst = (namesAt name members).map slot := by
  unfold namesAt
  induction members with
  | nil => rfl
  | cons m rest ih =>
    obtain ⟨n, v⟩ := m
    rw [inputsAt, ByName.lookup_cons_eq]
    split
    · cases v with
      | object inner =>
        simp only [inputParts, connections_fst]
        simp [members?, Function.comp_def]
      | _ => simp [inputParts, members?]
    · exact ih

theorem nextAt_fst (members : List (String × Json)) :
    (nextAt members).map Prod.fst = [] ∨ (nextAt members).map Prod.fst = [.next] := by
  induction members with
  | nil => exact .inl rfl
  | cons m rest ih =>
    rw [nextAt]
    split
    · exact .inr rfl
    · exact ih

theorem plain_fieldParts (v : Json) :
    ∀ part ∈ v.fieldParts, part.1.connection? = none ∧ part.2 = none := by
  intro part hpart
  obtain ⟨m, -, rfl⟩ := List.mem_map.1 hpart
  exact ⟨rfl, rfl⟩

theorem plain_shapeParts (v : Json) :
    ∀ part ∈ v.shapeParts, part.1.connection? = none ∧ part.2 = none := by
  intro part hpart
  unfold shapeParts at hpart
  split at hpart
  · obtain rfl := List.mem_singleton.1 hpart
    exact ⟨rfl, rfl⟩
  · cases hpart

theorem connections_inputsAt (slot : String → Slot) (place : String → Connection)
    (hslot : ∀ n, (slot n).connection? = some (place n)) (name : String)
    (members : List (String × Json)) :
    BlockCode.connections (inputsAt name slot members) = (namesAt name members).map place := by
  rw [connections_eq_filterMap, inputsAt_fst, List.filterMap_map, ← List.filterMap_eq_map]
  exact congrArg (List.filterMap · _) (funext hslot)

def inputPlace (name : String) : Connection :=
  if isStatementInput name then .statement name else .value name

theorem inputSlot_connection (name : String) :
    (inputSlot name).connection? = some (inputPlace name) := by
  unfold inputSlot inputPlace
  split <;> rfl

theorem inputPlace_injective {m n : String} (h : inputPlace m = inputPlace n) : m = n := by
  unfold inputPlace at h
  split at h <;> split at h <;> cases h <;> rfl

def blockParts (members : List (String × Json)) : List (Slot × Option Entry) :=
  (Json.object members).fieldParts ++ inputsAt "inputs" inputSlot members ++
    inputsAt "statements" statementSlot members ++ (Json.object members).shapeParts ++
    nextAt members

theorem inputPlace_disjoint {members : List (String × Json)}
    (hshare : SharesNoName (blockParts members)) {n m : String} (hn : n ∈ namesAt "inputs" members)
    (hm : m ∈ namesAt "statements" members) : inputPlace n ≠ .statement m := by
  intro heq
  have hinput : inputSlot n ∈ (blockParts members).map Prod.fst := by
    simp only [blockParts, List.map_append, List.mem_append, inputsAt_fst]
    exact .inl (.inl (.inl (.inr (List.mem_map_of_mem hn))))
  have hstatement : statementSlot m ∈ (blockParts members).map Prod.fst := by
    simp only [blockParts, List.map_append, List.mem_append, inputsAt_fst]
    exact .inl (.inl (.inr (List.mem_map_of_mem hm)))
  unfold inputPlace at heq
  unfold inputSlot at hinput
  split at heq
  · next hname =>
    cases heq
    rw [if_pos hname] at hinput
    exact hshare n hinput hstatement
  · cases heq

theorem nodup_connections {members : List (String × Json)} (h : KeyedMembers members)
    (hshare : SharesNoName (blockParts members)) :
    (BlockCode.connections (blockParts members)).Nodup := by
  have hinputs := connections_inputsAt inputSlot inputPlace inputSlot_connection "inputs" members
  have hstatements :=
    connections_inputsAt statementSlot .statement (fun _ => rfl) "statements" members
  have hplaces : ((namesAt "inputs" members).map inputPlace ++
      (namesAt "statements" members).map Connection.statement).Nodup := by
    refine List.nodup_append.2 ⟨(nodup_namesAt h _).map fun _ _ => inputPlace_injective,
      (nodup_namesAt h _).map fun _ _ heq => by cases heq; rfl, ?_⟩
    simp only [List.forall_mem_map]
    exact fun n hn m hm => inputPlace_disjoint hshare hn hm
  have hnext : (BlockCode.connections (nextAt members)).Sublist [.next] := by
    rw [connections_eq_filterMap]
    rcases nextAt_fst members with hnext | hnext <;> rw [hnext] <;> simp [Slot.connection?]
  simp only [blockParts, connections_append, connections_eq_nil (plain_fieldParts _),
    connections_eq_nil (plain_shapeParts _), hinputs, hstatements, List.nil_append, List.append_nil]
  refine List.Nodup.sublist (hnext.append_left _) (List.nodup_append.2 ⟨hplaces, by simp, ?_⟩)
  simp only [List.mem_append, List.mem_map, List.mem_singleton]
  rintro _ (⟨n, -, rfl⟩ | ⟨n, -, rfl⟩) _ rfl heq
  · unfold inputPlace at heq
    split at heq <;> cases heq
  · cases heq

theorem separate_blockParts {members : List (String × Json)} (h : KeyedMembers members)
    (hshare : SharesNoName (blockParts members)) : Separate (blockParts members) where
  nodup := nodup_connections h hshare
  plain := by
    have hconnected : ∀ {parts : List (Slot × Option Entry)},
        (∀ slot ∈ parts.map Prod.fst, slot.connection?.isSome = true) →
        ∀ part ∈ parts, part.1.connection? = none → part.2 = none := by
      intro _ hslots part hpart hnone
      have hsome := hslots part.1 (List.mem_map_of_mem hpart)
      simp [hnone] at hsome
    simp only [blockParts, List.forall_mem_append]
    refine ⟨⟨⟨⟨fun part hpart _ => (plain_fieldParts _ part hpart).2, hconnected ?_⟩,
      hconnected ?_⟩, fun part hpart _ => (plain_shapeParts _ part hpart).2⟩, hconnected ?_⟩
    · simp [inputsAt_fst, inputSlot_connection]
    · simp [inputsAt_fst, statementSlot, Slot.connection?]
    · rcases nextAt_fst members with hnext | hnext <;> simp [hnext, Slot.connection?]

end Json

variable {P Q : List (Slot × Option Entry) → Prop}

theorem everyPart_append {parts parts' : List (Slot × Option Entry)} (h : EveryPart P parts)
    (h' : EveryPart P parts') : EveryPart P (parts ++ parts') := by
  induction parts with
  | nil => exact h'
  | cons part rest ih =>
    obtain ⟨slot, entry⟩ := part
    cases entry with
    | none => exact ih h
    | some e => exact ⟨h.1, ih h.2⟩

theorem everyPart_of_plain {parts : List (Slot × Option Entry)}
    (h : ∀ part ∈ parts, part.1.connection? = none ∧ part.2 = none) : EveryPart P parts := by
  induction parts with
  | nil => trivial
  | cons part rest ih =>
    obtain ⟨slot, entry⟩ := part
    obtain ⟨⟨-, rfl⟩, hrest⟩ := List.forall_mem_cons.1 h
    exact ih hrest

theorem everyPart_cons {slot : Slot} {entry : Option Entry} {rest : List (Slot × Option Entry)}
    (h : ∀ e, entry = some e → e.Every P) (hrest : EveryPart P rest) :
    EveryPart P ((slot, entry) :: rest) := by
  cases entry with
  | none => exact hrest
  | some e => exact ⟨h e rfl, hrest⟩

mutual

theorem Entry.Every.mp : ∀ {e : Entry}, e.Every P → e.Every (fun parts => P parts → Q parts) →
    e.Every Q
  | .malformed, _, _ => trivial
  | .block _ _, h, hPQ => ⟨hPQ.1 h.1, EveryPart.mp h.2 hPQ.2⟩

theorem EveryPart.mp : ∀ {parts : List (Slot × Option Entry)}, EveryPart P parts →
    EveryPart (fun parts => P parts → Q parts) parts → EveryPart Q parts
  | [], _, _ => trivial
  | (_, none) :: rest, h, hPQ =>
    have hrest : EveryPart P rest := h
    hrest.mp hPQ
  | (_, some _) :: _, h, hPQ => ⟨h.1.mp hPQ.1, h.2.mp hPQ.2⟩

end

namespace Json

mutual

theorem every_blockEntry (hP : ∀ members, KeyedMembers members → P (blockParts members)) :
    ∀ v : Json, v.Keyed → v.blockEntry.Every P
  | .object members, h => by
    rw [blockEntry]
    refine ⟨hP members h.2, everyPart_append (everyPart_append (everyPart_append (everyPart_append
      (everyPart_of_plain (plain_fieldParts _)) ?_) ?_)
      (everyPart_of_plain (plain_shapeParts _))) ?_⟩
    · exact every_inputsAt hP "inputs" inputSlot members h.2
    · exact every_inputsAt hP "statements" statementSlot members h.2
    · exact every_nextAt hP members h.2
  | .null, _ | .bool _, _ | .integer _, _ | .real _, _ | .string _, _ | .array _, _ => by
    simp only [blockEntry]
    trivial

theorem every_connection (hP : ∀ members, KeyedMembers members → P (blockParts members)) :
    ∀ v : Json, v.Keyed → ∀ e, v.connection = some e → e.Every P
  | .object members, h, e, he => by
    rw [connection] at he
    split at he
    · next hblock =>
      cases he
      exact every_entryAt hP "block" members h.2 e hblock
    · exact every_entryAt hP "shadow" members h.2 e he
  | .null, _, _, he | .bool _, _, _, he | .integer _, _, _, he | .real _, _, _, he
  | .string _, _, _, he | .array _, _, _, he => by simp [connection] at he

theorem every_entryAt (hP : ∀ members, KeyedMembers members → P (blockParts members))
    (name : String) : ∀ members, KeyedMembers members → ∀ e, entryAt name members = some e →
      e.Every P
  | [], _, e, he => by simp [entryAt] at he
  | (n, v) :: rest, h, e, he => by
    rw [entryAt] at he
    split at he
    · cases he
      exact every_blockEntry hP v h.1
    · exact every_entryAt hP name rest h.2 e he

theorem every_nextAt (hP : ∀ members, KeyedMembers members → P (blockParts members)) :
    ∀ members, KeyedMembers members → EveryPart P (nextAt members)
  | [], _ => by
    rw [nextAt]
    trivial
  | (n, v) :: rest, h => by
    rw [nextAt]
    split
    · exact everyPart_cons (every_connection hP v h.1) trivial
    · exact every_nextAt hP rest h.2

theorem every_inputsAt (hP : ∀ members, KeyedMembers members → P (blockParts members))
    (name : String) (slot : String → Slot) :
    ∀ members, KeyedMembers members → EveryPart P (inputsAt name slot members)
  | [], _ => by
    rw [inputsAt]
    trivial
  | (n, v) :: rest, h => by
    rw [inputsAt]
    split
    · exact every_inputParts hP slot v h.1
    · exact every_inputsAt hP name slot rest h.2

theorem every_inputParts (hP : ∀ members, KeyedMembers members → P (blockParts members))
    (slot : String → Slot) : ∀ v : Json, v.Keyed → EveryPart P (inputParts slot v)
  | .object members, h => by
    rw [inputParts]
    exact every_connections hP slot members h.2
  | .null, _ | .bool _, _ | .integer _, _ | .real _, _ | .string _, _ | .array _, _ => by
    simp only [inputParts]
    trivial

theorem every_connections (hP : ∀ members, KeyedMembers members → P (blockParts members))
    (slot : String → Slot) :
    ∀ members, KeyedMembers members → EveryPart P (connections slot members)
  | [], _ => by
    rw [connections]
    trivial
  | (n, v) :: rest, h => by
    rw [connections]
    exact everyPart_cons (every_connection hP v h.1) (every_connections hP slot rest h.2)

end

end Json

theorem Json.Keyed.get? {v u : Json} (h : v.Keyed) {name : String} (hu : v.get? name = some u) :
    u.Keyed := by
  unfold Json.get? at hu
  split at hu
  · obtain ⟨before, after, hmembers, -⟩ := List.lookup_eq_some_iff.1 hu
    exact keyedMembers_iff.1 h.2 (name, u) (by simp [hmembers])
  · cases hu

theorem Document.ofJson_tops {v : Json} (hv : v.Keyed) {tops : List Top}
    (h : (ofJson v).tops = some tops) :
    ∃ items, Json.KeyedItems items ∧ tops = items.map Json.top := by
  simp only [ofJson] at h
  split at h
  · exact ⟨[], trivial, (Option.some.inj h).symm⟩
  · next items hblocks => exact ⟨items, hv.get? hblocks, (Option.some.inj h).symm⟩
  · next members hblocks =>
    refine ⟨_, ?_, (Option.some.inj h).symm⟩
    cases hinner : (Json.object members).get? "blocks" with
    | none => trivial
    | some u =>
      have hu := (hv.get? hblocks).get? hinner
      cases u with
      | array items => exact hu
      | _ => trivial
  · cases h

theorem Document.separate_ofJson {v : Json} (hv : v.Keyed) {tops : List Top}
    (htops : (ofJson v).tops = some tops) (h : ∀ top ∈ tops, top.entry.Every SharesNoName) :
    ∀ top ∈ tops, top.entry.Every Separate := by
  obtain ⟨items, hitems, rfl⟩ := ofJson_tops hv htops
  rw [List.forall_mem_map] at h ⊢
  exact fun item hitem => (h item hitem).mp (item.every_blockEntry
    (fun _ => Json.separate_blockParts) (Json.keyedItems_iff.1 hitems item hitem))

/--
A workspace that was loaded from a document. Its links lead to earlier blocks and no block is the
target of two of them, so that all that is computed from it comes to an end and finds the blocks it
looks for.
-/
theorem Document.wellFormed_of_load {d : Document} {w : Workspace} (h : d.workspace = .ok w) :
    w.WellFormed ∧
    (∃ tops, d.tops = some tops ∧ w.roots.length = tops.length ∧
      ∀ v : Json, v.Keyed → d = ofJson v → (∀ top ∈ tops, top.entry.Every SharesNoName) →
        ∀ i < w.size, w.targets.count i = 1) ∧
    (∃ ids, referencedVariables w.rootTrees = .ok ids) ∧
    ∀ c : Setup, c.book = .builtin → ∀ e, c.generate w = .error e →
      e ≠ .missingBlock ∧ e ≠ .endless := by
  obtain ⟨hwf, tops, htops, hlength, hcount⟩ := workspace_links h
  have hwhole := hwf.isWhole_rootTrees
  refine ⟨hwf, ⟨tops, htops, hlength, ?_⟩, referencedVariables_ok hwhole, fun c hc e he => ?_⟩
  · rintro v hv rfl hshare
    exact hcount (separate_ofJson hv htops hshare)
  · have hsafe := c.generate_safe hc hwhole he
    constructor <;> rintro rfl <;> cases hsafe

theorem Document.wellFormed_of_load_condition :
    let block (id type : String) (more : List (String × Json)) : Json :=
      .object ([("id", .string id), ("type", .string type)] ++ more)
    let linked (b : Json) : Json := .object [("block", b)]
    let print (id : String) (more : List (String × Json)) : Json := block id "text_print" more
    let condition := block "a" "controls_if" [
      ("inputs", .object [("IF0", linked (block "b" "logic_boolean" [])),
        ("DO0", linked (print "c" [("next", linked (print "d" []))]))]),
      ("next", linked (print "e" []))]
    let v : Json := .object [("blocks", .array [condition])]
    v.Keyed ∧ ∃ w, (ofJson v).workspace = .ok w ∧ w.size = 5 ∧ w.WellFormed ∧
      ∀ i < w.size, w.targets.count i = 1 := by
  intro block linked print condition v
  have hkeyed : v.Keyed := by
    simp [v, condition, block, linked, print, Json.Keyed, Json.KeyedMembers, Json.KeyedItems]
  have hvalue : isStatementInput "IF0" = false := by decide
  have hstatement : isStatementInput "DO0" = true := by decide
  have hshare : condition.blockEntry.Every SharesNoName := by
    simp [hvalue, hstatement, condition, block, linked, print, Json.blockEntry, Json.inputsAt,
      Json.inputParts, Json.connections, Json.connection, Json.entryAt, Json.nextAt,
      Json.fieldParts, Json.shapeParts, Json.get?, Json.inputSlot, Entry.Every, EveryPart,
      SharesNoName, List.lookup]
  refine ⟨hkeyed, _, rfl, rfl, ?_⟩
  obtain ⟨hwf, ⟨tops, htops, -, hcount⟩, -, -⟩ := Document.wellFormed_of_load (d := ofJson v) rfl
  cases htops
  exact ⟨hwf, hcount v hkeyed rfl (List.forall_mem_singleton.2 hshare)⟩

end BlockCode
