import BlockCode.Proofs.Declarations

namespace BlockCode

/-- The identifier is the base, or the base with a number from two on. -/
def StemsFrom (base identifier : String) : Prop :=
  identifier = base ∨ ∃ k, 2 ≤ k ∧ identifier = base ++ toString k

namespace Names

theorem stemsFrom_free (t : Names) (base : String) : StemsFrom base (t.free base) := by
  unfold free
  split
  · obtain ⟨i, -, heq, -, -⟩ := t.freeFrom_spec base (t.used.length + t.reserved.length) 2
    exact .inr ⟨2 + i, by omega, heq⟩
  · exact .inl rfl

def Call.isHint : Call → Bool
  | .setHint _ _ => true
  | _ => false

def Stemmed (t : Names) : Prop :=
  ∀ category key name, t.find? key category = some name → StemsFrom (t.base key category) name

theorem base_call (t : Names) {c : Call} (hc : c.isHint = false) (key : String)
    (category : Category) : (t.call c).2.base key category = t.base key category := by
  cases c with
  | setHint key hint => cases hc
  | resolve key' category' =>
    cases hfind : t.find? key' category' with
    | some name => rw [call, resolve_of_find hfind]
    | none =>
      rw [call, resolve_of_not_find hfind]
      rfl
  | distinct hint category' => rfl
  | reset => rfl

theorem Stemmed.call {t : Names} (h : t.Stemmed) {c : Call} (hc : c.isHint = false) :
    (t.call c).2.Stemmed := by
  intro category key name hfind
  rw [t.base_call hc]
  cases c with
  | setHint key hint => cases hc
  | resolve key' category' =>
    cases hknown : t.find? key' category' with
    | some known =>
      rw [Names.call, resolve_of_find hknown] at hfind
      exact h category key name hfind
    | none =>
      rw [Names.call, resolve_of_not_find hknown] at hfind
      by_cases heq : (category, key) = (category', key')
      · obtain ⟨rfl, rfl⟩ := Prod.mk.inj heq
        rw [find?_assign_self] at hfind
        exact Option.some.inj hfind ▸ t.stemsFrom_free _
      · rw [find?_assign_of_ne heq] at hfind
        exact h category key name hfind
  | distinct hint category' => exact h category key name hfind
  | reset => cases hfind

theorem Stemmed.after {t : Names} (h : t.Stemmed) {calls : List Call}
    (hcalls : ∀ c ∈ calls, c.isHint = false) :
    (t.after calls).Stemmed ∧
      ∀ key category, (t.after calls).base key category = t.base key category := by
  induction calls generalizing t with
  | nil => exact ⟨h, fun _ _ => rfl⟩
  | cons c cs ih =>
    obtain ⟨hc, hcs⟩ := List.forall_mem_cons.1 hcalls
    obtain ⟨hrest, hbase⟩ := ih (h.call hc) hcs
    exact ⟨hrest, fun key category => (hbase key category).trans (t.base_call hc key category)⟩

theorem Stemmed.resolve {t : Names} (h : t.Stemmed) (key : String) (category : Category) :
    StemsFrom (t.base key category) (t.resolve key category).1 := by
  cases hfind : t.find? key category with
  | some name =>
    rw [resolve_of_find hfind]
    exact h category key name hfind
  | none =>
    rw [resolve_of_not_find hfind]
    exact t.stemsFrom_free _

end Names

theorem developerKey_injective {a b : String} (h : developerKey a = developerKey b) : a = b := by
  simpa [developerKey, String.ext_iff] using h

theorem lookup_eq_of_unique {α : Type} {key : String} {a : α} {entries : List (String × α)}
    (hmem : (key, a) ∈ entries) (hunique : ∀ b, (key, b) ∈ entries → b = a) :
    entries.lookup key = some a := by
  have hsome : (entries.lookup key).isSome := List.lookup_isSome_iff.2 ⟨(key, a), hmem, by simp⟩
  obtain ⟨b, hb⟩ := Option.isSome_iff_exists.1 hsome
  obtain ⟨before, after, hentries, -⟩ := List.lookup_eq_some_iff.1 hb
  rw [hb, hunique b (by simp [hentries])]

namespace Setup

variable (c : Setup) {w : Workspace} {id name : String}

theorem stemmed_names (w : Workspace) : (c.names w).Stemmed := by
  intro category key name hfind
  rw [names_eq] at hfind
  cases hfind

theorem lookup_hints_developer (w : Workspace) {own : String} (hown : own ∈ c.options.developer) :
    (c.names w).hints.lookup (developerKey own) = some own := by
  have hkeys : ((c.options.developer.map fun name => (developerKey name, name)).reverse).lookup
      (developerKey own) = some own := by
    refine lookup_eq_of_unique (List.mem_reverse.2 (List.mem_map.2 ⟨own, hown, rfl⟩)) fun b hb => ?_
    obtain ⟨b', -, hb'⟩ := List.mem_map.1 (List.mem_reverse.1 hb)
    obtain ⟨hkey, rfl⟩ := Prod.mk.inj hb'
    exact developerKey_injective hkey
  rw [names_eq, List.lookup_append, hkeys, Option.some_or]

theorem lookup_hints_variable (hw : (w.variableNames.map Prod.fst).Nodup)
    (hname : (id, name) ∈ w.variableNames)
    (hid : ∀ own ∈ c.options.developer, developerKey own ≠ id) :
    (c.names w).hints.lookup id = some name := by
  have hkeys : ((c.options.developer.map fun name => (developerKey name, name)).reverse).lookup id =
      none := by
    rw [List.lookup_eq_none_iff]
    intro e he
    obtain ⟨own, hown, rfl⟩ := List.mem_map.1 (List.mem_reverse.1 he)
    simpa using (hid own hown).symm
  have hvariables : w.variableNames.reverse.lookup id = some name := by
    refine lookup_eq_of_unique (List.mem_reverse.2 hname) fun b hb => ?_
    have := List.inj_on_of_nodup_map hw (List.mem_reverse.1 hb) hname rfl
    exact congrArg Prod.snd this
  rw [names_eq, List.lookup_append, hkeys, Option.none_or, hvariables]

/--
The identifier of a variable of the workspace, whatever identifiers are given out before. It stems
from the variable's own name if its id is not the key of a developer's variable; otherwise it stems
from the name of that one.
-/
theorem stemsFrom_resolve (hw : (w.variableNames.map Prod.fst).Nodup)
    (hname : (id, name) ∈ w.variableNames) {calls : List Names.Call}
    (hcalls : ∀ call ∈ calls, call.isHint = false) :
    let identifier := (((c.names w).after calls).resolve id .variable).1
    ((∀ own ∈ c.options.developer, developerKey own ≠ id) →
      StemsFrom (safeName name .variable) identifier) ∧
    ∀ own ∈ c.options.developer, developerKey own = id →
      StemsFrom (safeName own .variable) identifier := by
  intro identifier
  obtain ⟨hstemmed, hbase⟩ := (c.stemmed_names w).after hcalls
  have hstems := hstemmed.resolve id .variable
  rw [hbase, Names.base] at hstems
  constructor
  · intro hid
    rwa [c.lookup_hints_variable hw hname hid] at hstems
  · rintro own hown rfl
    rwa [c.lookup_hints_developer w hown] at hstems

theorem stemsFrom_resolve_total :
    let w : Workspace := { variableNames := [("steps", "2 total"), ("dev:trace", "log")] }
    let c : Setup := { options := { developer := ["steps", "my_2_total"] } }
    let calls : List Names.Call :=
      [.resolve (developerKey "my_2_total") .developer, .distinct "log" .variable]
    let t := (c.names w).after calls
    (w.variableNames.map Prod.fst).Nodup ∧ (∀ call ∈ calls, call.isHint = false) ∧
      (∀ own ∈ c.options.developer, developerKey own ≠ "steps" ∧ developerKey own ≠ "dev:trace") ∧
      (t.resolve "steps" .variable).1 = "my_2_total2" ∧
      StemsFrom (safeName "2 total" .variable) (t.resolve "steps" .variable).1 ∧
      StemsFrom (safeName "log" .variable) (t.resolve "dev:trace" .variable).1 := by
  intro w c calls t
  have hw : (w.variableNames.map Prod.fst).Nodup := by decide
  have hcalls : ∀ call ∈ calls, call.isHint = false := by decide
  have hids : ∀ own ∈ c.options.developer,
      developerKey own ≠ "steps" ∧ developerKey own ≠ "dev:trace" := by decide
  exact ⟨hw, hcalls, hids, by decide +kernel,
    (c.stemsFrom_resolve hw (by decide) hcalls).1 fun own hown => (hids own hown).1,
    (c.stemsFrom_resolve hw (by decide) hcalls).1 fun own hown => (hids own hown).2⟩

/-- A variable whose id is the key of a developer's variable goes by the name of that one. -/
theorem generate_developer_key :
    let w : Workspace := {
      blocks := #[
        { id := "s", type := "variables_set", fields := ⟨[("VAR", .variable "dev:steps")]⟩ }],
      roots := [0], variableNames := [("dev:steps", "total")] }
    let c : Setup := { options := { developer := ["steps"] } }
    let identifier := ((c.names w).resolve "dev:steps" .variable).1
    (w.variableNames.map Prod.fst).Nodup ∧ safeName "total" .variable = "total" ∧
      ¬ StemsFrom "total" identifier ∧
      c.generate w = .ok "let (mut steps, mut steps2);\n\nsteps2 = 0;\n" := by
  intro w c identifier
  have hidentifier : identifier = "steps" := by decide +kernel
  refine ⟨by decide, by decide, ?_, by decide +kernel⟩
  rw [hidentifier]
  rintro (heq | ⟨k, -, heq⟩)
  · exact absurd heq (by decide)
  · have hhead := congrArg (fun s => s.toList.head?) heq
    simp at hhead

end Setup

theorem count_map_of_injOn {α β : Type} [DecidableEq α] [DecidableEq β] {f : α → β} {as : List α}
    (hf : ∀ a ∈ as, ∀ b ∈ as, f a = f b → a = b) {a : α} (ha : a ∈ as) :
    (as.map f).count (f a) = as.count a := by
  rw [List.count, List.countP_map, List.count]
  refine List.countP_congr fun b hb => ?_
  simp only [Function.comp_apply, beq_iff_eq]
  exact ⟨hf b hb a ha, congrArg f⟩

theorem eq_map_of_forall₂ {α : Type} {f : α → Option String} {as : List α} {names : List String}
    (h : List.Forall₂ (fun a name => f a = some name) as names) :
    names = as.map (fun a => (f a).getD "") ∧ ∀ a ∈ as, f a = some ((f a).getD "") := by
  induction h with
  | nil => simp
  | cons ha _ ih => exact ⟨by simp [ha, ← ih.1], List.forall_mem_cons.2 ⟨by simp [ha], ih.2⟩⟩

namespace Pass.Declares

variable {p : Pass} {developer own ids used : List String}

theorem exists_naming (h : p.Declares developer own ids used) (hs : p.names.Sound) :
    ∃ f g : String → String, own = developer.map f ∧ used = ids.map g ∧
      (∀ a ∈ developer, ∀ b ∈ developer, f a = f b → a = b) ∧
      (∀ a ∈ ids, ∀ b ∈ ids, g a = g b → a = b) ∧ ∀ a ∈ developer, ∀ b ∈ ids, f a ≠ g b := by
  obtain ⟨hown, hfind⟩ := eq_map_of_forall₂ h.developer
  obtain ⟨hused, hfind'⟩ := eq_map_of_forall₂ h.referenced
  refine ⟨_, _, hown, hused, fun a ha b hb hab => ?_, fun a ha b hb hab => ?_,
    fun a ha b hb hab => ?_⟩
  · have hkeys := hs.find?_injective (hfind a ha) (hab ▸ hfind b hb)
    exact developerKey_injective (Prod.mk.inj hkeys).2
  · have hkeys := hs.find?_injective (hfind' a ha) (hab ▸ hfind' b hb)
    exact (Prod.mk.inj hkeys).2
  · cases hs.find?_injective (hfind a ha) (hab ▸ hfind' b hb)

end Pass.Declares

namespace Setup

variable {c : Setup} {w : Workspace}

/--
The declaration of a program. Every variable has an identifier of its own, which is not reserved; it
is bound once for a variable that blocks refer to, and for a developer's variable as often as the
developer names it.
-/
theorem count_declaredNames (hc : c.book = .builtin) (hw : w.Acyclic) :
    ∃ ids p, referencedVariables w.rootTrees = .ok ids ∧ ids.Nodup ∧
      (c.opened w).run (c.start w) = (.ok true, p) ∧
      ∃ own used : String → String,
        declaredNames p.definitions = c.options.developer.map own ++ ids.map used ∧
        (∀ name ∈ declaredNames p.definitions, IsIdentifier name ∧ name ∉ c.dialect.reserved) ∧
        (∀ name ∈ c.options.developer,
          (declaredNames p.definitions).count (own name) = c.options.developer.count name) ∧
        (∀ id ∈ ids, (declaredNames p.definitions).count (used id) = 1) ∧
        ((declaredNames p.definitions).Nodup ↔ c.options.developer.Nodup) := by
  obtain ⟨ids, hids, hnodup, -⟩ := referencedVariables_enabled hw.isWhole_rootTrees
  obtain ⟨_, _, p, hopened, hreach, hdeclares⟩ := run_opened_reaches hc hids
  have hs := hreach.sound (c.sound_names w)
  have hnames := hdeclares.declaredNames_eq hs
  have hreserved : p.names.reserved = c.dialect.reserved := by
    obtain ⟨calls, -, hcalls⟩ := hreach
    rw [hcalls, Names.after_reserved, names_eq]
  have hgiven : ∀ name ∈ declaredNames p.definitions,
      IsIdentifier name ∧ name ∉ c.dialect.reserved := by
    intro name hname
    have hmem := hdeclares.mem_used hs (hnames ▸ hname)
    exact ⟨hs.used_identifier name hmem, hreserved ▸ hs.used_unreserved name hmem⟩
  obtain ⟨own, used, rfl, rfl, hown, hused, hapart⟩ := hdeclares.exists_naming hs
  refine ⟨ids, p, hids, hnodup, hopened, own, used, hnames, hgiven, fun name hname => ?_,
    fun id hid => ?_, ?_⟩
  · have hother : own name ∉ ids.map used := fun hmem => by
      obtain ⟨id, hid, heq⟩ := List.mem_map.1 hmem
      exact hapart name hname id hid heq.symm
    rw [hnames, List.count_append, count_map_of_injOn hown hname, List.count_eq_zero.2 hother,
      Nat.add_zero]
  · have hother : used id ∉ c.options.developer.map own := fun hmem => by
      obtain ⟨name, hname, heq⟩ := List.mem_map.1 hmem
      exact hapart name hname id hid heq
    rw [hnames, List.count_append, count_map_of_injOn hused hid, List.count_eq_zero.2 hother,
      Nat.zero_add, List.count_eq_one_of_mem hnodup hid]
  · rw [hnames, List.nodup_append]
    refine ⟨fun h => h.1.of_map, fun h => ⟨h.map_on hown, hnodup.map_on hused, ?_⟩⟩
    simpa using hapart

theorem count_declaredNames_steps :
    let get : Block :=
      { id := "g", type := "variables_get", fields := ⟨[("VAR", .variable "v")]⟩ }
    let set : Block :=
      { id := "s", type := "variables_set", fields := ⟨[("VAR", .text "u")]⟩,
        values := ⟨[("VALUE", some 0)]⟩ }
    let w : Workspace := {
      blocks := #[get, set], roots := [1, 1],
      variableNames := [("v", "steps"), ("u", "steps"), ("x", "unused")] }
    let c : Setup := { options := { developer := ["steps", "let"] } }
    w.Acyclic ∧ c.options.developer.Nodup ∧
      ∃ ids p, referencedVariables w.rootTrees = .ok ids ∧
        (c.opened w).run (c.start w) = (.ok true, p) ∧
        p.definitions = [("variables", "let (mut steps, mut let2, mut steps2, mut steps3);")] ∧
        (declaredNames p.definitions).length = 4 ∧ (declaredNames p.definitions).Nodup ∧
        ∀ name ∈ declaredNames p.definitions, name ∉ c.dialect.reserved := by
  intro get set w c
  have hw : w.Acyclic := Workspace.acyclic_of_rank id (by decide) (by decide)
  have hdeveloper : c.options.developer.Nodup := by decide
  obtain ⟨ids, p, hids, -, hrun, own, used, -, hgiven, -, -, hnodup⟩ :=
    count_declaredNames (c := c) rfl hw
  have hp : ((c.opened w).run (c.start w)).2.definitions =
      [("variables", "let (mut steps, mut let2, mut steps2, mut steps3);")] := by decide +kernel
  rw [hrun] at hp
  dsimp only at hp
  refine ⟨hw, hdeveloper, ids, p, hids, hrun, hp, ?_, hnodup.2 hdeveloper,
    fun name hname => (hgiven name hname).2⟩
  rw [hp]
  decide +kernel

/-- A variable that the developer names twice is bound twice in one declaration. -/
theorem generate_developer_twice :
    let w : Workspace := {
      blocks := #[{ id := "s", type := "variables_set", fields := ⟨[("VAR", .variable "v")]⟩ }],
      roots := [0], variableNames := [("v", "total")] }
    let c : Setup := { options := { developer := ["steps", "steps"] } }
    w.Acyclic ∧ c.generate w = .ok "let (mut steps, mut steps, mut total);\n\ntotal = 0;\n" ∧
      ¬ (declaredNames ((c.opened w).run (c.start w)).2.definitions).Nodup := by
  intro w c
  exact ⟨Workspace.acyclic_of_rank id (by decide) (by decide), by decide +kernel, by decide +kernel⟩

end Setup

end BlockCode
