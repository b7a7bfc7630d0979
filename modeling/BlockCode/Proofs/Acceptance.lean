import BlockCode.Proofs.Companions

namespace BlockCode

theorem Text.layered_true : Layered fun _ _ => True :=
  ⟨trivial, fun _ => trivial, fun _ _ => trivial, fun _ => trivial⟩

/-- A block with which a program fails that uses it in this role. -/
def Block.Fails (b : Block) (role : Role) : Prop :=
  Rulebook.builtin.contains b.type = false ∨
  (b.type = "controls_flow_statements" ∧ b.fieldText? "FLOW" ≠ some "BREAK" ∧
    b.fieldText? "FLOW" ≠ some "CONTINUE") ∨
  (role = .value ∧ b.type ∈ statementTypes)

theorem Block.isSome_fault?_enter (b : Block) :
    (Visit.enter b.outline).fault?.isSome = true ↔ Rulebook.builtin.contains b.type = false ∨
      (b.type = "controls_flow_statements" ∧ b.fieldText? "FLOW" ≠ some "BREAK" ∧
        b.fieldText? "FLOW" ≠ some "CONTINUE") := by
  have hjumps : b.outline.jumps = false ↔ b.type = "controls_flow_statements" ∧
      b.fieldText? "FLOW" ≠ some "BREAK" ∧ b.fieldText? "FLOW" ≠ some "CONTINUE" := by
    simp [Outline.jumps, Block.outline]
  rw [← hjumps, Visit.fault?]
  change _ ↔ b.outline.isRegistered = false ∨ _
  cases b.outline.isRegistered <;> cases b.outline.jumps <;> simp

theorem Block.isSome_fault?_use (b : Block) :
    (Visit.use b.outline).fault?.isSome = true ↔ b.type ∈ statementTypes := by
  rw [Visit.fault?]
  change (if statementTypes.contains b.type then _ else none : Option Fault).isSome = true ↔ _
  split <;> simp_all

namespace Workspace

variable {w : Workspace}

theorem unfold_variableNames (w : Workspace) (names : List (String × String)) (n : Nat) :
    ∀ i, Workspace.unfold { w with variableNames := names } n i = w.unfold n i := by
  induction n with
  | zero =>
    intro i
    rw [unfold, unfold]
  | succ n ih =>
    intro i
    let w' : Workspace := { w with variableNames := names }
    have hunfold : w'.unfold n = w.unfold n := funext ih
    cases hb : w.blocks[i]? with
    | none => simp only [unfold, hb]
    | some b =>
      have hb' : w'.blocks[i]? = some b := hb
      rw [unfold_block hb, unfold_block hb', hunfold]

theorem visits_variableNames (w : Workspace) (names : List (String × String)) :
    Workspace.visits { w with variableNames := names } = w.visits := by
  have htree : Workspace.tree { w with variableNames := names } = w.tree :=
    funext (w.unfold_variableNames names w.size)
  rw [visits, visits, rootTrees, rootTrees, htree]

theorem exists_fault_iff (hw : w.Acyclic) :
    (∃ e, w.visits.findSome? Visit.fault? = some e) ↔
      ∃ role i b, w.Demanded role i ∧ w.blocks[i]? = some b ∧ b.Fails role := by
  rw [← Option.isSome_iff_exists, List.findSome?_isSome_iff]
  constructor
  · rintro ⟨v, hv, hfault⟩
    obtain ⟨role, i, b, hi, hb, rfl | ⟨hrole, rfl⟩⟩ := (mem_visits_iff hw).1 hv
    · rcases b.isSome_fault?_enter.1 hfault with hfails | hfails
      · exact ⟨role, i, b, hi, hb, .inl hfails⟩
      · exact ⟨role, i, b, hi, hb, .inr (.inl hfails)⟩
    · exact ⟨role, i, b, hi, hb, .inr (.inr ⟨hrole, b.isSome_fault?_use.1 hfault⟩)⟩
  · rintro ⟨role, i, b, hi, hb, hfails⟩
    have henter := (mem_visits_iff hw).2 ⟨role, i, b, hi, hb, .inl rfl⟩
    rcases hfails with hfails | hfails | ⟨hrole, hfails⟩
    · exact ⟨_, henter, b.isSome_fault?_enter.2 (.inl hfails)⟩
    · exact ⟨_, henter, b.isSome_fault?_enter.2 (.inr hfails)⟩
    · exact ⟨_, (mem_visits_iff hw).2 ⟨role, i, b, hi, hb, .inr ⟨hrole, rfl⟩⟩,
        b.isSome_fault?_use.2 hfails⟩

end Workspace

namespace Setup

variable {c : Setup} {w : Workspace}

theorem generate_eq_error_iff (hc : c.book = .builtin) (hw : w.Acyclic) {e : Fault} :
    c.generate w = .error e ↔ w.visits.findSome? Visit.fault? = some e := by
  have hfits : ∀ o, .enter o ∈ w.visits → o.Fits (fun _ _ => True) c.options c.options :=
    fun _ _ => ⟨trivial, trivial, trivial, fun _ => .inr rfl⟩
  have hpaired := paired_generate Text.layered_true hc hc rfl rfl hw.isWhole_rootTrees hfits
  cases hfault : w.visits.findSome? Visit.fault? with
  | some fault =>
    rw [hfault] at hpaired
    rw [hpaired.1]
    simp
  | none =>
    rw [hfault] at hpaired
    obtain ⟨code, -, hcode, -⟩ := hpaired
    rw [hcode]
    simp

/--
A program fails exactly if one of its demanded blocks does, and with the first fault among its
visits, which are those of its demanded blocks. The options, the dialect and the names of the
variables make no difference.
-/
theorem fails_iff_demanded (hc : c.book = .builtin) (hw : w.Acyclic) :
    ((∃ e, c.generate w = .error e) ↔
      ∃ role i b, w.Demanded role i ∧ w.blocks[i]? = some b ∧ b.Fails role) ∧
    (∀ e, c.generate w = .error e ↔ w.visits.findSome? Visit.fault? = some e) ∧
    (∀ v, v ∈ w.visits ↔ ∃ role i b, w.Demanded role i ∧ w.blocks[i]? = some b ∧
      (v = .enter b.outline ∨ role = .value ∧ v = .use b.outline)) ∧
    ∀ (c' : Setup) (names : List (String × String)), c'.book = .builtin → ∀ e,
      c'.generate { w with variableNames := names } = .error e ↔ c.generate w = .error e := by
  refine ⟨?_, fun e => generate_eq_error_iff hc hw, fun v => Workspace.mem_visits_iff hw, ?_⟩
  · simp only [generate_eq_error_iff hc hw]
    exact Workspace.exists_fault_iff hw
  · intro c' names hc' e
    have hw' : Workspace.Acyclic { w with variableNames := names } :=
      ⟨hw.roots_lt, hw.links_lt, hw.acyclic⟩
    rw [generate_eq_error_iff hc hw, generate_eq_error_iff hc' hw', w.visits_variableNames]

theorem fails_iff_demanded_inside :
    let w : Workspace := {
      blocks := #[
        { id := "skipped", type := "unheard" },
        { id := "inner", type := "sensor" },
        { id := "change", type := "math_change", fields := ⟨[("VAR", .text "x")]⟩,
          values := ⟨[("DELTA", some 1)]⟩ },
        { id := "print", type := "text_print", values := ⟨[("TEXT", some 2)]⟩ },
        { id := "loop", type := "controls_repeat", fields := ⟨[("TIMES", .text "3")]⟩,
          values := ⟨[("TIMES", some 0)]⟩, statements := ⟨[("DO", some 3)]⟩ }],
      roots := [4] }
    let c : Setup := {}
    let marked : Setup := { options := { before := some "step(%1);" } }
    w.Acyclic ∧ c.generate w = .error (.unknownType "sensor" "inner") ∧
      (∃ role i b, w.Demanded role i ∧ w.blocks[i]? = some b ∧ b.Fails role) ∧
      marked.generate { w with variableNames := [("x", "y")] } =
        .error (.unknownType "sensor" "inner") := by
  intro w c marked
  have hw : w.Acyclic := Workspace.acyclic_of_rank id (by decide) (by decide)
  obtain ⟨hexists, hfirst, -, hsame⟩ := fails_iff_demanded (c := c) rfl hw
  have hfault : c.generate w = .error (.unknownType "sensor" "inner") :=
    (hfirst _).2 (by decide +kernel)
  exact ⟨hw, hfault, hexists.1 ⟨_, hfault⟩, (hsame marked _ rfl _).2 hfault⟩

end Setup

end BlockCode
