import BlockCode.Proofs.Demands
import BlockCode.Proofs.Directions
import BlockCode.Proofs.LoadedBlocks

namespace BlockCode

/-- The number of clauses: the least one above zero that has no condition declared. -/
def Block.HasArms (b : Block) (m : Nat) : Prop :=
  IsLeast {n | 1 ≤ n ∧ b.declares ("IF" ++ toString n) = false} m

theorem Block.hasArms (b : Block) : b.HasArms b.outline.arms := by
  have harms := b.outline.lt_arms_iff
  simp only [b.declares_outline] at harms
  have hone : 1 ≤ b.outline.arms := Nat.le_add_left ..
  refine ⟨⟨hone, ?_⟩, fun n ⟨hn, hnone⟩ => ?_⟩
  · by_contra hdeclared
    rw [Bool.not_eq_false] at hdeclared
    refine absurd ((harms b.outline.arms).2 fun k hk hle => ?_) (lt_irrefl _)
    rcases hle.eq_or_lt with rfl | hlt
    · exact hdeclared
    · exact (harms k).1 hlt k hk le_rfl
  · by_contra hlt
    rw [(harms n).1 (not_le.1 hlt) n hn le_rfl] at hnone
    cases hnone

theorem Block.HasArms.lt {b : Block} {m n : Nat} (h : b.HasArms m)
    (hdeclared : ∀ k ≤ n, b.declares ("IF" ++ toString k) = true) : n + 1 ≤ m := by
  obtain ⟨-, hnone⟩ := h.1
  by_contra hle
  rw [hdeclared m (by omega)] at hnone
  cases hnone

namespace Tree

variable {c : Setup}

theorem text_operand (t : Tree) : (t.operand c).text = t.text c := by
  cases t <;> rfl

inductive Condition (c : Setup) (t? : Option Tree) : Pass → String → Pass → Prop
  | missing (p : Pass) : (∀ t, t? = some t → t.isDisabled = true) → Condition c t? p "false" p
  | empty {t : Tree} {f : Fragment} {p p' : Pass} : t? = some t → t.isDisabled = false →
    (t.text c).run p = (.ok (.expression f), p') → f.code = "" → Condition c t? p "false" p'
  | code {t : Tree} {f : Fragment} {p p' : Pass} : t? = some t → t.isDisabled = false →
    (t.text c).run p = (.ok (.expression f), p') → f.code ≠ "" → Condition c t? p f.code p'

inductive Branch (c : Setup) (t? : Option Tree) : Pass → String → Pass → Prop
  | missing (p : Pass) : t? = none → Branch c t? p "" p
  | code {t : Tree} {chain : String} {p p' : Pass} : t? = some t →
    (t.chain c).run p = (.ok chain, p') → Branch c t? p (Text.indent chain) p'

variable {head : Head} {values statements : List (String × Option Tree)}

theorem condition_of_run {input code : String} {p p' : Pass}
    (h : ((siteOf c head values statements).valueOr input .loosest "false").run p =
      (.ok code, p')) : Condition c (at? values input) p code p' := by
  rcases code_of_valueOr h with ⟨hnone, rfl, rfl⟩ | ⟨t, f, ht, htext, rfl⟩
  · exact .missing p' fun t ht => by simpa using Option.filter_eq_none_iff.1 hnone t ht
  · obtain ⟨hat, henabled⟩ := Option.filter_eq_some_iff.1 ht
    have henabled : t.isDisabled = false := by simpa using henabled
    have hsplice : f.splice .loosest = f.code := Fragment.splice_of_le (Nat.zero_le _)
    rw [text_operand] at htext
    split
    · next hempty => exact .empty hat henabled htext hempty
    · next hne =>
      rw [hsplice]
      exact .code hat henabled htext hne

theorem branch_of_run {input code : String} {p p' : Pass}
    (h : ((siteOf c head values statements).branch input).run p = (.ok code, p')) :
    Branch c (at? statements input) p code p' := by
  obtain ⟨chain, q, hchain, hpure⟩ := Render.run_bind_eq_ok h
  cases hpure
  unfold Site.statementsOf at hchain
  rw [join_lookup_chains] at hchain
  cases hat : at? statements input with
  | none =>
    rw [hat] at hchain
    cases hchain
    exact .missing p rfl
  | some t =>
    rw [hat] at hchain
    exact .code rfl hchain

end Tree

structure Clause where
  condition : String
  body : String

def branchCode (lead body : String) : String := Text.line r"{" ++ lead ++ body ++ r"}"

def Clause.code (lead : String) (clause : Clause) : String :=
  "if " ++ clause.condition ++ " " ++ branchCode lead clause.body

def Setup.lead (c : Setup) (head : Head) : String :=
  (c.options.after.map fun template =>
    Text.indent (Text.terminate (fillTemplate template head.id))).getD ""

def Setup.front (c : Setup) (head : Head) : String :=
  (c.options.before.map fun template => Text.terminate (fillTemplate template head.id)).getD ""

namespace Workspace

variable (w : Workspace) (c : Setup) (n : Nat) (b : Block)

inductive Clauses : Nat → Pass → List Clause → Pass → Prop
  | nil (k : Nat) (p : Pass) : Clauses k p [] p
  | cons {k : Nat} {p q r p' : Pass} {condition body : String} {clauses : List Clause} :
    Tree.Condition c ((b.value? ("IF" ++ toString k)).map (w.unfold n)) p condition q →
    Tree.Branch c ((b.statement? ("DO" ++ toString k)).map (w.unfold n)) q body r →
    Clauses (k + 1) r clauses p' → Clauses k p (⟨condition, body⟩ :: clauses) p'

/-- All clauses of a block, and the code of its alternative if it has one. -/
inductive Branches (p : Pass) : List Clause → Option String → Pass → Prop
  | plain {clauses : List Clause} {p' : Pass} : w.Clauses c n b 0 p clauses p' →
    b.declares "ELSE" = false → c.options.after = none → Branches p clauses none p'
  | alternative {clauses : List Clause} {body : String} {q p' : Pass} :
    w.Clauses c n b 0 p clauses q → b.declares "ELSE" = true ∨ c.options.after.isSome = true →
    Tree.Branch c ((b.statement? "ELSE").map (w.unfold n)) q body p' →
    Branches p clauses (some body) p'

end Workspace

theorem Workspace.Branches.isSome_iff {w : Workspace} {c : Setup} {n : Nat} {b : Block}
    {p p' : Pass} {clauses : List Clause} {last : Option String}
    (h : w.Branches c n b p clauses last p') :
    last.isSome = true ↔ b.declares "ELSE" = true ∨ c.options.after.isSome = true := by
  cases h with
  | plain _ hdeclares hafter => simp [hdeclares, hafter]
  | alternative _ hsome _ => simp [hsome]

abbrev Workspace.siteAt (w : Workspace) (c : Setup) (n : Nat) (b : Block) : Site :=
  Tree.siteOf c b.toHead (b.values.entries.map fun e => (e.1, e.2.map (w.unfold n)))
    (b.statements.entries.map fun e => (e.1, e.2.map (w.unfold n)))

namespace Rules

variable {w : Workspace} {c : Setup} {n : Nat} {b : Block}

theorem declares_siteAt (input : String) : (w.siteAt c n b).declares input = b.declares input := by
  simp only [Site.declares, Tree.operands_eq, Tree.chains_eq, List.map_map, Function.comp_def,
    Block.declares, ByName.contains, ByName.get?, ByName.isSome_lookup]

theorem armCount_siteAt : armCount (w.siteAt c n b) = b.outline.arms := by
  have hlength : (w.siteAt c n b).values.length + (w.siteAt c n b).statements.length =
      b.outline.inputs.length := by
    simp only [Tree.operands_eq, Tree.chains_eq, List.length_map, Block.outline, ByName.names,
      List.length_append]
  simp only [armCount, Outline.arms, hlength, declares_siteAt, b.declares_outline]

theorem braced_siteAt (body : String) :
    braced (w.siteAt c n b) body = branchCode (c.lead b.toHead) body := by
  rw [braced, Site.after?, Option.map_map]
  rfl

theorem clause_of_run {k : Nat} {code : String} {p p' : Pass}
    (h : (arm (w.siteAt c n b) k).run p = (.ok code, p')) :
    ∃ condition body q,
      Tree.Condition c ((b.value? ("IF" ++ toString k)).map (w.unfold n)) p condition q ∧
      Tree.Branch c ((b.statement? ("DO" ++ toString k)).map (w.unfold n)) q body p' ∧
      code = Clause.code (c.lead b.toHead) ⟨condition, body⟩ := by
  obtain ⟨condition, q, hcondition, h⟩ := Render.run_bind_eq_ok h
  obtain ⟨body, q', hbody, h⟩ := Render.run_bind_eq_ok h
  cases h
  have hcondition := Tree.condition_of_run hcondition
  have hbody := Tree.branch_of_run hbody
  rw [Workspace.at?_unfold] at hcondition hbody
  refine ⟨condition, body, q, hcondition, hbody, ?_⟩
  rw [braced_siteAt, Clause.code]

theorem clauses_of_run {k m : Nat} {arms : List String} {p p' : Pass}
    (h : ((List.range' k m).mapM (arm (w.siteAt c n b))).run p = (.ok arms, p')) :
    ∃ clauses, clauses.length = m ∧ w.Clauses c n b k p clauses p' ∧
      arms = clauses.map (Clause.code (c.lead b.toHead)) := by
  induction m generalizing k p arms with
  | zero =>
    cases h
    exact ⟨[], rfl, .nil k p', rfl⟩
  | succ m ih =>
    rw [List.range'_succ, List.mapM_cons] at h
    obtain ⟨code, q, hcode, h⟩ := Render.run_bind_eq_ok h
    obtain ⟨codes, q', hcodes, h⟩ := Render.run_bind_eq_ok h
    cases h
    obtain ⟨condition, body, r, hcondition, hbody, rfl⟩ := clause_of_run hcode
    obtain ⟨clauses, hlength, hclauses, rfl⟩ := ih hcodes
    exact ⟨⟨condition, body⟩ :: clauses, congrArg (· + 1) hlength,
      .cons hcondition hbody hclauses, rfl⟩

theorem branches_of_run {text : Emission} {p p' : Pass}
    (h : (conditional (w.siteAt c n b)).run p = (.ok text, p')) :
    ∃ clauses last, clauses.length = b.outline.arms ∧ w.Branches c n b p clauses last p' ∧
      text = .instrumented (c.front b.toHead ++
        " else ".intercalate (clauses.map (Clause.code (c.lead b.toHead)) ++
          last.toList.map (branchCode (c.lead b.toHead))) ++ "\n") := by
  obtain ⟨arms, q, harms, h⟩ := Render.run_bind_eq_ok h
  obtain ⟨last, q', hlast, h⟩ := Render.run_bind_eq_ok h
  cases h
  rw [armCount_siteAt, List.range_eq_range'] at harms
  obtain ⟨clauses, hlength, hclauses, rfl⟩ := clauses_of_run harms
  have hafter : (w.siteAt c n b).after?.isSome = c.options.after.isSome := Option.isSome_map
  unfold alternative at hlast
  rw [declares_siteAt, hafter] at hlast
  split at hlast
  · next halternative =>
    obtain ⟨body, r, hbody, hlast⟩ := Render.run_bind_eq_ok hlast
    cases hlast
    have hbody := Tree.branch_of_run hbody
    rw [Workspace.at?_unfold] at hbody
    refine ⟨clauses, some body, hlength,
      .alternative hclauses (by simpa using halternative) hbody, ?_⟩
    rw [braced_siteAt]
    rfl
  · next halternative =>
    cases hlast
    have hnone : b.declares "ELSE" = false ∧ c.options.after = none := by simpa using halternative
    exact ⟨clauses, none, hlength, .plain hclauses hnone.1 hnone.2, rfl⟩

end Rules

theorem Workspace.branches_of_text {w : Workspace} {i : Nat} {b : Block}
    (hb : w.blocks[i]? = some b) (htype : b.type ∈ conditionalTypes) {c : Setup}
    (hc : c.book = .builtin) {n : Nat} {text : BlockText} {p p' : Pass}
    (h : ((w.unfold (n + 1) i).text c).run p = (.ok text, p')) :
    ∃ clauses last, clauses.length = b.outline.arms ∧
      w.Branches c n b (p.entering b.toHead) clauses last p' ∧
      text = .statement (c.front b.toHead ++
        " else ".intercalate (clauses.map (Clause.code (c.lead b.toHead)) ++
          last.toList.map (branchCode (c.lead b.toHead))) ++ "\n") := by
  have hrules : ∀ type ∈ conditionalTypes,
      Rulebook.builtinRules.lookup type = some Rules.conditional := fun type hmem => by
    rcases List.mem_pair.1 hmem with rfl | rfl <;> rfl
  rw [unfold_block hb] at h
  obtain ⟨rule, emission, hrule, hrun, rfl⟩ := Setup.run_emit_eq_ok hc (s := w.siteAt c n b) h
  cases (hrules b.type htype).symm.trans hrule
  obtain ⟨clauses, last, hlength, hbranches, rfl⟩ := Rules.branches_of_run hrun
  exact ⟨clauses, last, hlength, hbranches, rfl⟩

def Block.HasShape (b : Block) (elseIfs : Nat) (hasElse : Bool) : Prop :=
  (∀ m, b.HasArms m → elseIfs + 1 ≤ m) ∧ (hasElse = true → b.declares "ELSE" = true)

theorem Block.Holds.hasShape {α : Type} {b : Block} {row : List (Node α)}
    {path : List DocumentStep} {id : String} {parts : List (Slot × Option α)}
    (h : b.Holds row path id parts) {elseIfs : Nat} {hasElse : Bool} {link : Option α}
    (hmem : (.shape elseIfs hasElse, link) ∈ parts) : b.HasShape elseIfs hasElse :=
  ⟨fun _ hm => hm.lt (h.shaped hmem).1, (h.shaped hmem).2⟩

theorem Json.shape_mem_nodeParts {v : Json} {elseIfs : Nat} {hasElse : Bool}
    (h : v.shape? = some (elseIfs, hasElse)) : (.shape elseIfs hasElse, none) ∈ v.nodeParts := by
  simp [nodeParts, linkParts, h]

theorem Xml.shape_mem_nodeParts {x c : Xml} (hc : c ∈ x.children)
    (hmutation : c.isElement "mutation" = true) : (c.shapeSlot, none) ∈ x.nodeParts := by
  refine List.mem_filterMap.2 ⟨c, hc, ?_⟩
  cases c with
  | text s => cases hmutation
  | element tag attributes children =>
    obtain rfl := beq_iff_eq.1 hmutation
    rfl

theorem Json.hasShape_of_workspace {v : Json} {w : Workspace}
    (h : (Document.ofJson v).workspace = .ok w) :
    (v.blockNodes.map Node.position).Perm (List.range w.size) ∧
      ∀ x ∈ v.blockNodes, ∃ b, w.blocks[x.position]? = some b ∧
        Encoding.json.Describes v.blockNodes x b ∧
        ∀ elseIfs hasElse, x.value.shape? = some (elseIfs, hasElse) →
          b.HasShape elseIfs hasElse := by
  obtain ⟨hlays, hperm⟩ :=
    Encoding.json.lays_workspace (fun _ => rfl) (fun _ => Json.eq_topItems_of_tops) h
  refine ⟨hperm, fun x hx => ?_⟩
  obtain ⟨b, hb, hdescribes⟩ := hlays.laid hx
  exact ⟨b, hb, hdescribes, fun _ _ hshape =>
    hdescribes.holds.hasShape (Json.shape_mem_nodeParts hshape)⟩

theorem Xml.hasShape_of_workspace {x : Xml} {w : Workspace}
    (h : (Document.ofXml x).workspace = .ok w) :
    (x.blockNodes.map Node.position).Perm (List.range w.size) ∧
      ∀ y ∈ x.blockNodes, ∃ b, w.blocks[y.position]? = some b ∧
        Encoding.xml.Describes x.blockNodes y b ∧
        ∀ c ∈ y.value.children, c.isElement "mutation" = true → ∀ elseIfs hasElse,
          c.shapeSlot = .shape elseIfs hasElse → b.HasShape elseIfs hasElse := by
  obtain ⟨hlays, hperm⟩ := Encoding.xml.lays_workspace (fun _ => rfl)
    (fun _ htops => (Option.some.inj htops).symm) h
  refine ⟨hperm, fun y hy => ?_⟩
  obtain ⟨b, hb, hdescribes⟩ := hlays.laid hy
  refine ⟨b, hb, hdescribes, fun c hc hmutation elseIfs hasElse hslot => ?_⟩
  have hmem := Xml.shape_mem_nodeParts hc hmutation
  rw [hslot] at hmem
  exact hdescribes.holds.hasShape hmem

/--
The code of a block for conditions has a clause for each number up to the first one without a
condition, and an alternative just if one is declared or the options have code for it. Where a
document gives the shape of a block, the block has the inputs for it, and each input stays connected
as the document says.
-/
theorem Workspace.conditional_branches :
    (∀ (w : Workspace) (i : Nat) (b : Block), w.blocks[i]? = some b → b.type ∈ conditionalTypes →
      ∃ m, b.HasArms m ∧ ∀ (c : Setup) (n : Nat) (p p' : Pass) (text : BlockText),
        c.book = .builtin → ((w.unfold (n + 1) i).text c).run p = (.ok text, p') →
        ∃ clauses last, clauses.length = m ∧
          w.Branches c n b (p.entering b.toHead) clauses last p' ∧
          (last.isSome = true ↔ b.declares "ELSE" = true ∨ c.options.after.isSome = true) ∧
          text = .statement (c.front b.toHead ++
            " else ".intercalate (clauses.map (Clause.code (c.lead b.toHead)) ++
              last.toList.map (branchCode (c.lead b.toHead))) ++ "\n")) ∧
    (∀ (v : Json) (w : Workspace), (Document.ofJson v).workspace = .ok w →
      (v.blockNodes.map Node.position).Perm (List.range w.size) ∧
      ∀ x ∈ v.blockNodes, ∃ b, w.blocks[x.position]? = some b ∧
        Encoding.json.Describes v.blockNodes x b ∧
        ∀ elseIfs hasElse, x.value.shape? = some (elseIfs, hasElse) →
          b.HasShape elseIfs hasElse) ∧
    ∀ (x : Xml) (w : Workspace), (Document.ofXml x).workspace = .ok w →
      (x.blockNodes.map Node.position).Perm (List.range w.size) ∧
      ∀ y ∈ x.blockNodes, ∃ b, w.blocks[y.position]? = some b ∧
        Encoding.xml.Describes x.blockNodes y b ∧
        ∀ c ∈ y.value.children, c.isElement "mutation" = true → ∀ elseIfs hasElse,
          c.shapeSlot = .shape elseIfs hasElse → b.HasShape elseIfs hasElse := by
  refine ⟨fun w i b hb htype => ⟨_, b.hasArms, fun c n p p' text hc hrun => ?_⟩,
    fun v w => Json.hasShape_of_workspace, fun x w => Xml.hasShape_of_workspace⟩
  obtain ⟨clauses, last, hlength, hbranches, htext⟩ := branches_of_text hb htype hc hrun
  exact ⟨clauses, last, hlength, hbranches, hbranches.isSome_iff, htext⟩

theorem Workspace.conditional_branches_mutation :
    let truth : Xml := .element "block" ⟨[("id", "t"), ("type", "logic_boolean")]⟩
      [.element "field" ⟨[("name", "BOOL")]⟩ [.text "TRUE"]]
    let choice : Xml := .element "block" ⟨[("id", "c"), ("type", "controls_if")]⟩
      [.element "value" ⟨[("name", "IF1")]⟩ [truth],
        .element "mutation" ⟨[("else", "1"), ("elseif", "1")]⟩ []]
    let x : Xml := .element "xml" {} [choice]
    let b : Block := {
      id := "c", type := "controls_if", values := ⟨[("IF0", none), ("IF1", some 0)]⟩,
      statements := ⟨[("DO0", none), ("DO1", none), ("ELSE", none)]⟩ }
    let w : Workspace := {
      blocks := #[{ id := "t", type := "logic_boolean", fields := ⟨[("BOOL", .text "TRUE")]⟩ }, b],
      roots := [1] }
    let code := r"if false {
} else if true {
} else {
}
"
    (Document.ofXml x).workspace = .ok w ∧
      (((w.unfold 2 1).text {}).run (({} : Setup).start w)).1 = .ok (.statement code) ∧
      (∃ y ∈ x.blockNodes, y.value = choice ∧ ∃ b', w.blocks[y.position]? = some b' ∧
        b'.HasShape 1 true) ∧
      ∃ m clauses last, b.HasArms m ∧ clauses.length = m ∧ last.isSome = true ∧
        w.Branches {} 1 b ((({} : Setup).start w).entering b.toHead) clauses last
          (((w.unfold 2 1).text {}).run (({} : Setup).start w)).2 := by
  intro truth choice x b w code
  have hload : (Document.ofXml x).workspace = .ok w := by decide +kernel
  have hcode : (((w.unfold 2 1).text {}).run (({} : Setup).start w)).1 = .ok (.statement code) := by
    decide +kernel
  obtain ⟨hrender, -, hxml⟩ := Workspace.conditional_branches
  obtain ⟨m, hm, hbranches⟩ := hrender w 1 b rfl (by decide)
  obtain ⟨clauses, last, hlength, hclauses, hlast, -⟩ :=
    hbranches {} 1 _ _ _ rfl (Render.run_of_fst hcode)
  have hnode : ∃ y ∈ x.blockNodes, y.value = choice := by
    have hhead := Encoding.xml.nodes_eq 0 choice
    exact ⟨_, List.mem_append_left _ (hhead ▸ List.mem_cons_self), rfl⟩
  obtain ⟨y, hy, hvalue⟩ := hnode
  obtain ⟨b', hb', -, hshape⟩ := (hxml x w hload).2 y hy
  refine ⟨hload, hcode, ⟨y, hy, hvalue, b', hb', ?_⟩, m, clauses, last, hm, hlength, ?_, hclauses⟩
  · exact hshape (.element "mutation" ⟨[("else", "1"), ("elseif", "1")]⟩ [])
      (hvalue ▸ .tail _ (.head _)) rfl 1 true (by rfl)
  · exact hlast.2 (.inl (by decide))

end BlockCode
