import BlockCode.Proofs.Demands
import BlockCode.Render.Template

namespace BlockCode

namespace Rulebook

inductive Change where
  | register (type : String) (rule : Rule)
  | withOpening (opening : Option Opening)

namespace Change

def rule? (type : String) : Change → Option Rule
  | .register type' rule => if type = type' then some rule else none
  | .withOpening _ => none

def opening? : Change → Option (Option Opening)
  | .register _ _ => none
  | .withOpening opening => some opening

def concerns (types : List String) : Change → Bool
  | .register type _ => types.contains type
  | .withOpening _ => true

theorem rule?_of_not_concerns {types : List String} {type : String} (htype : type ∈ types)
    {ch : Change} (h : ch.concerns types = false) : ch.rule? type = none := by
  cases ch with
  | register type' rule =>
    have hne : type ≠ type' := by
      rintro rfl
      simp [concerns, htype] at h
    exact if_neg hne
  | withOpening opening => rfl

theorem opening?_of_not_concerns {types : List String} {ch : Change}
    (h : ch.concerns types = false) : ch.opening? = none := by
  cases ch with
  | register type rule => rfl
  | withOpening opening => cases h

end Change

def change (book : Rulebook) : Change → Rulebook
  | .register type rule => book.register type rule
  | .withOpening opening => book.withOpening opening

def after (book : Rulebook) (changes : List Change) : Rulebook := changes.foldl change book

def last? {α : Type} (given? : Change → Option α) (changes : List Change) : Option α :=
  (changes.filterMap given?).getLast?

theorem rule?_change (book : Rulebook) (ch : Change) (type : String) :
    (book.change ch).rule? type = (ch.rule? type).or (book.rule? type) := by
  cases ch with
  | register type' rule =>
    simp only [change, register, Rulebook.rule?, ByName.get?_insert, Change.rule?]
    split <;> rfl
  | withOpening opening => rfl

theorem opening_change (book : Rulebook) (ch : Change) :
    (book.change ch).opening = ch.opening?.getD book.opening := by
  cases ch <;> rfl

section

variable {α : Type} (given? : Change → Option α)

theorem last?_append (before later : List Change) :
    last? given? (before ++ later) = (last? given? later).or (last? given? before) := by
  rw [last?, List.filterMap_append, List.getLast?_append]
  rfl

theorem last?_cons (ch : Change) (changes : List Change) :
    last? given? (ch :: changes) = (last? given? changes).or (given? ch) := by
  rw [← List.singleton_append, last?_append]
  congr 1
  cases h : given? ch <;> simp [last?, h]

theorem last?_filter {kept : Change → Bool} (h : ∀ ch, kept ch = false → given? ch = none)
    (changes : List Change) : last? given? (changes.filter kept) = last? given? changes := by
  rw [last?, List.filterMap_filter, last?]
  congr 2
  funext ch
  cases hkept : kept ch
  · simp [h ch hkept]
  · rfl

end

theorem rule?_after (book : Rulebook) (changes : List Change) (type : String) :
    (book.after changes).rule? type =
      (last? (Change.rule? type) changes).or (book.rule? type) := by
  induction changes generalizing book with
  | nil => rfl
  | cons ch changes ih =>
    rw [last?_cons, Option.or_assoc, ← rule?_change]
    exact ih (book.change ch)

theorem opening_after (book : Rulebook) (changes : List Change) :
    (book.after changes).opening = (last? Change.opening? changes).getD book.opening := by
  induction changes generalizing book with
  | nil => rfl
  | cons ch changes ih =>
    rw [last?_cons, Option.getD_or, ← opening_change]
    exact ih (book.change ch)

theorem last?_rule?_dropped {type : String} {before later : List Change}
    (h : ∃ rule, .register type rule ∈ later) (rule : Rule) (type' : String) :
    last? (Change.rule? type') (before ++ .register type rule :: later) =
      last? (Change.rule? type') (before ++ later) := by
  rw [last?_append, last?_append, last?_cons]
  by_cases heq : type' = type
  · -- The later rule hides this one and all before it.
    obtain ⟨rule', hmem⟩ := h
    have hgiven : rule' ∈ later.filterMap (Change.rule? type') :=
      List.mem_filterMap.2 ⟨_, hmem, if_pos heq⟩
    have hlast := List.getLast?_eq_some_getLast (List.ne_nil_of_mem hgiven)
    rw [last?, hlast]
    rfl
  · have hnone : Change.rule? type' (.register type rule) = none := if_neg heq
    rw [hnone, Option.or_none]

end Rulebook

namespace Tree

mutual

def types : Tree → List String
  | .missing | .endless => []
  | .block head values statements next =>
    head.type :: (inputTypes values ++ inputTypes statements ++ linkTypes next)

def inputTypes : List (String × Option Tree) → List String
  | [] => []
  | (_, link) :: rest => linkTypes link ++ inputTypes rest

def linkTypes : Option Tree → List String
  | none => []
  | some t => t.types

end

theorem types_subset_inputTypes {vs : List (String × Option Tree)} {name : String} {t : Tree}
    (h : (name, some t) ∈ vs) : t.types ⊆ inputTypes vs := by
  induction vs with
  | nil => cases h
  | cons e vs ih =>
    rcases List.mem_cons.1 h with rfl | h
    · exact List.subset_append_left _ _
    · exact List.subset_append_of_subset_right _ (ih h)

end Tree

namespace Workspace

def types (w : Workspace) : List String := w.blocks.toList.map fun b => b.type

variable {w : Workspace}

theorem linkTypes_subset {n : Nat} (h : ∀ i, (w.unfold n i).types ⊆ w.types) (link : Option Nat) :
    Tree.linkTypes (link.map (w.unfold n)) ⊆ w.types := by
  cases link with
  | none => exact List.nil_subset _
  | some i => exact h i

theorem inputTypes_subset {n : Nat} (h : ∀ i, (w.unfold n i).types ⊆ w.types)
    (es : List (String × Option Nat)) :
    Tree.inputTypes (es.map fun e => (e.1, e.2.map (w.unfold n))) ⊆ w.types := by
  induction es with
  | nil => exact List.nil_subset _
  | cons e es ih => exact List.append_subset.2 ⟨linkTypes_subset h e.2, ih⟩

theorem types_unfold (w : Workspace) (n i : Nat) : (w.unfold n i).types ⊆ w.types := by
  induction n generalizing i with
  | zero =>
    unfold unfold
    split <;> exact List.nil_subset _
  | succ n ih =>
    cases hb : w.blocks[i]? with
    | none =>
      unfold unfold
      rw [hb]
      exact List.nil_subset _
    | some b =>
      have htype : b.type ∈ w.types :=
        List.mem_map_of_mem (Array.mem_toList_iff.2 (Array.mem_of_getElem? hb))
      rw [unfold_block hb]
      simp only [Tree.types, List.cons_subset, List.append_subset]
      exact ⟨htype, ⟨inputTypes_subset ih _, inputTypes_subset ih _⟩, linkTypes_subset ih _⟩

theorem types_rootTrees {t : Tree} (ht : t ∈ w.rootTrees) : t.types ⊆ w.types := by
  obtain ⟨i, -, rfl⟩ := List.mem_map.1 ht
  exact w.types_unfold _ i

end Workspace

namespace Setup

/-- The setups have the same options, and the same rules for the types. -/
structure Shares (types : List String) (c c' : Setup) : Prop where
  options : c.options = c'.options
  rules : ∀ type ∈ types, c.book.rule? type = c'.book.rule? type

variable {types types' : List String} {c c' : Setup}

theorem Shares.mono (h : Shares types c c') (hsub : types' ⊆ types) : Shares types' c c' :=
  ⟨h.options, fun type htype => h.rules type (hsub htype)⟩

theorem Shares.block {head : Head} {values statements : List (String × Option Tree)}
    {next : Option Tree} (h : Shares (Tree.block head values statements next).types c c') :
    c.book.rule? head.type = c'.book.rule? head.type ∧ Shares (Tree.inputTypes values) c c' ∧
      Shares (Tree.inputTypes statements) c c' ∧ Shares (Tree.linkTypes next) c c' := by
  obtain ⟨hoptions, hrules⟩ := h
  simp only [Tree.types, List.forall_mem_cons, List.forall_mem_append] at hrules
  obtain ⟨hhead, ⟨hvalues, hstatements⟩, hnext⟩ := hrules
  exact ⟨hhead, ⟨hoptions, hvalues⟩, ⟨hoptions, hstatements⟩, ⟨hoptions, hnext⟩⟩

theorem emit_congr {s : Site} (h : c.book.rule? s.head.type = c'.book.rule? s.head.type) :
    c.emit s = c'.emit s := by
  rw [emit, emit, h]

end Setup

namespace Tree

variable {c c' : Setup}

theorem siteOf_congr (hoptions : c.options = c'.options) (head : Head)
    {values statements : List (String × Option Tree)}
    (hvalues : ∀ name t, (name, some t) ∈ values → t.operand c = t.operand c')
    (hstatements : ∀ name t, (name, some t) ∈ statements → t.chain c = t.chain c') :
    siteOf c head values statements = siteOf c' head values statements := by
  have hinputs : ∀ {α : Type} {f f' : Tree → α} {vs : List (String × Option Tree)},
      (∀ name t, (name, some t) ∈ vs → f t = f' t) →
      vs.map (fun e => (e.1, e.2.map f)) = vs.map fun e => (e.1, e.2.map f') := by
    intro α f f' vs h
    apply List.map_congr_left
    rintro ⟨name, link⟩ hmem
    cases link with
    | none => rfl
    | some t => exact congrArg (fun a => (name, some a)) (h name t hmem)
  rw [siteOf, siteOf, hoptions, operands_eq, operands_eq, chains_eq, chains_eq, hinputs hvalues,
    hinputs hstatements]

theorem chainAfter_congr {next : Option Tree} (h : ∀ t, next = some t → t.chain c = t.chain c') :
    chainAfter c next = chainAfter c' next := by
  funext code
  cases next with
  | none => simp only [chainAfter, Option.elim_none]
  | some t => simp only [chainAfter, Option.elim_some, h t rfl]

theorem code_congr (t : Tree) (h : Setup.Shares t.types c c') :
    t.operand c = t.operand c' ∧ t.chain c = t.chain c' := by
  induction t using induct with
  | missing => exact ⟨rfl, rfl⟩
  | endless => exact ⟨rfl, rfl⟩
  | block head values statements next ihvalues ihstatements ihnext =>
    obtain ⟨hrule, hvalues, hstatements, hlink⟩ := h.block
    -- The inputs come first: a rule is given the means to generate them, with all lookups inside.
    have hsite : siteOf c head values statements = siteOf c' head values statements := by
      apply siteOf_congr h.options
      · intro name t ht
        exact (ihvalues name t ht (hvalues.mono (types_subset_inputTypes ht))).1
      · intro name t ht
        exact (ihstatements name t ht (hstatements.mono (types_subset_inputTypes ht))).2
    have hnext : chainAfter c next = chainAfter c' next := by
      apply chainAfter_congr
      rintro t rfl
      exact (ihnext t rfl hlink).2
    simp only [siteOf] at hsite
    constructor
    · rw [operand, operand, hsite, Setup.emit_congr hrule]
    · rw [chain_block, chain_block, hsite, Setup.emit_congr hrule, hnext]

end Tree

namespace Setup

theorem run_congr {c c' : Setup} {w : Workspace} (h : Shares w.types c c')
    (hopening : c.book.opening = c'.book.opening) (hdialect : c.dialect = c'.dialect) :
    c.run w = c'.run w := by
  have hstart : c.start w = c'.start w := by
    rw [start, start, names, names, h.options, hdialect]
  have hrun : c.runOpening w = c'.runOpening w := by
    rw [runOpening, runOpening, hopening, h.options]
  have hroots : w.rootTrees.map (Tree.chain c) = w.rootTrees.map (Tree.chain c') := by
    apply List.map_congr_left
    intro t ht
    exact (t.code_congr (h.mono (Workspace.types_rootTrees ht))).2
  -- The list of actions is the same, so what is done one after the other is the same.
  have hbody : w.rootTrees.mapM (Tree.chain c) = w.rootTrees.mapM (Tree.chain c') := by
    rw [← Function.id_comp (Tree.chain c), ← Function.id_comp (Tree.chain c'), ← List.mapM_map,
      ← List.mapM_map, hroots]
  rw [run, run, program, program, hstart, hrun, hbody]

open Rulebook

theorem run_after_congr {c : Setup} {w : Workspace} {changes changes' : List Change}
    (hopening : last? Change.opening? changes = last? Change.opening? changes')
    (hrules : ∀ type ∈ w.types,
      last? (Change.rule? type) changes = last? (Change.rule? type) changes') :
    { c with book := c.book.after changes }.run w =
      { c with book := c.book.after changes' }.run w := by
  apply run_congr
  · refine ⟨rfl, fun type htype => ?_⟩
    rw [rule?_after, rule?_after, hrules type htype]
  · rw [opening_after, opening_after, hopening]
  · rfl

/--
The code of a program or its fault, and the events, depend on the opening and on the rules for the
types of its blocks, whatever the rules are. Changes of the rulebook that are about other types may
be left out, and so may those that are followed by another one about the same type: the last one
decides.
-/
theorem run_rules_in_use (c : Setup) (w : Workspace) :
    (∀ book, c.book.opening = book.opening →
      (∀ type ∈ w.types, c.book.rule? type = book.rule? type) →
      c.run w = { c with book }.run w) ∧
    (∀ changes, { c with book := c.book.after changes }.run w =
      { c with book := c.book.after (changes.filter (Change.concerns w.types)) }.run w) ∧
    (∀ type before rule later, (∃ rule', Change.register type rule' ∈ later) →
      { c with book := c.book.after (before ++ Change.register type rule :: later) }.run w =
        { c with book := c.book.after (before ++ later) }.run w) ∧
    ∀ changes type, (c.book.after changes).rule? type =
      (last? (Change.rule? type) changes).or (c.book.rule? type) := by
  refine ⟨fun book hopening hrules => ?_, fun changes => ?_,
    fun type before rule later hlater => ?_, c.book.rule?_after⟩
  · exact run_congr ⟨rfl, hrules⟩ hopening rfl
  · apply run_after_congr
    · exact (last?_filter _ (fun _ => Change.opening?_of_not_concerns) changes).symm
    · intro type htype
      exact (last?_filter _ (fun _ => Change.rule?_of_not_concerns htype) changes).symm
  · apply run_after_congr
    · rw [last?_append, last?_append, last?_cons]
      exact congrArg (Option.or · _) Option.or_none
    · exact fun type' _ => last?_rule?_dropped hlater rule type'

theorem run_rules_in_use_text :
    let call (name : String) : Rule := Template.rule
      [.literal (name ++ "("), .query (.fieldText "TEXT"), .literal ")"] (.expression .call)
    let w : Workspace := {
      blocks := #[
        { id := "t", type := "text", fields := ⟨[("TEXT", .text "hi")]⟩ },
        { id := "p", type := "text_print", values := ⟨[("TEXT", some 0)]⟩ }]
      roots := [1] }
    let changes : List Change := [.register "text" (call "old"), .register "logic_null" (call "no"),
      .register "text" (call "new")]
    let book : Rulebook := {
      rules := ⟨[("text", call "new"), ("text_print", Rules.print)]⟩
      opening := some declareVariables }
    ({ book := Rulebook.builtin.after changes } : Setup).run w = ({ book } : Setup).run w ∧
    ({ book := Rulebook.builtin.after [.register "text" (call "new")] } : Setup).run w =
      ({ book := Rulebook.builtin.after changes } : Setup).run w ∧
    ({ book } : Setup).generate w = .ok "println!(\"{}\", new(hi));\n" := by
  intro call w changes book
  have hrules : ∀ type ∈ w.types,
      (Rulebook.builtin.after changes).rule? type = book.rule? type := by
    have hprint : Rulebook.builtin.rule? "text_print" = some Rules.print :=
      Rulebook.builtin_rule? "text_print"
    simp only [Workspace.types, w, List.map_cons, List.map_nil, List.forall_mem_cons, rule?_after,
      hprint]
    exact ⟨rfl, rfl, by simp⟩
  obtain ⟨hbook, -⟩ := run_rules_in_use { book := Rulebook.builtin.after changes } w
  obtain ⟨-, hother, hearlier, -⟩ := run_rules_in_use {} w
  refine ⟨hbook book rfl hrules, ?_, by decide +kernel⟩
  calc ({ book := Rulebook.builtin.after [.register "text" (call "new")] } : Setup).run w
      = ({ book := Rulebook.builtin.after (changes.drop 1) } : Setup).run w :=
        (hother (changes.drop 1)).symm
    _ = ({ book := Rulebook.builtin.after changes } : Setup).run w :=
        (hearlier "text" [] (call "old") (changes.drop 1) ⟨call "new", by simp [changes]⟩).symm

end Setup

end BlockCode
