import BlockCode.Proofs.Requests
import BlockCode.Proofs.Trimming

namespace BlockCode

namespace Tree

@[elab_as_elim]
theorem induct {P : Tree → Prop} (missing : P .missing) (endless : P .endless)
    (block : ∀ head values statements next, (∀ name t, (name, some t) ∈ values → P t) →
      (∀ name t, (name, some t) ∈ statements → P t) → (∀ t, next = some t → P t) →
      P (.block head values statements next)) (t : Tree) : P t := by
  refine @Tree.rec P (fun vs => ∀ name t, (name, some t) ∈ vs → P t)
    (fun link => ∀ t, link = some t → P t) (fun e => ∀ t, e.2 = some t → P t)
    missing endless block (by simp) ?_ (by simp) ?_ (fun _ _ h => h) t
  · intro e vs he hvs name t ht
    rcases List.mem_cons.1 ht with rfl | ht
    · exact he t rfl
    · exact hvs name t ht
  · rintro t ht _ ⟨⟩
    exact ht

def at? (inputs : List (String × Option Tree)) (input : String) : Option Tree :=
  (inputs.lookup input).join

theorem mem_of_at? {inputs : List (String × Option Tree)} {input : String} {t : Tree}
    (h : at? inputs input = some t) : (input, some t) ∈ inputs := by
  obtain ⟨before, after, rfl, -⟩ := List.lookup_eq_some_iff.1 (Option.join_eq_some_iff.1 h)
  simp

theorem join_lookup_map {β : Type} (f : String → Tree → β) (inputs : List (String × Option Tree))
    (input : String) : ((inputs.map fun e => (e.1, e.2.map (f e.1))).lookup input).join =
      (at? inputs input).map (f input) := by
  rw [ByName.lookup_map fun name => Option.map (f name), at?]
  cases inputs.lookup input <;> rfl

theorem join_lookup_operands (c : Setup) (values : List (String × Option Tree)) (input : String) :
    ((operands c values).lookup input).join = (at? values input).map (operand c) := by
  rw [operands_eq, join_lookup_map fun _ => operand c]

theorem join_lookup_chains (c : Setup) (statements : List (String × Option Tree))
    (input : String) :
    ((chains c statements).lookup input).join = (at? statements input).map (chain c) := by
  rw [chains_eq, join_lookup_map fun _ => chain c]

end Tree

namespace Render

/-- The action leaves only new names behind, also if it fails. -/
def Steady {α : Type} (act : Render α) : Prop := ∀ p : Pass, p.Continues (act.run p).2

theorem Steady.bind {α β : Type} {x : Render α} {f : α → Render β} (hx : x.Steady)
    (hf : ∀ a, (f a).Steady) : (x >>= f).Steady := by
  intro p
  have hfirst := hx p
  rw [run_bind]
  generalize x.run p = r at hfirst ⊢
  obtain ⟨e | a, q⟩ := r
  · exact hfirst
  · exact hfirst.trans (hf a q)

theorem Steady.continues {α : Type} {act : Render α} (h : act.Steady) {p p' : Pass}
    {r : Except Fault α} (hrun : act.run p = (r, p')) : p.Continues p' := by
  simpa only [hrun] using h p

theorem steady_throw {α : Type} (e : Fault) : (throw e : Render α).Steady := fun p => .refl p

theorem steady_kept : Kept (fun _ => True) fun act _ => act.Steady where
  pure _ := fun p => .refl p
  bind := .bind
  throw e _ := steady_throw e
  report _ := fun _ => ⟨.refl _, rfl⟩
  variableName _ _ := continues_nameFor _ _
  distinctName _ := continues_distinctName _ _
  inLoop := fun p => .refl p
  asLoopBody h := fun _ => continues_asLoopBody (h _)

end Render

namespace Tree

variable {c : Setup}

theorem inputsMatch_map {α : Type} {R : α → α → Prop} {f g : String → Tree → α}
    {inputs : List (String × Option Tree)}
    (h : ∀ name t, (name, some t) ∈ inputs → R (f name t) (g name t)) :
    InputsMatch R (inputs.map fun e => (e.1, e.2.map (f e.1)))
      (inputs.map fun e => (e.1, e.2.map (g e.1))) := by
  refine List.forall₂_map_left_iff.2 (List.forall₂_map_right_iff.2 (List.forall₂_same.2 ?_))
  rintro ⟨name, link⟩ hmem
  refine ⟨rfl, ?_⟩
  cases link with
  | none => exact .none
  | some t => exact .some (h name t hmem)

theorem matches_self {allowed : Head → Prop} {P : ∀ {α : Type}, Render α → Render α → Prop}
    {head : Head} {values statements : List (String × Option Tree)} (hhead : allowed head)
    (hvalues : ∀ name t, (name, some t) ∈ values → P (t.operand c).text (t.operand c).text)
    (hstatements : ∀ name t, (name, some t) ∈ statements → P (t.chain c) (t.chain c)) :
    Site.Matches allowed P ⟨head, c.options, operands c values, chains c statements⟩
      (operands c values) (chains c statements) := by
  refine ⟨⟨hhead, ?_⟩, ?_⟩
  · simp only [operands_eq]
    exact inputsMatch_map (f := fun _ => operand c) (g := fun _ => operand c) fun name t ht =>
      ⟨rfl, fun _ => rfl, fun _ => hvalues name t ht⟩
  · simp only [chains_eq]
    exact inputsMatch_map (f := fun _ => chain c) (g := fun _ => chain c) hstatements

abbrev siteOf (c : Setup) (head : Head) (values statements : List (String × Option Tree)) :
    Site :=
  ⟨head, c.options, operands c values, chains c statements⟩

def chainAfter (c : Setup) (next : Option Tree) (code : String) : Render String :=
  next.elim (return code) fun t => return code ++ (← t.chain c)

theorem chain_block (head : Head) (values statements : List (String × Option Tree))
    (next : Option Tree) : (block head values statements next).chain c =
      if head.disabled then chainAfter c next ""
      else c.emit ⟨head, c.options, operands c values, chains c statements⟩ >>= fun text =>
        chainAfter c next
          (Site.asStatement ⟨head, c.options, operands c values, chains c statements⟩ text) := by
  rw [chain]
  split
  · cases next <;> rfl
  · rw [map_eq_pure_bind, bind_assoc]
    cases next <;> rfl

/-- What every block has if its inputs have it, a pass over any tree has, whole or not. -/
theorem kept_of_emit {P : ∀ {α : Type}, Render α → Render α → Prop}
    (hP : Render.KeptSteps (fun _ => True) P)
    (hthrow : ∀ {α : Type} (e : Fault), P (throw e : Render α) (throw e))
    (hemit : ∀ s : Site, s.Matches (fun _ => True) P s.values s.statements →
      P (c.emit s) (c.emit s)) (t : Tree) :
    P (t.operand c).text (t.operand c).text ∧ P (t.chain c) (t.chain c) := by
  induction t using induct with
  | missing => exact ⟨hthrow _, hthrow _⟩
  | endless => exact ⟨hthrow _, hthrow _⟩
  | block head values statements next ihvalues ihstatements ihnext =>
    let s : Site := ⟨head, c.options, operands c values, chains c statements⟩
    have hs : s.Matches (fun _ => True) P s.values s.statements :=
      matches_self trivial (fun name t ht => (ihvalues name t ht).1) fun name t ht =>
        (ihstatements name t ht).2
    have hblock : P (c.emit s) (c.emit s) := hemit s hs
    have hnext : ∀ code, P (chainAfter c next code) (chainAfter c next code) := by
      cases next with
      | none => exact hP.pure
      | some t => exact fun code => hP.bind (ihnext t rfl).2 fun _ => hP.pure _
    refine ⟨by rwa [operand], ?_⟩
    rw [chain_block]
    split
    · exact hnext ""
    · exact hP.bind hblock fun _ => hnext _

section

variable {P : ∀ {α : Type}, Render α → Render α → Prop} (hP : Render.Kept (fun _ => True) P)
  (hthrow : ∀ {α : Type} (e : Fault), P (throw e : Render α) (throw e)) (hc : c.book = .builtin)
include hP hthrow hc

theorem kept_self (t : Tree) :
    P (t.operand c).text (t.operand c).text ∧ P (t.chain c) (t.chain c) :=
  t.kept_of_emit hP.toKeptSteps hthrow fun _ hs => Setup.kept_emit hP hs hc

theorem kept_site (head : Head) (values statements : List (String × Option Tree)) :
    Site.Matches (fun _ => True) P ⟨head, c.options, operands c values, chains c statements⟩
      (operands c values) (chains c statements) :=
  matches_self trivial (fun _ t _ => (t.kept_self hP hthrow hc).1) fun _ t _ =>
    (t.kept_self hP hthrow hc).2

end

theorem steady_site (hc : c.book = .builtin) (head : Head)
    (values statements : List (String × Option Tree)) :
    Site.Matches (fun _ => True) (fun act _ => act.Steady)
      ⟨head, c.options, operands c values, chains c statements⟩ (operands c values)
      (chains c statements) :=
  kept_site Render.steady_kept Render.steady_throw hc head values statements

end Tree

end BlockCode
