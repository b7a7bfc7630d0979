import BlockCode.Proofs.Numerals
import BlockCode.Proofs.Ranges
import BlockCode.Proofs.Requests

namespace BlockCode

open Text Render

namespace Rules

/-- What stands in the header of a loop for this code, and what is bound to names before it. -/
inductive Refers (code : String) : String → List (String × String) → Prop
  | plain : IsPlain code → Refers code code []
  | bound {name : String} : ¬ IsPlain code → IsIdentifier name → Refers code name [(name, code)]

def bindings (bs : List (String × String)) : String :=
  String.join (bs.map fun b => "let " ++ b.1 ++ " = " ++ b.2 ++ ";\n")

theorem bindings_append (bs bs' : List (String × String)) :
    bindings (bs ++ bs') = bindings bs ++ bindings bs' := by
  simp [bindings, String.join_append]

theorem refers_of_run {hint code : String} {p p' : Pass} {result : String × String}
    (h : (hoist hint code).run p = (.ok result, p')) :
    ∃ bs, Refers code result.1 bs ∧ result.2 = bindings bs ∧
      (hoist hint code).Asks p ((bs.map Prod.fst).map .temporary) := by
  unfold hoist at h ⊢
  by_cases hsimple : isSimple code = true
  · rw [if_pos hsimple] at h ⊢
    cases h
    exact ⟨[], .plain ((isSimple_iff code).1 hsimple), rfl, .pure _ _⟩
  · rw [if_neg hsimple] at h ⊢
    obtain ⟨name, q, hname, hpure⟩ := run_bind_eq_ok h
    cases hpure
    have hidentifier : IsIdentifier name := by
      cases hname
      exact Names.isIdentifier_free _ (isIdentifier_safeName hint .variable)
    refine ⟨[(name, code)], .bound ((isSimple_iff code).not.1 hsimple) hidentifier, ?_, ?_⟩
    · simp [bindings, binding]
    · exact .bind (.temporary hname) hname (.pure _ _)

theorem Refers.eq_of_isPlain {code place : String} {bs : List (String × String)}
    (h : Refers code place bs) (hcode : IsPlain code) : place = code ∧ bs = [] := by
  cases h with
  | plain => exact ⟨rfl, rfl⟩
  | bound hnot => exact (hnot hcode).elim

theorem Refers.isPlain {code place : String} {bs : List (String × String)}
    (h : Refers code place bs) : IsPlain place := by
  cases h with
  | plain hplain => exact hplain
  | bound _ hname => exact isPlain_of_isIdentifier hname

theorem IsPlain.head_ne {code : String} (h : IsPlain code) : code.toList.head? ≠ some '(' := by
  intro hhead
  rcases h with ⟨-, hword⟩ | hnumeral
  · have hparen := hword '(' (List.mem_of_mem_head? hhead)
    revert hparen
    decide
  · generalize code.toList = cs at hhead hnumeral
    cases hnumeral with
    | @digits sign ds rest hsign hds =>
      simp only [List.mem_cons, List.not_mem_nil, or_false] at hsign
      rcases hsign with rfl | rfl
      · obtain ⟨d, ds, rfl⟩ := List.exists_cons_of_ne_nil hds.1
        cases hhead
        exact absurd (hds.2 '(' List.mem_cons_self) (by decide)
      · cases hhead

theorem head_ne_of_read {code : String} {x : Number} (h : Number.read? code = some x) :
    code.toList.head? ≠ some '(' := by
  intro hhead
  have hparen := Number.isReadable_of_read h '(' (List.mem_of_mem_head? hhead)
  revert hparen
  decide

namespace Counter

/--
The code of a counting loop, and the names that it takes for itself. Its direction is fixed, by the
numbers that the ends are read as, or the loop chooses it when it runs.
-/
inductive IsLoop (k : Counter) : Bool → String → List String → Prop
  | fixed {a b : Number} {range : String} : Number.read? k.start = some a →
    Number.read? k.stop = some b → RangeText k.start k.stop k.step (b.lt a) range →
    IsLoop k true (forLoop k.name range k.body) []
  | chosen {start stop step range rising falling : String} {bs bs' bs'' : List (String × String)} :
    Refers k.start start bs → Refers k.stop stop bs' → Refers k.step step bs'' →
    RangeText start stop step false rising → RangeText start stop step true falling →
    IsLoop k false (bindings (bs ++ bs' ++ bs'') ++
      line ("let " ++ range ++ ": Box<dyn Iterator<Item = _>> = if " ++ start ++ " <= " ++ stop ++
        r" { Box::new(" ++ rising ++ r") } else { Box::new(" ++ falling ++ r") };") ++
      forLoop k.name range k.body) ((bs ++ bs' ++ bs'').map Prod.fst ++ [range])

variable {k : Counter} {p p' : Pass} {loop : String}

theorem IsLoop.head {names : List String} {fixed : Bool} (h : k.IsLoop fixed loop names) :
    loop.toList.head? = some (if fixed then 'f' else 'l') := by
  cases h with
  | fixed => simp [forLoop, line]
  | @chosen _ _ _ _ _ _ bs bs' bs'' =>
    cases bs ++ bs' ++ bs'' <;> simp [bindings, line]

theorem isLoop_fixed {a b : Number} (ha : Number.read? k.start = some a)
    (hb : Number.read? k.stop = some b) : k.IsLoop true (k.fixed (b.lt a)) [] := by
  refine .fixed ha hb ?_
  cases b.lt a with
  | true => exact rangeText_downward _ _ _
  | false => exact rangeText_upward (head_ne_of_read ha) _ _

theorem isLoop_chosen (h : k.chosen.run p = (.ok loop, p')) :
    ∃ names, k.IsLoop false loop names ∧ k.chosen.Asks p (names.map .temporary) := by
  obtain ⟨⟨start, startLines⟩, q₁, hstart, h₁⟩ := run_bind_eq_ok h
  obtain ⟨⟨stop, stopLines⟩, q₂, hstop, h₂⟩ := run_bind_eq_ok h₁
  obtain ⟨⟨step, stepLines⟩, q₃, hstep, h₃⟩ := run_bind_eq_ok h₂
  obtain ⟨range, q₄, hrange, hpure⟩ := run_bind_eq_ok h₃
  cases hpure
  obtain ⟨bs, hbs, rfl, hasks⟩ := refers_of_run hstart
  obtain ⟨bs', hbs', rfl, hasks'⟩ := refers_of_run hstop
  obtain ⟨bs'', hbs'', rfl, hasks''⟩ := refers_of_run hstep
  refine ⟨(bs ++ bs' ++ bs'').map Prod.fst ++ [range], ?_, ?_⟩
  · rw [← bindings_append, ← bindings_append]
    exact .chosen hbs hbs' hbs'' (rangeText_upward hbs.isPlain.head_ne _ _)
      (rangeText_downward _ _ _)
  · have hlog : ((bs ++ bs' ++ bs'').map Prod.fst ++ [range]).map Request.temporary =
        (bs.map Prod.fst).map .temporary ++ ((bs'.map Prod.fst).map .temporary ++
          ((bs''.map Prod.fst).map .temporary ++ ([.temporary range] ++ []))) := by
      simp
    rw [hlog]
    refine .bind hasks hstart ?_
    refine .bind hasks' hstop ?_
    exact .bind hasks'' hstep (.bind (.temporary hrange) hrange (.pure _ _))

theorem isLoop_of_run (h : k.loop.run p = (.ok loop, p')) :
    ∃ names, k.IsLoop ((Number.read? k.start).isSome && (Number.read? k.stop).isSome) loop names ∧
      k.loop.Asks p (names.map .temporary) := by
  unfold Counter.loop at h ⊢
  cases hstart : Number.read? k.start with
  | none =>
    rw [hstart] at h
    exact isLoop_chosen h
  | some a =>
    cases hstop : Number.read? k.stop with
    | none =>
      rw [hstart, hstop] at h
      exact isLoop_chosen h
    | some b =>
      rw [hstart, hstop] at h
      cases h
      exact ⟨[], isLoop_fixed hstart hstop, .pure _ _⟩

end Counter

theorem countingLoop_cases {s : Site} {p p' : Pass} {emission : Emission}
    (h : (countingLoop s).run p = (.ok emission, p')) :
    ∃ k q loop names, (counter s).run p = (.ok k, q) ∧ q.Continues p' ∧
      emission = .statement loop ∧
      k.IsLoop ((Number.read? k.start).isSome && (Number.read? k.stop).isSome) loop names ∧
      ∀ log, (counter s).Asks p log → (countingLoop s).Asks p (log ++ names.map .temporary) := by
  obtain ⟨k, q, hk, h⟩ := run_bind_eq_ok h
  obtain ⟨loop, q', hloop, hpure⟩ := run_bind_eq_ok h
  cases hpure
  obtain ⟨names, hisLoop, hasks⟩ := Counter.isLoop_of_run hloop
  have hcont := hasks.continues
  rw [hloop] at hcont
  refine ⟨k, q, loop, names, hk, hcont, rfl, hisLoop, fun log hlog => .bind hlog hk ?_⟩
  rw [← List.append_nil (names.map _)]
  exact .bind hasks hloop (.pure _ _)

theorem repetition_cases {s : Site} {p p' : Pass} {emission : Emission}
    (h : (repetition s).run p = (.ok emission, p')) :
    ∃ times q name bound bs q' body, (repeatCount s).run p = (.ok times, q) ∧
      Refers times bound bs ∧ (s.loopBranch "DO").run q' = (.ok body, p') ∧
      emission = .statement (bindings bs ++ forLoop name ("0.." ++ bound) body) ∧
      ∀ log log', (repeatCount s).Asks p log → (s.loopBranch "DO").Asks q' log' →
        (repetition s).Asks p (log ++ (name :: bs.map Prod.fst).map .temporary ++ log') := by
  obtain ⟨times, q, htimes, h₁⟩ := run_bind_eq_ok h
  obtain ⟨name, q₁, hname, h₂⟩ := run_bind_eq_ok h₁
  obtain ⟨⟨bound, lines⟩, q₂, hbound, h₃⟩ := run_bind_eq_ok h₂
  obtain ⟨body, q₃, hbody, hpure⟩ := run_bind_eq_ok h₃
  cases hpure
  obtain ⟨bs, hbs, rfl, hasks⟩ := refers_of_run hbound
  refine ⟨times, q, name, bound, bs, q₂, body, htimes, hbs, hbody, rfl, ?_⟩
  intro log log' hlog hlog'
  have hall : log ++ (name :: bs.map Prod.fst).map Request.temporary ++ log' =
      log ++ ([.temporary name] ++ ((bs.map Prod.fst).map .temporary ++ (log' ++ []))) := by
    simp
  rw [hall]
  refine .bind hlog htimes (.bind (.temporary hname) hname (.bind hasks hbound ?_))
  exact .bind hlog' hbody (.pure _ _)

end Rules

end BlockCode
