import BlockCode.Proofs.Names
import BlockCode.Render.Program

namespace BlockCode

namespace Names

def Reaches (t t' : Names) : Prop := ∃ calls, Call.reset ∉ calls ∧ t' = t.after calls

theorem Reaches.refl (t : Names) : t.Reaches t := ⟨[], List.not_mem_nil, rfl⟩

theorem Reaches.trans {t u v : Names} (h : t.Reaches u) (h' : u.Reaches v) : t.Reaches v := by
  obtain ⟨calls, hcalls, rfl⟩ := h
  obtain ⟨calls', hcalls', rfl⟩ := h'
  exact ⟨calls ++ calls', by simp [hcalls, hcalls'], (after_append t calls calls').symm⟩

theorem reaches_call (t : Names) {c : Call} (hc : c ≠ .reset) : t.Reaches (t.call c).2 :=
  ⟨[c], by simpa using hc.symm, rfl⟩

theorem Held.after {t : Names} {owner : Option (Category × String)} {name : String}
    (h : t.Held owner name) {calls : List Call} (hcalls : .reset ∉ calls) :
    (t.after calls).Held owner name := by
  induction calls generalizing t with
  | nil => exact h
  | cons c cs ih =>
    obtain ⟨hc, hcs⟩ := List.ne_and_not_mem_of_not_mem_cons hcalls
    exact ih (h.call hc.symm) hcs

theorem Reaches.find? {t t' : Names} (h : t.Reaches t') (hs : t.Sound) {key name : String}
    {category : Category} (hfind : t.find? key category = some name) :
    t'.find? key category = some name := by
  obtain ⟨calls, hcalls, rfl⟩ := h
  exact (((hs.held_of_find hfind).after hcalls).2 category key).2 rfl

theorem Reaches.sound {t t' : Names} (h : t.Reaches t') (hs : t.Sound) : t'.Sound := by
  obtain ⟨calls, -, rfl⟩ := h
  exact hs.after calls

theorem used_subset_call (t : Names) {c : Call} (hc : c ≠ .reset) : t.used ⊆ (t.call c).2.used := by
  cases c with
  | setHint key hint => exact List.Subset.refl _
  | resolve key category =>
    cases hfind : t.find? key category with
    | some name => simp [call, resolve_of_find hfind]
    | none => simp [call, resolve_of_not_find hfind, assign, use]
  | distinct hint category => exact List.subset_cons_self _ _
  | reset => exact absurd rfl hc

theorem Reaches.used_subset {t t' : Names} (h : t.Reaches t') : t.used ⊆ t'.used := by
  obtain ⟨calls, hcalls, rfl⟩ := h
  induction calls generalizing t with
  | nil => exact List.Subset.refl _
  | cons c cs ih =>
    obtain ⟨hc, hcs⟩ := List.ne_and_not_mem_of_not_mem_cons hcalls
    exact List.Subset.trans (t.used_subset_call hc.symm) (ih hcs)

structure Guards (t : Names) (words : List String) : Prop where
  sound : t.Sound
  reserved : ∀ word ∈ words, word ∈ t.reserved

theorem Guards.reaches {t t' : Names} {words : List String} (h : t.Guards words)
    (hr : t.Reaches t') : t'.Guards words := by
  have hsound := hr.sound h.sound
  obtain ⟨calls, -, rfl⟩ := hr
  exact ⟨hsound, by simpa using h.reserved⟩

end Names

namespace Render

variable {α β : Type}

@[simp] theorem run_pure (a : α) (p : Pass) : (pure a : Render α).run p = (.ok a, p) := rfl

@[simp] theorem run_throw (e : Fault) (p : Pass) : (throw e : Render α).run p = (.error e, p) := rfl

theorem run_bind (x : Render α) (f : α → Render β) (p : Pass) :
    (x >>= f).run p =
      match x.run p with
      | (.ok a, p') => (f a).run p'
      | (.error e, p') => (.error e, p') := by
  change ExceptT.bindCont f (x.run p).1 (x.run p).2 = _
  generalize x.run p = r
  obtain ⟨e | a, p'⟩ := r <;> rfl

theorem run_bind_ok {x : Render α} {p p' : Pass} {a : α} (h : x.run p = (.ok a, p'))
    (f : α → Render β) : (x >>= f).run p = (f a).run p' := by
  rw [run_bind, h]

theorem run_bind_eq_ok {x : Render α} {f : α → Render β} {p p' : Pass} {b : β}
    (h : (x >>= f).run p = (.ok b, p')) :
    ∃ a q, x.run p = (.ok a, q) ∧ (f a).run q = (.ok b, p') := by
  rw [run_bind] at h
  generalize x.run p = r at h
  obtain ⟨e | a, q⟩ := r
  · cases h
  · exact ⟨a, q, rfl, h⟩

theorem run_of_fst {x : Render α} {p : Pass} {r : Except Fault α} (h : (x.run p).1 = r) :
    x.run p = (r, (x.run p).2) :=
  Prod.ext h rfl

@[simp] theorem run_get (p : Pass) : (get : Render Pass).run p = (.ok p, p) := rfl

@[simp] theorem run_modifyGet (f : Pass → α × Pass) (p : Pass) :
    (modifyGet f : Render α).run p = (.ok (f p).1, (f p).2) := rfl

@[simp] theorem run_report (e : Event) (p : Pass) :
    (report e).run p = (.ok (), { p with events := p.events.push e }) := rfl

theorem run_nameFor (key : String) (category : Category) (p : Pass) :
    ∃ events, (nameFor key category).run p = (.ok (p.names.resolve key category).1,
      { p with names := (p.names.resolve key category).2, events }) := by
  by_cases h : (p.names.find? key category).isSome
  · exact ⟨p.events, by simp [nameFor, run_bind, h]⟩
  · exact ⟨_, by simp [nameFor, run_bind, h]; rfl⟩

end Render

end BlockCode
