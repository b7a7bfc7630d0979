import BlockCode.Proofs.Names

namespace BlockCode.Names

def taken (t : Names) : Finset String := t.used.toFinset ∪ t.reserved.toFinset

theorem mem_taken {t : Names} {name : String} : name ∈ t.taken ↔ t.isTaken name = true := by
  simp [taken, isTaken_iff]

theorem not_mem_taken {t : Names} {name : String} : name ∉ t.taken ↔ t.isTaken name = false := by
  rw [mem_taken, Bool.not_eq_true]

theorem free_of_not_taken {t : Names} {base : String} (h : base ∉ t.taken) : t.free base = base :=
  if_neg (Bool.eq_false_iff.1 (not_mem_taken.1 h))

def candidate (base : String) : Nat → String
  | 0 => base
  | i + 1 => base ++ toString (i + 2)

theorem numbered_ne (base : String) (k : Nat) : base ++ toString k ≠ base := by
  simp

theorem candidate_injective (base : String) : Function.Injective (candidate base) := by
  intro i j h
  cases i with
  | zero =>
    cases j with
    | zero => rfl
    | succ j => exact absurd h.symm (numbered_ne base (j + 2))
  | succ i =>
    cases j with
    | zero => exact absurd h (numbered_ne base (i + 2))
    | succ j =>
      have := numbered_injective base h
      omega

theorem free_eq_candidate (t : Names) (base : String) : ∃ i, t.free base = candidate base i ∧
    ∀ j < i, t.isTaken (candidate base j) = true := by
  by_cases hbase : base ∈ t.taken
  · have hbase := mem_taken.1 hbase
    obtain ⟨i, -, heq, hbefore, -⟩ := t.freeFrom_spec base (t.used.length + t.reserved.length) 2
    refine ⟨i + 1, ?_, fun j hj => ?_⟩
    · rw [free, if_pos hbase, heq, Nat.add_comm 2 i]
      rfl
    · cases j with
      | zero => exact hbase
      | succ j =>
        have htaken := hbefore j (by omega)
        rwa [Nat.add_comm 2 j] at htaken
  · exact ⟨0, free_of_not_taken hbase, by simp⟩

theorem le_card_taken {t : Names} {base : String} {i : Nat}
    (h : ∀ j < i, t.isTaken (candidate base j) = true) : i ≤ t.taken.card := by
  -- The first candidates are as many different taken names.
  have hsub : (Finset.range i).image (candidate base) ⊆ t.taken := by
    intro name hname
    obtain ⟨j, hj, rfl⟩ := Finset.mem_image.1 hname
    exact mem_taken.2 (h j (Finset.mem_range.1 hj))
  calc i = ((Finset.range i).image (candidate base)).card := by
        rw [Finset.card_image_of_injective _ (candidate_injective base), Finset.card_range]
    _ ≤ t.taken.card := Finset.card_le_card hsub

structure Search where
  name : String
  next : Nat

namespace Search

def step? (t : Names) (base : String) (s : Search) : Option Search :=
  if t.isTaken s.name then some ⟨base ++ toString s.next, s.next + 1⟩ else none

inductive Ends (t : Names) (base : String) : Search → Nat → String → Prop
  | free {s : Search} : s.step? t base = none → Ends t base s 1 s.name
  | taken {s s' : Search} {n : Nat} {name : String} :
    s.step? t base = some s' → Ends t base s' n name → Ends t base s (n + 1) name

theorem Ends.unique {t : Names} {base : String} {s : Search} {n m : Nat} {name name' : String}
    (h : Ends t base s n name) (h' : Ends t base s m name') : n = m ∧ name = name' := by
  induction h generalizing m name' with
  | free hstep =>
    cases h' with
    | free => exact ⟨rfl, rfl⟩
    | taken hstep' => simp [hstep] at hstep'
  | taken hstep _ ih =>
    cases h' with
    | free hstep' => simp [hstep] at hstep'
    | taken hstep' h' =>
      obtain rfl := Option.some.inj (hstep.symm.trans hstep')
      obtain ⟨rfl, rfl⟩ := ih h'
      exact ⟨rfl, rfl⟩

theorem ends_of_taken {t : Names} {base : String} {i j : Nat}
    (htaken : ∀ k < i, t.isTaken (candidate base (j + k)) = true)
    (hfree : t.isTaken (candidate base (j + i)) = false) :
    Ends t base ⟨candidate base j, j + 2⟩ (i + 1) (candidate base (j + i)) := by
  -- Over the candidates that are still in the way; the number to come goes up with each.
  induction i generalizing j with
  | zero =>
    apply Ends.free
    simpa [step?] using hfree
  | succ i ih =>
    have hstep : step? t base ⟨candidate base j, j + 2⟩ = some ⟨candidate base (j + 1), j + 3⟩ :=
      if_pos (htaken 0 (by omega))
    have hshift : ∀ k, j + (k + 1) = j + 1 + k := fun k => Nat.add_right_comm j k 1
    rw [hshift i] at hfree ⊢
    apply Ends.taken hstep
    apply ih
    · intro k hk
      rw [← hshift k]
      exact htaken (k + 1) (by omega)
    · exact hfree

end Search

theorem isLeast_free {t : Names} {base : String} (h : base ∈ t.taken) :
    ∃ k, IsLeast {k | 2 ≤ k ∧ base ++ toString k ∉ t.taken} k ∧
      t.free base = base ++ toString k := by
  obtain ⟨i, heq, htaken⟩ := t.free_eq_candidate base
  have hfree : candidate base i ∉ t.taken := heq ▸ not_mem_taken.2 (t.isTaken_free base)
  cases i with
  | zero => exact absurd h hfree
  | succ i =>
    refine ⟨i + 2, ⟨⟨by omega, hfree⟩, ?_⟩, heq⟩
    rintro k ⟨hk, hunused⟩
    -- A lesser number belongs to an earlier candidate, and those are taken.
    by_contra hlt
    obtain ⟨j, rfl⟩ := Nat.exists_eq_add_of_le' hk
    exact hunused (mem_taken.2 (htaken (j + 1) (by omega)))

theorem ends_free (t : Names) (base : String) :
    ∃ n ≤ t.taken.card + 1, Search.Ends t base ⟨base, 2⟩ n (t.free base) := by
  obtain ⟨i, heq, htaken⟩ := t.free_eq_candidate base
  have hfree : t.isTaken (candidate base i) = false := heq ▸ t.isTaken_free base
  refine ⟨i + 1, Nat.succ_le_succ (le_card_taken htaken), ?_⟩
  have hends := Search.ends_of_taken (j := 0) (by simpa using htaken) (by simpa using hfree)
  rwa [Nat.zero_add i, ← heq] at hends

/--
The search ends after at most one test more than there are taken names, and in one way. It finds the
base if that is free, and else the base with the least number from two on that makes it free. The
names in use are then those before and this one, which is new.
-/
theorem free_is_first (t : Names) (base : String) :
    (∃ n ≤ t.taken.card + 1, ∀ m name,
      Search.Ends t base ⟨base, 2⟩ m name ↔ m = n ∧ name = t.free base) ∧
    (base ∉ t.taken → t.free base = base) ∧
    (base ∈ t.taken → ∃ k, IsLeast {k | 2 ≤ k ∧ base ++ toString k ∉ t.taken} k ∧
      t.free base = base ++ toString k) ∧
    t.free base ∉ t.used ∧
    (t.use (t.free base)).used.toFinset = insert (t.free base) t.used.toFinset := by
  obtain ⟨n, hn, hends⟩ := t.ends_free base
  refine ⟨⟨n, hn, fun m name => ⟨fun h => h.unique hends, ?_⟩⟩, free_of_not_taken, isLeast_free,
    t.free_not_mem_used base, List.toFinset_cons⟩
  rintro ⟨rfl, rfl⟩
  exact hends

theorem free_is_first_numbered :
    let t : Names := { reserved := ["x2"], used := ["x3", "x"] }
    "x" ∈ t.taken ∧ t.taken.card = 3 ∧
    (∀ m name, Search.Ends t "x" ⟨"x", 2⟩ m name ↔ m = 4 ∧ name = "x4") ∧
    IsLeast {k | 2 ≤ k ∧ "x" ++ toString k ∉ t.taken} 4 ∧
    "y" ∉ t.taken ∧ t.free "y" = "y" := by
  intro t
  have htaken : "x" ∈ t.taken := by decide
  have hunused : "y" ∉ t.taken := by decide
  have hfree : t.free "x" = "x4" := by decide
  obtain ⟨⟨n, -, hends⟩, -, hnumbered, -⟩ := t.free_is_first "x"
  obtain ⟨-, hbase, -⟩ := t.free_is_first "y"
  obtain ⟨k, hleast, hk⟩ := hnumbered htaken
  obtain rfl : k = 4 := numbered_injective "x" (hk.symm.trans hfree)
  obtain ⟨rfl, -⟩ := (hends 4 "x4").1 (.taken rfl (.taken rfl (.taken rfl (.free rfl))))
  rw [hfree] at hends
  exact ⟨htaken, by decide, hends, hleast, hunused, hbase hunused⟩

end BlockCode.Names
