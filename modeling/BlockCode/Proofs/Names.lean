import BlockCode.Proofs.Identifiers

namespace BlockCode.Names

theorem isTaken_iff (t : Names) (name : String) :
    t.isTaken name = true ↔ name ∈ t.used ∨ name ∈ t.reserved := by
  simp [isTaken]

theorem numbered_injective (base : String) {i j : Nat}
    (h : base ++ toString i = base ++ toString j) : i = j := by
  have hdigits : Nat.toDigits 10 i = Nat.toDigits 10 j := by
    simpa [String.ext_iff] using h
  rw [← Nat.ofDigitChars_ten_toDigits (n := i), hdigits, Nat.ofDigitChars_ten_toDigits]

theorem freeFrom_spec (t : Names) (base : String) (n k : Nat) :
    ∃ i, i ≤ n ∧ t.freeFrom base n k = base ++ toString (k + i) ∧
      (∀ j, j < i → t.isTaken (base ++ toString (k + j)) = true) ∧
      (i < n → t.isTaken (base ++ toString (k + i)) = false) := by
  induction n generalizing k with
  | zero => exact ⟨0, le_refl 0, rfl, by simp, by simp⟩
  | succ n ih =>
    by_cases h : t.isTaken (base ++ toString k) = true
    · obtain ⟨i, hi, heq, hbefore, hfree⟩ := ih (k + 1)
      refine ⟨i + 1, by omega, ?_, ?_, ?_⟩
      · rw [freeFrom, if_pos h, heq, Nat.add_right_comm, Nat.add_assoc]
      · intro j hj
        cases j with
        | zero => exact h
        | succ j =>
          have := hbefore j (by omega)
          rwa [Nat.add_right_comm] at this
      · intro hlt
        have := hfree (by omega)
        rwa [Nat.add_right_comm] at this
    · refine ⟨0, by omega, ?_, by simp, fun _ => ?_⟩
      · rw [freeFrom, if_neg h, Nat.add_zero]
      · exact Bool.eq_false_iff.2 h

theorem not_all_taken (t : Names) (base : String) (k : Nat) :
    ¬ ∀ j, j < t.used.length + t.reserved.length + 1 →
      t.isTaken (base ++ toString (k + j)) = true := by
  intro h
  -- The candidates are all different, and there is one more of them than there are taken names.
  let candidates := (List.range (t.used.length + t.reserved.length + 1)).map
    fun j => base ++ toString (k + j)
  have hnodup : candidates.Nodup := by
    apply List.Nodup.map _ List.nodup_range
    intro i j hij
    have := numbered_injective base hij
    omega
  have hsub : candidates ⊆ t.used ++ t.reserved := by
    intro name hname
    obtain ⟨j, hj, rfl⟩ := List.mem_map.1 hname
    rw [List.mem_append, ← isTaken_iff]
    exact h j (List.mem_range.1 hj)
  have hle := (hnodup.subperm hsub).length_le
  simp only [candidates, List.length_map, List.length_range, List.length_append] at hle
  omega

theorem isTaken_free (t : Names) (base : String) : t.isTaken (t.free base) = false := by
  unfold free
  split
  · obtain ⟨i, hi, heq, hbefore, hfree⟩ :=
      t.freeFrom_spec base (t.used.length + t.reserved.length) 2
    rw [heq]
    rcases Nat.lt_or_eq_of_le hi with hlt | rfl
    · exact hfree hlt
    -- The steps are used up, so that all candidates before the last one are taken.
    · by_contra htaken
      apply t.not_all_taken base 2
      intro j hj
      rcases Nat.lt_succ_iff_lt_or_eq.1 hj with hj | rfl
      · exact hbefore j hj
      · simpa only [Bool.not_eq_false] using htaken
  · exact Bool.eq_false_iff.2 ‹_›

theorem free_not_mem_used (t : Names) (base : String) : t.free base ∉ t.used := by
  intro h
  have := (t.isTaken_iff _).2 (.inl h)
  simp [isTaken_free] at this

theorem free_not_mem_reserved (t : Names) (base : String) : t.free base ∉ t.reserved := by
  intro h
  have := (t.isTaken_iff _).2 (.inr h)
  simp [isTaken_free] at this

inductive Call where
  | setHint (key hint : String)
  | resolve (key : String) (category : Category)
  | distinct (hint : String) (category : Category)
  | reset
  deriving DecidableEq

def Call.owner? : Call → Option (Category × String)
  | .resolve key category => some (category, key)
  | _ => none

def Call.isDistinct : Call → Bool
  | .distinct _ _ => true
  | _ => false

def call (t : Names) : Call → Option String × Names
  | .setHint key hint => (none, t.setHint key hint)
  | .resolve key category => ((t.resolve key category).1, (t.resolve key category).2)
  | .distinct hint category => ((t.distinct hint category).1, (t.distinct hint category).2)
  | .reset => (none, t.reset)

def after (t : Names) : List Call → Names
  | [] => t
  | c :: cs => (t.call c).2.after cs

def answers (t : Names) : List Call → List (Call × String)
  | [] => []
  | c :: cs =>
    match (t.call c).1 with
    | some name => (c, name) :: (t.call c).2.answers cs
    | none => (t.call c).2.answers cs

structure Sound (t : Names) : Prop where
  used_nodup : t.used.Nodup
  used_unreserved : ∀ name ∈ t.used, name ∉ t.reserved
  used_identifier : ∀ name ∈ t.used, IsIdentifier name
  assigned_used : ∀ e ∈ t.assigned, e.2 ∈ t.used
  keys_nodup : (t.assigned.map Prod.fst).Nodup
  names_nodup : (t.assigned.map Prod.snd).Nodup

theorem Sound.start (reserved : List String) : Sound { reserved } := by
  constructor <;> simp

def assign (t : Names) (key : String) (category : Category) : Names :=
  let name := t.free (t.base key category)
  { t.use name with assigned := ((category, key), name) :: t.assigned }

theorem resolve_of_find {t : Names} {key : String} {category : Category} {name : String}
    (h : t.find? key category = some name) : t.resolve key category = (name, t) := by
  simp [resolve, h]

theorem resolve_of_not_find {t : Names} {key : String} {category : Category}
    (h : t.find? key category = none) :
    t.resolve key category = (t.free (t.base key category), t.assign key category) := by
  simp [resolve, assign, h]

theorem find?_eq_none {t : Names} {key : String} {category : Category}
    (h : t.find? key category = none) : (category, key) ∉ t.assigned.map Prod.fst := by
  intro hmem
  obtain ⟨e, he, hkey⟩ := List.mem_map.1 hmem
  have := List.lookup_eq_none_iff.1 h e he
  simp [hkey] at this

theorem Sound.use {t : Names} (h : t.Sound) {base : String} (hbase : IsIdentifier base) :
    (t.use (t.free base)).Sound where
  used_nodup := List.nodup_cons.2 ⟨t.free_not_mem_used base, h.used_nodup⟩
  used_unreserved := by
    intro name hname
    rcases List.mem_cons.1 hname with rfl | hname
    · exact t.free_not_mem_reserved base
    · exact h.used_unreserved name hname
  used_identifier := by
    intro name hname
    rcases List.mem_cons.1 hname with rfl | hname
    · exact t.isIdentifier_free hbase
    · exact h.used_identifier name hname
  assigned_used := fun e he => List.mem_cons_of_mem _ (h.assigned_used e he)
  keys_nodup := h.keys_nodup
  names_nodup := h.names_nodup

theorem Sound.assign {t : Names} (h : t.Sound) {key : String} {category : Category}
    (hnew : t.find? key category = none) : (t.assign key category).Sound := by
  have hused := h.use (t.isIdentifier_base key category)
  refine { hused with assigned_used := ?_, keys_nodup := ?_, names_nodup := ?_ }
  · intro e he
    rcases List.mem_cons.1 he with rfl | he
    · exact List.mem_cons_self
    · exact hused.assigned_used e he
  · exact List.nodup_cons.2 ⟨find?_eq_none hnew, h.keys_nodup⟩
  · refine List.nodup_cons.2 ⟨?_, h.names_nodup⟩
    intro hmem
    obtain ⟨e, he, heq⟩ := List.mem_map.1 hmem
    exact t.free_not_mem_used _ (heq ▸ h.assigned_used e he)

theorem Sound.call {t : Names} (h : t.Sound) (c : Call) : (t.call c).2.Sound := by
  cases c with
  | setHint key hint => exact { h with }
  | resolve key category =>
    cases hfind : t.find? key category with
    | some name => simpa [Names.call, resolve_of_find hfind] using h
    | none => simpa [Names.call, resolve_of_not_find hfind] using h.assign hfind
  | distinct hint category => exact h.use (isIdentifier_safeName hint category)
  | reset => constructor <;> simp [Names.call, Names.reset]

theorem Sound.after {t : Names} (h : t.Sound) (calls : List Call) : (t.after calls).Sound := by
  induction calls generalizing t with
  | nil => exact h
  | cons c cs ih => exact ih (h.call c)

/-- An identifier is in use, and it is the one of `owner` and of no other key. -/
def Held (t : Names) (owner : Option (Category × String)) (name : String) : Prop :=
  name ∈ t.used ∧ ∀ category key, t.find? key category = some name ↔ owner = some (category, key)

theorem find?_mem {t : Names} {key : String} {category : Category} {name : String}
    (h : t.find? key category = some name) : ((category, key), name) ∈ t.assigned := by
  obtain ⟨before, after, heq, -⟩ := List.lookup_eq_some_iff.1 h
  simp [heq]

theorem Sound.find?_injective {t : Names} (h : t.Sound) {key key' : String}
    {category category' : Category} {name : String} (hfind : t.find? key category = some name)
    (hfind' : t.find? key' category' = some name) : (category, key) = (category', key') := by
  have := List.inj_on_of_nodup_map h.names_nodup (find?_mem hfind) (find?_mem hfind') rfl
  exact congrArg Prod.fst this

theorem Sound.held_of_find {t : Names} (h : t.Sound) {key : String} {category : Category}
    {name : String} (hfind : t.find? key category = some name) :
    t.Held (some (category, key)) name := by
  refine ⟨h.assigned_used _ (find?_mem hfind), fun category' key' => ⟨fun hfind' => ?_, ?_⟩⟩
  · rw [h.find?_injective hfind hfind']
  · rintro ⟨⟩
    exact hfind

theorem find?_assign_self (t : Names) (key : String) (category : Category) :
    (t.assign key category).find? key category = some (t.free (t.base key category)) := by
  simp [find?, assign]

theorem find?_assign_of_ne {t : Names} {key key' : String} {category category' : Category}
    (h : (category', key') ≠ (category, key)) :
    (t.assign key category).find? key' category' = t.find? key' category' := by
  simp [find?, assign, use, List.lookup_cons, beq_false_of_ne h]

theorem held_of_call {t : Names} (h : t.Sound) {c : Call} {name : String}
    (hc : (t.call c).1 = some name) : (t.call c).2.Held c.owner? name := by
  cases c with
  | setHint key hint => simp [call] at hc
  | resolve key category =>
    have hs := h.call (.resolve key category)
    cases hfind : t.find? key category with
    | some known =>
      simp only [call, resolve_of_find hfind, Option.some.injEq] at hc hs ⊢
      subst hc
      exact hs.held_of_find hfind
    | none =>
      simp only [call, resolve_of_not_find hfind, Option.some.injEq] at hc hs ⊢
      subst hc
      exact hs.held_of_find (t.find?_assign_self key category)
  | distinct hint category =>
    simp only [call, distinct, Option.some.injEq] at hc ⊢
    subst hc
    refine ⟨List.mem_cons_self, fun category' key' => ⟨fun hfind => ?_, by simp [Call.owner?]⟩⟩
    exact absurd (h.assigned_used _ (find?_mem hfind)) (t.free_not_mem_used _)
  | reset => simp [call] at hc

theorem Held.call {t : Names} {owner : Option (Category × String)} {name : String}
    (h : t.Held owner name) {c : Call} (hc : c ≠ .reset) : (t.call c).2.Held owner name := by
  cases c with
  | setHint key hint => exact h
  | resolve key category =>
    cases hfind : t.find? key category with
    | some known => simpa [Names.call, resolve_of_find hfind] using h
    | none =>
      simp only [Names.call, resolve_of_not_find hfind]
      refine ⟨List.mem_cons_of_mem _ h.1, fun category' key' => ?_⟩
      by_cases heq : (category', key') = (category, key)
      · obtain ⟨rfl, rfl⟩ := Prod.mk.inj heq
        rw [find?_assign_self, ← h.2, hfind]
        -- What the key gets is new, and so it is not the identifier that is held.
        have hne : t.free (t.base key' category') ≠ name :=
          fun he => t.free_not_mem_used _ (he ▸ h.1)
        simp [hne]
      · rw [find?_assign_of_ne heq, h.2]
  | distinct hint category => exact ⟨List.mem_cons_of_mem _ h.1, h.2⟩
  | reset => exact absurd rfl hc

theorem answer_cases {t : Names} {c : Call} {name : String} (hc : (t.call c).1 = some name) :
    (∃ category key, c.owner? = some (category, key) ∧ t.find? key category = some name) ∨
    (name ∉ t.used ∧ name ∉ t.reserved ∧
      ∀ category key, c.owner? = some (category, key) → t.find? key category = none) := by
  cases c with
  | setHint key hint => simp [call] at hc
  | resolve key category =>
    cases hfind : t.find? key category with
    | some known =>
      simp only [call, resolve_of_find hfind, Option.some.injEq] at hc
      exact .inl ⟨category, key, rfl, hc ▸ hfind⟩
    | none =>
      simp only [call, resolve_of_not_find hfind, Option.some.injEq] at hc
      refine .inr ⟨hc ▸ t.free_not_mem_used _, hc ▸ t.free_not_mem_reserved _, ?_⟩
      rintro category' key' ⟨⟩
      exact hfind
  | distinct hint category =>
    simp only [call, distinct, Option.some.injEq] at hc
    refine .inr ⟨hc ▸ t.free_not_mem_used _, hc ▸ t.free_not_mem_reserved _, ?_⟩
    simp [Call.owner?]
  | reset => simp [call] at hc

theorem Held.eq_answer_iff {t : Names} {owner : Option (Category × String)} {held name : String}
    (h : t.Held owner held) {c : Call} (hc : (t.call c).1 = some name) :
    held = name ↔ ∃ k, owner = some k ∧ c.owner? = some k := by
  rcases answer_cases hc with ⟨category, key, howner, hfind⟩ | ⟨hunused, -, hnone⟩
  · constructor
    · rintro rfl
      exact ⟨_, (h.2 category key).1 hfind, howner⟩
    · rintro ⟨k, hk, hk'⟩
      obtain rfl : k = (category, key) := Option.some.inj (hk'.symm.trans howner)
      exact Option.some.inj (((h.2 category key).2 hk).symm.trans hfind)
  · constructor
    · rintro rfl
      exact absurd h.1 hunused
    · rintro ⟨⟨category, key⟩, hk, hk'⟩
      have hfind := hnone category key hk'
      rw [(h.2 category key).2 hk] at hfind
      cases hfind

@[simp] theorem call_reserved (t : Names) (c : Call) : (t.call c).2.reserved = t.reserved := by
  cases c with
  | setHint key hint => rfl
  | resolve key category =>
    simp only [call, resolve]
    split <;> rfl
  | distinct hint category => rfl
  | reset => rfl

@[simp] theorem after_reserved (t : Names) (calls : List Call) :
    (t.after calls).reserved = t.reserved := by
  induction calls generalizing t with
  | nil => rfl
  | cons c cs ih => simp [after, ih]

theorem answers_unreserved {t : Names} (h : t.Sound) (calls : List Call) :
    ∀ a ∈ t.answers calls, a.2 ∉ t.reserved := by
  induction calls generalizing t with
  | nil => simp [answers]
  | cons c cs ih =>
    have hrest := ih (h.call c)
    simp only [call_reserved] at hrest
    simp only [answers]
    split
    · rename_i name hc
      intro a ha
      rcases List.mem_cons.1 ha with rfl | ha
      · have hheld := held_of_call h hc
        simpa using (h.call c).used_unreserved name hheld.1
      · exact hrest a ha
    · exact hrest

theorem Held.answers {t : Names} {owner : Option (Category × String)} {held : String}
    (h : t.Held owner held) {calls : List Call} (hcalls : .reset ∉ calls) :
    ∀ a ∈ t.answers calls, held = a.2 ↔ ∃ k, owner = some k ∧ a.1.owner? = some k := by
  induction calls generalizing t with
  | nil => simp [Names.answers]
  | cons c cs ih =>
    have hc : c ≠ .reset := fun he => hcalls (he ▸ List.mem_cons_self)
    have hrest := ih (h.call hc) fun hmem => hcalls (List.mem_cons_of_mem _ hmem)
    simp only [Names.answers]
    split
    · rename_i name hname
      intro a ha
      rcases List.mem_cons.1 ha with rfl | ha
      · exact h.eq_answer_iff hname
      · exact hrest a ha
    · exact hrest

theorem answers_pairwise {t : Names} (h : t.Sound) {calls : List Call} (hcalls : .reset ∉ calls) :
    (t.answers calls).Pairwise fun a b =>
      a.2 = b.2 ↔ ∃ k, a.1.owner? = some k ∧ b.1.owner? = some k := by
  induction calls generalizing t with
  | nil => simp [answers]
  | cons c cs ih =>
    have hcs : .reset ∉ cs := fun hmem => hcalls (List.mem_cons_of_mem _ hmem)
    simp only [answers]
    split
    · rename_i name hname
      exact List.pairwise_cons.2 ⟨(held_of_call h hname).answers hcs, ih (h.call c) hcs⟩
    · exact ih (h.call c) hcs

def Call.asks : Call → Bool
  | .resolve _ _ => true
  | .distinct _ _ => true
  | _ => false

theorem answers_fst (t : Names) (calls : List Call) :
    (t.answers calls).map Prod.fst = calls.filter Call.asks := by
  induction calls generalizing t with
  | nil => rfl
  | cons c cs ih => cases c <;> simp [answers, call, Call.asks, List.filter_cons, ih]

def keys (t : Names) : Finset (Category × String) := (t.assigned.map Prod.fst).toFinset

theorem Sound.card_keys {t : Names} (h : t.Sound) : t.keys.card = t.assigned.length := by
  rw [keys, List.toFinset_card_of_nodup h.keys_nodup, List.length_map]

theorem call_keys (t : Names) {c : Call} (hc : c ≠ .reset) :
    (t.call c).2.keys = t.keys ∪ c.owner?.toFinset := by
  cases c with
  | setHint key hint => simp [call, keys, setHint, Call.owner?]
  | resolve key category =>
    cases hfind : t.find? key category with
    | some name =>
      have hmem : (category, key) ∈ t.keys := by
        simpa [keys] using ⟨name, find?_mem hfind⟩
      simp [call, resolve_of_find hfind, Call.owner?, hmem]
    | none =>
      simp only [call, resolve_of_not_find hfind]
      ext k
      simp [keys, assign, Call.owner?, eq_comm]
  | distinct hint category => simp [call, distinct, keys, use, Call.owner?]
  | reset => exact absurd rfl hc

theorem call_count (t : Names) {c : Call} (hc : c ≠ .reset) :
    (t.call c).2.count + t.assigned.length =
      t.count + (t.call c).2.assigned.length + if c.isDistinct then 1 else 0 := by
  cases c with
  | setHint key hint => simp [call, setHint, count, Call.isDistinct]
  | resolve key category =>
    cases hfind : t.find? key category with
    | some name => simp [call, resolve_of_find hfind, Call.isDistinct]
    | none =>
      simp [call, resolve_of_not_find hfind, assign, use, count, Call.isDistinct]
      omega
  | distinct hint category =>
    simp [call, distinct, use, count, Call.isDistinct]
    omega
  | reset => exact absurd rfl hc

theorem after_keys (t : Names) {calls : List Call} (hcalls : .reset ∉ calls) :
    (t.after calls).keys = t.keys ∪ (calls.filterMap Call.owner?).toFinset := by
  induction calls generalizing t with
  | nil => simp [after]
  | cons c cs ih =>
    obtain ⟨hc, hcs⟩ := List.ne_and_not_mem_of_not_mem_cons hcalls
    rw [after, ih _ hcs, t.call_keys hc.symm, Finset.union_assoc]
    congr 1
    cases h : c.owner? <;> simp [h]

theorem after_count (t : Names) {calls : List Call} (hcalls : .reset ∉ calls) :
    (t.after calls).count + t.assigned.length =
      t.count + (t.after calls).assigned.length + calls.countP Call.isDistinct := by
  induction calls generalizing t with
  | nil => simp [after]
  | cons c cs ih =>
    obtain ⟨hc, hcs⟩ := List.ne_and_not_mem_of_not_mem_cons hcalls
    have hstep := t.call_count hc.symm
    have hrest := ih (t.call c).2 hcs
    rw [after, List.countP_cons]
    omega

theorem after_append (t : Names) (before calls : List Call) :
    t.after (before ++ calls) = (t.after before).after calls := by
  induction before generalizing t with
  | nil => rfl
  | cons c cs ih => exact ih _

theorem after_unused (reserved : List String) {earlier : List Call}
    (h : earlier = [] ∨ earlier.getLast? = some .reset) :
    (({ reserved } : Names).after earlier).count = 0 ∧
      (({ reserved } : Names).after earlier).assigned = [] := by
  rcases h with rfl | h
  · exact ⟨rfl, rfl⟩
  · obtain ⟨before, rfl⟩ := List.getLast?_eq_some_iff.1 h
    rw [after_append]
    exact ⟨rfl, rfl⟩

/--
The identifiers that a table gives out between two resets, after any calls before. Two of them are
equal just if both are given to one key, none is reserved, and the table counts them all.
-/
theorem identifiers_of_run (reserved : List String) (earlier calls : List Call)
    (hcalls : .reset ∉ calls) :
    let start := ({ reserved } : Names).after earlier
    (start.answers calls).map Prod.fst = calls.filter Call.asks ∧
    ((start.answers calls).Pairwise fun a b =>
      a.2 = b.2 ↔ ∃ k, a.1.owner? = some k ∧ b.1.owner? = some k) ∧
    (∀ a ∈ start.answers calls, a.2 ∉ reserved) ∧
    (earlier = [] ∨ earlier.getLast? = some .reset →
      (start.after calls).count =
        (calls.filterMap Call.owner?).toFinset.card + calls.countP Call.isDistinct) := by
  intro start
  have hstart : start.Sound := (Sound.start reserved).after earlier
  refine ⟨start.answers_fst calls, answers_pairwise hstart hcalls, ?_, fun hreset => ?_⟩
  · have hreserved : start.reserved = reserved := after_reserved _ earlier
    intro a ha
    exact hreserved ▸ answers_unreserved hstart calls a ha
  · obtain ⟨hused, hassigned⟩ : start.count = 0 ∧ start.assigned = [] :=
      after_unused reserved hreset
    have hkeys : (start.after calls).keys = (calls.filterMap Call.owner?).toFinset := by
      rw [start.after_keys hcalls, keys, hassigned, List.map_nil, List.toFinset_nil,
        Finset.empty_union]
    have hlength := start.after_count hcalls
    rw [hused, hassigned, List.length_nil] at hlength
    rw [← hkeys, (hstart.after calls).card_keys]
    omega

theorem identifiers_of_run_reserved_hint :
    let earlier : List Call := [.distinct "loop" .variable, .reset]
    let calls : List Call := [.setHint "v" "loop", .resolve "v" .variable, .setHint "v" "x",
      .distinct "loop2" .variable, .resolve "v" .variable, .resolve "v" .procedure]
    let start := ({ reserved := ["loop"] } : Names).after earlier
    Call.reset ∉ calls ∧ earlier.getLast? = some .reset ∧ (start.after calls).count = 3 ∧
    ((start.answers calls).Pairwise fun a b =>
      a.2 = b.2 ↔ ∃ k, a.1.owner? = some k ∧ b.1.owner? = some k) := by
  intro earlier calls start
  have hcalls : Call.reset ∉ calls := by decide
  have hlast : earlier.getLast? = some .reset := rfl
  obtain ⟨-, hpairwise, -, hcount⟩ := identifiers_of_run ["loop"] earlier calls hcalls
  exact ⟨hcalls, hlast, (hcount (.inr hlast)).trans (by decide), hpairwise⟩

end BlockCode.Names
