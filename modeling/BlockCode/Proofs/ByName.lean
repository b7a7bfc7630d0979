import BlockCode.Render.Rulebook
import Mathlib

namespace BlockCode.ByName

variable {α : Type}

theorem lookup_cons_eq (name : String) (a : α) (es : List (String × α)) (n : String) :
    ((name, a) :: es).lookup n = if n = name then some a else es.lookup n := by
  rw [List.lookup_cons]
  by_cases h : n = name
  · simp [h]
  · simp [beq_false_of_ne h, h]

theorem lookup_eq_none {es : List (String × α)} {n : String} (h : n ∉ es.map Prod.fst) :
    es.lookup n = none :=
  List.lookup_eq_none_iff.2 fun e he =>
    bne_iff_ne.2 fun heq : n = e.1 => h (List.mem_map.2 ⟨e, he, heq.symm⟩)

theorem isSome_lookup (es : List (String × α)) (n : String) :
    (es.lookup n).isSome = (es.map Prod.fst).contains n := by
  induction es with
  | nil => rfl
  | cons e es ih =>
    obtain ⟨name, a⟩ := e
    rw [lookup_cons_eq, List.map_cons, List.contains_cons, ← ih]
    by_cases h : n = name <;> simp [h]

theorem lookup_map {β : Type} (f : String → α → β) (es : List (String × α)) (n : String) :
    (es.map fun e => (e.1, f e.1 e.2)).lookup n = (es.lookup n).map (f n) := by
  induction es with
  | nil => rfl
  | cons e es ih =>
    rw [List.map_cons, lookup_cons_eq, ih, ← Prod.mk.eta (p := e), lookup_cons_eq]
    split
    · next hname => rw [hname, Option.map_some]
    · rfl

theorem lookup_insertEntry (name : String) (a : α) (es : List (String × α)) (n : String) :
    (insertEntry name a es).lookup n = if n = name then some a else es.lookup n := by
  induction es with
  | nil => exact lookup_cons_eq name a [] n
  | cons e es ih =>
    obtain ⟨m, b⟩ := e
    rw [insertEntry]
    split
    · exact lookup_cons_eq name a _ n
    · split
      · next heq =>
        subst heq
        simp only [lookup_cons_eq]
        split <;> rfl
      · next hne =>
        simp only [lookup_cons_eq, ih]
        by_cases h : n = m
        · simp [h, Ne.symm hne]
        · simp [h]

@[simp] theorem get?_insert (m : ByName α) (name : String) (a : α) (n : String) :
    (m.insert name a).get? n = if n = name then some a else m.get? n :=
  lookup_insertEntry name a m.entries n

theorem get?_insertNew (m : ByName α) (name : String) (a : α) (n : String) :
    (m.insertNew name a).get? n = (m.get? n).or (if n = name then some a else none) := by
  unfold insertNew
  split
  · next h =>
    obtain ⟨old, hold⟩ := Option.isSome_iff_exists.1 h
    split
    · next heq => rw [heq, hold, Option.some_or]
    · rw [Option.or_none]
  · next h =>
    have hnone : m.get? name = none := by simpa [contains] using h
    rw [get?_insert]
    split
    · next heq => rw [heq, hnone, Option.none_or]
    · rw [Option.or_none]

theorem get?_foldl_insert {es : List (String × α)} (h : (es.map Prod.fst).Nodup) (m : ByName α)
    (n : String) :
    (es.foldl (fun m e => m.insert e.1 e.2) m).get? n = (es.lookup n).or (m.get? n) := by
  induction es generalizing m with
  | nil => rfl
  | cons e es ih =>
    obtain ⟨name, a⟩ := e
    obtain ⟨hnew, hes⟩ := List.nodup_cons.1 h
    rw [List.foldl_cons, ih hes, get?_insert, lookup_cons_eq]
    by_cases hn : n = name
    · simp [hn, lookup_eq_none hnew]
    · simp [hn]

theorem get?_ofList {es : List (String × α)} (h : (es.map Prod.fst).Nodup) (n : String) :
    (ofList es).get? n = es.lookup n := by
  rw [ofList, get?_foldl_insert h]
  exact Option.or_none

/-- The entries stand in the order of their names, one for each name. -/
def Sorted (m : ByName α) : Prop := m.entries.Pairwise fun x y => x.1 < y.1

theorem Sorted.nodup {m : ByName α} (h : m.Sorted) : (m.entries.map Prod.fst).Nodup :=
  List.pairwise_map.2 (h.imp fun hlt => hlt.ne)

theorem mem_insertEntry {name : String} {a : α} {es : List (String × α)} {e : String × α}
    (h : e ∈ insertEntry name a es) : e = (name, a) ∨ e ∈ es := by
  induction es with
  | nil => simpa [insertEntry] using h
  | cons e' es ih =>
    rw [insertEntry] at h
    grind

theorem Sorted.insert {m : ByName α} (h : m.Sorted) (name : String) (a : α) :
    (m.insert name a).Sorted := by
  obtain ⟨es⟩ := m
  simp only [Sorted, ByName.insert] at h ⊢
  induction es with
  | nil => simp [insertEntry]
  | cons e es ih =>
    obtain ⟨n, b⟩ := e
    obtain ⟨hhead, htail⟩ := List.pairwise_cons.1 h
    rw [insertEntry]
    split
    · next hlt =>
      refine List.pairwise_cons.2 ⟨fun e he => ?_, h⟩
      rcases List.mem_cons.1 he with rfl | he
      · exact hlt
      · exact hlt.trans (hhead e he)
    · next hle =>
      split
      · next heq => exact List.pairwise_cons.2 ⟨fun e he => heq ▸ hhead e he, htail⟩
      · next hne =>
        refine List.pairwise_cons.2 ⟨fun e he => ?_, ih htail⟩
        rcases mem_insertEntry he with rfl | he
        · exact lt_of_le_of_ne (not_lt.1 hle) (Ne.symm hne)
        · exact hhead e he

theorem Sorted.insertNew {m : ByName α} (h : m.Sorted) (name : String) (a : α) :
    (m.insertNew name a).Sorted := by
  unfold ByName.insertNew
  split
  · exact h
  · exact h.insert name a

theorem entries_ofList (es : List (String × α)) :
    (ofList es).Sorted ∧ ∀ e ∈ (ofList es).entries, e ∈ es := by
  have hfold : ∀ (es : List (String × α)) (m : ByName α), m.Sorted →
      (es.foldl (fun m e => m.insert e.1 e.2) m).Sorted ∧
      ∀ e ∈ (es.foldl (fun m e => m.insert e.1 e.2) m).entries, e ∈ m.entries ∨ e ∈ es := by
    intro es
    induction es with
    | nil => exact fun m hm => ⟨hm, fun e he => .inl he⟩
    | cons e' es ih =>
      intro m hm
      obtain ⟨hsorted, hmem⟩ := ih (m.insert e'.1 e'.2) (hm.insert e'.1 e'.2)
      refine ⟨hsorted, fun e he => ?_⟩
      rcases hmem e he with he | he
      · rcases mem_insertEntry he with rfl | he
        · exact .inr List.mem_cons_self
        · exact .inl he
      · exact .inr (List.mem_cons_of_mem _ he)
  obtain ⟨hsorted, hmem⟩ := hfold es empty .nil
  refine ⟨hsorted, fun e he => ?_⟩
  rcases hmem e he with he | he
  · cases he
  · exact he

theorem lookup_of_forall_lt {es : List (String × α)} {n : String} (h : ∀ e ∈ es, n < e.1) :
    es.lookup n = none :=
  lookup_eq_none fun hmem => by
    obtain ⟨e, he, rfl⟩ := List.mem_map.1 hmem
    exact lt_irrefl e.1 (h e he)

theorem eq_of_lookup_eq {es es' : List (String × α)} (h : es.Pairwise fun x y => x.1 < y.1)
    (h' : es'.Pairwise fun x y => x.1 < y.1) (heq : ∀ n, es.lookup n = es'.lookup n) :
    es = es' := by
  induction es generalizing es' with
  | nil =>
    cases es' with
    | nil => rfl
    | cons e' es' =>
      obtain ⟨n', a'⟩ := e'
      simpa [lookup_cons_eq] using heq n'
  | cons e es ih =>
    obtain ⟨n, a⟩ := e
    cases es' with
    | nil => simpa [lookup_cons_eq] using heq n
    | cons e' es' =>
      obtain ⟨n', a'⟩ := e'
      obtain ⟨hhead, htail⟩ := List.pairwise_cons.1 h
      obtain ⟨hhead', htail'⟩ := List.pairwise_cons.1 h'
      simp only [lookup_cons_eq] at heq
      -- the lesser of two different first names would be found in one list only
      have hname : n = n' := by
        rcases lt_trichotomy n n' with hlt | hname | hlt
        · have hnone := lookup_of_forall_lt fun e he => hlt.trans (hhead' e he)
          simpa [hlt.ne, hnone] using heq n
        · exact hname
        · have hnone := lookup_of_forall_lt fun e he => hlt.trans (hhead e he)
          simpa [hlt.ne, hnone] using heq n'
      subst hname
      obtain rfl : a = a' := by simpa using heq n
      rw [ih htail htail' fun m => ?_]
      by_cases hm : m = n
      · rw [hm, lookup_of_forall_lt hhead, lookup_of_forall_lt hhead']
      · simpa [hm] using heq m

theorem insertEntry_of_forall_lt {es : List (String × α)} {name : String} {a : α}
    (h : ∀ e ∈ es, e.1 < name) : insertEntry name a es = es ++ [(name, a)] := by
  induction es with
  | nil => rfl
  | cons e es ih =>
    obtain ⟨he, hes⟩ := List.forall_mem_cons.1 h
    rw [insertEntry, if_neg he.asymm, if_neg he.ne', ih hes, List.cons_append]

theorem foldl_insert_of_pairwise {es : List (String × α)} {m : ByName α}
    (h : ((m.entries ++ es).map Prod.fst).Pairwise (· < ·)) :
    es.foldl (fun m e => m.insert e.1 e.2) m = ⟨m.entries ++ es⟩ := by
  induction es generalizing m with
  | nil => rw [List.foldl_nil, List.append_nil]
  | cons e es ih =>
    have hlast : ∀ e' ∈ m.entries, e'.1 < e.1 := by
      rw [List.map_append, List.pairwise_append] at h
      exact fun e' he' => h.2.2 e'.1 (List.mem_map_of_mem he') e.1 (by simp)
    have hinsert : m.insert e.1 e.2 = ⟨m.entries ++ [e]⟩ :=
      congrArg ByName.mk (insertEntry_of_forall_lt hlast)
    rw [List.foldl_cons, hinsert, ih (by simpa using h), List.append_assoc]
    rfl

theorem ofList_of_pairwise {es : List (String × α)} (h : (es.map Prod.fst).Pairwise (· < ·)) :
    ofList es = ⟨es⟩ :=
  foldl_insert_of_pairwise h

end BlockCode.ByName

namespace BlockCode.Rulebook

theorem builtin_rule? (type : String) : builtin.rule? type = builtinRules.lookup type :=
  ByName.get?_ofList (by decide) type

end BlockCode.Rulebook
