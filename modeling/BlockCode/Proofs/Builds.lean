import BlockCode.Proofs.Loading
import BlockCode.Proofs.Trimming

/-!
Two documents that are read in step. The blocks they describe declare the same, but for inputs of
choices that nothing is connected to, and they may come to it in another order: a shape may be
declared before the inputs or after them. The workspaces in the end give the same code.
-/

namespace BlockCode

structure Block.Sorted (b : Block) : Prop where
  values : b.values.Sorted
  statements : b.statements.Sorted

namespace Block

theorem Sorted.distinct {b : Block} (h : b.Sorted) : b.Distinct :=
  ⟨h.values.nodup, h.statements.nodup⟩

theorem toHead_connect (b : Block) (link : Option Nat) (k : Connection) :
    (b.connect link k).toHead = b.toHead := by
  cases k <;> rfl

theorem Sorted.connect {b : Block} (h : b.Sorted) (link : Option Nat) (k : Connection) :
    (b.connect link k).Sorted := by
  cases k with
  | value name => exact ⟨h.values.insert name link, h.statements⟩
  | statement name => exact ⟨h.values, h.statements.insert name link⟩
  | next => exact ⟨h.values, h.statements⟩

theorem trim_eq {b b' : Block} (hb : b.Sorted) (hb' : b'.Sorted) (hhead : b.toHead = b'.toHead)
    (h : ∀ k, (b.declared? k).filter b.keeps = (b'.declared? k).filter b.keeps) :
    b.trim = b'.trim := by
  have hinputs : ∀ {m m' : ByName (Option Nat)}, m.Sorted → m'.Sorted →
      (∀ n, (m.get? n).filter b.keeps = (m'.get? n).filter b.keeps) →
      b.toHead.trimmed m.entries = b.toHead.trimmed m'.entries := by
    intro m m' hm hm' hget
    refine ByName.eq_of_lookup_eq (hm.filter _) (hm'.filter _) fun n => ?_
    rw [Head.lookup_trimmed _ hm.nodup, Head.lookup_trimmed _ hm'.nodup]
    exact hget n
  have hvalues := hinputs hb.values hb'.values fun n => h (.value n)
  have hstatements := hinputs hb.statements hb'.statements fun n => h (.statement n)
  have hnext : b.next = b'.next := by
    have hjoin := congrArg Option.join (h .next)
    rwa [Head.join_filter_keeps, Head.join_filter_keeps] at hjoin
  obtain ⟨head, values, statements, next⟩ := b
  obtain ⟨head', values', statements', next'⟩ := b'
  simp only at hhead hvalues hstatements hnext
  subst hhead hnext
  simp only [trim, hvalues, hstatements]

structure Declaring (f : Block → Block) (extra : Connection → Option (Option Nat)) : Prop where
  head (b : Block) : (f b).toHead = b.toHead
  declared? (b : Block) (k : Connection) : (f b).declared? k = (b.declared? k).or (extra k)
  sorted {b : Block} : b.Sorted → (f b).Sorted

theorem Declaring.comp {f g : Block → Block} {extra extra' : Connection → Option (Option Nat)}
    (hf : Declaring f extra) (hg : Declaring g extra') :
    Declaring (g ∘ f) fun k => (extra k).or (extra' k) where
  head b := (hg.head _).trans (hf.head b)
  declared? b k := by rw [Function.comp, hg.declared?, hf.declared?, Option.or_assoc]
  sorted h := hg.sorted (hf.sorted h)

theorem declaring_id : Declaring id fun _ => none :=
  ⟨fun _ => rfl, fun _ _ => Option.or_none.symm, id⟩

theorem declaring_value (name : String) :
    Declaring (fun b => { b with values := b.values.insertNew name none })
      fun k => if k = .value name then some none else none where
  head _ := rfl
  declared? b k := by cases k <;> simp [Block.declared?, ByName.get?_insertNew]
  sorted h := ⟨h.values.insertNew name none, h.statements⟩

theorem declaring_statement (name : String) :
    Declaring (fun b => { b with statements := b.statements.insertNew name none })
      fun k => if k = .statement name then some none else none where
  head _ := rfl
  declared? b k := by cases k <;> simp [Block.declared?, ByName.get?_insertNew]
  sorted h := ⟨h.values, h.statements.insertNew name none⟩

theorem declaring_shape (elseIfs : Nat) (hasElse : Bool) :
    ∃ extra, Declaring (fun b => b.declareShape elseIfs hasElse) extra := by
  have harms : ∀ ns : List Nat, ∃ extra, Declaring (fun b => ns.foldl declareArm b) extra := by
    intro ns
    induction ns with
    | nil => exact ⟨_, declaring_id⟩
    | cons n ns ih =>
      obtain ⟨extra, hextra⟩ := ih
      have harm :=
        (declaring_value ("IF" ++ toString n)).comp (declaring_statement ("DO" ++ toString n))
      exact ⟨_, harm.comp hextra⟩
  obtain ⟨extra, hextra⟩ := harms (List.range (elseIfs + 1))
  cases hasElse with
  | false => exact ⟨_, hextra⟩
  | true => exact ⟨_, hextra.comp (declaring_statement "ELSE")⟩

end Block

/-- The workspaces differ only in idle inputs. -/
structure Workspace.Alike (w w' : Workspace) : Prop where
  trim : w.trim = w'.trim
  distinct : ∀ b ∈ w.blocks, b.Distinct
  distinct' : ∀ b ∈ w'.blocks, b.Distinct

namespace Workspace.Alike

variable {w w' : Workspace}

theorem empty : Alike {} {} := ⟨rfl, by simp, by simp⟩

theorem size (h : w.Alike w') : w.size = w'.size := by
  rw [← size_trim w, h.trim, size_trim]

theorem add (h : w.Alike w') {b b' : Block} (hb : b.Sorted) (hb' : b'.Sorted)
    (htrim : b.trim = b'.trim) :
    (w.add b).Alike (w'.add b') where
  trim := by
    have hadd : ∀ (w : Workspace) (b : Block), (w.add b).trim = w.trim.add b.trim := by
      simp [Workspace.trim, Workspace.add]
    rw [hadd, hadd, h.trim, htrim]
  distinct c hc := by
    rcases Array.mem_push.1 hc with hc | rfl
    · exact h.distinct c hc
    · exact hb.distinct
  distinct' c hc := by
    rcases Array.mem_push.1 hc with hc | rfl
    · exact h.distinct' c hc
    · exact hb'.distinct

theorem addVariable (h : w.Alike w') (id name : String) :
    (w.addVariable id name).Alike (w'.addVariable id name) where
  trim := by
    have hadd : ∀ w : Workspace, (w.addVariable id name).trim = w.trim.addVariable id name :=
      fun w => apply_ite Workspace.trim _ _ _
    rw [hadd, hadd, h.trim]
  distinct := by simpa using h.distinct
  distinct' := by simpa using h.distinct'

theorem withRoots (h : w.Alike w') (roots : List Nat) :
    Alike { w with roots } { w' with roots } where
  trim := congrArg (fun w : Workspace => { w with roots }) h.trim
  distinct := h.distinct
  distinct' := h.distinct'

theorem generate_eq (h : w.Alike w') {c : Setup} (hc : c.book = .builtin) :
    c.generate w = c.generate w' := by
  rw [← c.generate_trim hc h.distinct, h.trim, c.generate_trim hc h.distinct']

end Workspace.Alike

def Build.Together {α β : Type} (R : α → β → Prop) (x : Build α) (y : Build β) : Prop :=
  ∀ w w', w.Alike w' → ∃ a v b v', x w = .ok (a, v) ∧ y w' = .ok (b, v') ∧ R a b ∧ v.Alike v'

namespace Build.Together

variable {α β γ δ : Type} {R : α → β → Prop} {S : γ → δ → Prop}

theorem pure {a : α} {b : β} (h : R a b) : Together R (pure a) (pure b) :=
  fun w w' hw => ⟨a, w, b, w', rfl, rfl, h, hw⟩

theorem bind {x : Build α} {y : Build β} {f : α → Build γ} {g : β → Build δ} (hx : Together R x y)
    (hf : ∀ a b, R a b → Together S (f a) (g b)) : Together S (x >>= f) (y >>= g) := by
  intro w w' hw
  obtain ⟨a, v, b, v', hxw, hyw, hab, hv⟩ := hx w w' hw
  obtain ⟨c, u, d, u', hfv, hgv, hcd, hu⟩ := hf a b hab v v' hv
  refine ⟨c, u, d, u', ?_, ?_, hcd, hu⟩
  · change (x w).bind _ = _
    rw [hxw]
    exact hfv
  · change (y w').bind _ = _
    rw [hyw]
    exact hgv

theorem within {x : Build α} {y : Build β} (hx : Together R x y) (step step' : DocumentStep) :
    Together R (x.within step) (y.within step') := by
  intro w w' hw
  obtain ⟨a, v, b, v', hxw, hyw, hab, hv⟩ := hx w w' hw
  exact ⟨a, v, b, v', by rw [Build.within, hxw], by rw [Build.within, hyw], hab, hv⟩

end Build.Together

theorem buildParts_append (id : String) (parts more : List (Slot × Option Entry)) (b : Block) :
    buildParts id (parts ++ more) b = buildParts id parts b >>= buildParts id more := by
  induction parts generalizing b with
  | nil => rw [List.nil_append, buildParts, pure_bind]
  | cons part parts ih =>
    obtain ⟨slot, entry⟩ := part
    simp only [List.cons_append, buildParts, ih, bind_assoc]

def Block.shaped (shape : Option (Nat × Bool)) (b : Block) : Block :=
  match shape with
  | none => b
  | some (elseIfs, hasElse) => b.declareShape elseIfs hasElse

theorem Block.declaring_shaped (shape : Option (Nat × Bool)) :
    ∃ extra, Declaring (shaped shape) extra := by
  cases shape with
  | none => exact ⟨_, declaring_id⟩
  | some s => exact declaring_shape s.1 s.2

theorem Block.toHead_shaped (shape : Option (Nat × Bool)) (b : Block) :
    (b.shaped shape).toHead = b.toHead := by
  obtain ⟨extra, hextra⟩ := declaring_shaped shape
  exact hextra.head b

theorem Block.Sorted.shaped {b : Block} (h : b.Sorted) (shape : Option (Nat × Bool)) :
    (b.shaped shape).Sorted := by
  obtain ⟨extra, hextra⟩ := declaring_shaped shape
  exact hextra.sorted h

theorem Block.link?_shaped (shape : Option (Nat × Bool)) (b : Block) (k : Connection) :
    (b.shaped shape).link? k = b.link? k := by
  cases shape with
  | none => rfl
  | some s => exact (b.declareShape_links s.1 s.2).2 k

theorem Block.declared?_shaped_connect (shape : Option (Nat × Bool)) (b : Block) (link : Option Nat)
    (k k' : Connection) :
    ((b.connect link k).shaped shape).declared? k' =
      if k' = k then some link else (b.shaped shape).declared? k' := by
  obtain ⟨extra, hextra⟩ := declaring_shaped shape
  rw [hextra.declared?, hextra.declared?, declared?_connect]
  split
  · exact Option.some_or
  · rfl

def Connection.input? : Connection → Option String
  | .value name | .statement name => some name
  | .next => none

/--
Two blocks in the making. The second one has declared its shape already, and the names for which
`idle` holds are connected in neither of them.
-/
structure Block.InStep (type : String) (shape : Option (Nat × Bool)) (idle : String → Prop)
    (b b' : Block) : Prop where
  type : b.type = type
  head : b.toHead = b'.toHead
  sorted : b.Sorted
  sorted' : b'.Sorted
  declared (k : Connection) :
    ((b.shaped shape).declared? k).filter b.keeps = (b'.declared? k).filter b.keeps
  idle {k : Connection} {name : String} : k.input? = some name → idle name → b'.link? k = none

theorem Head.filter_keeps_of_join {h : Head} (htype : h.type = "logic_ternary")
    {o : Option (Option Nat)} (ho : o.join = none) : o.filter h.keeps = none := by
  obtain _ | _ | i := o
  · rfl
  · simp [Option.filter, keeps, htype]
  · cases ho

namespace Block.InStep

variable {type : String} {shape : Option (Nat × Bool)} {idle : String → Prop} {b b' : Block}

theorem start (shape : Option (Nat × Bool)) (idle : String → Prop) (head : Head) :
    InStep head.type shape idle { toHead := head } (shaped shape { toHead := head }) where
  type := rfl
  head := (toHead_shaped shape _).symm
  sorted := ⟨.nil, .nil⟩
  sorted' := by
    have hempty : Block.Sorted { toHead := head } := ⟨.nil, .nil⟩
    exact hempty.shaped shape
  declared _ := rfl
  idle {k name} _ _ := by
    rw [link?_shaped]
    cases k <;> rfl

theorem setField (h : InStep type shape idle b b') (name : String) (value : Field) :
    InStep type shape idle (b.setField name value) (b'.setField name value) where
  type := h.type
  head := by
    have hhead := congrArg (fun h : Head => { h with fields := h.fields.insert name value }) h.head
    exact hhead
  sorted := ⟨h.sorted.values, h.sorted.statements⟩
  sorted' := ⟨h.sorted'.values, h.sorted'.statements⟩
  declared k := by
    obtain ⟨extra, hextra⟩ := declaring_shaped shape
    have hfield : ∀ b : Block, (b.setField name value).declared? k = b.declared? k := fun b => by
      cases k <;> rfl
    have hdeclared := h.declared k
    rw [hextra.declared?] at hdeclared
    rw [hextra.declared?, hfield, hfield]
    exact hdeclared
  idle {k _} hk hidle := by
    have hlink := h.idle hk hidle
    cases k <;> exact hlink

theorem connect (h : InStep type shape idle b b') {link : Option Nat} {k k' : Connection}
    (hidle : ∀ name, k'.input? = some name → idle name → link = none)
    (hsame : k = k' ∨ link = none ∧ type = "logic_ternary" ∧
      ∃ name, k.input? = some name ∧ k'.input? = some name ∧ idle name) :
    InStep type shape idle (b.connect link k) (b'.connect link k') where
  type := by rw [toHead_connect, h.type]
  head := by rw [toHead_connect, toHead_connect, h.head]
  sorted := h.sorted.connect link k
  sorted' := h.sorted'.connect link k'
  declared j := by
    rw [declared?_shaped_connect, declared?_connect, toHead_connect]
    rcases hsame with rfl | ⟨rfl, htype, name, hk, hk', hname⟩
    · split
      · rfl
      · exact h.declared j
    -- The input is in two places, but it is idle in both, and a choice does not keep idle inputs.
    · have hnone : ∀ j : Connection, j.input? = some name →
          (b'.declared? j).filter b.keeps = none := by
        intro j hj
        exact Head.filter_keeps_of_join (h.type.trans htype) (by rw [← link?_eq, h.idle hj hname])
      have hempty : (some (none : Option Nat)).filter b.keeps = none :=
        Head.filter_keeps_of_join (h.type.trans htype) rfl
      have hdeclared := h.declared j
      by_cases hjk : j = k
      · subst hjk
        rw [if_pos rfl, hempty]
        split
        · exact hempty.symm
        · exact (hnone j hk).symm
      · rw [if_neg hjk, hdeclared]
        split
        · next hjk' =>
          subst hjk'
          rw [hnone j hk', hempty]
        · rfl
  idle {j name} hj hname := by
    rw [link?_eq, declared?_connect]
    split
    · next heq => exact hidle name (heq ▸ hj) hname
    · rw [← link?_eq, h.idle hj hname]

theorem shaped (h : InStep type shape idle b b') : InStep type none idle (b.shaped shape) b' where
  type := by rw [toHead_shaped, h.type]
  head := (toHead_shaped shape b).trans h.head
  sorted := h.sorted.shaped shape
  sorted' := h.sorted'
  declared k := by
    rw [toHead_shaped]
    exact h.declared k
  idle := h.idle

theorem trim_eq (h : InStep type none idle b b') : b.trim = b'.trim :=
  Block.trim_eq h.sorted h.sorted' h.head h.declared

end Block.InStep

end BlockCode
