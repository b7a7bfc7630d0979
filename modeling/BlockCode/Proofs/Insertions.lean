import BlockCode.Proofs.Companions

namespace BlockCode

namespace Text

theorem splitOn_line {line : List Char} (hline : '\n' ∉ line) (rest : List Char) :
    (line ++ '\n' :: rest).splitOn '\n' = line :: rest.splitOn '\n' := by
  refine List.splitOnP_append_cons_of_forall_mem (fun c hc => ?_) '\n' (by simp) rest
  simpa using ne_of_mem_of_not_mem hc hline

/-- The first text is the second one with lines put in that contain the marker. -/
inductive Inserted (marker : List Char) : List Char → List Char → Prop
  | nil : Inserted marker [] []
  | keep {line a b : List Char} : '\n' ∉ line → Inserted marker a b →
    Inserted marker (line ++ '\n' :: a) (line ++ '\n' :: b)
  | mark {line a b : List Char} : '\n' ∉ line → marker <:+: line → Inserted marker a b →
    Inserted marker (line ++ '\n' :: a) b

namespace Inserted

variable {marker a a' b b' : List Char}

theorem append (ha : Inserted marker a a') (hb : Inserted marker b b') :
    Inserted marker (a ++ b) (a' ++ b') := by
  induction ha with
  | nil => exact hb
  | keep hline _ ih => simpa using keep hline ih
  | mark hline hmarker _ ih => simpa using mark hline hmarker ih

theorem refl_of_terminated {line cs : List Char} (hline : '\n' ∉ line)
    (h : cs.getLast? = some '\n') : Inserted marker (line ++ cs) (line ++ cs) := by
  induction cs generalizing line with
  | nil => cases h
  | cons c cs ih =>
    by_cases hc : c = '\n'
    · subst hc
      refine keep hline ?_
      cases cs with
      | nil => exact nil
      | cons d ds => exact @ih [] List.not_mem_nil (by simpa using h)
    · have hlast : cs.getLast? = some '\n' := by
        cases cs with
        | nil => simp [hc] at h
        | cons d ds => simpa using h
      have hline' : '\n' ∉ line ++ [c] := by simp [hline, Ne.symm hc]
      simpa using ih hline' hlast

theorem markList {mark : List Char} (hmark : '\n' ∉ mark) (h : Inserted marker a b) :
    Inserted marker (markList mark true a) (markList mark true b) := by
  -- A line is indented as a whole, and an empty one not at all.
  have hlines : ∀ {line : List Char}, '\n' ∉ line → ∃ line', '\n' ∉ line' ∧ line <:+: line' ∧
      ∀ rest, Text.markList mark true (line ++ '\n' :: rest) =
        line' ++ '\n' :: Text.markList mark true rest := by
    intro line hline
    cases line with
    | nil => exact ⟨[], List.not_mem_nil, List.infix_rfl, fun _ => rfl⟩
    | cons c cs =>
      exact ⟨mark ++ c :: cs, by simp [hmark, hline], (List.suffix_append _ _).isInfix,
        fun _ => markList_line (List.cons_ne_nil c cs) hline⟩
  induction h with
  | nil => exact nil
  | keep hline _ ih =>
    obtain ⟨line', hline', -, heq⟩ := hlines hline
    rw [heq, heq]
    exact keep hline' ih
  | mark hline hmarker _ ih =>
    obtain ⟨line', hline', hinfix, heq⟩ := hlines hline
    rw [heq]
    exact .mark hline' (hmarker.trans hinfix) ih

theorem layered (marker : List Char) :
    Layered fun a b => Inserted marker a.toList b.toList where
  empty := nil
  line h := refl_of_terminated List.not_mem_nil h
  append ha hb := by
    rw [String.toList_append, String.toList_append]
    exact ha.append hb
  indent h := by
    rw [indent, indent, markLines, markLines, String.toList_ofList, String.toList_ofList]
    exact h.markList (by decide)

theorem filter_splitOn (h : Inserted marker a b) (hfresh : ¬ marker <:+: b) :
    (a.splitOn '\n').filter (fun line => !decide (marker <:+: line)) = b.splitOn '\n' := by
  induction h with
  | nil => simpa using hfresh
  | @keep line a b hline _ ih =>
    have hkept : ¬ marker <:+: line := fun h => hfresh (h.trans (List.prefix_append _ _).isInfix)
    have hrest : ¬ marker <:+: b := fun h =>
      hfresh (h.trans ((List.suffix_cons _ _).trans (List.suffix_append _ _)).isInfix)
    rw [splitOn_line hline, splitOn_line hline, List.filter_cons_of_pos (by simpa using hkept),
      ih hrest]
  | mark hline hmarker _ ih =>
    rw [splitOn_line hline, List.filter_cons_of_neg (by simpa using hmarker), ih hfresh]

end Inserted

def deleteLines (marker text : String) : String :=
  String.ofList (['\n'].intercalate
    ((text.toList.splitOn '\n').filter fun line => !decide (marker.toList <:+: line)))

theorem deleteLines_eq {marker a b : String} (h : Inserted marker.toList a.toList b.toList)
    (hfresh : ¬ marker.toList <:+: b.toList) : deleteLines marker a = b := by
  rw [deleteLines, h.filter_splitOn hfresh, List.intercalate_splitOn, String.ofList_toList]

end Text

def idPlace : List Char := ['%', '1']

/-- The marker stands in the template, on one line and apart from the places of the block id. -/
def Marks (marker template : List Char) : Prop :=
  '\n' ∉ template ∧ ∃ k ≤ template.length, marker <+: template.drop k ∧
    ∀ i < template.length, idPlace <+: template.drop i →
      i + idPlace.length ≤ k ∨ k + marker.length ≤ i

instance (marker template : List Char) : Decidable (Marks marker template) :=
  inferInstanceAs (Decidable (_ ∧ _))

section

variable {value marker u v : List Char} {c : Char}

def Apart (u marker v : List Char) : Prop :=
  ∀ x y, u ++ marker ++ v = x ++ idPlace ++ y →
    x.length + idPlace.length ≤ u.length ∨ u.length + marker.length ≤ x.length

theorem Marks.apart {template : List Char} (h : Marks marker template) :
    ∃ u v, template = u ++ marker ++ v ∧ Apart u marker v := by
  obtain ⟨-, k, hk, ⟨v, hv⟩, hplaces⟩ := h
  have htemplate : template = template.take k ++ marker ++ v := by
    rw [List.append_assoc, hv, List.take_append_drop]
  refine ⟨template.take k, v, htemplate, fun x y hxy => ?_⟩
  rw [← htemplate] at hxy
  rw [List.length_take_of_le hk]
  have hlt : x.length < template.length := by
    rw [hxy]
    simp only [List.length_append, idPlace, List.length_cons]
    omega
  refine hplaces x.length hlt ⟨y, ?_⟩
  rw [hxy, List.append_assoc, List.drop_left]

theorem Apart.tail (h : Apart (c :: u) marker v) : Apart u marker v := by
  intro x y hxy
  have := h (c :: x) y (by simpa using hxy)
  simp only [List.length_cons] at this
  omega

theorem Apart.tail_marker (h : Apart [] (c :: marker) v) : Apart [] marker v := by
  intro x y hxy
  have := h (c :: x) y (by simpa using hxy)
  simp only [List.length_cons, List.length_nil] at this ⊢
  omega

theorem prefix_fillList (h : Apart [] marker v) : marker <+: fillList value (marker ++ v) := by
  induction marker with
  | nil => exact List.nil_prefix
  | cons c cs ih =>
    have hstart : ∀ rest, c = '%' → cs ++ v = '1' :: rest → False := by
      rintro rest rfl hrest
      have := h [] rest (by simp [idPlace, hrest])
      simp [idPlace] at this
    rw [List.cons_append, fillList]
    · exact List.cons_prefix_cons.2 ⟨rfl, ih h.tail_marker⟩
    · exact hstart

theorem infix_fillList (h : Apart u marker v) : marker <:+: fillList value (u ++ marker ++ v) := by
  induction u using fillList.induct with
  | case1 cs ih => exact (ih h.tail.tail).trans (List.suffix_append _ _).isInfix
  | case2 c cs hnot ih =>
    have hstart : ∀ rest, c = '%' → cs ++ marker ++ v = '1' :: rest → False := by
      rintro rest rfl hrest
      cases cs with
      | nil =>
        -- The place would begin right before the marker and end in it.
        have := h [] rest (by simpa [idPlace] using hrest)
        simp [idPlace] at this
      | cons d ds =>
        refine hnot ds rfl ?_
        rw [(List.cons.inj hrest).1]
    rw [List.cons_append, List.cons_append, fillList]
    · exact (ih h.tail).trans (List.suffix_cons _ _).isInfix
    · exact hstart
  | case3 => exact (prefix_fillList h).isInfix

theorem not_mem_fillList {cs : List Char} (hvalue : '\n' ∉ value) (hcs : '\n' ∉ cs) :
    '\n' ∉ fillList value cs := by
  induction cs using fillList.induct with
  | case1 cs ih =>
    rw [fillList]
    simp only [List.mem_cons, not_or] at hcs
    simp [hvalue, ih hcs.2.2]
  | case2 c cs hnot ih =>
    rw [fillList]
    · simp only [List.mem_cons, not_or] at hcs ⊢
      exact ⟨hcs.1, ih hcs.2⟩
    · exact hnot
  | case3 => exact List.not_mem_nil

theorem not_mem_quotedId {id : String} (hc : c ∉ ['\\', '"']) (h : c ∉ id.toList) :
    c ∉ quotedId id := by
  simp only [List.mem_cons, List.not_mem_nil, or_false, not_or] at hc
  simp only [quotedId, List.cons_append, List.mem_cons, List.mem_append, List.mem_flatMap, not_or,
    not_exists, not_and]
  refine ⟨hc.2, fun d hd hmem => ?_, by simpa using hc.2⟩
  have hne : d ≠ c := ne_of_mem_of_not_mem hd h
  split at hmem <;> simp_all [Ne.symm hne]

end

namespace Outline

variable {o : Outline} {marker template : String}

theorem inserted_of_marks (hid : '\n' ∉ o.head.id.toList)
    (h : Marks marker.toList template.toList) :
    Text.Inserted marker.toList (o.inserted (some template)).toList [] := by
  obtain ⟨u, v, htemplate, hapart⟩ := h.apart
  have hfilled : '\n' ∉ fillList (quotedId o.head.id) template.toList :=
    not_mem_fillList (not_mem_quotedId (by decide) hid) h.1
  have hmarker : marker.toList <:+: fillList (quotedId o.head.id) template.toList := by
    rw [htemplate]
    exact infix_fillList hapart
  have hcode : (o.inserted (some template)).toList =
      fillList (quotedId o.head.id) template.toList ++ ['\n'] := by
    rw [inserted, Option.map_some, Option.getD_some, fillTemplate,
      Text.terminate_eq (by rwa [String.toList_ofList]), String.toList_append, String.toList_ofList]
    rfl
  rw [hcode]
  exact .mark hfilled hmarker .nil

theorem inserted_of_marks_all {template? : Option String} (hid : '\n' ∉ o.head.id.toList)
    (h : ∀ template ∈ template?, Marks marker.toList template.toList) :
    Text.Inserted marker.toList (o.inserted template?).toList (o.inserted none).toList := by
  cases template? with
  | none => exact .nil
  | some template => exact inserted_of_marks hid (h template rfl)

end Outline

namespace Setup

variable {c : Setup} {w : Workspace} {marker : String}

def plain (c : Setup) : Setup := { c with options := { developer := c.options.developer } }

/--
Without the marked lines the code is what it is without the options' own code. A template for the
code after a statement gives a conditional an alternative that it does not have otherwise.
-/
theorem deleteLines_generate (hc : c.book = .builtin) (hw : w.Acyclic)
    (hids : ∀ b ∈ w.blocks, '\n' ∉ b.id.toList)
    (hmarks : ∀ template ∈
      c.options.before.toList ++ c.options.after.toList ++ c.options.trap.toList,
      Marks marker.toList template.toList)
    (helse : c.options.after.isSome = true → ∀ role i b, w.Demanded role i →
      w.blocks[i]? = some b → b.type ∈ conditionalTypes → b.declares "ELSE" = true)
    (hfresh : ∀ code, c.plain.generate w = .ok code → ¬ marker.toList <:+: code.toList) :
    (c.generate w).map (Text.deleteLines marker) = c.plain.generate w := by
  have hfits : ∀ o, .enter o ∈ w.visits →
      o.Fits (fun a b => Text.Inserted marker.toList a.toList b.toList) c.options
        c.plain.options := by
    intro o ho
    obtain ⟨role, i, b, hi, hb, hv⟩ := Workspace.arises_of_mem_visits ho
    obtain rfl : o = b.outline := by simpa using hv
    have hid : '\n' ∉ b.outline.head.id.toList := hids b (Array.mem_of_getElem? hb)
    refine ⟨Outline.inserted_of_marks_all hid ?_, Outline.inserted_of_marks_all hid ?_,
      Outline.inserted_of_marks_all hid ?_, fun htype => ?_⟩
    · exact fun template h => hmarks template (by simp_all)
    · exact fun template h => hmarks template (by simp_all)
    · exact fun template h => hmarks template (by simp_all)
    · cases hafter : c.options.after.isSome with
      | false => exact .inr rfl
      | true => exact .inl ((b.declares_outline _).trans (helse hafter role i b hi hb htype))
  have hplain : c.plain.book = .builtin := hc
  have hpaired := paired_generate (Text.Inserted.layered marker.toList) hc hplain rfl rfl
    hw.isWhole_rootTrees hfits
  cases hfault : w.visits.findSome? Visit.fault? with
  | some e =>
    rw [hfault] at hpaired
    rw [hpaired.1, hpaired.2]
    rfl
  | none =>
    rw [hfault] at hpaired
    obtain ⟨code, code', hcode, hcode', hinserted⟩ := hpaired
    rw [hcode, hcode']
    exact congrArg Except.ok (Text.deleteLines_eq hinserted (hfresh _ hcode'))

theorem deleteLines_generate_conditional :
    let w : Workspace := {
      blocks := #[
        { id := "greet", type := "text_print" },
        { id := "choose", type := "controls_if",
          statements := ⟨[("DO0", some 0), ("ELSE", none)]⟩ },
        { id := "a\"%1", type := "controls_whileUntil", statements := ⟨[("DO", some 1)]⟩ }],
      roots := [2] }
    let c : Setup :=
      { options := { before := some "@on(%1)", after := some "%1 @", trap := some "trap @;" } }
    let code := r"loop {
  if false {
    println!();
  } else {
  }
}
"
    w.Acyclic ∧ (∀ b ∈ w.blocks, '\n' ∉ b.id.toList) ∧
      (∀ template ∈ c.options.before.toList ++ c.options.after.toList ++ c.options.trap.toList,
        Marks "@".toList template.toList) ∧
      (∀ role i b, w.Demanded role i → w.blocks[i]? = some b → b.type ∈ conditionalTypes →
        b.declares "ELSE" = true) ∧
      c.plain.generate w = .ok code ∧ ¬ "@".toList <:+: code.toList ∧
      (c.generate w).map (Text.deleteLines "@") = .ok code := by
  intro w c code
  have hw : w.Acyclic := Workspace.acyclic_of_rank id (by decide) (by decide)
  have hids : ∀ b ∈ w.blocks, '\n' ∉ b.id.toList := by decide
  have hmarks : ∀ template ∈
      c.options.before.toList ++ c.options.after.toList ++ c.options.trap.toList,
      Marks "@".toList template.toList := by decide
  have helse : ∀ role i b, w.Demanded role i → w.blocks[i]? = some b → b.type ∈ conditionalTypes →
      b.declares "ELSE" = true := by
    intro _ _ b _ hb
    have hall : ∀ b ∈ w.blocks, b.type ∈ conditionalTypes → b.declares "ELSE" = true := by decide
    exact hall b (Array.mem_of_getElem? hb)
  have hplain : c.plain.generate w = .ok code := by decide +kernel
  have hfresh : ¬ "@".toList <:+: code.toList := by decide
  refine ⟨hw, hids, hmarks, helse, hplain, hfresh, ?_⟩
  rw [deleteLines_generate rfl hw hids hmarks (fun _ => helse), hplain]
  intro code' hcode'
  cases hplain.symm.trans hcode'
  exact hfresh

end Setup

end BlockCode
