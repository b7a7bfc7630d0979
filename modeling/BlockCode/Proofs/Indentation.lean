import BlockCode.Proofs.Companions

namespace BlockCode.Text

def lines (text : String) : List (List Char) := text.toList.splitOn '\n'

def ofLines (ls : List (List Char)) : String := String.ofList (['\n'].intercalate ls)

theorem ofLines_lines (text : String) : ofLines (lines text) = text := by
  rw [ofLines, lines, List.intercalate_splitOn, String.ofList_toList]

theorem lines_ofLines {ls : List (List Char)} (h : ∀ line ∈ ls, '\n' ∉ line) (hne : ls ≠ []) :
    lines (ofLines ls) = ls := by
  rw [lines, ofLines, String.toList_ofList, List.splitOn_intercalate '\n' h hne]

theorem not_mem_of_mem_splitOn {cs : List Char} :
    ∀ line ∈ cs.splitOn '\n', '\n' ∉ line := by
  induction cs with
  | nil => simp
  | cons c cs ih =>
    rw [List.splitOn_cons_eq_if_modifyHead]
    split
    · exact List.forall_mem_cons.2 ⟨List.not_mem_nil, ih⟩
    · next hc =>
      cases hsplit : cs.splitOn '\n' with
      | nil => exact absurd hsplit (List.splitOn_ne_nil '\n' cs)
      | cons line ls =>
        rw [hsplit, List.forall_mem_cons] at ih
        have hne : '\n' ≠ c := fun h => hc (beq_iff_eq.2 h.symm)
        exact List.forall_mem_cons.2 ⟨List.not_mem_cons_of_ne_of_not_mem hne ih.1, ih.2⟩

def markLine (mark line : List Char) : List Char := if line = [] then [] else mark ++ line

def unmarkLine? (mark line : List Char) : Option (List Char) :=
  if line = [] then some [] else line.dropPrefix? mark

def unmarkLines? (mark text : String) : Option String :=
  ofLines <$> (lines text).mapM (unmarkLine? mark.toList)

theorem markLine_markLine (mark mark' line : List Char) :
    markLine mark' (markLine mark line) = markLine (mark' ++ mark) line := by
  cases line with
  | nil => rfl
  | cons c cs => simp [markLine]

theorem isEmpty_markLine (mark line : List Char) :
    (markLine mark line).isEmpty = line.isEmpty := by
  cases line with
  | nil => rfl
  | cons c cs => simp [markLine]

theorem not_mem_markLine {mark line : List Char} (hmark : '\n' ∉ mark) (hline : '\n' ∉ line) :
    '\n' ∉ markLine mark line := by
  unfold markLine
  split
  · exact List.not_mem_nil
  · simp [hmark, hline]

theorem unmarkLine?_markLine (mark line : List Char) :
    unmarkLine? mark (markLine mark line) = some line := by
  cases line with
  | nil => rfl
  | cons c cs =>
    have hmarked : markLine mark (c :: cs) = mark ++ c :: cs := if_neg (List.cons_ne_nil c cs)
    have hne : mark ++ c :: cs ≠ [] := by simp
    rw [hmarked, unmarkLine?, if_neg hne, List.dropPrefix?_eq_some_iff]
    exact ⟨mark, rfl, beq_self_eq_true mark⟩

theorem markList_eq_markLine {mark line : List Char} (hline : '\n' ∉ line) :
    markList mark true line = markLine mark line := by
  cases line with
  | nil => rfl
  | cons c cs =>
    have hspan : markList mark true (c :: cs ++ []) = mark ++ (c :: cs ++ markList mark false []) :=
      markList_span (List.cons_ne_nil c cs) hline true []
    simpa [markLine, markList] using hspan

theorem markList_intercalate (mark : List Char) {ls : List (List Char)}
    (h : ∀ line ∈ ls, '\n' ∉ line) :
    markList mark true (['\n'].intercalate ls) = ['\n'].intercalate (ls.map (markLine mark)) := by
  induction ls with
  | nil => rfl
  | cons line ls ih =>
    obtain ⟨hline, hls⟩ := List.forall_mem_cons.1 h
    cases ls with
    | nil =>
      rw [List.map_singleton, List.intercalate_singleton, List.intercalate_singleton,
        markList_eq_markLine hline]
    | cons line' ls =>
      -- After the first line break the marking starts anew.
      rw [List.map_cons, List.map_cons, List.intercalate_cons_cons, List.intercalate_cons_cons,
        ← List.map_cons, ← ih hls, List.append_assoc, List.append_assoc, List.singleton_append,
        List.singleton_append, markList_append, markList_eq_markLine hline]

theorem markLines_eq_ofLines (mark text : String) :
    markLines mark text = ofLines ((lines text).map (markLine mark.toList)) := by
  rw [ofLines, lines, ← markList_intercalate mark.toList not_mem_of_mem_splitOn,
    List.intercalate_splitOn, markLines]

theorem lines_markLines {mark : String} (hmark : '\n' ∉ mark.toList) (text : String) :
    lines (markLines mark text) = (lines text).map (markLine mark.toList) := by
  rw [markLines_eq_ofLines]
  apply lines_ofLines
  · intro line hline
    obtain ⟨line, hmem, rfl⟩ := List.mem_map.1 hline
    exact not_mem_markLine hmark (not_mem_of_mem_splitOn line hmem)
  · intro hnil
    exact List.splitOn_ne_nil '\n' text.toList (List.map_eq_nil_iff.1 hnil)

theorem markLines_markLines {mark : String} (hmark : '\n' ∉ mark.toList) (mark' text : String) :
    markLines mark' (markLines mark text) = markLines (mark' ++ mark) text := by
  rw [markLines_eq_ofLines, lines_markLines hmark, List.map_map,
    markLines_eq_ofLines (mark' ++ mark)]
  congr 2
  funext line
  rw [Function.comp_apply, markLine_markLine, String.toList_append]

theorem markLines_append (mark : String) {a : String} (ha : a = "" ∨ IsTerminated a) (b : String) :
    markLines mark (a ++ b) = markLines mark a ++ markLines mark b := by
  rcases ha with rfl | ha
  · simp [markLines, markList]
  · obtain ⟨cs, hcs⟩ := List.getLast?_eq_some_iff.1 ha
    have hfirst := markList_append mark.toList true cs []
    have hboth := markList_append mark.toList true cs b.toList
    rw [← String.toList_inj, markLines, markLines, markLines, String.toList_append,
      String.toList_append, String.toList_ofList, String.toList_ofList, String.toList_ofList, hcs,
      hfirst, List.append_assoc, List.singleton_append, hboth, List.append_assoc]
    rfl

theorem count_markList {mark : List Char} (hmark : '\n' ∉ mark) (start : Bool) (cs : List Char) :
    (markList mark start cs).count '\n' = cs.count '\n' := by
  have hcount := List.count_eq_zero_of_not_mem hmark
  induction start, cs using markList.induct with
  | case1 start => cases start <;> rfl
  | case2 start cs ih => cases start <;> simp [markList, ih]
  | case3 c cs hc ih => simp [markList, ih, hcount, List.count_cons]
  | case4 c cs hc ih => simp [markList, ih, List.count_cons]

theorem unmarkLines?_markLines {mark : String} (hmark : '\n' ∉ mark.toList) (text : String) :
    unmarkLines? mark (markLines mark text) = some text := by
  have hline : unmarkLine? mark.toList ∘ markLine mark.toList = fun line => pure line :=
    funext (unmarkLine?_markLine mark.toList)
  rw [unmarkLines?, lines_markLines hmark, List.mapM_map, hline, List.mapM_pure, List.map_id',
    map_pure, ofLines_lines]
  rfl

/--
Laws of a mark that has no line break in it. Two marks, one in front of the other, are one mark;
what comes after whole lines is marked by itself; the line breaks are as many as before, and the
same lines are empty; and taking the mark off every line that is not empty gives the text back.
-/
theorem markLines_lawful {mark : String} (hmark : '\n' ∉ mark.toList) :
    (∀ mark' text, markLines mark' (markLines mark text) = markLines (mark' ++ mark) text) ∧
    (∀ a b, a = "" ∨ IsTerminated a →
      markLines mark (a ++ b) = markLines mark a ++ markLines mark b) ∧
    (∀ text, (markLines mark text).toList.count '\n' = text.toList.count '\n' ∧
      (lines (markLines mark text)).map List.isEmpty = (lines text).map List.isEmpty) ∧
    ∀ text, unmarkLines? mark (markLines mark text) = some text := by
  refine ⟨markLines_markLines hmark, fun a b ha => markLines_append mark ha b,
    fun text => ⟨?_, ?_⟩, unmarkLines?_markLines hmark⟩
  · rw [markLines, String.toList_ofList, count_markList hmark]
  · rw [lines_markLines hmark, List.map_map]
    congr 1
    funext line
    exact isEmpty_markLine mark.toList line

theorem markLines_lawful_comment :
    let whole := r"if a {
  b;

}
"
    let text := whole ++ "c"
    '\n' ∉ indentStep.toList ∧ IsTerminated whole ∧
    markLines "// " (indent text) = markLines ("// " ++ indentStep) text ∧
    indent text = indent whole ++ indent "c" ∧
    indent text = r"  if a {
    b;

  }
  c" ∧
    (indent text).toList.count '\n' = 4 ∧
    (lines (indent text)).map List.isEmpty = [false, false, true, false, false] ∧
    unmarkLines? indentStep (indent text) = some text := by
  intro whole text
  have hstep : '\n' ∉ indentStep.toList := by decide
  have hwhole : IsTerminated whole := by decide
  obtain ⟨hmarks, happend, hlines, hoff⟩ := markLines_lawful hstep
  obtain ⟨hcount, hempty⟩ := hlines text
  exact ⟨hstep, hwhole, hmarks "// " text, happend whole "c" (.inr hwhole), by decide,
    hcount.trans (by decide), hempty.trans (by decide), hoff text⟩

end BlockCode.Text
