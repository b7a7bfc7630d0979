import BlockCode.Proofs.Insertions

/-!
Code as a list of lines. A line is the code's own, or it is put in by the options at a block; what
it says then depends on their templates, and where it stands does not. A listing tells which lines
stand where for statements that are performed: around each of them, at the start and at the end of
each loop body, and at the start of each branch. This fixes how many lines of each kind there are.
-/

namespace BlockCode

open Text

inductive Mark where
  | before
  | after
  | trap
  deriving DecidableEq, Repr

structure Templates where
  text : Mark → String
  oneLine : ∀ mark, '\n' ∉ (text mark).toList

namespace Templates

instance : Inhabited Templates := ⟨fun _ => "", fun _ => by decide⟩

def blank (T : Templates) (mark : Mark) : Templates where
  text m := if m = mark then "" else T.text m
  oneLine m := by
    split
    · decide
    · exact T.oneLine m

end Templates

abbrev Row := { row : List Char // '\n' ∉ row }

inductive Content where
  | own (row : List Char) (h : '\n' ∉ row)
  | put (mark : Mark) (id : String) (h : '\n' ∉ id.toList)

def Content.chars (T : Templates) : Content → List Char
  | .own row _ => row
  | .put mark id _ => fillList (quotedId id) (T.text mark).toList

theorem Content.not_mem_chars (T : Templates) (content : Content) : '\n' ∉ content.chars T := by
  cases content with
  | own row h => exact h
  | put mark id h => exact not_mem_fillList (not_mem_quotedId (by decide) h) (T.oneLine mark)

structure Line where
  depth : Nat := 0
  content : Content

namespace Line

def own (row : Row) : Line := { content := .own row.1 row.2 }

def close : Line := own ⟨['}'], by decide⟩

def deeper (l : Line) : Line := { l with depth := l.depth + 1 }

def isPut (mark : Mark) (l : Line) : Bool :=
  match l.content with
  | .own .. => false
  | .put m .. => m = mark

def chars (T : Templates) (l : Line) : List Char :=
  let row := l.content.chars T
  if row = [] then [] else List.replicate (2 * l.depth) ' ' ++ row

def text (T : Templates) (ls : List Line) : String :=
  String.ofList (ls.flatMap fun l => l.chars T ++ ['\n'])

section

variable (T : Templates)

theorem chars_of_nil {l : Line} (h : l.content.chars T = []) : l.chars T = [] := if_pos h

theorem chars_of_ne_nil {l : Line} (h : l.content.chars T ≠ []) :
    l.chars T = List.replicate (2 * l.depth) ' ' ++ l.content.chars T :=
  if_neg h

theorem not_mem_chars (l : Line) : '\n' ∉ l.chars T := by
  by_cases h : l.content.chars T = []
  · simp [chars_of_nil T h]
  · simp [chars_of_ne_nil T h, l.content.not_mem_chars T]

theorem infix_chars (l : Line) : l.content.chars T <:+: l.chars T := by
  by_cases h : l.content.chars T = []
  · rw [h]
    exact List.nil_infix
  · rw [chars_of_ne_nil T h]
    exact (List.suffix_append _ _).isInfix

theorem text_append (ls ls' : List Line) : text T (ls ++ ls') = text T ls ++ text T ls' := by
  rw [text, List.flatMap_append, String.ofList_append]
  rfl

theorem text_eq_empty {ls : List Line} : text T ls = "" ↔ ls = [] := by
  cases ls with
  | nil => exact iff_of_true rfl rfl
  | cons l ls => simp [text, ← String.toList_inj]

theorem markList_chars (l : Line) (rest : List Char) :
    markList indentStep.toList true (l.chars T ++ '\n' :: rest) =
      l.deeper.chars T ++ '\n' :: markList indentStep.toList true rest := by
  have hcontent : l.deeper.content = l.content := rfl
  by_cases h : l.content.chars T = []
  · rw [chars_of_nil T h, chars_of_nil T (hcontent ▸ h)]
    rfl
  · have hdepth : List.replicate (2 * l.deeper.depth) ' ' =
        indentStep.toList ++ List.replicate (2 * l.depth) ' ' := by
      rw [deeper, Nat.mul_succ, Nat.add_comm, List.replicate_add]
      rfl
    have hrow := l.content.not_mem_chars T
    rw [chars_of_ne_nil T h, chars_of_ne_nil T (hcontent ▸ h), hcontent, hdepth,
      markList_line (by simp [h]) (by simp [hrow])]
    simp only [List.append_assoc]

theorem indent_text (ls : List Line) : indent (text T ls) = text T (ls.map deeper) := by
  rw [indent, markLines, text, text, String.toList_ofList]
  congr 1
  induction ls with
  | nil => rfl
  | cons l ls ih =>
    rw [List.flatMap_cons, List.map_cons, List.flatMap_cons, List.append_assoc, List.append_assoc,
      List.singleton_append, List.singleton_append, markList_chars, ih]

end

theorem chars_own (T : Templates) (row : Row) : (own row).chars T = row.1 := by
  by_cases h : (own row).content.chars T = []
  · exact (chars_of_nil T h).trans h.symm
  · exact chars_of_ne_nil T h

theorem exists_rows {code : String} (h : code = "" ∨ IsTerminated code) :
    ∃ rows : List Row, ∀ T, text T (rows.map own) = code := by
  have hlines : ∀ {a b : List Char}, Inserted [] a b →
      ∃ rows : List Row,
        (rows.flatMap fun row => row.1 ++ ['\n']) = b := by
    intro a b h
    induction h with
    | nil => exact ⟨[], rfl⟩
    | @keep line _ _ hline _ ih =>
      obtain ⟨rows, rfl⟩ := ih
      exact ⟨⟨line, hline⟩ :: rows, by simp⟩
    | mark _ _ _ ih => exact ih
  have hcode : Inserted [] code.toList code.toList := by
    rcases h with rfl | h
    · exact .nil
    · exact Inserted.refl_of_terminated List.not_mem_nil h
  obtain ⟨rows, hrows⟩ := hlines hcode
  refine ⟨rows, fun T => ?_⟩
  rw [← String.toList_inj, ← hrows, text, String.toList_ofList, List.flatMap_map]
  refine List.flatMap_congr fun row _ => ?_
  rw [chars_own]

def put (mark : Mark) (o : Outline) (h : '\n' ∉ o.head.id.toList) : Line :=
  { content := .put mark o.head.id h }

theorem text_put (T : Templates) (mark : Mark) (o : Outline) (h : '\n' ∉ o.head.id.toList) :
    text T [put mark o h] = o.inserted (some (T.text mark)) := by
  have hchars : (put mark o h).chars T = fillList (quotedId o.head.id) (T.text mark).toList := by
    by_cases hempty : (put mark o h).content.chars T = []
    · exact (chars_of_nil T hempty).trans hempty.symm
    · exact chars_of_ne_nil T hempty
  have hline : '\n' ∉ (fillTemplate (T.text mark) o.head.id).toList := by
    rw [fillTemplate, String.toList_ofList, ← hchars]
    exact not_mem_chars T _
  rw [Outline.inserted, Option.map_some, Option.getD_some, terminate_eq hline, fillTemplate,
    ← hchars, ← String.toList_inj]
  simp [text]

end Line

structure Arm where
  header : List Row
  performed : List Outline
  lines : List Line

def Arm.listing (o : Outline) (h : '\n' ∉ o.head.id.toList) (arm : Arm) : List Line :=
  arm.header.map Line.own ++ (Line.put .after o h :: arm.lines).map Line.deeper

/--
The body of a loop: the code for after a statement, the trap, the statements in it, and the code for
before a statement.
-/
def bodyListing (o : Outline) (h : '\n' ∉ o.head.id.toList) (ls : List Line) : List Line :=
  (Line.put .after o h :: Line.put .trap o h :: ls ++ [Line.put .before o h]).map Line.deeper

/--
The lines for statements that are performed one after the other. A statement stands between the code
for before it and the code for after it; a conditional has the latter in its branches and not behind
them.
-/
inductive Listing : List Outline → List Line → Prop
  | nil : Listing [] []
  | plain {o : Outline} (h : '\n' ∉ o.head.id.toList) (rows : List Row) {rest : List Outline}
    {ls : List Line} : o.head.type ∉ loopTypes → o.head.type ∉ conditionalTypes →
    Listing rest ls →
    Listing (o :: rest) (.put .before o h :: rows.map .own ++ .put .after o h :: ls)
  | loop {o : Outline} (h : '\n' ∉ o.head.id.toList) (header : List Row)
    {inner rest : List Outline} {body ls : List Line} : o.head.type ∈ loopTypes →
    Listing inner body → Listing rest ls →
    Listing (o :: inner ++ rest) (.put .before o h :: header.map .own ++ bodyListing o h body ++
      .close :: .put .after o h :: ls)
  | conditional {o : Outline} (h : '\n' ∉ o.head.id.toList) {arms : List Arm}
    {rest : List Outline} {ls : List Line} : o.head.type ∈ conditionalTypes →
    arms.length = o.arms + 1 → (∀ arm ∈ arms, Listing arm.performed arm.lines) →
    Listing rest ls →
    Listing (o :: arms.flatMap Arm.performed ++ rest)
      (.put .before o h :: arms.flatMap (Arm.listing o h) ++ .close :: ls)

namespace Listing

variable {os os' : List Outline} {ls ls' : List Line}

theorem append (h : Listing os ls) (h' : Listing os' ls') : Listing (os ++ os') (ls ++ ls') := by
  induction h with
  | nil => exact h'
  | plain h rows hloop hconditional _ ih => simpa using ih.plain h rows hloop hconditional
  | loop h header htype hinner _ _ ih => simpa using hinner.loop h header htype ih
  | conditional h htype hlength harms _ _ ih => simpa using ih.conditional h htype hlength harms

end Listing

def Outline.puts (o : Outline) : Mark → Nat
  | .before => if o.head.type ∈ loopTypes then 2 else 1
  | .after =>
    if o.head.type ∈ conditionalTypes then o.arms + 1
    else if o.head.type ∈ loopTypes then 2 else 1
  | .trap => if o.head.type ∈ loopTypes then 1 else 0

namespace Line

variable (mark : Mark)

theorem countP_own (rows : List Row) : (rows.map own).countP (isPut mark) = 0 := by
  rw [List.countP_map]
  exact List.countP_eq_zero.2 fun row _ => Bool.false_ne_true

theorem countP_deeper (ls : List Line) :
    (ls.map deeper).countP (isPut mark) = ls.countP (isPut mark) :=
  List.countP_map

theorem countP_put (m : Mark) (o : Outline) (h : '\n' ∉ o.head.id.toList) (ls : List Line) :
    (put m o h :: ls).countP (isPut mark) = ls.countP (isPut mark) + if m = mark then 1 else 0 := by
  rw [List.countP_cons]
  congr 1
  cases m <;> cases mark <;> rfl

theorem countP_close (ls : List Line) :
    (close :: ls).countP (isPut mark) = ls.countP (isPut mark) :=
  List.countP_cons_of_neg Bool.false_ne_true

end Line

namespace Listing

open Line

variable {os : List Outline} {ls : List Line}

theorem countP_arms (mark : Mark) (o : Outline) (h : '\n' ∉ o.head.id.toList) {arms : List Arm}
    (harms : ∀ arm ∈ arms,
      arm.lines.countP (isPut mark) = (arm.performed.map (·.puts mark)).sum) :
    (arms.flatMap (Arm.listing o h)).countP (isPut mark) =
      ((arms.flatMap Arm.performed).map (·.puts mark)).sum +
        if mark = .after then arms.length else 0 := by
  induction arms with
  | nil => simp
  | cons arm arms ih =>
    obtain ⟨harm, harms⟩ := List.forall_mem_cons.1 harms
    rw [List.flatMap_cons, List.countP_append, ih harms, Arm.listing, List.countP_append,
      countP_own, countP_deeper, countP_put, harm]
    cases mark <;> simp
    omega

theorem countP_isPut (h : Listing os ls) (mark : Mark) :
    ls.countP (isPut mark) = (os.map (·.puts mark)).sum := by
  induction h with
  | nil => rfl
  | @plain o h rows rest ls hloop hconditional _ ih =>
    rw [List.cons_append, countP_put, List.countP_append, countP_own, countP_put, ih]
    cases mark <;> simp [Outline.puts, hloop, hconditional] <;> omega
  | @loop o h header inner rest body ls htype _ _ ihinner ihrest =>
    have hconditional : o.head.type ∉ conditionalTypes := Outline.not_mem_conditionalTypes _ htype
    rw [List.cons_append, List.cons_append, countP_put, List.countP_append, List.countP_append,
      countP_own, bodyListing, countP_deeper, List.cons_append, List.cons_append, countP_put,
      countP_put, List.countP_append, countP_put, countP_close, countP_put, ihinner, ihrest]
    cases mark <;> simp [Outline.puts, htype, hconditional] <;> omega
  | @conditional o h arms rest ls htype hlength _ _ iharms ihrest =>
    have hloop : o.head.type ∉ loopTypes := fun hloop =>
      Outline.not_mem_conditionalTypes _ hloop htype
    rw [List.cons_append, countP_put, List.countP_append, countP_arms mark o h iharms,
      countP_close, ihrest]
    cases mark <;> simp [Outline.puts, htype, hloop, hlength] <;> omega

end Listing

namespace Outline

def isLoop (o : Outline) : Bool := loopTypes.contains o.head.type

def isConditional (o : Outline) : Bool := conditionalTypes.contains o.head.type

theorem sum_puts_before (os : List Outline) :
    (os.map (·.puts .before)).sum = os.length + os.countP isLoop := by
  induction os with
  | nil => rfl
  | cons o os ih =>
    rw [List.map_cons, List.sum_cons, ih, List.length_cons, List.countP_cons]
    by_cases htype : o.head.type ∈ loopTypes <;> simp [puts, isLoop, htype] <;> omega

theorem sum_puts_trap (os : List Outline) :
    (os.map (·.puts .trap)).sum = os.countP isLoop := by
  induction os with
  | nil => rfl
  | cons o os ih =>
    rw [List.map_cons, List.sum_cons, ih, List.countP_cons]
    by_cases htype : o.head.type ∈ loopTypes <;> simp [puts, isLoop, htype]
    omega

theorem sum_puts_after (os : List Outline) :
    (os.map (·.puts .after)).sum = os.length - os.countP isConditional + os.countP isLoop +
      ((os.filter isConditional).map (·.arms + 1)).sum := by
  induction os with
  | nil => rfl
  | cons o os ih =>
    have hle := os.countP_le_length (p := isConditional)
    rw [List.map_cons, List.sum_cons, ih, List.length_cons, List.countP_cons, List.countP_cons]
    by_cases hconditional : o.head.type ∈ conditionalTypes
    · have hloop : o.head.type ∉ loopTypes := fun hloop =>
        not_mem_conditionalTypes _ hloop hconditional
      rw [List.filter_cons_of_pos (by simpa [isConditional] using hconditional), List.map_cons,
        List.sum_cons]
      generalize ((os.filter isConditional).map (·.arms + 1)).sum = inner
      simp [puts, isLoop, isConditional, hconditional, hloop]
      omega
    · rw [List.filter_cons_of_neg (by simpa [isConditional] using hconditional)]
      generalize ((os.filter isConditional).map (·.arms + 1)).sum = inner
      by_cases hloop : o.head.type ∈ loopTypes <;>
        simp [puts, isLoop, isConditional, hconditional, hloop] <;> omega

end Outline

def Text.countLines (marker text : String) : Nat :=
  (text.toList.splitOn '\n').countP fun line => decide (marker.toList <:+: line)

namespace Line

variable {T : Templates} {mark : Mark} {marker : String} {ls : List Line}

theorem splitOn_text (T : Templates) (ls : List Line) :
    (text T ls).toList.splitOn '\n' = ls.map (chars T) ++ [[]] := by
  rw [text, String.toList_ofList]
  induction ls with
  | nil => rfl
  | cons l ls ih =>
    rw [List.flatMap_cons, List.append_assoc, List.singleton_append,
      splitOn_line (l.not_mem_chars T), ih, List.map_cons, List.cons_append]

theorem chars_infix_text {l : Line} (hl : l ∈ ls) : l.chars T <:+: (text T ls).toList := by
  obtain ⟨before, after, rfl⟩ := List.append_of_mem hl
  rw [text, String.toList_ofList, List.flatMap_append, List.flatMap_cons]
  exact ⟨before.flatMap fun l => l.chars T ++ ['\n'],
    '\n' :: after.flatMap fun l => l.chars T ++ ['\n'], by simp⟩

theorem chars_blank {l : Line} (h : l.isPut mark = false) : l.chars (T.blank mark) = l.chars T := by
  have hcontent : l.content.chars (T.blank mark) = l.content.chars T := by
    obtain ⟨depth, content⟩ := l
    cases content with
    | own row hrow => rfl
    | put m id hid =>
      have hne : m ≠ mark := by simpa [isPut] using h
      simp [Content.chars, Templates.blank, hne]
  simp only [chars, hcontent]

theorem infix_chars_iff (hmarks : Marks marker.toList (T.text mark).toList)
    (hfresh : ¬ marker.toList <:+: (text (T.blank mark) ls).toList) {l : Line} (hl : l ∈ ls) :
    marker.toList <:+: l.chars T ↔ l.isPut mark = true := by
  constructor
  · intro hmarker
    by_contra hput
    rw [← chars_blank (Bool.eq_false_iff.2 hput)] at hmarker
    exact hfresh (hmarker.trans (chars_infix_text hl))
  · intro hput
    obtain ⟨u, v, htemplate, hapart⟩ := hmarks.apart
    refine List.IsInfix.trans ?_ (l.infix_chars T)
    obtain ⟨depth, content⟩ := l
    cases content with
    | own row hrow => cases hput
    | put m id hid =>
      obtain rfl : m = mark := by simpa [isPut] using hput
      rw [Content.chars, htemplate]
      exact infix_fillList hapart

theorem countLines_text (hmarks : Marks marker.toList (T.text mark).toList)
    (hfresh : ¬ marker.toList <:+: (text (T.blank mark) ls).toList) :
    countLines marker (text T ls) = ls.countP (isPut mark) := by
  have hempty : ¬ marker.toList <:+: [] := fun h => hfresh (h.trans List.nil_infix)
  rw [countLines, splitOn_text, List.countP_append, List.countP_map,
    List.countP_singleton, if_neg (by simpa using hempty), Nat.add_zero]
  exact List.countP_congr fun l hl => by simpa using infix_chars_iff hmarks hfresh hl

end Line

end BlockCode
