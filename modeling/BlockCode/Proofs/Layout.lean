import BlockCode.Text.Lines
import BlockCode.Text.Literal
import Mathlib

/-!
The layout of code. A scan goes through the code with literals and comments as opaque parts and
counts the open braces. Laid out text is a sequence of whole lines, each indented by two blanks for
every brace that is open around it; one step of indentation makes it laid out text one level further
in.
-/

namespace BlockCode.Text

inductive Inside where
  | code
  | slash
  | comment
  | literal
  | escape
  deriving DecidableEq, Repr

structure Scan where
  inside : Inside := .code
  depth : Nat := 0
  deriving DecidableEq, Repr

namespace Scan

def stepCode (depth : Nat) (c : Char) : Option Scan :=
  if c = '"' then some ⟨.literal, depth⟩
  else if c = '/' then some ⟨.slash, depth⟩
  else if c = '{' then some ⟨.code, depth + 1⟩
  else if c = '}' then if depth = 0 then none else some ⟨.code, depth - 1⟩
  else some ⟨.code, depth⟩

/-- Fails where a line ends inside of a literal, and at a closing brace without an open one. -/
def step : Scan → Char → Option Scan
  | ⟨.code, depth⟩, c => stepCode depth c
  | ⟨.slash, depth⟩, c => if c = '/' then some ⟨.comment, depth⟩ else stepCode depth c
  | ⟨.comment, depth⟩, c => some ⟨if c = '\n' then .code else .comment, depth⟩
  | ⟨.literal, depth⟩, c =>
    if c = '\n' then none
    else some ⟨if c = '"' then .code else if c = '\\' then .escape else .literal, depth⟩
  | ⟨.escape, depth⟩, c => if c = '\n' then none else some ⟨.literal, depth⟩

end Scan

def scan (s : Scan) (cs : List Char) : Option Scan := cs.foldlM Scan.step s

def IsIndented (depth : Nat) (line : List Char) : Prop :=
  ∃ first rest, first ≠ ' ' ∧
    line = List.replicate (2 * if first = '}' then depth - 1 else depth) ' ' ++ first :: rest

structure IsLine (text before line after : List Char) : Prop where
  eq : text = before ++ line ++ '\n' :: after
  line : '\n' ∉ line
  start : before = [] ∨ before.getLast? = some '\n'

theorem scan_append {s s' : Scan} {a : List Char} (h : scan s a = some s') (b : List Char) :
    scan s (a ++ b) = scan s' b := by
  rw [scan, List.foldlM_append]
  change (scan s a).bind _ = _
  rw [h]
  rfl

theorem scan_cons {s s' : Scan} {c : Char} (h : s.step c = some s') (cs : List Char) :
    scan s (c :: cs) = scan s' cs :=
  scan_append (a := [c]) (by simp [scan, h]) cs

theorem Scan.step_succ {i i' : Inside} {d d' : Nat} {c : Char}
    (h : step ⟨i, d⟩ c = some ⟨i', d'⟩) : step ⟨i, d + 1⟩ c = some ⟨i', d' + 1⟩ := by
  have hcode : ∀ {i' d'}, stepCode d c = some ⟨i', d'⟩ →
      stepCode (d + 1) c = some ⟨i', d' + 1⟩ := by
    intro i' d' h
    unfold stepCode at h ⊢
    grind
  cases i <;> simp only [step] at h ⊢ <;> grind

theorem scan_succ {i i' : Inside} {d d' : Nat} {cs : List Char}
    (h : scan ⟨i, d⟩ cs = some ⟨i', d'⟩) : scan ⟨i, d + 1⟩ cs = some ⟨i', d' + 1⟩ := by
  induction cs generalizing i d with
  | nil =>
    cases h
    rfl
  | cons c cs ih =>
    cases hstep : Scan.step ⟨i, d⟩ c with
    | none => simp [scan, hstep] at h
    | some s =>
      rw [scan_cons hstep] at h
      rw [scan_cons (Scan.step_succ hstep)]
      exact ih h

def OneLine (s : String) : Prop := '\n' ∉ s.toList

/-- Code on one line that closes its literals, with the depth before and after it. -/
structure Passes (depth : Nat) (s : String) (depth' : Nat) : Prop where
  scan : scan ⟨.code, depth⟩ s.toList = some ⟨.code, depth'⟩
  line : '\n' ∉ s.toList

instance (depth : Nat) (s : String) (depth' : Nat) : Decidable (Passes depth s depth') :=
  decidable_of_iff (scan ⟨.code, depth⟩ s.toList = some ⟨.code, depth'⟩ ∧ '\n' ∉ s.toList)
    ⟨fun h => ⟨h.1, h.2⟩, fun h => ⟨h.scan, h.line⟩⟩

theorem Passes.oneLine {depth depth' : Nat} {s : String} (h : Passes depth s depth') : OneLine s :=
  h.line

abbrev Inline (s : String) : Prop := Passes 0 s 0

theorem Passes.append {d d' d'' : Nat} {a b : String} (ha : Passes d a d') (hb : Passes d' b d'') :
    Passes d (a ++ b) d'' where
  scan := by rw [String.toList_append, scan_append ha.scan, hb.scan]
  line := by simp [ha.line, hb.line]

theorem Passes.within {s : String} (h : Inline s) (depth : Nat) : Passes depth s depth := by
  induction depth with
  | zero => exact h
  | succ depth ih => exact ⟨scan_succ ih.scan, h.line⟩

structure Span (s : String) (depth : Nat := 0) : Prop extends Passes 0 s depth where
  start : s.toList.head?.any (· != ' ') = true

instance (s : String) (depth : Nat) : Decidable (Span s depth) :=
  decidable_of_iff (Passes 0 s depth ∧ s.toList.head?.any (· != ' ') = true)
    ⟨fun h => ⟨h.1, h.2⟩, fun h => ⟨h.toPasses, h.start⟩⟩

theorem Span.append {a b : String} {d d' : Nat} (ha : Span a d) (hb : Passes d b d') :
    Span (a ++ b) d' where
  toPasses := ha.toPasses.append hb
  start := by
    have hstart := ha.start
    cases hlist : a.toList with
    | nil => simp [hlist] at hstart
    | cons first rest => simpa [hlist] using hstart

def marks : List Char := ['"', '/', '{', '}', '\n', ' ']

def isPlain (c : Char) : Bool := !marks.contains c

theorem isPlain_of {p : Char → Bool} (hp : marks.all (fun c => !p c) = true) {c : Char}
    (hc : p c = true) : isPlain c = true := by
  rw [isPlain, Bool.not_eq_true', ← Bool.not_eq_true]
  intro hmem
  simpa [hc] using List.all_eq_true.1 hp c (List.contains_iff_mem.1 hmem)

theorem Span.of_isPlain {s : String} (hs : s ≠ "") (h : ∀ c ∈ s.toList, isPlain c = true) :
    Span s := by
  have hscan : ∀ cs : List Char, (∀ c ∈ cs, isPlain c = true) → scan {} cs = some {} := by
    intro cs
    induction cs with
    | nil => exact fun _ => rfl
    | cons c cs ih =>
      intro h
      obtain ⟨hc, hcs⟩ := List.forall_mem_cons.1 h
      have hstep : Scan.step {} c = some {} := by
        have hmarks : c ∉ marks := by simpa [isPlain] using hc
        simp only [marks, List.mem_cons, not_or] at hmarks
        simp [Scan.step, Scan.stepCode, hmarks]
      rw [scan_cons hstep, ih hcs]
  refine ⟨⟨hscan _ h, fun hmem => absurd (h _ hmem) (by decide)⟩, ?_⟩
  cases hlist : s.toList with
  | nil => exact absurd (String.toList_inj.1 (by simpa using hlist)) hs
  | cons first rest =>
    have hfirst := h first (by simp [hlist])
    rw [List.head?_cons, Option.any_some, bne_iff_ne]
    rintro rfl
    exact absurd hfirst (by decide)

theorem scan_escapeChar (c : Char) : scan ⟨.literal, 0⟩ (escapeChar c) = some ⟨.literal, 0⟩ := by
  unfold escapeChar
  split
  · rfl
  · rfl
  · rfl
  · rfl
  · rfl
  · rfl
  · rename_i hslash hquote hbreak _ _ _
    have hstep : Scan.step ⟨.literal, 0⟩ c = some ⟨.literal, 0⟩ := by
      rw [Scan.step, if_neg hbreak, if_neg hquote, if_neg hslash]
    rw [scan_cons hstep]
    rfl

theorem scan_flatMap_escapeChar (cs : List Char) :
    scan ⟨.literal, 0⟩ (cs.flatMap escapeChar) = some ⟨.literal, 0⟩ := by
  induction cs with
  | nil => rfl
  | cons c cs ih => rw [List.flatMap_cons, scan_append (scan_escapeChar c), ih]

theorem not_mem_escapeChar (c : Char) : '\n' ∉ escapeChar c := by
  unfold escapeChar
  split
  · decide
  · decide
  · decide
  · decide
  · decide
  · decide
  · rename_i hbreak _ _ _
    simpa using Ne.symm hbreak

theorem span_quote (s : String) : Span (quote s) where
  scan := by
    have hopen : Scan.step {} '"' = some ⟨.literal, 0⟩ := rfl
    rw [quote, String.toList_ofList, scan_cons hopen, scan_append (scan_flatMap_escapeChar _)]
    rfl
  line := by
    have hbody : '\n' ∉ s.toList.flatMap escapeChar := fun hmem => by
      obtain ⟨c, -, hc⟩ := List.mem_flatMap.1 hmem
      exact not_mem_escapeChar c hc
    simp [quote, hbody]
  start := by
    rw [quote, String.toList_ofList]
    rfl

theorem IsLine.append {a b before line after : List Char} (h : IsLine (a ++ b) before line after)
    (ha : a = [] ∨ a.getLast? = some '\n') :
    (∃ after', IsLine a before line after' ∧ after = after' ++ b) ∨
      ∃ before', before = a ++ before' ∧ IsLine b before' line after := by
  obtain ⟨heq, hline, hstart⟩ := h
  rw [List.append_assoc, List.append_eq_append_iff] at heq
  rcases heq with ⟨before', rfl, hb⟩ | ⟨a', rfl, hrest⟩
  · refine .inr ⟨before', rfl, by rw [hb, List.append_assoc], hline, ?_⟩
    cases before' with
    | nil => exact .inl rfl
    | cons c cs => exact .inr (by simpa [List.getLast?_append] using hstart)
  · cases a' with
    | nil => exact .inr ⟨[], by simp, by simpa using hrest.symm, hline, .inl rfl⟩
    | cons c cs =>
      have hbreak : '\n' ∈ c :: cs := by
        refine List.mem_of_getLast? ?_
        simpa [List.getLast?_append] using ha
      rw [List.append_eq_append_iff] at hrest
      rcases hrest with ⟨x, hx, hafter⟩ | ⟨y, rfl, -⟩
      · cases x with
        | nil => exact absurd (by simpa [hx] using hbreak) hline
        | cons d x =>
          obtain ⟨rfl, rfl⟩ := List.cons.inj hafter
          exact .inl ⟨x, ⟨by rw [hx, List.append_assoc], hline, hstart⟩, rfl⟩
      · exact absurd (List.mem_append_left _ hbreak) hline

theorem IsLine.eq_of_single {first before line after : List Char}
    (h : IsLine (first ++ ['\n']) before line after) (hfirst : '\n' ∉ first) :
    before = [] ∧ line = first := by
  obtain ⟨heq, hline, hstart⟩ := h
  have hcount : before.count '\n' = 0 := by
    have := congrArg (List.count '\n') heq
    simp only [List.count_append, List.count_cons_self, List.count_nil,
      List.count_eq_zero_of_not_mem hfirst, List.count_eq_zero_of_not_mem hline] at this
    omega
  have hbefore : before = [] := by
    rcases hstart with rfl | hlast
    · rfl
    · exact absurd (List.mem_of_getLast? hlast) (List.count_eq_zero.1 hcount)
  subst hbefore
  have htake := congrArg (List.takeWhile (· != '\n')) heq
  have hne : ∀ {cs : List Char}, '\n' ∉ cs → ∀ c ∈ cs, (c != '\n') = true := by
    rintro cs hcs c hc
    exact bne_iff_ne.2 fun h => hcs (h ▸ hc)
  rw [List.nil_append, List.takeWhile_append_of_pos (hne hfirst),
    List.takeWhile_append_of_pos (hne hline)] at htake
  exact ⟨rfl, by simpa using htake.symm⟩

theorem markList_within {mark line : List Char} (hline : '\n' ∉ line) (rest : List Char) :
    markList mark false (line ++ rest) = line ++ markList mark false rest := by
  induction line with
  | nil => rfl
  | cons c cs ih =>
    obtain ⟨hc, hcs⟩ := List.ne_and_not_mem_of_not_mem_cons hline
    rw [List.cons_append, markList, ih hcs, List.cons_append]
    exact fun h => hc h.symm

theorem markList_span {mark line : List Char} (hne : line ≠ []) (hline : '\n' ∉ line) (start : Bool)
    (rest : List Char) :
    markList mark start (line ++ rest) =
      (if start then mark else []) ++ (line ++ markList mark false rest) := by
  cases start with
  | false => exact markList_within hline rest
  | true =>
    cases line with
    | nil => exact absurd rfl hne
    | cons c cs =>
      obtain ⟨hc, hcs⟩ := List.ne_and_not_mem_of_not_mem_cons hline
      rw [List.cons_append, markList, markList_within hcs]
      · rfl
      · exact fun h => hc h.symm

theorem markList_line {mark line rest : List Char} (hne : line ≠ []) (hline : '\n' ∉ line) :
    markList mark true (line ++ '\n' :: rest) =
      mark ++ line ++ '\n' :: markList mark true rest := by
  rw [markList_span hne hline, List.append_assoc]
  rfl

theorem markList_append (mark : List Char) (start : Bool) (a b : List Char) :
    markList mark start (a ++ '\n' :: b) =
      markList mark start a ++ '\n' :: markList mark true b := by
  induction start, a using markList.induct with
  | case1 start => cases start <;> rfl
  | case2 start cs ih => cases start <;> simp [markList, ih]
  | case3 c cs hc ih => simp [markList, ih]
  | case4 c cs hc ih => simp [markList, ih]

theorem terminate_eq {s : String} (h : '\n' ∉ s.toList) : terminate s = s ++ "\n" := by
  have hdrop : s.toList.reverse.dropWhile (· == '\n') = s.toList.reverse := by
    rw [← List.mem_reverse] at h
    cases hlist : s.toList.reverse with
    | nil => rfl
    | cons c cs =>
      rw [hlist] at h
      exact List.dropWhile_cons_of_neg (by simpa using (List.ne_of_not_mem_cons h).symm)
  rw [terminate, hdrop, List.reverse_reverse, ← String.toList_inj]
  simp

theorem IsIndented.ne_nil {depth : Nat} {line : List Char} (h : IsIndented depth line) :
    line ≠ [] := by
  obtain ⟨first, rest, -, rfl⟩ := h
  simp

theorem IsIndented.succ {depth : Nat} {line rest : List Char} {s : Scan}
    (h : IsIndented depth line) (hscan : scan ⟨.code, depth⟩ (line ++ rest) = some s) :
    IsIndented (depth + 1) (indentStep.toList ++ line) := by
  obtain ⟨first, tail, hfirst, rfl⟩ := h
  refine ⟨first, tail, hfirst, ?_⟩
  have hdepth : first = '}' → 0 < depth := by
    rintro rfl
    cases depth with
    | zero => simp [scan, Scan.step, Scan.stepCode] at hscan
    | succ depth => exact depth.succ_pos
  have hstep : indentStep.toList = List.replicate 2 ' ' := by decide
  rw [hstep, ← List.append_assoc, List.replicate_append_replicate]
  congr 2
  by_cases hclose : first = '}'
  · have hpos := hdepth hclose
    rw [if_pos hclose, if_pos hclose]
    omega
  · rw [if_neg hclose, if_neg hclose]
    omega

/-- The text is made of lines that are indented, and the depth goes from the first to the second. -/
inductive Laid : Nat → List Char → Nat → Prop
  | nil (depth : Nat) : Laid depth [] depth
  | cons {depth depth' depth'' : Nat} {line rest : List Char} :
    IsIndented depth line → '\n' ∉ line →
    scan ⟨.code, depth⟩ (line ++ ['\n']) = some ⟨.code, depth'⟩ →
    Laid depth' rest depth'' → Laid depth (line ++ '\n' :: rest) depth''

namespace Laid

variable {depth depth' depth'' : Nat} {a b : List Char}

theorem append (h : Laid depth a depth') (hb : Laid depth' b depth'') :
    Laid depth (a ++ b) depth'' := by
  induction h with
  | nil => exact hb
  | cons hindented hline hscan _ ih =>
    rw [List.append_assoc, List.cons_append]
    exact .cons hindented hline hscan (ih hb)

theorem scan (h : Laid depth a depth') : Text.scan ⟨.code, depth⟩ a = some ⟨.code, depth'⟩ := by
  induction h with
  | nil => rfl
  | cons _ _ hscan _ ih =>
    rw [List.append_cons, scan_append hscan, ih]

theorem endsLine (h : Laid depth a depth') : a = [] ∨ a.getLast? = some '\n' := by
  induction h with
  | nil => exact .inl rfl
  | @cons _ _ _ line rest _ _ _ _ ih =>
    right
    rcases ih with rfl | hrest
    · simp
    · rw [List.getLast?_append, List.getLast?_cons, hrest]
      rfl

theorem line {first : Char} {rest : List Char} (hmargin : depth = 0 ∨ depth = 1 ∧ first = '}')
    (hfirst : first ≠ ' ') (hline : '\n' ∉ first :: rest)
    (hscan : Text.scan ⟨.code, depth⟩ (first :: rest ++ ['\n']) = some ⟨.code, depth'⟩) :
    Laid depth (first :: rest ++ ['\n']) depth' := by
  refine .cons ⟨first, rest, hfirst, ?_⟩ hline hscan (.nil depth')
  rcases hmargin with rfl | ⟨rfl, rfl⟩ <;> simp

theorem succ (h : Laid depth a depth') :
    Laid (depth + 1) (markList indentStep.toList true a) (depth' + 1) := by
  induction h with
  | nil depth => exact .nil (depth + 1)
  | @cons depth depth' depth'' line rest hindented hline hscan _ ih =>
    rw [markList_line hindented.ne_nil hline]
    refine .cons (hindented.succ hscan) (by simp [indentStep, hline]) ?_ ih
    have hblanks : Text.scan ⟨.code, depth + 1⟩ indentStep.toList = some ⟨.code, depth + 1⟩ := rfl
    rw [List.append_assoc, scan_append hblanks]
    exact scan_succ hscan

theorem isIndented (h : Laid depth a depth') {before line after : List Char}
    (hline : IsLine a before line after) :
    ∃ d, Text.scan ⟨.code, depth⟩ before = some ⟨.code, d⟩ ∧ IsIndented d line := by
  induction h generalizing before with
  | nil => simpa using hline.eq
  | @cons depth depth' depth'' first rest hindented hfirst hscan _ ih =>
    rw [List.append_cons] at hline
    rcases hline.append (.inr (by simp)) with ⟨after', hhere, -⟩ | ⟨before', rfl, hbelow⟩
    · obtain ⟨rfl, rfl⟩ := hhere.eq_of_single hfirst
      exact ⟨depth, rfl, hindented⟩
    · obtain ⟨d, hbefore, hd⟩ := ih hbelow
      exact ⟨d, by rw [scan_append hscan, hbefore], hd⟩

end Laid

theorem Laid.concat {depth depth' depth'' : Nat} {a b : String} (ha : Laid depth a.toList depth')
    (hb : Laid depth' b.toList depth'') : Laid depth (a ++ b).toList depth'' := by
  rw [String.toList_append]
  exact ha.append hb

theorem Laid.indent {depth depth' : Nat} {s : String} (h : Laid depth s.toList depth') :
    Laid (depth + 1) (indent s).toList (depth' + 1) := by
  rw [Text.indent, markLines, String.toList_ofList]
  exact h.succ

structure LineEnd (depth : Nat) (s : String) (depth' : Nat) : Prop where
  scan : scan ⟨.code, depth⟩ s.toList = some ⟨.code, depth'⟩
  eq : s.toList.dropLast ++ ['\n'] = s.toList
  line : '\n' ∉ s.toList.dropLast

instance (depth : Nat) (s : String) (depth' : Nat) : Decidable (LineEnd depth s depth') :=
  decidable_of_iff (Text.scan ⟨.code, depth⟩ s.toList = some ⟨.code, depth'⟩ ∧
      s.toList.dropLast ++ ['\n'] = s.toList ∧ '\n' ∉ s.toList.dropLast)
    ⟨fun h => ⟨h.1, h.2.1, h.2.2⟩, fun h => ⟨h.scan, h.eq, h.line⟩⟩

theorem Passes.lineEnd {d d' d'' : Nat} {s t : String} (hs : Passes d s d')
    (ht : LineEnd d' t d'') : LineEnd d (s ++ t) d'' := by
  have hne : t.toList ≠ [] := fun h => by simpa [h] using ht.eq
  refine ⟨?_, ?_, ?_⟩
  · rw [String.toList_append, scan_append hs.scan, ht.scan]
  · rw [String.toList_append, List.dropLast_append_of_ne_nil hne, List.append_assoc, ht.eq]
  · rw [String.toList_append, List.dropLast_append_of_ne_nil hne]
    simp [hs.line, ht.line]

theorem LineEnd.laid {s : String} {depth : Nat} (h : LineEnd 0 s depth)
    (hstart : s.toList.dropLast.head?.any (· != ' ') = true) : Laid 0 s.toList depth := by
  obtain ⟨hscan, heq, hline⟩ := h
  rw [← heq] at hscan ⊢
  cases hlist : s.toList.dropLast with
  | nil => simp [hlist] at hstart
  | cons first rest =>
    rw [hlist] at hscan hstart hline
    exact .line (.inl rfl) (by simpa using hstart) hline hscan

theorem Span.laid {s t : String} {d d' : Nat} (hs : Span s d) (ht : LineEnd d t d') :
    Laid 0 (s ++ t).toList d' := by
  refine (hs.toPasses.lineEnd ht).laid ?_
  have hne : t.toList ≠ [] := fun h => by simpa [h] using ht.eq
  have hstart := hs.start
  rw [String.toList_append, List.dropLast_append_of_ne_nil hne]
  cases hlist : s.toList with
  | nil => simp [hlist] at hstart
  | cons first rest => simpa [hlist] using hstart

theorem laid_close : Laid 1 (Text.line r"}").toList 0 := by
  have hline : Laid 1 ('}' :: [] ++ ['\n']) 0 :=
    .line (.inr ⟨rfl, rfl⟩) (by decide) (by decide) (by decide)
  exact hline

theorem Span.laid_block {head body : String} (hhead : Span head) (hbody : Laid 1 body.toList 1) :
    Laid 0 (Text.line (head ++ r" {") ++ body ++ Text.line r"}").toList 0 := by
  have hopen : Span (head ++ r" {") 1 := hhead.append (by decide)
  exact ((hopen.laid (t := "\n") (by decide)).concat hbody).concat laid_close

def IsArm (s : String) : Prop :=
  ∃ lead body, s = lead ++ Text.line r"{" ++ body ++ r"}" ∧ Inline lead ∧ Laid 1 body.toList 1

def armsAfter : List String → String
  | [] => Text.line r"}"
  | arms => r"} else " ++ " else ".intercalate arms ++ "\n"

theorem intercalate_arms (lead body : String) (arms : List String) :
    " else ".intercalate ((lead ++ Text.line r"{" ++ body ++ r"}") :: arms) ++ "\n" =
      lead ++ Text.line r"{" ++ body ++ armsAfter arms := by
  cases arms with
  | nil =>
    rw [String.intercalate_singleton, String.append_assoc]
    rfl
  | cons a arms =>
    have helse : r"} else " = r"}" ++ " else " := by decide
    rw [String.intercalate_cons_cons, armsAfter, helse]
    · simp only [String.append_assoc]
    · simp

theorem Passes.laid_else {lead : String} (h : Inline lead) :
    Laid 1 (r"} else " ++ lead ++ Text.line r"{").toList 1 := by
  have hlist : (r"} else " ++ lead ++ Text.line r"{").toList =
      '}' :: (" else ".toList ++ lead.toList ++ ['{']) ++ ['\n'] := by simp [Text.line]
  rw [hlist]
  have helse : Text.scan ⟨.code, 1⟩ r"} else ".toList = some {} := by decide
  refine .line (.inr ⟨rfl, rfl⟩) (by decide) (by simp [h.line]) ?_
  rw [← hlist, String.toList_append, String.toList_append, List.append_assoc, scan_append helse,
    scan_append h.scan]
  decide

theorem laid_armsAfter {arms : List String} (h : ∀ a ∈ arms, IsArm a) :
    Laid 1 (armsAfter arms).toList 0 := by
  induction arms with
  | nil => exact laid_close
  | cons a arms ih =>
    obtain ⟨⟨lead, body, rfl, hlead, hbody⟩, harms⟩ := List.forall_mem_cons.1 h
    have heq : armsAfter ((lead ++ Text.line r"{" ++ body ++ r"}") :: arms) =
        r"} else " ++ lead ++ Text.line r"{" ++ body ++ armsAfter arms := by
      rw [armsAfter, String.append_assoc, intercalate_arms]
      · simp only [String.append_assoc]
      · simp
    rw [heq]
    exact (hlead.laid_else.concat hbody).concat (ih harms)

theorem laid_arms {lead body : String} {arms : List String} (hlead : Span lead)
    (hbody : Laid 1 body.toList 1) (harms : ∀ a ∈ arms, IsArm a) :
    Laid 0 (" else ".intercalate ((lead ++ Text.line r"{" ++ body ++ r"}") :: arms) ++ "\n").toList
      0 := by
  rw [intercalate_arms]
  exact ((hlead.laid (by decide)).concat hbody).concat (laid_armsAfter harms)

end BlockCode.Text
