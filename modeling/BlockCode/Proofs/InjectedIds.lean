import BlockCode.Proofs.Indentation
import BlockCode.Proofs.Insertions
import BlockCode.Proofs.Literals

namespace BlockCode

/-- The code is one literal on one line that is read as the text, whatever comes after it. -/
structure Text.IsLiteral (text code : List Char) : Prop where
  line : '\n' ∉ code ∧ '\r' ∉ code
  reads : ∃ body, code = '"' :: body ∧ ∀ rest, literalBody? (body ++ rest) = some (text, rest)

def escapeIdChar (c : Char) : List Char := if c == '\\' || c == '"' then ['\\', c] else [c]

theorem quotedId_eq (id : String) :
    quotedId id = '"' :: (id.toList.flatMap escapeIdChar ++ ['"']) := rfl

theorem mem_quotedId {id : String} {c : Char} (h : c ∈ id.toList) : c ∈ quotedId id := by
  have hc : c ∈ escapeIdChar c := by
    unfold escapeIdChar
    split <;> simp
  rw [quotedId_eq, List.mem_cons, List.mem_append, List.mem_flatMap]
  exact .inr (.inl ⟨c, h, hc⟩)

theorem literalBody_escapeIdChar {c : Char} (hc : c ≠ '\r') (cs : List Char) :
    Text.literalBody? (escapeIdChar c ++ cs) =
      (Text.literalBody? cs).map fun (s, rest) => (c :: s, rest) := by
  by_cases hslash : c = '\\'
  · subst hslash
    rfl
  by_cases hquote : c = '"'
  · subst hquote
    rfl
  have hplain : escapeIdChar c = [c] := by simp [escapeIdChar, hslash, hquote]
  rw [hplain, List.singleton_append, Text.literalBody?]
  · simp [hslash, hc]
  · exact hquote
  · exact fun _ _ h => absurd h hslash

theorem literalBody_escapeId {s : List Char} (hs : '\r' ∉ s) (rest : List Char) :
    Text.literalBody? (s.flatMap escapeIdChar ++ '"' :: rest) = some (s, rest) := by
  induction s with
  | nil => rfl
  | cons c s ih =>
    obtain ⟨hc, hs⟩ := List.ne_and_not_mem_of_not_mem_cons hs
    rw [List.flatMap_cons, List.append_assoc, literalBody_escapeIdChar hc.symm, ih hs]
    rfl

theorem isLiteral_quotedId_iff (id : String) :
    Text.IsLiteral id.toList (quotedId id) ↔ '\n' ∉ id.toList ∧ '\r' ∉ id.toList := by
  constructor
  · rintro ⟨⟨hbreak, hreturn⟩, -⟩
    exact ⟨fun h => hbreak (mem_quotedId h), fun h => hreturn (mem_quotedId h)⟩
  · rintro ⟨hbreak, hreturn⟩
    refine ⟨⟨not_mem_quotedId (by decide) hbreak, not_mem_quotedId (by decide) hreturn⟩,
      _, quotedId_eq id, fun rest => ?_⟩
    rw [List.append_assoc]
    exact literalBody_escapeId hreturn rest

def bareInIds : List Char := ['\n', '\r', '\t', '\x00']

theorem escapeChar_eq {c : Char} (h : c ∉ bareInIds) : Text.escapeChar c = escapeIdChar c := by
  simp only [bareInIds, List.mem_cons, List.not_mem_nil, or_false, not_or] at h
  unfold Text.escapeChar
  split <;> simp_all [escapeIdChar]

theorem not_mem_quote {c : Char} (hc : c ∈ bareInIds) (text : String) :
    c ∉ (Text.quote text).toList := by
  have hescaped : ∀ d, c ∉ Text.escapeChar d := by
    intro d
    by_cases hd : d ∈ bareInIds
    · have hall : ∀ c ∈ bareInIds, ∀ d ∈ bareInIds, c ∉ Text.escapeChar d := by
        simp [bareInIds, Text.escapeChar]
      exact hall c hc d hd
    · have hne : c ≠ d := ne_of_mem_of_not_mem hc hd
      have hslash : c ≠ '\\' := ne_of_mem_of_not_mem hc (by decide)
      rw [escapeChar_eq hd, escapeIdChar]
      split <;> simp [hne, hslash]
  have hquote : c ≠ '"' := ne_of_mem_of_not_mem hc (by decide)
  simp [Text.quote, hquote, hescaped]

theorem quotedId_eq_quote_iff (id : String) :
    quotedId id = (Text.quote id).toList ↔ ∀ c ∈ bareInIds, c ∉ id.toList := by
  constructor
  · intro heq c hc hmem
    exact not_mem_quote hc id (heq ▸ mem_quotedId hmem)
  · intro h
    have hescape : id.toList.flatMap escapeIdChar = id.toList.flatMap Text.escapeChar :=
      List.flatMap_congr fun c hc => (escapeChar_eq fun hbare => h c hbare hc).symm
    rw [quotedId_eq, Text.quote, String.toList_ofList, hescape]

/-- The text is the template with the value in every place of a block id. -/
def Filled (value template text : List Char) : Prop :=
  ∃ parts, template = idPlace.intercalate parts ∧ (∀ part ∈ parts, ¬ idPlace <:+: part) ∧
    text = value.intercalate parts

theorem exists_parts (template : List Char) : ∃ part parts,
    template = idPlace.intercalate (part :: parts) ∧ ∀ p ∈ part :: parts, ¬ idPlace <:+: p := by
  induction template using fillList.induct with
  | case1 cs ih =>
    obtain ⟨part, parts, rfl, hparts⟩ := ih
    exact ⟨[], part :: parts, rfl, List.forall_mem_cons.2 ⟨by decide, hparts⟩⟩
  | case2 c cs hnot ih =>
    obtain ⟨part, parts, hcs, hparts⟩ := ih
    obtain ⟨hpart, hrest⟩ := List.forall_mem_cons.1 hparts
    refine ⟨c :: part, parts, ?_, List.forall_mem_cons.2 ⟨fun hplace => ?_, hrest⟩⟩
    · rw [hcs]
      cases parts <;> simp
    · rcases List.infix_cons_iff.1 hplace with hstart | hlater
      · -- The part begins what follows, so that a place at its start is one in the template.
        obtain ⟨rfl, hone⟩ := List.cons_prefix_cons.1 hstart
        have hbegin : part <+: cs := by
          rw [hcs]
          cases parts <;> simp
        obtain ⟨rest, rfl⟩ := hone.trans hbegin
        exact hnot rest rfl rfl
      · exact hpart hlater
  | case3 => exact ⟨[], [], rfl, by decide⟩

section

variable {value mark : List Char}

theorem fillList_append {a b : List Char} (h : a.getLast? = some '%' → b.head? ≠ some '1') :
    fillList value (a ++ b) = fillList value a ++ fillList value b := by
  induction a using fillList.induct with
  | case1 cs ih =>
    have hcs : cs.getLast? = some '%' → b.head? ≠ some '1' :=
      fun hlast => h (by simp [List.getLast?_cons, hlast])
    rw [List.cons_append, List.cons_append, fillList, fillList, ih hcs, List.append_assoc]
  | case2 c cs hnot ih =>
    have hcs : cs.getLast? = some '%' → b.head? ≠ some '1' :=
      fun hlast => h (by simp [List.getLast?_cons, hlast])
    have hnot' : ∀ rest, c = '%' → cs ++ b = '1' :: rest → False := by
      rintro rest rfl hrest
      cases cs with
      | nil =>
        rw [List.nil_append] at hrest
        exact h rfl (by rw [hrest, List.head?_cons])
      | cons d ds => exact hnot ds rfl (by rw [(List.cons.inj hrest).1])
    rw [List.cons_append, fillList, fillList, ih hcs, List.cons_append]
    · exact hnot
    · exact hnot'
  | case3 => rfl

theorem fillList_of_not_infix {cs : List Char} (h : ¬ idPlace <:+: cs) :
    fillList value cs = cs := by
  induction cs using fillList.induct with
  | case1 cs ih => exact absurd (List.prefix_append idPlace cs).isInfix h
  | case2 c cs hnot ih =>
    rw [fillList, ih fun hplace => h (hplace.trans (List.suffix_cons c cs).isInfix)]
    exact hnot
  | case3 => rfl

theorem fillList_intercalate {parts : List (List Char)} (h : ∀ part ∈ parts, ¬ idPlace <:+: part) :
    fillList value (idPlace.intercalate parts) = value.intercalate parts := by
  induction parts with
  | nil => rfl
  | cons part parts ih =>
    obtain ⟨hpart, hparts⟩ := List.forall_mem_cons.1 h
    cases parts with
    | nil => simpa using fillList_of_not_infix hpart
    | cons next parts =>
      rw [List.intercalate_cons_cons, List.intercalate_cons_cons, ← ih hparts, List.append_assoc,
        fillList_append fun _ => by simp [idPlace], fillList_of_not_infix hpart, List.append_assoc]
      rfl

theorem filled_iff {template text : List Char} :
    Filled value template text ↔ text = fillList value template := by
  constructor
  · rintro ⟨parts, rfl, hparts, rfl⟩
    exact (fillList_intercalate hparts).symm
  · rintro rfl
    obtain ⟨part, parts, rfl, hparts⟩ := exists_parts template
    exact ⟨_, rfl, hparts, fillList_intercalate hparts⟩

theorem fillList_mark (hmark : '%' ∉ mark) (start : Bool) (cs : List Char) :
    fillList value ((if start then mark else []) ++ cs) =
      (if start then mark else []) ++ fillList value cs := by
  have hlead : '%' ∉ if start then mark else [] := by
    cases start
    · exact List.not_mem_nil
    · exact hmark
  rw [fillList_append fun h => absurd (List.mem_of_getLast? h) hlead,
    fillList_of_not_infix fun h => hlead (h.subset List.mem_cons_self)]

theorem head_markList (mark cs : List Char) :
    (Text.markList mark false cs).head? = cs.head? := by
  cases cs with
  | nil => rfl
  | cons c cs =>
    by_cases hc : c = '\n'
    · subst hc
      rfl
    · rw [Text.markList]
      · rfl
      · exact hc

theorem fillList_markList (hvalue : '\n' ∉ value) (hne : value ≠ []) (hmark : '%' ∉ mark)
    (start : Bool) (cs : List Char) :
    fillList value (Text.markList mark start cs) =
      Text.markList mark start (fillList value cs) := by
  induction cs using fillList.induct generalizing start with
  | case1 cs ih =>
    calc fillList value (Text.markList mark start (idPlace ++ cs))
        = fillList value ((if start then mark else []) ++
            (idPlace ++ Text.markList mark false cs)) := by
          rw [Text.markList_span (by decide) (by decide)]
      _ = (if start then mark else []) ++ (value ++ fillList value (Text.markList mark false cs)) :=
          fillList_mark hmark start _
      _ = Text.markList mark start (value ++ fillList value cs) := by
          rw [ih, Text.markList_span hne hvalue]
  | case2 c cs hnot ih =>
    have hfill : fillList value (c :: cs) = c :: fillList value cs := by
      rw [fillList]
      exact hnot
    by_cases hc : c = '\n'
    · subst hc
      rw [hfill, Text.markList, Text.markList, fillList, ih]
      exact fun _ h => absurd h (by decide)
    · have hspan : ∀ rest, Text.markList mark start (c :: rest) =
          (if start then mark else []) ++ (c :: Text.markList mark false rest) :=
        Text.markList_span (List.cons_ne_nil c []) (by simpa using Ne.symm hc) start
      have hnext : fillList value (c :: Text.markList mark false cs) =
          c :: fillList value (Text.markList mark false cs) := by
        rw [fillList]
        intro rest hplace hrest
        obtain ⟨rest', hcs⟩ := List.head?_eq_some_iff.1
          ((head_markList mark cs).symm.trans (List.head?_eq_some_iff.2 ⟨rest, hrest⟩))
        exact hnot rest' hplace hcs
      rw [hspan, fillList_mark hmark, hnext, ih, hfill, hspan]
  | case3 => cases start <;> rfl

theorem fillList_ne_nil (hne : value ≠ []) {cs : List Char} (hcs : cs ≠ []) :
    fillList value cs ≠ [] := by
  cases cs using fillList.fun_cases with
  | case1 cs => simp [fillList, hne]
  | case2 c cs hnot =>
    rw [fillList]
    · exact List.cons_ne_nil _ _
    · exact hnot
  | case3 => exact absurd rfl hcs

theorem getLast_fillList (hvalue : '\n' ∉ value) (hne : value ≠ []) {cs : List Char}
    (h : cs.getLast? ≠ some '\n') : (fillList value cs).getLast? ≠ some '\n' := by
  induction cs using fillList.induct with
  | case1 cs ih =>
    have hcs : cs.getLast? ≠ some '\n' := fun hlast => h (by simp [List.getLast?_cons, hlast])
    rw [fillList, List.getLast?_append, ne_eq, Option.or_eq_some_iff, not_or, not_and]
    exact ⟨ih hcs, fun _ hlast => hvalue (List.mem_of_getLast? hlast)⟩
  | case2 c cs hnot ih =>
    rw [fillList]
    · cases cs with
      | nil => exact h
      | cons d ds =>
        obtain ⟨e, es, hfill⟩ := List.exists_cons_of_ne_nil
          (fillList_ne_nil hne (List.cons_ne_nil d ds))
        rw [hfill] at ih ⊢
        rw [List.getLast?_cons_cons] at h ⊢
        exact ih h
    · exact hnot
  | case3 => exact h

theorem rdropWhile_fillList (hvalue : '\n' ∉ value) (hne : value ≠ []) (cs : List Char) :
    (fillList value cs).rdropWhile (· == '\n') = fillList value (cs.rdropWhile (· == '\n')) := by
  induction cs using List.reverseRecOn with
  | nil => rfl
  | append_singleton cs c ih =>
    by_cases hc : c = '\n'
    · subst hc
      have hfill : fillList value (cs ++ ['\n']) = fillList value cs ++ ['\n'] :=
        fillList_append fun _ => by simp
      rw [hfill, List.rdropWhile_concat_pos _ _ _ rfl, List.rdropWhile_concat_pos _ _ _ rfl, ih]
    · have hlast : (fillList value (cs ++ [c])).getLast? ≠ some '\n' :=
        getLast_fillList hvalue hne (by simpa using hc)
      rw [List.rdropWhile_concat_neg _ _ _ (by simpa using hc), List.rdropWhile_eq_self_iff]
      intro hnil hbreak
      exact hlast (by rw [List.getLast?_eq_some_getLast hnil, beq_iff_eq.1 hbreak])

end

theorem quotedId_ne_nil (id : String) : quotedId id ≠ [] := List.cons_ne_nil _ _

theorem terminate_fillTemplate {id : String} (hid : '\n' ∉ id.toList) (template : String) :
    Text.terminate (fillTemplate template id) = fillTemplate (Text.terminate template) id := by
  have hquoted : '\n' ∉ quotedId id := not_mem_quotedId (by decide) hid
  have hdrop := rdropWhile_fillList hquoted (quotedId_ne_nil id) template.toList
  have hfill : ∀ cs, fillList (quotedId id) (cs ++ ['\n']) = fillList (quotedId id) cs ++ ['\n'] :=
    fun _ => fillList_append fun _ => by simp
  rw [List.rdropWhile, List.rdropWhile] at hdrop
  rw [Text.terminate, Text.terminate, fillTemplate, fillTemplate, String.toList_ofList,
    String.toList_ofList, hdrop, hfill]

theorem indent_fillTemplate {id : String} (hid : '\n' ∉ id.toList) (depth : Nat)
    (template : String) :
    Text.indent^[depth] (fillTemplate template id) =
      fillTemplate (Text.indent^[depth] template) id := by
  induction depth with
  | zero => rfl
  | succ depth ih =>
    have hmark : '%' ∉ Text.indentStep.toList := by decide
    have hmarked := fillList_markList (not_mem_quotedId (by decide) hid) (quotedId_ne_nil id) hmark
      true (Text.indent^[depth] template).toList
    rw [Function.iterate_succ_apply', Function.iterate_succ_apply', ih, Text.indent, Text.indent,
      Text.markLines, Text.markLines, fillTemplate, fillTemplate, String.toList_ofList,
      String.toList_ofList, hmarked]

namespace Text

theorem indent_lines {a : String} (h : a = "" ∨ IsTerminated a) :
    indent a = "" ∨ IsTerminated (indent a) := by
  rcases h with rfl | h
  · exact .inl rfl
  · obtain ⟨cs, hcs⟩ := List.getLast?_eq_some_iff.1 h
    right
    rw [IsTerminated, indent, markLines, String.toList_ofList, hcs, markList_append]
    simp [markList]

theorem iterate_indent_lines {a : String} (h : a = "" ∨ IsTerminated a) (depth : Nat) :
    indent^[depth] a = "" ∨ IsTerminated (indent^[depth] a) := by
  induction depth with
  | zero => exact h
  | succ depth ih =>
    rw [Function.iterate_succ_apply']
    exact indent_lines ih

theorem indent_append {a : String} (h : a = "" ∨ IsTerminated a) (b : String) :
    indent (a ++ b) = indent a ++ indent b :=
  markLines_append indentStep h b

theorem iterate_indent_append {a : String} (h : a = "" ∨ IsTerminated a) (b : String)
    (depth : Nat) : indent^[depth] (a ++ b) = indent^[depth] a ++ indent^[depth] b := by
  induction depth with
  | zero => rfl
  | succ depth ih =>
    rw [Function.iterate_succ_apply', ih, indent_append (iterate_indent_lines h depth),
      Function.iterate_succ_apply', Function.iterate_succ_apply']

end Text

namespace Site

def insertedAt (s : Site) (depth : Nat) (template? : Option String) : String :=
  (template?.map fun template => Text.indent^[depth] (s.instrument template)).getD ""

variable {s : Site}

theorem insertedAt_lines (s : Site) (depth : Nat) (template? : Option String) :
    s.insertedAt depth template? = "" ∨ Text.IsTerminated (s.insertedAt depth template?) := by
  cases template? with
  | none => exact .inl rfl
  | some template =>
    exact Text.iterate_indent_lines (.inr (Text.isTerminated_terminate _)) depth

theorem indent_insertedAt (s : Site) (depth n : Nat) (template? : Option String) :
    Text.indent^[n] (s.insertedAt depth template?) = s.insertedAt (depth + n) template? := by
  cases template? with
  | none => exact Function.iterate_fixed rfl n
  | some template =>
    rw [insertedAt, insertedAt, Option.map_some, Option.map_some, Option.getD_some,
      Option.getD_some, Nat.add_comm, Function.iterate_add_apply]

theorem indent_around_insertedAt (s : Site) {code : String}
    (hcode : code = "" ∨ Text.IsTerminated code) (depth n : Nat) (template? : Option String)
    (rest : String) :
    Text.indent^[n] (code ++ s.insertedAt depth template? ++ rest) =
      Text.indent^[n] code ++ s.insertedAt (depth + n) template? ++ Text.indent^[n] rest := by
  rw [String.append_assoc, Text.iterate_indent_append hcode,
    Text.iterate_indent_append (s.insertedAt_lines depth template?), indent_insertedAt,
    String.append_assoc]

theorem insertedAt_eq (hid : '\n' ∉ s.head.id.toList) (depth : Nat) (template : String) :
    s.insertedAt depth (some template) =
      fillTemplate (Text.indent^[depth] (Text.terminate template)) s.head.id := by
  rw [insertedAt, Option.map_some, Option.getD_some, instrument, terminate_fillTemplate hid,
    indent_fillTemplate hid]

theorem wrap_eq_insertedAt (s : Site) (code : String) :
    s.wrap code =
      s.insertedAt 0 s.options.before ++ code ++ s.insertedAt 0 s.options.after := rfl

theorem trapped_eq_insertedAt (s : Site) (body : String) :
    s.trapped body = s.insertedAt 1 s.options.after ++ s.insertedAt 1 s.options.trap ++ body ++
      s.insertedAt 1 s.options.before := by
  simp only [trapped, before?, after?, trap?, Option.map_map]
  rfl

theorem instrument_place (s : Site) :
    (s.instrument "%1").toList = quotedId s.head.id ++ ['\n'] := by
  have hfill : (fillTemplate "%1" s.head.id).toList = quotedId s.head.id := by
    rw [fillTemplate, String.toList_ofList]
    exact List.append_nil _
  have hdrop : (quotedId s.head.id).rdropWhile (· == '\n') = quotedId s.head.id :=
    List.rdropWhile_concat_neg _ _ _ (by decide)
  rw [List.rdropWhile] at hdrop
  rw [instrument, Text.terminate, String.toList_ofList, hfill, hdrop]

/--
Every place of the block id in the options' code has a literal in it that is read as the id, at
every depth, just if there is no line break and no carriage return in the id.
-/
theorem injected_literals (s : Site) :
    ((∀ depth template, ∃ code, Text.IsLiteral s.head.id.toList code ∧
        Filled code (Text.indent^[depth] (Text.terminate template)).toList
          (s.insertedAt depth (some template)).toList) ↔
      '\n' ∉ s.head.id.toList ∧ '\r' ∉ s.head.id.toList) ∧
    (quotedId s.head.id = (Text.quote s.head.id).toList ↔
      ∀ c ∈ bareInIds, c ∉ s.head.id.toList) ∧
    (∀ code, s.wrap code =
        s.insertedAt 0 s.options.before ++ code ++ s.insertedAt 0 s.options.after ∧
      s.trapped code = s.insertedAt 1 s.options.after ++ s.insertedAt 1 s.options.trap ++ code ++
        s.insertedAt 1 s.options.before) ∧
    ∀ code, code = "" ∨ Text.IsTerminated code → ∀ depth n template? rest,
      Text.indent^[n] (code ++ s.insertedAt depth template? ++ rest) =
        Text.indent^[n] code ++ s.insertedAt (depth + n) template? ++ Text.indent^[n] rest := by
  refine ⟨⟨fun h => ?_, ?_⟩, quotedId_eq_quote_iff _,
    fun code => ⟨s.wrap_eq_insertedAt code, s.trapped_eq_insertedAt code⟩,
    fun code hcode => s.indent_around_insertedAt hcode⟩
  · -- The template that is nothing but a place shows the literal by itself.
    obtain ⟨code, hliteral, hfilled⟩ := h 0 "%1"
    have hcode : quotedId s.head.id ++ ['\n'] = code ++ ['\n'] :=
      s.instrument_place.symm.trans (filled_iff.1 hfilled)
    rw [← (List.append_left_inj _).1 hcode] at hliteral
    exact (isLiteral_quotedId_iff _).1 hliteral
  · rintro ⟨hbreak, hreturn⟩ depth template
    refine ⟨quotedId s.head.id, (isLiteral_quotedId_iff _).2 ⟨hbreak, hreturn⟩, filled_iff.2 ?_⟩
    rw [insertedAt_eq hbreak, fillTemplate, String.toList_ofList]

theorem injected_literals_loop :
    let s : Site := {
      head := { id := "\"%1\t\\", type := "controls_whileUntil" }
      options := { before := some "log(%1, %1);\n\n", trap := some "  at(%1)\n%1" } }
    let lines := "    log(\"\\\"%1\t\\\\\", \"\\\"%1\t\\\\\");\n"
    let trap := "      at(\"\\\"%1\t\\\\\")\n    \"\\\"%1\t\\\\\"\n"
    (∀ depth template, ∃ code, Text.IsLiteral "\"%1\t\\".toList code ∧
      Filled code (Text.indent^[depth] (Text.terminate template)).toList
        (s.insertedAt depth (some template)).toList) ∧
    quotedId s.head.id ≠ (Text.quote s.head.id).toList ∧
    Text.indent (s.trapped "go();\n") = trap ++ "  go();\n" ++ lines := by
  intro s lines trap
  obtain ⟨hliteral, hquote, hcode, haround⟩ := s.injected_literals
  refine ⟨hliteral.2 (by decide), fun heq => ?_, ?_⟩
  · exact hquote.1 heq '\t' (by decide) (by decide)
  · have hgo : Text.IsTerminated
        (s.insertedAt 1 none ++ s.insertedAt 1 s.options.trap ++ "go();\n") :=
      .prepend (by decide) _
    have hindent := haround _ (.inr hgo) 1 1 s.options.before ""
    rw [String.append_empty, ← (hcode "go();\n").2] at hindent
    exact hindent.trans (by decide +kernel)

end Site

/-- A line break in an id is one in the code, and what follows it is indented as a line of code. -/
theorem Setup.generate_split_literal :
    let w : Workspace := {
      blocks := #[
        { id := "a\nb", type := "text_print" },
        { id := "w", type := "controls_whileUntil", statements := ⟨[("DO", some 0)]⟩ }],
      roots := [1] }
    let c : Setup := { options := { before := some "trace(%1);" } }
    let line := "  trace(\"a\n  b\");\n"
    c.generate w = .ok (r#"trace("w");
loop {
"# ++ line ++ r#"  println!();
  trace("w");
}
"#) ∧
      Text.literalBody? "a\n  b\");\n".toList = some ("a\n  b".toList, ");\n".toList) ∧
      ∀ code, Text.IsLiteral "a\nb".toList code →
        ¬ Filled code "  trace(%1);\n".toList line.toList := by
  intro w c line
  refine ⟨by decide +kernel, by decide, fun code hliteral hfilled => ?_⟩
  have hline : line.toList = "  trace(".toList ++ ("\"a\n  b\"".toList ++ ");\n".toList) := by
    decide
  have hfill : fillList code "  trace(%1);\n".toList =
      "  trace(".toList ++ (code ++ ");\n".toList) := rfl
  have heq := filled_iff.1 hfilled
  rw [hline, hfill, List.append_right_inj, List.append_left_inj] at heq
  exact hliteral.line.1 (heq ▸ by decide)

end BlockCode
