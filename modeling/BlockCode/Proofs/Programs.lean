import BlockCode.Proofs.TidyCode

namespace BlockCode

open Text Render

theorem Rulebook.tidy_builtin {s : Site} (hs : s.IsTidy) {type : String} {rule : Rule}
    (h : builtinRules.lookup type = some rule) : Yields (rule s) Emission.IsTidy := by
  obtain ⟨before, after, hrules, -⟩ := List.lookup_eq_some_iff.1 h
  have hmem : (type, rule) ∈ builtinRules := by simp [hrules]
  have hall : ∀ r ∈ builtinRules, Yields (r.2 s) Emission.IsTidy := by
    simp only [builtinRules, List.forall_mem_cons, List.not_mem_nil, false_implies, implies_true,
      and_true]
    exact ⟨Rules.tidy_conditional hs, Rules.tidy_conditional hs, Rules.tidy_repetition hs,
      Rules.tidy_repetition hs, Rules.tidy_whileLoop hs, Rules.tidy_countingLoop hs,
      Rules.tidy_jump s, Rules.tidy_boolean s, .pure (by decide : Span "None"),
      Rules.tidy_negation hs.hasSpans, Rules.tidy_comparison hs.hasSpans,
      Rules.tidy_logicOperation hs.hasSpans, Rules.tidy_choice hs.hasSpans, Rules.tidy_number s,
      Rules.tidy_arithmetic hs.hasSpans, Rules.tidy_leftOperator hs.hasSpans (by decide) _ _ _,
      Rules.tidy_increment hs, Rules.tidy_text s, Rules.tidy_print hs, Rules.tidy_variableValue s,
      Rules.tidy_assignment hs⟩
  exact hall _ hmem

theorem Setup.tidy_emit {c : Setup} (hc : c.book = .builtin) {s : Site} (hs : s.IsTidy) :
    Yields (c.emit s) BlockText.IsTidy := by
  unfold emit
  split
  · exact yields_throw _
  · next rule hrule =>
    rw [hc, Rulebook.builtin_rule?] at hrule
    refine .bind (yields_report _) fun _ _ =>
      .bind (Rulebook.tidy_builtin hs hrule) fun emission hemission => ?_
    cases emission with
    | statement code =>
      refine .pure ?_
      rw [hs.wrap]
      exact hemission
    | instrumented code => exact .pure hemission
    | expression f => exact .pure hemission

namespace Tree

variable {c : Setup}

mutual

theorem tidy_chain (hc : c.book = .builtin) (ho : c.options.isInstrumented = false) :
    ∀ t : Tree, Yields (t.chain c) IsLaid
  | .missing | .endless => yields_throw _
  | .block head values statements next => by
    have hs : Site.IsTidy ⟨head, c.options, operands c values, chains c statements⟩ :=
      ⟨ho, tidy_operands hc ho values, tidy_chains hc ho statements⟩
    have hnext : ∀ code, IsLaid code → Yields (match next with
        | none => return code
        | some t => return code ++ (← chain c t)) IsLaid := by
      intro code hcode
      cases next with
      | none => exact .pure hcode
      | some t => exact .bind (tidy_chain hc ho t) fun rest hrest => .pure (hcode.concat hrest)
    rw [chain]
    split
    · exact .bind (.pure (.nil 0)) hnext
    · rw [map_eq_pure_bind, bind_assoc]
      refine .bind (Setup.tidy_emit hc hs) fun text htext => .bind (.pure ?_) hnext
      cases text with
      | statement code => exact htext
      | expression f =>
        rw [Site.asStatement, hs.wrap]
        exact Span.laid htext (by decide)

theorem tidy_operand (hc : c.book = .builtin) (ho : c.options.isInstrumented = false) :
    ∀ t : Tree, Yields (t.operand c).text BlockText.IsTidy
  | .missing | .endless => yields_throw _
  | .block head values statements _ => by
    rw [operand]
    exact Setup.tidy_emit hc ⟨ho, tidy_operands hc ho values, tidy_chains hc ho statements⟩

theorem tidy_operands (hc : c.book = .builtin) (ho : c.options.isInstrumented = false) :
    ∀ (vs : List (String × Option Tree)) (input : String) (operand : Operand),
    ((operands c vs).lookup input).join = some operand → Yields operand.text BlockText.IsTidy
  | [], _, _, h => by simp [operands] at h
  | (name, none) :: rest, input, operand, h => by
    rw [operands, ByName.lookup_cons_eq] at h
    split at h
    · cases h
    · exact tidy_operands hc ho rest input operand h
  | (name, some t) :: rest, input, operand, h => by
    rw [operands, ByName.lookup_cons_eq] at h
    split at h
    · cases h
      exact tidy_operand hc ho t
    · exact tidy_operands hc ho rest input operand h

theorem tidy_chains (hc : c.book = .builtin) (ho : c.options.isInstrumented = false) :
    ∀ (vs : List (String × Option Tree)) (input : String) (code : Render String),
    ((chains c vs).lookup input).join = some code → Yields code IsLaid
  | [], _, _, h => by simp [chains] at h
  | (name, none) :: rest, input, code, h => by
    rw [chains, ByName.lookup_cons_eq] at h
    split at h
    · cases h
    · exact tidy_chains hc ho rest input code h
  | (name, some t) :: rest, input, code, h => by
    rw [chains, ByName.lookup_cons_eq] at h
    split at h
    · cases h
      exact tidy_chain hc ho t
    · exact tidy_chains hc ho rest input code h

end

end Tree

theorem isLaid_join {parts : List String} (h : ∀ code ∈ parts, IsLaid code) :
    IsLaid (String.join parts) := by
  induction parts with
  | nil => exact .nil 0
  | cons code parts ih =>
    obtain ⟨hcode, hparts⟩ := List.forall_mem_cons.1 h
    rw [String.join_cons]
    exact hcode.concat (ih hparts)

theorem Text.inline_intercalate {parts : List String} (h : ∀ part ∈ parts, Inline part) :
    Inline (", ".intercalate parts) := by
  induction parts with
  | nil => decide
  | cons part parts ih =>
    obtain ⟨hpart, hparts⟩ := List.forall_mem_cons.1 h
    cases parts with
    | nil => simpa using hpart
    | cons part' parts =>
      rw [String.intercalate_cons_cons]
      exact (hpart.append (by decide)).append (ih hparts)

theorem span_declarationCode {names : List String} (h : ∀ name ∈ names, IsIdentifier name)
    {code : String} (hcode : declarationCode names = some code) : Span code := by
  unfold declarationCode at hcode
  split at hcode
  · cases hcode
  · next name =>
    cases hcode
    have hlet : Span "let mut " := by decide
    exact (hlet.append (h name List.mem_cons_self).span.toPasses).append (by decide)
  · cases hcode
    have hlet : Span "let (" := by decide
    have hmut : Inline "mut " := by decide
    refine (hlet.append (inline_intercalate fun part hpart => ?_)).append (by decide)
    obtain ⟨name, hname, rfl⟩ := List.mem_map.1 hpart
    exact hmut.append (h name hname).span.toPasses

theorem isLaid_preamble {names : List String} (h : ∀ name ∈ names, IsIdentifier name) :
    IsLaid (assemble ((declarationCode names).toList.map (declarationKey, ·)) "") := by
  cases hcode : declarationCode names with
  | none => exact .nil 0
  | some code =>
    have hspan := span_declarationCode h hcode
    have hassemble : assemble [(declarationKey, code)] "" = code ++ "\n" := by
      simp [assemble, Text.terminate_eq hspan.line]
    change IsLaid (assemble [(declarationKey, code)] "")
    rw [hassemble]
    exact hspan.laid (by decide)

/-- Whole lines with an empty one between two parts, and not before or after all of them. -/
structure Text.IsLaidOut (preamble body code : String) : Prop where
  ends : code = "" ∨ code.toList.getLast? = some '\n'
  scan : scan {} code.toList = some {}
  lines : ∀ before line after, IsLine code.toList before line after →
    (∃ depth, Text.scan {} before = some ⟨.code, depth⟩ ∧ IsIndented depth line) ∨
    (line = [] ∧ before = preamble.toList ∧ after = body.toList ∧ preamble ≠ "" ∧ body ≠ "")

theorem Text.Laid.isLaidOut {code : String} (h : IsLaid code) (preamble body : String) :
    IsLaidOut preamble body code where
  ends := by simpa using h.endsLine
  scan := h.scan
  lines _ _ _ hline := .inl (h.isIndented hline)

theorem Text.isLaidOut_append {preamble body : String} (hpreamble : IsLaid preamble)
    (hbody : IsLaid body) (hne : preamble ≠ "") (hne' : body ≠ "") :
    IsLaidOut preamble body (preamble ++ "\n" ++ body) := by
  have hbreak : Text.scan {} (preamble.toList ++ ['\n']) = some {} := by
    rw [scan_append hpreamble.scan]
    rfl
  have hlist : (preamble ++ "\n" ++ body).toList = preamble.toList ++ ['\n'] ++ body.toList := by
    simp
  refine ⟨.inr ?_, ?_, fun before line after hline => ?_⟩
  · rw [hlist, List.getLast?_append, (hbody.endsLine).resolve_left (by simpa using hne')]
    rfl
  · rw [hlist, scan_append hbreak, hbody.scan]
  · rw [hlist, List.append_assoc] at hline
    rcases hline.append hpreamble.endsLine with ⟨after', hhead, -⟩ | ⟨before', rfl, hrest⟩
    · exact .inl (hpreamble.isIndented hhead)
    · rcases hrest.append (.inr rfl) with ⟨after', hblank, rfl⟩ | ⟨before'', rfl, hbelow⟩
      · have hbreak : IsLine ([] ++ ['\n']) before' line after' := hblank
        obtain ⟨rfl, rfl⟩ := hbreak.eq_of_single (by simp)
        have hafter : after' = [] := by simpa using hblank.eq.symm
        exact .inr ⟨rfl, by simp, by simp [hafter], hne, hne'⟩
      · obtain ⟨depth, hscan, hindented⟩ := hbody.isIndented hbelow
        refine .inl ⟨depth, ?_, hindented⟩
        rw [← List.append_assoc, scan_append hbreak, hscan]

theorem Text.isLaidOut_assemble {definitions : List (String × String)} {body : String}
    (hpreamble : IsLaid (assemble definitions "")) (hbody : IsLaid body) :
    IsLaidOut (assemble definitions "") body (assemble definitions body) := by
  unfold assemble at hpreamble ⊢
  generalize String.join (definitions.map fun d => terminate d.2) = head at hpreamble ⊢
  by_cases hhead : head = ""
  · simpa [hhead] using hbody.isLaidOut _ _
  · simp only [String.isEmpty_iff, hhead, if_false, if_true] at hpreamble ⊢
    split
    · exact hpreamble.isLaidOut _ _
    · next hne => exact isLaidOut_append hpreamble hbody hhead hne

/--
Where code is generated without further code from the options, it is laid out, whatever texts and
names the blocks hold.
-/
theorem Setup.isLaidOut_of_generate {c : Setup} (hc : c.book = .builtin)
    (ho : c.options.isInstrumented = false) {w : Workspace} (hw : w.Acyclic) {code : String}
    (hcode : c.generate w = .ok code) :
    let definitions := ((c.program w).run (c.start w)).2.definitions
    ∃ body, code = assemble definitions body ∧
      IsLaidOut (assemble definitions "") body code := by
  obtain ⟨ids, hids⟩ := referencedVariables_ok hw.isWhole_rootTrees
  obtain ⟨own, used, p, hopened, hs, hdeclares⟩ := run_opened hc hids
  cases hbody : (w.rootTrees.mapM (Tree.chain c)).run p with
  | mk result p' =>
    obtain ⟨events, hprogram⟩ := run_program hopened hbody
    change ((c.program w).run (c.start w)).1 = .ok code at hcode
    rw [hprogram] at hcode ⊢
    cases result with
    | error e => cases hcode
    | ok parts =>
      cases hcode
      obtain ⟨hcont, -, hparts⟩ := (Yields.mapM fun t _ => t.tidy_chain hc ho) p parts p' hs hbody
      have hhead : IsLaid (assemble p'.definitions "") := by
        rw [hcont.definitions, hdeclares.definitions]
        exact isLaid_preamble fun name hname =>
          hs.used_identifier name (hdeclares.mem_used hs hname)
      exact ⟨_, rfl, isLaidOut_assemble hhead (isLaid_join hparts)⟩

theorem Setup.isLaidOut_of_generate_loop :
    let odd := r#"}
" // {"#
    let w : Workspace := {
      blocks := #[
        { id := "text", type := "text", fields := ⟨[("TEXT", .text odd)]⟩ },
        { id := "print", type := "text_print", values := ⟨[("TEXT", some 0)]⟩ },
        { id := "set", type := "variables_set", fields := ⟨[("VAR", .variable "x")]⟩ },
        { id := "if", type := "controls_if", statements := ⟨[("DO0", some 1), ("ELSE", some 2)]⟩ },
        { id := "loop", type := "controls_repeat", fields := ⟨[("TIMES", .text "3")]⟩,
          statements := ⟨[("DO", some 3)]⟩ }],
      roots := [4], variableNames := [("x", "a\nb")] }
    let c : Setup := {}
    let definitions := ((c.program w).run (c.start w)).2.definitions
    let code := r#"let mut a_b;

for count in 0..3 {
  if false {
    println!("{}", "}\n\" // {");
  } else {
    a_b = 0;
  }
}
"#
    w.Acyclic ∧ c.generate w = .ok code ∧ ∃ body, code = assemble definitions body ∧
      IsLaidOut (assemble definitions "") body code := by
  intro odd w c definitions code
  have hw : w.Acyclic := Workspace.acyclic_of_rank id (by decide) (by decide)
  have hcode : c.generate w = .ok code := by decide +kernel
  exact ⟨hw, hcode, Setup.isLaidOut_of_generate rfl rfl hw hcode⟩

end BlockCode
