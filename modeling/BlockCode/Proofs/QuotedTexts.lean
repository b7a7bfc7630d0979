import BlockCode.Proofs.InjectedIds
import BlockCode.Proofs.Lexing

namespace BlockCode.Text

def slashesAtEnd (cs : List Char) : Nat := (cs.rtakeWhile (· == '\\')).length

theorem slashesAtEnd_slash (cs : List Char) :
    slashesAtEnd (cs ++ ['\\']) = slashesAtEnd cs + 1 := by
  rw [slashesAtEnd, List.rtakeWhile_concat_pos _ _ _ rfl, List.length_append]
  rfl

theorem slashesAtEnd_of_ne (cs : List Char) {c : Char} (h : c ≠ '\\') :
    slashesAtEnd (cs ++ [c]) = 0 := by
  rw [slashesAtEnd, List.rtakeWhile_concat_neg _ _ _ (by simpa using h)]
  rfl

theorem escapeChar_cases (c : Char) : escapeChar c = ['\\', '\\'] ∨
    (∃ d, d ≠ '\\' ∧ escapeChar c = ['\\', d]) ∨ (c ≠ '\\' ∧ c ≠ '"' ∧ escapeChar c = [c]) := by
  unfold escapeChar
  split
  · exact .inl rfl
  · exact .inr (.inl ⟨'"', by decide, rfl⟩)
  · exact .inr (.inl ⟨'n', by decide, rfl⟩)
  · exact .inr (.inl ⟨'r', by decide, rfl⟩)
  · exact .inr (.inl ⟨'t', by decide, rfl⟩)
  · exact .inr (.inl ⟨'0', by decide, rfl⟩)
  · next hslash hquote _ _ _ _ => exact .inr (.inr ⟨hslash, hquote, rfl⟩)

theorem even_slashesAtEnd (s : List Char) : Even (slashesAtEnd (s.flatMap escapeChar)) := by
  induction s using List.reverseRecOn with
  | nil => exact Even.zero
  | append_singleton s c ih =>
    rw [List.flatMap_append, List.flatMap_singleton]
    generalize s.flatMap escapeChar = cs at ih ⊢
    rcases escapeChar_cases c with h | ⟨d, hd, h⟩ | ⟨hc, -, h⟩
    · rw [h, List.append_cons, slashesAtEnd_slash, slashesAtEnd_slash]
      exact ih.add_one.add_one
    · rw [h, List.append_cons, slashesAtEnd_of_ne _ hd]
      exact Even.zero
    · rw [h, slashesAtEnd_of_ne _ hc]
      exact Even.zero

theorem eq_slash_of_escapeChar {c : Char} {a b : List Char} (h : escapeChar c = a ++ '"' :: b) :
    a = ['\\'] := by
  rcases escapeChar_cases c with h' | ⟨d, hd, h'⟩ | ⟨-, hc, h'⟩
  all_goals
    rw [h'] at h
  · have hmem : '"' ∈ ['\\', '\\'] := h ▸ by simp
    simp at hmem
  · cases a with
    | nil => simp at h
    | cons x a =>
      cases a with
      | nil => rw [(List.cons.inj h).1]
      | cons y a => simp at h
  · have hmem : '"' ∈ [c] := h ▸ by simp
    exact absurd (List.mem_singleton.1 hmem).symm hc

/-- A quote among escaped characters has an odd number of backslashes before it. -/
theorem odd_slashesAtEnd {s before after : List Char}
    (h : s.flatMap escapeChar = before ++ '"' :: after) : Odd (slashesAtEnd before) := by
  induction s using List.reverseRecOn generalizing after with
  | nil => simp at h
  | append_singleton s c ih =>
    rw [List.flatMap_append, List.flatMap_singleton] at h
    rcases List.append_eq_append_iff.1 h with ⟨a, rfl, hc⟩ | ⟨a, hs, ha⟩
    · -- The quote is among the characters for `c`.
      rw [eq_slash_of_escapeChar hc, slashesAtEnd_slash]
      exact (even_slashesAtEnd s).add_one
    · -- It is further in front, or `c` would begin with it.
      cases a with
      | nil => cases eq_slash_of_escapeChar (a := []) ha.symm
      | cons d a =>
        obtain ⟨rfl, -⟩ := List.cons.inj ha
        exact ih hs

theorem toList_quote (s : String) :
    (quote s).toList = '"' :: (s.toList.flatMap escapeChar ++ ['"']) :=
  String.toList_ofList

theorem quote_injective : Function.Injective quote := by
  intro s s' h
  have htoken := Grammar.token_quote s []
  rw [h, Grammar.token_quote] at htoken
  simpa using htoken.symm

theorem iterate_indent_line {line : List Char} (hne : line ≠ []) (hline : '\n' ∉ line) (n : Nat) :
    (indent^[n] (String.ofList (line ++ ['\n']))).toList =
      List.replicate (2 * n) ' ' ++ line ++ ['\n'] := by
  induction n with
  | zero => simp
  | succ n ih =>
    have hne' : List.replicate (2 * n) ' ' ++ line ≠ [] := by simp [hne]
    have hline' : '\n' ∉ List.replicate (2 * n) ' ' ++ line := by simp [hline]
    rw [Function.iterate_succ_apply', indent, markLines, String.toList_ofList, ih,
      markList_line hne' hline']
    rfl

theorem iterate_indent_quote {before after : String} (hbefore : '\n' ∉ before.toList)
    (hafter : '\n' ∉ after.toList) (s : String) (n : Nat) :
    indent^[n] (before ++ quote s ++ after ++ "\n") =
      String.ofList (List.replicate (2 * n) ' ') ++ before ++ quote s ++ after ++ "\n" := by
  let line := before.toList ++ (quote s).toList ++ after.toList
  have hne : line ≠ [] := by simp [line, toList_quote]
  have hline : '\n' ∉ line := by
    simp [line, hbefore, hafter, not_mem_quote (c := '\n') (by decide)]
  have hcode : before ++ quote s ++ after ++ "\n" = String.ofList (line ++ ['\n']) := by
    simp [← String.toList_inj, line]
  rw [← String.toList_inj, hcode, iterate_indent_line hne hline]
  simp [line]

/--
The literal of a text stands between quotes. No other quote in it is unescaped, and it has no line
break, carriage return, tab or null character in it. It is read as the text, up to its last quote,
so that different texts have different literals. A line that it stands on is indented around it.
-/
theorem quote_is_literal (s : String) :
    (∃ body, (quote s).toList = '"' :: (body ++ ['"']) ∧ Even (slashesAtEnd body) ∧
      ∀ before after, body = before ++ '"' :: after → Odd (slashesAtEnd before)) ∧
    (∀ c ∈ ['\n', '\r', '\t', '\x00'], c ∉ (quote s).toList) ∧
    (∀ rest, Grammar.token? ((quote s).toList ++ rest) = some (.literal s, rest)) ∧
    (∀ s', quote s' = quote s → s' = s) ∧
    ∀ before after, '\n' ∉ before.toList → '\n' ∉ after.toList → ∀ n,
      indent^[n] (before ++ quote s ++ after ++ "\n") =
        String.ofList (List.replicate (2 * n) ' ') ++ before ++ quote s ++ after ++ "\n" := by
  exact ⟨⟨_, toList_quote s, even_slashesAtEnd _, fun _ _ => odd_slashesAtEnd⟩,
    fun c hc => not_mem_quote hc s, Grammar.token_quote s, fun s' h => quote_injective h,
    fun before after hbefore hafter => iterate_indent_quote hbefore hafter s⟩

theorem quote_is_literal_backslash :
    let s := "\\\"\n\\"
    quote s = "\"\\\\\\\"\\n\\\\\"" ∧
    (∀ rest, Grammar.token? ((quote s).toList ++ '"' :: rest) = some (.literal s, '"' :: rest)) ∧
    indent^[2] ("x = " ++ quote s ++ ";" ++ "\n") =
      "    " ++ "x = " ++ quote s ++ ";" ++ "\n" := by
  intro s
  have hblanks : String.ofList (List.replicate (2 * 2) ' ') = "    " := by decide
  obtain ⟨-, -, htoken, -, hindent⟩ := quote_is_literal s
  have hline := hindent "x = " ";" (by decide) (by decide) 2
  rw [hblanks] at hline
  exact ⟨by decide, fun rest => htoken ('"' :: rest), hline⟩

end BlockCode.Text
