import BlockCode.Proofs.Grammar
import BlockCode.Proofs.Numbers
import BlockCode.Render.Expressions

namespace BlockCode.Grammar

def isWordChar (c : Char) : Bool := isIdentifierChar c || c == ':'

def signs : List String :=
  ["==", "!=", "<=", ">=", "&&", "||", "(", ")", r"{", r"}", ",", "+", "-", "*", "/", "%", "<",
    ">", "!"]

def numeralAt (cs : List Char) : List Char × List Char :=
  let whole := cs.takeWhile Char.isDigit
  match cs.dropWhile Char.isDigit with
  | '.' :: c :: rest =>
    if c.isDigit then
      (whole ++ '.' :: (c :: rest).takeWhile Char.isDigit, (c :: rest).dropWhile Char.isDigit)
    else (whole, '.' :: c :: rest)
  | rest => (whole, rest)

def token? (cs : List Char) : Option (Token × List Char) :=
  match cs with
  | [] => none
  | c :: rest =>
    if c == '"' then
      (Text.literalBody? rest).map fun (s, rest) => (.literal (String.ofList s), rest)
    else if c.isDigit then some (.numeral (String.ofList (numeralAt cs).1), (numeralAt cs).2)
    else if isWordChar c then
      some (.word (String.ofList (cs.takeWhile isWordChar)), cs.dropWhile isWordChar)
    else (signs.find? fun s => s.toList.isPrefixOf cs).map fun s => (.sign s, cs.drop s.length)

inductive Lexes : List Char → List Token → Prop
  | done : Lexes [] []
  | space {cs ts} : Lexes cs ts → Lexes (' ' :: cs) ts
  | token {cs t rest ts} : token? cs = some (t, rest) → Lexes rest ts → Lexes cs (t :: ts)

/-- The code is read as the expression, to its end. -/
def Reads (code : String) (e : Expr) : Prop := ∃ ts, Lexes code.toList ts ∧ Derives 0 ts e

theorem Lexes.unique {cs : List Char} {ts us : List Token} (h : Lexes cs ts) (h' : Lexes cs us) :
    ts = us := by
  induction h generalizing us with
  | done =>
    cases h' with
    | done => rfl
    | token ht => cases ht
  | space _ ih =>
    cases h' with
    | space h' => exact ih h'
    | token ht => cases ht
  | token ht _ ih =>
    cases h' with
    | done => cases ht
    | space => cases ht
    | token ht' h' =>
      rw [ht] at ht'
      cases ht'
      rw [ih h']

theorem Reads.unique {code : String} {e e' : Expr} (h : Reads code e) (h' : Reads code e') :
    e = e' := by
  obtain ⟨ts, hts, he⟩ := h
  obtain ⟨us, hus, he'⟩ := h'
  cases hts.unique hus
  exact he.unique he'

def Boundary (rest : List Char) : Prop :=
  ∀ c, rest.head? = some c → c = ' ' ∨ c = ')' ∨ c = ','

/-- The code has these tokens, whatever comes after it. -/
structure Spelled (code : String) (ts : List Token) : Prop where
  head : code.toList.head? ≠ some '='
  lexes : ∀ {rest us}, Boundary rest → Lexes rest us → Lexes (code.toList ++ rest) (ts ++ us)

theorem boundary_nil : Boundary [] := fun _ h => by cases h

theorem boundary_space (rest : List Char) : Boundary (' ' :: rest) := fun _ h => by
  cases h
  exact .inl rfl

theorem boundary_close (rest : List Char) : Boundary (')' :: rest) := fun _ h => by
  cases h
  exact .inr (.inl rfl)

theorem boundary_comma (rest : List Char) : Boundary (',' :: rest) := fun _ h => by
  cases h
  exact .inr (.inr rfl)

theorem Spelled.lexes_nil {code : String} {ts : List Token} (h : Spelled code ts) :
    Lexes code.toList ts := by
  have := h.lexes boundary_nil .done
  simpa using this

theorem Spelled.reads {code : String} {ts : List Token} {k : Nat} {e : Expr} (h : Spelled code ts)
    (hd : Derives k ts e) : Reads code e :=
  ⟨ts, h.lexes_nil, hd.loosen_to (Nat.zero_le k)⟩

theorem Spelled.head_append {code : String} {ts : List Token} (h : Spelled code ts)
    (rest : List Char) (hrest : rest.head? ≠ some '=') :
    (code.toList ++ rest).head? ≠ some '=' := by
  rw [List.head?_append]
  cases hc : code.toList.head? with
  | none => exact hrest
  | some c => simpa [hc] using h.head

theorem Spelled.ne_empty {code : String} {t : Token} {ts : List Token}
    (h : Spelled code (t :: ts)) : code.isEmpty = false := by
  rw [String.isEmpty_eq_false_iff]
  rintro rfl
  cases h.lexes_nil.unique .done

theorem Boundary.not_mem {p : Char → Bool} {rest : List Char} (h : Boundary rest)
    (hp : p ' ' = false ∧ p ')' = false ∧ p ',' = false) :
    ∀ c, rest.head? = some c → p c = false := by
  intro c hc
  rcases h c hc with rfl | rfl | rfl
  · exact hp.1
  · exact hp.2.1
  · exact hp.2.2

theorem spelled_word {s : String} {c : Char} {cs : List Char} (hs : s.toList = c :: cs)
    (hchars : ∀ d ∈ c :: cs, isWordChar d = true) (hdigit : c.isDigit = false) :
    Spelled s [.word s] where
  head := by
    have hc := hchars c List.mem_cons_self
    rw [hs, List.head?_cons]
    rintro ⟨⟩
    exact absurd hc (by decide)
  lexes := by
    intro rest us hrest hus
    have hc := hchars c List.mem_cons_self
    have hquote : (c == '"') = false := by
      rw [beq_eq_false_iff_ne]
      rintro rfl
      exact absurd hc (by decide)
    obtain ⟨htake, hdrop⟩ := Number.span_append hchars (hrest.not_mem (p := isWordChar) (by decide))
    rw [List.cons_append] at htake hdrop
    refine .token ?_ hus
    rw [hs, List.cons_append, token?]
    simp only [hquote, hdigit, hc, htake, hdrop, Bool.false_eq_true, if_false, if_true]
    rw [← hs, String.ofList_toList]

theorem numeralAt_decimalText {whole fraction rest : List Char} (hw : Number.areDigits whole)
    (hf : Number.areDigits fraction) (hrest : Boundary rest) :
    numeralAt (Number.decimalText whole fraction ++ rest) =
      (Number.decimalText whole fraction, rest) := by
  have hdigit := hrest.not_mem (p := Char.isDigit) (by decide)
  cases fraction with
  | nil =>
    obtain ⟨htake, hdrop⟩ := Number.span_append hw hdigit
    simp only [Number.decimalText, List.isEmpty_nil, if_true, List.append_nil, numeralAt, htake,
      hdrop]
    split
    · rcases hrest '.' rfl with h | h | h <;> cases h
    · rfl
  | cons f fs =>
    have hpoint : ∀ c, ('.' :: (f :: fs ++ rest)).head? = some c → c.isDigit = false := by simp
    obtain ⟨htake, hdrop⟩ := Number.span_append hw hpoint
    obtain ⟨htake', hdrop'⟩ := Number.span_append hf hdigit
    have hdigit : f.isDigit = true := hf f List.mem_cons_self
    simp only [List.cons_append] at htake hdrop htake' hdrop'
    simp [Number.decimalText, numeralAt, htake, hdrop, hdigit, htake', hdrop']

theorem spelled_numeral {s : String} {whole fraction : List Char}
    (hs : s.toList = Number.decimalText whole fraction) (hne : whole ≠ [])
    (hw : Number.areDigits whole) (hf : Number.areDigits fraction) : Spelled s [.numeral s] := by
  obtain ⟨c, cs, rfl⟩ := List.exists_cons_of_ne_nil hne
  have hc : c.isDigit = true := hw c List.mem_cons_self
  have hother : ∀ d : Char, d.isDigit = false → c ≠ d := by
    rintro d hd rfl
    simp [hc] at hd
  refine ⟨?_, fun {rest us} hrest hus => .token ?_ hus⟩
  · rw [hs, Number.decimalText, List.cons_append, List.head?_cons]
    simpa using hother '=' (by decide)
  · have hnumeral := numeralAt_decimalText hw hf hrest
    have hquote : (c == '"') = false := by simpa using hother '"' (by decide)
    rw [← String.ofList_toList (s := s), String.toList_ofList, hs]
    simp only [Number.decimalText, List.cons_append] at hnumeral ⊢
    simp only [token?, hquote, hc, hnumeral, Bool.false_eq_true, if_false, if_true]

theorem token_quote (s : String) (rest : List Char) :
    token? ((Text.quote s).toList ++ rest) = some (.literal s, rest) := by
  have hbody := Text.literalBody_escape s.toList rest
  simp [Text.quote, token?, hbody]

theorem spelled_literal (s : String) : Spelled (Text.quote s) [.literal s] where
  head := by simp [Text.quote]
  lexes := fun _ hus => .token (token_quote s _) hus

theorem Spelled.group {code : String} {ts : List Token} (h : Spelled code ts) :
    Spelled ("(" ++ code ++ ")") (.sign "(" :: ts ++ [.sign ")"]) where
  head := by simp
  lexes := by
    intro rest us _ hus
    have hcode := h.lexes (boundary_close rest) (.token rfl hus)
    simpa using Lexes.token rfl hcode

theorem token_not {c : Char} {cs : List Char} (hc : '=' ≠ c) :
    token? ('!' :: c :: cs) = some (.sign "!", c :: cs) := by
  let fits := fun s : String => s.toList.isPrefixOf ('!' :: c :: cs)
  have hunequal : ¬ fits "!=" := by simpa [fits] using hc
  have hfind : signs.find? fits = some "!" := by
    rw [signs, List.find?_cons_of_neg (by simp [fits]), List.find?_cons_of_neg hunequal]
    rfl
  change Option.map _ (signs.find? fits) = _
  rw [hfind]
  rfl

theorem Spelled.unary {code : String} {ts : List Token} (h : Spelled code ts) (op : UnaryOp) :
    Spelled (op.sign ++ code) (.sign op.sign :: ts) where
  head := by cases op <;> simp [UnaryOp.sign]
  lexes := by
    intro rest us hrest hus
    have hcode := h.lexes hrest hus
    have hhead := h.head_append rest fun he => by simpa using hrest '=' he
    rw [String.toList_append, List.append_assoc]
    refine .token ?_ hcode
    -- The sign `!` would take in an equals sign that comes next, but no code begins with one.
    cases op with
    | minus => rfl
    | not =>
      cases hcs : code.toList ++ rest with
      | nil => rfl
      | cons c cs =>
        have hc : '=' ≠ c := by
          rw [hcs] at hhead
          exact fun he => hhead (congrArg some he.symm)
        exact token_not hc

theorem Spelled.binary {a b : String} {ts us : List Token} (ha : Spelled a ts) (hb : Spelled b us)
    (op : BinaryOp) : Spelled (Rules.operatorCode a op.sign b) (ts ++ .sign op.sign :: us) where
  head := by
    have happend := ha.head_append (" " ++ op.sign ++ " " ++ b).toList (by simp)
    simpa [Rules.operatorCode] using happend
  lexes := by
    intro rest vs hrest hvs
    have hsign : ∀ cs, token? (op.sign.toList ++ ' ' :: cs) = some (.sign op.sign, ' ' :: cs) := by
      intro cs
      cases op <;> rfl
    have hright := Lexes.token (hsign _) (.space (hb.lexes hrest hvs))
    have hleft := ha.lexes (boundary_space _) (.space hright)
    simpa [Rules.operatorCode] using hleft

theorem Spelled.power {a b : String} {ts us : List Token} (ha : Spelled a ts) (hb : Spelled b us) :
    Spelled ("f64::powf(" ++ a ++ ", " ++ b ++ ")")
      (.word "f64::powf" :: .sign "(" :: ts ++ .sign "," :: us ++ [.sign ")"]) where
  head := by simp
  lexes := by
    intro rest vs _ hvs
    have hright := hb.lexes (boundary_close rest) (.token rfl hvs)
    have hleft := ha.lexes (boundary_comma _) (.token rfl (.space hright))
    have hopen : Lexes ('(' :: _) (.sign "(" :: _) := .token rfl hleft
    simpa using Lexes.token rfl hopen

theorem lexes_open {cs : List Char} {ts : List Token} (h : Lexes cs ts) :
    Lexes ('{' :: ' ' :: cs) (.sign r"{" :: ts) :=
  .token rfl (.space h)

theorem Spelled.choice {c a b : String} {ts us vs : List Token} (hc : Spelled c ts)
    (ha : Spelled a us) (hb : Spelled b vs) :
    Spelled ("if " ++ c ++ r" { " ++ a ++ r" } else { " ++ b ++ r" }")
      (.word "if" :: ts ++ .sign r"{" :: us ++ .sign r"}" :: .word "else" ::
        .sign r"{" :: vs ++ [.sign r"}"]) where
  head := by simp
  lexes := by
    intro rest ws _ hws
    have hend : Lexes ('}' :: rest) (.sign r"}" :: ws) := .token rfl hws
    have hno := lexes_open (hb.lexes (boundary_space _) (.space hend))
    have helse : Lexes ('}' :: ' ' :: 'e' :: 'l' :: 's' :: 'e' :: ' ' :: _)
        (.sign r"}" :: .word "else" :: _) := .token rfl (.space (.token rfl (.space hno)))
    have hyes := lexes_open (ha.lexes (boundary_space _) (.space helse))
    have hif : Lexes ('i' :: 'f' :: ' ' :: _) (.word "if" :: _) :=
      .token rfl (.space (hc.lexes (boundary_space _) (.space hyes)))
    simpa using hif

end BlockCode.Grammar
