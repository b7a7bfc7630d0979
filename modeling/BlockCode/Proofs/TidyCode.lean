import BlockCode.Proofs.Declarations
import BlockCode.Proofs.Layout
import BlockCode.Proofs.Numbers

namespace BlockCode

open Text

theorem IsIdentifier.span {s : String} (h : IsIdentifier s) : Span s := by
  refine .of_isPlain ?_ fun c hc => isPlain_of (by decide) (h.chars c hc)
  rintro rfl
  obtain ⟨c, hc, -⟩ := h.letter
  simp at hc

namespace Number

def isNumeralChar (c : Char) : Bool := c.isDigit || c == '-' || c == '.'

def IsNumeral (cs : List Char) : Prop := cs ≠ [] ∧ ∀ c ∈ cs, isNumeralChar c = true

theorem IsNumeral.of_areDigits {ds : List Char} (hne : ds ≠ []) (h : areDigits ds) :
    IsNumeral ds :=
  ⟨hne, fun c hc => by simp [isNumeralChar, h c hc]⟩

theorem IsNumeral.negate {cs : List Char} (h : IsNumeral cs) : IsNumeral ('-' :: cs) :=
  ⟨by simp, List.forall_mem_cons.2 ⟨rfl, h.2⟩⟩

theorem isNumeral_toString (i : Int) : IsNumeral (toString i).toList := by
  have hnat : ∀ n : Nat, IsNumeral (toString n).toList := fun n => by
    simpa using IsNumeral.of_areDigits Nat.toDigits_ne_nil (areDigits_toDigits n)
  cases i with
  | ofNat n => exact hnat n
  | negSucc n =>
    change IsNumeral ("-" ++ toString (n + 1)).toList
    rw [String.toList_append]
    exact (hnat (n + 1)).negate

theorem isNumeral_positional (m : Nat) (k : Int) : IsNumeral (positional m k) := by
  cases k with
  | ofNat k =>
    have hdigits := areDigits_append (areDigits_toDigits m) (areDigits_replicate_zero k)
    have hne : Nat.toDigits 10 m ++ List.replicate k '0' ≠ [] := by simp
    exact .of_areDigits hne hdigits
  | negSucc k =>
    have hdigits := areDigits_append
      (areDigits_replicate_zero (k + 1 + 1 - (Nat.toDigits 10 m).length)) (areDigits_toDigits m)
    refine ⟨by simp [positional], ?_⟩
    simp only [positional, List.forall_mem_append, List.forall_mem_cons]
    refine ⟨fun c hc => ?_, rfl, fun c hc => ?_⟩
    · simp [isNumeralChar, hdigits c (List.mem_of_mem_take hc)]
    · simp [isNumeralChar, hdigits c (List.mem_of_mem_drop hc)]

theorem isNumeral_display (negative : Bool) (units : Nat) :
    IsNumeral (display (.finite negative units)).toList := by
  have hdigits : IsNumeral (if units = 0 then ['0'] else
      positional (shortest units).1 (shortest units).2) := by
    split
    · exact ⟨by simp, by simp [isNumeralChar]⟩
    · exact isNumeral_positional _ _
  rw [display, String.toList_ofList]
  cases negative with
  | false => exact hdigits
  | true => exact hdigits.negate

theorem span_code (negative : Bool) (units : Nat) : Span (code (.finite negative units)) := by
  have hcode : IsNumeral (code (.finite negative units)).toList := by
    unfold code
    split
    · split
      · exact isNumeral_toString _
      · exact isNumeral_display _ _
    · exact isNumeral_display _ _
  refine .of_isPlain ?_ fun c hc => isPlain_of (by decide) (hcode.2 c hc)
  intro hempty
  simp [hempty, IsNumeral] at hcode

end Number

namespace Render

variable {α β : Type}

/-- Where the action succeeds, it has only given out names, and its result has the property. -/
def Yields (act : Render α) (Q : α → Prop) : Prop :=
  ∀ p a p', p.names.Sound → act.run p = (.ok a, p') → p.Continues p' ∧ Q a

variable {Q : α → Prop} {R : β → Prop}

theorem Yields.pure {a : α} (h : Q a) : Yields (pure a) Q := by
  rintro p _ _ - ⟨⟩
  exact ⟨.refl p, h⟩

theorem Yields.bind {x : Render α} {f : α → Render β} (hx : Yields x Q)
    (hf : ∀ a, Q a → Yields (f a) R) : Yields (x >>= f) R := by
  intro p b p' hs hrun
  obtain ⟨a, q, hfirst, hrest⟩ := run_bind_eq_ok hrun
  obtain ⟨hcont, ha⟩ := hx p a q hs hfirst
  obtain ⟨hcont', hb⟩ := hf a ha q b p' (hcont.names.sound hs) hrest
  exact ⟨hcont.trans hcont', hb⟩

theorem yields_throw (e : Fault) : Yields (throw e : Render α) Q := by
  rintro p _ _ - ⟨⟩

theorem yields_report (e : Event) : Yields (report e) fun _ => True := by
  rintro p _ _ - ⟨⟩
  exact ⟨⟨.refl _, rfl⟩, trivial⟩

theorem yields_inLoop : Yields inLoop fun _ => True := by
  rintro p _ _ - ⟨⟩
  exact ⟨.refl p, trivial⟩

theorem yields_nameFor (key : String) (category : Category) :
    Yields (nameFor key category) (Span ·) := by
  intro p name p' hs hrun
  have hcont := continues_nameFor key category p
  obtain ⟨events, hname⟩ := run_nameFor key category p
  rw [hrun] at hcont hname
  refine ⟨hcont, IsIdentifier.span ?_⟩
  have hheld := Names.held_of_call hs (c := .resolve key category) rfl
  cases hname
  exact (hcont.names.sound hs).used_identifier _ hheld.1

theorem yields_distinctName (hint : String) (category : Category) :
    Yields (distinctName hint category) (Span ·) := by
  intro p name p' hs hrun
  have hcont := continues_distinctName hint category p
  rw [hrun] at hcont
  cases hrun
  exact ⟨hcont, (Names.isIdentifier_free _ (isIdentifier_safeName hint category)).span⟩

theorem Yields.asLoopBody {act : Render α} (h : Yields act Q) : Yields act.asLoopBody Q := by
  intro p a p' hs hrun
  have hresult := fst_run_asLoopBody act p
  rw [hrun] at hresult
  obtain ⟨hcont, ha⟩ := h { p with loopDepth := p.loopDepth + 1 } a
    (act.run { p with loopDepth := p.loopDepth + 1 }).2 hs (Prod.ext hresult.symm rfl)
  have hloop := continues_asLoopBody hcont
  rw [hrun] at hloop
  exact ⟨hloop, ha⟩

theorem Yields.mapM {f : β → Render α} {bs : List β} (h : ∀ b ∈ bs, Yields (f b) Q) :
    Yields (bs.mapM f) fun as => as.length = bs.length ∧ ∀ a ∈ as, Q a := by
  induction bs with
  | nil => exact .pure (by simp)
  | cons b bs ih =>
    obtain ⟨hb, hbs⟩ := List.forall_mem_cons.1 h
    rw [List.mapM_cons]
    refine .bind hb fun a ha => .bind (ih hbs) fun as has => .pure ?_
    exact ⟨by simp [has.1], List.forall_mem_cons.2 ⟨ha, has.2⟩⟩

end Render

open Render

abbrev Text.IsLaid (code : String) : Prop := Laid 0 code.toList 0

def BlockText.IsTidy : BlockText → Prop
  | .statement code => IsLaid code
  | .expression f => Span f.code

def Emission.IsTidy : Emission → Prop
  | .statement code => IsLaid code
  | .instrumented code => IsLaid code
  | .expression f => Span f.code

structure Site.IsTidy (s : Site) : Prop where
  options : s.options.isInstrumented = false
  values : ∀ input operand, (s.values.lookup input).join = some operand →
    Yields operand.text BlockText.IsTidy
  statements : ∀ input chain, (s.statements.lookup input).join = some chain → Yields chain IsLaid

def Site.HasSpans (s : Site) : Prop :=
  ∀ input operand, (s.values.lookup input).join = some operand →
    Yields operand.text fun text => ∀ f, text = .expression f → Span f.code

theorem Fragment.span_splice {f : Fragment} (h : Span f.code) (least : Level) :
    Span (f.splice least) := by
  unfold splice
  split
  · have hopen : Span "(" := by decide
    exact (hopen.append h.toPasses).append (by decide)
  · exact h

namespace Site

variable {s : Site} (hs : s.IsTidy)
include hs

theorem IsTidy.before? : s.before? = none := by
  have := hs.options
  simp only [Options.isInstrumented, Bool.or_eq_false_iff] at this
  simp_all [Site.before?]

theorem IsTidy.after? : s.after? = none := by
  have := hs.options
  simp only [Options.isInstrumented, Bool.or_eq_false_iff] at this
  simp_all [Site.after?]

theorem IsTidy.trap? : s.trap? = none := by
  have := hs.options
  simp only [Options.isInstrumented, Bool.or_eq_false_iff] at this
  simp_all [Site.trap?]

theorem IsTidy.wrap (code : String) : s.wrap code = code := by
  simp [Site.wrap, hs.before?, hs.after?]

theorem IsTidy.hasSpans : s.HasSpans := by
  intro input operand hoperand p text p' hp hrun
  obtain ⟨hcont, htext⟩ := hs.values input operand hoperand p text p' hp hrun
  refine ⟨hcont, ?_⟩
  rintro f rfl
  exact htext

omit hs in
theorem HasSpans.value? (hs : s.HasSpans) (input : String) (least : Level) :
    Yields (s.value? input least) fun code? => ∀ code, code? = some code → Span code := by
  have hvalues := hs input
  unfold Site.value?
  generalize (s.values.lookup input).join = operand? at hvalues
  cases operand? with
  | none => exact .pure (by simp)
  | some operand =>
    dsimp only
    split
    · exact .pure (by simp)
    · refine .bind (hvalues operand rfl) fun text htext => ?_
      cases text with
      | statement code => exact yields_throw _
      | expression f =>
        refine .pure fun code hcode => ?_
        split at hcode
        · cases hcode
        · cases hcode
          exact f.span_splice (htext f rfl) least

omit hs in
theorem HasSpans.valueOr (hs : s.HasSpans) {default : String} (h : Span default) (input : String)
    (least : Level) : Yields (s.valueOr input least default) (Span ·) := by
  refine .bind (hs.value? input least) fun code? hcode => .pure ?_
  cases code? with
  | none => exact h
  | some code => exact hcode code rfl

theorem IsTidy.branch (input : String) :
    Yields (s.branch input) fun code => Laid 1 code.toList 1 := by
  have hstatements : Yields (s.statementsOf input) IsLaid := by
    have hstatements := hs.statements input
    unfold statementsOf
    split
    · exact .pure (.nil 0)
    · next chain hchain => exact hstatements chain hchain
  exact .bind hstatements fun code hcode => .pure hcode.indent

theorem IsTidy.loopBranch (input : String) :
    Yields (s.loopBranch input) fun code => Laid 1 code.toList 1 := by
  refine .bind (hs.branch input).asLoopBody fun code hcode => .pure ?_
  simpa [trapped, hs.before?, hs.after?, hs.trap?] using hcode

omit hs in
theorem yields_variableName (s : Site) (field : String) : Yields (s.variableName field) (Span ·) :=
  yields_nameFor _ _

end Site

namespace Rules

theorem span_operatorCode {a sign b : String} (ha : Span a) (hsign : Inline (" " ++ sign ++ " "))
    (hb : Span b) : Span (operatorCode a sign b) := by
  have hcode : operatorCode a sign b = a ++ (" " ++ sign ++ " ") ++ b := by
    simp only [operatorCode, String.append_assoc]
  rw [hcode]
  exact (ha.append hsign).append hb.toPasses

theorem inline_comparisonSign (op : Option String) : Inline (" " ++ comparisonSign op ++ " ") := by
  unfold comparisonSign
  split <;> decide

theorem span_numberFragment (x : Number) : Span (numberFragment x).code := by
  cases x with
  | nan => decide
  | infinite negative => cases negative <;> decide
  | finite negative units => exact Number.span_code negative units

theorem tidy_boolean (s : Site) : Yields (boolean s) Emission.IsTidy := by
  refine .pure ?_
  change Span (if _ then _ else _)
  split <;> decide

theorem tidy_number (s : Site) : Yields (number s) Emission.IsTidy :=
  .pure (span_numberFragment _)

theorem tidy_text (s : Site) : Yields (text s) Emission.IsTidy := .pure (span_quote _)

theorem tidy_variableValue (s : Site) : Yields (variableValue s) Emission.IsTidy :=
  .bind (s.yields_variableName _) fun _ hname => .pure hname

section

variable {s : Site} (hs : s.HasSpans)
include hs

theorem tidy_negation : Yields (negation s) Emission.IsTidy := by
  refine .bind (hs.valueOr (by decide) _ _) fun operand hoperand => .pure ?_
  have hsign : Span "!" := by decide
  exact hsign.append hoperand.toPasses

theorem tidy_comparison : Yields (comparison s) Emission.IsTidy :=
  .bind (hs.valueOr (by decide) _ _) fun _ ha => .bind (hs.valueOr (by decide) _ _) fun _ hb =>
    .pure (span_operatorCode ha (inline_comparisonSign _) hb)

theorem tidy_connective {sign identity : String} (hsign : Inline (" " ++ sign ++ " "))
    (hidentity : Span identity) (level : Level) :
    Yields (connective sign identity level s) Emission.IsTidy := by
  refine .bind (hs.value? _ _) fun a ha => .bind (hs.value? _ _) fun b hb => .pure ?_
  have hgetD : ∀ {code? : Option String}, (∀ code, code? = some code → Span code) →
      Span (code?.getD identity) := by
    intro code? hcode
    cases code? with
    | none => exact hidentity
    | some code => exact hcode code rfl
  change Span _
  dsimp only
  split
  · exact span_operatorCode (by decide) hsign (by decide)
  · exact span_operatorCode (hgetD ha) hsign (hgetD hb)

theorem tidy_logicOperation : Yields (logicOperation s) Emission.IsTidy := by
  unfold logicOperation
  split
  · exact tidy_connective hs (by decide) (by decide) _
  · exact tidy_connective hs (by decide) (by decide) _

theorem tidy_choice : Yields (choice s) Emission.IsTidy := by
  refine .bind (hs.valueOr (by decide) _ _) fun condition hcondition =>
    .bind (hs.valueOr (by decide) _ _) fun yes hyes =>
      .bind (hs.valueOr (by decide) _ _) fun no hno => .pure ?_
  have hif : Span "if " := by decide
  have hopen : Span ("if " ++ condition ++ r" { " ++ yes ++ r" } else { ") 1 :=
    (((hif.append hcondition.toPasses).append (by decide)).append (hyes.toPasses.within 1)).append
      (by decide)
  exact (hopen.append (hno.toPasses.within 1)).append (by decide)

theorem tidy_leftOperator {sign : String} (hsign : Inline (" " ++ sign ++ " "))
    (left right : String) (level : Level) :
    Yields (leftOperator left right sign level s) Emission.IsTidy :=
  .bind (hs.valueOr (by decide) _ _) fun _ ha => .bind (hs.valueOr (by decide) _ _) fun _ hb =>
    .pure (span_operatorCode ha hsign hb)

theorem tidy_power : Yields (power s) Emission.IsTidy := by
  refine .bind (hs.valueOr (by decide) _ _) fun a ha =>
    .bind (hs.valueOr (by decide) _ _) fun b hb => .pure ?_
  have hcall : Span "f64::powf(" := by decide
  exact (((hcall.append ha.toPasses).append (by decide)).append hb.toPasses).append (by decide)

theorem tidy_arithmetic : Yields (arithmetic s) Emission.IsTidy := by
  unfold arithmetic
  split
  · exact tidy_power hs
  all_goals exact tidy_leftOperator hs (by decide) _ _ _

end

section

variable {s : Site} (hs : s.IsTidy)
include hs

theorem tidy_assignment : Yields (assignment s) Emission.IsTidy := by
  refine .bind (hs.hasSpans.valueOr (by decide) _ _) fun value hvalue =>
    .bind (s.yields_variableName _) fun name hname => .pure ?_
  exact ((hname.append (by decide)).append hvalue.toPasses).laid (by decide)

theorem tidy_increment : Yields (increment s) Emission.IsTidy := by
  refine .bind (hs.hasSpans.valueOr (by decide) _ _) fun delta hdelta =>
    .bind (s.yields_variableName _) fun name hname => .pure ?_
  exact ((hname.append (by decide)).append hdelta.toPasses).laid (by decide)

theorem tidy_print : Yields (print s) Emission.IsTidy := by
  refine .bind (hs.hasSpans.value? _ _) fun message? hmessage => ?_
  cases message? with
  | none => exact .pure (LineEnd.laid (by decide) (by decide))
  | some message =>
    have hprint : Span "println!(\"{}\", " := by decide
    exact .pure ((hprint.append (hmessage message rfl).toPasses).laid (by decide))

theorem braced_eq (body : String) : braced s body = line r"{" ++ body ++ r"}" := by
  simp [braced, hs.after?]

theorem tidy_arm (n : Nat) : Yields (arm s n) fun code => ∃ lead body,
    code = lead ++ line r"{" ++ body ++ r"}" ∧ Span lead ∧ Laid 1 body.toList 1 := by
  refine .bind (hs.hasSpans.valueOr (by decide) _ _) fun condition hcondition =>
    .bind (hs.branch _) fun body hbody => .pure ?_
  have hif : Span "if " := by decide
  refine ⟨"if " ++ condition ++ " ", body, ?_,
    (hif.append hcondition.toPasses).append (by decide), hbody⟩
  rw [braced_eq hs]
  simp only [String.append_assoc]

theorem tidy_alternative : Yields (alternative s) fun last => ∀ code ∈ last, IsArm code := by
  unfold alternative
  split
  · refine .bind (hs.branch _) fun body hbody => .pure ?_
    rw [List.forall_mem_singleton, braced_eq hs]
    exact ⟨"", body, by simp, by decide, hbody⟩
  · exact .pure (by simp)

theorem tidy_conditional : Yields (conditional s) Emission.IsTidy := by
  refine .bind (.mapM fun n _ => tidy_arm hs n) fun arms harms =>
    .bind (tidy_alternative hs) fun last hlast => .pure ?_
  cases arms with
  | nil => simp [armCount] at harms
  | cons first arms =>
    obtain ⟨⟨lead, body, rfl, hlead, hbody⟩, hmore⟩ := List.forall_mem_cons.1 harms.2
    have hrest : ∀ code ∈ arms ++ last, IsArm code := by
      refine List.forall_mem_append.2 ⟨fun code hcode => ?_, hlast⟩
      obtain ⟨lead, body, heq, hlead, hbody⟩ := hmore code hcode
      exact ⟨lead, body, heq, hlead.toPasses, hbody⟩
    rw [hs.before?, Option.getD_none, String.empty_append]
    exact laid_arms hlead hbody hrest

omit hs in
theorem tidy_jump (s : Site) : Yields (jump s) Emission.IsTidy := by
  have hcode : ∀ keyword, Span keyword → IsLaid ("// " ++ keyword ++ " outside of a loop\n") →
      Yields (do
        if ← inLoop then return Emission.statement (keyword ++ ";\n")
        else return .statement ("// " ++ keyword ++ " outside of a loop\n")) Emission.IsTidy := by
    intro keyword hkeyword hremark
    refine .bind yields_inLoop fun inside _ => ?_
    split
    · exact .pure (hkeyword.laid (by decide))
    · exact .pure hremark
  unfold jump
  split
  · exact hcode "break" (by decide) (LineEnd.laid (by decide) (by decide))
  · exact hcode "continue" (by decide) (LineEnd.laid (by decide) (by decide))
  · exact .bind (Q := fun _ => False) (yields_throw _) fun _ h => h.elim

end

theorem laid_forLoop {name range body : String} (hname : Span name) (hrange : Inline range)
    (hbody : Laid 1 body.toList 1) : IsLaid (forLoop name range body) := by
  have hfor : Span "for " := by decide
  exact (((hfor.append hname.toPasses).append (by decide)).append hrange).laid_block hbody

theorem laid_binding {name code : String} (hname : Span name) (hcode : Inline code) :
    IsLaid (binding name code) := by
  have hlet : Span "let " := by decide
  exact (((hlet.append hname.toPasses).append (by decide)).append hcode).laid (by decide)

theorem tidy_hoist (hint : String) {code : String} (hcode : Inline code) :
    Yields (hoist hint code) fun r => Inline r.1 ∧ IsLaid r.2 := by
  unfold hoist
  split
  · exact .pure ⟨hcode, .nil 0⟩
  · exact .bind (yields_distinctName _ _) fun name hname =>
      .pure ⟨hname.toPasses, laid_binding hname hcode⟩

theorem inline_upward {start stop : String} (hstart : Inline start) (hstop : Inline stop) :
    Inline (upward start stop) :=
  (hstart.append (by decide)).append hstop

theorem inline_downward {start stop : String} (hstart : Inline start) (hstop : Inline stop) :
    Inline (downward start stop) := by
  have hopen : Inline "(" := by decide
  exact (((hopen.append hstop).append (by decide)).append hstart).append (by decide)

theorem inline_inSteps {range step : String} (hrange : Inline range) (hstep : Inline step) :
    Inline (inSteps range step) := by
  have hopen : Inline "(" := by decide
  have hgrouped :
      Inline (if range.toList.head? = some '(' then range else "(" ++ range ++ ")") := by
    split
    · exact hrange
    · exact (hopen.append hrange).append (by decide)
  unfold inSteps
  split
  · exact hrange
  · exact ((hgrouped.append (by decide)).append hstep).append (by decide)

theorem inline_dropMinus {code : String} (h : Inline code) : Inline (dropMinus code) := by
  have hscan : ∀ cs : List Char, scan {} (cs.dropWhile (· == '-')) = scan {} cs := by
    intro cs
    induction cs with
    | nil => rfl
    | cons c cs ih =>
      by_cases hc : c = '-'
      · subst hc
        rw [List.dropWhile_cons_of_pos rfl, ih]
        exact (scan_cons rfl cs).symm
      · rw [List.dropWhile_cons_of_neg (by simpa using hc)]
  refine ⟨?_, fun hmem => h.line ?_⟩
  · rw [dropMinus, String.toList_ofList, hscan, h.scan]
  · rw [dropMinus, String.toList_ofList] at hmem
    exact (List.dropWhile_sublist _).subset hmem

structure Counter.IsTidy (k : Counter) : Prop where
  name : Span k.name
  start : Inline k.start
  stop : Inline k.stop
  step : Inline k.step
  body : Laid 1 k.body.toList 1

theorem Counter.IsTidy.laid_fixed {k : Counter} (h : k.IsTidy) (falls : Bool) :
    IsLaid (k.fixed falls) := by
  refine laid_forLoop h.name (inline_inSteps ?_ h.step) h.body
  split
  · exact inline_downward h.start h.stop
  · exact inline_upward h.start h.stop

theorem Counter.IsTidy.tidy_chosen {k : Counter} (h : k.IsTidy) : Yields k.chosen IsLaid := by
  refine .bind (tidy_hoist _ h.start) fun (start, startLines) ⟨hstart, hstartLines⟩ =>
    .bind (tidy_hoist _ h.stop) fun (stop, stopLines) ⟨hstop, hstopLines⟩ =>
      .bind (tidy_hoist _ h.step) fun (step, stepLines) ⟨hstep, hstepLines⟩ =>
        .bind (yields_distinctName _ _) fun range hrange => .pure ?_
  have hlet : Span "let " := by decide
  have hclose : Passes 1 r") };" 0 := by decide
  have hrise := inline_inSteps (inline_upward hstart hstop) hstep
  have hfall := inline_inSteps (inline_downward hstart hstop) hstep
  have hchoose : IsLaid (line ("let " ++ range ++ ": Box<dyn Iterator<Item = _>> = if " ++ start ++
      " <= " ++ stop ++ r" { Box::new(" ++ inSteps (upward start stop) step ++
      r") } else { Box::new(" ++ inSteps (downward start stop) step ++ r") };")) :=
    ((((((((((hlet.append hrange.toPasses).append (by decide)).append hstart).append
      (by decide)).append hstop).append (by decide)).append (hrise.within 1)).append
      (by decide)).append (hfall.within 1)).append hclose).laid (by decide)
  exact (((hstartLines.concat hstopLines).concat hstepLines).concat hchoose).concat
    (laid_forLoop h.name hrange.toPasses h.body)

theorem Counter.IsTidy.tidy_loop {k : Counter} (h : k.IsTidy) : Yields k.loop IsLaid := by
  unfold loop
  split
  · exact .pure (h.laid_fixed _)
  · exact h.tidy_chosen

theorem tidy_repeatCount {s : Site} (hs : s.HasSpans) : Yields (repeatCount s) (Span ·) := by
  have htrunc : ∀ x : Number, x.isFinite = true → Span x.trunc.code := by
    intro x hx
    cases x with
    | finite negative units => exact Number.span_code negative _
    | nan => cases hx
    | infinite negative => cases hx
  unfold repeatCount
  split
  · next field _ =>
    refine .pure ?_
    cases htimes : field.toNumber?.filter Number.isFinite with
    | none => exact htrunc _ rfl
    | some times => exact htrunc times (Option.filter_eq_some_iff.1 htimes).2
  · refine .bind (hs.valueOr (by decide) _ _) fun code hcode => ?_
    split
    · next times htimes => exact .pure (htrunc times (Option.filter_eq_some_iff.1 htimes).2)
    · exact .pure hcode

section

variable {s : Site} (hs : s.IsTidy)
include hs

theorem tidy_repetition : Yields (repetition s) Emission.IsTidy := by
  refine .bind (tidy_repeatCount hs.hasSpans) fun times htimes =>
    .bind (yields_distinctName _ _) fun name hname =>
      .bind (tidy_hoist _ htimes.toPasses) fun (bound, lines) ⟨hbound, hlines⟩ =>
        .bind (hs.loopBranch _) fun body hbody => .pure ?_
  have hzero : Inline "0.." := by decide
  exact hlines.concat (laid_forLoop hname (hzero.append hbound) hbody)

theorem tidy_whileLoop : Yields (whileLoop s) Emission.IsTidy := by
  refine .bind (hs.hasSpans.value? _ _) fun condition? hcondition =>
    .bind (hs.loopBranch _) fun body hbody => .pure (Span.laid_block ?_ hbody)
  cases condition? with
  | none => exact (by decide : Span "loop")
  | some condition =>
    have hwhile : Span "while " := by decide
    have hnot : Span "while !" := by decide
    dsimp only
    split
    · exact hnot.append (hcondition condition rfl).toPasses
    · exact hwhile.append (hcondition condition rfl).toPasses

theorem tidy_counter : Yields (counter s) Counter.IsTidy :=
  .bind (s.yields_variableName _) fun _ hname =>
    .bind (hs.hasSpans.valueOr (by decide) _ _) fun _ hstart =>
      .bind (hs.hasSpans.valueOr (by decide) _ _) fun _ hstop =>
        .bind (hs.hasSpans.valueOr (by decide) _ _) fun _ hstep =>
          .bind (hs.loopBranch _) fun _ hbody => .pure ⟨hname, hstart.toPasses, hstop.toPasses,
            inline_dropMinus hstep.toPasses, hbody⟩

theorem tidy_countingLoop : Yields (countingLoop s) Emission.IsTidy :=
  .bind (tidy_counter hs) fun _ hk => .bind hk.tidy_loop fun _ hcode => .pure hcode

end

end Rules

end BlockCode
