import BlockCode.Console.Generate
import Mathlib.Data.List.Infix
import Mathlib.Logic.Function.Basic

namespace BlockCode

namespace Files

/-- All places on the way to this one are directories. -/
def IsRooted (fs : Files) (place : FilePlace) : Prop :=
  ∀ above, above <+: place → above ≠ place → fs.node? above = some .directory

section

variable {fs fs' : Files} {place above found : FilePlace} {names : List String}

theorem node?_above_home (h : place <+: fs.home) : fs.node? place = some .directory := by
  rw [node?, if_pos (List.isPrefixOf_iff_prefix.2 h)]

theorem isRooted_start (path : String) : fs.IsRooted (fs.start path) := by
  intro above habove _
  refine node?_above_home (habove.trans ?_)
  unfold start
  split
  · exact List.nil_prefix
  · exact List.prefix_rfl

theorem IsRooted.of_prefix (h : fs.IsRooted place) (habove : above <+: place) :
    fs.IsRooted above := by
  intro higher hhigher hne
  refine h higher (hhigher.trans habove) ?_
  rintro rfl
  exact hne (hhigher.eq_of_length_le habove.length_le)

theorem IsRooted.child (h : fs.IsRooted place) (hdirectory : fs.node? place = some .directory)
    (name : String) : fs.IsRooted (place ++ [name]) := by
  intro above habove hne
  rcases List.prefix_concat_iff.1 habove with rfl | habove
  · exact absurd rfl hne
  · by_cases heq : above = place
    · exact heq ▸ hdirectory
    · exact h above habove heq

theorem isRooted_of_follow (hplace : fs.IsRooted place) (h : fs.follow place names = .ok found) :
    fs.IsRooted found := by
  fun_induction follow fs place names with
  | case1 place => cases h; exact hplace
  | case2 => cases h
  | case3 => cases h
  | case4 place name rest hnode hname ih => exact ih hplace h
  | case5 place rest hnode hname ih =>
    exact ih (hplace.of_prefix (List.dropLast_prefix place)) h
  | case6 place name rest hnode hname hup ih => exact ih (hplace.child hnode name) h

theorem follow_of_directories
    (hkept : ∀ place, fs.node? place = some .directory → fs'.node? place = some .directory)
    (h : fs.follow place names = .ok found) : fs'.follow place names = .ok found := by
  fun_induction follow fs place names with
  | case1 place => cases h; rfl
  | case2 => cases h
  | case3 => cases h
  | case4 place name rest hnode hname ih =>
    simp only [follow, hkept _ hnode, hname, if_true]
    exact ih h
  | case5 place rest hnode hname ih =>
    simp only [follow, hkept _ hnode, hname, if_true]
    exact ih h
  | case6 place name rest hnode hname hup ih =>
    simp only [follow, hkept _ hnode, hname, hup, if_false]
    exact ih h

theorem lookup_filter_ne {α : Type} {nodes : List (FilePlace × α)} (h : found ≠ place) :
    (nodes.filter (·.1 != place)).lookup found = nodes.lookup found := by
  induction nodes with
  | nil => rfl
  | cons n nodes ih =>
    obtain ⟨other, a⟩ := n
    by_cases hother : other = place
    · have hne : (found == other) = false := by simpa [hother] using h
      rw [List.filter_cons_of_neg (by simpa using hother), ih, List.lookup_cons, hne]
    · rw [List.filter_cons_of_pos (by simpa using hother), List.lookup_cons, List.lookup_cons, ih]

theorem node?_away_from_home (h : ¬ place <+: fs.home) : fs.node? place =
    match fs.nodes.lookup place with
    | some n => some n
    | none => if fs.nodes.any fun n => place.isPrefixOf n.1 then some .directory else none :=
  if_neg fun htrue => h (List.isPrefixOf_iff_prefix.1 htrue)

theorem node?_put (h : fs.IsRooted place) (hnode : fs.node? place ≠ some .directory)
    (content : ByteArray) :
    (fs.put place content).node? = Function.update fs.node? place (some (.file content)) := by
  funext other
  by_cases heq : other = place
  · have hhome : ¬ place <+: (fs.put place content).home := fun hprefix =>
      hnode (node?_above_home hprefix)
    rw [heq, Function.update_self, node?_away_from_home hhome, put, List.lookup_cons_self]
  rw [Function.update_of_ne heq]
  by_cases hhome : other <+: fs.home
  · rw [node?_above_home hhome]
    exact node?_above_home hhome
  have hlookup : (fs.put place content).nodes.lookup other = fs.nodes.lookup other := by
    rw [put, List.lookup_cons, beq_false_of_ne heq, lookup_filter_ne heq]
  have hhome' : ¬ other <+: (fs.put place content).home := hhome
  rw [node?_away_from_home hhome', node?_away_from_home hhome, hlookup]
  cases hfound : fs.nodes.lookup other with
  | some node => rfl
  | none =>
    by_cases hprefix : other <+: place
    · -- The place of the file is inside of this directory, which was there before.
      have hdirectory := h other hprefix heq
      rw [node?_away_from_home hhome, hfound] at hdirectory
      rw [hdirectory]
      simp [put, List.isPrefixOf_iff_prefix.2 hprefix]
    · have hfalse : other.isPrefixOf place = false :=
        Bool.eq_false_iff.2 fun htrue => hprefix (List.isPrefixOf_iff_prefix.1 htrue)
      have hany : ∀ n : FilePlace × FileNode, ((n.1 != place) && other.isPrefixOf n.1) =
          other.isPrefixOf n.1 := by
        intro n
        by_cases hn : n.1 = place
        · simp [hn, hfalse]
        · simp [hn]
      simp only [put, List.any_cons, hfalse, Bool.false_or, List.any_filter, hany]

theorem reverse_dropWhile_eq {names : List String}
    (h : ¬ ((names.reverse.dropWhile (· = "")).reverse.length < names.length)) :
    (names.reverse.dropWhile (· = "")).reverse = names := by
  have hsuffix := List.dropWhile_suffix (fun name : String => decide (name = ""))
    (l := names.reverse)
  have hlength : names.reverse.length = names.length := List.length_reverse
  rw [List.length_reverse, not_lt, ← hlength] at h
  rw [hsuffix.eq_of_length_le h, List.reverse_reverse]

theorem obstacle?_eq_none {endsInSlash : Bool} (h : fs.obstacle? place endsInSlash = none) :
    fs.node? place ≠ some .directory ∧ endsInSlash = false := by
  unfold obstacle? at h
  cases endsInSlash with
  | false =>
    refine ⟨fun hdirectory => ?_, rfl⟩
    simp [hdirectory] at h
  | true => split at h <;> simp at h

theorem write_eq_ok {path content : String} (h : fs.write path content = .ok fs') :
    ∃ place, fs.place path = .ok place ∧ fs.IsRooted place ∧
      fs.node? place ≠ some .directory ∧ fs' = fs.put place content.toUTF8 := by
  by_cases hempty : path = ""
  · simp [write, hempty, throw, throwThe, MonadExceptOf.throw, bind, Except.bind] at h
  simp only [write, hempty, if_false] at h
  generalize hstem : ((pathNames path).reverse.dropWhile (· = "")).reverse = stem at h
  cases hplace : fs.follow (fs.start path) stem with
  | error fault => simp [hplace, bind, Except.bind] at h
  | ok place =>
    simp only [hplace, bind, Except.bind] at h
    cases hobstacle : fs.obstacle? place (stem.length < (pathNames path).length) with
    | some fault =>
      rw [hobstacle] at h
      cases h
    | none =>
      rw [hobstacle] at h
      cases h
      obtain ⟨hnode, hslash⟩ := obstacle?_eq_none hobstacle
      refine ⟨place, ?_, isRooted_of_follow (isRooted_start path) hplace, hnode, rfl⟩
      rw [Files.place, if_neg hempty, ← hplace, ← hstem]
      rw [← hstem, decide_eq_false_iff_not] at hslash
      rw [reverse_dropWhile_eq hslash]

theorem file?_of_write {path content : String} (h : fs.write path content = .ok fs') :
    ∃ place, fs'.node? = Function.update fs.node? place (some (.file content.toUTF8)) ∧
      fs'.file? path = some (place, content.toUTF8) := by
  obtain ⟨place, hplace, hrooted, hnode, rfl⟩ := write_eq_ok h
  have hput := node?_put hrooted hnode content.toUTF8
  have hkept : ∀ other, fs.node? other = some .directory →
      (fs.put place content.toUTF8).node? other = some .directory := by
    intro other hother
    rw [hput, Function.update_of_ne]
    · exact hother
    · rintro rfl
      exact hnode hother
  have hplace' : (fs.put place content.toUTF8).place path = .ok place := by
    unfold Files.place at hplace ⊢
    split at hplace
    · cases hplace
    · next hempty =>
      rw [if_neg hempty]
      exact follow_of_directories hkept hplace
  refine ⟨place, hput, ?_⟩
  simp only [file?, hplace', hput, Function.update_self]

end

end Files

def RunFault.stage : RunFault → Nat
  | .inputNotFound _ => 1
  | .unreadable .. | .invalidWorkspace .. => 2
  | .generation .. => 3
  | .unwritable _ => 4

theorem RunFault.stage_pos (fault : RunFault) : 0 < fault.stage := by
  cases fault <;> simp [stage]

theorem InputFile.stage_of_load {file : InputFile} {fault : RunFault}
    (h : file.load = .error fault) : fault.stage = 2 := by
  unfold load at h
  split at h
  · cases h; rfl
  · dsimp only at h
    split at h <;> cases h
    rfl

namespace Command

variable (c : Command)

def lines (stage : Nat) : List String := (List.range stage).map fun i => c.progressLine (i + 1)

theorem join_lines_succ (stage : Nat) :
    String.join (c.lines (stage + 1)) =
      String.join (c.lines stage) ++ c.progressLine (stage + 1) := by
  simp [lines, List.range_succ, String.join_append]

theorem length_stages :
    c.stages.length = 3 + if c.output.isSome && !c.check then 1 else 0 := by
  unfold stages target?
  cases c.check <;> cases c.output <;> rfl

theorem progressLine_eq {i : Nat} (h : i < c.stages.length) :
    ∃ label, ["Resolving input path", "Loading workspace", "Generating code",
        "Writing output"][i]? = some label ∧
      c.progressLine (i + 1) = "[" ++ (if c.check then "Check" else "Generate") ++ "] " ++ label ++
        "... (" ++ toString (i + 1) ++ "/" ++ toString c.stages.length ++ ") " ++
        progressBar (i + 1) c.stages.length 14 ++ "\n" := by
  have hlabel : c.stages[i]? = ["Resolving input path", "Loading workspace", "Generating code",
      "Writing output"][i]? := by
    unfold stages at h ⊢
    split
    · rfl
    · next htarget =>
      rw [if_neg htarget, List.append_nil] at h
      rw [List.append_nil]
      have hfirst : (["Resolving input path", "Loading workspace", "Generating code"] ++
          ["Writing output"])[i]? = _ := List.getElem?_append_left h
      exact hfirst.symm
  rw [← hlabel, List.getElem?_eq_getElem h]
  refine ⟨_, rfl, ?_⟩
  simp only [progressLine, Nat.add_sub_cancel, List.getElem?_eq_getElem h, Option.getD_some, task]

theorem lines_eq {stage : Nat} (hstage : stage ≤ c.stages.length) {i : Nat} {line : String}
    (h : (c.lines stage)[i]? = some line) :
    i < c.stages.length ∧ line = c.progressLine (i + 1) := by
  obtain ⟨hi, hline⟩ := List.getElem?_eq_some_iff.1 h
  have hlength : (c.lines stage).length = stage := by simp [lines]
  refine ⟨by omega, ?_⟩
  rw [← hline]
  simp [lines]

end Command

namespace Files

inductive Runs (fs : Files) (c : Command) : Aftermath → Prop
  | stopped {fault : RunFault} {cause : GenerateFault} {stage : Nat} {events : List Event} :
    fs.generate c.input c.options = .error cause → fault.stage = stage → stage ≤ 3 →
    Runs fs c ⟨fs, "", String.join (c.lines stage), events, .error fault⟩
  | checked {code : String} {events : List Event} :
    fs.generate c.input c.options = .ok code → c.check = true →
    Runs fs c ⟨fs, "", String.join (c.lines 3), events, .ok ()⟩
  | printed {code : String} {events : List Event} :
    fs.generate c.input c.options = .ok code → c.check = false → c.output = none →
    Runs fs c ⟨fs, code, String.join (c.lines 3), events, .ok ()⟩
  | written {code path : String} {fs' : Files} {events : List Event} :
    fs.generate c.input c.options = .ok code → c.check = false → c.output = some path →
    fs.write path code = .ok fs' →
    Runs fs c ⟨fs', "", String.join (c.lines 4), events, .ok ()⟩
  | refused {code path : String} {fault : FileFault} {events : List Event} :
    fs.generate c.input c.options = .ok code → c.check = false → c.output = some path →
    fs.write path code = .error fault →
    Runs fs c ⟨fs, "", String.join (c.lines 4), events, .error (.unwritable fault)⟩

theorem runs_run (fs : Files) (c : Command) : fs.Runs c (fs.run c) := by
  have hone : String.join (c.lines 1) = c.progressLine 1 := by simp [Command.lines]
  have htwo := c.join_lines_succ 1
  have hthree := c.join_lines_succ 2
  have hfour := c.join_lines_succ 3
  rw [hone] at htwo
  rw [htwo] at hthree
  rw [hthree] at hfour
  cases hinput : fs.inputFile? c.input with
  | none =>
    have hmade : fs.generate c.input c.options = .error (.file (.inputNotFound c.input)) := by
      rw [generate, hinput]
    simp only [run, Command.run, hinput, ← hone]
    exact .stopped hmade rfl (by decide)
  | some file =>
    cases hload : file.load with
    | error fault =>
      have hmade : fs.generate c.input c.options = .error (.file fault) := by
        simp only [generate, hinput, hload]
      simp only [run, Command.run, hinput, hload, ← htwo]
      exact .stopped hmade (file.stage_of_load hload) (by decide)
    | ok w =>
      have hmade : fs.generate c.input c.options =
          (Setup.run { options := c.options } w).1.mapError .blocks := by
        simp only [generate, hinput, hload, Setup.generate]
      rcases hrun : Setup.run { options := c.options } w with ⟨result, events⟩
      rw [hrun] at hmade
      cases result with
      | error fault =>
        simp only [run, Command.run, hinput, hload, hrun, ← hthree]
        exact .stopped hmade rfl (by decide)
      | ok code =>
        have hmade : fs.generate c.input c.options = .ok code := hmade
        cases hcheck : c.check with
        | true =>
          have hdelivery : c.delivery code = .none := by simp [Command.delivery, hcheck]
          simp only [run, Command.run, hinput, hload, hrun, hdelivery, ← hthree]
          exact .checked hmade hcheck
        | false =>
          cases houtput : c.output with
          | none =>
            have hdelivery : c.delivery code = .print code := by
              simp [Command.delivery, hcheck, houtput]
            simp only [run, Command.run, hinput, hload, hrun, hdelivery, ← hthree]
            exact .printed hmade hcheck houtput
          | some path =>
            have hdelivery : c.delivery code = .write path code := by
              simp [Command.delivery, hcheck, houtput]
            simp only [run, Command.run, hinput, hload, hrun, hdelivery, ← hfour]
            cases hwrite : fs.write path code with
            | ok fs' => exact .written hmade hcheck houtput hwrite
            | error fault => exact .refused hmade hcheck houtput hwrite

namespace Runs

variable {fs : Files} {c : Command} {a : Aftermath}

theorem fails_iff (h : fs.Runs c a) :
    a.result.isOk = false ↔ (fs.generate c.input c.options).isOk = false ∨
      c.check = false ∧ ∃ path code fault, c.output = some path ∧
        fs.generate c.input c.options = .ok code ∧ fs.write path code = .error fault := by
  cases h with
  | stopped hmade => simp [hmade, Except.isOk, Except.toBool]
  | checked hmade hcheck => simp [hmade, hcheck, Except.isOk, Except.toBool]
  | printed hmade hcheck houtput => simp [hmade, houtput, Except.isOk, Except.toBool]
  | written hmade hcheck houtput hwrite =>
    simp [hmade, houtput, hwrite, Except.isOk, Except.toBool]
  | refused hmade hcheck houtput hwrite =>
    simp [hmade, hcheck, houtput, hwrite, Except.isOk, Except.toBool]

theorem unchanged (h : fs.Runs c a) (hend : a.result.isOk = false ∨ c.check = true) :
    a.files = fs ∧ a.printed = "" := by
  cases h with
  | stopped => exact ⟨rfl, rfl⟩
  | checked => exact ⟨rfl, rfl⟩
  | printed hmade hcheck => simp [hcheck, Except.isOk, Except.toBool] at hend
  | written hmade hcheck => simp [hcheck, Except.isOk, Except.toBool] at hend
  | refused => exact ⟨rfl, rfl⟩

theorem delivered (h : fs.Runs c a) (hok : a.result.isOk = true) (hcheck : c.check = false) :
    ∃ code, fs.generate c.input c.options = .ok code ∧
      match c.output with
      | none => a.files = fs ∧ a.printed = code
      | some path => a.printed = "" ∧ ∃ place,
          a.files.node? = Function.update fs.node? place (some (.file code.toUTF8)) ∧
          a.files.file? path = some (place, code.toUTF8) := by
  cases h with
  | stopped => cases hok
  | checked hmade htrue => cases hcheck.symm.trans htrue
  | @printed code _ hmade _ houtput =>
    refine ⟨code, hmade, ?_⟩
    rw [houtput]
    exact ⟨rfl, rfl⟩
  | @written code path fs' _ hmade _ houtput hwrite =>
    refine ⟨code, hmade, ?_⟩
    rw [houtput]
    exact ⟨rfl, file?_of_write hwrite⟩
  | refused => cases hok

theorem progress_eq (h : fs.Runs c a) :
    ∃ stage, (match a.result with
        | .ok _ => c.stages.length
        | .error fault => fault.stage) = stage ∧
      0 < stage ∧ stage ≤ c.stages.length ∧ a.progress = String.join (c.lines stage) := by
  have hlength := c.length_stages
  cases h with
  | @stopped fault _ stage _ hmade hstage hle =>
    exact ⟨stage, hstage, hstage ▸ fault.stage_pos, by omega, rfl⟩
  | checked hmade hcheck =>
    have hthree : c.stages.length = 3 := by simp [hlength, hcheck]
    exact ⟨3, hthree, by decide, by omega, rfl⟩
  | printed hmade hcheck houtput =>
    have hthree : c.stages.length = 3 := by simp [hlength, houtput]
    exact ⟨3, hthree, by decide, by omega, rfl⟩
  | written hmade hcheck houtput =>
    have hfour : c.stages.length = 4 := by simp [hlength, houtput, hcheck]
    exact ⟨4, hfour, by decide, by omega, rfl⟩
  | refused hmade hcheck houtput =>
    have hfour : c.stages.length = 4 := by simp [hlength, houtput, hcheck]
    exact ⟨4, rfl, by decide, by omega, rfl⟩

end Runs

/--
A command has the code that its input file has. It fails if there is none or if it cannot be
written, and then changes nothing, as it does when it only checks; else it writes the code to the
output file and to no other one, or prints it. The lines that it prints on the way count the stages
from the first to the one in which it stops, out of as many as a command that succeeds goes through.
-/
theorem run_agrees (fs : Files) (c : Command) :
    let a := fs.run c
    let made := fs.generate c.input c.options
    let total := 3 + if c.output.isSome && !c.check then 1 else 0
    let stage := match a.result with
      | .ok _ => total
      | .error fault => fault.stage
    (a.result.isOk = false ↔ made.isOk = false ∨ c.check = false ∧ ∃ path code fault,
      c.output = some path ∧ made = .ok code ∧ fs.write path code = .error fault) ∧
    (a.result.isOk = false ∨ c.check = true → a.files = fs ∧ a.printed = "") ∧
    (a.result.isOk = true → c.check = false → ∃ code, made = .ok code ∧
      match c.output with
      | none => a.files = fs ∧ a.printed = code
      | some path => a.printed = "" ∧ ∃ place,
          a.files.node? = Function.update fs.node? place (some (.file code.toUTF8)) ∧
          a.files.file? path = some (place, code.toUTF8)) ∧
    0 < stage ∧ stage ≤ total ∧ ∃ lines : List String,
      a.progress = String.join lines ∧ lines.length = stage ∧
      ∀ i line, lines[i]? = some line → ∃ label,
        ["Resolving input path", "Loading workspace", "Generating code", "Writing output"][i]? =
          some label ∧
        line = "[" ++ (if c.check then "Check" else "Generate") ++ "] " ++ label ++ "... (" ++
          toString (i + 1) ++ "/" ++ toString total ++ ") " ++
          Command.progressBar (i + 1) total 14 ++ "\n" := by
  intro a made total stage
  have hruns : fs.Runs c a := fs.runs_run c
  obtain ⟨reached, hreached, hpos, hle, hprogress⟩ := hruns.progress_eq
  have htotal : c.stages.length = total := c.length_stages
  have hstage : stage = reached := by rw [← hreached, htotal]
  refine ⟨hruns.fails_iff, hruns.unchanged, hruns.delivered, hstage ▸ hpos,
    hstage ▸ htotal ▸ hle, c.lines reached, hprogress, by simp [Command.lines, hstage], ?_⟩
  intro i line hline
  obtain ⟨hi, rfl⟩ := c.lines_eq hle hline
  rw [← htotal]
  exact c.progressLine_eq hi

example :
    let source := r#"{"blocks": {"blocks": [{"type": "text_print"}]}}"#
    let fs : Files := {
      home := ["home", "work"],
      nodes := [(["home", "work", "in.json"], .file source.toUTF8), (["out"], .directory)] }
    let printed := fs.run { input := "in.json" }
    let written := fs.run { input := "/home/work/in.json", output := some "../../out/code.rs" }
    let checked := fs.run { input := "../work/in.json", output := some "/out", check := true }
    let refused := fs.run { input := "in.json", output := some "/out" }
    printed.printed = "println!();\n" ∧ printed.result.isOk = true ∧
      written.printed = "" ∧ written.result.isOk = true ∧
      (written.files.file? "/out/code.rs").map (·.2.data) =
        some "println!();\n".toUTF8.data ∧
      checked.printed = "" ∧ checked.result.isOk = true ∧
      refused.printed = "" ∧ refused.result.isOk = false := by
  decide +kernel

end Files

end BlockCode
