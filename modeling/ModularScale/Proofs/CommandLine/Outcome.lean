import Mathlib
import ModularScale.CommandLine.Directory
import ModularScale.Proofs.Css.Balanced
import ModularScale.Proofs.Scale.Table

/-! # All or nothing

A run that lacks what it needs ends with status 1 and leaves the world as it is. Any other run
writes its result to the one place that is asked for, whether or not it is strict, and its status
tells a strict run that something was dropped.
-/

namespace ModularScale.CommandLine

/-! ### What a run reads -/

/-- The text of a file, where there is one in UTF-8. -/
def text? (read : String → Except FileError ByteArray) (path : String) : Option String :=
  ((read path).bind decode).toOption

/-- The settings that a file holds, or the default ones without a file. -/
def settings? (read : String → Except FileError ByteArray) : Option String → Option Settings
  | none => some {}
  | some path => (text? read path).bind Settings.ofText?

/-- The table of the settings, where they are accepted. -/
def table? (read : String → Except FileError ByteArray) (path : Option String) :
    Option Breakpoints :=
  (settings? read path).bind fun settings => (Breakpoints.ofSettings settings).toOption

/-- The style sheet in a file, or the one given as input without a file. -/
def sheet? (read : String → Except FileError ByteArray) (input : ByteArray) :
    Option String → Option String
  | none => (decode input).toOption
  | some path => text? read path

theorem statusOf_eq (strict : Bool) (report : Report) : statusOf strict report =
    if strict = true ∧ report.diagnostics ≠ [] then 2 else 0 := by
  simp [statusOf, Report.isClean]

section Host

variable {S : Type} {host : Host (StateM S)} {read : S → String → Except FileError ByteArray}
  {input : S → ByteArray} {o : Options} {path : Option String} {s : S}

/-- Reading shows what the state holds and does not change it. -/
structure Host.Reads (host : Host (StateM S)) (read : S → String → Except FileError ByteArray)
    (input : S → ByteArray) : Prop where
  readFile : ∀ path s, (host.readFile path).run s = (read s path, s)
  readInput : ∀ s, host.readInput.run s = (input s, s)

theorem run_bind_of {α β : Type} {x : StateM S α} {f : α → StateM S β} {a : α} {s s' : S}
    (h : x.run s = (a, s')) : (x >>= f).run s = (f a).run s' := by
  rw [StateT.run_bind, h]
  rfl

theorem run_logs (messages : List String) (s : S) :
    (forIn messages PUnit.unit fun message _ => do
      host.log message
      return ForInStep.yield PUnit.unit : StateM S PUnit).run s =
      (PUnit.unit, messages.foldl (fun s message => ((host.log message).run s).2) s) := by
  induction messages generalizing s with
  | nil => rfl
  | cons message messages ih =>
    have hlog : (host.log message).run s = ((), ((host.log message).run s).2) := rfl
    simp only [List.forIn_cons, bind_assoc, pure_bind]
    rw [run_bind_of hlog]
    exact ih _

namespace Host.Reads

theorem run_readText (h : host.Reads read input) (path : String) (s : S) :
    (host.readText path).run s = ((read s path).bind decode, s) :=
  run_bind_of (h.readFile path s)

theorem run_loadSettings (h : host.Reads read input) (path : Option String) (s : S) :
    ∃ r, (loadSettings host path).run s = (r, s) ∧ r.toOption = settings? (read s) path := by
  cases path with
  | none => exact ⟨.ok {}, rfl, rfl⟩
  | some path =>
    rw [show (loadSettings host (some path)).run s = _ from run_bind_of (h.run_readText path s),
      settings?, text?]
    cases (read s path).bind decode with
    | error e => exact ⟨_, rfl, rfl⟩
    | ok text =>
      dsimp only [Except.toOption, Option.bind_some]
      cases Settings.ofText? text with
      | none => exact ⟨_, rfl, rfl⟩
      | some settings => exact ⟨_, rfl, rfl⟩

/-- Loading the table shows whether there is one. -/
theorem run_loadTable (h : host.Reads read input) (path : Option String) (s : S) :
    ∃ r, (loadTable host path).run s = (r, s) ∧ r.toOption = table? (read s) path := by
  obtain ⟨r, hr, hsettings⟩ := h.run_loadSettings path s
  rw [show (loadTable host path).run s = _ from run_bind_of hr, table?, ← hsettings]
  cases r with
  | error e => exact ⟨_, rfl, rfl⟩
  | ok settings =>
    cases ht : Breakpoints.ofSettings settings with
    | error e =>
      exact ⟨.error (.invalidSettings e), by simp [ht]; rfl, by simp [ht, Except.toOption]⟩
    | ok table => exact ⟨.ok table, by simp [ht]; rfl, by simp [ht, Except.toOption]⟩

theorem run_loadSheet (h : host.Reads read input) (path : Option String) (s : S) :
    ∃ r, (loadSheet host path).run s = (r, s) ∧
      r.toOption = sheet? (read s) (input s) path := by
  cases path with
  | none =>
    rw [show (loadSheet host none).run s = _ from run_bind_of (h.readInput s), sheet?]
    cases decode (input s) with
    | error e => exact ⟨_, rfl, rfl⟩
    | ok text => exact ⟨_, rfl, rfl⟩
  | some path =>
    rw [show (loadSheet host (some path)).run s = _ from run_bind_of (h.run_readText path s),
      sheet?, text?]
    cases (read s path).bind decode with
    | error e => exact ⟨_, rfl, rfl⟩
    | ok text => exact ⟨_, rfl, rfl⟩

/-- Without a table or a style sheet a run does nothing but report why. -/
theorem run_work_of_lacking (h : host.Reads read input)
    (hn : table? (read s) o.config = none ∨ sheet? (read s) (input s) o.input = none) :
    ∃ failure, ∀ strict, (work host { o with strict }).run s = (.error failure, s) := by
  obtain ⟨r, hr, htable⟩ := h.run_loadTable o.config s
  have hwork := fun strict => show (work host { o with strict }).run s = _ from run_bind_of hr
  cases r with
  | error failure => exact ⟨failure, hwork⟩
  | ok table =>
    obtain ⟨r, hr, hsheet⟩ := h.run_loadSheet o.input s
    have hwork := fun strict => (hwork strict).trans (run_bind_of hr)
    cases r with
    | error failure => exact ⟨failure, hwork⟩
    | ok css =>
      rw [← htable, ← hsheet] at hn
      rcases hn with hn | hn <;> cases hn

/-- With both a run works on the style sheet, reports what there is to report and then stores the
result. -/
theorem run_work_of_given (h : host.Reads read input) {table : Breakpoints} {css : String}
    (ht : table? (read s) o.config = some table)
    (hc : sheet? (read s) (input s) o.input = some css) :
    let pass := Pass.run table (.ofSheet (.ofText css))
    let stored := (store host o.output (render o.json pass.document)).run
      ((reports pass).foldl (fun s message => ((host.log message).run s).2) s)
    (work host o).run s = (stored.1.map fun _ => statusOf o.strict pass.report, stored.2) := by
  obtain ⟨r, hr, htable⟩ := h.run_loadTable o.config s
  obtain ⟨r', hr', hsheet⟩ := h.run_loadSheet o.input s
  rw [ht] at htable
  rw [hc] at hsheet
  cases r with
  | error => cases htable
  | ok table =>
    cases r' with
    | error => cases hsheet
    | ok css =>
      cases htable
      cases hsheet
      rw [show (work host o).run s = _ from run_bind_of hr]
      dsimp only
      rw [run_bind_of hr']
      dsimp only
      let pass := Pass.run table (.ofSheet (.ofText css))
      obtain ⟨stored, s', hstored⟩ : ∃ stored s',
          (store host o.output (render o.json pass.document)).run
            ((reports pass).foldl (fun s message => ((host.log message).run s).2) s) =
              (stored, s') := ⟨_, _, rfl⟩
      rw [run_bind_of (run_logs _ s), run_bind_of hstored, hstored]
      cases stored <;> rfl

/-- A run that lacks something ends with status 1 and a report. -/
theorem run_of_lacking (h : host.Reads read input)
    (hn : table? (read s) o.config = none ∨ sheet? (read s) (input s) o.input = none) :
    ∃ message, ∀ strict, (run host (.work { o with strict })).run s =
      (1, ((host.log message).run s).2) := by
  obtain ⟨failure, hw⟩ := h.run_work_of_lacking hn
  refine ⟨"ERROR " ++ failure.message, fun strict => ?_⟩
  exact run_bind_of (hw strict)

/-- Any other run ends with its own status, unless its result cannot be stored. -/
theorem run_of_given (h : host.Reads read input) {table : Breakpoints} {css : String}
    (ht : table? (read s) o.config = some table)
    (hc : sheet? (read s) (input s) o.input = some css) :
    let pass := Pass.run table (.ofSheet (.ofText css))
    let stored := (store host o.output (render o.json pass.document)).run
      ((reports pass).foldl (fun s message => ((host.log message).run s).2) s)
    (run host (.work o)).run s =
      match stored.1 with
      | .ok _ => (statusOf o.strict pass.report, stored.2)
      | .error failure => (1, ((host.log ("ERROR " ++ failure.message)).run stored.2).2) := by
  intro pass stored
  have hw : (work host o).run s =
      (stored.1.map fun _ => statusOf o.strict pass.report, stored.2) :=
    h.run_work_of_given ht hc
  obtain ⟨r, s', hstored⟩ : ∃ r s', stored = (r, s') := ⟨_, _, rfl⟩
  rw [hstored] at hw ⊢
  rw [show (run host (.work o)).run s = _ from run_bind_of hw]
  cases r <;> rfl

/-- What a run leaves behind is the same whether or not it is strict. -/
theorem run_strict (h : host.Reads read input) (o : Options) (strict : Bool) (s : S) :
    ((run host (.work { o with strict })).run s).2 = ((run host (.work o)).run s).2 := by
  have hlacking (hn : table? (read s) o.config = none ∨
      sheet? (read s) (input s) o.input = none) :
      ((run host (.work { o with strict })).run s).2 = ((run host (.work o)).run s).2 := by
    obtain ⟨message, hm⟩ := h.run_of_lacking hn
    exact congrArg Prod.snd ((hm strict).trans (hm o.strict).symm)
  cases ht : table? (read s) o.config with
  | none => exact hlacking (.inl ht)
  | some table =>
    cases hc : sheet? (read s) (input s) o.input with
    | none => exact hlacking (.inr hc)
    | some css =>
      have hstrict := h.run_of_given (o := { o with strict }) ht hc
      have hrun := h.run_of_given ht hc
      dsimp only at hstrict hrun
      rw [hstrict, hrun]
      split <;> rfl

end Host.Reads

end Host

/-! ### Runs in a file system -/

/-- Files that can be read and written. A write may fail, and may then leave anything behind. -/
structure FileSystem (σ : Type) where
  read : σ → String → Except FileError ByteArray
  write : σ → String → String → Except FileError Unit × σ

/-- The files, the input of a run, and what the run has written elsewhere. -/
structure World (σ : Type) where
  files : σ
  input : ByteArray
  output : String := ""
  reports : List String := []

namespace FileSystem

variable {σ : Type} (fs : FileSystem σ)

/-- The host that a file system makes up. -/
def host : Host (StateM (World σ)) where
  readFile path := do return fs.read (← get).files path
  readInput := do return (← get).input
  writeFile path text := modifyGet fun w =>
    ((fs.write w.files path text).1, { w with files := (fs.write w.files path text).2 })
  writeOutput text := modify fun w => { w with output := w.output ++ text }
  report text := modify fun w => { w with reports := w.reports ++ [text] }

/-- Runs the program, and gives its exit status and the world after it. -/
def run (w : World σ) (args : List String) (config : Option String) : UInt8 × World σ :=
  (CommandLine.run fs.host (Request.ofCall args config)).run w

theorem reads : fs.host.Reads (fun w => fs.read w.files) World.input :=
  ⟨fun _ _ => rfl, fun _ => rfl⟩

/-- A report changes nothing else. -/
theorem run_log (message : String) (w : World σ) :
    ∃ reports, ((fs.host.log message).run w).2 = { w with reports } :=
  ⟨_, rfl⟩

theorem run_logs (messages : List String) (w : World σ) :
    ∃ reports, messages.foldl (fun w message => ((fs.host.log message).run w).2) w =
      { w with reports } := by
  induction messages generalizing w with
  | nil => exact ⟨w.reports, rfl⟩
  | cons message messages ih => exact ih _

theorem run_store (path text : String) (w : World σ) :
    (store fs.host (some path) text).run w =
      ((fs.write w.files path text).1.mapError (.unwritable path),
        { w with files := (fs.write w.files path text).2 }) := by
  have hwrite : (fs.host.writeFile path text).run w = ((fs.write w.files path text).1,
      { w with files := (fs.write w.files path text).2 }) := rfl
  rw [show (store fs.host (some path) text).run w = _ from run_bind_of hwrite]
  cases (fs.write w.files path text).1 <;> rfl

variable {fs} {w : World σ} {o : Options} {table : Breakpoints} {css : String}

/-- Without an output file the result goes to the output. -/
theorem run_to_output (ht : table? (fs.read w.files) o.config = some table)
    (hc : sheet? (fs.read w.files) w.input o.input = some css) (ho : o.output = none) :
    let pass := Pass.run table (.ofSheet (.ofText css))
    ∃ reports, (CommandLine.run fs.host (.work o)).run w = (statusOf o.strict pass.report,
      { w with output := w.output ++ render o.json pass.document, reports }) := by
  intro pass
  obtain ⟨reports, hlogs⟩ := fs.run_logs (CommandLine.reports pass) w
  have hrun := fs.reads.run_of_given ht hc
  rw [ho] at hrun
  dsimp only at hrun
  rw [hlogs] at hrun
  exact ⟨reports, hrun⟩

/-- With an output file the result goes to this file, and not to the output. -/
theorem run_to_file (ht : table? (fs.read w.files) o.config = some table)
    (hc : sheet? (fs.read w.files) w.input o.input = some css) {path : String}
    (ho : o.output = some path) :
    let pass := Pass.run table (.ofSheet (.ofText css))
    let written := fs.write w.files path (render o.json pass.document)
    ∃ reports, (CommandLine.run fs.host (.work o)).run w =
      (match written.1 with
        | .ok _ => statusOf o.strict pass.report
        | .error _ => 1, { w with files := written.2, reports }) := by
  intro pass written
  obtain ⟨reports, hlogs⟩ := fs.run_logs (CommandLine.reports pass) w
  have hrun := fs.reads.run_of_given ht hc
  rw [ho] at hrun
  dsimp only at hrun
  rw [hlogs, run_store] at hrun
  cases hwritten : written.1 with
  | ok =>
    rw [show (fs.write w.files path (render o.json pass.document)).1 = _ from hwritten] at hrun
    exact ⟨reports, hrun⟩
  | error e =>
    rw [show (fs.write w.files path (render o.json pass.document)).1 = _ from hwritten] at hrun
    exact ⟨_, hrun⟩

/-- What a run does in any world, for any arguments that ask for work. If it cannot read an accepted
configuration and a style sheet, its status is 1, and it writes nothing. Otherwise it writes the
document, as a style sheet or as a JSON text with a line end, to the output or to the one file that
is asked for; its status is 2 if it is strict and something was dropped, and else 0, unless that
file cannot be written. What it writes is the same whether or not it is strict. -/
theorem run_all_or_nothing (w : World σ) {args : List String} {config : Option String} {o : Options}
    (h : Request.ofCall args config = .work o) :
    (table? (fs.read w.files) o.config = none ∨ sheet? (fs.read w.files) w.input o.input = none →
      (fs.run w args config).1 = 1 ∧ (fs.run w args config).2.output = w.output ∧
        (fs.run w args config).2.files = w.files) ∧
    (∀ table css, table? (fs.read w.files) o.config = some table →
      sheet? (fs.read w.files) w.input o.input = some css →
      let pass := Pass.run table (.ofSheet (.ofText css))
      let text := if o.json = true then String.ofList (pass.document.toJson.pretty 0 ++ ['\n'])
        else pass.document.print
      let status := if o.strict = true ∧ pass.report.diagnostics ≠ [] then 2 else 0
      (o.output = none → (fs.run w args config).1 = status ∧
        (fs.run w args config).2.output = w.output ++ text ∧
        (fs.run w args config).2.files = w.files) ∧
      ∀ path, o.output = some path → (fs.run w args config).2.output = w.output ∧
        (fs.run w args config).2.files = (fs.write w.files path text).2 ∧
        ((fs.write w.files path text).1 = .ok () → (fs.run w args config).1 = status) ∧
        ∀ e, (fs.write w.files path text).1 = .error e → (fs.run w args config).1 = 1) ∧
    ∀ args' o', Request.ofCall args' config = .work o' → { o' with strict := o.strict } = o →
      (fs.run w args' config).2 = (fs.run w args config).2 := by
  have hrun : fs.run w args config = (CommandLine.run fs.host (.work o)).run w := by
    rw [run, h]
  refine ⟨fun hn => ?_, fun table css ht hc => ⟨fun ho => ?_, fun path ho => ?_⟩, ?_⟩
  · obtain ⟨message, hm⟩ := fs.reads.run_of_lacking hn
    obtain ⟨reports, hlog⟩ := fs.run_log message w
    have hm := (hm o.strict).trans (congrArg (Prod.mk 1) hlog)
    rw [hrun, show _ = _ from hm]
    exact ⟨rfl, rfl, rfl⟩
  · obtain ⟨reports, hto⟩ := run_to_output ht hc ho
    rw [hrun, hto]
    exact ⟨statusOf_eq _ _, rfl, rfl⟩
  · obtain ⟨reports, hto⟩ := run_to_file ht hc ho
    rw [hrun, hto]
    refine ⟨rfl, rfl, ?_, ?_⟩
    · intro (hw : (fs.write w.files path (render o.json _)).1 = .ok ())
      rw [hw]
      exact statusOf_eq _ _
    · intro e (hw : (fs.write w.files path (render o.json _)).1 = .error e)
      rw [hw]
  · intro args' o' h' ho
    have hrun' : fs.run w args' config = (CommandLine.run fs.host (.work o')).run w := by
      rw [run, h']
    rw [hrun, hrun', ← ho]
    exact (fs.reads.run_strict o' o.strict w).symm

/-- Files that are known by their paths alone. -/
def flat : FileSystem (List (String × ByteArray)) where
  read files path :=
    match files.lookup path with
    | some content => .ok content
    | none => .error .missing
  write files path text := (.ok (), (path, text.toUTF8) :: files.filter (·.1 != path))

theorem sheet_of_no_step : Css.Sheet.ofText ".x{font-size:t-ms(a)}" =
    ⟨.single ⟨.rule ".x", some 1⟩
      (.single ⟨.declaration "font-size" "t-ms(a)" false, some 1⟩ .nil), 0⟩ := by
  rw [Css.Sheet.ofText, Css.Components.ofText, Css.Components.ofLexemes_eq]
  cbv

/-- A strict run tells that a rule was dropped, and writes what another one writes. The sheet that
is left is written as JSON on demand. Without the style sheet a run ends with status 1. -/
theorem run_all_or_nothing_strict :
    let css := ".x{font-size:t-ms(a)}"
    let w : World (List (String × ByteArray)) := ⟨[("a.css", css.toUTF8)], .empty, "", []⟩
    let r := flat.run w ["--strict", "-o", "b.css", "a.css"] none
    r.1 = 2 ∧ r.2.output = "" ∧ r.2.files = [("b.css", "".toUTF8), ("a.css", css.toUTF8)] ∧
      (flat.run w ["-ob.css", "a.css"] none).2 = r.2 ∧
      (flat.run w ["--json", "a.css"] none).2.output =
        "\x7b\n  \"children\": [],\n  \"type\": \"root\"\n\x7d\n" ∧
      (flat.run { w with files := [] } ["a.css"] none).1 = 1 := by
  intro css w r
  have hcall : Request.ofCall ["--strict", "-o", "b.css", "a.css"] none =
      .work { strict := true, output := some "b.css", input := some "a.css" } := by decide +kernel
  have hlax : Request.ofCall ["-ob.css", "a.css"] none =
      .work { output := some "b.css", input := some "a.css" } := by decide +kernel
  have hjson : Request.ofCall ["--json", "a.css"] none =
      .work { json := true, input := some "a.css" } := by decide +kernel
  have hbare : Request.ofCall ["a.css"] none = .work { input := some "a.css" } := by
    decide +kernel
  have htable : table? (flat.read w.files) none = some .standard := by
    simp [table?, settings?, Breakpoints.ofSettings_default, Except.toOption]
  have hsheet : sheet? (flat.read w.files) w.input (some "a.css") = some css := by decide +kernel
  have hpass : let pass := Pass.run .standard (.ofSheet (.ofText css))
      pass.report.diagnostics ≠ [] ∧ pass.document.print = "" ∧
        String.ofList (pass.document.toJson.pretty 0 ++ ['\n']) =
          "\x7b\n  \"children\": [],\n  \"type\": \"root\"\n\x7d\n" := by
    rw [sheet_of_no_step]
    decide +kernel
  obtain ⟨-, hgiven, hstrict⟩ := flat.run_all_or_nothing w hcall
  obtain ⟨-, hfile⟩ := hgiven .standard css htable hsheet
  obtain ⟨houtput, hfiles, hstatus, -⟩ := hfile "b.css" rfl
  obtain ⟨-, hgivenJson, -⟩ := flat.run_all_or_nothing w hjson
  obtain ⟨hshown, -⟩ := hgivenJson .standard css htable hsheet
  obtain ⟨hlacking, -⟩ := flat.run_all_or_nothing { w with files := [] } hbare
  refine ⟨?_, houtput, ?_, hstrict _ _ hlax rfl, ?_, (hlacking (.inr rfl)).1⟩
  · rw [hstatus rfl, if_pos ⟨rfl, hpass.1⟩]
  · rw [hfiles, if_neg Bool.false_ne_true, hpass.2.1]
    rfl
  · rw [(hshown rfl).2.1, if_pos rfl, hpass.2.2]
    rfl

end FileSystem

/-! ### Runs in a directory -/

namespace Session

theorem reads : host.Reads read input := ⟨fun _ _ => rfl, fun _ => rfl⟩

/-- A path that leads to a file of this name, which need not be there yet. -/
def Leads (s : Session) (path name : String) : Prop :=
  (∃ content, s.place path = .file name content) ∨ s.place path = .vacant name

theorem leads_congr {s s' : Session} (h : s'.files = s.files) {path name : String} :
    s'.Leads path name ↔ s.Leads path name := by
  rw [Leads, Leads, show s'.place path = s.place path by
    simp only [place, placeOfPath, placeOfName, file?, h]]

theorem files_of_logs (messages : List String) (s : Session) :
    (messages.foldl (fun s message => ((host.log message).run s).2) s).files = s.files := by
  induction messages generalizing s with
  | nil => rfl
  | cons message messages ih => exact ih _

theorem lookup_filter_ne {name other : String} (h : other ≠ name)
    (files : List (String × ByteArray)) :
    (files.filter (·.1 != name)).lookup other = files.lookup other := by
  induction files with
  | nil => rfl
  | cons file files ih =>
    by_cases hf : file.1 = name
    · have hne : (other == file.1) = false := by rwa [hf, beq_eq_false_iff_ne]
      rw [List.filter_cons_of_neg (by simpa using hf), ih, List.lookup_cons, hne]
    · rw [List.filter_cons_of_pos (by simpa using hf), List.lookup_cons, List.lookup_cons, ih]

theorem lookup_replaced {name other : String} (h : other ≠ name) (content : ByteArray)
    (files : List (String × ByteArray)) :
    ((name, content) :: files.filter (·.1 != name)).lookup other = files.lookup other := by
  rw [List.lookup_cons, beq_eq_false_iff_ne.mpr h]
  exact lookup_filter_ne h files

/-- Writing to a path leaves the files that it does not lead to. -/
theorem file?_write {s s' : Session} {path text name : String} (h : s.write path text = .ok s')
    (hn : ¬ s.Leads path name) : s'.file? name = s.file? name := by
  rw [write] at h
  split at h
  case h_1 other content hp =>
    cases h
    refine lookup_replaced (fun he => hn (.inl ⟨content, ?_⟩)) _ _
    rw [hp, he]
  case h_2 other hp =>
    cases h
    refine lookup_replaced (fun he => hn (.inr ?_)) _ _
    rw [hp, he]
  all_goals cases h

theorem file?_store {s : Session} {path text name : String} (hn : ¬ s.Leads path name) :
    ((store host (some path) text).run s).2.file? name = s.file? name := by
  cases hs : s.write path text with
  | error e =>
    have hwrite : (host.writeFile path text).run s = (.error e, s) := by
      simp [host, hs]
      rfl
    rw [show (store host (some path) text).run s = _ from run_bind_of hwrite]
    rfl
  | ok s' =>
    have hwrite : (host.writeFile path text).run s = (.ok (), s') := by
      simp [host, hs]
      rfl
    rw [show (store host (some path) text).run s = _ from run_bind_of hwrite]
    exact file?_write hs hn

theorem file?_work {s : Session} {o : Options} {name : String}
    (hn : ∀ path, o.output = some path → ¬ s.Leads path name) :
    ((CommandLine.run host (.work o)).run s).2.file? name = s.file? name := by
  by_cases hlacking : table? s.read o.config = none ∨ sheet? s.read s.input o.input = none
  · obtain ⟨message, hm⟩ := reads.run_of_lacking hlacking
    rw [show (CommandLine.run host (.work o)).run s = _ from hm o.strict]
    rfl
  · obtain ⟨table, ht⟩ := Option.ne_none_iff_exists'.mp (not_or.mp hlacking).1
    obtain ⟨css, hc⟩ := Option.ne_none_iff_exists'.mp (not_or.mp hlacking).2
    let pass := Pass.run table (.ofSheet (.ofText css))
    let logged := (CommandLine.reports pass).foldl (fun s message => ((host.log message).run s).2) s
    have hlogged : logged.files = s.files := files_of_logs _ s
    have hstored : ((store host o.output (render o.json pass.document)).run logged).2.file? name =
        s.file? name := by
      cases ho : o.output with
      | none => exact congrArg (List.lookup name) hlogged
      | some path =>
        have hl : ¬ logged.Leads path name := by
          rw [leads_congr hlogged]
          exact hn path ho
        exact (file?_store hl).trans (congrArg (List.lookup name) hlogged)
    have hrun := reads.run_of_given ht hc
    dsimp only at hrun
    rw [hrun]
    split <;> exact hstored

/-- A run changes no file but the one that its output goes to. -/
theorem file?_run {s : Session} {args : List String} {config : Option String} {name : String}
    (h : (s.run args config).2.file? name ≠ s.file? name) : ∃ o path,
      Request.ofCall args config = .work o ∧ o.output = some path ∧ s.Leads path name := by
  rw [run] at h
  cases hcall : Request.ofCall args config with
  | version | help | misuse =>
    rw [hcall] at h
    exact absurd rfl h
  | work o =>
    rw [hcall] at h
    by_contra hn
    exact h (file?_work fun path ho hl => hn ⟨o, path, rfl, ho, hl⟩)

end Session

end ModularScale.CommandLine
