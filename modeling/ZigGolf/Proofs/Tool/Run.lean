import ZigGolf.Proofs.Minification.Outcome
import ZigGolf.Proofs.Storage.Folder
import ZigGolf.Proofs.Storage.Reading
import ZigGolf.Tool.Desk

/-!
# Minifying from the command line

What the tool does to the world when it is asked to minify.  It succeeds if and only if the input is
there and not too large, has valid tokens only, and its minified text has somewhere to go; then that
text is all that is written anywhere.  Otherwise it fails with a report, and the report is all that
is written (`Desk.invoke_minify`).
-/

namespace ZigGolf

namespace Desk

variable {desk : Desk} {settings : Settings}

/-! ### The world before and after -/

/-- The bytes of the input that settings name, or why it cannot be opened. -/
def source (desk : Desk) (settings : Settings) : Except OpenError Bytes :=
  if settings.input = [] then .ok desk.input.data else desk.folder.read settings.input

/-- There is somewhere for the output to go. -/
def TakesOutput (desk : Desk) (settings : Settings) : Prop :=
  settings.output = [] ∨ desk.folder.Writable settings.output

/-- All that a run needs to succeed. -/
structure Allows (desk : Desk) (settings : Settings) (data : Bytes) : Prop where
  opens : desk.source settings = .ok data
  fits : data.length ≤ settings.maxSize.toNat
  valid : ∀ t ∈ lex 0 (normalizeLineEnds data), t.kind ≠ .invalid
  takes : desk.TakesOutput settings

/-- The desk after a text has been written to where settings say, and nothing else anywhere. -/
structure Delivered (desk : Desk) (settings : Settings) (text : Bytes) (desk' : Desk) : Prop where
  errorOutput : desk'.errorOutput = desk.errorOutput
  printed : settings.output = [] →
    desk'.output = desk.output ++ text ∧ desk'.folder = desk.folder
  written : settings.output ≠ [] →
    desk'.output = desk.output ∧ desk'.folder.read settings.output = .ok text ∧
      ∃ place, desk.folder.locate settings.output = .ok place ∧
        desk.folder.Changed place text desk'.folder

/-- The desk after a report has been written, and nothing else anywhere. -/
structure Reported (desk desk' : Desk) : Prop where
  output : desk'.output = desk.output
  folder : desk'.folder = desk.folder
  errorOutput : ∃ report, report ≠ [] ∧ desk'.errorOutput = desk.errorOutput ++ report

/-! ### Single operations -/

/-- Actions run one after the other. -/
lemma run_bind {α β : Type} (x : StateM Desk α) (g : α → StateM Desk β) (desk : Desk) :
    (x >>= g).run desk = (g (x.run desk).1).run (x.run desk).2 := rfl

/-- What is printed comes behind the output so far. -/
lemma run_print (hbroken : desk.outputBroken = false) (text : Bytes) :
    (system.print text).run desk = (true, { desk with output := desk.output ++ text }) := by
  obtain ⟨folder, input, outputBroken, output, errorOutput⟩ := desk
  obtain rfl : outputBroken = false := hbroken
  rfl

/-- Writing a file changes the folder, or nothing if it fails. -/
lemma run_writeFile (desk : Desk) (path text : Bytes) :
    (system.writeFile path text).run desk =
      match desk.folder.write path text with
      | .ok folder => (true, { desk with folder })
      | .error _ => (false, desk) := by
  have hget : (get : StateM Desk Desk).run desk = (desk, desk) := rfl
  unfold system
  dsimp only
  rw [run_bind, hget]
  dsimp only
  cases desk.folder.write path text with
  | ok folder => rfl
  | error e => rfl

/-- A failure after a report. -/
lemma reported_fail (desk : Desk) {report : Bytes} (h : report ≠ []) :
    ∃ desk', (do system.printError report; return Tool.failure : StateM Desk UInt32).run desk =
      (Tool.failure, desk') ∧ desk.Reported desk' :=
  ⟨_, rfl, rfl, rfl, report, h, rfl⟩

/-- Both kinds of input are read alike. -/
lemma run_readInput (hbroken : desk.input.broken = false) :
    (Tool.readInput system settings).run desk =
      (match desk.source settings with
        | .ok data => readContent settings.maxSize data
        | .error cause => .error (.cannotOpen cause), desk) := by
  unfold Tool.readInput source
  by_cases hinput : settings.input = []
  · rw [if_pos hinput, if_pos hinput]
    dsimp only
    rw [← readStream_eq _ hbroken]
    rfl
  · have hfile : (system.readFile settings.input).run desk =
        (desk.folder.read settings.input, desk) := rfl
    rw [if_neg hinput, if_neg hinput, run_bind, hfile]
    dsimp only
    cases desk.folder.read settings.input with
    | ok content => rfl
    | error cause => rfl

/-- A text goes where there is somewhere for it to go. -/
lemma run_deliver_of_takesOutput (hbroken : desk.outputBroken = false)
    (h : desk.TakesOutput settings) (text : Bytes) :
    ∃ desk', (Tool.deliver system settings text).run desk = (none, desk') ∧
      desk.Delivered settings text desk' := by
  unfold Tool.deliver
  by_cases houtput : settings.output = []
  · refine ⟨{ desk with output := desk.output ++ text }, ?_, rfl, fun _ => ⟨rfl, rfl⟩,
      fun hne => absurd houtput hne⟩
    rw [if_pos houtput, run_bind, run_print hbroken]
    rfl
  · obtain ⟨folder, hwrite, hread, hchanged⟩ :=
      Folder.exists_write (h.resolve_left houtput) text
    refine ⟨{ desk with folder }, ?_, rfl, fun hnil => absurd hnil houtput,
      fun _ => ⟨rfl, hread, hchanged⟩⟩
    rw [if_neg houtput, run_bind, run_writeFile, hwrite]
    rfl

/-- A text that has nowhere to go is a problem, and nothing is changed. -/
lemma run_deliver_of_not_takesOutput (h : ¬ desk.TakesOutput settings) (text : Bytes) :
    ∃ problem, (Tool.deliver system settings text).run desk = (some problem, desk) ∧
      problem ≠ [] := by
  obtain ⟨houtput, hwritable⟩ := not_or.1 h
  obtain ⟨e, hwrite⟩ := Folder.write_of_not_writable hwritable text
  unfold Tool.deliver
  rw [if_neg houtput, run_bind, run_writeFile, hwrite]
  exact ⟨_, rfl, by simp [ascii]⟩

/-! ### Runs -/

variable {source : Bytes}

/-- Something is shown about a log with reports. -/
lemma logReport_ne_nil {log : Log} (h : log ≠ []) (sources : Registry) (context : UInt32) :
    Tool.logReport log sources context ≠ [] := by
  obtain ⟨d, log, rfl⟩ := List.exists_cons_of_ne_nil h
  simp [Tool.logReport]

/-- A source of valid tokens is minified, and nothing is reported. -/
lemma exists_minify_of_valid (ptr64 : Bool) (hvalid : ∀ t ∈ lex 0 source, t.kind ≠ .invalid) :
    ∃ text, minify ptr64 0 source = (some text, []) := by
  obtain ⟨hsome, hlog⟩ := minify_of_forall_valid ptr64 hvalid
  obtain ⟨text, htext⟩ := Option.isSome_iff_exists.1 hsome
  exact ⟨text, Prod.ext htext hlog⟩

/-- A source of valid tokens is minified if there is somewhere for the text to go. -/
lemma run_writeMinified_of_valid (hbroken : desk.outputBroken = false) (sources : Registry)
    (hvalid : ∀ t ∈ lex 0 source, t.kind ≠ .invalid) (htakes : desk.TakesOutput settings) :
    ∃ text desk', (minify settings.ptr64 0 source).1 = some text ∧
      (Tool.writeMinified system settings sources 0 source).run desk = (Tool.success, desk') ∧
      desk.Delivered settings text desk' := by
  obtain ⟨text, hminify⟩ := exists_minify_of_valid settings.ptr64 hvalid
  obtain ⟨desk', hdeliver, hdelivered⟩ := run_deliver_of_takesOutput hbroken htakes text
  refine ⟨text, desk', by rw [hminify], ?_, hdelivered⟩
  -- the report of an empty log is empty
  have hnothing : { desk' with errorOutput := desk'.errorOutput ++ [] } = desk' := by
    rw [List.append_nil]
  unfold Tool.writeMinified
  rw [hminify]
  dsimp only
  rw [run_bind, hdeliver]
  exact congrArg (Prod.mk Tool.success) hnothing

/-- Otherwise there is a report. -/
lemma run_writeMinified_of_not (sources : Registry)
    (h : ¬ ((∀ t ∈ lex 0 source, t.kind ≠ .invalid) ∧ desk.TakesOutput settings)) :
    ∃ desk', (Tool.writeMinified system settings sources 0 source).run desk =
      (Tool.failure, desk') ∧ desk.Reported desk' := by
  unfold Tool.writeMinified
  by_cases hvalid : ∀ t ∈ lex 0 source, t.kind ≠ .invalid
  · obtain ⟨text, hminify⟩ := exists_minify_of_valid settings.ptr64 hvalid
    obtain ⟨problem, hdeliver, hproblem⟩ :=
      run_deliver_of_not_takesOutput (fun htakes => h ⟨hvalid, htakes⟩) text
    rw [hminify]
    dsimp only
    rw [run_bind, hdeliver]
    exact reported_fail desk hproblem
  · push Not at hvalid
    obtain ⟨t, ht, hkind⟩ := hvalid
    obtain ⟨first, hfirst⟩ := exists_find?_invalid ht hkind
    obtain ⟨d, -, hminify⟩ := minify_of_first_invalid settings.ptr64 hfirst
    rw [hminify]
    exact reported_fail desk (logReport_ne_nil (by simp) sources settings.context)

/-- What comes of reading the input and minifying it. -/
lemma run_minify (haction : settings.action = .minify) (hinput : desk.input.broken = false)
    (houtput : desk.outputBroken = false) :
    (∃ data text desk', desk.Allows settings data ∧
        (minify settings.ptr64 0 (normalizeLineEnds data)).1 = some text ∧
        (Tool.run system settings).run desk = (Tool.success, desk') ∧
        desk.Delivered settings text desk') ∨
      (∀ data, ¬ desk.Allows settings data) ∧
        ∃ desk', (Tool.run system settings).run desk = (Tool.failure, desk') ∧
          desk.Reported desk' := by
  have hfail : ∀ e : ReadError, Tool.readFailureReport settings e ≠ [] := by
    intro e
    simp [Tool.readFailureReport]
  unfold Tool.run
  rw [run_bind, run_readInput hinput]
  cases hsource : desk.source settings with
  | error cause =>
    right
    refine ⟨fun data h => ?_, reported_fail desk (hfail _)⟩
    have hopens := h.opens
    simp [hsource] at hopens
  | ok data =>
    have heq : ∀ {data'}, desk.Allows settings data' → data' = data := by
      intro data' h
      have hopens := h.opens
      rw [hsource] at hopens
      exact (Except.ok.inj hopens).symm
    dsimp only
    unfold readContent
    by_cases hlarge : settings.maxSize.toNat < data.length
    · right
      rw [if_pos hlarge]
      refine ⟨fun data' h => ?_, reported_fail desk (hfail _)⟩
      have hfits := h.fits
      rw [heq h] at hfits
      omega
    · rw [if_neg hlarge]
      dsimp only
      rw [haction]
      dsimp only
      by_cases hgood : (∀ t ∈ lex 0 (normalizeLineEnds data), t.kind ≠ .invalid) ∧
          desk.TakesOutput settings
      · left
        obtain ⟨text, desk', htext, hrun, hdelivered⟩ :=
          run_writeMinified_of_valid houtput _ hgood.1 hgood.2
        exact ⟨data, text, desk', ⟨hsource, Nat.not_lt.1 hlarge, hgood.1, hgood.2⟩, htext, hrun,
          hdelivered⟩
      · right
        refine ⟨fun data' h => hgood ?_, run_writeMinified_of_not _ hgood⟩
        rw [← heq h]
        exact ⟨h.valid, h.takes⟩

/-! ### Result -/

/-- The tool, asked to minify where the standard streams work, succeeds if and only if the input can
be opened and is not too large, its text with normalised line ends has valid tokens only, and the
output can be written if a file is named for it.  Then what is written for that text goes to the
standard output or becomes the content of that file, and nothing else changes.  In all other cases
the tool fails with a report, and nothing else changes. -/
theorem invoke_minify {args : List Bytes} (hread : Settings.read args = (settings, none))
    (haction : settings.action = .minify) (hinput : desk.input.broken = false)
    (houtput : desk.outputBroken = false) :
    ((desk.invoke args).1 = 0 ↔ ∃ data, desk.Allows settings data) ∧
      (∀ data, desk.Allows settings data →
        ∃ text, (minify settings.ptr64 0 (normalizeLineEnds data)).1 = some text ∧
          desk.Delivered settings text (desk.invoke args).2) ∧
      ((desk.invoke args).1 ≠ 0 →
        (desk.invoke args).1 = 1 ∧ desk.Reported (desk.invoke args).2) := by
  have hinvoke : desk.invoke args = (Tool.run system settings).run desk := by
    unfold invoke Tool.invoke
    rw [hread]
    dsimp only
    rw [haction]
  rw [hinvoke]
  rcases run_minify haction hinput houtput with
    ⟨data, text, desk', hallows, htext, hrun, hdelivered⟩ | ⟨hnot, desk', hrun, hreported⟩
  · rw [hrun]
    refine ⟨⟨fun _ => ⟨data, hallows⟩, fun _ => rfl⟩, fun data' hallows' => ?_,
      fun hne => absurd rfl hne⟩
    have hopens := hallows.opens
    rw [hallows'.opens] at hopens
    rw [Except.ok.inj hopens]
    exact ⟨text, htext, hdelivered⟩
  · rw [hrun]
    have hfailure : Tool.failure ≠ 0 := by decide
    exact ⟨⟨fun hzero => absurd hzero hfailure, fun ⟨data, hallows⟩ => absurd hallows (hnot data)⟩,
      fun data hallows => absurd hallows (hnot data), fun _ => ⟨rfl, hreported⟩⟩

/-- The standard input, with a line end of two bytes, is minified to a new file. -/
theorem invoke_minify_to_file :
    (invoke [ascii "-o", ascii "out"] { input := ⟨ascii "foo =\r\n 1;", false⟩ }).1 = 0 ∧
      (invoke [ascii "-o", ascii "out"]
        { input := ⟨ascii "foo =\r\n 1;", false⟩ }).2.folder.read (ascii "out") =
          .ok (ascii "a=1;") := by
  obtain ⟨hread, hvalid, hminify, hlocate, hentry⟩ :
      Settings.read [ascii "-o", ascii "out"] = ({ output := ascii "out" }, none) ∧
        (∀ t ∈ lex 0 (normalizeLineEnds (ascii "foo =\r\n 1;")), t.kind ≠ .invalid) ∧
        (minify false 0 (normalizeLineEnds (ascii "foo =\r\n 1;"))).1 = some (ascii "a=1;") ∧
        Folder.locate {} (ascii "out") = .ok ⟨.above 0, [ascii "out"]⟩ ∧
        Folder.entry? {} ⟨.above 0, [ascii "out"]⟩ ≠ some .directory := by
    decide +kernel
  have hallows : Allows { input := ⟨ascii "foo =\r\n 1;", false⟩ } { output := ascii "out" }
      (ascii "foo =\r\n 1;") := ⟨rfl, by decide, hvalid, .inr ⟨_, hlocate, hentry⟩⟩
  obtain ⟨hexit, hdelivered, -⟩ :=
    @invoke_minify { input := ⟨ascii "foo =\r\n 1;", false⟩ } _ _ hread rfl rfl rfl
  obtain ⟨text, htext, hdesk⟩ := hdelivered _ hallows
  rw [hminify] at htext
  obtain rfl := Option.some.inj htext
  exact ⟨hexit.2 ⟨_, hallows⟩, (hdesk.written (by decide)).2.1⟩

end Desk

end ZigGolf
