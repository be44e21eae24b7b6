import PolishLogic.CommandLine.Run
import PolishLogic.Proofs.Log.Loggers
import PolishLogic.Proofs.Log.Silence
import PolishLogic.Proofs.Reading.Table
import PolishLogic.Proofs.Text.Utf8

/-! # What a run of the command line answers

`Chooses` and `FileFails` say which formula a run is about, and `Answers` the exit code and the
lines that it comes to when nothing is logged. A run at any level answers so after what it logs
(`answers_of_options`). -/

namespace PolishLogic

theorem joinLines_append (lines lines' : List String) :
    joinLines (lines ++ lines') = joinLines lines ++ joinLines lines' := by
  rw [joinLines, List.map_append, String.join_append, joinLines, joinLines]

namespace CommandLine

/-- The formula that a run is about. -/
inductive Chooses (o : Options) (read : Reader) : String → Prop
  | file {path text : String} (hfile : o.file = some path)
    (hread : read path = .ok (Utf8.encode text))
    (hblank : trim (unifyLineEnds text.toList) ≠ []) :
    Chooses o read (String.ofList (trim (unifyLineEnds text.toList)))
  | argument {s : String} (hfile : o.file = none) (harg : o.formula = some s) : Chooses o read s
  | default (hfile : o.file = none) (harg : o.formula = none) : Chooses o read defaultFormula

/-- There is a formula file, and it is of no use. -/
inductive FileFails (o : Options) (read : Reader) : FileError → Prop
  | unreadable {path : String} {e : FileError} (hfile : o.file = some path)
    (hread : read path = .error e) : FileFails o read e
  | notUtf8 {path : String} {bytes : List UInt8} {e : Utf8.Error} (hfile : o.file = some path)
    (hread : read path = .ok bytes) (hbytes : ∀ text, Utf8.encode text ≠ bytes)
    (he : Utf8.decode bytes = .error e) : FileFails o read (.notUtf8 e)
  | blank {path text : String} (hfile : o.file = some path)
    (hread : read path = .ok (Utf8.encode text))
    (hblank : trim (unifyLineEnds text.toList) = []) : FileFails o read .blank

section choice

variable {o : Options} {read : Reader}

theorem chosenFormula_of_file {path : String} (hfile : o.file = some path) :
    o.chosenFormula read = read path >>= formulaOfBytes := by
  rw [Options.chosenFormula, hfile]

theorem chosenFormula_of_read {path : String} {bytes : List UInt8} (hfile : o.file = some path)
    (hread : read path = .ok bytes) : o.chosenFormula read = formulaOfBytes bytes := by
  rw [chosenFormula_of_file hfile, hread]
  rfl

/-- A file that holds the encoding of a text is the formula of that text. -/
theorem chosenFormula_of_encode {path text : String} (hfile : o.file = some path)
    (hread : read path = .ok (Utf8.encode text)) :
    o.chosenFormula read = formulaOfText text.toList := by
  rw [chosenFormula_of_read hfile hread, formulaOfBytes, Utf8.decode_encode]

/-- What `Chooses` says of the options and the files is what the program converts. -/
theorem chosenFormula_of_chooses {s : String} (h : Chooses o read s) :
    o.chosenFormula read = .ok s := by
  cases h with
  | @file path text hfile hread hblank =>
    rw [chosenFormula_of_encode hfile hread, formulaOfText]
    cases ht : trim (unifyLineEnds text.toList) with
    | nil => exact absurd ht hblank
    | cons c cs => rfl
  | argument hfile harg | default hfile harg =>
    rw [Options.chosenFormula, hfile, harg]
    rfl

theorem chosenFormula_of_fileFails {e : FileError} (h : FileFails o read e) :
    o.chosenFormula read = .error e := by
  cases h with
  | unreadable hfile hread =>
    rw [chosenFormula_of_file hfile, hread]
    rfl
  | notUtf8 hfile hread hbytes he =>
    rw [chosenFormula_of_read hfile hread, formulaOfBytes, he]
  | blank hfile hread hblank =>
    rw [chosenFormula_of_encode hfile hread, formulaOfText, hblank]

theorem Chooses.unique {s s' : String} (h : Chooses o read s) (h' : Chooses o read s') :
    s = s' :=
  Except.ok.inj ((chosenFormula_of_chooses h).symm.trans (chosenFormula_of_chooses h'))

theorem Chooses.not_fileFails {s : String} {e : FileError} (h : Chooses o read s) :
    ¬ FileFails o read e :=
  fun h' => nomatch (chosenFormula_of_chooses h).symm.trans (chosenFormula_of_fileFails h')

/-- Either there is a formula to convert or the file is at fault. -/
theorem chooses_or_fileFails (o : Options) (read : Reader) :
    (∃ s, Chooses o read s) ∨ ∃ e, FileFails o read e := by
  cases hfile : o.file with
  | none =>
    cases harg : o.formula with
    | none => exact .inl ⟨_, .default hfile harg⟩
    | some s => exact .inl ⟨s, .argument hfile harg⟩
  | some path =>
    cases hread : read path with
    | error e => exact .inr ⟨e, .unreadable hfile hread⟩
    | ok bytes =>
      cases hdecode : Utf8.decode bytes with
      | error e =>
        have hbytes := Utf8.exists_error_iff.mp ⟨e, hdecode⟩
        exact .inr ⟨_, .notUtf8 hfile hread hbytes hdecode⟩
      | ok text =>
        rw [Utf8.decode_eq_ok_iff.mp hdecode] at hread
        by_cases hblank : trim (unifyLineEnds (String.ofList text).toList) = []
        · exact .inr ⟨_, .blank hfile hread hblank⟩
        · exact .inl ⟨_, .file hfile hread hblank⟩

end choice

/-- The letters in a text from `A` to `Z`, or a dash if there are none. -/
def variablesLine (s : String) : String :=
  match Letter.all.filter (·.char ∈ s.toList) with
  | [] => "-"
  | ls => " ".intercalate (ls.map Letter.name)

/-- The exit code and the lines of a run in which nothing is logged but errors. -/
inductive Answers (o : Options) (read : Reader) : Nat → List String → Prop
  | fileFails {e : FileError} (h : FileFails o read e) :
    Answers o read 1 ["Formula file error: " ++ e.message]
  | refused {s : String} {e : ParseError} (h : Chooses o read s)
    (he : (Tree.parse .info .empty (.text s)).result = .error e) :
    Answers o read 2 ["Formula parsing error: " ++ e.message]
  | converted {s text : String} (h : Chooses o read s)
    (htext : (normalForm .info (.text s)).result = .ok text) :
    Answers o read 0 (text :: if o.showVariables then [variablesLine s] else [])

/-! ## Conversion of the formula chosen -/

section convert

variable {s : String}

theorem result_convert_of_refused {e : ParseError}
    (he : (Tree.parse .info .empty (.text s)).result = .error e) (level : Level) :
    (convert level s).result = .error (.parse e) := by
  unfold convert
  rw [Logged.result_bind, Tree.result_parseNnf, Tree.error_of_parse he]
  rfl

theorem exists_read_of_normalForm {level : Level} {text : String}
    (htext : (normalForm level (.text s)).result = .ok text) :
    ∃ f, Source.read (.text s) = .ok f := by
  rw [normalForm, Logged.result_bind, Tree.result_parseNnf] at htext
  cases hread : Source.read (.text s) with
  | error e =>
    rw [hread] at htext
    cases htext
  | ok f => exact ⟨f, rfl⟩

theorem lettersLine_of_read {f : Formula Letter} (hread : Source.read (.text s) = .ok f) :
    lettersLine (Tree.ofFormula f .empty).1.table = variablesLine s := by
  have hrender := (Formula.ofText?_eq_ok.mp hread).2
  have hletters : (Tree.ofFormula f .empty).1.table.letters =
      Letter.all.filter (·.char ∈ s.toList) := by
    rw [VariableTable.letters_eq_filter]
    apply List.filter_congr
    intro l _
    rw [Bool.eq_iff_iff, decide_eq_true_iff, Formula.letter_mem_iff hrender,
      Tree.lookup_isSome_ofFormula]
  cases hls : Letter.all.filter (·.char ∈ s.toList) with
  | nil | cons => simp only [lettersLine, variablesLine, hletters, hls]

/-- A text that can be read is converted at every level, to the same tree and the same text. -/
theorem result_convert_of_read {f : Formula Letter} (hread : Source.read (.text s) = .ok f) :
    ∃ t text, (normalForm .info (.text s)).result = .ok text ∧
      lettersLine t.table = variablesLine s ∧
        ∀ level, (convert level s).result = .ok (t, text) := by
  obtain ⟨text, hconverts⟩ := Tree.converts_of_read hread
  have htext := hconverts.result .info
  have hrender : ((Tree.ofFormula f .empty).1.root.polar true).render = .ok text := by
    rw [normalForm, Logged.result_bind, Tree.result_parseNnf, hread] at htext
    exact Except.mapError_eq_ok.mp htext
  refine ⟨⟨(Tree.ofFormula f .empty).1.root.polar true, _⟩, text, htext,
    lettersLine_of_read hread, fun level => ?_⟩
  rw [convert, Logged.result_bind, Tree.result_parseNnf, hread]
  show (Logged.ofExcept (((Tree.ofFormula f .empty).1.root.polar true).render.mapError _) >>=
    fun text => _).result = _
  rw [hrender]
  rfl

/-- Only the level `debug` adds lines to a conversion. -/
theorem silent_convert {level : Level} (hl : level ≠ .debug) (s : String) :
    (convert level s).Silent := by
  unfold convert
  refine (Tree.silent_parseNnf hl .empty _).bind fun (t, final) => ?_
  exact (Logged.silent_ofExcept _).bind fun text => Logged.silent_pure _

end convert

/-! ## The lines of a run -/

/-- Messages with their levels, as lines. -/
def printed (log : List (Level × String)) : List String := log.map fun p => p.1.line p.2

theorem printed_append (log log' : List (Level × String)) :
    printed (log ++ log') = printed log ++ printed log' := List.map_append

/-- A message that a run at the level may log before its answer: no warning and no error. -/
def Admitted (level : Level) (p : Level × String) : Prop :=
  (p.1 = .debug ∨ p.1 = .info) ∧ p.1.passes level = true

/-- A run ends with an exit code and lines, after messages of the levels asked for. -/
structure Prints (r : Registry) (o : Options) (read : Reader) (code : Nat)
    (log : List (Level × String)) (lines : List String) : Prop where
  executes : ∃ final, execute r o read = .ok (code, printed log ++ lines, final)
  admitted : ∀ p ∈ log, Admitted (Registry.levelFor o.verbose o.debug) p

/-- What a run with the options prints is what a run with arguments that give them writes. -/
theorem Prints.run_eq {r : Registry} {o : Options} {read : Reader} {code : Nat}
    {log : List (Level × String)} {lines args : List String} (h : Prints r o read code log lines)
    (hargs : Options.ofArguments args = .ok o) :
    run r args read = .ok ⟨code, joinLines (printed log ++ lines), ""⟩ := by
  obtain ⟨final, hexecute⟩ := h.executes
  rw [run, hargs]
  show (execute r o read >>= _) = _
  rw [hexecute]
  rfl

/-- What is logged about the steps of a conversion. -/
def stepsLog (level : Level) (s : String) : List (Level × String) :=
  (convert level s).log.map (Level.debug, ·)

/-- What is logged about the result of a conversion. -/
def resultLog (level : Level) (s text : String) : List (Level × String) :=
  if Level.info.passes level then [(.info, conversionMessage s text)] else []

section lines

variable {r : Registry} {g : Logger} {level : Level}

theorem lines_error (h : r.channel g.channel = .tuned level) (message : String) :
    r.lines g .error message = [message] := by
  have hle : level.severity ≤ Level.error.severity := by cases level <;> simp [Level.severity]
  rw [Registry.lines_of_tuned h, if_pos hle]
  rfl

theorem lines_result (h : r.channel g.channel = .tuned level) (s text : String) :
    r.lines g .info (conversionMessage s text) = printed (resultLog level s text) := by
  rw [Registry.lines_of_tuned h]
  cases level <;> rfl

/-- The steps of a conversion are printed at the level `debug` and at no other. -/
theorem lines_steps (h : r.channel g.channel = .tuned level) (s : String) :
    (convert level s).log.flatMap (r.lines g .debug) = printed (stepsLog level s) := by
  by_cases hl : level = .debug
  · have hline : r.lines g .debug = fun message => [Level.debug.line message] := by
      funext message
      rw [Registry.lines_of_tuned h, hl]
      rfl
    rw [hline, printed, stepsLog, List.map_map, ← List.map_eq_flatMap]
    rfl
  · rw [stepsLog, show (convert level s).log = [] from silent_convert hl s]
    rfl

theorem admitted_of_mem_stepsLog {s : String} {p : Level × String}
    (hp : p ∈ stepsLog level s) : Admitted level p := by
  obtain ⟨message, hmessage, rfl⟩ := List.mem_map.mp hp
  by_cases hl : level = .debug
  · rw [hl]
    exact ⟨.inl rfl, rfl⟩
  · rw [show (convert level s).log = [] from silent_convert hl s] at hmessage
    cases hmessage

theorem admitted_of_mem_resultLog {s text : String} {p : Level × String}
    (hp : p ∈ resultLog level s text) : Admitted level p := by
  obtain ⟨hpasses, hp⟩ := List.mem_ite_nil_right.mp hp
  rw [List.mem_singleton.mp hp]
  exact ⟨.inr rfl, hpasses⟩

/-- At the level of warnings a run logs nothing before its answer. -/
theorem eq_nil_of_admitted_warning {log : List (Level × String)}
    (h : ∀ p ∈ log, Admitted .warning p) : log = [] := by
  apply List.eq_nil_iff_forall_not_mem.mpr
  intro p hp
  obtain ⟨hkind, hpasses⟩ := h p hp
  cases hkind with
  | inl hdebug => rw [hdebug] at hpasses; cases hpasses
  | inr hinfo => rw [hinfo] at hpasses; cases hpasses

end lines

/-- Whatever was done with loggers before, the one of the run logs at the level asked for. -/
theorem exists_prints (cs : List LoggerCall) {o : Options} {read : Reader} {code : Nat}
    {lines : List String} (h : Answers o read code lines) :
    ∃ log, Prints (Logging.run cs).registry o read code log lines := by
  generalize hlevel : Registry.levelFor o.verbose o.debug = level
  obtain ⟨g, hg, hchannel⟩ := Logging.exists_tuned_global cs level
  have hat : (((Logging.run cs).registry.setGlobalLevel level).channel g.channel).level = level :=
    congrArg Channel.level hchannel
  cases h with
  | fileFails h =>
    refine ⟨[], ⟨(Logging.run cs).registry.setGlobalLevel level, ?_⟩, nofun⟩
    simp only [execute, hlevel, hg, chosenFormula_of_fileFails h, lines_error hchannel]
    rfl
  | @refused s e h he =>
    refine ⟨stepsLog level s, ⟨(Logging.run cs).registry.setGlobalLevel level, ?_⟩, ?_⟩
    · simp only [execute, hlevel, hg, chosenFormula_of_chooses h, hat,
        result_convert_of_refused he, lines_error hchannel, lines_steps hchannel]
    · rw [hlevel]
      exact fun _ => admitted_of_mem_stepsLog
  | @converted s text h htext =>
    obtain ⟨f, hread⟩ := exists_read_of_normalForm htext
    obtain ⟨t, text', htext', hletters, hconvert⟩ := result_convert_of_read hread
    cases htext.symm.trans htext'
    refine ⟨stepsLog level s ++ resultLog level s text,
      ⟨(Logging.run cs).registry.setGlobalLevel level, ?_⟩, ?_⟩
    · simp only [execute, hlevel, hg, chosenFormula_of_chooses h, hat, hconvert, hletters,
        lines_steps hchannel, lines_result hchannel, printed_append]
    · rw [hlevel]
      exact List.forall_mem_append.mpr
        ⟨fun _ => admitted_of_mem_stepsLog, fun _ => admitted_of_mem_resultLog⟩

/-! ## Exit codes -/

section answers

variable {o : Options} {read : Reader} {code : Nat} {lines : List String}

theorem exists_answers (o : Options) (read : Reader) : ∃ code lines, Answers o read code lines := by
  rcases chooses_or_fileFails o read with ⟨s, h⟩ | ⟨e, h⟩
  · cases hread : Source.read (.text s) with
    | error e =>
      refine ⟨_, _, .refused (e := e) h ?_⟩
      rw [Tree.result_parse, hread]
      rfl
    | ok f =>
      obtain ⟨-, text, htext, -⟩ := result_convert_of_read hread
      exact ⟨_, _, .converted h htext⟩
  · exact ⟨_, _, .fileFails h⟩

theorem Answers.eq_one_iff (h : Answers o read code lines) :
    code = 1 ↔ ∃ e, FileFails o read e := by
  cases h with
  | fileFails h => exact ⟨fun _ => ⟨_, h⟩, fun _ => rfl⟩
  | refused h | converted h => exact ⟨nofun, fun ⟨_, h'⟩ => absurd h' h.not_fileFails⟩

/-- Exit code 2 means that the formula was refused, and nothing else does. -/
theorem Answers.eq_two_iff (h : Answers o read code lines) :
    code = 2 ↔ ∃ s e, Chooses o read s ∧
      (Tree.parse .info .empty (.text s)).result = .error e := by
  cases h with
  | fileFails h => exact ⟨nofun, fun ⟨_, _, h', _⟩ => absurd h h'.not_fileFails⟩
  | refused h he => exact ⟨fun _ => ⟨_, _, h, he⟩, fun _ => rfl⟩
  | converted h htext =>
    refine ⟨nofun, fun ⟨s', e, h', he⟩ => ?_⟩
    obtain ⟨f, hread⟩ := exists_read_of_normalForm htext
    rw [h.unique h', Tree.error_of_parse he] at hread
    cases hread

theorem Answers.le_two (h : Answers o read code lines) : code ≤ 2 := by
  cases h with
  | fileFails | refused | converted => omega

/-- The options and the file leave no choice of the answer. -/
theorem Answers.unique {code' : Nat} {lines' : List String} (h : Answers o read code lines)
    (h' : Answers o read code' lines') : code = code' ∧ lines = lines' := by
  cases h with
  | fileFails h =>
    cases h' with
    | fileFails h' =>
      cases (chosenFormula_of_fileFails h).symm.trans (chosenFormula_of_fileFails h')
      exact ⟨rfl, rfl⟩
    | refused h' | converted h' => exact absurd h h'.not_fileFails
  | refused h he =>
    cases h' with
    | fileFails h' => exact absurd h' h.not_fileFails
    | refused h' he' =>
      cases h.unique h'
      cases he.symm.trans he'
      exact ⟨rfl, rfl⟩
    | converted h' htext' =>
      cases h.unique h'
      obtain ⟨f, hread⟩ := exists_read_of_normalForm htext'
      cases (Tree.error_of_parse he).symm.trans hread
  | converted h htext =>
    cases h' with
    | fileFails h' => exact absurd h' h.not_fileFails
    | refused h' he' =>
      cases h.unique h'
      obtain ⟨f, hread⟩ := exists_read_of_normalForm htext
      cases (Tree.error_of_parse he').symm.trans hread
    | converted h' htext' =>
      cases h.unique h'
      cases htext.symm.trans htext'
      exact ⟨rfl, rfl⟩

/-- What is logged has no part in the answer. -/
theorem Answers.relevel (h : Answers o read code lines) (verbose debug : Bool) :
    Answers { o with verbose := verbose, debug := debug } read code lines := by
  have hchooses : ∀ {s}, Chooses o read s →
      Chooses { o with verbose := verbose, debug := debug } read s := by
    intro s h
    cases h with
    | file hfile hread hblank => exact .file hfile hread hblank
    | argument hfile harg => exact .argument hfile harg
    | default hfile harg => exact .default hfile harg
  cases h with
  | fileFails h =>
    apply Answers.fileFails
    cases h with
    | unreadable hfile hread => exact .unreadable hfile hread
    | notUtf8 hfile hread hbytes he => exact .notUtf8 hfile hread hbytes he
    | blank hfile hread hblank => exact .blank hfile hread hblank
  | refused h he => exact .refused (hchooses h) he
  | converted h htext => exact .converted (hchooses h) htext

end answers

theorem ofArguments_of_take {args : List String} {as : List Argument} {p : Progress}
    (hclass : classifyAll args = .ok as) (htake : Progress.start.take as = .ok p)
    (hall : p.unrecognized = []) (hfile : p.options.file ≠ some "--") :
    Options.ofArguments args = .ok p.options := by
  unfold Options.ofArguments
  rw [hclass]
  show (Progress.start.take as >>= _) = _
  rw [htake]
  show (if _ then _ else _) = _
  rw [hall, if_neg (by simp), if_neg hfile]
  rfl

/-- A run answers according to the formula chosen: with 1 if there is a formula file and it fails,
with 2 if the formula is refused, and otherwise with 0. Whatever the levels set before and asked for
are, it prints the same lines last, and it prints nothing else if no messages are asked for. -/
theorem answers_of_options (o : Options) (read : Reader) :
    ∃ code lines, Answers o read code lines ∧
      (code = 1 ↔ ∃ e, FileFails o read e) ∧
      (code = 2 ↔ ∃ s e, Chooses o read s ∧
        (Tree.parse .info .empty (.text s)).result = .error e) ∧ code ≤ 2 ∧
      ∀ (cs : List LoggerCall) (verbose debug : Bool),
        let r := (Logging.run cs).registry
        let o' := { o with verbose := verbose, debug := debug }
        ∃ log, Prints r o' read code log lines ∧ (verbose = false → debug = false → log = []) ∧
          ∀ args, Options.ofArguments args = .ok o' →
            run r args read = .ok ⟨code, joinLines (printed log) ++ joinLines lines, ""⟩ := by
  obtain ⟨code, lines, h⟩ := exists_answers o read
  refine ⟨code, lines, h, h.eq_one_iff, h.eq_two_iff, h.le_two, ?_⟩
  intro cs verbose debug r o'
  obtain ⟨log, hprints⟩ := exists_prints cs (h.relevel verbose debug)
  refine ⟨log, hprints, ?quiet, ?run⟩
  case quiet =>
    rintro rfl rfl
    exact eq_nil_of_admitted_warning hprints.admitted
  case run =>
    intro args hargs
    rw [hprints.run_eq hargs, joinLines_append]

/-- A formula file that is not there goes before a formula, at every level; a formula that is given
is converted with its letters listed and nothing logged; and so is the text of a file, without the
line end after it. -/
theorem answers_of_options_missing_file_and_letters :
    (let read : Reader := fun path => .error (.notFound path)
     let o : Options := ⟨some "AB&", some "p", true, true, false⟩
     FileFails o read (.notFound "p") ∧
      Options.ofArguments ["AB&", "-vfp", "--debug"] = .ok o ∧
      ∃ log lines, run .empty ["AB&", "-vfp", "--debug"] read =
        .ok ⟨1, joinLines (printed log) ++ joinLines lines, ""⟩) ∧
    (let read : Reader := fun path => .error (.notFound path)
     let o : Options := ⟨some "BA^!", none, false, false, true⟩
     Options.ofArguments ["--show", "BA^!"] = .ok o ∧
      ∃ code lines, Answers o read code lines ∧
        run .empty ["--show", "BA^!"] read = .ok ⟨code, joinLines lines, ""⟩) ∧
    (let read : Reader := fun _ => .ok (Utf8.encode "BA>!\r\n")
     let o : Options := ⟨none, some "p", false, false, true⟩
     Options.ofArguments ["-fp", "--show"] = .ok o ∧ Chooses o read "BA>!" ∧
      run .empty ["-fp", "--show"] read = .ok ⟨0, joinLines ["BA!&", "A B"], ""⟩) := by
  refine ⟨?_, ?_, ?_⟩
  · intro read o
    have hfails : FileFails o read (.notFound "p") := .unreadable rfl rfl
    have htake : Progress.start.take [.plain "AB&", .option ⟨.verbose, true, some ['f', 'p']⟩,
        .option ⟨.debug, false, none⟩] = .ok ⟨o, true, []⟩ := by cbv
    have hargs : Options.ofArguments ["AB&", "-vfp", "--debug"] = .ok o :=
      ofArguments_of_take rfl htake rfl (by simp [o])
    obtain ⟨code, lines, -, hone, -, -, hprints⟩ := answers_of_options o read
    obtain ⟨log, -, -, hrun⟩ := hprints [] true true
    rw [hone.mpr ⟨_, hfails⟩] at hrun
    exact ⟨hfails, hargs, log, lines, hrun _ hargs⟩
  · intro read o
    have htake : Progress.start.take [.option ⟨.showVariables, false, none⟩, .plain "BA^!"] =
        .ok ⟨o, true, []⟩ := by cbv
    have hargs : Options.ofArguments ["--show", "BA^!"] = .ok o :=
      ofArguments_of_take rfl htake rfl (by simp [o])
    obtain ⟨code, lines, h, -, -, -, hprints⟩ := answers_of_options o read
    obtain ⟨log, -, hquiet, hrun⟩ := hprints [] false false
    rw [hquiet rfl rfl] at hrun
    refine ⟨hargs, code, lines, h, (hrun _ hargs).trans ?_⟩
    rw [← joinLines_append]
    rfl
  · intro read o
    have htake : Progress.start.take [.option ⟨.formulaFile, true, some ['p']⟩,
        .option ⟨.showVariables, false, none⟩] = .ok ⟨o, false, []⟩ := by cbv
    have hargs : Options.ofArguments ["-fp", "--show"] = .ok o :=
      ofArguments_of_take rfl htake rfl (by simp [o])
    have hread : read "p" = .ok (Utf8.encode "BA>!\r\n") := rfl
    have htrim : trim (unifyLineEnds "BA>!\r\n".toList) = "BA>!".toList := rfl
    have hchooses := @Chooses.file o read "p" "BA>!\r\n" rfl hread (by rw [htrim]; decide)
    rw [htrim, String.ofList_toList] at hchooses
    have hformula : Source.read (.text "BA>!") =
        .ok (Formula.binary .imply (.var ⟨1⟩) (.var ⟨0⟩)).neg := rfl
    have htext := Tree.normalForm_of_read hformula (r := "BA!&") rfl .info
    obtain ⟨code, lines, h, -, -, -, hprints⟩ := answers_of_options o read
    obtain ⟨rfl, rfl⟩ := h.unique (.converted hchooses htext)
    obtain ⟨log, -, hquiet, hrun⟩ := hprints [] false false
    rw [hquiet rfl rfl] at hrun
    refine ⟨hargs, hchooses, (hrun _ hargs).trans ?_⟩
    rw [← joinLines_append]
    rfl

end CommandLine
end PolishLogic
