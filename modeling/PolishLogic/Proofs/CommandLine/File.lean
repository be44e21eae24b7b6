import PolishLogic.Proofs.CommandLine.Answer
import PolishLogic.Proofs.Text.Blank

/-! # Formula files and formulas as arguments

A run on a file does what a run does that is given the text of the file without the blanks around
it (`run_file_eq_run_formula`). `StandsFor` says so for everything else that the two can be asked
for, and `ofArguments_formula` and `ofArguments_separated` that every formula can be an argument.
A blank that is left stands between other characters, and a run ends with exit code 2 at the first
character outside the alphabet, which is at the latest this one (`Refuses`). -/

namespace PolishLogic

/-- A text with characters that are no symbols is refused for the first of these. -/
theorem Tree.parse_of_outside {text : String} {n : Nat} {c : Char}
    (hn : IsLeast (outside text.toList) n) (hc : text.toList[n]? = some c) (level : Level)
    (store : Store) :
    (parse level store (.text text)).result = .error (.invalidToken c n) := by
  have hne : text ≠ "" := by
    rintro rfl
    cases hc
  exact parse_eq_error_iff.mpr (.invalidToken hne hn hc)

namespace CommandLine

/-! ## Arguments -/

/-- The switches that change what a run prints, and nothing else. -/
def Switch.changesOutput : Switch → Bool
  | .verbose | .debug | .showVariables => true
  | .help | .formulaFile => false

/-- The options when switches are given besides, in any order and any number of times. -/
def Options.withSwitches (o : Options) (fs : List Switch) : Options :=
  { o with
    verbose := o.verbose || fs.contains .verbose
    debug := o.debug || fs.contains .debug
    showVariables := o.showVariables || fs.contains .showVariables }

section arguments

variable {fs : List Switch} (hfs : ∀ f ∈ fs, f.changesOutput = true)

theorem classify_plain {s : String} (h : s.toList.head? ≠ some '-') :
    classify s = .ok (.plain s) := by
  simp [classify, h]

theorem classify_long (f : Switch) : classify f.long = .ok (.option ⟨f, false, none⟩) := by
  cases f <;> rfl

theorem classify_file (path : String) :
    classify ("--formula-file=" ++ path) =
      .ok (.option ⟨.formulaFile, false, some path.toList⟩) := by
  have hchars : ("--formula-file=" ++ path).toList =
      ['-', '-', 'f', 'o', 'r', 'm', 'u', 'l', 'a', '-', 'f', 'i', 'l', 'e', '='] ++
        path.toList := by
    rw [String.toList_append]
    rfl
  rw [classify, hchars]
  rfl

theorem group_of_takesValue {g : Given} {text : List Char} (h : g.switch.takesValue = true)
    (htext : g.attached = some text) :
    g.group = .ok (.value [] g.switch (String.ofList text)) := by
  rw [Given.group, htext]
  show Group.ofAttached _ _ _ = _
  rw [Group.ofAttached.eq_def, if_pos h]

theorem classifyAll_cons {s : String} (h : s ≠ "--") (rest : List String) :
    classifyAll (s :: rest) = do
      let a ← classify s
      let rest ← classifyAll rest
      return a :: rest := by
  rw [classifyAll]
  exact h

theorem Options.withSwitches_cons (o : Options) (f : Switch) (fs : List Switch) :
    o.withSwitches (f :: fs) = (o.withSwitches [f]).withSwitches fs := by
  simp [Options.withSwitches, Bool.or_assoc]

theorem flag_eq_withSwitches {f : Switch} (hf : f.changesOutput = true) (p : Progress) :
    p.flag f = .ok { p with options := p.options.withSwitches [f] } := by
  cases f with
  | help | formulaFile => cases hf
  | verbose | debug | showVariables => simp [Progress.flag, Options.withSwitches]

include hfs in
/-- Switches take effect one after the other, before what comes after them. -/
theorem take_switches (p : Progress) (rest : List String) :
    classifyAll (fs.map Switch.long ++ rest) >>= p.take =
      classifyAll rest >>= Progress.take { p with options := p.options.withSwitches fs } := by
  induction fs generalizing p with
  | nil => simp [Options.withSwitches]
  | cons f fs ih =>
    obtain ⟨hf, hfs⟩ := List.forall_mem_cons.mp hfs
    have hlong : f.long ≠ "--" := by cases f <;> decide
    have hgroup : (⟨f, false, none⟩ : Given).group = .ok (.flags [f]) := by
      cases f with
      | help | formulaFile => cases hf
      | verbose | debug | showVariables => rfl
    have htake (as : List Argument) : p.take (.option ⟨f, false, none⟩ :: as) =
        Progress.take { p with options := p.options.withSwitches [f] } as := by
      rw [Progress.take, hgroup]
      show (p.flags [f] >>= fun p => p.take as) = _
      rw [Progress.flags, List.foldlM_cons, flag_eq_withSwitches hf]
      rfl
    rw [Options.withSwitches_cons, ← ih hfs { p with options := p.options.withSwitches [f] },
      List.map_cons, List.cons_append, classifyAll_cons hlong, classify_long]
    cases classifyAll (fs.map Switch.long ++ rest) with
    | error e => rfl
    | ok as => exact htake as

include hfs in
theorem ofArguments_of_switches {rest : List String} {p : Progress}
    (h : classifyAll rest >>= Progress.take ⟨Options.initial.withSwitches fs, false, []⟩ = .ok p)
    (hall : p.unrecognized = []) (hfile : p.options.file ≠ some "--") :
    Options.ofArguments (fs.map Switch.long ++ rest) = .ok p.options := by
  have hargs := (take_switches hfs .start rest).trans h
  obtain ⟨as, hclass, htake⟩ := Except.bind_eq_ok.mp hargs
  exact ofArguments_of_take hclass htake hall hfile

include hfs in
theorem ofArguments_formula {s : String} (hs : s.toList.head? ≠ some '-') :
    Options.ofArguments (fs.map Switch.long ++ [s]) =
      .ok { Options.initial.withSwitches fs with formula := some s } := by
  have hne : s ≠ "--" := by
    rintro rfl
    exact hs rfl
  refine ofArguments_of_switches hfs
    (p := ⟨{ Options.initial.withSwitches fs with formula := some s }, true, []⟩) ?_ rfl nofun
  rw [classifyAll_cons hne, classify_plain hs]
  rfl

include hfs in
/-- After the separator a formula may begin with a dash. -/
theorem ofArguments_separated (s : String) :
    Options.ofArguments (fs.map Switch.long ++ ["--", s]) =
      .ok { Options.initial.withSwitches fs with formula := some s } :=
  ofArguments_of_switches hfs
    (p := ⟨{ Options.initial.withSwitches fs with formula := some s }, true, []⟩) rfl rfl nofun

include hfs in
theorem ofArguments_file {path : String} (hpath : path ≠ "--") :
    Options.ofArguments (fs.map Switch.long ++ ["--formula-file=" ++ path]) =
      .ok { Options.initial.withSwitches fs with file := some path } := by
  have hne : "--formula-file=" ++ path ≠ "--" := by
    intro h
    have hlength := congrArg String.length h
    rw [String.length_append] at hlength
    have : "--formula-file=".length = 15 := rfl
    have : "--".length = 2 := rfl
    omega
  refine ofArguments_of_switches hfs
    (p := ⟨{ Options.initial.withSwitches fs with file := some path }, false, []⟩) ?_ rfl ?_
  · rw [classifyAll_cons hne, classify_file]
    show Progress.take _ [.option _] = _
    rw [Progress.take, group_of_takesValue rfl rfl, String.ofList_toList]
    rfl
  · exact fun h => hpath (Option.some.inj h)

end arguments

/-! ## Runs -/

/-- A run on the file at the path does the same as a run that is given the formula, if both are
asked for the same output. -/
def StandsFor (read : Reader) (path formula : String) : Prop :=
  ∀ (r : Registry) (o : Options) (read' : Reader) (args args' : List String),
    Options.ofArguments args = .ok { o with file := some path } →
    Options.ofArguments args' = .ok { o with formula := some formula, file := none } →
    run r args read = run r args' read'

/-- Behind any switches the arguments have the given effect on the options. -/
def Sets (args : List String) (effect : Options → Options) : Prop :=
  ∀ fs : List Switch, (∀ f ∈ fs, f.changesOutput = true) →
    Options.ofArguments (fs.map Switch.long ++ args) =
      .ok (effect (Options.initial.withSwitches fs))

/-- A run on the file at the path ends with exit code 2. After what it logs at the level asked for
it names the character that is not one of a formula, and its position. -/
def Refuses (read : Reader) (path : String) (c : Char) (position : Nat) : Prop :=
  ∀ (calls : List LoggerCall) (o : Options) (args : List String),
    Options.ofArguments args = .ok { o with file := some path } →
    ∃ log, (∀ p ∈ log, Admitted (Registry.levelFor o.verbose o.debug) p) ∧
      run (Logging.run calls).registry args read = .ok ⟨2, joinLines (printed log ++
        ["Formula parsing error: " ++
          ("Invalid token '" ++ c.toString ++ "' at position " ++ toString position)]), ""⟩

/-- Options that choose the same formula and set the same switches run alike. -/
theorem execute_congr {o o' : Options} {read read' : Reader} (r : Registry)
    (hformula : o.chosenFormula read = o'.chosenFormula read') (hverbose : o.verbose = o'.verbose)
    (hdebug : o.debug = o'.debug) (hshow : o.showVariables = o'.showVariables) :
    execute r o read = execute r o' read' := by
  unfold execute
  rw [hformula, hverbose, hdebug, hshow]

section file

variable {read : Reader} {path : String} {bytes : List UInt8} {text before core after : List Char}
  (hread : read path = .ok bytes) (htext : Utf8.decode bytes = .ok text)
  (hsplit : unifyLineEnds text = before ++ core ++ after) (hcore : Surrounds before after core)

include hread htext hsplit hcore

theorem chooses_of_surrounds {o : Options} (hfile : o.file = some path) :
    Chooses o read (String.ofList core) := by
  have htrim : trim (unifyLineEnds (String.ofList text).toList) = core := by
    rw [String.toList_ofList, hsplit, trim_of_surrounds hcore]
  rw [Utf8.decode_eq_ok_iff.mp htext] at hread
  have h := Chooses.file hfile hread (by rw [htrim]; exact hcore.ne_nil)
  rwa [htrim] at h

/-- A file whose text is blank around `core` stands for the formula `core`. -/
theorem standsFor_of_surrounds : StandsFor read path (String.ofList core) := by
  intro r o read' args args' hargs hargs'
  have hfile := chosenFormula_of_chooses
    (chooses_of_surrounds hread htext hsplit hcore (o := { o with file := some path }) rfl)
  have hformula : ({ o with formula := some (String.ofList core), file := none } :
      Options).chosenFormula read' = .ok (String.ofList core) := rfl
  rw [run, run, hargs, hargs']
  simp only [execute_congr r (hfile.trans hformula.symm) rfl rfl rfl]

/-- The position that is reported counts from the beginning of `core`. -/
theorem refuses_of_outside {n : Nat} {c : Char} (hn : IsLeast (outside core) n)
    (hc : core[n]? = some c) : Refuses read path c n := by
  intro calls o args hargs
  rw [← String.toList_ofList (l := core)] at hn hc
  have hparse := Tree.parse_of_outside hn hc .info .empty
  have hchooses :=
    chooses_of_surrounds hread htext hsplit hcore (o := { o with file := some path }) rfl
  obtain ⟨log, hprints⟩ := exists_prints calls (.refused hchooses hparse)
  exact ⟨log, hprints.admitted, hprints.run_eq hargs⟩

end file

theorem exists_isLeast_outside {cs : List Char} {i : Nat} (hi : i ∈ outside cs) :
    ∃ n d, IsLeast (outside cs) n ∧ cs[n]? = some d := by
  obtain ⟨w, rest, rfl, hrest⟩ := Lexing.exists_spelling cs
  cases rest with
  | nil =>
    rw [List.append_nil, outside_spelling] at hi
    exact hi.elim
  | cons d rest => exact ⟨w.length, d, isLeast_outside w rest (hrest d rfl), by simp⟩

/-- A file that holds an accepted formula between blanks stands for the formula, which can be given
as it is. Any file in which not all is blank stands for its text without the blanks at both ends,
which can be given after the separator. If a blank is left, such a text is refused at its first
character outside the alphabet, and this is the blank unless there is one before it. The switches
are the same for files and formulas. -/
theorem run_file_eq_run_formula {read : Reader} {path : String} {bytes : List UInt8}
    {text : List Char} (hread : read path = .ok bytes) (htext : Utf8.decode bytes = .ok text) :
    (∀ {before after : List Char} {s : String}, text = before ++ s.toList ++ after →
      (∀ c ∈ before, isBlank c = true) → (∀ c ∈ after, isBlank c = true) → Accepted s →
      StandsFor read path s ∧ Sets [s] fun o => { o with formula := some s }) ∧
    ((∃ c ∈ unifyLineEnds text, isBlank c = false) → ∃ before core after,
      unifyLineEnds text = before ++ core ++ after ∧ Surrounds before after core ∧
      StandsFor read path (String.ofList core) ∧
      (Sets ["--", String.ofList core] fun o => { o with formula := some (String.ofList core) }) ∧
      ∀ i c, core[i]? = some c → isBlank c = true →
        ∃ n d, IsLeast (outside core) n ∧ core[n]? = some d ∧ n ≤ i ∧
          ((∀ m < i, m ∉ outside core) → n = i ∧ d = c) ∧ Refuses read path d n) ∧
    (path ≠ "--" → Sets ["--formula-file=" ++ path] fun o => { o with file := some path }) := by
  refine ⟨fun {before after s} hsplit hbefore hafter hs => ?_, fun hblank => ?_,
    fun hpath fs hfs => ofArguments_file hfs hpath⟩
  · have hcore := surrounds_of_accepted hs (isBlank_of_mem_unifyLineEnds hbefore)
      (isBlank_of_mem_unifyLineEnds hafter)
    have hunified := unifyLineEnds_of_accepted hs before after
    rw [← hsplit] at hunified
    have hstands := standsFor_of_surrounds hread htext hunified hcore
    rw [String.ofList_toList] at hstands
    exact ⟨hstands, fun fs hfs => ofArguments_formula hfs (hs.head?_ne (by decide))⟩
  · obtain ⟨before, core, after, hsplit, hcore⟩ := exists_surrounds hblank
    refine ⟨before, core, after, hsplit, hcore, standsFor_of_surrounds hread htext hsplit hcore,
      fun fs hfs => ofArguments_separated hfs _, fun i c hc hblank => ?_⟩
    have hi : i ∈ outside core := ⟨c, hc, contains_of_isBlank hblank⟩
    obtain ⟨n, d, hn, hd⟩ := exists_isLeast_outside hi
    refine ⟨n, d, hn, hd, hn.2 hi, fun hfirst => ?_,
      refuses_of_outside hread htext hsplit hcore hn hd⟩
    have heq : n = i := Nat.le_antisymm (hn.2 hi) (Nat.le_of_not_lt fun hlt => hfirst n hlt hn.1)
    subst heq
    exact ⟨rfl, Option.some.inj (hd.symm.trans hc)⟩

/-- Line ends of two sorts around a formula, and blanks of two sorts of which one is inside. -/
theorem run_file_eq_run_formula_line_ends_and_inner_blank :
    (let bytes : List UInt8 := [0x0D, 0x41, 0x42, 0x5E, 0x0D, 0x0A]
     let read : Reader := fun _ => .ok bytes
     let switches : List Switch := [.debug, .showVariables]
     Utf8.decode bytes = .ok (['\r'] ++ "AB^".toList ++ ['\r', '\n']) ∧ Accepted "AB^" ∧
      ∀ (r : Registry) (read' : Reader),
        run r (switches.map Switch.long ++ ["--formula-file=" ++ "p"]) read =
          run r (switches.map Switch.long ++ ["AB^"]) read') ∧
    (let bytes : List UInt8 := [0xC2, 0xA0, 0x41, 0x20, 0x42]
     let text := ['\xA0', 'A', ' ', 'B']
     let read : Reader := fun _ => .ok bytes
     Utf8.decode bytes = .ok text ∧ (∃ c ∈ unifyLineEnds text, isBlank c = false) ∧
      StandsFor read "p" "A B" ∧ Refuses read "p" ' ' 1) := by
  constructor
  · intro bytes read switches
    have hread : read "p" = .ok bytes := rfl
    have hdecode : Utf8.decode bytes = .ok (['\r'] ++ "AB^".toList ++ ['\r', '\n']) := rfl
    have haccepted : Accepted "AB^" :=
      accepted_iff.mpr ⟨.binary .xor (.var ⟨0⟩) (.var ⟨1⟩), rfl⟩
    have hswitches : ∀ f ∈ switches, f.changesOutput = true := by decide
    obtain ⟨hformula, -, hfile⟩ := run_file_eq_run_formula hread hdecode
    have hbefore : ∀ c ∈ ['\r'], isBlank c = true := List.forall_mem_singleton.mpr rfl
    have hafter : ∀ c ∈ ['\r', '\n'], isBlank c = true :=
      List.forall_mem_cons.mpr ⟨rfl, List.forall_mem_singleton.mpr rfl⟩
    obtain ⟨hstands, hargument⟩ := hformula rfl hbefore hafter haccepted
    exact ⟨hdecode, haccepted, fun r read' =>
      hstands r (Options.initial.withSwitches switches) read' _ _
        (hfile (by decide) switches hswitches) (hargument switches hswitches)⟩
  · intro bytes text read
    have hread : read "p" = .ok bytes := rfl
    have hdecode : Utf8.decode bytes = .ok text := rfl
    have hnonblank : ∃ c ∈ unifyLineEnds text, isBlank c = false :=
      ⟨'A', .tail _ (.head _), rfl⟩
    obtain ⟨-, htext, -⟩ := run_file_eq_run_formula hread hdecode
    obtain ⟨before, core, after, hsplit, hcore, hstands, -, hinner⟩ := htext hnonblank
    obtain rfl : core = ['A', ' ', 'B'] := by
      rw [← trim_of_surrounds hcore, ← hsplit]
      rfl
    obtain ⟨n, d, -, -, -, hfirst, hrefuses⟩ := hinner 1 ' ' rfl rfl
    obtain ⟨rfl, rfl⟩ := hfirst (by
      intro m hm hout
      obtain rfl : m = 0 := by omega
      obtain ⟨c, hc, ho⟩ := hout
      cases hc
      cases ho)
    exact ⟨hdecode, hnonblank, hstands, hrefuses⟩

end CommandLine
end PolishLogic
