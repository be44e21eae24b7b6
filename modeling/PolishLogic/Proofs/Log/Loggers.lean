import PolishLogic.Log.Registry

/-! # Loggers in use

A logging is a registry together with the loggers that were handed out from it and the levels
that were set, channel by channel. `Logging.Sound` relates the three and is kept by every call
(`Logging.Sound.perform`): each channel that a logger was handed out for has one handler, of the
level of the channel, and this is the level that was set for it last. So a message is logged once
or not at all (`Logging.lines_of_run`). -/

namespace List

variable {α β : Type} [BEq α] [LawfulBEq α] {a k : α}

theorem lookup_cons_of_ne (h : a ≠ k) (b : β) (es : List (α × β)) :
    ((k, b) :: es).lookup a = es.lookup a := by
  rw [lookup_cons, beq_eq_false_iff_ne.mpr h]

theorem lookup_filter_of_ne (h : a ≠ k) (es : List (α × β)) :
    (es.filter (·.1 != k)).lookup a = es.lookup a := by
  induction es with
  | nil => rfl
  | cons e es ih =>
    obtain ⟨k', b⟩ := e
    by_cases hk : k' = k
    · subst hk
      rw [filter_cons_of_neg (by simp), lookup_cons_of_ne h, ih]
    · rw [filter_cons_of_pos (by simp [hk]), lookup_cons, lookup_cons, ih]

end List

namespace PolishLogic

namespace Channel

/-- A channel that a logger was made for, at a level. -/
def tuned (level : Level) : Channel := ⟨level, [level], false⟩

theorem reset_eq_tuned (level : Level) (c : Channel) : c.reset level = tuned level := rfl

theorem setLevel_tuned (level l : Level) : (tuned l).setLevel level = tuned level := rfl

/-- A channel with one handler of its own level logs a message once or not at all. -/
theorem lines_tuned (level l : Level) (message : String) :
    (tuned level).lines l message =
      if level.severity ≤ l.severity then [l.line message] else [] := by
  by_cases h : level.severity ≤ l.severity <;> simp [tuned, lines, Level.passes, h]

end Channel

namespace Registry

variable {name n : String} (r : Registry)

theorem channel_modifyChannel_self (name : String) (f : Channel → Channel) :
    (r.modifyChannel name f).channel name = f (r.channel name) := by
  simp [channel, modifyChannel]

theorem channel_modifyChannel_of_ne (h : n ≠ name) (f : Channel → Channel) :
    (r.modifyChannel name f).channel n = r.channel n := by
  rw [channel, modifyChannel, List.lookup_cons_of_ne h, List.lookup_filter_of_ne h, channel]

theorem lines_of_tuned {r : Registry} {g : Logger} {level : Level}
    (h : r.channel g.channel = .tuned level) (l : Level) (message : String) :
    r.lines g l message = if level.severity ≤ l.severity then [l.line message] else [] := by
  rw [lines, h, Channel.lines_tuned]

theorem globalLogger_getGlobal (name : String) :
    (r.getGlobal name).2.globalLogger = some (r.getGlobal name).1 := by
  unfold getGlobal
  split
  · assumption
  · rfl

theorem getGlobal_of_some {r : Registry} {g : Logger} (hg : r.globalLogger = some g)
    (name : String) : r.getGlobal name = (g, r) := by
  rw [getGlobal, hg]

end Registry

/-- Levels that were set for channels, the last one first. -/
abbrev LevelHistory := List (String × Level)

/-- The channel of the name is tuned to the level that was set for it last. -/
def LevelHistory.Tunes (h : LevelHistory) (r : Registry) (name : String) : Prop :=
  ∃ level, h.lookup name = some level ∧ r.channel name = .tuned level

/-- A level that is set tunes its channel and leaves the others tuned. -/
theorem LevelHistory.tunes_modifyChannel {h : LevelHistory} {r : Registry} {name n : String}
    {level : Level} {f : Channel → Channel} (hf : f (r.channel name) = .tuned level)
    (hn : n = name ∨ h.Tunes r n) : Tunes ((name, level) :: h) (r.modifyChannel name f) n := by
  by_cases hname : n = name
  · subst hname
    exact ⟨level, List.lookup_cons_self, (r.channel_modifyChannel_self n f).trans hf⟩
  · obtain ⟨l, hlookup, hchannel⟩ := hn.resolve_left hname
    refine ⟨l, ?_, ?_⟩
    · rw [List.lookup_cons_of_ne hname, hlookup]
    · rw [r.channel_modifyChannel_of_ne hname, hchannel]

/-- The calls by which loggers are made and used. A logger that was handed out before is known by
its place among these, and a call about a place where there is none does nothing. -/
inductive LoggerCall where
  | create (name : String) (level : Level)
  | get (name : String)
  | setGlobalLevel (level : Level)
  | configure (verbose debug : Bool)
  | setLevel (i : Nat) (level : Level)
  | log (i : Nat) (level : Level) (message : String)
  deriving DecidableEq, Repr

structure Logging where
  registry : Registry
  /-- The loggers that were handed out, one of them perhaps at several places. -/
  loggers : List Logger
  levels : LevelHistory
  deriving DecidableEq, Repr

namespace Logging

def start : Logging := ⟨.empty, [], []⟩

/-- The registry that a call leaves. -/
def registryAfter (k : Logging) : LoggerCall → Registry
  | .create name level => (k.registry.create name level).2
  | .get name => (k.registry.getGlobal name).2
  | .setGlobalLevel level => k.registry.setGlobalLevel level
  | .configure verbose debug => k.registry.setGlobalLevel (Registry.levelFor verbose debug)
  | .setLevel i level =>
    match k.loggers[i]? with
    | none => k.registry
    | some g => k.registry.setLevel g level
  | .log .. => k.registry

/-- The logger that a call makes or asks for. -/
def handedOut (k : Logging) : LoggerCall → List Logger
  | .create name level => [(k.registry.create name level).1]
  | .get name => [(k.registry.getGlobal name).1]
  | .setGlobalLevel _ | .configure .. => [(k.registry.getGlobal Registry.defaultName).1]
  | .setLevel .. | .log .. => []

/-- The level that asking for the global logger sets: none if it is there already. -/
def initialLevel (k : Logging) (name : String) : LevelHistory :=
  match k.registry.globalLogger with
  | some _ => []
  | none => [(Registry.channelName name, .info)]

/-- The levels set by a call about the level of the global logger. -/
def globalLevel (k : Logging) (level : Level) : LevelHistory :=
  ((k.registry.getGlobal Registry.defaultName).1.channel, level) ::
    k.initialLevel Registry.defaultName

/-- The levels that a call sets. -/
def levelsSet (k : Logging) : LoggerCall → LevelHistory
  | .create name level => [(Registry.channelName name, level)]
  | .get name => k.initialLevel name
  | .setGlobalLevel level => k.globalLevel level
  | .configure verbose debug => k.globalLevel (Registry.levelFor verbose debug)
  | .setLevel i level =>
    match k.loggers[i]? with
    | none => []
    | some g => [(g.channel, level)]
  | .log .. => []

/-- What a call does to the registry, and what it adds to the two lists. -/
def perform (k : Logging) (c : LoggerCall) : Logging :=
  ⟨k.registryAfter c, k.loggers ++ k.handedOut c, k.levelsSet c ++ k.levels⟩

/-- The lines that a call logs. -/
def lines (k : Logging) : LoggerCall → List String
  | .log i level message =>
    match k.loggers[i]? with
    | none => []
    | some g => k.registry.lines g level message
  | _ => []

/-- The logging that some calls lead to, from the start. -/
def run (cs : List LoggerCall) : Logging := cs.foldl perform start

/-- What holds of every logging: the channels of loggers are tuned to the levels set last, and
the global logger is one of those handed out. -/
structure Sound (k : Logging) : Prop where
  tuned : ∀ g ∈ k.loggers, k.levels.Tunes k.registry g.channel
  handedOut : ∀ g, k.registry.globalLogger = some g → g ∈ k.loggers

namespace Sound

variable {r : Registry} {gs : List Logger} {h : LevelHistory}

theorem start : Sound start where
  tuned := by simp [Logging.start]
  handedOut := by simp [Logging.start, Registry.empty]

theorem create (hk : Sound ⟨r, gs, h⟩) (name : String) (level : Level) :
    Sound ⟨(r.create name level).2, gs ++ [(r.create name level).1],
      (Registry.channelName name, level) :: h⟩ where
  tuned := by
    intro g hg
    apply LevelHistory.tunes_modifyChannel (Channel.reset_eq_tuned level _)
    rcases List.mem_append.mp hg with hold | hnew
    · exact .inr (hk.tuned g hold)
    · exact .inl (congrArg Logger.channel (List.mem_singleton.mp hnew))
  handedOut := fun g hg => List.mem_append_left _ (hk.handedOut g hg)

theorem getGlobal (hk : Sound ⟨r, gs, h⟩) (name : String) :
    Sound ⟨(r.getGlobal name).2, gs ++ [(r.getGlobal name).1],
      initialLevel ⟨r, gs, h⟩ name ++ h⟩ := by
  unfold Registry.getGlobal initialLevel
  cases hr : r.globalLogger with
  | some g =>
    have hg : g ∈ gs := hk.handedOut g hr
    refine ⟨?_, fun g hg => List.mem_append_left _ (hk.handedOut g hg)⟩
    intro g' hg'
    rcases List.mem_append.mp hg' with hold | hnew
    · exact hk.tuned g' hold
    · rw [List.mem_singleton.mp hnew]
      exact hk.tuned g hg
  | none =>
    refine ⟨(hk.create name .info).tuned, ?_⟩
    intro g hg
    cases hg
    exact List.mem_append_right _ (List.mem_singleton_self _)

theorem setLevel (hk : Sound ⟨r, gs, h⟩) {g : Logger} (hg : g ∈ gs) (level : Level) :
    Sound ⟨r.setLevel g level, gs, (g.channel, level) :: h⟩ where
  tuned := by
    intro g' hg'
    apply LevelHistory.tunes_modifyChannel
    · obtain ⟨l, -, hl⟩ := hk.tuned g hg
      rw [show r.channel g.channel = _ from hl, Channel.setLevel_tuned]
    · exact .inr (hk.tuned g' hg')
  handedOut := hk.handedOut

theorem setGlobalLevel (hk : Sound ⟨r, gs, h⟩) (level : Level) :
    Sound ⟨r.setGlobalLevel level, gs ++ [(r.getGlobal Registry.defaultName).1],
      globalLevel ⟨r, gs, h⟩ level ++ h⟩ :=
  (hk.getGlobal Registry.defaultName).setLevel
    (List.mem_append_right _ (List.mem_singleton_self _)) level

/-- Each call keeps what relates the registry to the levels that were set. -/
theorem perform {k : Logging} (hk : k.Sound) (c : LoggerCall) : (k.perform c).Sound := by
  cases c with
  | create name level => exact hk.create name level
  | get name => exact hk.getGlobal name
  | setGlobalLevel level => exact hk.setGlobalLevel level
  | configure verbose debug => exact hk.setGlobalLevel _
  | setLevel i level =>
    simp only [Logging.perform, registryAfter, Logging.handedOut, levelsSet, List.append_nil]
    cases hi : k.loggers[i]? with
    | none => exact hk
    | some g => exact hk.setLevel (List.mem_of_getElem? hi) level
  | log i level message =>
    simp only [Logging.perform, registryAfter, Logging.handedOut, levelsSet, List.append_nil]
    exact hk

end Sound

/-- The induction is on the calls, the last of which is performed after the others. -/
theorem sound_run (cs : List LoggerCall) : (run cs).Sound :=
  List.foldlRecOn cs perform Sound.start fun _ hk c _ => hk.perform c

/-- Once the global level is set, there is a global logger, and its channel is tuned to it. -/
theorem exists_tuned_global (cs : List LoggerCall) (level : Level) :
    let r := (run cs).registry.setGlobalLevel level
    ∃ g, r.getGlobal Registry.defaultName = (g, r) ∧ r.channel g.channel = .tuned level := by
  intro r
  let g := ((run cs).registry.getGlobal Registry.defaultName).1
  have hsound := (sound_run cs).setGlobalLevel level
  obtain ⟨l, hlookup, hchannel⟩ := hsound.tuned g (List.mem_append_right _ List.mem_cons_self)
  cases hlookup.symm.trans List.lookup_cons_self
  have hg : r.globalLogger = some g := Registry.globalLogger_getGlobal _ _
  exact ⟨g, Registry.getGlobal_of_some hg _, hchannel⟩

theorem run_append (cs ds : List LoggerCall) : run (cs ++ ds) = ds.foldl perform (run cs) :=
  List.foldl_append

theorem globalLogger_perform {k : Logging} {g : Logger} (hg : k.registry.globalLogger = some g)
    (c : LoggerCall) : (k.perform c).registry.globalLogger = some g := by
  cases c with
  | create | log => exact hg
  | get | setGlobalLevel | configure =>
    simp only [perform, registryAfter, Registry.setGlobalLevel, Registry.getGlobal_of_some hg]
    exact hg
  | setLevel i level =>
    simp only [perform, registryAfter]
    cases k.loggers[i]? <;> exact hg

/-- Once there is a global logger it remains the same one. -/
theorem globalLogger_foldl {k : Logging} {g : Logger} (hg : k.registry.globalLogger = some g)
    (cs : List LoggerCall) : (cs.foldl perform k).registry.globalLogger = some g := by
  induction cs generalizing k with
  | nil => exact hg
  | cons c cs ih => exact ih (globalLogger_perform hg c)

/-- After any calls, the channel of each logger has one handler, of its own level, and passes
nothing on. A message is logged through a logger once if its severity is at least that of the level
last set for the channel, through whichever logger, and otherwise not at all. A global logger is
there to stay. -/
theorem lines_of_run (cs : List LoggerCall) :
    let k := run cs
    (∀ g ∈ k.loggers, ∃ level,
      k.registry.channel g.channel = { level := level, handlers := [level], propagates := false }) ∧
    (∀ i g, k.loggers[i]? = some g → ∃ level, k.levels.lookup g.channel = some level ∧
      ∀ l message, k.lines (.log i l message) =
        if level.severity ≤ l.severity then [l.line message] else []) ∧
    ∀ g, k.registry.globalLogger = some g → g ∈ k.loggers ∧
      ∀ ds, (run (cs ++ ds)).registry.globalLogger = some g := by
  intro k
  have hk : k.Sound := sound_run cs
  refine ⟨?handlers, ?lines, ?global⟩
  case handlers =>
    intro g hg
    obtain ⟨level, -, hchannel⟩ := hk.tuned g hg
    exact ⟨level, hchannel⟩
  case lines =>
    intro i g hi
    obtain ⟨level, hlookup, hchannel⟩ := hk.tuned g (List.mem_of_getElem? hi)
    refine ⟨level, hlookup, fun l message => ?_⟩
    rw [lines, hi]
    exact Registry.lines_of_tuned hchannel l message
  case global =>
    intro g hg
    refine ⟨hk.handedOut g hg, fun ds => ?_⟩
    rw [run_append]
    exact globalLogger_foldl hg ds

/-- The global logger is made under a name that another logger is made for again, and the level
is then set through that one. -/
theorem lines_of_run_shared_channel :
    let cs : List LoggerCall := [.create "a" .error, .get "g", .create "g" .debug,
      .configure true false, .setLevel 2 .warning, .setLevel 0 .info]
    let k := run cs
    let g : Logger := ⟨1, "g"⟩
    (g ∈ k.loggers ∧ ∃ level,
      k.registry.channel "g" = { level := level, handlers := [level], propagates := false }) ∧
    (k.levels.lookup "g" = some .warning ∧ k.loggers[1]? = some g ∧
      k.lines (.log 1 .warning "m") = ["m"] ∧ k.lines (.log 1 .info "m") = []) ∧
    k.registry.globalLogger = some g ∧
      ∀ ds, (run (cs ++ ds)).registry.globalLogger = some g := by
  intro cs k g
  obtain ⟨hhandlers, hlines, hglobal⟩ := lines_of_run cs
  have hlookup : k.levels.lookup "g" = some .warning := by decide
  have hloggers : k.loggers[1]? = some g := by decide
  have hg : k.registry.globalLogger = some g := by decide
  have hmem : g ∈ k.loggers := by decide
  obtain ⟨level, hlevel, hmessages⟩ := hlines 1 g hloggers
  cases hlevel.symm.trans hlookup
  exact ⟨⟨hmem, hhandlers g hmem⟩, ⟨hlookup, hloggers, hmessages .warning "m", hmessages .info "m"⟩,
    hg, (hglobal g hg).2⟩

end Logging
end PolishLogic
