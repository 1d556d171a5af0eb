import Megalo.Lib.KeyedLoop
import Megalo.Log.Define
import Megalo.Log.Formatter

/-!
# `LogIniter`, the listener of the variable `logs`

- `Logger` and `LogAppender` are the objects behind their pointers, a `LoggerManager` the loggers there are by name, and
  `onLoggerConfChanged` is the listener, which fails where it would use an appender of no type;
- `runHistory` is what a history of values of `logs` makes of the loggers. A definition sets everything but the pattern
  of its logger, which it only sets when it gives one: `formatterAfter` is the pattern that is left then;
- `Tracks` says what the loggers of the current definitions are, up to that pattern, and every change keeps it
  (`tracks_change`). So two histories with one end agree on its loggers just where they leave the same patterns
  (`logger_config_history`).
-/

namespace Megalo

/-- A `FileLogAppender` of a file, or a `StdoutLogAppender`. -/
structure LogAppender where
  file : Option (List UInt8)
  level : LogLevel
  formatter : Option LogFormatter
  hasFormatter : Bool
  deriving DecidableEq

/-- `Logger`. -/
structure Logger where
  level : LogLevel
  appenders : List LogAppender
  formatter : LogFormatter
  deriving DecidableEq

/-- The loggers by name. -/
abbrev LoggerManager := List UInt8 → Option Logger

/-- The constructor of an appender. -/
def LogAppender.new (file : Option (List UInt8)) : LogAppender :=
  { file := file, level := .debug, formatter := none, hasFormatter := false }

namespace Logger

/-- The constructor. -/
def new : Logger where
  level := .debug
  appenders := []
  formatter := .new (bytes "%d\x7b%Y-%m-%d %H:%M:%S\x7d%T%t%T%N%T%F%T[%p]%T[%c]%T%f:%l%T%m%n")

def setLevel (l : Logger) (level : LogLevel) : Logger := { l with level := level }

def clearAppenders (l : Logger) : Logger := { l with appenders := [] }

def addLogAppender (l : Logger) (appender : LogAppender) : Logger :=
  { l with appenders := l.appenders ++ [{ appender with formatter := appender.formatter.or (some l.formatter) }] }

/-- `setFormatter(LogFormatter::ptr)`. -/
def setFormatter (l : Logger) (val : LogFormatter) : Logger :=
  { l with
    formatter := val
    appenders := l.appenders.map fun i => if i.hasFormatter then i else { i with formatter := some val } }

/-- `setFormatter(const std::string&)`. -/
def setFormatterText (l : Logger) (val : List UInt8) : Logger :=
  if (LogFormatter.new val).error then l else l.setFormatter (.new val)

end Logger

/-- The appender that the listener makes of its definition. -/
def LogAppenderDefine.make (a : LogAppenderDefine) : Option LogAppender :=
  let ap := if a.type = 1 then some (LogAppender.new (some a.file))
    else if a.type = 2 then some (LogAppender.new none) else none
  ap.map fun ap =>
    { ap with
      level := a.level
      formatter := if a.formatter.isEmpty || (LogFormatter.new a.formatter).error then ap.formatter
        else some (.new a.formatter) }

/-- What the listener does with a new or modified definition. -/
def LogDefine.configure (i : LogDefine) (logger : Logger) : Option Logger :=
  let logger := logger.setLevel i.level
  let logger := if i.formatter.isEmpty then logger else logger.setFormatterText i.formatter
  i.appenders.foldlM (fun logger a => a.make.map logger.addLogAppender) logger.clearAppenders

/-- A `std::set<LogDefine>`. -/
structure LogDefines where
  defs : List LogDefine
  sorted : defs.Pairwise fun d e => d.less e = true

namespace LogDefines

def empty : LogDefines := ⟨[], .nil⟩

/-- `find`. -/
def find (s : LogDefines) (i : LogDefine) : Option LogDefine := s.defs.find? fun d => d.name = i.name

end LogDefines

/-- The listener. -/
def onLoggerConfChanged (old new : LogDefines) (m : LoggerManager) : Option LoggerManager := do
  let m ← KeyedLoop.run LogDefine.name (fun i logger =>
    if old.find i = some i then some logger else (i.configure (logger.getD .new)).map some) new.defs m
  KeyedLoop.run LogDefine.name (fun i logger =>
    if (new.find i).isSome then some logger
    else some (some ((logger.getD .new).setLevel .unknowm).clearAppenders)) old.defs m

/-- A history of values from the value `v` on. A value that is set again is no change. -/
def runHistory : LogDefines → List LogDefines → LoggerManager → Option LoggerManager
  | _, [], m => some m
  | v, v' :: h, m =>
    (if v'.defs = v.defs then some m else onLoggerConfChanged v v' m).bind (runHistory v' h)

/-! ## What a history leaves -/

/-- The formatter that the logger of a definition has then: its own, if it has one without an error. -/
def LogDefine.formatterOr (i : LogDefine) (f : LogFormatter) : LogFormatter :=
  if i.formatter.isEmpty || (LogFormatter.new i.formatter).error then f else .new i.formatter

/-- The formatter of a logger after a history of values, from what it was before. -/
def formatterAfter (name : List UInt8) (f : LogFormatter) (h : List LogDefines) : LogFormatter :=
  h.foldl (fun f v => (v.defs.find? fun d => d.name = name).elim f fun i => i.formatterOr f) f

/-- What can be seen of an appender. -/
def LogAppender.view (a : LogAppender) : Option (List UInt8) × LogLevel × Option (List UInt8) :=
  (a.file, a.level, a.formatter.map LogFormatter.pattern)

/-- What can be seen of a logger: its level, its pattern and its appenders. -/
def Logger.view (l : Logger) : LogLevel × List UInt8 × List (Option (List UInt8) × LogLevel × Option (List UInt8)) :=
  (l.level, l.formatter.pattern, l.appenders.map LogAppender.view)

/-- The appender of a definition, in a logger with this pattern. -/
def LogAppenderDefine.view (a : LogAppenderDefine) (pattern : List UInt8) :
    Option (List UInt8) × LogLevel × Option (List UInt8) :=
  (if a.type = 1 then some a.file else none, a.level,
    some (if a.formatter.isEmpty || (LogFormatter.new a.formatter).error then pattern else a.formatter))

section

variable {logger logger' : Logger} {a : LogAppenderDefine} {i : LogDefine} {old new : LogDefines} {m m' : LoggerManager}
  {f : List UInt8 → LogFormatter}

theorem view_make {ap : LogAppender} (h : a.make = some ap) :
    LogAppender.view { ap with formatter := ap.formatter.or (some logger.formatter) } =
      a.view logger.formatter.pattern := by
  unfold LogAppenderDefine.make at h
  obtain ⟨ap₀, h₀, rfl⟩ := Option.map_eq_some_iff.1 h
  have hkind : ap₀ = LogAppender.new (if a.type = 1 then some a.file else none) := by
    split at h₀
    · rename_i h1
      rw [if_pos h1]
      exact (Option.some.inj h₀).symm
    · rename_i h1
      split at h₀
      · rw [if_neg h1]
        exact (Option.some.inj h₀).symm
      · cases h₀
  rw [hkind, LogAppender.view, LogAppenderDefine.view]
  cases a.formatter.isEmpty || (LogFormatter.new a.formatter).error <;> rfl

/-- The loop over the appenders of a definition. -/
theorem addAppenders_spec {l : List LogAppenderDefine}
    (h : l.foldlM (fun logger a => a.make.map logger.addLogAppender) logger = some logger') :
    logger'.level = logger.level ∧ logger'.formatter = logger.formatter ∧
      logger'.appenders.map LogAppender.view =
        logger.appenders.map LogAppender.view ++ l.map fun a => a.view logger.formatter.pattern := by
  induction l generalizing logger with
  | nil =>
    cases h
    exact ⟨rfl, rfl, (List.append_nil _).symm⟩
  | cons a l ih =>
    rw [List.foldlM_cons] at h
    obtain ⟨lg, hlg, h⟩ := Option.bind_eq_some_iff.1 h
    obtain ⟨ap, hap, rfl⟩ := Option.map_eq_some_iff.1 hlg
    obtain ⟨hlevel, hformatter, happenders⟩ := ih h
    refine ⟨hlevel, hformatter, ?_⟩
    rw [happenders]
    simp only [Logger.addLogAppender, List.map_append, List.map_cons, List.map_nil, view_make hap, List.append_assoc,
      List.singleton_append]

/-- A definition sets the level and the appenders of its logger, and the formatter if it has one. -/
theorem configure_spec (h : i.configure logger = some logger') :
    logger'.level = i.level ∧ logger'.formatter = i.formatterOr logger.formatter ∧
      logger'.appenders.map LogAppender.view =
        i.appenders.map fun a => a.view (i.formatterOr logger.formatter).pattern := by
  have hset : ∃ appenders, (if i.formatter.isEmpty then logger.setLevel i.level
      else (logger.setLevel i.level).setFormatterText i.formatter) =
        { level := i.level, appenders := appenders, formatter := i.formatterOr logger.formatter } := by
    unfold LogDefine.formatterOr Logger.setFormatterText
    by_cases hempty : i.formatter.isEmpty
    · simp only [hempty, if_true, Bool.true_or]
      exact ⟨_, rfl⟩
    · by_cases herror : (LogFormatter.new i.formatter).error
      · simp only [hempty, herror, if_true, Bool.or_true]
        exact ⟨_, rfl⟩
      · simp only [hempty, herror, Bool.or_false]
        exact ⟨_, rfl⟩
  obtain ⟨appenders, hset⟩ := hset
  unfold LogDefine.configure at h
  simp only [hset] at h
  exact addAppenders_spec h

theorem LogDefines.names (s : LogDefines) : s.defs.Pairwise fun d e => d.name ≠ e.name := by
  refine s.sorted.imp fun {d e} hlt heq => ?_
  rw [LogDefine.less, heq] at hlt
  exact List.lt_irrefl _ (of_decide_eq_true hlt)

/-- What is found by the name of a definition. -/
theorem LogDefines.find_eq (s : LogDefines) {d : LogDefine} (h : d ∈ s.defs) (hname : d.name = i.name) :
    s.find i = some d := by
  rw [LogDefines.find, ← hname]
  exact KeyedLoop.find_eq s.names h

theorem LogDefines.find_mem (s : LogDefines) {d : LogDefine} (h : s.find i = some d) :
    d ∈ s.defs ∧ d.name = i.name := by
  have hp := List.find?_some h
  exact ⟨List.mem_of_find?_eq_some h, of_decide_eq_true hp⟩

/-- The loggers of the definitions are as these say, with the formatter `f` of each name. -/
structure Tracks (f : List UInt8 → LogFormatter) (v : LogDefines) (m : LoggerManager) : Prop where
  formatter : ∀ name, ((m name).getD .new).formatter = f name
  logger : ∀ d ∈ v.defs, (m d.name).map Logger.view =
    some (d.level, (f d.name).pattern, d.appenders.map fun a => a.view (f d.name).pattern)
  own : ∀ d ∈ v.defs, d.formatterOr (f d.name) = f d.name

/-- The formatters after one more value. -/
def formatters (f : List UInt8 → LogFormatter) (v : LogDefines) (name : List UInt8) : LogFormatter :=
  (v.defs.find? fun d => d.name = name).elim (f name) fun i => i.formatterOr (f name)

theorem formatters_eq (v : LogDefines) {d : LogDefine} (h : d ∈ v.defs) :
    formatters f v d.name = d.formatterOr (f d.name) := by
  rw [formatters, KeyedLoop.find_eq v.names h]
  rfl

theorem formatterOr_formatterOr (i : LogDefine) (f : LogFormatter) :
    i.formatterOr (i.formatterOr f) = i.formatterOr f := by
  unfold LogDefine.formatterOr
  split <;> rfl

/-- What a change does to the logger of a name. -/
theorem change_spec (h : onLoggerConfChanged old new m = some m') (name : List UInt8) :
    (∀ d ∈ new.defs, d.name = name → (old.find d = some d ∧ m' name = m name) ∨
      (∃ logger, d.configure ((m name).getD .new) = some logger ∧ m' name = some logger)) ∧
    ((∀ d ∈ new.defs, d.name ≠ name) → ((m' name).getD .new).formatter = ((m name).getD .new).formatter) := by
  obtain ⟨m₁, h₁, h₂⟩ := Option.bind_eq_some_iff.1 h
  obtain ⟨hset, hother⟩ := KeyedLoop.run_spec new.names h₁ name
  obtain ⟨hremoved, hkept⟩ := KeyedLoop.run_spec old.names h₂ name
  constructor
  · intro d hd hname
    -- the second loop leaves the loggers of the new value alone
    have hsame : m' name = m₁ name := by
      by_cases hold : ∃ i ∈ old.defs, i.name = name
      · obtain ⟨i, hi, hiname⟩ := hold
        have := hremoved i hi hiname
        rw [new.find_eq hd (hname.trans hiname.symm)] at this
        exact (Option.some.inj this).symm
      · exact hkept fun i hi hiname => hold ⟨i, hi, hiname⟩
    have hloop := hset d hd hname
    rw [hsame]
    by_cases hold : old.find d = some d
    · rw [if_pos hold] at hloop
      exact .inl ⟨hold, (Option.some.inj hloop).symm⟩
    · rw [if_neg hold] at hloop
      obtain ⟨logger, hconf, hlogger⟩ := Option.map_eq_some_iff.1 hloop
      exact .inr ⟨logger, hconf, hlogger.symm⟩
  · intro hnot
    rw [← hother hnot]
    by_cases hold : ∃ i ∈ old.defs, i.name = name
    · obtain ⟨i, hi, hiname⟩ := hold
      have hloop := hremoved i hi hiname
      split at hloop
      · rw [Option.some.inj hloop]
      · rw [← Option.some.inj hloop]
        rfl
    · rw [hkept fun i hi hiname => hold ⟨i, hi, hiname⟩]

/-- **A change keeps the loggers as their definitions say.** -/
theorem tracks_change (ht : Tracks f old m) (h : onLoggerConfChanged old new m = some m') :
    Tracks (formatters f new) new m' := by
  have hown : ∀ d ∈ new.defs, d.formatterOr (formatters f new d.name) = formatters f new d.name := fun d hd => by
    rw [formatters_eq new hd, formatterOr_formatterOr]
  refine ⟨fun name => ?_, fun d hd => ?_, hown⟩
  · by_cases hnew : ∃ d ∈ new.defs, d.name = name
    · obtain ⟨d, hd, rfl⟩ := hnew
      rw [formatters_eq new hd]
      rcases (change_spec h d.name).1 d hd rfl with ⟨hold, hsame⟩ | ⟨logger, hconf, hlogger⟩
      · rw [hsame, ht.formatter, ht.own d (old.find_mem hold).1]
      · rw [hlogger, ← ht.formatter]
        exact (configure_spec hconf).2.1
    · have hnot : ∀ d ∈ new.defs, d.name ≠ name := fun d hd hname => hnew ⟨d, hd, hname⟩
      have hnone : (new.defs.find? fun d => d.name = name) = none := by
        simpa using hnot
      rw [(change_spec h name).2 hnot, ht.formatter, formatters, hnone]
      rfl
  · rw [formatters_eq new hd]
    rcases (change_spec h d.name).1 d hd rfl with ⟨hold, hsame⟩ | ⟨logger, hconf, hlogger⟩
    · have hmem := (old.find_mem hold).1
      rw [hsame, ht.logger d hmem, ht.own d hmem]
    · obtain ⟨hlevel, hformatter, happenders⟩ := configure_spec hconf
      rw [ht.formatter] at hformatter happenders
      rw [hlogger, Option.map_some, Logger.view, hlevel, hformatter, happenders]

/-- The value that is there already changes no formatter. -/
theorem Tracks.formatters {v : LogDefines} (ht : Tracks f v m) : formatters f v = f := by
  funext name
  rw [Megalo.formatters]
  cases hfind : v.defs.find? fun d => d.name = name with
  | none => rfl
  | some d =>
    have hp := List.find?_some hfind
    obtain rfl := of_decide_eq_true hp
    exact ht.own d (List.mem_of_find?_eq_some hfind)

theorem tracks_history {v : LogDefines} {h : List LogDefines} (ht : Tracks f v m) (hrun : runHistory v h m = some m') :
    Tracks (fun name => formatterAfter name (f name) h) (h.getLastD v) m' := by
  induction h generalizing v m f with
  | nil =>
    cases hrun
    exact ht
  | cons v' h ih =>
    obtain ⟨m₁, h₁, hrun⟩ := Option.bind_eq_some_iff.1 hrun
    have ht₁ : Tracks (formatters f v') v' m₁ := by
      split at h₁
      · rename_i hsame
        obtain ⟨defs, hdefs⟩ := v'
        obtain rfl : defs = v.defs := hsame
        cases h₁
        rw [ht.formatters]
        exact ht
      · exact tracks_change ht h₁
    rw [List.getLastD_cons]
    exact ih ht₁ hrun

end

/-- **Two histories of one end** leave the loggers of its definitions alike if and only if they leave each of them the
same pattern. -/
theorem logger_config_history {m₀ m₁ m₂ : LoggerManager} {h₁ h₂ : List LogDefines} {S : LogDefines}
    (hend₁ : h₁.getLastD .empty = S) (hend₂ : h₂.getLastD .empty = S)
    (hrun₁ : runHistory .empty h₁ m₀ = some m₁) (hrun₂ : runHistory .empty h₂ m₀ = some m₂) :
    (∀ d ∈ S.defs, (m₁ d.name).map Logger.view = (m₂ d.name).map Logger.view) ↔
      ∀ d ∈ S.defs, (formatterAfter d.name ((m₀ d.name).getD .new).formatter h₁).pattern =
        (formatterAfter d.name ((m₀ d.name).getD .new).formatter h₂).pattern := by
  have ht₀ : Tracks (fun name => ((m₀ name).getD .new).formatter) .empty m₀ :=
    ⟨fun _ => rfl, fun _ hd => absurd hd List.not_mem_nil, fun _ hd => absurd hd List.not_mem_nil⟩
  have ht₁ := tracks_history ht₀ hrun₁
  have ht₂ := tracks_history ht₀ hrun₂
  rw [hend₁] at ht₁
  rw [hend₂] at ht₂
  refine forall₂_congr fun d hd => ?_
  rw [ht₁.logger d hd, ht₂.logger d hd, Option.some.injEq]
  constructor
  · intro heq
    exact congrArg (fun v => v.2.1) heq
  · intro heq
    rw [heq]

/-- `LoggerManager`, with its root logger. -/
def LoggerManager.initial : LoggerManager := fun name =>
  if name = bytes "root" then some (Logger.new.addLogAppender (.new none)) else none

/-- One logger that writes to the standard output, with a formatter or without. -/
def oneLogger (formatter : List UInt8) : LogDefines where
  defs := [{ name := bytes "http", level := .info, formatter := formatter, appenders := [⟨2, .debug, [], []⟩] }]
  sorted := List.pairwise_singleton _ _

/-- A definition with a formatter of its own. -/
theorem logger_config_history_own : ∃ m₁ m₂, runHistory .empty [oneLogger (bytes "%m")] .initial = some m₁ ∧
    runHistory .empty [oneLogger (bytes "%p"), .empty, oneLogger (bytes "%m")] .initial = some m₂ ∧
    ∀ d ∈ (oneLogger (bytes "%m")).defs, (m₁ d.name).map Logger.view = (m₂ d.name).map Logger.view := by
  obtain ⟨m₁, h₁⟩ := Option.isSome_iff_exists.1
    (show (runHistory .empty [oneLogger (bytes "%m")] .initial).isSome = true by decide)
  obtain ⟨m₂, h₂⟩ := Option.isSome_iff_exists.1
    (show (runHistory .empty [oneLogger (bytes "%p"), .empty, oneLogger (bytes "%m")] .initial).isSome = true by decide)
  exact ⟨m₁, m₂, h₁, h₂, (logger_config_history (by rfl) (by rfl) h₁ h₂).2 (by decide)⟩

/-- A formatter that is taken out of the definition stays in the logger. -/
theorem formatter_kept : ∃ m₁ m₂, runHistory .empty [oneLogger []] .initial = some m₁ ∧
    runHistory .empty [oneLogger (bytes "%m"), oneLogger []] .initial = some m₂ ∧
    (m₁ (bytes "http")).map Logger.view ≠ (m₂ (bytes "http")).map Logger.view := by
  have hne : ((runHistory .empty [oneLogger []] .initial).map fun m =>
        (m (bytes "http")).map fun l => l.formatter.pattern) ≠
      (runHistory .empty [oneLogger (bytes "%m"), oneLogger []] .initial).map fun m =>
        (m (bytes "http")).map fun l => l.formatter.pattern := by decide
  obtain ⟨m₁, h₁⟩ := Option.isSome_iff_exists.1
    (show (runHistory .empty [oneLogger []] .initial).isSome = true by decide)
  obtain ⟨m₂, h₂⟩ := Option.isSome_iff_exists.1
    (show (runHistory .empty [oneLogger (bytes "%m"), oneLogger []] .initial).isSome = true by decide)
  refine ⟨m₁, m₂, h₁, h₂, fun heq => hne ?_⟩
  have := congrArg (Option.map fun v => v.2.1) heq
  rw [Option.map_map, Option.map_map] at this
  rw [h₁, h₂, Option.map_some, Option.map_some]
  exact congrArg some this

end Megalo
