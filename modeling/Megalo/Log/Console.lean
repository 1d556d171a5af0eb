import Megalo.Lib.Separated
import Megalo.Log.Appenders
import Megalo.Util.Digits

/-!
# What loggers write to the console

- `LogConsole` is the loggers and the text of `std::cout`; `LogOp` are the calls of loggers, and of others that print a
  line. A logger without appenders passes an event on to the root logger. A logger has its appenders for itself here, by
  value: an appender that two loggers share, or that is changed past its logger, is not covered;
- `ConsoleEntry` is what is printed, as a line of a logger or of others, and `LogOp.entries` says it of a call;
- a formatter is `OneLine` when its only newline is its last item, and the message stands in its last column, where
  columns are separated by tabs;
- `console_read`: with such formatters, the console has one line for each entry, and the columns of a line are read
  back from it (`splitFirst`), whatever is done in between.
-/

namespace Megalo

/-! ## Events -/

/-- `LogEvent`, with the name of `m_logger`; `content` is what was written to `m_ss`. -/
structure LogEvent where
  name : List UInt8
  level : LogLevel
  file : List UInt8
  line : Int32
  elapse : UInt32
  threadId : UInt32
  fiberId : UInt32
  time : UInt64
  threadName : List UInt8
  content : List UInt8
  deriving DecidableEq

/-- What `localtime_r` and `strftime` make of a format and a time. -/
abbrev Calendar := List UInt8 → UInt64 → List UInt8

/-- What `operator<<` writes for a signed number. -/
def signedDecimal (v : ℤ) : List UInt8 := if v < 0 then bytes "-" ++ decimal v.natAbs else decimal v.natAbs

/-- `FormatItem::format`. A date that does not fit into the 64 bytes of the buffer, with its NUL, leaves this
undefined. -/
def FormatItem.format (calendar : Calendar) (level : LogLevel) (event : LogEvent) : FormatItem → Option (List UInt8)
  | .message => some event.content
  | .level => some level.toString
  | .elapse => some (decimal event.elapse.toNat)
  | .name => some event.name
  | .threadId => some (decimal event.threadId.toNat)
  | .newLine => some [10]
  | .dateTime format =>
    let text := calendar (format.takeWhile (· ≠ 0)) event.time
    if text.length < 64 then some text else none
  | .fileName => some event.file
  | .line => some (signedDecimal event.line.toInt)
  | .tab => some [9]
  | .fiberId => some (decimal event.fiberId.toNat)
  | .threadName => some event.threadName
  | .string text => some text

/-- `LogFormatter::format`. -/
def LogFormatter.format (calendar : Calendar) (f : LogFormatter) (level : LogLevel) (event : LogEvent) :
    Option (List UInt8) :=
  f.items.foldlM (fun ss i => (i.format calendar level event).map fun text => ss ++ text) []

/-- The lines that the constructor prints about directives whose brace is not closed, on the pattern from `i` on. -/
def LogFormatter.complaints (pattern : List UInt8) : ℕ → List UInt8 → List (List UInt8)
  | 0, _ => []
  | _ + 1, [] => []
  | k + 1, c :: rest =>
    if c ≠ percent then complaints pattern k rest
    else if rest.head? = some percent then complaints pattern k rest
    else
      let d := scanDirective rest [] none []
      if d.open_ then
        (bytes "pattern parse error: " ++ pattern ++ bytes " - " ++ c :: rest) :: complaints pattern k rest
      else complaints pattern k d.rest

/-! ## Loggers -/

/-- The loggers, and what is written to `std::cout`. -/
structure LogConsole where
  loggers : LoggerManager
  console : List UInt8

/-- The name of the root logger. -/
def rootName : List UInt8 := bytes "root"

namespace LogConsole

/-- `LoggerManager::LoggerManager`. -/
def new : LogConsole where
  loggers := Function.update (fun _ => none) rootName (some (Logger.new.addLogAppender (.new none)))
  console := []

/-- `std::cout << text << std::endl`. -/
def print (text : List UInt8) (s : LogConsole) : LogConsole := { s with console := s.console ++ text ++ [10] }

end LogConsole

/-- The `log` of an appender; what becomes of the text of one for a file is its own matter. -/
def LogAppender.log (calendar : Calendar) (level : LogLevel) (event : LogEvent) (a : LogAppender) (s : LogConsole) :
    Option LogConsole :=
  if a.level.value ≤ level.value then
    a.formatter.bind fun f => (f.format calendar level event).map fun text =>
      if a.file.isNone then { s with console := s.console ++ text } else s
  else some s

/-- `Logger::log`, where `next` is the call of the root logger, if there is one. -/
def Logger.log (calendar : Calendar) (level : LogLevel) (event : LogEvent) (l : Logger)
    (next : LogConsole → Option LogConsole) (s : LogConsole) : Option LogConsole :=
  if l.level.value ≤ level.value then
    if l.appenders ≠ [] then l.appenders.foldlM (fun s i => i.log calendar level event s) s else next s
  else some s

namespace LogConsole

variable (calendar : Calendar) (s : LogConsole)

/-- `getLogger`. -/
def getLogger (name : List UInt8) : LogConsole :=
  { s with loggers := Function.update s.loggers name (some ((s.loggers name).getD .new)) }

/-- A logger is changed. -/
def modify (name : List UInt8) (f : Logger → Logger) : Option LogConsole :=
  (s.loggers name).map fun l => { s with loggers := Function.update s.loggers name (some (f l)) }

/-- `Logger::log` of the logger of a name. -/
def log (name : List UInt8) (level : LogLevel) (event : LogEvent) : Option LogConsole :=
  (s.loggers name).bind fun l =>
    l.log calendar level event
      (fun s => if name = rootName then some s
        else (s.loggers rootName).bind fun root => root.log calendar level event some s) s

/-- `MEGALO_LOG_LEVEL`, with the destructor of its `LogEventWrap`. -/
def event (event : LogEvent) : Option LogConsole :=
  (s.loggers event.name).bind fun l =>
    if l.level.value ≤ event.level.value then s.log calendar event.name event.level event else some s

/-- `Logger::setFormatter(const std::string&)`. -/
def setFormatter (name val : List UInt8) : Option LogConsole :=
  let s := s.print (bytes "logger name=" ++ name ++ bytes " set formatter " ++ bytes " --- " ++ val)
  let s := (LogFormatter.complaints val val.length val).foldl (fun s text => s.print text) s
  let s := if (LogFormatter.new val).error then
      s.print (bytes "Logger setFormatter name=" ++ name ++ bytes " value=" ++ val ++ bytes " invalid formatter")
    else s
  s.modify name fun l => l.setFormatterText val

end LogConsole

/-- A call of a logger, or somebody who prints a line. -/
inductive LogOp
  | getLogger (name : List UInt8)
  | setLevel (name : List UInt8) (level : LogLevel)
  | setFormatter (name val : List UInt8)
  | addLogAppender (name : List UInt8) (appender : LogAppender)
  | delLogAppender (name : List UInt8) (i : ℕ)
  | clearAppenders (name : List UInt8)
  | setAppenderLevel (name : List UInt8) (i : ℕ) (level : LogLevel)
  | setAppenderFormatter (name : List UInt8) (i : ℕ) (val : LogFormatter)
  | log (name : List UInt8) (level : LogLevel) (event : LogEvent)
  | event (event : LogEvent)
  | print (text : List UInt8)

/-- One call; `none` where the logger is not there or a call fails. -/
def LogConsole.step (calendar : Calendar) (s : LogConsole) : LogOp → Option LogConsole
  | .getLogger name => some (s.getLogger name)
  | .setLevel name level => s.modify name fun l => l.setLevel level
  | .setFormatter name val => s.setFormatter name val
  | .addLogAppender name appender => s.modify name fun l => l.addLogAppender appender
  | .delLogAppender name i => s.modify name fun l => { l with appenders := l.appenders.eraseIdx i }
  | .clearAppenders name => s.modify name Logger.clearAppenders
  | .setAppenderLevel name i level =>
    s.modify name fun l => { l with appenders := l.appenders.modify i fun a => { a with level := level } }
  | .setAppenderFormatter name i val =>
    s.modify name fun l => { l with appenders := l.appenders.modify i fun a => a.setFormatter (some val) }
  | .log name level event => s.log calendar name level event
  | .event event => s.event calendar event
  | .print text => some (s.print text)

/-! ## What is printed -/

/-- A line of somebody, or the line of an event. -/
inductive ConsoleEntry
  | notice (text : List UInt8)
  | line (f : LogFormatter) (level : LogLevel) (event : LogEvent)

/-- What an appender prints of an event. -/
def LogAppender.entries (level : LogLevel) (event : LogEvent) (a : LogAppender) : List ConsoleEntry :=
  if a.file = none ∧ a.level.value ≤ level.value then (a.formatter.map fun f => .line f level event).toList else []

namespace LogConsole

variable (s : LogConsole)

/-- The appenders that an event of a logger comes to: its own, or else those of the root logger. -/
def reached (name : List UInt8) (level : LogLevel) : List LogAppender :=
  match s.loggers name with
  | none => []
  | some l =>
    if level.value < l.level.value then []
    else if l.appenders = [] then
      ((s.loggers rootName).filter fun root => root.level.value ≤ level.value).elim [] Logger.appenders
    else l.appenders

/-- What a call prints. -/
def entries : LogOp → List ConsoleEntry
  | .setFormatter name val =>
    .notice (bytes "logger name=" ++ name ++ bytes " set formatter " ++ bytes " --- " ++ val) ::
      (LogFormatter.complaints val val.length val).map .notice ++
      if (LogFormatter.new val).error then
        [.notice (bytes "Logger setFormatter name=" ++ name ++ bytes " value=" ++ val ++ bytes " invalid formatter")]
      else []
  | .log name level event => (s.reached name level).flatMap (LogAppender.entries level event)
  | .event event => (s.reached event.name event.level).flatMap (LogAppender.entries event.level event)
  | .print text => [.notice text]
  | _ => []

end LogConsole

/-- The calls, with what was printed. -/
def consoleSys (calendar : Calendar) : Transition.Sys (LogConsole × List ConsoleEntry) LogOp where
  init p := p = (.new, [])
  step p op := (p.1.step calendar op).map fun t => (t, p.2 ++ p.1.entries op)

/-! ## Formatters that write a line -/

/-- No tab and no newline. -/
def Inline (text : List UInt8) : Prop := 9 ∉ text ∧ 10 ∉ text

instance (text : List UInt8) : Decidable (Inline text) := inferInstanceAs (Decidable (_ ∧ _))

namespace LogFormatter

/-- The columns in front of the newline. -/
def columns (f : LogFormatter) : List (List FormatItem) := f.items.dropLast.splitOn .tab

/-- The formatter ends with its only newline, only the last column has the message, dates fit into their buffer, and
neither these nor the texts of the pattern have tabs or newlines. -/
structure OneLine (calendar : Calendar) (f : LogFormatter) : Prop where
  last : f.items.getLast? = some .newLine
  only : .newLine ∉ f.items.dropLast
  message : ∀ column ∈ f.columns.dropLast, .message ∉ column
  date : ∀ format, .dateTime format ∈ f.items → ∀ time,
    (calendar (format.takeWhile (· ≠ 0)) time).length < 64 ∧ Inline (calendar (format.takeWhile (· ≠ 0)) time)
  string : ∀ text, .string text ∈ f.items → Inline text

/-- What the columns are for an event. -/
def fields (calendar : Calendar) (f : LogFormatter) (level : LogLevel) (event : LogEvent) : List (List UInt8) :=
  f.columns.map fun column => column.flatMap fun i => (i.format calendar level event).getD []

end LogFormatter

/-- An event whose texts have no newlines, and no tabs outside of its message. -/
structure LogEvent.OneLine (event : LogEvent) : Prop where
  name : Inline event.name
  file : Inline event.file
  threadName : Inline event.threadName
  content : 10 ∉ event.content

variable {calendar : Calendar} {f : LogFormatter} {level : LogLevel} {event : LogEvent} {i : FormatItem}

theorem inline_decimal (n : ℕ) : Inline (decimal n) :=
  ⟨fun h => absurd (isDigit_of_mem_decimal h).1 (by decide), fun h => absurd (isDigit_of_mem_decimal h).1 (by decide)⟩

theorem inline_signedDecimal (v : ℤ) : Inline (signedDecimal v) := by
  have hdigits := inline_decimal v.natAbs
  unfold signedDecimal
  split
  · have hminus : Inline (bytes "-") := by decide
    exact ⟨List.not_mem_append hminus.1 hdigits.1, List.not_mem_append hminus.2 hdigits.2⟩
  · exact hdigits

theorem inline_level (level : LogLevel) : Inline level.toString := by
  cases level <;> decide

namespace LogFormatter.OneLine

/-- An item in front of the newline. -/
theorem format_item (level : LogLevel) (hf : f.OneLine calendar) (he : event.OneLine) (hi : i ∈ f.items.dropLast)
    (htab : i ≠ .tab) :
    ∃ text, i.format calendar level event = some text ∧ 10 ∉ text ∧ (i ≠ .message → 9 ∉ text) := by
  have hmem := List.mem_of_mem_dropLast hi
  have hinline : ∀ {text : List UInt8}, i.format calendar level event = some text → Inline text →
      ∃ text, i.format calendar level event = some text ∧ 10 ∉ text ∧ (i ≠ .message → 9 ∉ text) :=
    fun h ht => ⟨_, h, ht.2, fun _ => ht.1⟩
  cases i with
  | message => exact ⟨_, rfl, he.content, fun h => absurd rfl h⟩
  | tab => exact absurd rfl htab
  | newLine => exact absurd hi hf.only
  | level => exact hinline rfl (inline_level level)
  | elapse | threadId | fiberId => exact hinline rfl (inline_decimal _)
  | line => exact hinline rfl (inline_signedDecimal _)
  | name => exact hinline rfl he.name
  | fileName => exact hinline rfl he.file
  | threadName => exact hinline rfl he.threadName
  | string text => exact hinline rfl (hf.string text hmem)
  | dateTime format =>
    obtain ⟨hlen, htext⟩ := hf.date format hmem event.time
    exact hinline (if_pos hlen) htext

/-- The items of a column. -/
theorem mem_column {column : List FormatItem} (hcolumn : column ∈ f.columns) :
    ∀ i ∈ column, i ∈ f.items.dropLast ∧ i ≠ .tab :=
  Separated.mem_of_mem_splitOn hcolumn

theorem items_eq (hf : f.OneLine calendar) : f.items = [.tab].intercalate f.columns ++ [.newLine] := by
  obtain ⟨front, hitems⟩ := List.getLast?_eq_some_iff.mp hf.last
  rw [LogFormatter.columns, List.intercalate_splitOn, hitems, List.dropLast_concat]

/-- No item fails. -/
theorem format_some (hf : f.OneLine calendar) (he : event.OneLine) (hi : i ∈ f.items) :
    i.format calendar level event = some ((i.format calendar level event).getD []) := by
  by_cases hend : i = .tab ∨ i = .newLine
  · rcases hend with rfl | rfl <;> rfl
  · obtain ⟨front, hitems⟩ := List.getLast?_eq_some_iff.mp hf.last
    have hfront : i ∈ f.items.dropLast := by
      rw [hitems, List.dropLast_concat]
      rw [hitems, List.mem_append, List.mem_singleton] at hi
      exact hi.resolve_right fun h => hend (.inr h)
    obtain ⟨text, htext, -⟩ := hf.format_item level he hfront fun h => hend (.inl h)
    rw [htext]
    rfl

/-- The text of an event is its columns, and a newline. -/
theorem format_eq (hf : f.OneLine calendar) (he : event.OneLine) :
    f.format calendar level event = some ([9].intercalate (f.fields calendar level event) ++ [10]) := by
  have hloop : ∀ (items : List FormatItem) (ss : List UInt8), (∀ i ∈ items, i ∈ f.items) →
      items.foldlM (fun ss i => (i.format calendar level event).map fun text => ss ++ text) ss =
        some (ss ++ items.flatMap fun i => (i.format calendar level event).getD []) := by
    intro items
    induction items with
    | nil => exact fun ss _ => congrArg some (List.append_nil ss).symm
    | cons i items ih =>
      intro ss h
      rw [List.foldlM_cons, hf.format_some he (h i List.mem_cons_self), Option.map_some, Option.bind_eq_bind,
        Option.bind_some, ih _ fun i' hi' => h i' (List.mem_cons_of_mem _ hi'), List.flatMap_cons, List.append_assoc]
  have hnewLine : [FormatItem.newLine].flatMap (fun i => (i.format calendar level event).getD []) = [10] := rfl
  rw [LogFormatter.format, hloop f.items [] fun _ => id, List.nil_append, hf.items_eq, List.flatMap_append,
    Separated.flatMap_intercalate, hnewLine]
  rfl

/-- A column, but the last, has no tab, and none has a newline. -/
theorem fields_inline (level : LogLevel) (hf : f.OneLine calendar) (he : event.OneLine) :
    (∀ field ∈ f.fields calendar level event, 10 ∉ field) ∧
      ∀ field ∈ (f.fields calendar level event).dropLast, 9 ∉ field := by
  constructor
  · intro field hfield h10
    obtain ⟨column, hcolumn, rfl⟩ := List.mem_map.mp hfield
    obtain ⟨i, hi, hmem⟩ := List.mem_flatMap.mp h10
    obtain ⟨hitem, htab⟩ := mem_column hcolumn i hi
    obtain ⟨text, htext, hnot, -⟩ := hf.format_item level he hitem htab
    rw [htext] at hmem
    exact hnot hmem
  · intro field hfield h9
    rw [LogFormatter.fields, ← List.map_dropLast] at hfield
    obtain ⟨column, hcolumn, rfl⟩ := List.mem_map.mp hfield
    obtain ⟨i, hi, hmem⟩ := List.mem_flatMap.mp h9
    obtain ⟨hitem, htab⟩ := mem_column (List.mem_of_mem_dropLast hcolumn) i hi
    obtain ⟨text, htext, -, hnot⟩ := hf.format_item level he hitem htab
    rw [htext] at hmem
    exact hnot (fun hm => hf.message column hcolumn (hm ▸ hi)) hmem

end LogFormatter.OneLine

/-! ## Reading the console -/

namespace ConsoleEntry

/-- The text of a line. -/
def text (calendar : Calendar) : ConsoleEntry → List UInt8
  | .notice text => text
  | .line f level event => [9].intercalate (f.fields calendar level event)

/-- A line that says what is printed: the columns of an event, or just the text. -/
def ReadIn (calendar : Calendar) (line : List UInt8) : ConsoleEntry → Prop
  | .notice text => line = text
  | .line f level event => Separated.splitFirst 9 (f.columns.length - 1) line = f.fields calendar level event

/-- A notice of one line, or an event that is printed on one. -/
def OneLine (calendar : Calendar) : ConsoleEntry → Prop
  | .notice text => 10 ∉ text
  | .line f _ event => f.OneLine calendar ∧ event.OneLine

theorem OneLine.text_line {e : ConsoleEntry} (h : e.OneLine calendar) :
    10 ∉ e.text calendar ∧ e.ReadIn calendar (e.text calendar) := by
  cases e with
  | notice text => exact ⟨h, rfl⟩
  | line f level event =>
    obtain ⟨hf, he⟩ := h
    obtain ⟨hnewline, htab⟩ := hf.fields_inline level he
    constructor
    · exact Separated.not_mem_intercalate (by decide) hnewline
    · have hne : f.fields calendar level event ≠ [] := fun h => List.splitOn_ne_nil _ _ (List.map_eq_nil_iff.mp h)
      have hread := Separated.splitFirst_intercalate hne htab
      rw [LogFormatter.fields, List.length_map] at hread
      exact hread

end ConsoleEntry

/-! ## Calls -/

/-- A formatter that writes lines, and appenders that have such ones. -/
structure Logger.OneLine (calendar : Calendar) (l : Logger) : Prop where
  formatter : l.formatter.OneLine calendar
  appenders : ∀ a ∈ l.appenders, ∃ f, a.formatter = some f ∧ f.OneLine calendar

/-- What is given to a call is on one line. -/
def LogOp.OneLine (calendar : Calendar) : LogOp → Prop
  | .setFormatter name val =>
    10 ∉ name ∧ 10 ∉ val ∧ ((LogFormatter.new val).error = true ∨ (LogFormatter.new val).OneLine calendar)
  | .addLogAppender _ appender => ∀ f, appender.formatter = some f → f.OneLine calendar
  | .setAppenderFormatter _ _ val => val.OneLine calendar
  | .log _ _ event => event.OneLine
  | .event event => event.OneLine
  | .print text => 10 ∉ text
  | _ => True

namespace LogConsole

variable {s t : LogConsole} {name : List UInt8} {l root : Logger} {entries entries' : List ConsoleEntry}

/-- Lines are added. -/
def printed (calendar : Calendar) (s : LogConsole) (entries : List ConsoleEntry) : LogConsole :=
  { s with console := s.console ++ entries.flatMap fun e => e.text calendar ++ [10] }

theorem printed_nil : s.printed calendar [] = s := by
  simp [printed]

theorem printed_append : (s.printed calendar entries).printed calendar entries' =
    s.printed calendar (entries ++ entries') := by
  simp [printed]

/-- An appender with such a formatter. -/
theorem appender_log {a : LogAppender} (ha : ∃ f, a.formatter = some f ∧ f.OneLine calendar) (he : event.OneLine) :
    a.log calendar level event s = some (s.printed calendar (a.entries level event)) := by
  obtain ⟨f, hf, hline⟩ := ha
  unfold LogAppender.log LogAppender.entries
  split
  · rename_i hlevel
    rw [hf, Option.bind_some, hline.format_eq he, Option.map_some]
    cases hfile : a.file with
    | none => simp [hlevel, printed, ConsoleEntry.text]
    | some file => simp [printed]
  · rename_i hlevel
    rw [if_neg fun h => hlevel h.2, printed_nil]

/-- The loop over the appenders. -/
theorem appenders_log {as : List LogAppender} (has : ∀ a ∈ as, ∃ f, a.formatter = some f ∧ f.OneLine calendar)
    (he : event.OneLine) : as.foldlM (fun s i => i.log calendar level event s) s =
      some (s.printed calendar (as.flatMap (LogAppender.entries level event))) := by
  induction as generalizing s with
  | nil => exact congrArg some printed_nil.symm
  | cons a as ih =>
    rw [List.foldlM_cons, appender_log (has a List.mem_cons_self) he, Option.bind_eq_bind, Option.bind_some,
      ih fun a' ha' => has a' (List.mem_cons_of_mem _ ha'), printed_append, List.flatMap_cons]

/-- A logger passes an event on only when it has no appenders. -/
theorem logger_log (hl : l.OneLine calendar) (he : event.OneLine) (next : LogConsole → Option LogConsole) :
    l.log calendar level event next s =
      if level.value < l.level.value then some s else if l.appenders = [] then next s
      else some (s.printed calendar (l.appenders.flatMap (LogAppender.entries level event))) := by
  unfold Logger.log
  rw [appenders_log hl.appenders he]
  by_cases hlevel : l.level.value ≤ level.value
  · rw [if_pos hlevel, if_neg (Nat.not_lt.mpr hlevel), ite_not]
  · rw [if_neg hlevel, if_pos (Nat.lt_of_not_le hlevel)]

/-- Every logger writes lines, and the root logger is there. -/
structure Ready (calendar : Calendar) (s : LogConsole) : Prop where
  loggers : ∀ name l, s.loggers name = some l → l.OneLine calendar
  root : s.loggers rootName ≠ none

/-- An event comes to the appenders that it is to come to. -/
theorem Ready.log (h : s.Ready calendar) (hl : s.loggers name = some l) (he : event.OneLine) :
    s.log calendar name level event =
      some (s.printed calendar ((s.reached name level).flatMap (LogAppender.entries level event))) := by
  obtain ⟨root, hroot⟩ := Option.ne_none_iff_exists'.mp h.root
  have hrootLine := h.loggers rootName root hroot
  rw [LogConsole.log, hl, Option.bind_some, logger_log (h.loggers name l hl) he, reached, hl, hroot, Option.filter_some,
    Option.bind_some, logger_log hrootLine he]
  dsimp only
  by_cases hlevel : level.value < l.level.value
  · rw [if_pos hlevel, if_pos hlevel, List.flatMap_nil, printed_nil]
  · rw [if_neg hlevel, if_neg hlevel]
    by_cases hnone : l.appenders = []
    · rw [if_pos hnone, if_pos hnone]
      by_cases hrootLevel : root.level.value ≤ level.value
      · rw [if_neg (Nat.not_lt.mpr hrootLevel), decide_eq_true hrootLevel, if_pos rfl, Option.elim_some]
        by_cases hrootNone : root.appenders = []
        · rw [if_pos hrootNone, hrootNone, List.flatMap_nil, printed_nil, ite_self]
        · -- the root logger has appenders, so that it is another one
          have hname : name ≠ rootName := fun hname =>
            hrootNone (Option.some.inj (hroot.symm.trans (hname ▸ hl)) ▸ hnone)
          rw [if_neg hname, if_neg hrootNone]
      · rw [if_pos (Nat.lt_of_not_le hrootLevel), decide_eq_false hrootLevel, ite_self, if_neg Bool.false_ne_true,
          Option.elim_none, List.flatMap_nil, printed_nil]
    · rw [if_neg hnone, if_neg hnone]

theorem Ready.modify (h : s.Ready calendar) {g : Logger → Logger}
    (hg : ∀ l, l.OneLine calendar → (g l).OneLine calendar) (hst : s.modify name g = some t) :
    t.console = s.console ∧ t.Ready calendar := by
  obtain ⟨l, hl, rfl⟩ := Option.map_eq_some_iff.mp hst
  refine ⟨rfl, fun name' l' hl' => ?_, ?_⟩
  · replace hl' : Function.update s.loggers name (some (g l)) name' = some l' := hl'
    by_cases hname : name' = name
    · rw [hname, Function.update_self] at hl'
      obtain rfl := Option.some.inj hl'
      exact hg l (h.loggers name l hl)
    · rw [Function.update_of_ne hname] at hl'
      exact h.loggers name' l' hl'
  · show Function.update s.loggers name (some (g l)) rootName ≠ none
    by_cases hname : rootName = name
    · rw [hname, Function.update_self]
      exact Option.some_ne_none _
    · rw [Function.update_of_ne hname]
      exact h.root

end LogConsole

namespace Logger.OneLine

variable {l : Logger}

theorem setLevel (h : l.OneLine calendar) (level : LogLevel) : (l.setLevel level).OneLine calendar :=
  ⟨h.formatter, h.appenders⟩

theorem clearAppenders (h : l.OneLine calendar) : l.clearAppenders.OneLine calendar := ⟨h.formatter, nofun⟩

theorem addLogAppender (h : l.OneLine calendar) {a : LogAppender}
    (ha : ∀ f, a.formatter = some f → f.OneLine calendar) : (l.addLogAppender a).OneLine calendar := by
  refine ⟨h.formatter, fun b hb => ?_⟩
  rcases List.mem_append.mp hb with hb | hb
  · exact h.appenders b hb
  · obtain rfl := List.mem_singleton.mp hb
    cases hf : a.formatter with
    | none => exact ⟨l.formatter, rfl, h.formatter⟩
    | some f => exact ⟨f, rfl, ha f hf⟩

theorem eraseIdx (h : l.OneLine calendar) (i : ℕ) :
    Logger.OneLine calendar { l with appenders := l.appenders.eraseIdx i } :=
  ⟨h.formatter, fun a ha => h.appenders a (List.mem_of_mem_eraseIdx ha)⟩

theorem setFormatterText (h : l.OneLine calendar) {val : List UInt8}
    (hval : (LogFormatter.new val).error = true ∨ (LogFormatter.new val).OneLine calendar) :
    (l.setFormatterText val).OneLine calendar := by
  unfold Logger.setFormatterText
  split
  · exact h
  · rename_i herror
    have hnew := hval.resolve_left herror
    refine ⟨hnew, fun b hb => ?_⟩
    obtain ⟨a, ha, rfl⟩ := List.mem_map.mp hb
    split
    · exact h.appenders a ha
    · exact ⟨_, rfl, hnew⟩

/-- One of the appenders is changed. -/
theorem modify (h : l.OneLine calendar) (i : ℕ) {g : LogAppender → LogAppender}
    (hg : ∀ a, (∃ f, a.formatter = some f ∧ f.OneLine calendar) →
      ∃ f, (g a).formatter = some f ∧ f.OneLine calendar) :
    Logger.OneLine calendar { l with appenders := l.appenders.modify i g } := by
  refine ⟨h.formatter, fun b hb => ?_⟩
  obtain ⟨j, hj⟩ := List.mem_iff_getElem?.mp hb
  rw [List.getElem?_modify] at hj
  obtain ⟨a, ha, rfl⟩ := Option.map_eq_some_iff.mp hj
  have hready := h.appenders a (List.mem_of_getElem? ha)
  split
  · exact hg a hready
  · exact hready

end Logger.OneLine

/-- The items of a new logger. -/
theorem Logger.new_items : Logger.new.formatter.items =
    [.dateTime (bytes "%Y-%m-%d %H:%M:%S"), .tab, .threadId, .tab, .threadName, .tab, .fiberId, .tab,
      .string (bytes "["), .level, .string (bytes "]"), .tab, .string (bytes "["), .name, .string (bytes "]"), .tab,
      .fileName, .string (bytes ":"), .line, .tab, .message, .newLine] := by
  decide +kernel

/-- A new logger writes lines, as long as its dates are on one. -/
theorem Logger.new_oneLine (hdate : ∀ time, (calendar (bytes "%Y-%m-%d %H:%M:%S") time).length < 64 ∧
    Inline (calendar (bytes "%Y-%m-%d %H:%M:%S") time)) : Logger.new.OneLine calendar := by
  have hformat : (bytes "%Y-%m-%d %H:%M:%S").takeWhile (· ≠ 0) = bytes "%Y-%m-%d %H:%M:%S" := by decide +kernel
  refine ⟨⟨?_, ?_, ?_, fun format hitem time => ?_, fun text hitem => ?_⟩, nofun⟩
  · rw [new_items]
    rfl
  · rw [new_items]
    decide
  · rw [LogFormatter.columns, new_items]
    decide +kernel
  · rw [new_items] at hitem
    obtain rfl : format = bytes "%Y-%m-%d %H:%M:%S" := by simpa using hitem
    rw [hformat]
    exact hdate time
  · rw [new_items] at hitem
    have htext : text = bytes "[" ∨ text = bytes "]" ∨ text = bytes "[" ∨ text = bytes "]" ∨ text = bytes ":" := by
      simpa using hitem
    rcases htext with rfl | rfl | rfl | rfl | rfl <;> decide

/-! ## Runs -/

/-- What is left of a pattern behind a directive. -/
theorem LogFormatter.rest_suffix (s read : List UInt8) (fmt : Option (List UInt8)) (str : List UInt8) :
    (scanDirective s read fmt str).rest <:+ s := by
  induction s generalizing read fmt str with
  | nil => exact List.suffix_refl _
  | cons c rest ih =>
    cases fmt with
    | none =>
      rw [scanDirective]
      split
      · exact List.suffix_refl _
      · split
        · exact (ih _ _ _).trans (List.suffix_cons c rest)
        · exact (ih _ _ _).trans (List.suffix_cons c rest)
    | some fmt =>
      rw [scanDirective]
      split
      · exact List.suffix_cons c rest
      · exact (ih _ _ _).trans (List.suffix_cons c rest)

/-- A pattern without newlines is complained about on single lines. -/
theorem LogFormatter.complaints_line {pattern : List UInt8} (hpattern : 10 ∉ pattern) (k : ℕ) {s : List UInt8}
    (hs : 10 ∉ s) : ∀ text ∈ complaints pattern k s, 10 ∉ text := by
  induction k generalizing s with
  | zero => exact nofun
  | succ k ih =>
    cases s with
    | nil => exact nofun
    | cons c rest =>
      have hrest : 10 ∉ rest := fun h => hs (List.mem_cons_of_mem _ h)
      intro text htext
      rw [complaints] at htext
      split at htext
      · exact ih hrest text htext
      · split at htext
        · exact ih hrest text htext
        · dsimp only at htext
          split at htext
          · rcases List.mem_cons.mp htext with rfl | htext
            · have hwords : 10 ∉ bytes "pattern parse error: " ∧ 10 ∉ bytes " - " := by decide
              exact List.not_mem_append (List.not_mem_append (List.not_mem_append hwords.1 hpattern) hwords.2) hs
            · exact ih hrest text htext
          · exact ih (fun h => hrest ((rest_suffix rest [] none []).subset h)) text htext

namespace LogConsole

variable {s t : LogConsole} {op : LogOp}

theorem print_eq (calendar : Calendar) (text : List UInt8) : s.print text = s.printed calendar [.notice text] := by
  simp [print, printed, ConsoleEntry.text]

theorem foldl_print (calendar : Calendar) (texts : List (List UInt8)) :
    texts.foldl (fun s text => s.print text) s = s.printed calendar (texts.map .notice) := by
  induction texts generalizing s with
  | nil => exact printed_nil.symm
  | cons text texts ih =>
    rw [List.foldl_cons, ih, print_eq calendar, printed_append, List.map_cons, List.singleton_append]

theorem Ready.printed (h : s.Ready calendar) (entries : List ConsoleEntry) :
    (s.printed calendar entries).Ready calendar :=
  ⟨h.loggers, h.root⟩

theorem Ready.getLogger (h : s.Ready calendar) (hnew : Logger.new.OneLine calendar) (name : List UInt8) :
    (s.getLogger name).Ready calendar := by
  have hlogger : ((s.loggers name).getD .new).OneLine calendar := by
    cases hl : s.loggers name with
    | none => exact hnew
    | some l => exact h.loggers name l hl
  refine ⟨fun name' l' hl' => ?_, ?_⟩
  · replace hl' : Function.update s.loggers name (some ((s.loggers name).getD .new)) name' = some l' := hl'
    by_cases hname : name' = name
    · rw [hname, Function.update_self] at hl'
      obtain rfl := Option.some.inj hl'
      exact hlogger
    · rw [Function.update_of_ne hname] at hl'
      exact h.loggers name' l' hl'
  · show Function.update s.loggers name (some ((s.loggers name).getD .new)) rootName ≠ none
    by_cases hname : rootName = name
    · rw [hname, Function.update_self]
      exact Option.some_ne_none _
    · rw [Function.update_of_ne hname]
      exact h.root

/-- A call prints its entries, and leaves the loggers ready. -/
theorem Ready.step (h : s.Ready calendar) (hnew : Logger.new.OneLine calendar) (hop : op.OneLine calendar)
    (hst : s.step calendar op = some t) :
    t.console = (s.printed calendar (s.entries op)).console ∧ t.Ready calendar := by
  have hquiet : ∀ {u : LogConsole}, u.console = s.console ∧ u.Ready calendar →
      u.console = (s.printed calendar []).console ∧ u.Ready calendar := fun hu => by rwa [printed_nil]
  cases op with
  | getLogger name =>
    obtain rfl := Option.some.inj hst
    exact hquiet ⟨rfl, h.getLogger hnew name⟩
  | setLevel name level => exact hquiet (h.modify (fun l hl => hl.setLevel level) hst)
  | clearAppenders name => exact hquiet (h.modify (fun l hl => hl.clearAppenders) hst)
  | addLogAppender name appender => exact hquiet (h.modify (fun l hl => hl.addLogAppender hop) hst)
  | delLogAppender name i =>
    exact hquiet (h.modify (fun l hl => hl.eraseIdx i) hst)
  | setAppenderLevel name i level =>
    exact hquiet (h.modify (fun l hl => hl.modify (g := fun a => { a with level := level }) i fun a ha => ha) hst)
  | setAppenderFormatter name i val =>
    exact hquiet (h.modify (fun l hl => hl.modify i fun a _ => ⟨val, rfl, hop⟩) hst)
  | setFormatter name val =>
    obtain ⟨-, -, hval⟩ := hop
    have hprints : s.setFormatter name val = (s.printed calendar (s.entries (.setFormatter name val))).modify name
        fun l => l.setFormatterText val := by
      have hstart := print_eq (s := s) calendar
        (bytes "logger name=" ++ name ++ bytes " set formatter " ++ bytes " --- " ++ val)
      rw [LogConsole.setFormatter, LogConsole.entries, hstart, foldl_print calendar, printed_append]
      split
      · rw [print_eq calendar, printed_append]
        rfl
      · rw [List.append_nil]
        rfl
    rw [LogConsole.step, hprints] at hst
    exact (h.printed _).modify (fun l hl => hl.setFormatterText hval) hst
  | log name level event =>
    cases hl : s.loggers name with
    | none => rw [LogConsole.step, LogConsole.log, hl] at hst; cases hst
    | some l =>
      rw [LogConsole.step, h.log hl hop] at hst
      obtain rfl := Option.some.inj hst
      exact ⟨rfl, h.printed _⟩
  | event event =>
    cases hl : s.loggers event.name with
    | none => rw [LogConsole.step, LogConsole.event, hl] at hst; cases hst
    | some l =>
      rw [LogConsole.step, LogConsole.event, hl, Option.bind_some, h.log hl hop] at hst
      split at hst
      · obtain rfl := Option.some.inj hst
        exact ⟨rfl, h.printed _⟩
      · rename_i hlevel
        obtain rfl := Option.some.inj hst
        have hnone : s.entries (.event event) = [] := by
          rw [LogConsole.entries, reached, hl]
          dsimp only
          rw [if_pos (Nat.lt_of_not_le hlevel), List.flatMap_nil]
        rw [hnone]
        exact hquiet ⟨rfl, h⟩
  | print text =>
    obtain rfl := Option.some.inj hst
    rw [print_eq calendar]
    exact ⟨rfl, h.printed _⟩

/-- The appenders that an event comes to have such formatters. -/
theorem Ready.reached (h : s.Ready calendar) {name : List UInt8} {level : LogLevel} :
    ∀ a ∈ s.reached name level, ∃ f, a.formatter = some f ∧ f.OneLine calendar := by
  intro a ha
  unfold LogConsole.reached at ha
  split at ha
  · cases ha
  · rename_i l hl
    split at ha
    · cases ha
    · split at ha
      · cases hroot : (s.loggers rootName).filter fun root => root.level.value ≤ level.value with
        | none => rw [hroot] at ha; cases ha
        | some root =>
          rw [hroot] at ha
          exact (h.loggers rootName root (Option.filter_eq_some_iff.mp hroot).1).appenders a ha
      · exact (h.loggers name l hl).appenders a ha

/-- The entries are on one line each. -/
theorem Ready.entries (h : s.Ready calendar) (hop : op.OneLine calendar) :
    ∀ e ∈ s.entries op, e.OneLine calendar := by
  have hlog : ∀ name level event, event.OneLine →
      ∀ e ∈ (s.reached name level).flatMap (LogAppender.entries level event), e.OneLine calendar := by
    intro name level event hevent e he
    obtain ⟨a, ha, he⟩ := List.mem_flatMap.mp he
    obtain ⟨f, hf, hline⟩ := h.reached a ha
    unfold LogAppender.entries at he
    split at he
    · rw [hf] at he
      obtain rfl := List.mem_singleton.mp he
      exact ⟨hline, hevent⟩
    · cases he
  cases op with
  | getLogger | setLevel | clearAppenders | addLogAppender | delLogAppender | setAppenderLevel
  | setAppenderFormatter => exact fun _ he => absurd he List.not_mem_nil
  | log name level event => exact hlog name level event hop
  | event event => exact hlog event.name event.level event hop
  | print text =>
    intro e he
    obtain rfl := List.mem_singleton.mp he
    exact hop
  | setFormatter name val =>
    obtain ⟨hname, hval, -⟩ := hop
    have hwords : 10 ∉ bytes "logger name=" ∧ 10 ∉ bytes " set formatter " ∧ 10 ∉ bytes " --- " ∧
        10 ∉ bytes "Logger setFormatter name=" ∧ 10 ∉ bytes " value=" ∧ 10 ∉ bytes " invalid formatter" := by decide
    obtain ⟨hw₁, hw₂, hw₃, hw₄, hw₅, hw₆⟩ := hwords
    intro e he
    rw [LogConsole.entries] at he
    rcases List.mem_append.mp he with he | he
    · rcases List.mem_cons.mp he with rfl | he
      · exact List.not_mem_append (List.not_mem_append (List.not_mem_append (List.not_mem_append hw₁ hname) hw₂) hw₃)
          hval
      · obtain ⟨text, htext, rfl⟩ := List.mem_map.mp he
        exact LogFormatter.complaints_line hval _ hval text htext
    · split at he
      · obtain rfl := List.mem_singleton.mp he
        exact List.not_mem_append (List.not_mem_append (List.not_mem_append (List.not_mem_append hw₄ hname) hw₅) hval)
          hw₆
      · cases he

theorem ready_new (hnew : Logger.new.OneLine calendar) : LogConsole.new.Ready calendar := by
  have hroot : (Logger.new.addLogAppender (.new none)).OneLine calendar := hnew.addLogAppender nofun
  refine ⟨fun name l hl => ?_, ?_⟩
  · replace hl : Function.update (fun _ => none) rootName (some (Logger.new.addLogAppender (.new none))) name =
      some l := hl
    by_cases hname : name = rootName
    · rw [hname, Function.update_self] at hl
      obtain rfl := Option.some.inj hl
      exact hroot
    · rw [Function.update_of_ne hname] at hl
      cases hl
  · show Function.update (fun _ => none) rootName (some (Logger.new.addLogAppender (.new none))) rootName ≠ none
    rw [Function.update_self]
    exact Option.some_ne_none _

end LogConsole

/-- The console has the lines of the entries. -/
structure Printed (calendar : Calendar) (p : LogConsole × List ConsoleEntry) : Prop where
  ready : p.1.Ready calendar
  console : p.1.console = p.2.flatMap fun e => e.text calendar ++ [10]
  entries : ∀ e ∈ p.2, e.OneLine calendar

/-- **Reading the console.** As long as patterns, events and other texts are on one line, the console has a line for
each entry, in their order, from which the columns of an event are read back; and a logger that is there can log. -/
theorem console_read (calendar : Calendar) (hdate : ∀ time, (calendar (bytes "%Y-%m-%d %H:%M:%S") time).length < 64 ∧
      Inline (calendar (bytes "%Y-%m-%d %H:%M:%S") time)) (s : LogConsole) (entries : List ConsoleEntry)
    (h : (consoleSys calendar).ReachableWhen (fun _ op => op.OneLine calendar) (s, entries)) :
    (∃ lines, s.console.splitOn 10 = lines ++ [[]] ∧ List.Forall₂ (ConsoleEntry.ReadIn calendar) lines entries) ∧
      ∀ name level event, s.loggers name ≠ none → event.OneLine → (s.log calendar name level event).isSome := by
  have hnew := Logger.new_oneLine hdate
  have hprinted : Printed calendar (s, entries) := by
    refine h.invariant (I := Printed calendar) ?_ fun p op q hp hop hst => ?_
    · rintro _ rfl
      exact ⟨LogConsole.ready_new hnew, rfl, nofun⟩
    · obtain ⟨t, ht, rfl⟩ := Option.map_eq_some_iff.mp hst
      obtain ⟨hconsole, hready⟩ := hp.ready.step hnew hop ht
      refine ⟨hready, ?_, fun e he => ?_⟩
      · rw [hconsole, LogConsole.printed, hp.console, List.flatMap_append]
      · exact (List.mem_append.mp he).elim (hp.entries e) (hp.ready.entries hop e)
  constructor
  · have hlines : ∀ line ∈ entries.map (ConsoleEntry.text calendar), 10 ∉ line := by
      intro line hline
      obtain ⟨e, he, rfl⟩ := List.mem_map.mp hline
      exact (hprinted.entries e he).text_line.1
    refine ⟨entries.map (ConsoleEntry.text calendar), ?_, ?_⟩
    · rw [hprinted.console, ← Separated.splitOn_lines hlines, List.flatMap_map]
    · rw [List.forall₂_map_left_iff, List.forall₂_same]
      exact fun e he => (hprinted.entries e he).text_line.2
  · intro name level event hl hevent
    obtain ⟨l, hl⟩ := Option.ne_none_iff_exists'.mp hl
    rw [hprinted.ready.log hl hevent]
    rfl

/-- A day on which it is always noon. -/
def noon : Calendar := fun _ _ => bytes "2024-01-01 12:00:00"

/-- An event with a tab in its message. -/
def webEvent : LogEvent where
  name := bytes "web"
  level := .info
  file := bytes "web.cc"
  line := 7
  elapse := 0
  threadId := 42
  fiberId := 3
  time := 1704110400
  threadName := bytes "main"
  content := bytes "GET\t/"

/-- The logger has no appenders, so that the root logger prints its event. -/
def webLog : LogConsole × List ConsoleEntry :=
  ((consoleSys noon).exec (.new, []) [.getLogger webEvent.name, .event webEvent]).get (by decide +kernel)

theorem console_read_web :
    webLog.1.console = bytes "2024-01-01 12:00:00\t42\tmain\t3\t[INFO]\t[web]\tweb.cc:7\tGET\t/\n" ∧
      (∃ lines, webLog.1.console.splitOn 10 = lines ++ [[]] ∧
        List.Forall₂ (ConsoleEntry.ReadIn noon) lines webLog.2) ∧
      (webLog.1.log noon webEvent.name .warn webEvent).isSome := by
  have hnoon : (bytes "2024-01-01 12:00:00").length < 64 ∧ Inline (bytes "2024-01-01 12:00:00") := by decide
  have hevent : webEvent.OneLine := ⟨by decide, by decide, by decide, by decide⟩
  have hreach : (consoleSys noon).ReachableWhen (fun _ op => op.OneLine noon) webLog :=
    ((Transition.Sys.ReachableWhen.init rfl).tail (.getLogger webEvent.name) trivial rfl).tail (.event webEvent) hevent
      (Option.some_get _).symm
  obtain ⟨hlines, hlog⟩ := console_read noon (fun _ => hnoon) webLog.1 webLog.2 hreach
  exact ⟨by decide +kernel, hlines, hlog webEvent.name .warn webEvent (by decide +kernel) hevent⟩

end Megalo
