import Megalo.Lib.System
import Megalo.Log.Initer
import Mathlib.Logic.Function.Basic

/-!
# The formatters of appenders

- `LogObjects` are loggers and appenders behind their pointers, with what each appender was given by its `setFormatter`
  last; `appenderSys` is any sequence of the calls that set formatters, or add and remove appenders. On one logger they
  do what they do without pointers (`logger_setFormatter`, `logger_addLogAppender`);
- `Uses`: an appender has the formatter that it was given, or else that of the logger which has it. No call sets
  `m_hasFormatter`, so a logger takes all its appenders for such without a formatter of their own, and an appender that
  has a formatter keeps it where it is added: that is right as long as every call meets `LogCall.Keeps`
  (`formatters_used`);
- `Owned`: besides, an appender prints its formatter exactly where it was given one, so none may be given at all
  (`appender_formatters`).
-/

namespace Megalo

/-! ## Appenders -/

namespace LogAppender

/-- `setFormatter`. -/
def setFormatter (a : LogAppender) (val : Option LogFormatter) : LogAppender := { a with formatter := val }

/-- The members of the node that `toYamlString` makes. -/
def members (a : LogAppender) : List (YamlNode × YamlNode) :=
  (match a.file with
    | some file => member True "type" (.scalar (bytes "FileLogAppender")) ++ member True "file" (.scalar file)
    | none => member True "type" (.scalar (bytes "StdoutLogAppender"))) ++
  member (a.level ≠ .unknowm) "level" (.scalar a.level.toString) ++
  (a.formatter.elim [] fun f => member (a.hasFormatter = true) "formatter" (.scalar f.pattern))

/-- `toYamlString`. -/
def toYamlString (yaml : YamlCpp) (a : LogAppender) : List UInt8 := yaml.emit (mapNode a.members)

/-- `toYamlString` emits a formatter. -/
def EmitsFormatter (a : LogAppender) : Prop := ∃ value, (.scalar (bytes "formatter"), value) ∈ a.members

end LogAppender

/-! ## Calls -/

/-- A logger, with the addresses of its appenders. -/
structure SharedLogger where
  level : LogLevel
  appenders : List ℕ
  formatter : Option LogFormatter

/-- The loggers and the appenders at their addresses, and the formatters that the appenders were given. -/
structure LogObjects where
  loggers : ℕ → SharedLogger
  appenders : ℕ → LogAppender
  given : ℕ → Option LogFormatter

namespace LogObjects

/-- `LogAppender::setFormatter`. -/
def setAppenderFormatter (s : LogObjects) (appender : ℕ) (val : Option LogFormatter) : LogObjects :=
  { s with
    appenders := Function.update s.appenders appender ((s.appenders appender).setFormatter val)
    given := Function.update s.given appender val }

/-- `Logger::addLogAppender`. -/
def addLogAppender (s : LogObjects) (logger appender : ℕ) : LogObjects :=
  { s with
    appenders := if (s.appenders appender).formatter = none then
      Function.update s.appenders appender ((s.appenders appender).setFormatter (s.loggers logger).formatter)
      else s.appenders
    loggers := Function.update s.loggers logger
      { s.loggers logger with appenders := (s.loggers logger).appenders ++ [appender] } }

/-- `Logger::delLogAppender`. -/
def delLogAppender (s : LogObjects) (logger appender : ℕ) : LogObjects :=
  { s with
    loggers := Function.update s.loggers logger
      { s.loggers logger with appenders := (s.loggers logger).appenders.erase appender } }

/-- The loop of `Logger::setFormatter`. -/
def formatAppenders (val : Option LogFormatter) : List ℕ → (ℕ → LogAppender) → ℕ → LogAppender
  | [], appenders => appenders
  | i :: is, appenders => formatAppenders val is <|
    if (appenders i).hasFormatter then appenders
    else Function.update appenders i { appenders i with formatter := val }

/-- `Logger::setFormatter(LogFormatter::ptr)`. -/
def setFormatter (s : LogObjects) (logger : ℕ) (val : Option LogFormatter) : LogObjects :=
  { s with
    loggers := Function.update s.loggers logger { s.loggers logger with formatter := val }
    appenders := formatAppenders val (s.loggers logger).appenders s.appenders }

/-- `Logger::setFormatter(const std::string&)`. -/
def setFormatterText (s : LogObjects) (logger : ℕ) (val : List UInt8) : LogObjects :=
  if (LogFormatter.new val).error then s else s.setFormatter logger (some (.new val))

end LogObjects

/-- A call. -/
inductive LogCall
  | setAppenderFormatter (appender : ℕ) (val : Option LogFormatter)
  | addLogAppender (logger appender : ℕ)
  | delLogAppender (logger appender : ℕ)
  | setFormatter (logger : ℕ) (val : Option LogFormatter)
  | setFormatterText (logger : ℕ) (val : List UInt8)

namespace LogObjects

def call (s : LogObjects) : LogCall → LogObjects
  | .setAppenderFormatter appender val => s.setAppenderFormatter appender val
  | .addLogAppender logger appender => s.addLogAppender logger appender
  | .delLogAppender logger appender => s.delLogAppender logger appender
  | .setFormatter logger val => s.setFormatter logger val
  | .setFormatterText logger val => s.setFormatterText logger val

end LogObjects

/-- The calls on new loggers and appenders. -/
def appenderSys : Transition.Sys LogObjects LogCall where
  init s := (∀ l, s.loggers l = { level := .debug, appenders := [], formatter := some Logger.new.formatter }) ∧
    (∀ a, ∃ file, s.appenders a = .new file) ∧ ∀ a, s.given a = none
  step s c := some (s.call c)

/-! ## What is to hold -/

namespace LogObjects

/-- The appenders have the formatters that they were given, and the others those of their loggers. -/
structure Uses (s : LogObjects) : Prop where
  kept : ∀ a f, s.given a = some f → (s.appenders a).formatter = some f
  inherited : ∀ l, ∀ a ∈ (s.loggers l).appenders, s.given a = none →
    (s.appenders a).formatter = (s.loggers l).formatter

/-- Besides, they print those that they were given, and no others. -/
structure Owned (s : LogObjects) : Prop where
  uses : s.Uses
  emits : ∀ a, (s.appenders a).EmitsFormatter ↔ (s.given a).isSome

/-- The formatter of a logger is the one that its appenders were given, and that of the other loggers that have them. -/
structure Fits (s : LogObjects) (logger : ℕ) (val : Option LogFormatter) : Prop where
  given : ∀ a ∈ (s.loggers logger).appenders, ∀ f, s.given a = some f → val = some f
  shared : ∀ a ∈ (s.loggers logger).appenders, s.given a = none →
    ∀ l ≠ logger, a ∈ (s.loggers l).appenders → (s.loggers l).formatter = val

end LogObjects

/-- No appender is taken its formatter away where its logger has one; an appender that is added has the formatter of the
logger or one that it was given, or has none and no logger yet; and the formatter that a logger gets fits its appenders.
-/
def LogCall.Keeps (s : LogObjects) : LogCall → Prop
  | setAppenderFormatter a val => val = none → ∀ l, a ∈ (s.loggers l).appenders → (s.loggers l).formatter = none
  | addLogAppender l a => s.given a = none → (s.appenders a).formatter = (s.loggers l).formatter ∨
      (s.appenders a).formatter = none ∧ ∀ l', a ∉ (s.loggers l').appenders
  | delLogAppender _ _ => True
  | setFormatter l val => s.Fits l val
  | setFormatterText l val => (LogFormatter.new val).error = false → s.Fits l (some (.new val))

/-- Besides, no appender is given a formatter. -/
def LogCall.Plain (s : LogObjects) (c : LogCall) : Prop :=
  c.Keeps s ∧ ∀ a f, c ≠ .setAppenderFormatter a (some f)

/-! ## What the calls do -/

namespace LogObjects

variable {s : LogObjects} {l l' a b : ℕ} {val : Option LogFormatter}

/-- `m_hasFormatter` is never set. -/
def Unset (s : LogObjects) : Prop := ∀ a, (s.appenders a).hasFormatter = false

/-- The loop sets the formatters of its appenders, unless `m_hasFormatter` is set. -/
theorem formatAppenders_eq (is : List ℕ) (appenders : ℕ → LogAppender) (b : ℕ) :
    formatAppenders val is appenders b =
      if b ∈ is ∧ (appenders b).hasFormatter = false then { appenders b with formatter := val } else appenders b := by
  induction is generalizing appenders with
  | nil => rw [formatAppenders, if_neg fun h => List.not_mem_nil h.1]
  | cons i is ih =>
    rw [formatAppenders, ih]
    by_cases hb : b = i
    · subst hb
      cases hhas : (appenders b).hasFormatter <;> simp [hhas]
    · cases (appenders i).hasFormatter <;> simp [hb]

theorem formatter_setFormatter (h : s.Unset) (l : ℕ) (val : Option LogFormatter) (b : ℕ) :
    ((s.setFormatter l val).appenders b).formatter =
      if b ∈ (s.loggers l).appenders then val else (s.appenders b).formatter := by
  simp only [setFormatter, formatAppenders_eq, h b, and_true]
  split <;> rfl

/-- A logger with its appenders, where it has a formatter. -/
def logger (s : LogObjects) (l : ℕ) (f : LogFormatter) : Logger where
  level := (s.loggers l).level
  appenders := (s.loggers l).appenders.map s.appenders
  formatter := f

/-- A logger behind pointers changes as one does that has its appenders. -/
theorem logger_setFormatter (s : LogObjects) (l : ℕ) (f val : LogFormatter) :
    (s.setFormatter l (some val)).logger l val = (s.logger l f).setFormatter val := by
  have happ : (s.loggers l).appenders.map (formatAppenders (some val) (s.loggers l).appenders s.appenders) =
      ((s.loggers l).appenders.map s.appenders).map fun i =>
        if i.hasFormatter then i else { i with formatter := some val } := by
    rw [List.map_map]
    refine List.map_congr_left fun b hb => ?_
    rw [formatAppenders_eq, Function.comp_apply]
    cases hhas : (s.appenders b).hasFormatter <;> simp [hb, hhas]
  simp only [logger, Logger.setFormatter, setFormatter, Function.update_self, happ]

theorem logger_addLogAppender {f : LogFormatter} (hf : (s.loggers l).formatter = some f)
    (ha : a ∉ (s.loggers l).appenders) :
    (s.addLogAppender l a).logger l f = (s.logger l f).addLogAppender (s.appenders a) := by
  have hold : ∀ b ∈ (s.loggers l).appenders, (s.addLogAppender l a).appenders b = s.appenders b := by
    intro b hb
    have hne : b ≠ a := fun hba => ha (hba ▸ hb)
    simp only [addLogAppender]
    split
    · rw [Function.update_of_ne hne]
    · rfl
  have hnew : (s.addLogAppender l a).appenders a =
      { s.appenders a with formatter := (s.appenders a).formatter.or (some f) } := by
    simp only [addLogAppender]
    cases hfa : (s.appenders a).formatter with
    | none =>
      rw [if_pos rfl, Function.update_self, hf]
      rfl
    | some g =>
      rw [if_neg (Option.some_ne_none g), Option.some_or, ← hfa]
  have happ : ((s.addLogAppender l a).loggers l).appenders = (s.loggers l).appenders ++ [a] := by
    simp only [addLogAppender, Function.update_self]
  have hlevel : ((s.addLogAppender l a).loggers l).level = (s.loggers l).level := by
    simp only [addLogAppender, Function.update_self]
  rw [logger, happ, hlevel, List.map_append, List.map_congr_left hold, List.map_singleton, hnew]
  rfl

theorem unset_call (h : s.Unset) (c : LogCall) : (s.call c).Unset := by
  have hupdate : ∀ a f b, (Function.update s.appenders a ((s.appenders a).setFormatter f) b).hasFormatter = false := by
    intro a f b
    rw [Function.update_apply]
    split
    · exact h a
    · exact h b
  have hset : ∀ l val, (s.setFormatter l val).Unset := by
    intro l val b
    simp only [setFormatter, formatAppenders_eq]
    split
    · exact h b
    · exact h b
  intro b
  cases c with
  | setAppenderFormatter a val => exact hupdate a val b
  | addLogAppender l a =>
    simp only [call, addLogAppender]
    split
    · exact hupdate a _ b
    · exact h b
  | delLogAppender l a => exact h b
  | setFormatter l val => exact hset l val b
  | setFormatterText l val =>
    simp only [call, setFormatterText]
    split
    · exact h b
    · exact hset l _ b

/-- A formatter that an appender has stays where it is added. -/
theorem formatter_addLogAppender (s : LogObjects) (l a b : ℕ) : ((s.addLogAppender l a).appenders b).formatter =
    if b = a then (s.appenders a).formatter.or (s.loggers l).formatter else (s.appenders b).formatter := by
  simp only [addLogAppender]
  by_cases hb : b = a
  · subst hb
    rw [if_pos rfl]
    cases hf : (s.appenders b).formatter with
    | none =>
      rw [if_pos rfl, Function.update_self]
      rfl
    | some f =>
      rw [if_neg (Option.some_ne_none f), hf]
      rfl
  · rw [if_neg hb]
    split
    · rw [Function.update_of_ne hb]
    · rfl

theorem formatter_setAppenderFormatter (s : LogObjects) (a : ℕ) (val : Option LogFormatter) (b : ℕ) :
    ((s.setAppenderFormatter a val).appenders b).formatter = if b = a then val else (s.appenders b).formatter := by
  simp only [setAppenderFormatter, Function.update_apply]
  split <;> rfl

/-- Where a logger's list grows, its formatter stays. -/
theorem mem_addLogAppender (s : LogObjects) (l a l' b : ℕ) :
    (b ∈ ((s.addLogAppender l a).loggers l').appenders ↔ b ∈ (s.loggers l').appenders ∨ l' = l ∧ b = a) ∧
      ((s.addLogAppender l a).loggers l').formatter = (s.loggers l').formatter := by
  simp only [addLogAppender, Function.update_apply]
  by_cases hl : l' = l
  · subst hl
    simp
  · simp [hl]

theorem mem_delLogAppender (s : LogObjects) (l a l' : ℕ) :
    (∀ b ∈ ((s.delLogAppender l a).loggers l').appenders, b ∈ (s.loggers l').appenders) ∧
      ((s.delLogAppender l a).loggers l').formatter = (s.loggers l').formatter := by
  simp only [delLogAppender, Function.update_apply]
  by_cases hl : l' = l
  · subst hl
    rw [if_pos rfl]
    exact ⟨fun b hb => List.mem_of_mem_erase hb, rfl⟩
  · rw [if_neg hl]
    exact ⟨fun b hb => hb, rfl⟩

theorem loggers_setFormatter (s : LogObjects) (l : ℕ) (val : Option LogFormatter) (l' : ℕ) :
    ((s.setFormatter l val).loggers l').appenders = (s.loggers l').appenders ∧
      ((s.setFormatter l val).loggers l').formatter = if l' = l then val else (s.loggers l').formatter := by
  simp only [setFormatter, Function.update_apply]
  by_cases hl : l' = l
  · subst hl
    simp
  · simp [hl]

/-! ## Using formatters -/

theorem uses_setAppenderFormatter (h : s.Uses) :
    (s.setAppenderFormatter a val).Uses ↔ (LogCall.setAppenderFormatter a val).Keeps s := by
  have hgiven : ∀ b, (s.setAppenderFormatter a val).given b = if b = a then val else s.given b :=
    Function.update_apply s.given a val
  constructor
  · intro ht hval l hl
    have hf := ht.inherited l a hl (by rw [hgiven, if_pos rfl, hval])
    rw [formatter_setAppenderFormatter, if_pos rfl, hval] at hf
    exact hf.symm
  · intro hc
    constructor
    · intro b f hf
      rw [hgiven] at hf
      rw [formatter_setAppenderFormatter]
      split
      · rename_i hb
        rwa [if_pos hb] at hf
      · rename_i hb
        rw [if_neg hb] at hf
        exact h.kept b f hf
    · intro l b hb hnone
      rw [hgiven] at hnone
      rw [formatter_setAppenderFormatter]
      split
      · rename_i hba
        rw [if_pos hba] at hnone
        rw [hnone]
        exact (hc hnone l (hba ▸ hb)).symm
      · rename_i hba
        rw [if_neg hba] at hnone
        exact h.inherited l b hb hnone

theorem uses_addLogAppender (h : s.Uses) :
    (s.addLogAppender l a).Uses ↔ (LogCall.addLogAppender l a).Keeps s := by
  constructor
  · intro ht hnone
    have hmem := fun l' => mem_addLogAppender s l a l' a
    have hf := ht.inherited l a ((hmem l).1.mpr (.inr ⟨rfl, rfl⟩)) hnone
    rw [formatter_addLogAppender, if_pos rfl, (hmem l).2] at hf
    cases hold : (s.appenders a).formatter with
    | some f =>
      rw [hold] at hf
      exact .inl hf
    | none =>
      rw [hold, Option.none_or] at hf
      by_cases hlog : (s.loggers l).formatter = none
      · exact .inl hlog.symm
      · refine .inr ⟨rfl, fun l' hl' => hlog ?_⟩
        -- the formatter of the other logger would be both
        have hother := ht.inherited l' a ((hmem l').1.mpr (.inl hl')) hnone
        rw [formatter_addLogAppender, if_pos rfl, (hmem l').2, hold, Option.none_or] at hother
        rw [hother, ← h.inherited l' a hl' hnone, hold]
  · intro hc
    constructor
    · intro b f hf
      rw [formatter_addLogAppender]
      split
      · rename_i hb
        subst hb
        rw [h.kept b f hf, Option.some_or]
      · exact h.kept b f hf
    · intro l' b hb hnone
      obtain ⟨hmem, hlog⟩ := mem_addLogAppender s l a l' b
      rw [formatter_addLogAppender, hlog]
      split
      · rename_i hba
        subst hba
        rcases hc hnone with heq | ⟨hnof, hnew⟩
        · have hold : (s.appenders b).formatter.or (s.loggers l).formatter = (s.appenders b).formatter := by
            rw [← heq, Option.or_self]
          rw [hold]
          rcases hmem.mp hb with hb | ⟨rfl, -⟩
          · exact h.inherited l' b hb hnone
          · exact heq
        · rcases hmem.mp hb with hb | ⟨rfl, -⟩
          · exact absurd hb (hnew l')
          · rw [hnof, Option.none_or]
      · rename_i hba
        rcases hmem.mp hb with hb | ⟨-, hba'⟩
        · exact h.inherited l' b hb hnone
        · exact absurd hba' hba

theorem uses_delLogAppender (h : s.Uses) : (s.delLogAppender l a).Uses := by
  refine ⟨h.kept, fun l' b hb hnone => ?_⟩
  obtain ⟨hmem, hlog⟩ := mem_delLogAppender s l a l'
  rw [hlog]
  exact h.inherited l' b (hmem b hb) hnone

theorem uses_setFormatter (h : s.Uses) (hu : s.Unset) : (s.setFormatter l val).Uses ↔ s.Fits l val := by
  have hformatter := formatter_setFormatter hu l val
  constructor
  · intro ht
    constructor
    · intro b hb f hf
      have hkept := ht.kept b f hf
      rwa [hformatter, if_pos hb] at hkept
    · intro b hb hnone l' hl' hb'
      have hinherited := ht.inherited l' b (by rwa [(loggers_setFormatter s l val l').1]) hnone
      rw [hformatter, if_pos hb, (loggers_setFormatter s l val l').2, if_neg hl'] at hinherited
      exact hinherited.symm
  · intro hc
    constructor
    · intro b f hf
      rw [hformatter]
      split
      · rename_i hb
        exact hc.given b hb f hf
      · exact h.kept b f hf
    · intro l' b hb hnone
      obtain ⟨hmem, hlog⟩ := loggers_setFormatter s l val l'
      rw [hmem] at hb
      rw [hformatter, hlog]
      by_cases hl : l' = l
      · subst hl
        rw [if_pos hb, if_pos rfl]
      · rw [if_neg hl]
        split
        · rename_i hbl
          exact (hc.shared b hbl hnone l' hl hb).symm
        · exact h.inherited l' b hb hnone

/-- A call leaves the formatters used as they are to be exactly where it meets the condition. -/
theorem uses_call (h : s.Uses) (hu : s.Unset) (c : LogCall) : (s.call c).Uses ↔ c.Keeps s := by
  cases c with
  | setAppenderFormatter a val => exact uses_setAppenderFormatter h
  | addLogAppender l a => exact uses_addLogAppender h
  | delLogAppender l a => exact iff_of_true (uses_delLogAppender h) trivial
  | setFormatter l val => exact uses_setFormatter h hu
  | setFormatterText l val =>
    simp only [call, setFormatterText]
    cases herror : (LogFormatter.new val).error with
    | true =>
      rw [if_pos rfl]
      exact iff_of_true h fun hf => absurd (herror.symm.trans hf) (by decide)
    | false =>
      rw [if_neg Bool.false_ne_true, uses_setFormatter h hu]
      exact ⟨fun hf _ => hf, fun hf => hf herror⟩

/-! ## Printing formatters -/

end LogObjects

/-- A formatter is printed where `m_hasFormatter` is set. -/
theorem LogAppender.emitsFormatter_iff (a : LogAppender) :
    a.EmitsFormatter ↔ a.hasFormatter = true ∧ a.formatter.isSome = true := by
  have hkey : ∀ (p : Prop) [Decidable p] (key : String) (v value : YamlNode), bytes key ≠ bytes "formatter" →
      (.scalar (bytes "formatter"), value) ∉ member p key v := by
    intro p _ key v value hne hmem
    rw [member] at hmem
    split at hmem
    · have heq := List.mem_singleton.mp hmem
      exact hne (YamlNode.scalar.inj (Prod.mk.inj heq).1).symm
    · exact List.not_mem_nil hmem
  constructor
  · rintro ⟨value, hmem⟩
    rcases List.mem_append.mp hmem with hmem | hmem
    · exfalso
      rcases List.mem_append.mp hmem with hmem | hmem
      · cases hf : a.file with
        | none =>
          rw [hf] at hmem
          exact hkey True "type" _ value (by decide) hmem
        | some file =>
          rw [hf] at hmem
          rcases List.mem_append.mp hmem with hmem | hmem
          · exact hkey True "type" _ value (by decide) hmem
          · exact hkey True "file" _ value (by decide) hmem
      · exact hkey _ "level" _ value (by decide) hmem
    · cases hf : a.formatter with
      | none =>
        rw [hf] at hmem
        cases hmem
      | some f =>
        rw [hf, Option.elim_some, member] at hmem
        split at hmem
        · exact ⟨by assumption, rfl⟩
        · cases hmem
  · rintro ⟨hhas, hsome⟩
    obtain ⟨f, hf⟩ := Option.isSome_iff_exists.mp hsome
    refine ⟨.scalar f.pattern, List.mem_append_right _ ?_⟩
    rw [hf, Option.elim_some, member, if_pos hhas]
    exact List.mem_singleton_self _

namespace LogObjects

variable {s : LogObjects}

theorem owned_iff (hu : s.Unset) : s.Owned ↔ s.Uses ∧ ∀ a, s.given a = none := by
  have hemits : ∀ a, ¬ (s.appenders a).EmitsFormatter := by
    intro a h
    have hhas := ((s.appenders a).emitsFormatter_iff.mp h).1
    rw [hu a] at hhas
    cases hhas
  constructor
  · intro h
    refine ⟨h.uses, fun a => ?_⟩
    have hnot := mt (h.emits a).mpr (hemits a)
    exact Option.not_isSome_iff_eq_none.mp hnot
  · rintro ⟨huses, hgiven⟩
    refine ⟨huses, fun a => iff_of_false (hemits a) ?_⟩
    rw [hgiven a]
    exact Bool.false_ne_true

/-- As long as none was given, a call gives none exactly where it is not `setFormatter` of an appender. -/
theorem given_call (h : ∀ a, s.given a = none) (c : LogCall) :
    (∀ a, (s.call c).given a = none) ↔ ∀ a f, c ≠ .setAppenderFormatter a (some f) := by
  cases c with
  | setAppenderFormatter a val =>
    constructor
    · rintro hg a' f heq
      cases heq
      have ha := hg a
      simp only [call, setAppenderFormatter, Function.update_self] at ha
      cases ha
    · intro hne b
      cases val with
      | none =>
        simp only [call, setAppenderFormatter, Function.update_apply, h b, ite_self]
      | some f => exact absurd rfl (hne a f)
  | addLogAppender l a => exact iff_of_true h fun _ _ heq => by cases heq
  | delLogAppender l a => exact iff_of_true h fun _ _ heq => by cases heq
  | setFormatter l val => exact iff_of_true h fun _ _ heq => by cases heq
  | setFormatterText l val =>
    refine iff_of_true ?_ fun _ _ heq => by cases heq
    simp only [call, setFormatterText]
    split
    · exact h
    · exact h

/-- What holds in the states of runs that meet the condition. -/
structure Inv (s : LogObjects) : Prop where
  uses : s.Uses
  unset : s.Unset

theorem inv_init (h : appenderSys.init s) : s.Inv := by
  obtain ⟨hlog, happ, hgiven⟩ := h
  refine ⟨⟨fun a f hf => ?_, fun l a ha _ => ?_⟩, fun a => ?_⟩
  · rw [hgiven a] at hf
    cases hf
  · rw [hlog l] at ha
    cases ha
  · obtain ⟨file, hfile⟩ := happ a
    rw [hfile]
    rfl

theorem inv_of_reachable (h : appenderSys.ReachableWhen (fun s c => c.Keeps s) s) : s.Inv :=
  h.invariant (fun _ => inv_init) fun s c t hi hc ht => by
    cases ht
    exact ⟨(uses_call hi.uses hi.unset c).mpr hc, unset_call hi.unset c⟩

theorem given_of_reachable (h : appenderSys.ReachableWhen (fun s c => c.Plain s) s) : ∀ a, s.given a = none := by
  refine h.invariant (I := fun s => ∀ a, s.given a = none) ?_ ?_
  · intro s hs
    exact hs.2.2
  · intro s c t hi hc ht
    cases ht
    exact (given_call hi c).mpr hc.2

end LogObjects

/-- **The formatters that are used** are those of the appenders, and else of their loggers, as long as every call meets
the condition; the first call that does not ends it. -/
theorem formatters_used (s : LogObjects) :
    (appenderSys.ReachableWhen (fun s c => c.Keeps s) s → s.Uses) ∧
      ∀ c t, appenderSys.ReachableWhen (fun s c => c.Keeps s) s → appenderSys.step s c = some t → ¬ c.Keeps s →
        ¬ t.Uses := by
  refine ⟨fun h => (LogObjects.inv_of_reachable h).uses, fun c t h ht hc => ?_⟩
  have hi := LogObjects.inv_of_reachable h
  cases ht
  exact mt (LogObjects.uses_call hi.uses hi.unset c).mp hc

/-- **The formatters of appenders** are owned as long as no appender is given one, and every call leaves them used as
they are to be; the first call that does not ends it. -/
theorem appender_formatters (s : LogObjects) :
    (appenderSys.ReachableWhen (fun s c => c.Plain s) s → s.Owned) ∧
      ∀ c t, appenderSys.ReachableWhen (fun s c => c.Plain s) s → appenderSys.step s c = some t → ¬ c.Plain s →
        ¬ t.Owned := by
  have hinv : appenderSys.ReachableWhen (fun s c => c.Plain s) s → s.Inv := by
    rintro ⟨s₀, h₀, h⟩
    exact LogObjects.inv_of_reachable ⟨s₀, h₀, h.mono fun _ _ hc => hc.1⟩
  refine ⟨fun h => ?_, fun c t h ht hc howned => ?_⟩
  · exact (LogObjects.owned_iff (hinv h).unset).mpr ⟨(hinv h).uses, LogObjects.given_of_reachable h⟩
  · have hi := hinv h
    cases ht
    obtain ⟨huses, hgiven⟩ := (LogObjects.owned_iff (LogObjects.unset_call hi.unset c)).mp howned
    refine hc ⟨(LogObjects.uses_call hi.uses hi.unset c).mp huses, ?_⟩
    exact (LogObjects.given_call (LogObjects.given_of_reachable h) c).mp hgiven

/-- New loggers and appenders. -/
def newLogObjects : LogObjects where
  loggers _ := { level := .debug, appenders := [], formatter := some Logger.new.formatter }
  appenders _ := .new none
  given _ := none

theorem init_newLogObjects : appenderSys.init newLogObjects := ⟨fun _ => rfl, fun _ => ⟨none, rfl⟩, fun _ => rfl⟩

/-- An appender is added, and its logger gets another formatter. -/
theorem appender_formatters_inherited : ∃ s : LogObjects, 0 ∈ (s.loggers 0).appenders ∧
    (s.appenders 0).formatter = some (.new (bytes "%m")) ∧ s.Owned := by
  let s := newLogObjects.addLogAppender 0 0
  have hadd : (LogCall.addLogAppender 0 0).Plain newLogObjects :=
    ⟨fun _ => .inr ⟨rfl, fun _ => List.not_mem_nil⟩, fun _ _ heq => by cases heq⟩
  have hset : (LogCall.setFormatter 0 (some (.new (bytes "%m")))).Plain s := by
    refine ⟨⟨fun a _ f hf => ?_, fun a _ _ l hl ha => ?_⟩, fun _ _ heq => by cases heq⟩
    · cases hf
    · obtain ha | ⟨rfl, -⟩ := (LogObjects.mem_addLogAppender newLogObjects 0 0 l a).1.mp ha
      · cases ha
      · exact absurd rfl hl
  have hrun : appenderSys.ReachableWhen (fun s c => c.Plain s) (s.setFormatter 0 (some (.new (bytes "%m")))) :=
    ((Transition.Sys.ReachableWhen.init init_newLogObjects).tail _ hadd rfl).tail _ hset rfl
  exact ⟨_, List.mem_singleton_self 0, rfl, (appender_formatters _).1 hrun⟩

/-- An appender is given a formatter and added, and its logger gets another one: the appender gets it, too. -/
theorem formatter_overwritten : ∃ s, appenderSys.Reachable s ∧ s.given 0 = some (.new (bytes "%p")) ∧
    (s.appenders 0).formatter = some (.new (bytes "%m")) ∧ ¬ s.Owned := by
  obtain ⟨s, hs, hp⟩ := appenderSys.reachable_of_exec newLogObjects init_newLogObjects
    [.setAppenderFormatter 0 (some (.new (bytes "%p"))), .addLogAppender 0 0,
      .setFormatter 0 (some (.new (bytes "%m")))]
    (p := fun s => s.given 0 == some (.new (bytes "%p")) &&
      (s.appenders 0).formatter == some (.new (bytes "%m"))) rfl
  simp only [Bool.and_eq_true, beq_iff_eq] at hp
  obtain ⟨hgiven, hformatter⟩ := hp
  refine ⟨s, hs, hgiven, hformatter, fun howned => ?_⟩
  have hkept := howned.uses.kept 0 _ hgiven
  rw [hformatter] at hkept
  exact absurd hkept (by decide)

end Megalo
