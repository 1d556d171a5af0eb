import Mathlib.Logic.Function.Basic
import Megalo.Lib.System
import Megalo.Log.Define

/-!
# `FileLogAppender`

An appender writes to a stream, which has a buffer, and calls `reopen` before a line that is three seconds or more
behind the last time. Meanwhile other programs remove or rename the file, or make a new one in its place, and several
threads are in `log`.

- `FileLog` is the file that the name stands for, the contents of all files that had this name, the stream, and where
  each caller is; `kept` is what the stream has accepted, and `lost` what was written to one in a failed state;
- `Whole`: every write and close gets its bytes to the file. Then nothing that the stream accepts is lost, no matter
  when the file is rotated (`Stored`), and a line that is due is written to the file that has the name by then
  (`Current`), as long as the file can be opened;
- `Stuck`: after a write that failed, the stream is in a failed state with its file open. `reopen` only closes it in a
  good state, and opening an open one fails, so it stays so, whatever happens;
- `file_log_rotated`: all of this for every run.
-/

namespace Megalo

/-- An event, with the text that the formatter makes of it. -/
structure FileEvent where
  time : UInt64
  level : LogLevel
  text : List UInt8
  deriving DecidableEq

/-- Where a call of `log` is: before `reopen`, before `m_lastTime = now`, or before the write. -/
inductive FilePc
  | idle
  | due (e : FileEvent)
  | reopened (e : FileEvent)
  | ready (e : FileEvent)
  deriving DecidableEq

/-- What becomes of a text in the stream: it is in the buffer; it is written, behind what was there; or only so many
bytes of these are. -/
inductive WriteOutcome
  | buffered
  | flushed
  | failed (k : ℕ)

/-- The directory entry and the files, by numbers; the stream with its file, its buffer and its state; and the
callers. -/
structure FileLog (n : ℕ) where
  path : Option ℕ
  files : ℕ → List UInt8
  count : ℕ
  file : Option ℕ
  buffer : List UInt8
  failed : Bool
  lastTime : UInt64
  calls : Fin n → FilePc
  kept : List UInt8
  lost : List UInt8

/-- What is done: the parts of `log` and `reopen`, or something by another program. A file that is closed gets its
buffer, or only so many bytes of it; and it can be opened or not. -/
inductive FileOp (n : ℕ)
  | begin (a : Fin n) (e : FileEvent)
  | reopen (a : Fin n) (close : Option ℕ) (opens : Bool)
  | stamp (a : Fin n)
  | write (a : Fin n) (outcome : WriteOutcome)
  | remove
  | create

/-- Another program changes what has the name. -/
def FileOp.rotates {n : ℕ} : FileOp n → Bool
  | .remove | .create => true
  | _ => false

/-- A file that `reopen` opens can be opened. -/
def FileOp.opens {n : ℕ} : FileOp n → Bool
  | .reopen _ _ opens => opens
  | _ => true

/-- A write or a close gets its bytes to the file. -/
def FileOp.Whole {n : ℕ} : FileOp n → Prop
  | .reopen _ close _ => close = none
  | .write _ (.failed _) => False
  | _ => True

instance {n : ℕ} : DecidablePred (FileOp.Whole (n := n))
  | .reopen _ _ _ => inferInstanceAs (Decidable (_ = _))
  | .write _ (.failed _) => inferInstanceAs (Decidable False)
  | .write _ .buffered | .write _ .flushed | .begin _ _ | .stamp _ | .remove | .create =>
    inferInstanceAs (Decidable True)

/-- The file can be opened besides, and nothing rotates it. -/
def FileOp.Steady {n : ℕ} (op : FileOp n) : Prop := op.Whole ∧ op.rotates = false ∧ op.opens = true

instance {n : ℕ} : DecidablePred (FileOp.Steady (n := n)) := fun op => inferInstanceAs (Decidable (op.Whole ∧ _ ∧ _))

namespace FileLog

variable {n : ℕ}

/-- The members before the constructor calls `reopen`, where the file is there or not. -/
def fresh (old : Option (List UInt8)) : FileLog n where
  path := old.map fun _ => 0
  files i := if i = 0 then old.getD [] else []
  count := if old.isSome then 1 else 0
  file := none
  buffer := []
  failed := false
  lastTime := 0
  calls _ := .idle
  kept := old.getD []
  lost := []

variable (s : FileLog n)

def setCall (a : Fin n) (pc : FilePc) : FileLog n := { s with calls := Function.update s.calls a pc }

/-- Bytes are written to a file. -/
def append (i : ℕ) (data : List UInt8) : FileLog n :=
  { s with files := Function.update s.files i (s.files i ++ data) }

/-- `m_filestream.close()`. -/
def close (outcome : Option ℕ) : FileLog n :=
  match s.file with
  | none => { s with failed := true }
  | some i =>
    match outcome with
    | none => { s.append i s.buffer with file := none, buffer := [] }
    | some k => { s.append i (s.buffer.take k) with file := none, buffer := [], failed := true }

/-- `m_filestream.open(m_filename, std::ios::app)`. -/
def openFile (opens : Bool) : FileLog n :=
  match s.file with
  | some _ => { s with failed := true }
  | none =>
    if opens then
      match s.path with
      | some i => { s with file := some i, failed := false }
      | none =>
        { s with
          path := some s.count
          files := Function.update s.files s.count []
          count := s.count + 1
          file := some s.count
          failed := false }
    else { s with failed := true }

/-- `reopen`. -/
def reopen (close : Option ℕ) (opens : Bool) : FileLog n :=
  (if s.failed then s else s.close close).openFile opens

/-- `m_filestream << text`. -/
def put (text : List UInt8) (outcome : WriteOutcome) : FileLog n :=
  match s.failed, s.file with
  | true, _ => { s with lost := s.lost ++ text }
  | false, none => { s with failed := true, lost := s.lost ++ text }
  | false, some i =>
    match outcome with
    | .buffered => { s with buffer := s.buffer ++ text, kept := s.kept ++ text }
    | .flushed => { s.append i (s.buffer ++ text) with buffer := [], kept := s.kept ++ text }
    | .failed k => { s.append i ((s.buffer ++ text).take k) with failed := true, lost := s.lost ++ text }

/-- One step. -/
def step (level : LogLevel) : FileOp n → Option (FileLog n)
  | .begin a e =>
    if s.calls a = .idle then
      some (if e.level.value < level.value then s
        else if e.time ≥ s.lastTime + 3 then s.setCall a (.due e)
        else s.setCall a (.ready e))
    else none
  | .reopen a close opens =>
    match s.calls a with
    | .due e => some ((s.reopen close opens).setCall a (.reopened e))
    | _ => none
  | .stamp a =>
    match s.calls a with
    | .reopened e => some { s.setCall a (.ready e) with lastTime := e.time }
    | _ => none
  | .write a outcome =>
    match s.calls a with
    | .ready e => some ((s.put e.text outcome).setCall a .idle)
    | _ => none
  | .remove => some { s with path := none }
  | .create =>
    some { s with path := some s.count, files := Function.update s.files s.count [], count := s.count + 1 }

end FileLog

/-- An appender of this level, whose file was there or not, with `n` callers of `log`. -/
def fileLogSys (n : ℕ) (level : LogLevel) : Transition.Sys (FileLog n) (FileOp n) where
  init s := ∃ old opens, s = (FileLog.fresh old).reopen none opens
  step s op := s.step level op

namespace FileLog

variable {n : ℕ} {level : LogLevel} {s t : FileLog n} {a : Fin n} {i j : ℕ} {pc : FilePc} {e : FileEvent} {opens : Bool}

/-! ## Files -/

/-- The files that had the name, one behind the other. -/
def stored (s : FileLog n) : List UInt8 := (List.range s.count).flatMap s.files

/-- What the last file in use gets is behind everything. -/
theorem flatMap_append {f : ℕ → List UInt8} {m : ℕ} {data : List UInt8} (hi : i < m) (hf : ∀ j, i < j → f j = []) :
    (List.range m).flatMap (Function.update f i (f i ++ data)) = (List.range m).flatMap f ++ data := by
  induction m with
  | zero => cases hi
  | succ m ih =>
    rw [List.range_succ, List.flatMap_append, List.flatMap_append, List.flatMap_singleton, List.flatMap_singleton]
    rcases Nat.lt_succ_iff_lt_or_eq.mp hi with hlt | rfl
    · rw [ih hlt, Function.update_of_ne (Nat.ne_of_gt hlt), hf m hlt, List.append_nil, List.append_nil]
    · rw [Function.update_self, ← List.append_assoc]
      refine congrArg (· ++ f i ++ data) (List.flatMap_congr fun j hj => ?_)
      rw [Function.update_of_ne (Nat.ne_of_lt (List.mem_range.mp hj))]

/-- A new file is empty. -/
theorem flatMap_new {f : ℕ → List UInt8} {m : ℕ} :
    (List.range (m + 1)).flatMap (Function.update f m []) = (List.range m).flatMap f := by
  rw [List.range_succ, List.flatMap_append, List.flatMap_singleton, Function.update_self, List.append_nil]
  refine List.flatMap_congr fun j hj => ?_
  rw [Function.update_of_ne (Nat.ne_of_lt (List.mem_range.mp hj))]

/-- The name is that of the last file, and nothing is in the files behind that of the stream. -/
structure Placed (s : FileLog n) : Prop where
  path : ∀ p, s.path = some p → s.count = p + 1
  file : ∀ i, s.file = some i → i < s.count
  above : ∀ i, s.file = some i → ∀ j, i < j → s.files j = []
  beyond : ∀ j, s.count ≤ j → s.files j = []
  buffer : s.file = none → s.buffer = []

theorem Placed.append (h : s.Placed) (hi : s.file = some i) (data : List UInt8) : (s.append i data).Placed := by
  refine { h with above := fun k hk j hj => ?_, beyond := fun j hj => ?_ }
  · obtain rfl : i = k := Option.some.inj (hi.symm.trans hk)
    exact (Function.update_of_ne (Nat.ne_of_gt hj) ..).trans (h.above i hi j hj)
  · exact (Function.update_of_ne (Nat.ne_of_gt (Nat.lt_of_lt_of_le (h.file i hi) hj)) ..).trans (h.beyond j hj)

theorem stored_append (h : s.Placed) (hi : s.file = some i) (data : List UInt8) :
    (s.append i data).stored = s.stored ++ data :=
  flatMap_append (h.file i hi) (h.above i hi)

theorem Placed.create (h : s.Placed) :
    ({ s with path := some s.count, files := Function.update s.files s.count [], count := s.count + 1 } :
      FileLog n).Placed := by
  have hnew : ∀ j, s.files j = [] → Function.update s.files s.count [] j = [] := by
    intro j hj
    by_cases hjc : j = s.count
    · rw [hjc, Function.update_self]
    · rw [Function.update_of_ne hjc, hj]
  refine ⟨fun p hp => ?_, fun i hi => Nat.lt_succ_of_lt (h.file i hi), fun i hi j hj => hnew j (h.above i hi j hj),
    fun j hj => hnew j (h.beyond j (Nat.le_of_succ_le hj)), h.buffer⟩
  obtain rfl := Option.some.inj hp
  rfl

theorem Placed.close (h : s.Placed) (outcome : Option ℕ) :
    (s.close outcome).Placed ∧ (s.close outcome).file = none := by
  unfold FileLog.close
  split
  · rename_i hfile
    exact ⟨{ h with }, hfile⟩
  · rename_i i hi
    split
    · exact ⟨{ h.append hi s.buffer with file := nofun, above := nofun, buffer := fun _ => rfl }, rfl⟩
    · exact ⟨{ h.append hi _ with file := nofun, above := nofun, buffer := fun _ => rfl }, rfl⟩

theorem Placed.openFile (h : s.Placed) (opens : Bool) : (s.openFile opens).Placed := by
  unfold FileLog.openFile
  split
  · exact { h with }
  · rename_i hfile
    split
    · split
      · rename_i p hp
        have hcount := h.path p hp
        refine { h with
          file := fun i hi => ?_
          above := fun i hi j hj => ?_
          buffer := nofun }
        · obtain rfl := Option.some.inj hi
          exact hcount ▸ Nat.lt_succ_self p
        · obtain rfl := Option.some.inj hi
          exact h.beyond j (hcount ▸ hj)
      · have hnew := h.create
        refine { hnew with
          file := fun i hi => ?_
          above := fun i hi j hj => ?_
          buffer := nofun }
        · obtain rfl := Option.some.inj hi
          exact Nat.lt_succ_self _
        · obtain rfl := Option.some.inj hi
          exact hnew.beyond j hj
    · exact { h with }

theorem Placed.reopen (h : s.Placed) (close : Option ℕ) (opens : Bool) : (s.reopen close opens).Placed := by
  unfold FileLog.reopen
  split
  · exact h.openFile opens
  · exact (h.close close).1.openFile opens

theorem Placed.put (h : s.Placed) (text : List UInt8) (outcome : WriteOutcome) : (s.put text outcome).Placed := by
  unfold FileLog.put
  split
  · exact { h with }
  · exact { h with }
  · rename_i i _ hi
    have hopen : s.file ≠ none := by rw [hi]; nofun
    cases outcome with
    | buffered => exact { h with buffer := fun hn => absurd hn hopen }
    | flushed => exact { h.append hi _ with buffer := fun _ => rfl }
    | failed k => exact { h.append hi _ with }

/-- A step keeps what the changes of the stream and of the directory keep, and does not depend on the callers. -/
theorem step_keeps {I : FileLog n → Prop} {op : FileOp n} (hcall : ∀ s a pc, I s → I (s.setCall a pc))
    (htime : ∀ s time, I s → I { s with lastTime := time })
    (hreopen : ∀ a close opens, op = .reopen a close opens → I (s.reopen close opens))
    (hput : ∀ a e outcome, op = .write a outcome → I (s.put e outcome))
    (hremove : op = .remove → I { s with path := none })
    (hcreate : op = .create →
      I { s with path := some s.count, files := Function.update s.files s.count [], count := s.count + 1 })
    (h : I s) (hst : s.step level op = some t) : I t := by
  cases op with
  | begin a e =>
    obtain ⟨-, he⟩ := Option.ite_none_right_eq_some.mp hst
    obtain rfl := Option.some.inj he
    split
    · exact h
    · split
      · exact hcall _ _ _ h
      · exact hcall _ _ _ h
  | reopen a close opens =>
    simp only [FileLog.step] at hst
    split at hst
    · obtain rfl := Option.some.inj hst
      exact hcall _ _ _ (hreopen a close opens rfl)
    · cases hst
  | stamp a =>
    simp only [FileLog.step] at hst
    split at hst
    · rename_i e _
      obtain rfl := Option.some.inj hst
      exact htime _ e.time (hcall _ a (.ready e) h)
    · cases hst
  | write a outcome =>
    simp only [FileLog.step] at hst
    split at hst
    · rename_i e _
      obtain rfl := Option.some.inj hst
      exact hcall _ _ _ (hput a e.text outcome rfl)
    · cases hst
  | remove =>
    obtain rfl := Option.some.inj hst
    exact hremove rfl
  | create =>
    obtain rfl := Option.some.inj hst
    exact hcreate rfl

theorem placed_step {op : FileOp n} (h : s.Placed) (hst : s.step level op = some t) : t.Placed :=
  step_keeps (I := Placed) (fun _ _ _ h => { h with }) (fun _ _ h => { h with })
    (fun _ close opens _ => h.reopen close opens) (fun _ text outcome _ => h.put text outcome)
    (fun _ => { h with path := nofun }) (fun _ => h.create) h hst

theorem placed_fresh (old : Option (List UInt8)) : (fresh old : FileLog n).Placed := by
  refine ⟨fun p hp => ?_, nofun, nofun, fun j hj => ?_, fun _ => rfl⟩
  · cases old with
    | none => cases hp
    | some data => rw [← Option.some.inj hp]; rfl
  · cases old with
    | none => exact ite_self _
    | some data => exact if_neg (Nat.ne_of_gt hj)

/-! ## Nothing is lost -/

/-- The stream is in a good state exactly with a file, and what it accepted is in the files and in its buffer. -/
structure Stored (s : FileLog n) : Prop where
  good : s.failed = s.file.isNone
  kept : s.kept = s.stored ++ s.buffer

theorem Stored.openFile (hkept : s.kept = s.stored ++ s.buffer) (hfile : s.file = none) (opens : Bool) :
    (s.openFile opens).Stored := by
  unfold FileLog.openFile
  split
  · rename_i hi
    exact nomatch hfile.symm.trans hi
  · split
    · split
      · exact ⟨rfl, hkept⟩
      · exact ⟨rfl, hkept.trans (congrArg (· ++ s.buffer) flatMap_new.symm)⟩
    · exact ⟨(congrArg Option.isNone hfile).symm, hkept⟩

/-- A stream in a failed state is not closed. -/
theorem reopen_failed (h : s.failed = true) (close : Option ℕ) : s.reopen close opens = s.openFile opens := by
  rw [FileLog.reopen, if_pos h]

/-- A stream in a good state is closed. -/
theorem reopen_good (h : s.failed = false) (hi : s.file = some i) :
    s.reopen none opens = ({ s.append i s.buffer with file := none, buffer := [] } : FileLog n).openFile opens := by
  rw [FileLog.reopen, h]
  simp only [FileLog.close, hi, Bool.false_eq_true, if_false]

theorem Stored.failed_of_none (h : s.Stored) (hfile : s.file = none) : s.failed = true :=
  h.good.trans (congrArg Option.isNone hfile)

theorem Stored.good_of_some (h : s.Stored) (hi : s.file = some i) : s.failed = false :=
  h.good.trans (congrArg Option.isNone hi)

theorem Stored.reopen (h : s.Stored) (hp : s.Placed) (opens : Bool) : (s.reopen none opens).Stored := by
  cases hfile : s.file with
  | none =>
    rw [reopen_failed (h.failed_of_none hfile)]
    exact Stored.openFile h.kept hfile opens
  | some i =>
    rw [reopen_good (h.good_of_some hfile) hfile]
    refine Stored.openFile ?_ rfl opens
    exact h.kept.trans ((stored_append hp hfile s.buffer).symm.trans (List.append_nil _).symm)

theorem Stored.put (h : s.Stored) (hp : s.Placed) (text : List UInt8) {outcome : WriteOutcome}
    (ho : ∀ k, outcome ≠ .failed k) : (s.put text outcome).Stored := by
  unfold FileLog.put
  split
  · exact { h with }
  · rename_i hfailed hfile
    exact nomatch hfailed.symm.trans (h.good.trans (congrArg Option.isNone hfile))
  · rename_i i _ hi
    cases outcome with
    | buffered => exact ⟨h.good, (congrArg (· ++ text) h.kept).trans (List.append_assoc ..)⟩
    | flushed =>
      refine ⟨h.good, ?_⟩
      refine (congrArg (· ++ text) h.kept).trans ((List.append_assoc ..).trans ?_)
      exact (stored_append hp hi (s.buffer ++ text)).symm.trans (List.append_nil _).symm
    | failed k => exact absurd rfl (ho k)

theorem stored_step {op : FileOp n} (h : s.Stored) (hp : s.Placed) (hok : op.Whole) (hst : s.step level op = some t) :
    t.Stored := by
  refine step_keeps (I := Stored) (fun _ _ _ h => { h with }) (fun _ _ h => { h with }) ?_ ?_ ?_ ?_ h hst
  · rintro a close opens rfl
    obtain rfl : close = none := hok
    exact h.reopen hp opens
  · rintro a text outcome rfl
    exact h.put hp text fun k he => by subst he; exact hok
  · exact fun _ => { h with }
  · exact fun _ => ⟨h.good, h.kept.trans (congrArg (· ++ s.buffer) flatMap_new.symm)⟩

theorem stored_fresh (old : Option (List UInt8)) : ((fresh old).reopen none opens : FileLog n).Stored := by
  have hkept : (fresh old : FileLog n).kept = (fresh old : FileLog n).stored := by
    cases old with
    | none => rfl
    | some data => exact (List.append_nil _).symm
  exact Stored.openFile (hkept.trans (List.append_nil _).symm) rfl opens

theorem reachable_placed {ok : FileLog n → FileOp n → Prop} (h : (fileLogSys n level).ReachableWhen ok s) :
    s.Placed := by
  refine h.invariant (I := Placed) ?_ fun s op t hs _ hst => placed_step hs hst
  rintro _ ⟨old, opens, rfl⟩
  exact (placed_fresh old).reopen none opens

theorem reachable_stored (h : (fileLogSys n level).ReachableWhen (fun _ => FileOp.Whole) s) : s.Stored := by
  refine (h.invariant (I := fun s => s.Placed ∧ s.Stored) ?_ fun s op t hs hok hst =>
    ⟨placed_step hs.1 hst, stored_step hs.2 hs.1 hok hst⟩).2
  rintro _ ⟨old, opens, rfl⟩
  exact ⟨(placed_fresh old).reopen none opens, stored_fresh old⟩

/-! ## A line that is due -/

/-- The stream is in a good state, with the file that has the name. -/
structure Good (s : FileLog n) : Prop where
  failed : s.failed = false
  file : s.file ≠ none
  path : s.file = s.path

theorem good_openFile (hfile : s.file = none) : (s.openFile true).Good := by
  unfold FileLog.openFile
  split
  · rename_i hi
    exact nomatch hfile.symm.trans hi
  · split
    · split
      · rename_i hp
        exact ⟨rfl, nofun, hp.symm⟩
      · exact ⟨rfl, nofun, rfl⟩
    · rename_i hopens
      exact absurd rfl hopens

theorem good_reopen (h : s.Stored) : (s.reopen none true).Good := by
  cases hfile : s.file with
  | none =>
    rw [reopen_failed (h.failed_of_none hfile)]
    exact good_openFile hfile
  | some i =>
    rw [reopen_good (h.good_of_some hfile) hfile]
    exact good_openFile rfl

theorem Good.put (h : s.Good) (text : List UInt8) {outcome : WriteOutcome} (ho : ∀ k, outcome ≠ .failed k) :
    (s.put text outcome).Good := by
  unfold FileLog.put
  split
  · exact { h with }
  · rename_i hfile
    exact absurd hfile h.file
  · cases outcome with
    | buffered => exact { h with }
    | flushed => exact { h with }
    | failed k => exact absurd rfl (ho k)

theorem good_step {op : FileOp n} (h : s.Good) (hs : s.Stored) (hok : op.Steady) (hst : s.step level op = some t) :
    t.Good := by
  obtain ⟨hwhole, hrotates, hopens⟩ := hok
  refine step_keeps (I := Good) (fun _ _ _ h => { h with }) (fun _ _ h => { h with }) ?_ ?_ ?_ ?_ h hst
  · rintro a close opens rfl
    obtain rfl : close = none := hwhole
    cases opens with
    | true => exact good_reopen hs
    | false => cases hopens
  · rintro a text outcome rfl
    exact h.put text fun k he => by subst he; exact hwhole
  · rintro rfl
    cases hrotates
  · rintro rfl
    cases hrotates

theorem openFile_calls (s : FileLog n) (opens : Bool) : (s.openFile opens).calls = s.calls := by
  unfold FileLog.openFile
  repeat' split
  all_goals rfl

theorem close_calls (s : FileLog n) (outcome : Option ℕ) : (s.close outcome).calls = s.calls := by
  unfold FileLog.close
  repeat' split
  all_goals rfl

theorem reopen_calls (s : FileLog n) (close : Option ℕ) (opens : Bool) : (s.reopen close opens).calls = s.calls := by
  rw [FileLog.reopen, openFile_calls]
  split
  · rfl
  · exact close_calls s close

theorem put_calls (s : FileLog n) (text : List UInt8) (outcome : WriteOutcome) :
    (s.put text outcome).calls = s.calls := by
  unfold FileLog.put
  repeat' split
  all_goals rfl

/-- The caller is before `reopen`, or the stream has the file of the name. -/
def Current (s : FileLog n) (a : Fin n) : Prop := (∃ e, s.calls a = .due e) ∨ s.Good

theorem current_step {op : FileOp n} (h : s.Current a) (hs : s.Stored) (hok : op.Steady)
    (hst : s.step level op = some t) : t.Current a := by
  rcases h with ⟨e, ha⟩ | hgood
  · have hother : ∀ b, s.calls b ≠ .due e → b ≠ a := fun b hb he => hb (he ▸ ha)
    have hstays : ∀ (u : FileLog n) (b : Fin n) (pc : FilePc), u.calls = s.calls → b ≠ a →
        (u.setCall b pc).calls a = .due e := fun u b pc hcalls hb =>
      (Function.update_of_ne (Ne.symm hb) ..).trans ((congrFun hcalls a).trans ha)
    cases op with
    | begin b e' =>
      obtain ⟨hidle, he⟩ := Option.ite_none_right_eq_some.mp hst
      obtain rfl := Option.some.inj he
      have hb := hother b (by rw [hidle]; nofun)
      split
      · exact .inl ⟨e, ha⟩
      · split
        · exact .inl ⟨e, hstays s b _ rfl hb⟩
        · exact .inl ⟨e, hstays s b _ rfl hb⟩
    | reopen b close opens =>
      simp only [FileLog.step] at hst
      split at hst
      · obtain rfl := Option.some.inj hst
        by_cases hb : b = a
        · obtain rfl : close = none := hok.1
          cases opens with
          | true => exact .inr { good_reopen hs with }
          | false => cases hok.2.2
        · exact .inl ⟨e, hstays _ b _ (reopen_calls s close opens) hb⟩
      · cases hst
    | stamp b =>
      simp only [FileLog.step] at hst
      split at hst
      · rename_i hb
        obtain rfl := Option.some.inj hst
        exact .inl ⟨e, hstays s b _ rfl (hother b (by rw [hb]; nofun))⟩
      · cases hst
    | write b outcome =>
      simp only [FileLog.step] at hst
      split at hst
      · rename_i e' hb
        obtain rfl := Option.some.inj hst
        exact .inl ⟨e, hstays _ b _ (put_calls s e'.text outcome) (hother b (by rw [hb]; nofun))⟩
      · cases hst
    | remove => cases hok.2.1
    | create => cases hok.2.1
  · exact .inr (good_step hgood hs hok hst)

/-! ## After a write that failed -/

/-- The stream is in a failed state, with a file open. -/
structure Stuck (s : FileLog n) : Prop where
  failed : s.failed = true
  file : s.file ≠ none

/-- The stream has accepted nothing more, and the files are what they were. -/
structure Silent (s t : FileLog n) : Prop where
  stuck : t.Stuck
  kept : t.kept = s.kept
  count : s.count ≤ t.count
  files : ∀ i < s.count, t.files i = s.files i

theorem put_failed (h : s.failed = true) (text : List UInt8) (outcome : WriteOutcome) :
    s.put text outcome = { s with lost := s.lost ++ text } := by
  unfold FileLog.put
  rw [h]

/-- A write that fails on an open file. -/
theorem stuck_write {k : ℕ} (hfile : s.file ≠ none) (hst : s.step level (.write a (.failed k)) = some t) : t.Stuck := by
  simp only [FileLog.step] at hst
  split at hst
  · obtain rfl := Option.some.inj hst
    unfold FileLog.put
    split
    · exact ⟨‹s.failed = true›, hfile⟩
    · rename_i hnone
      exact absurd hnone hfile
    · exact ⟨rfl, hfile⟩
  · cases hst

theorem silent_step {op : FileOp n} {u : FileLog n} (h : Silent s t) (hst : t.step level op = some u) : Silent s u := by
  have hfailed := h.stuck.failed
  refine step_keeps (I := Silent s) (fun _ _ _ h => ⟨⟨h.stuck.failed, h.stuck.file⟩, h.kept, h.count, h.files⟩)
    (fun _ _ h => ⟨⟨h.stuck.failed, h.stuck.file⟩, h.kept, h.count, h.files⟩) ?_ ?_ ?_ ?_ h hst
  · rintro _ close opens -
    rw [reopen_failed hfailed, FileLog.openFile]
    split
    · exact ⟨⟨rfl, h.stuck.file⟩, h.kept, h.count, h.files⟩
    · rename_i hfile
      exact absurd hfile h.stuck.file
  · rintro _ text outcome -
    rw [put_failed hfailed]
    exact ⟨⟨hfailed, h.stuck.file⟩, h.kept, h.count, h.files⟩
  · exact fun _ => ⟨⟨hfailed, h.stuck.file⟩, h.kept, h.count, h.files⟩
  · refine fun _ => ⟨⟨hfailed, h.stuck.file⟩, h.kept, Nat.le_succ_of_le h.count, fun i hi => ?_⟩
    exact (Function.update_of_ne (Nat.ne_of_lt (Nat.lt_of_lt_of_le hi h.count)) ..).trans (h.files i hi)

/-! ## Runs -/

/-- **An appender whose file is rotated.** As long as every write and close gets its bytes to the file, the files that
had the name, one behind the other, and the buffer have exactly what the stream accepted, and it is in a failed state
only while there is no file. A line that is due is written to the file that has the name, unless this cannot be opened
or is rotated again meanwhile. But a write that fails on an open file leaves the stream stuck, and then nothing is
accepted any more. -/
theorem file_log_rotated (n : ℕ) (level : LogLevel) :
    (∀ s, (fileLogSys n level).ReachableWhen (fun _ => FileOp.Whole) s → s.Stored) ∧
    (∀ s t a e, (fileLogSys n level).ReachableWhen (fun _ => FileOp.Whole) s → s.calls a = .due e →
      (fileLogSys n level).Steps (fun _ => FileOp.Steady) s t → t.Current a) ∧
    (∀ s t a k, s.file ≠ none → (fileLogSys n level).step s (.write a (.failed k)) = some t → t.Stuck) ∧
    ∀ s t, s.Stuck → (fileLogSys n level).Steps (fun _ _ => True) s t → Silent s t := by
  refine ⟨fun s => reachable_stored, fun s t a e hreach hdue h => ?_, fun s t a k hfile hst => ?_, fun s t hs h => ?_⟩
  · have hboth : (t.Placed ∧ t.Stored) ∧ t.Current a := by
      induction h with
      | refl => exact ⟨⟨reachable_placed hreach, reachable_stored hreach⟩, .inl ⟨e, hdue⟩⟩
      | tail op _ hok hst ih =>
        exact ⟨⟨placed_step ih.1.1 hst, stored_step ih.1.2 ih.1.1 hok.1 hst⟩, current_step ih.2 ih.1.2 hok hst⟩
    exact hboth.2
  · have hwrite : s.step level (.write a (.failed k)) = some t := hst
    exact stuck_write hfile hwrite
  · induction h with
    | refl => exact ⟨hs, rfl, Nat.le_refl _, fun _ _ => rfl⟩
    | tail op _ _ hst ih => exact silent_step ih hst

/-- Two events, the second of which is due behind the first. -/
def firstEvent : FileEvent := ⟨5, .info, bytes "a"⟩
def secondEvent : FileEvent := ⟨9, .info, bytes "b"⟩

/-- The first line is written, the file is removed, and the second line is due. -/
def rotatedLog : FileLog 1 := ((fileLogSys 1 .debug).exec ((fresh none).reopen none true)
  [.begin 0 firstEvent, .reopen 0 none true, .stamp 0, .write 0 .buffered, .remove, .begin 0 secondEvent]).get rfl

/-- The second line is to be written. -/
def readyLog : FileLog 1 := ((fileLogSys 1 .debug).exec rotatedLog [.reopen 0 none true, .stamp 0]).get rfl

/-- The disk is full. -/
def fullLog : FileLog 1 := ((fileLogSys 1 .debug).exec readyLog [.write 0 (.failed 0)]).get rfl

/-- More than three seconds later. -/
def silentLog : FileLog 1 := ((fileLogSys 1 .debug).exec fullLog
  [.begin 0 ⟨20, .info, bytes "c"⟩, .reopen 0 none true, .stamp 0, .write 0 .flushed]).get rfl

theorem file_log_rotated_twice : rotatedLog.Stored ∧ (readyLog.file = some 1 ∧ readyLog.stored = bytes "a") ∧
    readyLog.Current 0 ∧ fullLog.Silent silentLog := by
  have hrotated : (fileLogSys 1 .debug).ReachableWhen (fun _ => FileOp.Whole) rotatedLog :=
    ⟨_, ⟨none, true, rfl⟩, (Transition.Sys.steps_of_exec (S := (fileLogSys 1 .debug).restrict fun _ => FileOp.Whole)
      [.begin 0 firstEvent, .reopen 0 none true, .stamp 0, .write 0 .buffered, .remove, .begin 0 secondEvent]
      rfl).of_restrict _⟩
  have hready : (fileLogSys 1 .debug).Steps (fun _ => FileOp.Steady) rotatedLog readyLog :=
    (Transition.Sys.steps_of_exec (S := (fileLogSys 1 .debug).restrict fun _ => FileOp.Steady)
      [.reopen 0 none true, .stamp 0] rfl).of_restrict _
  have hsilent : (fileLogSys 1 .debug).Steps (fun _ _ => True) fullLog silentLog :=
    Transition.Sys.steps_of_exec [.begin 0 ⟨20, .info, bytes "c"⟩, .reopen 0 none true, .stamp 0, .write 0 .flushed] rfl
  have hwrite : (fileLogSys 1 .debug).step readyLog (.write 0 (.failed 0)) = some fullLog := rfl
  obtain ⟨hstored, hcurrent, hstuck, hsilence⟩ := file_log_rotated 1 .debug
  have hopen : readyLog.file ≠ none := fun hnone => by cases hnone
  exact ⟨hstored _ hrotated, ⟨rfl, rfl⟩, hcurrent _ _ 0 secondEvent hrotated rfl hready,
    hsilence _ _ (hstuck _ _ 0 0 hopen hwrite) hsilent⟩

end FileLog

end Megalo
