import Megalo.Lib.System
import Mathlib.Data.List.Basic
import Mathlib.Data.Fintype.Basic
import Mathlib.Tactic.Common

/-!
# The threads of a scheduler, from `start` to `stop`

`start` holds `m_mutex` while it makes its threads. The constructor of `Thread` waits on `m_semaphore` until the new
thread has read its name, set `m_id` and taken `m_cb`; only then it runs `cb()`, which locks `m_mutex` before it can
end. `stop` sets `m_stopping` without the lock, takes `m_threads` under it, and joins.

- `RunPc` and `CallPc` are where a thread is in `Thread::run`, and a caller in `start` or `stop`;
- an object of `Thread` is destroyed when no caller and not `m_threads` has a pointer to it (`refers`); its thread has a
  bare one, and `misuse` says that it used this one later, that the assertion of `start` failed, or that a null pointer
  was joined;
- `Apart`: nobody calls `start` between the two halves of a `stop`, and `pthread_create` gives a thread;
- `threads_managed`: then nothing is misused, `m_threadIds` has the ids of all threads, none of them `-1` for one that
  did not say it yet, `start` always gets to its end, and once `stop` was called and no call of the two is under way all
  threads have ended and were joined. The second of two calls of `stop` that overlap may return before that.
-/

namespace Megalo

/-- Where a thread is in `Thread::run`: behind `t_thread = thread`, behind each of the lines that use the object, and
behind `cb()`. -/
inductive RunPc
  | absent
  | entered
  | named
  | identified
  | swapped
  | notified
  | ended
  deriving DecidableEq

/-- How many lines are done. -/
def RunPc.stage : RunPc → Nat
  | .absent => 0
  | .entered => 1
  | .named => 2
  | .identified => 3
  | .swapped => 4
  | .notified => 5
  | .ended => 6

/-- Where a caller is: about to make the `i`-th thread, or in the constructor of this thread `t`; behind
`m_stopping = true`; or in the loop of `join`. -/
inductive CallPc
  | idle
  | starting (i : Nat)
  | waiting (i t : Nat)
  | flagged
  | joining (thrs : List (Option Nat)) (k : Nat)
  deriving DecidableEq

/-- The caller holds `m_mutex`. -/
def CallPc.locks : CallPc → Bool
  | .starting _ | .waiting _ _ => true
  | .idle | .flagged | .joining _ _ => false

/-- The caller has a pointer to the object of this thread. -/
def CallPc.refers (t : Nat) : CallPc → Bool
  | .waiting _ t' => t' = t
  | .joining thrs _ => thrs.contains (some t)
  | .idle | .starting _ | .flagged => false

/-- An object of `Thread`; `thread` says that `m_thread` is not 0, and `cb` that `m_cb` is not empty. -/
structure ThreadObject where
  id : ℤ
  thread : Bool
  cb : Bool
  name : String
  semaphore : Nat

/-- What the constructor of `Thread` sets. -/
def ThreadObject.new (name : String) : ThreadObject where
  id := -1
  thread := true
  cb := true
  name := if name.isEmpty then "UNKNOW" else name
  semaphore := 0

/-- What the constructor of `Scheduler` sets, and the ids that the system gives the threads. -/
structure ThreadSettings where
  name : String
  threadCount : Nat
  rootThread : Option ℤ
  tid : Nat → ℤ

namespace ThreadSettings

variable (cfg : ThreadSettings)

/-- The name that `start` gives the `i`-th thread. -/
def threadName (i : Nat) : String := cfg.name ++ "_" ++ toString i

/-- `m_threadIds` before `start`. -/
def rootIds : List ℤ := cfg.rootThread.toList

end ThreadSettings

/-- The members of a scheduler that `start` and `stop` use, the objects of its threads, where each thread is and what
its `t_thread_name` is, and where the callers are. -/
structure Threads (c : Nat) where
  mutex : Option (Fin c)
  stopping : Bool
  threads : List (Option Nat)
  threadIds : List ℤ
  objects : Nat → ThreadObject
  runs : Nat → RunPc
  names : Nat → String
  count : Nat
  calls : Fin c → CallPc
  misuse : Bool

/-- What is done: the parts of a call of `start` or of `stop`, or a line of `Thread::run`. -/
inductive ThreadOp (c : Nat)
  | start (a : Fin c)
  | create (a : Fin c) (created : Bool)
  | record (a : Fin c)
  | leave (a : Fin c)
  | stop (a : Fin c) (early : Bool)
  | swap (a : Fin c)
  | join (a : Fin c)
  | run (t : Nat)

/-- `std::vector::resize`. -/
def resize (l : List (Option Nat)) (n : Nat) : List (Option Nat) := l.take n ++ List.replicate (n - l.length) none

namespace Threads

variable {c : Nat}

/-- A scheduler that was not started. -/
def new (cfg : ThreadSettings) : Threads c where
  mutex := none
  stopping := true
  threads := []
  threadIds := cfg.rootIds
  objects _ := .new ""
  runs _ := .absent
  names _ := "UNKNOW"
  count := 0
  calls _ := .idle
  misuse := false

variable (cfg : ThreadSettings) (s : Threads c)

/-- Something has a pointer to the object of this thread. -/
def refers (t : Nat) : Bool := s.threads.contains (some t) || decide (∃ a, (s.calls a).refers t = true)

def setCall (a : Fin c) (pc : CallPc) : Threads c := { s with calls := Function.update s.calls a pc }

/-- A line of `run` uses the object of its thread. -/
def touch (t : Nat) : Threads c := { s with misuse := s.misuse || !s.refers t }

/-- The thread goes on in `run`. -/
def proceed (t : Nat) (pc : RunPc) (o : ThreadObject) (name : String) : Threads c :=
  { s with
    runs := Function.update s.runs t pc
    objects := Function.update s.objects t o
    names := Function.update s.names t name }

/-- `start` locks `m_mutex`, and has to do something. -/
def start (a : Fin c) : Option (Threads c) :=
  if s.calls a = .idle ∧ s.mutex = none then
    some (if !s.stopping then s
      else
        { s.setCall a (.starting 0) with
          mutex := some a
          stopping := false
          misuse := s.misuse || !s.threads.isEmpty
          threads := resize s.threads cfg.threadCount })
  else none

/-- The constructor of the next `Thread`, which throws out of `start` when there is no thread. -/
def create (a : Fin c) (created : Bool) : Option (Threads c) :=
  match s.calls a with
  | .starting i =>
    if i < cfg.threadCount then
      match created with
      | true =>
        some { s.setCall a (.waiting i s.count) with
          objects := Function.update s.objects s.count (.new (cfg.threadName i))
          runs := Function.update s.runs s.count .entered
          count := s.count + 1 }
      | false => some { s.setCall a .idle with mutex := none }
    else none
  | _ => none

/-- The constructor comes behind `m_semaphore.wait()`, and `start` keeps the object and its `getId()`. -/
def record (a : Fin c) : Option (Threads c) :=
  match s.calls a with
  | .waiting i t =>
    if 0 < (s.objects t).semaphore then
      some { s.setCall a (.starting (i + 1)) with
        objects := Function.update s.objects t { s.objects t with semaphore := (s.objects t).semaphore - 1 }
        threads := s.threads.set i (some t)
        threadIds := s.threadIds ++ [(s.objects t).id] }
    else none
  | _ => none

/-- `start` returns. -/
def leave (a : Fin c) : Option (Threads c) :=
  match s.calls a with
  | .starting i => if i < cfg.threadCount then none else some { s.setCall a .idle with mutex := none }
  | _ => none

/-- `stop` sets `m_stopping`. It is over with that (`early`) when the only thread is the one of the caller, the root
fiber is in `INIT` or `TERM`, and `stopping()` is true. -/
def stop (a : Fin c) (early : Bool) : Option (Threads c) :=
  if s.calls a = .idle then
    if early then
      if cfg.rootThread.isSome ∧ cfg.threadCount = 0 ∧ s.mutex = none then some { s with stopping := true } else none
    else some { s.setCall a .flagged with stopping := true }
  else none

/-- `thrs.swap(m_threads)`. -/
def swap (a : Fin c) : Option (Threads c) :=
  match s.calls a with
  | .flagged => if s.mutex = none then some { s.setCall a (.joining s.threads 0) with threads := [] } else none
  | _ => none

/-- The next `join`, which waits for the end of the thread when it was not joined before, or the end of `stop`. -/
def join (a : Fin c) : Option (Threads c) :=
  match s.calls a with
  | .joining thrs k =>
    match thrs[k]? with
    | none => some (s.setCall a .idle)
    | some none => some { s with misuse := true }
    | some (some t) =>
      if (s.objects t).thread = true then
        if s.runs t = .ended then
          some { s.setCall a (.joining thrs (k + 1)) with
            objects := Function.update s.objects t { s.objects t with thread := false } }
        else none
      else some (s.setCall a (.joining thrs (k + 1)))
  | _ => none

/-- The next line of `Thread::run`. -/
def run (t : Nat) : Option (Threads c) :=
  let o := s.objects t
  match s.runs t with
  | .absent | .ended => none
  | .entered => some ((s.touch t).proceed t .named o o.name)
  | .named => some ((s.touch t).proceed t .identified { o with id := cfg.tid t } (s.names t))
  | .identified => some ((s.touch t).proceed t .swapped { o with cb := false } (s.names t))
  | .swapped => some ((s.touch t).proceed t .notified { o with semaphore := o.semaphore + 1 } (s.names t))
  -- `Scheduler::run` comes to its end through `m_mutex`
  | .notified => if s.mutex = none then some (s.proceed t .ended o (s.names t)) else none

/-- One step. -/
def step : ThreadOp c → Option (Threads c)
  | .start a => s.start cfg a
  | .create a created => s.create cfg a created
  | .record a => s.record a
  | .leave a => s.leave cfg a
  | .stop a early => s.stop cfg a early
  | .swap a => s.swap a
  | .join a => s.join a
  | .run t => s.run cfg t

/-- `start` is not called between the two halves of a `stop`, and gets its threads. -/
def Apart : ThreadOp c → Prop
  | .start _ => ∀ b, s.calls b ≠ .flagged
  | .create _ created => created = true
  | _ => True

instance : DecidablePred s.Apart
  | .start _ => inferInstanceAs (Decidable (∀ b, s.calls b ≠ .flagged))
  | .create _ _ => inferInstanceAs (Decidable (_ = _))
  | .record _ | .leave _ | .stop _ _ | .swap _ | .join _ | .run _ => inferInstanceAs (Decidable True)

end Threads

/-- A scheduler with its threads, and `c` callers of `start` and `stop`. -/
def threadSys (cfg : ThreadSettings) (c : Nat) : Transition.Sys (Threads c) (ThreadOp c) where
  init s := s = .new cfg
  step := Threads.step cfg

/-- The caller is to record this thread, or to join it. -/
def CallPc.owns (t : Nat) : CallPc → Prop
  | .waiting _ t' => t' = t
  | .joining thrs k => some t ∈ thrs.drop k
  | .idle | .starting _ | .flagged => False

namespace Threads

variable {c : Nat} {cfg : ThreadSettings} {s s' : Threads c} {a b : Fin c} {i n t : Nat} {pc : CallPc}

/-! ## The invariant -/

/-- A thread, as far as it has got. -/
structure Goes (cfg : ThreadSettings) (s : Threads c) (t : Nat) : Prop where
  entered : 1 ≤ (s.runs t).stage
  named : 2 ≤ (s.runs t).stage → s.names t = (s.objects t).name
  identified : 3 ≤ (s.runs t).stage → (s.objects t).id = cfg.tid t
  swapped : 4 ≤ (s.runs t).stage → (s.objects t).cb = false

/-- The first `n` threads are through with their constructors. -/
structure Recorded (cfg : ThreadSettings) (s : Threads c) (n : Nat) : Prop where
  ids : s.threadIds = cfg.rootIds ++ (List.range n).map cfg.tid
  notified : ∀ t < n, 5 ≤ (s.runs t).stage

/-- `m_threads` has the last `i` of `n` threads, and place for more. -/
structure Filled (cfg : ThreadSettings) (s : Threads c) (n i : Nat) : Prop where
  le : i ≤ n
  threads : s.threads = (List.range' (n - i) i).map some ++ List.replicate (cfg.threadCount - i) none

/-- What is true where a caller is. -/
def CallOk (cfg : ThreadSettings) (s : Threads c) : CallPc → Prop
  | .idle => True
  | .starting i => i ≤ cfg.threadCount ∧ s.Recorded cfg s.count ∧ s.Filled cfg s.count i
  | .waiting i t => i < cfg.threadCount ∧ t + 1 = s.count ∧ s.Recorded cfg t ∧ s.Filled cfg t i ∧
      (s.objects t).name = cfg.threadName i ∧ (s.objects t).semaphore = if 5 ≤ (s.runs t).stage then 1 else 0
  | .flagged => s.stopping = true
  | .joining thrs _ => none ∉ thrs

/-- A caller is to record the thread, or to join it, or it is for the next `stop` to join. -/
def Owned (s : Threads c) (t : Nat) : Prop := some t ∈ s.threads ∨ ∃ a, (s.calls a).owns t

/-- A scheduler between the steps of its callers and threads. -/
structure Inv (cfg : ThreadSettings) (s : Threads c) : Prop where
  holder : ∀ a, (s.calls a).locks = true ↔ s.mutex = some a
  calls : ∀ a, s.CallOk cfg (s.calls a)
  sound : s.misuse = false
  goes : ∀ t < s.count, s.Goes cfg t
  fresh : ∀ t, s.count ≤ t → s.runs t = .absent
  known : ∀ t, some t ∈ s.threads → t < s.count
  names : ∀ i t, s.threads[i]? = some (some t) → (s.objects t).name = cfg.threadName i
  free : s.mutex = none → s.Recorded cfg s.count ∧ (s.threads = [] ∨ s.Filled cfg s.count cfg.threadCount)
  serving : s.mutex = none → s.stopping = false → s.Filled cfg s.count cfg.threadCount
  stopped : s.stopping = true → s.threads = [] ∨ ∃ a, s.calls a = .flagged
  owned : ∀ t < s.count, (s.objects t).thread = true → s.Owned t
  joined : ∀ t < s.count, (s.objects t).thread = false → s.runs t = .ended

theorem inv_new (cfg : ThreadSettings) : (new cfg : Threads c).Inv cfg where
  holder _ := ⟨nofun, nofun⟩
  calls _ := trivial
  sound := rfl
  goes _ h := absurd h (Nat.not_lt_zero _)
  fresh _ _ := rfl
  known _ h := absurd h List.not_mem_nil
  names _ _ h := nomatch h
  free _ := ⟨⟨(List.append_nil _).symm, fun _ h => absurd h (Nat.not_lt_zero _)⟩, .inl rfl⟩
  serving _ := nofun
  stopped _ := .inl rfl
  owned _ h := absurd h (Nat.not_lt_zero _)
  joined _ h := absurd h (Nat.not_lt_zero _)

/-! ## What the callers keep -/

theorem Filled.empty (h : s.Filled cfg n i) (hN : cfg.threadCount = 0) (hi : i = 0) : s.threads = [] := by
  rw [h.threads, hN, hi]
  rfl

theorem not_none_of_filled (h : s.Filled cfg n cfg.threadCount) : none ∉ s.threads := by
  rw [h.threads, Nat.sub_self]
  simp

/-- A caller that is elsewhere without the lock is where it was. -/
theorem CallOk.of_unlocked (h : s.CallOk cfg pc) (hl : pc.locks = false)
    (hstop : pc = .flagged → s'.stopping = true) : s'.CallOk cfg pc := by
  cases pc with
  | idle => trivial
  | starting i => cases hl
  | waiting i t => cases hl
  | flagged => exact hstop rfl
  | joining thrs k => exact h

theorem Goes.of_same (h : s.Goes cfg t) (hruns : s'.runs t = s.runs t) (hnames : s'.names t = s.names t)
    (hname : (s'.objects t).name = (s.objects t).name) (hid : (s'.objects t).id = (s.objects t).id)
    (hcb : (s'.objects t).cb = (s.objects t).cb) : s'.Goes cfg t := by
  constructor
  · rw [hruns]
    exact h.entered
  · rw [hruns, hnames, hname]
    exact h.named
  · rw [hruns, hid]
    exact h.identified
  · rw [hruns, hcb]
    exact h.swapped

theorem goes_entered (h : s.runs t = .entered) : s.Goes cfg t := by
  constructor <;> rw [h] <;> first | exact Nat.le_refl _ | exact fun hle => absurd hle (by decide)

/-- A part of an object that a write keeps. -/
theorem update_part {A : Type*} (f : ThreadObject → A) {g : Nat → ThreadObject} {o : ThreadObject} (u : Nat)
    (h : f o = f (g t)) : f (Function.update g t o u) = f (g u) := by
  by_cases hut : u = t
  · rw [hut, Function.update_self]
    exact h
  · rw [Function.update_of_ne hut]

/-- The lists are as they were, and the threads at least as far. -/
theorem Recorded.of_same (h : s.Recorded cfg n) (hids : s'.threadIds = s.threadIds)
    (hstage : ∀ t < n, (s.runs t).stage ≤ (s'.runs t).stage) : s'.Recorded cfg n :=
  ⟨hids.trans h.ids, fun t ht => Nat.le_trans (h.notified t ht) (hstage t ht)⟩

theorem Filled.of_same (h : s.Filled cfg n i) (hthreads : s'.threads = s.threads) : s'.Filled cfg n i :=
  ⟨h.le, hthreads.trans h.threads⟩

theorem Inv.unlocked (h : s.Inv cfg) (hm : s.mutex = none) (a : Fin c) : (s.calls a).locks = false := by
  cases hl : (s.calls a).locks with
  | false => rfl
  | true => exact nomatch hm.symm.trans ((h.holder a).mp hl)

/-- A caller that is at `stop` has set `m_stopping`. -/
theorem Inv.flagged (h : s.Inv cfg) (hb : s.calls b = .flagged) : s.stopping = true := by
  have hok := h.calls b
  rw [hb] at hok
  exact hok

/-- Nobody but the holder has the lock. -/
theorem Inv.others_unlocked (h : s.Inv cfg) (hm : s.mutex = some a) (hb : b ≠ a) : (s.calls b).locks = false := by
  cases hl : (s.calls b).locks with
  | false => rfl
  | true => exact absurd (Option.some.inj (((h.holder b).mp hl).symm.trans hm)) hb

theorem Inv.locked (h : s.Inv cfg) (ha : s.calls a = pc) (hl : pc.locks = true) : s.mutex = some a :=
  (h.holder a).mp (ha ▸ hl)

/-- A caller goes on with the lock, or without it. -/
theorem Inv.holder_keep (h : s.Inv cfg) (hl : pc.locks = (s.calls a).locks) (b : Fin c) :
    (Function.update s.calls a pc b).locks = true ↔ s.mutex = some b := by
  by_cases hba : b = a
  · subst hba
    rw [Function.update_self, hl]
    exact h.holder b
  · rw [Function.update_of_ne hba]
    exact h.holder b

theorem Inv.holder_take (h : s.Inv cfg) (hm : s.mutex = none) (hl : pc.locks = true) (b : Fin c) :
    (Function.update s.calls a pc b).locks = true ↔ some a = some b := by
  by_cases hba : b = a
  · subst hba
    rw [Function.update_self]
    exact ⟨fun _ => rfl, fun _ => hl⟩
  · rw [Function.update_of_ne hba, h.unlocked hm b]
    exact ⟨nofun, fun he => absurd (Option.some.inj he).symm hba⟩

theorem Inv.holder_give (h : s.Inv cfg) (hm : s.mutex = some a) (hl : pc.locks = false) (b : Fin c) :
    (Function.update s.calls a pc b).locks = true ↔ none = some b := by
  refine ⟨fun hlocks => ?_, nofun⟩
  by_cases hba : b = a
  · rw [hba, Function.update_self, hl] at hlocks
    cases hlocks
  · rw [Function.update_of_ne hba, h.others_unlocked hm hba] at hlocks
    cases hlocks

/-- What is true where each caller is, when one goes on. -/
theorem forall_callOk (hcalls : s'.calls = Function.update s.calls a pc) (ha : s'.CallOk cfg pc)
    (hb : ∀ b, b ≠ a → s'.CallOk cfg (s.calls b)) (b : Fin c) : s'.CallOk cfg (s'.calls b) := by
  rw [hcalls]
  by_cases hba : b = a
  · subst hba
    rw [Function.update_self]
    exact ha
  · rw [Function.update_of_ne hba]
    exact hb b hba

/-- A caller that is at `stop` and does not go on is still there. -/
theorem flagged_other (hb : s.calls b = .flagged) (ha : s.calls a ≠ .flagged) :
    Function.update s.calls a pc b = .flagged := by
  have hba : b ≠ a := fun he => ha (he ▸ hb)
  rw [Function.update_of_ne hba, hb]

/-- A thread is still to be recorded or joined, when one caller goes on. -/
theorem Owned.move (h : s.Owned t) (hcalls : s'.calls = Function.update s.calls a pc)
    (hthreads : some t ∈ s.threads → s'.Owned t) (ha : (s.calls a).owns t → s'.Owned t) : s'.Owned t := by
  rcases h with hmem | ⟨b, hb⟩
  · exact hthreads hmem
  · by_cases hba : b = a
    · exact ha (hba ▸ hb)
    · refine .inr ⟨b, ?_⟩
      rw [hcalls, Function.update_of_ne hba]
      exact hb

theorem owned_self (hcalls : s'.calls = Function.update s.calls a pc) (h : pc.owns t) : s'.Owned t := by
  refine .inr ⟨a, ?_⟩
  rw [hcalls, Function.update_self]
  exact h

theorem not_mem_replicate : some t ∉ List.replicate n none := by simp

/-- A name that `start` makes is not empty. -/
theorem new_name (cfg : ThreadSettings) (i : Nat) : (ThreadObject.new (cfg.threadName i)).name = cfg.threadName i := by
  refine if_neg fun hempty => ?_
  simp [ThreadSettings.threadName, String.isEmpty_iff] at hempty

theorem resize_nil (n : Nat) : resize [] n = List.replicate n none := by simp [resize]

theorem Inv.start (h : s.Inv cfg) (hok : s.Apart (.start a)) (hst : s.start cfg a = some s') : s'.Inv cfg := by
  obtain ⟨⟨hidle, hm⟩, he⟩ := Option.ite_none_right_eq_some.mp hst
  obtain rfl := Option.some.inj he
  split
  · exact h
  · rename_i hstop
    have hempty : s.threads = [] := (h.stopped (by simpa using hstop)).resolve_right fun ⟨b, hb⟩ => hok b hb
    rw [hempty, resize_nil]
    constructor
    · exact h.holder_take hm rfl
    · refine forall_callOk rfl ⟨Nat.zero_le _, (h.free hm).1.of_same rfl fun _ _ => Nat.le_refl _, Nat.zero_le _, rfl⟩
        fun b _ => (h.calls b).of_unlocked (h.unlocked hm b) fun hb => absurd hb (hok b)
    · simp [h.sound]
    · exact fun t ht => (h.goes t ht).of_same rfl rfl rfl rfl rfl
    · exact h.fresh
    · exact fun t ht => absurd ht not_mem_replicate
    · exact fun k t hk => absurd (List.mem_of_getElem? hk) not_mem_replicate
    · exact nofun
    · exact nofun
    · exact nofun
    · intro t ht hthread
      refine (h.owned t ht hthread).move rfl (fun hmem => ?_) fun hown => ?_
      · rw [hempty] at hmem
        cases hmem
      · rw [hidle] at hown
        exact hown.elim
    · exact h.joined

theorem Inv.create (h : s.Inv cfg) (hst : s.create cfg a true = some s') : s'.Inv cfg := by
  unfold Threads.create at hst
  split at hst
  · rename_i i ha
    obtain ⟨hi, he⟩ := Option.ite_none_right_eq_some.mp hst
    obtain rfl := Option.some.inj he
    have hm : s.mutex = some a := h.locked ha rfl
    obtain ⟨-, hrec, hfill⟩ : s.CallOk cfg (.starting i) := ha ▸ h.calls a
    have hsame : ∀ t < s.count, Function.update s.runs s.count .entered t = s.runs t ∧
        Function.update s.objects s.count (.new (cfg.threadName i)) t = s.objects t := fun t ht =>
      ⟨Function.update_of_ne (Nat.ne_of_lt ht) .., Function.update_of_ne (Nat.ne_of_lt ht) ..⟩
    have hself : Function.update s.runs s.count .entered s.count = .entered ∧
        Function.update s.objects s.count (.new (cfg.threadName i)) s.count = .new (cfg.threadName i) :=
      ⟨Function.update_self .., Function.update_self ..⟩
    have hnew : ∀ t, t < s.count + 1 → t < s.count ∨ t = s.count := fun t => Nat.lt_succ_iff_lt_or_eq.mp
    constructor
    · exact h.holder_keep (by rw [ha]; rfl)
    · refine forall_callOk rfl ⟨hi, rfl, hrec.of_same rfl fun t ht => ?_, hfill.of_same rfl, ?_, ?_⟩ fun b hb => ?_
      · exact Nat.le_of_eq (congrArg RunPc.stage (hsame t ht).1.symm)
      · exact (congrArg ThreadObject.name hself.2).trans (new_name cfg i)
      · refine (congrArg ThreadObject.semaphore hself.2).trans (if_neg ?_).symm
        exact fun hle => absurd (hle.trans_eq (congrArg RunPc.stage hself.1)) (by decide)
      · exact (h.calls b).of_unlocked (h.others_unlocked hm hb) h.flagged
    · exact h.sound
    · intro t ht
      rcases hnew t ht with hlt | rfl
      · have ho := (hsame t hlt).2
        exact (h.goes t hlt).of_same (hsame t hlt).1 rfl (congrArg _ ho) (congrArg _ ho) (congrArg _ ho)
      · exact goes_entered hself.1
    · intro t ht
      exact (Function.update_of_ne (Nat.ne_of_gt ht) ..).trans (h.fresh t (Nat.le_of_succ_le ht))
    · exact fun t ht => Nat.lt_succ_of_lt (h.known t ht)
    · intro k t hk
      have hlt := h.known t (List.mem_of_getElem? hk)
      exact (congrArg ThreadObject.name (hsame t hlt).2).trans (h.names k t hk)
    · exact fun hnone => nomatch hm.symm.trans hnone
    · exact fun hnone => nomatch hm.symm.trans hnone
    · exact fun hstop => (h.stopped hstop).imp_right fun ⟨b, hb⟩ => ⟨b, flagged_other hb (by rw [ha]; nofun)⟩
    · intro t ht hthread
      rcases hnew t ht with hlt | rfl
      · have hown := h.owned t hlt ((congrArg ThreadObject.thread (hsame t hlt).2).symm.trans hthread)
        exact hown.move rfl .inl fun ha' => by rw [ha] at ha'; exact ha'.elim
      · exact owned_self rfl rfl
    · intro t ht hthread
      rcases hnew t ht with hlt | rfl
      · exact (hsame t hlt).1.trans (h.joined t hlt ((congrArg ThreadObject.thread (hsame t hlt).2).symm.trans hthread))
      · exact nomatch (congrArg ThreadObject.thread hself.2).symm.trans hthread
  · cases hst

/-- The thread that a caller waits for is the last one, and what `m_threads` is when it is recorded. -/
theorem Filled.record (h : s.Filled cfg t i) (hi : i < cfg.threadCount)
    (hthreads : s'.threads = s.threads.set i (some t)) : s'.Filled cfg (t + 1) (i + 1) := by
  refine ⟨Nat.succ_le_succ h.le, ?_⟩
  obtain ⟨m, hm⟩ : ∃ m, cfg.threadCount - i = m + 1 := ⟨cfg.threadCount - i - 1, by omega⟩
  have hm' : cfg.threadCount - (i + 1) = m := by omega
  have hlast : t - i + i = t := Nat.sub_add_cancel h.le
  have hlen : ((List.range' (t - i) i).map some).length = i := by simp
  rw [hthreads, h.threads, hm, hm', Nat.succ_sub_succ, List.replicate_succ, List.range'_concat, List.map_append,
    List.set_append_right _ _ (Nat.le_of_eq hlen), hlen]
  simp [hlast]

theorem Filled.lt_length (h : s.Filled cfg t i) (hi : i < cfg.threadCount) : i < s.threads.length := by
  rw [h.threads]
  simp
  omega

theorem Filled.get_none (h : s.Filled cfg t i) (hi : i < cfg.threadCount) : s.threads[i]? = some none := by
  rw [h.threads, List.getElem?_append_right (by simp), List.getElem?_replicate_of_lt (by simp; omega)]

/-- What is written in an empty place drops nothing. -/
theorem mem_set_of_none {l : List (Option Nat)} {o : Option Nat} (hl : l[i]? = some none) (h : some t ∈ l) :
    some t ∈ l.set i o := by
  obtain ⟨k, hk⟩ := List.mem_iff_getElem?.mp h
  have hki : i ≠ k := fun he => by
    subst he
    exact nomatch Option.some.inj (hl.symm.trans hk)
  exact List.mem_of_getElem? ((List.getElem?_set_ne hki).trans hk)

theorem Inv.record (h : s.Inv cfg) (hst : s.record a = some s') : s'.Inv cfg := by
  unfold Threads.record at hst
  split at hst
  · rename_i i t ha
    obtain ⟨hsem, he⟩ := Option.ite_none_right_eq_some.mp hst
    obtain rfl := Option.some.inj he
    have hm : s.mutex = some a := h.locked ha rfl
    obtain ⟨hi, ht, hrec, hfill, hname, hval⟩ : s.CallOk cfg (.waiting i t) := ha ▸ h.calls a
    have hstage : 5 ≤ (s.runs t).stage := by
      by_contra hlt
      rw [hval, if_neg hlt] at hsem
      cases hsem
    have hlast : t < s.count := by omega
    have hlen : i < s.threads.length := hfill.lt_length hi
    have hids : s.threadIds ++ [(s.objects t).id] = cfg.rootIds ++ (List.range s.count).map cfg.tid := by
      rw [hrec.ids, ← ht, List.range_succ, List.map_append, List.append_assoc, (h.goes t hlast).identified (by omega)]
      rfl
    have hpart : ∀ {A : Type} (f : ThreadObject → A) (u : Nat),
        f { s.objects t with semaphore := (s.objects t).semaphore - 1 } = f (s.objects t) →
        f (Function.update s.objects t { s.objects t with semaphore := (s.objects t).semaphore - 1 } u) =
          f (s.objects u) := fun f u hf => update_part f u hf
    constructor
    · exact h.holder_keep (by rw [ha]; rfl)
    · refine forall_callOk rfl ⟨hi, ⟨?_, fun u hu => ?_⟩, ?_⟩ fun b hb => ?_
      · exact hids
      · rcases Nat.lt_succ_iff_lt_or_eq.mp (ht ▸ hu) with hlt | rfl
        · exact hrec.notified u hlt
        · exact hstage
      · exact ht ▸ hfill.record hi rfl
      · exact (h.calls b).of_unlocked (h.others_unlocked hm hb) h.flagged
    · exact h.sound
    · exact fun u hu => (h.goes u hu).of_same rfl rfl (hpart _ u rfl) (hpart _ u rfl) (hpart _ u rfl)
    · exact h.fresh
    · intro u hu
      rcases List.mem_or_eq_of_mem_set hu with hold | he
      · exact h.known u hold
      · obtain rfl := Option.some.inj he
        exact hlast
    · intro k u hk
      refine (hpart _ u rfl).trans ?_
      by_cases hki : k = i
      · subst hki
        obtain rfl : t = u := Option.some.inj (Option.some.inj ((List.getElem?_set_self hlen).symm.trans hk))
        exact hname
      · exact h.names k u ((List.getElem?_set_ne (Ne.symm hki)).symm.trans hk)
    · exact fun hnone => nomatch hm.symm.trans hnone
    · exact fun hnone => nomatch hm.symm.trans hnone
    · exact fun hstop => (h.stopped hstop).imp (fun hnil => by rw [hnil]; rfl)
        fun ⟨b, hb⟩ => ⟨b, flagged_other hb (by rw [ha]; nofun)⟩
    · intro u hu hthread
      refine (h.owned u hu ((hpart _ u rfl).symm.trans hthread)).move rfl (fun hmem => .inl ?_) fun hown => .inl ?_
      · exact mem_set_of_none (hfill.get_none hi) hmem
      · rw [ha] at hown
        obtain rfl : t = u := hown
        exact List.mem_set hlen (some t)
    · intro u hu hthread
      exact h.joined u hu ((hpart _ u rfl).symm.trans hthread)
  · cases hst

theorem Inv.leave (h : s.Inv cfg) (hst : s.leave cfg a = some s') : s'.Inv cfg := by
  unfold Threads.leave at hst
  split at hst
  · rename_i i ha
    split at hst
    · cases hst
    · rename_i hle
      obtain rfl := Option.some.inj hst
      have hm : s.mutex = some a := h.locked ha rfl
      obtain ⟨hi, hrec, hfill⟩ : s.CallOk cfg (.starting i) := ha ▸ h.calls a
      obtain rfl : i = cfg.threadCount := by omega
      refine { h with
        holder := h.holder_give hm rfl
        calls := forall_callOk rfl trivial fun b hb =>
          (h.calls b).of_unlocked (h.others_unlocked hm hb) h.flagged
        goes := fun t ht => (h.goes t ht).of_same rfl rfl rfl rfl rfl
        free := fun _ => ⟨hrec.of_same rfl fun _ _ => Nat.le_refl _, .inr (hfill.of_same rfl)⟩
        serving := fun _ _ => hfill.of_same rfl
        stopped := fun hstop => (h.stopped hstop).imp_right fun ⟨b, hb⟩ =>
          ⟨b, flagged_other hb (by rw [ha]; nofun)⟩
        owned := fun t ht hthread => (h.owned t ht hthread).move rfl .inl fun hown => ?_ }
      rw [ha] at hown
      exact hown.elim
  · cases hst

/-- A caller is where it was, while others do what needs no lock. -/
theorem CallOk.of_same (h : s.CallOk cfg pc) (hcount : s'.count = s.count) (hthreads : s'.threads = s.threads)
    (hids : s'.threadIds = s.threadIds) (hstage : ∀ t, (s.runs t).stage ≤ (s'.runs t).stage)
    (hname : ∀ t, (s'.objects t).name = (s.objects t).name)
    (hsem : ∀ i t, pc = .waiting i t → (s'.objects t).semaphore = if 5 ≤ (s'.runs t).stage then 1 else 0)
    (hstop : s.stopping = true → s'.stopping = true) : s'.CallOk cfg pc := by
  cases pc with
  | idle => trivial
  | starting i =>
    obtain ⟨hi, hrec, hfill⟩ := h
    rw [← hcount] at hrec hfill
    exact ⟨hi, hrec.of_same hids fun t _ => hstage t, hfill.of_same hthreads⟩
  | waiting i t =>
    obtain ⟨hi, ht, hrec, hfill, hn, -⟩ := h
    exact ⟨hi, ht.trans hcount.symm, hrec.of_same hids fun t _ => hstage t, hfill.of_same hthreads,
      (hname t).trans hn, hsem i t rfl⟩
  | flagged => exact hstop h
  | joining thrs k => exact h

theorem Inv.semaphore (h : s.Inv cfg) (ha : s.calls a = .waiting i t) :
    (s.objects t).semaphore = if 5 ≤ (s.runs t).stage then 1 else 0 := by
  obtain ⟨-, -, -, -, -, hsem⟩ : s.CallOk cfg (.waiting i t) := ha ▸ h.calls a
  exact hsem

/-- `m_stopping` is set. -/
theorem Inv.setStopping (h : s.Inv cfg) (hleft : s.threads = [] ∨ ∃ a, s.calls a = .flagged) :
    ({ s with stopping := true } : Threads c).Inv cfg :=
  { h with
    calls := fun b => (h.calls b).of_same rfl rfl rfl (fun _ => Nat.le_refl _) (fun _ => rfl)
      (fun _ _ hb => h.semaphore hb) fun _ => rfl
    goes := fun t ht => (h.goes t ht).of_same rfl rfl rfl rfl rfl
    free := fun hm => ⟨(h.free hm).1.of_same rfl fun _ _ => Nat.le_refl _, (h.free hm).2.imp_right (·.of_same rfl)⟩
    serving := fun _ => nofun
    stopped := fun _ => hleft }

theorem Inv.stop {early : Bool} (h : s.Inv cfg) (hst : s.stop cfg a early = some s') : s'.Inv cfg := by
  obtain ⟨hidle, he⟩ := Option.ite_none_right_eq_some.mp hst
  cases early with
  | true =>
    obtain ⟨⟨-, hN, hm⟩, he⟩ := Option.ite_none_right_eq_some.mp he
    obtain rfl := Option.some.inj he
    exact h.setStopping (.inl ((h.free hm).2.elim id fun hfill => hfill.empty hN hN))
  | false =>
    obtain rfl := Option.some.inj he
    refine { h with
      holder := h.holder_keep (by rw [hidle]; rfl)
      calls := forall_callOk rfl rfl fun b _ => (h.calls b).of_same rfl rfl rfl (fun _ => Nat.le_refl _)
        (fun _ => rfl) (fun _ _ hb => h.semaphore hb) fun _ => rfl
      goes := fun t ht => (h.goes t ht).of_same rfl rfl rfl rfl rfl
      free := fun hm => ⟨(h.free hm).1.of_same rfl fun _ _ => Nat.le_refl _, (h.free hm).2.imp_right (·.of_same rfl)⟩
      serving := fun _ => nofun
      stopped := fun _ => .inr ⟨a, Function.update_self ..⟩
      owned := fun t ht hthread => (h.owned t ht hthread).move rfl .inl fun hown => ?_ }
    rw [hidle] at hown
    exact hown.elim

theorem Inv.swap (h : s.Inv cfg) (hst : s.swap a = some s') : s'.Inv cfg := by
  unfold Threads.swap at hst
  split at hst
  · rename_i ha
    obtain ⟨hm, he⟩ := Option.ite_none_right_eq_some.mp hst
    obtain rfl := Option.some.inj he
    have hstop := h.flagged ha
    have hnone : none ∉ s.threads := by
      rcases (h.free hm).2 with hnil | hfill
      · rw [hnil]
        exact List.not_mem_nil
      · exact not_none_of_filled hfill
    refine { h with
      holder := h.holder_keep (by rw [ha]; rfl)
      calls := forall_callOk rfl hnone fun b _ => (h.calls b).of_unlocked (h.unlocked hm b) h.flagged
      goes := fun t ht => (h.goes t ht).of_same rfl rfl rfl rfl rfl
      known := fun _ ht => absurd ht List.not_mem_nil
      names := fun _ _ hk => nomatch hk
      free := fun _ => ⟨(h.free hm).1.of_same rfl fun _ _ => Nat.le_refl _, .inl rfl⟩
      serving := fun _ hrun => nomatch hstop.symm.trans hrun
      stopped := fun _ => .inl rfl
      owned := fun t ht hthread => (h.owned t ht hthread).move rfl (fun hmem => owned_self rfl hmem) fun hown => ?_ }
    rw [ha] at hown
    exact hown.elim
  · cases hst

/-- In the loop of `join`, or behind it. -/
theorem Inv.past (h : s.Inv cfg) {thrs : List (Option Nat)} {k : Nat} (ha : s.calls a = .joining thrs k)
    (hl : pc.locks = false) (hpc : s.CallOk cfg pc)
    (howns : ∀ t, (s.objects t).thread = true → some t ∈ thrs.drop k → pc.owns t) : (s.setCall a pc).Inv cfg := by
  refine { h with
    holder := h.holder_keep (by rw [ha, hl]; rfl)
    calls := forall_callOk rfl ?_ fun b _ => ?_
    goes := fun t ht => (h.goes t ht).of_same rfl rfl rfl rfl rfl
    free := fun hm => ⟨(h.free hm).1.of_same rfl fun _ _ => Nat.le_refl _, (h.free hm).2.imp_right (·.of_same rfl)⟩
    serving := fun hm hrun => (h.serving hm hrun).of_same rfl
    stopped := fun hstop => (h.stopped hstop).imp_right fun ⟨b, hb⟩ => ⟨b, flagged_other hb (by rw [ha]; nofun)⟩
    owned := fun t ht hthread => (h.owned t ht hthread).move rfl .inl fun hown => owned_self rfl (howns t hthread ?_) }
  · exact hpc.of_unlocked hl fun he => by rw [he] at hpc; exact hpc
  · exact (h.calls b).of_same rfl rfl rfl (fun _ => Nat.le_refl _) (fun _ => rfl) (fun _ _ hb => h.semaphore hb) id
  · rw [ha] at hown
    exact hown

/-- A thread that has ended was joined. -/
theorem Inv.setJoined (h : s.Inv cfg) (hended : s.runs t = .ended) :
    ({ s with objects := Function.update s.objects t { s.objects t with thread := false } } : Threads c).Inv cfg := by
  have hpart : ∀ {A : Type} (f : ThreadObject → A) (u : Nat), f { s.objects t with thread := false } = f (s.objects t) →
      f (Function.update s.objects t { s.objects t with thread := false } u) = f (s.objects u) :=
    fun f u hf => update_part f u hf
  refine { h with
    calls := fun b => (h.calls b).of_same rfl rfl rfl (fun _ => Nat.le_refl _) (fun u => hpart _ u rfl)
      (fun _ u hb => (hpart _ u rfl).trans (h.semaphore hb)) id
    goes := fun u hu => (h.goes u hu).of_same rfl rfl (hpart _ u rfl) (hpart _ u rfl) (hpart _ u rfl)
    names := fun k u hk => (hpart _ u rfl).trans (h.names k u hk)
    free := fun hm => ⟨(h.free hm).1.of_same rfl fun _ _ => Nat.le_refl _, (h.free hm).2.imp_right (·.of_same rfl)⟩
    serving := fun hm hrun => (h.serving hm hrun).of_same rfl
    owned := fun u hu hthread => ?_
    joined := fun u hu hthread => ?_ }
  · by_cases hut : u = t
    · subst hut
      exact nomatch (congrArg ThreadObject.thread (Function.update_self ..)).symm.trans hthread
    · exact h.owned u hu ((congrArg ThreadObject.thread (Function.update_of_ne hut ..)).symm.trans hthread)
  · by_cases hut : u = t
    · exact hut ▸ hended
    · exact h.joined u hu ((congrArg ThreadObject.thread (Function.update_of_ne hut ..)).symm.trans hthread)

theorem Inv.join (h : s.Inv cfg) (hst : s.join a = some s') : s'.Inv cfg := by
  unfold Threads.join at hst
  split at hst
  · rename_i thrs k ha
    have hnone : none ∉ thrs := by
      have hok := h.calls a
      rw [ha] at hok
      exact hok
    split at hst
    · rename_i hk
      obtain rfl := Option.some.inj hst
      refine h.past ha rfl trivial fun t _ hmem => ?_
      rw [List.drop_eq_nil_of_le (List.getElem?_eq_none_iff.mp hk)] at hmem
      cases hmem
    · rename_i hk
      exact absurd (List.mem_of_getElem? hk) hnone
    · rename_i t hk
      obtain ⟨hlt, hget⟩ := List.getElem?_eq_some_iff.mp hk
      have hdrop : ∀ u, u ≠ t → some u ∈ thrs.drop k → some u ∈ thrs.drop (k + 1) := by
        intro u hut hmem
        rw [List.drop_eq_getElem_cons hlt, hget] at hmem
        exact (List.mem_cons.mp hmem).resolve_left fun he => hut (Option.some.inj he)
      split at hst
      · obtain ⟨hended, he⟩ := Option.ite_none_right_eq_some.mp hst
        obtain rfl := Option.some.inj he
        refine (h.setJoined hended).past ha rfl hnone fun u hthread => hdrop u ?_
        rintro rfl
        exact nomatch (congrArg ThreadObject.thread (Function.update_self ..)).symm.trans hthread
      · rename_i hthread
        obtain rfl := Option.some.inj hst
        exact h.past ha rfl hnone fun u hu => hdrop u fun he => hthread (he ▸ hu)
  · cases hst

/-! ## What the threads keep -/

theorem RunPc.eq_ended {pc : RunPc} (h : 6 ≤ pc.stage) : pc = .ended := by
  cases pc with
  | ended => rfl
  | _ => exact absurd h (by decide)

/-- A thread that has not said that it runs is waited for. -/
theorem Inv.waited (h : s.Inv cfg) (ht : t < s.count) (hstage : (s.runs t).stage < 5) :
    ∃ a i, s.calls a = .waiting i t := by
  have hnot : ∀ n, s.Recorded cfg n → n ≤ t := fun n hrec =>
    Nat.le_of_not_lt fun hlt => absurd (hrec.notified t hlt) (Nat.not_le_of_lt hstage)
  cases hm : s.mutex with
  | none => exact absurd (hnot _ (h.free hm).1) (Nat.not_le_of_lt ht)
  | some a =>
    have hok := h.calls a
    have hl := (h.holder a).mpr hm
    cases ha : s.calls a with
    | idle => rw [ha] at hl; cases hl
    | flagged => rw [ha] at hl; cases hl
    | joining thrs k => rw [ha] at hl; cases hl
    | starting i =>
      rw [ha] at hok
      exact absurd (hnot _ hok.2.1) (Nat.not_le_of_lt ht)
    | waiting i u =>
      rw [ha] at hok
      have hu := hnot _ hok.2.2.1
      have hcount := hok.2.1
      obtain rfl : u = t := by omega
      exact ⟨a, i, ha⟩

/-- The object of such a thread is there. -/
theorem Inv.refers (h : s.Inv cfg) (ht : t < s.count) (hstage : (s.runs t).stage < 5) : s.refers t = true := by
  obtain ⟨a, i, ha⟩ := h.waited ht hstage
  have hcaller : ∃ a, (s.calls a).refers t = true := ⟨a, by simp [ha, CallPc.refers]⟩
  simp [Threads.refers, hcaller]

theorem Inv.made (h : s.Inv cfg) (hrun : s.runs t ≠ .absent) : t < s.count :=
  Nat.lt_of_not_le fun hle => hrun (h.fresh t hle)

/-- A line of `run` finds its object. -/
theorem Inv.touch (h : s.Inv cfg) (ht : t < s.count) (hstage : (s.runs t).stage < 5) : s.touch t = s := by
  have hmisuse : (s.misuse || !s.refers t) = s.misuse := by rw [h.refers ht hstage, h.sound]; rfl
  unfold Threads.touch
  rw [hmisuse]

/-- A thread that goes on. -/
theorem Inv.proceed {pc : RunPc} {o : ThreadObject} {name : String} (h : s.Inv cfg) (ht : t < s.count)
    (hstage : (s.runs t).stage ≤ pc.stage) (hname : o.name = (s.objects t).name)
    (hthread : o.thread = (s.objects t).thread) (hgoes : (s.proceed t pc o name).Goes cfg t)
    (hsem : ∀ a i, s.calls a = .waiting i t → o.semaphore = if 5 ≤ pc.stage then 1 else 0) :
    (s.proceed t pc o name).Inv cfg := by
  have hstages : ∀ u, (s.runs u).stage ≤ (Function.update s.runs t pc u).stage := by
    intro u
    by_cases hut : u = t
    · rw [hut, Function.update_self]
      exact hstage
    · rw [Function.update_of_ne hut]
  have hnames : ∀ u, (Function.update s.objects t o u).name = (s.objects u).name := fun u => update_part _ u hname
  have hthreads : ∀ u, (Function.update s.objects t o u).thread = (s.objects u).thread := fun u =>
    update_part _ u hthread
  constructor
  · exact h.holder
  · refine fun a => (h.calls a).of_same rfl rfl rfl hstages hnames (fun i u ha => ?_) id
    by_cases hut : u = t
    · subst hut
      exact (congrArg ThreadObject.semaphore (Function.update_self ..)).trans
        ((hsem a i ha).trans (by rw [show (s.proceed u pc o name).runs u = pc from Function.update_self ..]))
    · refine (congrArg ThreadObject.semaphore (Function.update_of_ne hut ..)).trans ((h.semaphore ha).trans ?_)
      rw [show (s.proceed t pc o name).runs u = s.runs u from Function.update_of_ne hut ..]
  · exact h.sound
  · intro u hu
    by_cases hut : u = t
    · exact hut ▸ hgoes
    · have ho : (s.proceed t pc o name).objects u = s.objects u := Function.update_of_ne hut ..
      exact (h.goes u hu).of_same (Function.update_of_ne hut ..) (Function.update_of_ne hut ..) (by rw [ho])
        (by rw [ho]) (by rw [ho])
  · exact fun u hu => (Function.update_of_ne (Nat.ne_of_gt (Nat.lt_of_lt_of_le ht hu)) ..).trans (h.fresh u hu)
  · exact h.known
  · exact fun k u hk => (hnames u).trans (h.names k u hk)
  · exact fun hm => ⟨(h.free hm).1.of_same rfl fun u _ => hstages u, (h.free hm).2.imp_right (·.of_same rfl)⟩
  · exact fun hm hrun => (h.serving hm hrun).of_same rfl
  · exact h.stopped
  · exact fun u hu hthread => h.owned u hu ((hthreads u).symm.trans hthread)
  · intro u hu hthread
    have hended := h.joined u hu ((hthreads u).symm.trans hthread)
    exact RunPc.eq_ended (Nat.le_trans (by rw [hended]; decide) (hstages u))

theorem proceed_goes {pc : RunPc} {o : ThreadObject} {name : String} (hentered : 1 ≤ pc.stage)
    (hnamed : 2 ≤ pc.stage → name = o.name) (hidentified : 3 ≤ pc.stage → o.id = cfg.tid t)
    (hswapped : 4 ≤ pc.stage → o.cb = false) : (s.proceed t pc o name).Goes cfg t := by
  constructor
  all_goals simpa only [Threads.proceed, Function.update_self]

/-- Before `notify`, a thread has its object, whose `m_semaphore` is 0. -/
theorem Inv.early {pc : RunPc} (h : s.Inv cfg) (hpc : s.runs t = pc) (hne : pc ≠ .absent) (hlt : pc.stage < 5) :
    t < s.count ∧ s.touch t = s ∧ s.Goes cfg t ∧ ∀ a i, s.calls a = .waiting i t → (s.objects t).semaphore = 0 := by
  subst hpc
  have ht := h.made hne
  exact ⟨ht, h.touch ht hlt, h.goes t ht, fun a i ha => (h.semaphore ha).trans (if_neg (Nat.not_le_of_lt hlt))⟩

theorem Inv.run (h : s.Inv cfg) (hst : s.run cfg t = some s') : s'.Inv cfg := by
  unfold Threads.run at hst
  split at hst
  · cases hst
  · cases hst
  · rename_i hpc
    obtain ⟨ht, htouch, -, hsem⟩ := h.early hpc nofun (by decide)
    obtain rfl := Option.some.inj hst
    rw [htouch]
    exact h.proceed ht (by rw [hpc]; decide) rfl rfl
      (proceed_goes (by decide) (fun _ => rfl) (fun h => absurd h (by decide)) (fun h => absurd h (by decide)))
      fun a i ha => hsem a i ha
  · rename_i hpc
    obtain ⟨ht, htouch, hgoes, hsem⟩ := h.early hpc nofun (by decide)
    obtain rfl := Option.some.inj hst
    rw [htouch]
    exact h.proceed ht (by rw [hpc]; decide) rfl rfl
      (proceed_goes (by decide) (fun _ => hgoes.named (by rw [hpc]; decide)) (fun _ => rfl)
        (fun h => absurd h (by decide)))
      fun a i ha => hsem a i ha
  · rename_i hpc
    obtain ⟨ht, htouch, hgoes, hsem⟩ := h.early hpc nofun (by decide)
    obtain rfl := Option.some.inj hst
    rw [htouch]
    exact h.proceed ht (by rw [hpc]; decide) rfl rfl
      (proceed_goes (by decide) (fun _ => hgoes.named (by rw [hpc]; decide))
        (fun _ => hgoes.identified (by rw [hpc]; decide)) (fun _ => rfl))
      fun a i ha => hsem a i ha
  · rename_i hpc
    obtain ⟨ht, htouch, hgoes, hsem⟩ := h.early hpc nofun (by decide)
    obtain rfl := Option.some.inj hst
    rw [htouch]
    exact h.proceed ht (by rw [hpc]; decide) rfl rfl
      (proceed_goes (by decide) (fun _ => hgoes.named (by rw [hpc]; decide))
        (fun _ => hgoes.identified (by rw [hpc]; decide)) (fun _ => hgoes.swapped (by rw [hpc]; decide)))
      fun a i ha => congrArg (· + 1) (hsem a i ha)
  · rename_i hpc
    obtain ⟨hm, he⟩ := Option.ite_none_right_eq_some.mp hst
    obtain rfl := Option.some.inj he
    have ht := h.made (by rw [hpc]; nofun)
    have hgoes := h.goes t ht
    exact h.proceed ht (by rw [hpc]; decide) rfl rfl
      (proceed_goes (by decide) (fun _ => hgoes.named (by rw [hpc]; decide))
        (fun _ => hgoes.identified (by rw [hpc]; decide)) (fun _ => hgoes.swapped (by rw [hpc]; decide)))
      fun a i ha => (h.semaphore ha).trans (by rw [hpc]; rfl)

theorem inv_step (h : s.Inv cfg) {op : ThreadOp c} (hok : s.Apart op) (hst : s.step cfg op = some s') :
    s'.Inv cfg := by
  cases op with
  | start a => exact h.start hok hst
  | create a created =>
    obtain rfl : created = true := hok
    exact h.create hst
  | record a => exact h.record hst
  | leave a => exact h.leave hst
  | stop a early => exact h.stop hst
  | swap a => exact h.swap hst
  | join a => exact h.join hst
  | run t => exact h.run hst

theorem inv_reachable (h : (threadSys cfg c).ReachableWhen Apart s) : s.Inv cfg := by
  refine h.invariant (I := Inv cfg) ?_ fun s op s' hs hok hst => inv_step hs hok hst
  rintro _ rfl
  exact inv_new cfg

/-! ## `start` gets to its end -/

/-- A caller in `start` returns, if the others are not in its way. -/
def Returns (cfg : ThreadSettings) (s : Threads c) (a : Fin c) : Prop :=
  ∃ u, (threadSys cfg c).Steps Apart s u ∧ u.calls a = .idle ∧ u.mutex = none

theorem Returns.step (op : ThreadOp c) (h : s'.Returns cfg a) (hok : s.Apart op) (hst : s.step cfg op = some s') :
    s.Returns cfg a := by
  obtain ⟨u, hsteps, hu⟩ := h
  exact ⟨u, (Transition.Sys.Steps.tail op (.refl s) hok hst).trans hsteps, hu⟩

theorem run_enabled (cfg : ThreadSettings) (h : 1 ≤ (s.runs t).stage) (hlt : (s.runs t).stage < 5) :
    ∃ s', s.run cfg t = some s' ∧ s'.calls = s.calls ∧ (s'.runs t).stage = (s.runs t).stage + 1 := by
  have hself : ∀ (u : Threads c) (pc : RunPc) o name, ((u.proceed t pc o name).runs t).stage = pc.stage :=
    fun u pc o name => congrArg RunPc.stage (Function.update_self ..)
  unfold Threads.run
  cases hpc : s.runs t with
  | absent => rw [hpc] at h; exact absurd h (by decide)
  | entered => exact ⟨_, rfl, rfl, hself ..⟩
  | named => exact ⟨_, rfl, rfl, hself ..⟩
  | identified => exact ⟨_, rfl, rfl, hself ..⟩
  | swapped => exact ⟨_, rfl, rfl, hself ..⟩
  | notified => rw [hpc] at hlt; exact absurd hlt (by decide)
  | ended => rw [hpc] at hlt; exact absurd hlt (by decide)

/-- A thread that is waited for comes to `notify`. -/
theorem returns_run (h : ∀ s' : Threads c, s'.Inv cfg → s'.calls a = .waiting i t → 5 ≤ (s'.runs t).stage →
    s'.Returns cfg a) (hi : s.Inv cfg) (ha : s.calls a = .waiting i t) : s.Returns cfg a := by
  obtain ⟨-, hcount, -⟩ : s.CallOk cfg (.waiting i t) := ha ▸ hi.calls a
  have hentered := (hi.goes t (by omega)).entered
  obtain ⟨m, hm⟩ : ∃ m, 5 - (s.runs t).stage = m := ⟨_, rfl⟩
  -- on the lines that are left
  induction m generalizing s with
  | zero => exact h s hi ha (by omega)
  | succ m ih =>
    obtain ⟨s', hst, hcalls, hstage⟩ := run_enabled cfg hentered (by omega)
    have hi' : s'.Inv cfg := hi.run hst
    have ha' : s'.calls a = .waiting i t := by rw [hcalls, ha]
    obtain ⟨-, hcount', -⟩ : s'.CallOk cfg (.waiting i t) := ha' ▸ hi'.calls a
    exact (ih hi' ha' hcount' (by omega) (by omega)).step (.run t) trivial hst

/-- A caller that waits comes to its next thread. -/
theorem returns_waiting (h : ∀ s' : Threads c, s'.Inv cfg → s'.calls a = .starting (i + 1) → s'.Returns cfg a)
    (hi : s.Inv cfg) (ha : s.calls a = .waiting i t) : s.Returns cfg a := by
  refine returns_run (fun s₁ hi₁ ha₁ hstage => ?_) hi ha
  have hsem : 0 < (s₁.objects t).semaphore := by
    rw [hi₁.semaphore ha₁, if_pos hstage]
    decide
  obtain ⟨s₂, hst, ha₂⟩ : ∃ s₂, s₁.record a = some s₂ ∧ s₂.calls a = .starting (i + 1) := by
    rw [Threads.record, ha₁]
    exact ⟨_, if_pos hsem, Function.update_self ..⟩
  exact (h s₂ (hi₁.record hst) ha₂).step (.record a) trivial hst

/-- The loop of `start` ends. -/
theorem returns_starting (hi : s.Inv cfg) (ha : s.calls a = .starting i) : s.Returns cfg a := by
  obtain ⟨m, hm⟩ : ∃ m, cfg.threadCount - i = m := ⟨_, rfl⟩
  -- on the threads that are left to make
  induction m generalizing s i with
  | zero =>
    obtain ⟨hle, -⟩ : s.CallOk cfg (.starting i) := ha ▸ hi.calls a
    obtain ⟨s₁, hst, hend⟩ : ∃ s₁, s.leave cfg a = some s₁ ∧ s₁.calls a = .idle ∧ s₁.mutex = none := by
      rw [Threads.leave, ha]
      exact ⟨_, if_neg (by omega), Function.update_self .., rfl⟩
    exact Returns.step (.leave a) ⟨s₁, .refl _, hend⟩ trivial hst
  | succ m ih =>
    have hlt : i < cfg.threadCount := by omega
    obtain ⟨s₁, hst, ha₁⟩ : ∃ s₁, s.create cfg a true = some s₁ ∧ s₁.calls a = .waiting i s.count := by
      rw [Threads.create, ha]
      exact ⟨_, if_pos hlt, Function.update_self ..⟩
    have hrest := returns_waiting (fun s₂ hi₂ ha₂ => ih hi₂ ha₂ (by omega)) (hi.create hst) ha₁
    exact hrest.step (.create a true) rfl hst

/-- Whoever holds `m_mutex` in `start` can give it back. -/
theorem Inv.returns (hi : s.Inv cfg) (hm : s.mutex = some a) : s.Returns cfg a := by
  have hl := (hi.holder a).mpr hm
  cases ha : s.calls a with
  | idle => rw [ha] at hl; cases hl
  | flagged => rw [ha] at hl; cases hl
  | joining thrs k => rw [ha] at hl; cases hl
  | starting i => exact returns_starting hi ha
  | waiting i t => exact returns_waiting (fun _ hi' ha' => returns_starting hi' ha') hi ha

/-! ## Runs -/

/-- What a caller of `start` and `stop` can count on: while `m_mutex` is free, `m_threadIds` has the id of every thread,
each knows its name and has taken its function; when the scheduler runs, `m_threads` has its threads; and when all calls
are over behind a `stop`, every thread has ended and was joined. -/
structure Managed (cfg : ThreadSettings) (s : Threads c) : Prop where
  sound : s.misuse = false
  ids : s.mutex = none → s.threadIds = cfg.rootIds ++ (List.range s.count).map cfg.tid
  through : s.mutex = none → ∀ t < s.count, 5 ≤ (s.runs t).stage ∧ (s.objects t).id = cfg.tid t ∧
    (s.objects t).cb = false ∧ s.names t = (s.objects t).name
  threads : s.mutex = none → s.stopping = false →
    s.threads = (List.range' (s.count - cfg.threadCount) cfg.threadCount).map some ∧
    ∀ i < cfg.threadCount, (s.objects (s.count - cfg.threadCount + i)).name = cfg.threadName i
  joined : (∀ a, s.calls a = .idle) → s.stopping = true → s.threads = [] ∧
    ∀ t < s.count, s.runs t = .ended ∧ (s.objects t).thread = false

theorem Inv.managed (h : s.Inv cfg) : s.Managed cfg where
  sound := h.sound
  ids hm := (h.free hm).1.ids
  through hm t ht := by
    have hstage := (h.free hm).1.notified t ht
    have hgoes := h.goes t ht
    exact ⟨hstage, hgoes.identified (by omega), hgoes.swapped (by omega), hgoes.named (by omega)⟩
  threads hm hrun := by
    have hfill := h.serving hm hrun
    have hthreads : s.threads = (List.range' (s.count - cfg.threadCount) cfg.threadCount).map some := by
      rw [hfill.threads, Nat.sub_self, List.replicate_zero, List.append_nil]
    refine ⟨hthreads, fun i hi => h.names i _ ?_⟩
    simp [hthreads, hi]
  joined hidle hstop := by
    have hnil : s.threads = [] := (h.stopped hstop).resolve_right fun ⟨a, ha⟩ => by
      rw [hidle a] at ha
      cases ha
    refine ⟨hnil, fun t ht => ?_⟩
    cases hthread : (s.objects t).thread with
    | false => exact ⟨h.joined t ht hthread, rfl⟩
    | true =>
      rcases h.owned t ht hthread with hmem | ⟨a, ha⟩
      · rw [hnil] at hmem
        cases hmem
      · rw [hidle a] at ha
        exact ha.elim

/-- **From `start` to `stop`.** As long as nobody calls `start` between the two halves of a `stop` and the threads are
created, `start` and `stop` keep what they promise, whoever calls them and however the threads go on meanwhile; and
whoever holds `m_mutex` in `start` can come to its end. -/
theorem threads_managed (cfg : ThreadSettings) (c : Nat) (s : Threads c)
    (h : (threadSys cfg c).ReachableWhen Apart s) : s.Managed cfg ∧ ∀ a, s.mutex = some a → s.Returns cfg a :=
  have hi := inv_reachable h
  ⟨hi.managed, fun _ hm => hi.returns hm⟩

/-- Two threads, and a thread of the caller. -/
def twoThreads : ThreadSettings where
  name := "test"
  threadCount := 2
  rootThread := some 100
  tid t := 200 + t

/-- The first thread is made, while another caller is at `stop`. -/
def halfStart : List (ThreadOp 2) :=
  let u : Fin 2 := ⟨0, Nat.two_pos⟩
  let v : Fin 2 := ⟨1, Nat.one_lt_two⟩
  [.start u, .create u true, .run 0, .run 0, .stop v false, .run 0, .run 0, .record u, .create u true]

/-- The second one is on its way. -/
def halfStarted : Threads 2 := (((threadSys twoThreads 2).restrict Apart).exec (.new twoThreads) halfStart).get rfl

theorem threads_managed_half : halfStarted.threadIds = [100, 200] ∧ halfStarted.Managed twoThreads ∧
    halfStarted.Returns twoThreads 0 := by
  have h : (threadSys twoThreads 2).ReachableWhen Apart halfStarted :=
    ⟨.new twoThreads, rfl, (Transition.Sys.steps_of_exec (S := (threadSys twoThreads 2).restrict Apart) _
      (Option.some_get _).symm).of_restrict _⟩
  exact ⟨rfl, (threads_managed twoThreads 2 _ h).1, (threads_managed twoThreads 2 _ h).2 0 rfl⟩

/-- `start` is called between the halves of a `stop`, and finds the threads of the last time. -/
example : ((threadSys { twoThreads with threadCount := 1 } 2).exec (.new { twoThreads with threadCount := 1 })
    [.start 0, .create 0 true, .run 0, .run 0, .run 0, .run 0, .record 0, .leave 0, .stop 1 false, .start 0]).map
      Threads.misuse = some true := rfl

/-- `start` gets no thread, and `stop` joins a null pointer. -/
example : ((threadSys twoThreads 1).exec (.new twoThreads)
    [.start 0, .create 0 false, .stop 0 false, .swap 0, .join 0]).map Threads.misuse = some true := rfl

end Threads

end Megalo
