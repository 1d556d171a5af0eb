import Megalo.Lib.System
import Mathlib.Data.List.Basic

/-!
# `TcpServer` from `start` to `stop`

`start` schedules a loop of `accept` for each socket of `m_socks`, and `stop` a task that closes them all and clears
`m_socks`. Threads of the workers go on with these tasks a step at a time, in any order, while other code calls `bind`,
`start` and `stop`, one call after the other.

- `LoopPc` is where `startAccept` is; a task of `stop` is not begun, or in its loop over `m_socks` itself (`Sweep`);
- a socket that neither `m_socks` nor a loop has a pointer to is closed by its destructor (`prune`);
- `bind` adds sockets to `m_socks`, and drops all of them when it fails;
- `Rested`: nobody binds or starts the server again before the tasks of its last time are over, and a task of `stop`
  does not begin while another one is in its loop. Without the first, a loop of a server that runs can be at a socket
  that is closed, where `accept` fails at once and for ever; without the second, one task clears `m_socks` under the
  other's loop (`torn`);
- `server_lifecycle`: otherwise a server that runs accepts on each of its sockets, in one loop, and one that was stopped
  has closed them when the tasks of `stop` are over.
-/

namespace Megalo

namespace TcpServer

/-- Where `startAccept` is: before it looks at `m_isStop`, in `accept`, or with a client. -/
inductive LoopPc
  | check
  | accepting
  | accepted (client : Nat)
  deriving DecidableEq

/-- A task of `startAccept`, with its socket. -/
structure AcceptLoop where
  sock : Nat
  pc : LoopPc
  deriving DecidableEq

/-- A task of `stop` in its loop over `m_socks`: the index of the next socket, and that of the end, as it was when the
loop began. -/
structure Sweep where
  next : Nat
  last : Nat
  deriving DecidableEq

/-- `m_isStop` and `m_socks`, which sockets listen, how many were made, the tasks of `startAccept`, how many tasks of
`stop` are not begun, those in their loop, the clients that `handleClient` was scheduled for, and whether `m_socks` was
changed, or read behind its end, while a task was in its loop over it. -/
structure Running where
  isStop : Bool
  socks : List Nat
  listening : Nat → Bool
  made : Nat
  loops : List AcceptLoop
  stops : Nat
  sweeps : List Sweep
  handed : List Nat
  torn : Bool

/-- What is done: a call of `bind` that gets so many of its addresses to listen, and fails for others or not; of `start`
or of `stop`; or a step of one of the tasks. -/
inductive RunOp
  | bind (count : Nat) (failed : Bool)
  | start
  | stop
  | check (i : Nat)
  | accept (i : Nat) (client : Option Nat)
  | hand (i : Nat)
  | sweep
  | close (j : Nat)

/-- The step is a call of `bind` that succeeds. -/
def RunOp.binds : RunOp → Bool
  | .bind _ failed => !failed
  | _ => false

namespace Running

/-- The constructor. -/
def new : Running where
  isStop := true
  socks := []
  listening _ := false
  made := 0
  loops := []
  stops := 0
  sweeps := []
  handed := []
  torn := false

variable (s : Running)

/-- Something has a pointer to the socket. -/
def refers (k : Nat) : Bool := s.socks.contains k || s.loops.any fun l => l.sock = k

/-- The destructors of the sockets that nothing has a pointer to. -/
def prune : Running := { s with listening := fun k => s.listening k && s.refers k }

def setLoop (i : Nat) (l : AcceptLoop) : Running := { s with loops := s.loops.set i l }

/-- `m_socks` is changed. -/
def setSocks (socks : List Nat) : Running := { s with socks, torn := s.torn || !s.sweeps.isEmpty }

/-- The loop of `bind` over the addresses: each one that listens is behind those of `m_socks`. -/
def bindLoop (count : Nat) : Running :=
  { s.setSocks (s.socks ++ List.range' s.made count) with
    listening := fun k => s.listening k || (List.range' s.made count).contains k
    made := s.made + count }

/-- `bind`; it fails when `fails` is not empty behind the loop. -/
def bind (count : Nat) (failed : Bool) : Running :=
  if failed then ((s.bindLoop count).setSocks []).prune else s.bindLoop count

/-- `start`. -/
def start : Running :=
  if !s.isStop then s
  else { s with isStop := false, loops := s.loops ++ s.socks.map fun k => ⟨k, .check⟩ }

/-- `stop`. -/
def stop : Running := { s with isStop := true, stops := s.stops + 1 }

/-- `startAccept` looks at `m_isStop`. -/
def check (i : Nat) : Option Running :=
  match s.loops[i]? with
  | some ⟨k, .check⟩ =>
    some (if s.isStop then ({ s with loops := s.loops.eraseIdx i } : Running).prune else s.setLoop i ⟨k, .accepting⟩)
  | _ => none

/-- `accept` returns. When the socket is closed meanwhile, it tries again with the old number, which may be another
descriptor's by then: so a client is possible there too. -/
def accept (i : Nat) (client : Option Nat) : Option Running :=
  match s.loops[i]? with
  | some ⟨k, .accepting⟩ =>
    match client with
    | none => some (s.setLoop i ⟨k, .check⟩)
    | some c => some (s.setLoop i ⟨k, .accepted c⟩)
  | _ => none

/-- `handleClient` is scheduled. -/
def hand (i : Nat) : Option Running :=
  match s.loops[i]? with
  | some ⟨k, .accepted c⟩ => some { s.setLoop i ⟨k, .check⟩ with handed := s.handed ++ [c] }
  | _ => none

/-- A task of `stop` begins its loop. -/
def sweep : Option Running :=
  match s.stops with
  | 0 => none
  | stops + 1 => some { s with stops, sweeps := s.sweeps ++ [⟨0, s.socks.length⟩] }

/-- A task of `stop` closes a socket, or is through, clears `m_socks` and is over. -/
def close (j : Nat) : Option Running :=
  match s.sweeps[j]? with
  | some ⟨next, last⟩ =>
    if next = last then some (({ s with sweeps := s.sweeps.eraseIdx j } : Running).setSocks []).prune
    else
      match s.socks[next]? with
      | some k =>
        some { s with listening := Function.update s.listening k false, sweeps := s.sweeps.set j ⟨next + 1, last⟩ }
      | none => some { s with torn := true }
  | none => none

/-- One step. -/
def step : RunOp → Option Running
  | .bind count failed => some (s.bind count failed)
  | .start => some s.start
  | .stop => some s.stop
  | .check i => s.check i
  | .accept i client => s.accept i client
  | .hand i => s.hand i
  | .sweep => s.sweep
  | .close j => s.close j

/-- No task of `stop` is left. -/
def Quiet : Prop := s.stops = 0 ∧ s.sweeps = []

instance : Decidable s.Quiet := inferInstanceAs (Decidable (_ ∧ _))

/-- Nobody binds or starts a server before the tasks of its last time are over, and no two tasks of `stop` are in their
loop. -/
def Rested : RunOp → Prop
  | .bind _ _ => s.isStop = true ∧ s.Quiet
  | .start => s.isStop = true → s.loops = [] ∧ s.Quiet
  | .sweep => s.sweeps = []
  | _ => True

instance : DecidablePred s.Rested
  | .bind _ _ => inferInstanceAs (Decidable (_ ∧ _))
  | .start => inferInstanceAs (Decidable (_ → _))
  | .sweep => inferInstanceAs (Decidable (_ = _))
  | .stop | .check _ | .accept _ _ | .hand _ | .close _ => inferInstanceAs (Decidable True)

end Running

/-- A server with its tasks, and code that uses it. -/
def runSys : Transition.Sys Running RunOp where
  init s := s = .new
  step := Running.step

namespace Running

variable {s t : Running} {i j : Nat}

/-! ## What the steps keep -/

/-- A task of `stop` in its loop: those it has passed are closed. -/
structure Sweeps (s : Running) (w : Sweep) : Prop where
  last : w.last = s.socks.length
  next : w.next ≤ w.last
  closed : ∀ k ∈ s.socks.take w.next, s.listening k = false

/-- A server between its calls and its tasks. -/
structure Inv (s : Running) : Prop where
  made : ∀ k ∈ s.socks, k < s.made
  loops : ∀ l ∈ s.loops, l.sock < s.made
  known : ∀ k, s.listening k = true → k ∈ s.socks
  runs : s.isStop = false → s.Quiet ∧ s.loops.map AcceptLoop.sock = s.socks
  intact : s.Quiet → ∀ k ∈ s.socks, s.listening k = true
  -- the loops that a `stop` left behind are at sockets that are closed
  stale : s.isStop = true → s.Quiet → ∀ l ∈ s.loops, s.listening l.sock = false
  sweeps : s.sweeps = [] ∨ ∃ w, s.sweeps = [w] ∧ s.Sweeps w
  torn : s.torn = false

theorem inv_new : new.Inv := ⟨nofun, nofun, nofun, nofun, nofun, nofun, .inl rfl, rfl⟩

/-- Sockets are only closed. -/
theorem Sweeps.mono {w : Sweep} (h : s.Sweeps w) (hsocks : t.socks = s.socks)
    (hl : ∀ k, t.listening k = true → s.listening k = true) : t.Sweeps w where
  last := by rw [hsocks, h.last]
  next := h.next
  closed k hk := Bool.eq_false_iff.mpr fun ht => by
    rw [hsocks] at hk
    exact absurd ((h.closed k hk).symm.trans (hl k ht)) Bool.false_ne_true

/-- The task of `stop` that is in its loop goes on with sockets that are only closed. -/
theorem Inv.sweeps_mono (h : s.Inv) (hsweeps : t.sweeps = s.sweeps) (hsocks : t.socks = s.socks)
    (hl : ∀ k, t.listening k = true → s.listening k = true) :
    t.sweeps = [] ∨ ∃ w, t.sweeps = [w] ∧ t.Sweeps w := by
  rw [hsweeps]
  exact h.sweeps.imp_right fun ⟨w, hw, hs⟩ => ⟨w, hw, hs.mono hsocks hl⟩

theorem not_quiet_of_sweep {w : Sweep} (h : w ∈ s.sweeps) : ¬ s.Quiet := fun hc => by
  rw [hc.2] at h
  cases h

/-- A task of `stop` is in its loop. -/
theorem Inv.of_sweep {w : Sweep} (hmade : ∀ k ∈ s.socks, k < s.made) (hloops : ∀ l ∈ s.loops, l.sock < s.made)
    (hknown : ∀ k, s.listening k = true → k ∈ s.socks) (hstop : s.isStop = true) (hw : s.sweeps = [w])
    (hs : s.Sweeps w) (htorn : s.torn = false) : s.Inv := by
  have hbusy : ¬ s.Quiet := not_quiet_of_sweep (hw ▸ List.mem_singleton_self w)
  exact {
    made := hmade, loops := hloops, known := hknown, torn := htorn
    runs := fun hrun => absurd (hrun.symm.trans hstop) Bool.false_ne_true
    intact := fun hc => absurd hc hbusy
    stale := fun _ hc => absurd hc hbusy
    sweeps := .inr ⟨w, hw, hs⟩ }

/-- Nothing listens. -/
theorem Inv.of_closed (hsocks : s.socks = []) (hlistening : ∀ k, s.listening k = false)
    (hloops : ∀ l ∈ s.loops, l.sock < s.made) (hstop : s.isStop = true) (hsweeps : s.sweeps = [])
    (htorn : s.torn = false) : s.Inv where
  made k hk := by rw [hsocks] at hk; cases hk
  loops := hloops
  known k hk := absurd ((hlistening k).symm.trans hk) Bool.false_ne_true
  runs hrun := absurd (hrun.symm.trans hstop) Bool.false_ne_true
  intact _ k hk := by rw [hsocks] at hk; cases hk
  stale _ _ l _ := hlistening l.sock
  sweeps := .inl hsweeps
  torn := htorn

/-- A loop goes on at its socket. -/
theorem Inv.setLoop {l : AcceptLoop} (h : s.Inv) (l' : AcceptLoop) (hl : s.loops[i]? = some l)
    (hsock : l'.sock = l.sock) : (s.setLoop i l').Inv := by
  obtain ⟨hi, hget⟩ := List.getElem?_eq_some_iff.mp hl
  have hmap : (s.loops.set i l').map AcceptLoop.sock = s.loops.map AcceptLoop.sock := by
    have hi' : i < (s.loops.map AcceptLoop.sock).length := by simpa using hi
    have hsame : l.sock = (s.loops.map AcceptLoop.sock)[i] := by simp [hget]
    rw [List.map_set, hsock, hsame, List.set_getElem_self]
  have hin : ∀ m ∈ s.loops.set i l', ∃ m' ∈ s.loops, m'.sock = m.sock := by
    intro m hm
    have hmem : m.sock ∈ (s.loops.set i l').map AcceptLoop.sock := List.mem_map_of_mem hm
    rw [hmap] at hmem
    exact List.mem_map.mp hmem
  refine { h with loops := fun m hm => ?_, runs := fun hrun => ⟨(h.runs hrun).1, hmap.trans (h.runs hrun).2⟩,
                  stale := fun hstop hquiet m hm => ?_, sweeps := h.sweeps_mono rfl rfl fun _ => id }
  · obtain ⟨m', hm', he⟩ := hin m hm
    exact he ▸ h.loops m' hm'
  · obtain ⟨m', hm', he⟩ := hin m hm
    exact he ▸ h.stale hstop hquiet m' hm'

/-- The sockets of `m_socks` have a pointer to them. -/
theorem refers_of_mem {k : Nat} (h : k ∈ s.socks) : s.refers k = true := by simp [refers, h]

theorem Inv.prune (h : s.Inv) : s.prune.Inv where
  made := h.made
  loops := h.loops
  known k hk := h.known k (Bool.and_eq_true_iff.mp hk).1
  runs := h.runs
  intact hc k hk := by
    have hmem : k ∈ s.socks := hk
    simp only [Running.prune, h.intact hc k hmem, refers_of_mem hmem, Bool.and_self]
  stale hstop hc l hl := by simp only [Running.prune, h.stale hstop hc l hl, Bool.false_and]
  sweeps := h.sweeps_mono rfl rfl fun _ hk => (Bool.and_eq_true_iff.mp hk).1
  torn := h.torn

/-! ## `bind` -/

theorem bindLoop_listening (s : Running) (count k : Nat) :
    (s.bindLoop count).listening k = true ↔ s.listening k = true ∨ k ∈ List.range' s.made count := by
  simp [bindLoop]

theorem Inv.bindLoop (h : s.Inv) (count : Nat) (hstop : s.isStop = true) (hquiet : s.Quiet) :
    (s.bindLoop count).Inv := by
  have hin := bindLoop_listening s count
  constructor
  · intro k hk
    rcases List.mem_append.mp hk with hk | hk
    · exact Nat.lt_of_lt_of_le (h.made k hk) (Nat.le_add_right _ _)
    · exact (List.mem_range'_1.mp hk).2
  · exact fun l hl => Nat.lt_of_lt_of_le (h.loops l hl) (Nat.le_add_right _ _)
  · intro k hk
    rcases (hin k).mp hk with hk | hk
    · exact List.mem_append_left _ (h.known k hk)
    · exact List.mem_append_right _ hk
  · exact fun hrun => absurd (hrun.symm.trans hstop) Bool.false_ne_true
  · intro hc k hk
    rcases List.mem_append.mp hk with hk | hk
    · exact (hin k).mpr (.inl (h.intact hc k hk))
    · exact (hin k).mpr (.inr hk)
  · intro _ hc l hl
    refine Bool.eq_false_iff.mpr fun hk => ?_
    rcases (hin l.sock).mp hk with hk | hk
    · exact absurd ((h.stale hstop hc l hl).symm.trans hk) Bool.false_ne_true
    · exact absurd (h.loops l hl) (Nat.not_lt.mpr (List.mem_range'_1.mp hk).1)
  · exact .inl hquiet.2
  · simp [Running.bindLoop, setSocks, h.torn, hquiet.2]

/-- What a `bind` that fails closes: the sockets of `m_socks`, before the call and of the call, that no loop is at, and
a loop of a server at rest is at none that listens. -/
theorem bind_failed (h : s.Inv) {count : Nat} (hstop : s.isStop = true) (hquiet : s.Quiet) :
    ∀ k, (s.bind count true).listening k = false := by
  intro k
  have hloop := (h.bindLoop count hstop hquiet).stale hstop hquiet
  refine Bool.eq_false_iff.mpr fun hk => ?_
  obtain ⟨hlistens, hrefers⟩ := Bool.and_eq_true_iff.mp hk
  have hany : (s.loops.any fun l => l.sock = k) = true := by simpa [refers, setSocks, Running.bindLoop] using hrefers
  obtain ⟨l, hl, he⟩ := List.any_eq_true.mp hany
  have hclosed := hloop l hl
  rw [of_decide_eq_true he] at hclosed
  exact absurd (hclosed.symm.trans hlistens) Bool.false_ne_true

theorem Inv.bind (h : s.Inv) {count : Nat} {failed : Bool} (hok : s.Rested (.bind count failed)) :
    (s.bind count failed).Inv := by
  obtain ⟨hstop, hquiet⟩ := hok
  have hloop := h.bindLoop count hstop hquiet
  cases failed with
  | false => exact hloop
  | true =>
    refine .of_closed rfl (bind_failed h hstop hquiet) hloop.loops hstop hquiet.2 ?_
    have htorn := hloop.torn
    simp only [Running.bindLoop, setSocks, Bool.or_eq_false_iff] at htorn
    simp [Running.bind, Running.prune, Running.bindLoop, setSocks, htorn]

/-! ## `start`, `stop` and the loops -/

theorem Inv.start (h : s.Inv) (hok : s.Rested .start) : s.start.Inv := by
  unfold Running.start
  split
  · exact h
  · rename_i hstop
    obtain ⟨hloops, hquiet⟩ := hok (by simpa using hstop)
    have hmap : (s.loops ++ s.socks.map fun k => (⟨k, .check⟩ : AcceptLoop)).map AcceptLoop.sock = s.socks := by
      simp only [hloops, List.nil_append, List.map_map]
      exact List.map_id _
    refine { h with loops := fun l hl => ?_, runs := fun _ => ⟨hquiet, hmap⟩, stale := nofun, sweeps := .inl hquiet.2 }
    have hmem := List.mem_map_of_mem (f := AcceptLoop.sock) hl
    rw [hmap] at hmem
    exact h.made _ hmem

theorem not_quiet_stop (s : Running) : ¬ s.stop.Quiet := fun hc => Nat.succ_ne_zero _ hc.1

theorem Inv.stop (h : s.Inv) : s.stop.Inv :=
  { h with
    runs := nofun
    intact := fun hc => absurd hc (not_quiet_stop s)
    stale := fun _ hc => absurd hc (not_quiet_stop s)
    sweeps := h.sweeps_mono rfl rfl fun _ => id }

theorem Inv.check (h : s.Inv) (hst : s.check i = some t) : t.Inv := by
  unfold Running.check at hst
  split at hst
  · rename_i k hloop
    obtain rfl := Option.some.inj hst
    split
    · rename_i hstop
      have hin : ∀ l ∈ s.loops.eraseIdx i, l ∈ s.loops := fun l hl => List.mem_of_mem_eraseIdx hl
      exact Inv.prune (s := { s with loops := s.loops.eraseIdx i }) { h with
        loops := fun l hl => h.loops l (hin l hl), runs := fun hrun => absurd (hrun.symm.trans hstop) Bool.false_ne_true
        stale := fun hs hc l hl => h.stale hs hc l (hin l hl), sweeps := h.sweeps_mono rfl rfl fun _ => id }
    · exact h.setLoop _ hloop rfl
  · cases hst

theorem Inv.accept (h : s.Inv) {client : Option Nat} (hst : s.accept i client = some t) : t.Inv := by
  unfold Running.accept at hst
  split at hst
  · rename_i k hloop
    split at hst
    · obtain rfl := Option.some.inj hst
      exact h.setLoop _ hloop rfl
    · obtain rfl := Option.some.inj hst
      exact h.setLoop _ hloop rfl
  · cases hst

theorem Inv.hand (h : s.Inv) (hst : s.hand i = some t) : t.Inv := by
  unfold Running.hand at hst
  split at hst
  · rename_i k c hloop
    obtain rfl := Option.some.inj hst
    have hset := h.setLoop ⟨k, .check⟩ hloop rfl
    exact { hset with sweeps := hset.sweeps_mono rfl rfl fun _ => id }
  · cases hst

/-! ## The task of `stop` -/

/-- The sweep of a step is the only one. -/
theorem Inv.sweeping (h : s.Inv) {w : Sweep} (hj : s.sweeps[j]? = some w) : j = 0 ∧ s.sweeps = [w] ∧ s.Sweeps w := by
  rcases h.sweeps with hnil | ⟨v, hv, hs⟩
  · rw [hnil] at hj
    cases hj
  · obtain ⟨hlt, hget⟩ := List.getElem?_eq_some_iff.mp hj
    have hzero : j = 0 := by
      rw [hv] at hlt
      exact Nat.lt_one_iff.mp hlt
    subst hzero
    obtain rfl : v = w := by simpa [hv] using hget
    exact ⟨rfl, hv, hs⟩

/-- A server that runs has no task of `stop`. -/
theorem Inv.stopped (h : s.Inv) (hquiet : ¬ s.Quiet) : s.isStop = true := by
  cases hs : s.isStop with
  | true => rfl
  | false => exact absurd (h.runs hs).1 hquiet

theorem Inv.sweep (h : s.Inv) (hok : s.Rested .sweep) (hst : s.sweep = some t) : t.Inv := by
  unfold Running.sweep at hst
  split at hst
  · cases hst
  · rename_i stops hstops
    obtain rfl := Option.some.inj hst
    have hsweeps : s.sweeps = [] := hok
    have hstop := h.stopped fun hc => by rw [hc.1] at hstops; cases hstops
    have hbusy : s.sweeps ++ [⟨0, s.socks.length⟩] = [⟨0, s.socks.length⟩] := by rw [hsweeps]; rfl
    exact .of_sweep h.made h.loops h.known hstop hbusy ⟨rfl, Nat.zero_le _, nofun⟩ h.torn

/-- When the task is through, none listens any more. -/
theorem Inv.all_closed (h : s.Inv) {w : Sweep} (hs : s.Sweeps w) (hend : w.next = w.last) (k : Nat) :
    s.listening k = false := by
  refine Bool.eq_false_iff.mpr fun hk => ?_
  have htake : s.socks.take w.next = s.socks := by rw [hend, hs.last, List.take_length]
  have hclosed := hs.closed k (by rw [htake]; exact h.known k hk)
  exact absurd (hclosed.symm.trans hk) Bool.false_ne_true

/-- The task goes on behind a socket that it closed. -/
theorem Sweeps.next_closed {w : Sweep} {k : Nat} (h : s.Sweeps w) (hlt : w.next ≠ w.last)
    (hk : s.socks[w.next]? = some k) (sweeps : List Sweep) :
    ({ s with listening := Function.update s.listening k false, sweeps } : Running).Sweeps ⟨w.next + 1, w.last⟩ where
  last := h.last
  next := Nat.lt_of_le_of_ne h.next hlt
  closed k' hk' := by
    simp only at hk' ⊢
    by_cases hkk : k' = k
    · rw [hkk, Function.update_self]
    · rw [Function.update_of_ne hkk]
      rw [List.take_add_one, hk] at hk'
      rcases List.mem_append.mp hk' with hk' | hk'
      · exact h.closed k' hk'
      · exact absurd (by simpa using hk') hkk

theorem Inv.close (h : s.Inv) (hst : s.close j = some t) : t.Inv := by
  unfold Running.close at hst
  split at hst
  · rename_i next last hj
    obtain ⟨rfl, hsweeps, hs⟩ := h.sweeping hj
    have hquiet : ¬ s.Quiet := not_quiet_of_sweep (List.mem_of_getElem? hj)
    have hstop := h.stopped hquiet
    split at hst
    · rename_i hend
      obtain rfl := Option.some.inj hst
      have hclosed := h.all_closed hs hend
      refine .of_closed rfl (fun k => ?_) h.loops hstop ?_ ?_
      · simp only [Running.prune, setSocks, hclosed k, Bool.false_and]
      · simp only [Running.prune, setSocks, hsweeps, List.eraseIdx_cons_zero]
      · simp [Running.prune, setSocks, hsweeps, h.torn]
    · rename_i hend
      split at hst
      · rename_i k hk
        obtain rfl := Option.some.inj hst
        have hl : ∀ k', Function.update s.listening k false k' = true → s.listening k' = true := by
          intro k' hk'
          by_cases hkk : k' = k
          · rw [hkk, Function.update_self] at hk'
            cases hk'
          · rwa [Function.update_of_ne hkk] at hk'
        have hbusy : s.sweeps.set 0 ⟨next + 1, last⟩ = [⟨next + 1, last⟩] := by rw [hsweeps]; rfl
        exact .of_sweep h.made h.loops (fun k' hk' => h.known k' (hl k' hk')) hstop hbusy (hs.next_closed hend hk _)
          h.torn
      · rename_i hk
        -- the loop does not read behind the end
        have hlast : last = s.socks.length := hs.last
        exact absurd (List.getElem?_eq_none_iff.mp hk) (Nat.not_le.mpr (hlast ▸ Nat.lt_of_le_of_ne hs.next hend))
  · cases hst

theorem inv_step (h : s.Inv) {a : RunOp} (hok : s.Rested a) (hst : s.step a = some t) : t.Inv := by
  cases a with
  | bind count failed =>
    obtain rfl := Option.some.inj hst
    exact h.bind hok
  | start =>
    obtain rfl := Option.some.inj hst
    exact h.start hok
  | stop =>
    obtain rfl := Option.some.inj hst
    exact h.stop
  | check i => exact h.check hst
  | accept i client => exact h.accept hst
  | hand i => exact h.hand hst
  | sweep => exact h.sweep hok hst
  | close j => exact h.close hst

theorem inv_reachable (h : runSys.ReachableWhen Rested s) : s.Inv := by
  refine h.invariant (I := Inv) ?_ fun s a t hs ha hst => inv_step hs ha hst
  rintro _ rfl
  exact inv_new

/-! ## Runs -/

/-- A server that is not stopped has a loop for each of its sockets, which all listen, and nothing closes them; no
socket listens but those of `m_socks`; and `m_socks` never changes under the loop of a task. -/
structure Served (s : Running) : Prop where
  listens : s.isStop = false → ∀ k ∈ s.socks, s.listening k = true
  loops : s.isStop = false → s.loops.map AcceptLoop.sock = s.socks
  quiet : s.isStop = false → s.Quiet
  known : ∀ k, s.listening k = true → k ∈ s.socks
  torn : s.torn = false

/-- The task of a `stop` is not over, or it left nothing. -/
def Closed (s : Running) : Prop := s.Quiet → s.socks = [] ∧ ∀ k, s.listening k = false

theorem closed_stop (s : Running) : s.stop.Closed := fun hc => absurd hc (not_quiet_stop s)

theorem Closed.of_same (h : s.Closed) (hquiet : t.Quiet → s.Quiet) (hs : t.socks = s.socks)
    (hl : ∀ k, t.listening k = true → s.listening k = true) : t.Closed := by
  intro hnil
  obtain ⟨hsocks, hclosed⟩ := h (hquiet hnil)
  refine ⟨hs.trans hsocks, fun k => ?_⟩
  exact Bool.eq_false_iff.mpr fun hk => absurd ((hclosed k).symm.trans (hl k hk)) Bool.false_ne_true

theorem closed_close (h : s.Inv) (hst : s.close j = some t) : t.Closed := by
  unfold Running.close at hst
  split at hst
  · rename_i next last hj
    obtain ⟨rfl, hsweeps, hs⟩ := h.sweeping hj
    split at hst
    · rename_i hend
      obtain rfl := Option.some.inj hst
      have hclosed := h.all_closed hs hend
      exact fun _ => ⟨rfl, fun k => by simp only [Running.prune, setSocks, hclosed k, Bool.false_and]⟩
    · split at hst
      · obtain rfl := Option.some.inj hst
        exact fun hc => absurd hc (not_quiet_of_sweep (w := ⟨next + 1, last⟩) (by simp [hsweeps]))
      · obtain rfl := Option.some.inj hst
        exact fun hc => absurd hc (not_quiet_of_sweep (w := ⟨next, last⟩) (by simp [hsweeps]))
  · cases hst

theorem closed_step (h : s.Closed) (hi : s.Inv) {a : RunOp} (hok : s.Rested a) (hbinds : a.binds = false)
    (hst : s.step a = some t) : t.Closed := by
  cases a with
  | bind count failed =>
    obtain rfl := Option.some.inj hst
    obtain rfl : failed = true := by simpa [RunOp.binds] using hbinds
    exact fun _ => ⟨rfl, bind_failed hi hok.1 hok.2⟩
  | start =>
    obtain rfl := Option.some.inj hst
    unfold Running.start
    split
    · exact h
    · exact h.of_same id rfl fun _ => id
  | stop =>
    obtain rfl := Option.some.inj hst
    exact closed_stop s
  | check i =>
    simp only [Running.step, Running.check] at hst
    split at hst
    · obtain rfl := Option.some.inj hst
      split
      · exact h.of_same id rfl fun k hk => (Bool.and_eq_true_iff.mp hk).1
      · exact h.of_same id rfl fun _ => id
    · cases hst
  | accept i client =>
    simp only [Running.step, Running.accept] at hst
    split at hst
    · split at hst
      · obtain rfl := Option.some.inj hst
        exact h.of_same id rfl fun _ => id
      · obtain rfl := Option.some.inj hst
        exact h.of_same id rfl fun _ => id
    · cases hst
  | hand i =>
    simp only [Running.step, Running.hand] at hst
    split at hst
    · obtain rfl := Option.some.inj hst
      exact h.of_same id rfl fun _ => id
    · cases hst
  | sweep =>
    simp only [Running.step, Running.sweep] at hst
    split at hst
    · cases hst
    · obtain rfl := Option.some.inj hst
      exact fun hc => absurd hc (not_quiet_of_sweep (w := ⟨0, s.socks.length⟩) (by simp))
  | close j => exact closed_close hi hst

/-- **From `start` to `stop`.** As long as nobody binds or starts the server again before its tasks are over, and no two
tasks of `stop` are in their loop, a server that is not stopped accepts on each of its sockets in one loop; and after a
`stop`, when its task is over, no socket is left, whatever else was done but a `bind` that succeeds. -/
theorem server_lifecycle : (∀ s, runSys.ReachableWhen Rested s → s.Served) ∧
    ∀ s t, runSys.ReachableWhen Rested s → runSys.Steps (fun s a => s.Rested a ∧ a.binds = false) s.stop t →
      t.Quiet → t.socks = [] ∧ ∀ k, t.listening k = false := by
  constructor
  · intro s h
    have hi := inv_reachable h
    exact ⟨fun hrun => hi.intact (hi.runs hrun).1, fun hrun => (hi.runs hrun).2, fun hrun => (hi.runs hrun).1, hi.known,
      hi.torn⟩
  · intro s t h hsteps
    have hstop : runSys.ReachableWhen Rested s.stop := h.tail .stop trivial rfl
    have hboth : t.Inv ∧ t.Closed := by
      induction hsteps with
      | refl => exact ⟨inv_reachable hstop, closed_stop s⟩
      | tail a _ hok hst ih => exact ⟨inv_step ih.1 hok.1 hst, closed_step ih.2 ih.1 hok.1 hok.2 hst⟩
    exact hboth.2

/-- A server that took a client, behind a `bind` that failed. -/
def takenOnce : Running := ((runSys.restrict Rested).exec .new
  [.bind 1 true, .bind 2 false, .start, .check 0, .check 1, .accept 0 (some 7), .hand 0]).get rfl

/-- The server is stopped twice, while one of its loops is in `accept`. -/
def stoppedOnce : Running := ((runSys.restrict fun s a => s.Rested a ∧ a.binds = false).exec takenOnce.stop
  [.sweep, .close 0, .check 0, .stop, .close 0, .accept 0 none, .close 0, .sweep, .close 0, .bind 1 true]).get rfl

theorem server_lifecycle_once : takenOnce.handed = [7] ∧ takenOnce.Served ∧ stoppedOnce.made = 4 ∧
    stoppedOnce.socks = [] ∧ ∀ k, stoppedOnce.listening k = false := by
  have hs : runSys.ReachableWhen Rested takenOnce :=
    ⟨.new, rfl, (Transition.Sys.steps_of_exec (S := runSys.restrict Rested) _ (Option.some_get _).symm).of_restrict _⟩
  have ht : runSys.Steps (fun s a => s.Rested a ∧ a.binds = false) takenOnce.stop stoppedOnce :=
    (Transition.Sys.steps_of_exec (S := runSys.restrict _) _ (Option.some_get _).symm).of_restrict _
  exact ⟨rfl, server_lifecycle.1 _ hs, rfl, server_lifecycle.2 _ _ hs ht ⟨rfl, rfl⟩⟩

/-- The server is started again before the task of `stop` begins. -/
example : (runSys.exec .new [.bind 1 false, .start, .check 0, .stop, .start, .sweep, .close 0, .close 0,
    .accept 0 none, .check 0]).map (fun s => (s.isStop, s.listening 0, s.loops[0]?)) =
      some (false, false, some ⟨0, .accepting⟩) := rfl

/-- Two tasks of `stop` on two threads: one clears `m_socks` while the other is in its loop. -/
example : (runSys.exec .new [.bind 1 false, .start, .stop, .stop, .sweep, .sweep, .close 0, .close 0]).map
    (fun s => (s.socks, s.torn)) = some ([], true) := rfl

end Running

end TcpServer

end Megalo
