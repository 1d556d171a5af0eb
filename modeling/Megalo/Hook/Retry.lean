import Megalo.Hook.Timeouts

/-!
# `do_io` calls again after interruptions

- `doIo` is `do_io` over the outcomes of the underlying system call, in the order in which they are asked for, and over
  how its waits end; `ioLoop` is the part from the label `retry` on. It is `none` when it would make one more call;
- `IoResult.Faithful`: the result and `errno` are those of the last call, no byte count is dropped, and nothing is
  called after a call that is neither interrupted nor would block;
- the loop behind an interrupted call does not assign the result, so a call that succeeds there is lost
  (`ioLoop_dropped`); with waits that end in a wake-up it is the only way to fail (`doIo_faithful_iff`).

A system call that succeeds leaves `errno` as it is.
-/

namespace Megalo

/-- The values of `errno`. -/
inductive Errno
  | EINTR
  | EAGAIN
  | EBADF
  | ETIMEDOUT
  | other (code : ℕ)
  deriving DecidableEq

/-- What one call of the underlying function comes to. -/
inductive IoOutcome
  | transferred (n : ℕ)
  | failed (errno : Errno)
  deriving DecidableEq

namespace IoOutcome

/-- What the call returns. -/
def ret : IoOutcome → ℤ
  | transferred n => n
  | failed _ => -1

/-- `errno` after the call. -/
def errnoAfter (errno : Errno) : IoOutcome → Errno
  | transferred _ => errno
  | failed e => e

/-- The call was interrupted, or would have blocked. -/
def retried (o : IoOutcome) : Bool := o == failed .EINTR || o == failed .EAGAIN

end IoOutcome

/-- How the wait behind `EAGAIN` ends: `addEvent` fails, or the fiber is resumed with `tinfo->cancelled` set or not.
What `errno` is then depends on the thread. -/
inductive WaitEnd
  | refused (errno : Errno)
  | resumed (cancelled : Bool) (errno : Errno)

/-- What `do_io` returns, `errno`, and the calls it has made. -/
structure IoResult where
  result : ℤ
  errno : Errno
  calls : List IoOutcome
  deriving DecidableEq

namespace IoResult

/-- One more call before the others. -/
def after (r : IoResult) (o : IoOutcome) : IoResult := { r with calls := o :: r.calls }

/-- The calls were made and reported as they should be. -/
structure Faithful (r : IoResult) : Prop where
  last : ∀ o, r.calls.getLast? = some o → r.result = o.ret ∧ ∀ e, o = .failed e → r.errno = e
  transferred : ∀ n, IoOutcome.transferred n ∈ r.calls → r.result = n
  retried : ∀ o ∈ r.calls.dropLast, o.retried = true

end IoResult

/-- The code behind `retry`; with `again` it is in the loop behind an interrupted call, where `n` is not assigned. The
`k`-th wait ends with `waits k`. -/
def ioLoop (timeout : Option ℕ) (waits : ℕ → WaitEnd) (again : Bool) (k : ℕ) (errno : Errno) :
    List IoOutcome → Option IoResult
  | [] => none
  | o :: os =>
    let n := if again then -1 else o.ret
    let errno := o.errnoAfter errno
    if n = -1 ∧ errno = .EINTR then (ioLoop timeout waits true k errno os).map (·.after o)
    else if n = -1 ∧ errno = .EAGAIN then
      match waits k with
      | .refused errno => some { result := -1, errno := errno, calls := [o] }
      | .resumed cancelled errno =>
        -- only the timer that a timeout adds sets `tinfo->cancelled`
        if timeout.isSome && cancelled then some { result := -1, errno := .ETIMEDOUT, calls := [o] }
        else (ioLoop timeout waits false (k + 1) errno os).map (·.after o)
    else some { result := n, errno := errno, calls := [o] }

/-- `return fun(fd, args...)`. -/
def ioDirect (errno : Errno) : List IoOutcome → Option IoResult
  | [] => none
  | o :: _ => some { result := o.ret, errno := o.errnoAfter errno, calls := [o] }

/-- `do_io`. -/
def doIo (hookEnable : Bool) (ctx : Option FdCtx) (timeoutSo : TimeoutType) (waits : ℕ → WaitEnd) (errno : Errno)
    (os : List IoOutcome) : Option IoResult :=
  if !hookEnable then ioDirect errno os
  else match ctx with
    | none => ioDirect errno os
    | some c =>
      if c.isClosed then some { result := -1, errno := .EBADF, calls := [] }
      else if !c.isSocket || c.userNonblock then ioDirect errno os
      else ioLoop (doIoTimeout c timeoutSo) waits false 0 errno os

/-- `do_io` waits and calls again only for an open socket that the user has left blocking. -/
def hooked (hookEnable : Bool) (ctx : Option FdCtx) : Bool :=
  hookEnable && ctx.any fun c => !c.isClosed && c.isSocket && !c.userNonblock

/-! ## The loop -/

variable {timeout : Option ℕ} {waits : ℕ → WaitEnd} {again : Bool} {k : ℕ} {errno : Errno} {o : IoOutcome}
  {pre os rest : List IoOutcome}

theorem ioLoop_interrupted : ioLoop timeout waits again k errno (.failed .EINTR :: os) =
    (ioLoop timeout waits true k .EINTR os).map (·.after (.failed .EINTR)) := by
  simp [ioLoop, IoOutcome.ret, IoOutcome.errnoAfter]

theorem ioLoop_would_block {e : Errno} (hwait : waits k = .resumed false e) :
    ioLoop timeout waits again k errno (.failed .EAGAIN :: os) =
      (ioLoop timeout waits false (k + 1) e os).map (·.after (.failed .EAGAIN)) := by
  simp [ioLoop, IoOutcome.ret, IoOutcome.errnoAfter, hwait]

theorem ioLoop_failed {e : Errno} (he : (IoOutcome.failed e).retried = false) :
    ioLoop timeout waits again k errno (.failed e :: os) =
      some { result := -1, errno := e, calls := [.failed e] } := by
  simp only [IoOutcome.retried, Bool.or_eq_false_iff, beq_eq_false_iff_ne, ne_eq, IoOutcome.failed.injEq] at he
  simp [ioLoop, IoOutcome.ret, IoOutcome.errnoAfter, he.1, he.2]

theorem ioLoop_transferred (n : ℕ) : ioLoop timeout waits false k errno (.transferred n :: os) =
    some { result := n, errno := errno, calls := [.transferred n] } := by
  have hn : ¬ (n : ℤ) = -1 := by omega
  simp [ioLoop, IoOutcome.ret, IoOutcome.errnoAfter, hn]

/-- Behind an interrupted call a success is dropped, and the loop goes on. -/
theorem ioLoop_dropped (n : ℕ) : ioLoop timeout waits true k .EINTR (.transferred n :: os) =
    (ioLoop timeout waits true k .EINTR os).map (·.after (.transferred n)) := by
  simp [ioLoop, IoOutcome.errnoAfter]

/-- What is returned has made a call. -/
theorem ioLoop_calls {r : IoResult} (h : ioLoop timeout waits again k errno os = some r) : r.calls ≠ [] := by
  cases os with
  | nil => cases h
  | cons o os =>
    rw [ioLoop] at h
    generalize (if again = true then -1 else o.ret) = n at h
    split at h
    · obtain ⟨r', -, rfl⟩ := Option.map_eq_some_iff.1 h
      exact List.cons_ne_nil _ _
    · split at h
      · split at h
        · obtain rfl := Option.some.inj h
          exact List.cons_ne_nil _ _
        · split at h
          · obtain rfl := Option.some.inj h
            exact List.cons_ne_nil _ _
          · obtain ⟨r', -, rfl⟩ := Option.map_eq_some_iff.1 h
            exact List.cons_ne_nil _ _
      · obtain rfl := Option.some.inj h
        exact List.cons_ne_nil _ _

/-- Calls that were interrupted or would have blocked are made again; whether the loop behind an interrupted call is
entered depends on the last one. -/
theorem ioLoop_retried (timeout : Option ℕ) (k : ℕ) (errno : Errno) (os : List IoOutcome)
    (hpre : ∀ p ∈ pre, p.retried = true) (hwaits : ∀ k, ∃ e, waits k = .resumed false e)
    (herrno : again = true → errno = .EINTR) :
    ∃ k' errno', let again' := (pre.getLast?.map (· == .failed .EINTR)).getD again
      (again' = true → errno' = .EINTR) ∧ ioLoop timeout waits again k errno (pre ++ os) =
        (ioLoop timeout waits again' k' errno' os).map fun r => { r with calls := pre ++ r.calls } := by
  induction pre generalizing again k errno with
  | nil => exact ⟨k, errno, herrno, by simp⟩
  | cons p pre ih =>
    obtain ⟨hp, hpre'⟩ := List.forall_mem_cons.1 hpre
    have hlast : ((p :: pre).getLast?.map (· == IoOutcome.failed .EINTR)).getD again =
        (pre.getLast?.map (· == .failed .EINTR)).getD (p == .failed .EINTR) := by
      rw [List.getLast?_cons]
      cases pre.getLast? with
      | none => rfl
      | some q => rfl
    rw [IoOutcome.retried, Bool.or_eq_true, beq_iff_eq, beq_iff_eq] at hp
    dsimp only
    rw [hlast, List.cons_append]
    rcases hp with rfl | rfl
    · obtain ⟨k', errno', herrno', hrun⟩ := ih k .EINTR hpre' fun _ : true = true => rfl
      refine ⟨k', errno', herrno', ?_⟩
      rw [ioLoop_interrupted, hrun, Option.map_map]
      rfl
    · obtain ⟨e, he⟩ := hwaits k
      obtain ⟨k', errno', herrno', hrun⟩ := ih (k + 1) e hpre' fun h : false = true => by cases h
      refine ⟨k', errno', herrno', ?_⟩
      rw [ioLoop_would_block he, hrun, Option.map_map]
      rfl

/-! ## What is returned -/

/-- A result that ends with the call that decides it. -/
theorem faithful_decided (hpre : ∀ p ∈ pre, p.retried = true) {result : ℤ} (hresult : result = o.ret)
    (herrno : ∀ e, o = .failed e → errno = e) :
    IoResult.Faithful { result := result, errno := errno, calls := pre ++ [o] } where
  last o' ho' := by
    rw [List.getLast?_concat] at ho'
    obtain rfl := Option.some.inj ho'
    exact ⟨hresult, herrno⟩
  transferred n hn := by
    rcases List.mem_append.1 hn with hn | hn
    · have hretried := hpre _ hn
      cases hretried
    · rw [hresult, ← List.mem_singleton.1 hn]
      rfl
  retried o' ho' := by
    rw [List.dropLast_concat] at ho'
    exact hpre o' ho'

/-- Nothing is faithful about a result that has called again after a call that decided. -/
theorem not_faithful_after (ho : o.retried = false) {r : IoResult} {calls : List IoOutcome} (hne : calls ≠ [])
    (hcalls : r.calls = pre ++ o :: calls) : ¬ r.Faithful := by
  intro hr
  have hmem : o ∈ r.calls.dropLast := by
    rw [hcalls, List.dropLast_append_of_ne_nil (List.cons_ne_nil _ _), List.dropLast_cons_of_ne_nil hne]
    simp
  rw [hr.retried o hmem] at ho
  cases ho

theorem ioLoop_faithful_iff (hpre : ∀ p ∈ pre, p.retried = true) (ho : o.retried = false)
    (hwaits : ∀ k, ∃ e, waits k = .resumed false e) :
    (∃ r, ioLoop timeout waits false k errno (pre ++ o :: rest) = some r ∧ r.Faithful) ↔
      ¬ ((∃ n, o = .transferred n) ∧ pre.getLast? = some (.failed .EINTR)) := by
  obtain ⟨k', errno', herrno', hrun⟩ := ioLoop_retried timeout k errno (o :: rest) hpre hwaits
    fun h : false = true => by cases h
  have hlast : (pre.getLast?.map (· == IoOutcome.failed .EINTR)).getD false = true ↔
      pre.getLast? = some (.failed .EINTR) := by
    cases pre.getLast? with
    | none => simp
    | some p => simp
  rw [hrun]
  cases o with
  | failed e =>
    rw [ioLoop_failed ho]
    refine iff_of_true ⟨_, rfl, faithful_decided hpre rfl fun e' he' => ?_⟩ fun h => ?_
    · exact IoOutcome.failed.inj he'
    · obtain ⟨⟨n, hn⟩, -⟩ := h
      cases hn
  | transferred n =>
    cases hagain : (pre.getLast?.map (· == IoOutcome.failed .EINTR)).getD false with
    | false =>
      rw [ioLoop_transferred]
      refine iff_of_true ⟨_, rfl, faithful_decided hpre rfl fun e he => by cases he⟩ fun h => ?_
      rw [hlast.2 h.2] at hagain
      cases hagain
    | true =>
      refine iff_of_false ?_ fun h => h ⟨⟨n, rfl⟩, hlast.1 hagain⟩
      rintro ⟨r, hr, hfaithful⟩
      rw [herrno' hagain, ioLoop_dropped] at hr
      obtain ⟨r₁, hr₁, rfl⟩ := Option.map_eq_some_iff.1 hr
      obtain ⟨r₂, hr₂, rfl⟩ := Option.map_eq_some_iff.1 hr₁
      exact not_faithful_after ho (ioLoop_calls hr₂) rfl hfaithful

/-- `return fun(fd, args...)` makes one call and returns what it does. -/
theorem ioDirect_faithful (errno : Errno) (h : os ≠ []) : ∃ r, ioDirect errno os = some r ∧ r.Faithful := by
  cases os with
  | nil => exact absurd rfl h
  | cons o os =>
    refine ⟨_, rfl, faithful_decided (List.forall_mem_nil _) rfl fun e he => ?_⟩
    rw [he]
    rfl

/-- A closed descriptor: no call is made. -/
theorem faithful_closed (errno : Errno) : IoResult.Faithful { result := -1, errno := errno, calls := [] } where
  last o ho := by cases ho
  transferred n hn := by cases hn
  retried o ho := by cases ho

/-- Where `do_io` does not wait and call again, what it returns is faithful. -/
theorem doIo_unhooked {hookEnable : Bool} {ctx : Option FdCtx} (timeoutSo : TimeoutType) (waits : ℕ → WaitEnd)
    (errno : Errno) (h : hooked hookEnable ctx = false) (hos : os ≠ []) :
    ∃ r, doIo hookEnable ctx timeoutSo waits errno os = some r ∧ r.Faithful := by
  have hdirect := ioDirect_faithful errno hos
  unfold doIo
  cases hookEnable with
  | false => exact hdirect
  | true =>
    cases ctx with
    | none => exact hdirect
    | some c =>
      simp only [Bool.not_true, Bool.false_eq_true, if_false]
      split
      · exact ⟨_, rfl, faithful_closed .EBADF⟩
      · rename_i hclosed
        have hpass : (!c.isSocket || c.userNonblock) = true := by simpa [hooked, hclosed, imp_iff_not_or] using h
        rw [if_pos hpass]
        exact hdirect

/-- Where it does, it runs the loop. -/
theorem doIo_hooked {hookEnable : Bool} {ctx : Option FdCtx} (timeoutSo : TimeoutType) (waits : ℕ → WaitEnd)
    (errno : Errno) (os : List IoOutcome) (h : hooked hookEnable ctx = true) :
    ∃ timeout, doIo hookEnable ctx timeoutSo waits errno os = ioLoop timeout waits false 0 errno os := by
  cases ctx with
  | none => simp [hooked] at h
  | some c =>
    simp only [hooked, Option.any_some, Bool.and_eq_true, Bool.not_eq_true'] at h
    obtain ⟨rfl, ⟨hclosed, hsocket⟩, hblocking⟩ := h
    exact ⟨doIoTimeout c timeoutSo, by simp [doIo, hclosed, hsocket, hblocking]⟩

/-- An open, blocking socket. -/
def FdCtx.blocking : FdCtx :=
  { isInit := true, isSocket := true, sysNonblock := true, userNonblock := false, isClosed := false, fd := 5
    recvTimeout := noTimeout, sendTimeout := noTimeout }

/-- A call is interrupted, the next one transfers five bytes, and the one after it finds the connection reset: the bytes
are lost. -/
theorem doIo_drops_bytes : doIo true (some FdCtx.blocking) .recv (fun _ => .resumed false .EINTR) (.other 0)
      [.failed .EINTR, .transferred 5, .failed (.other 104)] =
    some { result := -1, errno := .other 104, calls := [.failed .EINTR, .transferred 5, .failed (.other 104)] } ∧
      ¬ ∃ r, doIo true (some FdCtx.blocking) .recv (fun _ => .resumed false .EINTR) (.other 0)
        [.failed .EINTR, .transferred 5, .failed (.other 104)] = some r ∧ r.Faithful := by
  have hrun : doIo true (some FdCtx.blocking) .recv (fun _ => .resumed false .EINTR) (.other 0)
      [.failed .EINTR, .transferred 5, .failed (.other 104)] =
    some { result := -1, errno := .other 104, calls := [.failed .EINTR, .transferred 5, .failed (.other 104)] } := by
    decide
  refine ⟨hrun, ?_⟩
  rintro ⟨r, hr, hfaithful⟩
  obtain rfl := Option.some.inj (hrun.symm.trans hr)
  have hresult := hfaithful.transferred 5 (by decide)
  revert hresult
  decide

/-- **What `do_io` returns.** Whatever the underlying calls and the waits come to, as long as the calls are interrupted
or would block only finitely often and each wait ends in a wake-up: `do_io` returns, with the result and `errno` of its
last call, drops no byte count, and makes no call after one that was neither interrupted nor would block; unless the
call that decides succeeds right after an interrupted one. -/
theorem doIo_faithful_iff (hookEnable : Bool) (ctx : Option FdCtx) (timeoutSo : TimeoutType) (waits : ℕ → WaitEnd)
    (errno : Errno) (pre : List IoOutcome) (o : IoOutcome) (rest : List IoOutcome) (hpre : ∀ p ∈ pre, p.retried = true)
    (ho : o.retried = false) (hwaits : ∀ k, ∃ e, waits k = .resumed false e) :
    (∃ r, doIo hookEnable ctx timeoutSo waits errno (pre ++ o :: rest) = some r ∧ r.Faithful) ↔
      ¬ (hooked hookEnable ctx = true ∧ (∃ n, o = .transferred n) ∧ pre.getLast? = some (.failed .EINTR)) := by
  cases hhooked : hooked hookEnable ctx with
  | false =>
    exact iff_of_true (doIo_unhooked timeoutSo waits errno hhooked (by simp)) fun h => absurd h.1 (by decide)
  | true =>
    obtain ⟨timeout, hrun⟩ := doIo_hooked timeoutSo waits errno (pre ++ o :: rest) hhooked
    rw [hrun, ioLoop_faithful_iff hpre ho hwaits]
    simp only [true_and]

/-- An interrupted call, one that would block, and one that transfers five bytes. -/
theorem doIo_faithful_iff_five : ∃ r, doIo true (some FdCtx.blocking) .recv (fun _ => .resumed false .EINTR) (.other 0)
    [.failed .EINTR, .failed .EAGAIN, .transferred 5] = some r ∧ r.Faithful :=
  (doIo_faithful_iff true (some FdCtx.blocking) .recv (fun _ => .resumed false .EINTR) (.other 0)
    [.failed .EINTR, .failed .EAGAIN] (.transferred 5) [] (by decide) (by decide) fun _ => ⟨.EINTR, rfl⟩).2
    fun h => absurd h.2.2 (by decide)

end Megalo
