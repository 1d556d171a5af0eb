import Megalo.FdManager.Basic
import Megalo.Lib.System
import Mathlib.Data.Int.Order.Basic
import Mathlib.Logic.Function.Basic

/-!
# The timeouts of a managed descriptor

- `setsockopt` is the hook for `SO_RCVTIMEO` and `SO_SNDTIMEO`: it stores the timeout in the context before it asks the
  kernel, and takes `{0, 0}` for a timeout of no time; `doIoTimeout` is the timeout that `do_io` then waits with;
- `timeoutSys` is any sequence of these calls, each accepted by the kernel or not;
- `SocketTimeouts.Followed`: the timeout of each direction is that of the last accepted call. That holds as long as
  accepted timevals are positive and in range, and rejected calls ask for what is stored already; the first call for
  which this fails ends it (`timeouts_followed`).
-/

namespace Megalo

/-- `struct timeval`. -/
structure Timeval where
  tvSec : Int64
  tvUsec : Int64
  deriving DecidableEq

/-- A signed 64-bit number. -/
def FitsInt64 (x : ℤ) : Prop := -2 ^ 63 ≤ x ∧ x < 2 ^ 63

instance (x : ℤ) : Decidable (FitsInt64 x) := inferInstanceAs (Decidable (_ ∧ _))

namespace Timeval

/-- The milliseconds of a timeval. -/
def ms (v : Timeval) : ℤ := v.tvSec.toInt * 1000 + v.tvUsec.toInt.tdiv 1000

/-- `v->tv_sec * 1000 + v->tv_usec / 1000`, converted to `uint64_t`; `none` when the signed arithmetic overflows. -/
def timeoutMs (v : Timeval) : Option ℕ :=
  if FitsInt64 (v.tvSec.toInt * 1000) ∧ FitsInt64 v.ms then some (v.ms % 2 ^ 64).toNat else none

/-- `{0, 0}`, which stands for no timeout. -/
def isZero (v : Timeval) : Bool := v.tvSec == 0 && v.tvUsec == 0

end Timeval

/-- The context of a descriptor, whether signed arithmetic has overflowed, and the timeout of each direction that the
user last set, in milliseconds. -/
structure SocketTimeouts where
  ctx : Option FdCtx
  undefined : Bool
  asked : TimeoutType → Option ℤ

/-- `setsockopt(sockfd, SOL_SOCKET, type, v)`, up to the call of the kernel. -/
def setsockopt (hookEnable : Bool) (ctx : Option FdCtx) (type : TimeoutType) (v : Timeval) : Option (Option FdCtx) :=
  if !hookEnable then some ctx
  else match ctx with
    | none => some none
    | some c => v.timeoutMs.map fun ms => some (c.setTimeout type ms)

/-- The timeout of the timer that `do_io` adds, if it adds one. -/
def doIoTimeout (c : FdCtx) (type : TimeoutType) : Option ℕ :=
  if c.getTimeout type ≠ noTimeout then some (c.getTimeout type) else none

/-- A hooked call, and whether the kernel accepts it. -/
structure TimeoutCall where
  type : TimeoutType
  v : Timeval
  accepted : Bool

/-- The timeout that a timeval sets. -/
def Timeval.sets (v : Timeval) : Option ℤ := if v.isZero then none else some v.ms

/-- A call, and what the user has set after it. -/
def SocketTimeouts.call (s : SocketTimeouts) (a : TimeoutCall) : SocketTimeouts :=
  let asked := if a.accepted then Function.update s.asked a.type a.v.sets else s.asked
  match setsockopt true s.ctx a.type a.v with
  | some ctx => { s with ctx := ctx, asked := asked }
  | none => { s with undefined := true, asked := asked }

/-- The calls on a descriptor, which start with its new context. -/
def timeoutSys : Transition.Sys SocketTimeouts TimeoutCall where
  init s := s.undefined = false ∧ s.asked = (fun _ => none) ∧ ∃ fd file, s.ctx = some (FdCtx.new fd file).1
  step s a := some (s.call a)

/-- `do_io` waits with the timeouts that the user last set. -/
structure SocketTimeouts.Followed (s : SocketTimeouts) : Prop where
  defined : s.undefined = false
  follows : ∀ c, s.ctx = some c → ∀ type, (doIoTimeout c type).map Int.ofNat = s.asked type

/-- An accepted timeval is not `{0, 0}`, not negative and in range; a rejected one is what is stored. -/
def TimeoutCall.Keeps (s : SocketTimeouts) (a : TimeoutCall) : Prop :=
  if a.accepted then a.v.isZero = false ∧ 0 ≤ a.v.ms ∧ a.v.timeoutMs ≠ none
  else ∀ c ∈ s.ctx, a.v.timeoutMs = some (c.getTimeout a.type)

instance TimeoutCall.decidableKeeps (s : SocketTimeouts) (a : TimeoutCall) : Decidable (a.Keeps s) :=
  inferInstanceAs (Decidable (if a.accepted then a.v.isZero = false ∧ 0 ≤ a.v.ms ∧ a.v.timeoutMs ≠ none
    else ∀ c ∈ s.ctx, a.v.timeoutMs = some (c.getTimeout a.type)))

namespace SocketTimeouts

variable {s : SocketTimeouts} {c : FdCtx} {type : TimeoutType} {v : Timeval} {ms : ℕ}

theorem timeoutMs_some (h : v.timeoutMs = some ms) : (ms : ℤ) = v.ms % 2 ^ 64 ∧ FitsInt64 v.ms := by
  rw [Timeval.timeoutMs] at h
  split at h
  · rename_i hfits
    obtain rfl := Option.some.inj h
    exact ⟨Int.toNat_of_nonneg (Int.emod_nonneg _ (by decide)), hfits.2⟩
  · cases h

/-- A timeout that is not negative is stored as it is, and is not taken for none. -/
theorem timeoutMs_of_nonneg (h : v.timeoutMs = some ms) (hv : 0 ≤ v.ms) : (ms : ℤ) = v.ms ∧ ms ≠ noTimeout := by
  obtain ⟨hms, hfits⟩ := timeoutMs_some h
  have hlt := hfits.2
  rw [Int.emod_eq_of_lt hv (by omega)] at hms
  refine ⟨hms, fun hno => ?_⟩
  rw [hno, noTimeout] at hms
  omega

theorem doIoTimeout_setTimeout (c : FdCtx) (type : TimeoutType) (ms : ℕ) :
    doIoTimeout (c.setTimeout type ms) type = if ms ≠ noTimeout then some ms else none := by
  rw [doIoTimeout, FdCtx.getTimeout_setTimeout]

theorem doIoTimeout_setTimeout_of_ne {type' : TimeoutType} (h : type' ≠ type) :
    doIoTimeout (c.setTimeout type ms) type' = doIoTimeout c type' := by
  rw [doIoTimeout, FdCtx.getTimeout_setTimeout_of_ne c h, doIoTimeout]

/-- What is stored is what `do_io` waits with, or the number that stands for none. -/
theorem doIoTimeout_getD (c : FdCtx) (type : TimeoutType) :
    (doIoTimeout c type).getD noTimeout = c.getTimeout type := by
  unfold doIoTimeout
  split
  · rfl
  · rename_i h
    exact (not_not.1 h).symm

theorem call_of_some (hctx : s.ctx = some c) {a : TimeoutCall} (h : a.v.timeoutMs = some ms) :
    (s.call a).ctx = some (c.setTimeout a.type ms) ∧ (s.call a).undefined = s.undefined := by
  simp [call, setsockopt, hctx, h]

theorem call_of_none (hctx : s.ctx = some c) {a : TimeoutCall} (h : a.v.timeoutMs = none) :
    (s.call a).undefined = true := by
  simp [call, setsockopt, hctx, h]

theorem asked_call_of_accepted {a : TimeoutCall} (h : a.accepted = true) :
    (s.call a).asked = Function.update s.asked a.type a.v.sets := by
  unfold call
  cases setsockopt true s.ctx a.type a.v <;> simp [h]

theorem asked_call_of_rejected {a : TimeoutCall} (h : a.accepted = false) : (s.call a).asked = s.asked := by
  unfold call
  cases setsockopt true s.ctx a.type a.v <;> simp [h]

/-- The context is there, and what it has is what the user last set. -/
structure Inv (s : SocketTimeouts) : Prop where
  defined : s.undefined = false
  follows : ∃ c, s.ctx = some c ∧ ∀ type, (doIoTimeout c type).map Int.ofNat = s.asked type

theorem inv_init (h : timeoutSys.init s) : s.Inv := by
  obtain ⟨hdefined, hasked, fd, file, hctx⟩ := h
  refine ⟨hdefined, _, hctx, fun type => ?_⟩
  rw [doIoTimeout, (FdCtx.new_untouched fd file).getTimeout, hasked, if_neg (by simp), Option.map_none]

theorem Inv.followed (hi : s.Inv) : s.Followed where
  defined := hi.defined
  follows c hc := by
    obtain ⟨c', hc', h⟩ := hi.follows
    obtain rfl := Option.some.inj (hc.symm.trans hc')
    exact h

theorem inv_call (hi : s.Inv) {a : TimeoutCall} (ha : a.Keeps s) : (s.call a).Inv := by
  obtain ⟨c, hctx, hfollows⟩ := hi.follows
  unfold TimeoutCall.Keeps at ha
  split at ha
  · rename_i haccepted
    obtain ⟨hzero, hpos, hms⟩ := ha
    obtain ⟨ms, hms⟩ := Option.ne_none_iff_exists'.1 hms
    obtain ⟨hval, hno⟩ := timeoutMs_of_nonneg hms hpos
    obtain ⟨hc, hu⟩ := call_of_some hctx hms
    refine ⟨hu.trans hi.defined, _, hc, fun type => ?_⟩
    rw [asked_call_of_accepted haccepted]
    by_cases ht : type = a.type
    · subst ht
      rw [doIoTimeout_setTimeout, if_pos hno, Function.update_self, Timeval.sets, hzero]
      exact congrArg some hval
    · rw [doIoTimeout_setTimeout_of_ne ht, Function.update_of_ne ht, hfollows]
  · rename_i haccepted
    -- the store changes nothing
    obtain ⟨hc, hu⟩ := call_of_some hctx (ha c hctx)
    rw [FdCtx.setTimeout_getTimeout] at hc
    refine ⟨hu.trans hi.defined, c, hc, fun type => ?_⟩
    rw [hfollows, asked_call_of_rejected (Bool.eq_false_iff.2 haccepted)]

/-- What is stored is what the user last set, if anything. -/
theorem Followed.stored (hctx : s.ctx = some c) {a : TimeoutCall} (hms : a.v.timeoutMs = some ms)
    (hf : (s.call a).Followed) : (if ms ≠ noTimeout then some (ms : ℤ) else none) = (s.call a).asked a.type := by
  rw [← hf.follows _ (call_of_some hctx hms).1 a.type, doIoTimeout_setTimeout]
  split <;> rfl

/-- An accepted call whose timeval is stored as the user means it. -/
theorem keeps_of_stored {a : TimeoutCall} (hms : a.v.timeoutMs = some ms)
    (h : (if ms ≠ noTimeout then some (ms : ℤ) else none) = a.v.sets) : a.v.isZero = false ∧ 0 ≤ a.v.ms := by
  cases hzero : a.v.isZero with
  | true =>
    -- `{0, 0}` is stored as 0
    have hsets : a.v.sets = none := by rw [Timeval.sets, hzero, if_pos rfl]
    rw [Timeval.isZero, Bool.and_eq_true, beq_iff_eq, beq_iff_eq] at hzero
    have hval := (timeoutMs_some hms).1
    rw [Timeval.ms, hzero.1, hzero.2] at hval
    obtain rfl : ms = 0 := by
      have : (ms : ℤ) = 0 := hval.trans (by decide)
      omega
    rw [hsets, if_pos (by simp [noTimeout])] at h
    cases h
  | false =>
    have hsets : a.v.sets = some a.v.ms := by rw [Timeval.sets, hzero, if_neg (by decide)]
    rw [hsets] at h
    split at h
    · exact ⟨rfl, Option.some.inj h ▸ Int.natCast_nonneg ms⟩
    · cases h

/-- A call that does not keep the timeouts breaks them. -/
theorem not_followed_call (hi : s.Inv) {a : TimeoutCall} (ha : ¬a.Keeps s) : ¬(s.call a).Followed := by
  obtain ⟨c, hctx, hfollows⟩ := hi.follows
  intro hf
  apply ha
  cases hms : a.v.timeoutMs with
  | none =>
    have hundef := call_of_none hctx hms
    rw [hf.defined] at hundef
    cases hundef
  | some ms =>
    have hstored := hf.stored hctx hms
    cases haccepted : a.accepted with
    | true =>
      rw [asked_call_of_accepted haccepted, Function.update_self] at hstored
      obtain ⟨hzero, hpos⟩ := keeps_of_stored hms hstored
      rw [TimeoutCall.Keeps, haccepted, if_pos rfl, hms]
      exact ⟨hzero, hpos, by simp⟩
    | false =>
      rw [asked_call_of_rejected haccepted, ← hfollows] at hstored
      rw [TimeoutCall.Keeps, haccepted, if_neg (by decide)]
      intro c' hc'
      obtain rfl := Option.some.inj (hctx.symm.trans hc')
      -- the stored number has not changed
      have heq : (if ms ≠ noTimeout then some ms else none) = doIoTimeout c a.type := by
        apply Option.map_injective (f := Int.ofNat) (fun _ _ h => Int.ofNat.inj h)
        rw [← hstored]
        split <;> rfl
      rw [hms, ← doIoTimeout_getD, ← heq]
      split
      · rfl
      · rename_i h
        rw [not_not.1 h, Option.getD_none]

end SocketTimeouts

/-- **The timeouts follow the last accepted `setsockopt`** as long as accepted timevals are positive and in range and
rejected ones are what is stored already; the first call for which this fails ends it. -/
theorem timeouts_followed (s : SocketTimeouts) :
    (timeoutSys.ReachableWhen (fun s a => a.Keeps s) s → s.Followed) ∧
      ∀ a t, timeoutSys.ReachableWhen (fun s a => a.Keeps s) s → timeoutSys.step s a = some t → ¬a.Keeps s →
        ¬t.Followed := by
  have hinv : ∀ s, timeoutSys.ReachableWhen (fun s a => a.Keeps s) s → s.Inv := fun s hs =>
    hs.invariant (fun s => SocketTimeouts.inv_init) fun s a t hi ha h => by
      cases h
      exact SocketTimeouts.inv_call hi ha
  refine ⟨fun hs => (hinv s hs).followed, fun a t hs h ha => ?_⟩
  cases h
  exact SocketTimeouts.not_followed_call (hinv s hs) ha

/-- Descriptor 5, just after `socket` has returned it. -/
def newSocketTimeouts : SocketTimeouts :=
  { ctx := some (FdCtx.new 5 (some ⟨true, 2⟩)).1, undefined := false, asked := fun _ => none }

theorem init_newSocketTimeouts : timeoutSys.init newSocketTimeouts := ⟨rfl, rfl, 5, some ⟨true, 2⟩, rfl⟩

/-- A receive timeout of 1.5 s, and a rejected call with the same timeval. -/
theorem timeouts_followed_again : ∃ s : SocketTimeouts, s.asked .recv = some 1500 ∧ s.Followed := by
  obtain ⟨s, hs, hp⟩ := timeoutSys.reachableWhen_of_exec (fun s a => a.Keeps s) newSocketTimeouts
    init_newSocketTimeouts [⟨.recv, ⟨1, 500000⟩, true⟩, ⟨.recv, ⟨1, 500000⟩, false⟩]
    (p := fun s => s.asked .recv == some 1500) rfl
  exact ⟨s, beq_iff_eq.1 hp, (timeouts_followed s).1 hs⟩

/-- A timeout is taken back with `{0, 0}`, and `do_io` waits no time at all. -/
theorem zero_timeout_expires : ∃ s, timeoutSys.Reachable s ∧ ¬s.Followed := by
  obtain ⟨s, hs, hp⟩ := timeoutSys.reachable_of_exec newSocketTimeouts init_newSocketTimeouts
    [⟨.recv, ⟨1, 500000⟩, true⟩, ⟨.recv, ⟨0, 0⟩, true⟩]
    (p := fun s => s.asked .recv == none && s.ctx.any fun c => c.getTimeout .recv == 0) rfl
  simp only [Bool.and_eq_true, beq_iff_eq, Option.any_eq_true] at hp
  obtain ⟨hasked, c, hc, hzero⟩ := hp
  refine ⟨s, hs, fun hf => ?_⟩
  have := hf.follows c hc .recv
  rw [doIoTimeout, hzero, hasked] at this
  cases this

end Megalo
