import Megalo.FdManager.Basic
import Megalo.Lib.System

/-!
# The non-blocking mode of a managed socket

- `fcntlSetfl`, `fcntlGetfl` and `ioctlFionbio` are the hooks of `F_SETFL`, `F_GETFL` and `FIONBIO`: the context keeps
  the mode that the user asked for, the file keeps the one that `do_io` needs;
- `nonblockSys` is any sequence of these calls on one managed socket, each accepted by the kernel or not;
- `SocketMode.Virtualised`: `F_GETFL` reports what the user last set, and the file is non-blocking. That holds as long
  as no call clears the mode with `FIONBIO`, which passes the request on as it is, and no rejected call asks for
  another mode than the last; the first call that does ends it (`nonblock_virtualised`).
-/

namespace Megalo

/-- The context that the manager has for a descriptor, its file, and the mode that the user last set. -/
structure SocketMode where
  ctx : Option FdCtx
  file : KernelFile
  asked : Bool

/-- The context that the hooks of `fcntl` and `ioctl` go by: that of a socket that is not closed. -/
def managed (ctx : Option FdCtx) : Option FdCtx := ctx.filter fun c => !c.isClosed && c.isSocket

/-- `fcntl(fd, F_SETFL, arg)`. -/
def fcntlSetfl (ctx : Option FdCtx) (file : KernelFile) (arg : BitVec 32) (accepted : Bool) :
    Option FdCtx × KernelFile :=
  match managed ctx with
  | none => (ctx, if accepted then file.setFlags arg else file)
  | some c =>
    let arg' := if c.sysNonblock then arg ||| oNonblock else arg &&& ~~~oNonblock
    (some (c.setUserNonblock (hasNonblock arg)), if accepted then file.setFlags arg' else file)

/-- `fcntl(fd, F_GETFL)`. -/
def fcntlGetfl (ctx : Option FdCtx) (file : KernelFile) : BitVec 32 :=
  match managed ctx with
  | none => file.flags
  | some c => if c.userNonblock then file.flags ||| oNonblock else file.flags &&& ~~~oNonblock

/-- `ioctl(fd, FIONBIO, &arg)`. -/
def ioctlFionbio (ctx : Option FdCtx) (file : KernelFile) (arg : BitVec 32) (accepted : Bool) :
    Option FdCtx × KernelFile :=
  let file' := if accepted then file.setFionbio (arg != 0) else file
  match managed ctx with
  | none => (ctx, file')
  | some c => (some (c.setUserNonblock (arg != 0)), file')

/-- A call, and whether the kernel accepts it. -/
inductive ModeCall
  | setfl (arg : BitVec 32) (accepted : Bool)
  | getfl
  | fionbio (arg : BitVec 32) (accepted : Bool)

namespace ModeCall

/-- The mode that a call asks for. -/
def mode : ModeCall → Option Bool
  | setfl arg _ => some (hasNonblock arg)
  | getfl => none
  | fionbio arg _ => some (arg != 0)

/-- The mode that a call sets. -/
def sets : ModeCall → Option Bool
  | setfl arg accepted => if accepted then some (hasNonblock arg) else none
  | getfl => none
  | fionbio arg accepted => if accepted then some (arg != 0) else none

end ModeCall

/-- A call, and the mode that the user has set after it. -/
def SocketMode.call (s : SocketMode) (a : ModeCall) : SocketMode :=
  let r := match a with
    | .setfl arg accepted => fcntlSetfl s.ctx s.file arg accepted
    | .getfl => (s.ctx, s.file)
    | .fionbio arg accepted => ioctlFionbio s.ctx s.file arg accepted
  { ctx := r.1, file := r.2, asked := a.sets.getD s.asked }

/-- The calls on a descriptor, which start with its new context. -/
def nonblockSys : Transition.Sys SocketMode ModeCall where
  init s := s.asked = false ∧ ∃ fd file, file.isSocket = true ∧
    s.ctx = some (FdCtx.new fd (some file)).1 ∧ some s.file = (FdCtx.new fd (some file)).2
  step s a := some (s.call a)

/-- `F_GETFL` reports the mode that the user last set, and the file stays non-blocking where the hooks rely on it. -/
structure SocketMode.Virtualised (s : SocketMode) : Prop where
  reports : hasNonblock (fcntlGetfl s.ctx s.file) = s.asked
  file : ∀ c, s.ctx = some c → c.sysNonblock = true → hasNonblock s.file.flags = true

/-- An accepted `FIONBIO` does not clear the mode, and a rejected call asks for the mode that the user last set. -/
def ModeCall.Keeps (s : SocketMode) : ModeCall → Prop
  | setfl arg accepted => accepted = false → hasNonblock arg = s.asked
  | getfl => True
  | fionbio arg accepted => if accepted then (arg != 0) = true else (arg != 0) = s.asked

instance (s : SocketMode) : (a : ModeCall) → Decidable (a.Keeps s)
  | .setfl arg accepted => inferInstanceAs (Decidable (accepted = false → hasNonblock arg = s.asked))
  | .getfl => inferInstanceAs (Decidable True)
  | .fionbio arg accepted =>
    inferInstanceAs (Decidable (if accepted then (arg != 0) = true else (arg != 0) = s.asked))

namespace SocketMode

variable {s : SocketMode}

/-- The context is that of an open socket, which the hooks keep non-blocking, and has the mode that the user last set.
-/
structure Inv (s : SocketMode) : Prop where
  ctx : ∃ c, s.ctx = some c ∧ managed s.ctx = some c ∧ c.sysNonblock = true ∧ c.userNonblock = s.asked
  file : hasNonblock s.file.flags = true

theorem inv_init (h : nonblockSys.init s) : s.Inv := by
  obtain ⟨hasked, fd, f, hsock, hctx, hfile⟩ := h
  obtain ⟨hs, hsys, hclosed, f', hf', -, hflags⟩ := FdCtx.new_socket fd f hsock
  refine ⟨⟨_, hctx, ?_, hsys, ?_⟩, ?_⟩
  · rw [hctx, managed, Option.filter_some, if_pos (by simp [hs, hclosed])]
  · rw [(FdCtx.new_untouched fd (some f)).userNonblock, hasked]
  · rw [hf'] at hfile
    rw [Option.some.inj hfile]
    exact hflags

/-- `F_GETFL` reports the mode of the context. -/
theorem getfl_eq {ctx : Option FdCtx} {c : FdCtx} (h : managed ctx = some c) (file : KernelFile) :
    hasNonblock (fcntlGetfl ctx file) = c.userNonblock := by
  rw [fcntlGetfl, h]
  cases hu : c.userNonblock <;> simp [hu]

theorem managed_setUserNonblock {ctx : Option FdCtx} {c : FdCtx} (h : managed ctx = some c) (v : Bool) :
    managed (some (c.setUserNonblock v)) = some (c.setUserNonblock v) := by
  obtain ⟨-, hc⟩ := Option.filter_eq_some_iff.1 h
  rw [managed, Option.filter_some]
  exact if_pos hc

theorem Inv.virtualised (hi : s.Inv) : s.Virtualised where
  reports := by
    obtain ⟨c, -, hm, -, hu⟩ := hi.ctx
    rw [getfl_eq hm, hu]
  file _ _ _ := hi.file

/-- What a call that asks for a mode does to a managed socket. -/
theorem call_eq {c : FdCtx} (h : managed s.ctx = some c) (hsys : c.sysNonblock = true) {a : ModeCall} {v : Bool}
    (hv : a.mode = some v) : (s.call a).ctx = some (c.setUserNonblock v) ∧
      hasNonblock (s.call a).file.flags = match a with
        | .fionbio _ true => v
        | .setfl _ true => true
        | _ => hasNonblock s.file.flags := by
  cases a with
  | setfl arg accepted =>
    cases hv
    cases accepted <;> simp [call, fcntlSetfl, h, hsys]
  | getfl => cases hv
  | fionbio arg accepted =>
    cases hv
    cases accepted <;> simp [call, ioctlFionbio, h]

theorem inv_call (hi : s.Inv) {a : ModeCall} (ha : a.Keeps s) : (s.call a).Inv := by
  obtain ⟨c, hctx, hm, hsys, hu⟩ := hi.ctx
  cases hmode : a.mode with
  | none =>
    cases a with
    | getfl => exact hi
    | setfl | fionbio => cases hmode
  | some v =>
    obtain ⟨hc, hf⟩ := call_eq hm hsys hmode
    refine ⟨⟨c.setUserNonblock v, hc, ?_, hsys, ?_⟩, ?_⟩
    · rw [hc]
      exact managed_setUserNonblock hm v
    · cases a with
      | getfl => cases hmode
      | setfl arg accepted =>
        cases hmode
        cases accepted with
        | true => rfl
        | false => exact ha rfl
      | fionbio arg accepted =>
        cases hmode
        cases accepted with
        | true => rfl
        | false => exact ha
    · rw [hf]
      cases a with
      | getfl => cases hmode
      | setfl arg accepted =>
        cases accepted with
        | true => rfl
        | false => exact hi.file
      | fionbio arg accepted =>
        cases hmode
        cases accepted with
        | true => exact ha
        | false => exact hi.file

/-- A call that does not keep the mode breaks it. -/
theorem not_virtualised_call (hi : s.Inv) {a : ModeCall} (ha : ¬a.Keeps s) : ¬(s.call a).Virtualised := by
  obtain ⟨c, hctx, hm, hsys, hu⟩ := hi.ctx
  intro hv
  -- what `F_GETFL` reports is what the call asked for
  have hreports : ∀ v, a.mode = some v → v = (s.call a).asked := fun v hmode => by
    obtain ⟨hc, -⟩ := call_eq hm hsys hmode
    rw [← hv.reports, hc, getfl_eq (managed_setUserNonblock hm v)]
    rfl
  cases a with
  | getfl => exact ha trivial
  | setfl arg accepted =>
    refine ha fun haccepted => ?_
    subst haccepted
    exact hreports _ rfl
  | fionbio arg accepted =>
    cases accepted with
    | false => exact ha (hreports _ rfl)
    | true =>
      obtain ⟨hc, hf⟩ := call_eq (a := .fionbio arg true) hm hsys rfl
      exact ha (hf.symm.trans (hv.file _ hc hsys))

end SocketMode

/-- **The non-blocking mode is virtualised** as long as no accepted `FIONBIO` clears the mode and no rejected call
asks for another mode than the last; the first call that does ends it. -/
theorem nonblock_virtualised (s : SocketMode) :
    (nonblockSys.ReachableWhen (fun s a => a.Keeps s) s → s.Virtualised) ∧
      ∀ a t, nonblockSys.ReachableWhen (fun s a => a.Keeps s) s → nonblockSys.step s a = some t → ¬a.Keeps s →
        ¬t.Virtualised := by
  have hinv : ∀ s, nonblockSys.ReachableWhen (fun s a => a.Keeps s) s → s.Inv := fun s hs =>
    hs.invariant (fun s => SocketMode.inv_init) fun s a t hi ha h => by
      cases h
      exact SocketMode.inv_call hi ha
  refine ⟨fun hs => (hinv s hs).virtualised, fun a t hs h ha => ?_⟩
  cases h
  exact SocketMode.not_virtualised_call (hinv s hs) ha

/-- Descriptor 5, just after `socket` has returned it. -/
def newSocketMode : SocketMode :=
  { ctx := some (FdCtx.new 5 (some ⟨true, 2⟩)).1, file := ⟨true, 0x802⟩, asked := false }

theorem init_newSocketMode : nonblockSys.init newSocketMode := ⟨rfl, 5, ⟨true, 2⟩, rfl, rfl, by decide⟩

/-- The user turns the mode on and off again with `F_SETFL`. -/
theorem nonblock_virtualised_setfl : ∃ s : SocketMode, s.asked = false ∧ s.Virtualised := by
  obtain ⟨s, hs, hp⟩ := nonblockSys.reachableWhen_of_exec (fun s a => a.Keeps s) newSocketMode init_newSocketMode
    [.setfl 0x802 true, .getfl, .setfl 2 true] (p := fun s => s.asked == false) rfl
  exact ⟨s, beq_iff_eq.1 hp, (nonblock_virtualised s).1 hs⟩

/-- `ioctl(fd, FIONBIO, 0)` makes the file blocking. -/
theorem fionbio_clears : ∃ s, nonblockSys.Reachable s ∧ ¬s.Virtualised := by
  obtain ⟨s, hs, hp⟩ := nonblockSys.reachable_of_exec newSocketMode init_newSocketMode [.fionbio 0 true]
    (p := fun s => s.ctx.any (fun c => c.sysNonblock) && !hasNonblock s.file.flags) rfl
  simp only [Bool.and_eq_true, Option.any_eq_true, Bool.not_eq_true'] at hp
  obtain ⟨⟨c, hc, hsys⟩, hfile⟩ := hp
  refine ⟨s, hs, fun hv => ?_⟩
  rw [hv.file c hc hsys] at hfile
  cases hfile

end Megalo
