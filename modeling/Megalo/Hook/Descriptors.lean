import Megalo.FdManager.Basic
import Megalo.Lib.System
import Mathlib.Logic.Function.Basic
import Mathlib.Data.Fintype.Basic
import Mathlib.Data.Fintype.Pi

/-!
# Descriptors that the hooks open and close

- `descriptorSys` is `n` threads in the hooked `socket`, `accept` and `close`, lock by lock, over the descriptor table
  of the kernel, which may give a closed number out again. A thread whose hooks are disabled leaves the contexts alone
  in `socket` and `close`, not in `accept`;
- `DescriptorState.Fresh`: the context of a descriptor was made for it, and nothing has been set in it;
- the context that `socket` and `accept` leave for what they return is fresh as long as no thread whose hooks are
  disabled closes a descriptor that has a context, and no `close` overlaps the opening of the same number
  (`opened_context_fresh`). A plain `close` leaves the context behind for the next `socket`
  (`stale_after_plain_close`).
-/

namespace Megalo

/-- A file of the descriptor table, and the number of its opening. -/
structure Opening where
  serial : ℕ
  file : KernelFile

/-- The file gets other flags. -/
def Opening.setFlags (o : Opening) (flags : BitVec 32) : Opening := { o with file := { o.file with flags := flags } }

/-- Where a thread is: in none of the calls; in `get(fd, true)` before the lookup or between lookup and creation; or in
`close`, before `del` or before `close_f`. -/
inductive DescriptorPc
  | idle
  | getting (fd : ℕ)
  | creating (fd : ℕ)
  | deleting (fd : ℕ)
  | closing (fd : ℕ)
  deriving DecidableEq

namespace DescriptorPc

/-- The thread has been given the number, and has not yet returned it. -/
def Opens (pc : DescriptorPc) (fd : ℕ) : Prop := pc = .getting fd ∨ pc = .creating fd

/-- The thread is in `close` of the number. -/
def Closes (pc : DescriptorPc) (fd : ℕ) : Prop := pc = .deleting fd ∨ pc = .closing fd

instance (pc : DescriptorPc) (fd : ℕ) : Decidable (pc.Opens fd) := inferInstanceAs (Decidable (_ ∨ _))

instance (pc : DescriptorPc) (fd : ℕ) : Decidable (pc.Closes fd) := inferInstanceAs (Decidable (_ ∨ _))

end DescriptorPc

/-- The manager, the contexts by address with the opening each was made for, the descriptor table, how many openings
there have been, and the threads. -/
structure DescriptorState (n : ℕ) where
  manager : FdManager
  ctxs : List (FdCtx × Option ℕ)
  files : ℕ → Option Opening
  opened : ℕ
  pc : Fin n → DescriptorPc

namespace DescriptorState

variable {n : ℕ}

/-- At the start of the process. -/
def new (n : ℕ) : DescriptorState n :=
  { manager := .new, ctxs := [], files := fun _ => none, opened := 0, pc := fun _ => .idle }

def setPc (s : DescriptorState n) (thread : Fin n) (pc : DescriptorPc) : DescriptorState n :=
  { s with pc := Function.update s.pc thread pc }

/-- The kernel gives out the number. -/
def openFile (s : DescriptorState n) (fd : ℕ) (file : KernelFile) : DescriptorState n :=
  { s with files := Function.update s.files fd (some ⟨s.opened, file⟩), opened := s.opened + 1 }

/-- `close_f(fd)`. -/
def closeFile (s : DescriptorState n) (fd : ℕ) : DescriptorState n :=
  { s with files := Function.update s.files fd none }

/-- The part of `get` under the write lock. -/
def create (s : DescriptorState n) (fd : ℕ) : DescriptorState n :=
  let made := FdCtx.new fd ((s.files fd).map Opening.file)
  { s with
    manager := s.manager.store fd s.ctxs.length
    ctxs := s.ctxs ++ [(made.1, (s.files fd).map Opening.serial)]
    files := Function.update s.files fd
      ((s.files fd).bind fun o => made.2.map fun file => { o with file := file }) }

/-- A hooked call sets something in the context of the descriptor. -/
def setCtx (s : DescriptorState n) (fd : ℕ) (f : FdCtx → FdCtx) : DescriptorState n :=
  match s.manager.data fd with
  | some ctx => { s with ctxs := s.ctxs.modify ctx fun c => (f c.1, c.2) }
  | none => s

/-- The file of the descriptor gets other flags. -/
def setFlags (s : DescriptorState n) (fd : ℕ) (flags : BitVec 32) : DescriptorState n :=
  { s with files := Function.update s.files fd ((s.files fd).map fun o => o.setFlags flags) }

end DescriptorState

/-- What is done under one lock, or in one call of the kernel: `socket` and `accept` with the number and the file that
the kernel answers, and other calls that open a file or set something in the context or in the file. -/
inductive DescriptorLabel (n : ℕ)
  | socket (thread : Fin n) (hookEnable : Bool) (fd : ℕ) (file : KernelFile)
  | accept (thread : Fin n) (fd : ℕ) (file : KernelFile)
  | openFile (fd : ℕ) (file : KernelFile)
  | lookup (thread : Fin n)
  | create (thread : Fin n)
  | close (thread : Fin n) (hookEnable : Bool) (fd : ℕ)
  | del (thread : Fin n)
  | closeFile (thread : Fin n)
  | setUserNonblock (fd : ℕ) (v : Bool)
  | setTimeout (fd : ℕ) (type : TimeoutType) (v : ℕ)
  | setFlags (fd : ℕ) (flags : BitVec 32)

variable {n : ℕ}

/-- The step of each label, when it is enabled. -/
def DescriptorState.step (s : DescriptorState n) : DescriptorLabel n → Option (DescriptorState n)
  | .socket thread hookEnable fd file =>
    if s.pc thread = .idle ∧ (s.files fd).isNone ∧ file.isSocket then
      some (if hookEnable then (s.openFile fd file).setPc thread (.getting fd) else s.openFile fd file)
    else none
  | .accept thread fd file =>
    -- with and without hooks
    if s.pc thread = .idle ∧ (s.files fd).isNone ∧ file.isSocket then
      some ((s.openFile fd file).setPc thread (.getting fd))
    else none
  | .openFile fd file => if (s.files fd).isNone then some (s.openFile fd file) else none
  | .lookup thread =>
    match s.pc thread with
    | .getting fd => some (s.setPc thread (match s.manager.lookup fd true with
        | some _ => .idle
        | none => .creating fd))
    | _ => none
  | .create thread =>
    match s.pc thread with
    | .creating fd => some ((s.create fd).setPc thread .idle)
    | _ => none
  | .close thread hookEnable fd =>
    if s.pc thread = .idle then
      some (if hookEnable then s.setPc thread (match s.manager.lookup fd false with
          | some (some _) => .deleting fd
          | _ => .closing fd)
        else s.closeFile fd)
    else none
  | .del thread =>
    match s.pc thread with
    | .deleting fd => some ({ s with manager := s.manager.del fd }.setPc thread (.closing fd))
    | _ => none
  | .closeFile thread =>
    match s.pc thread with
    | .closing fd => some ((s.closeFile fd).setPc thread .idle)
    | _ => none
  | .setUserNonblock fd v => some (s.setCtx fd fun c => c.setUserNonblock v)
  | .setTimeout fd type v => some (s.setCtx fd fun c => c.setTimeout type v)
  | .setFlags fd flags => some (s.setFlags fd flags)

/-- Threads that open and close descriptors. -/
def descriptorSys (n : ℕ) : Transition.Sys (DescriptorState n) (DescriptorLabel n) where
  init s := s = .new n
  step := DescriptorState.step

/-- The context of the descriptor was made for it and has nothing set, and a socket is non-blocking. -/
structure DescriptorState.Fresh (s : DescriptorState n) (fd : ℕ) : Prop where
  made : ∃ ctx c o, s.manager.data fd = some ctx ∧ s.ctxs[ctx]? = some (c, some o.serial) ∧ s.files fd = some o ∧
    c.Untouched ∧ (o.file.isSocket = true → hasNonblock o.file.flags = true)

/-- The step with which `socket` or `accept` returns the descriptor after `get`. -/
def DescriptorLabel.Returns (s : DescriptorState n) (fd : ℕ) : DescriptorLabel n → Prop
  | .lookup thread => s.pc thread = .getting fd ∧ s.manager.lookup fd true ≠ none
  | .create thread => s.pc thread = .creating fd
  | _ => False

/-- No number is given out while a `close` of it is under way or closed while it is being opened, and a thread whose
hooks are disabled closes a number only when it has no context. -/
def DescriptorLabel.Clean (s : DescriptorState n) : DescriptorLabel n → Prop
  | .socket _ _ fd _ | .accept _ fd _ | .openFile fd _ => ∀ thread, ¬(s.pc thread).Closes fd
  | .close _ hookEnable fd =>
    (∀ thread, ¬(s.pc thread).Opens fd) ∧ (hookEnable = false → s.manager.data fd = none)
  | _ => True

instance (s : DescriptorState n) : (a : DescriptorLabel n) → Decidable (a.Clean s)
  | .socket _ _ fd _ | .accept _ fd _ | .openFile fd _ =>
    inferInstanceAs (Decidable (∀ thread, ¬(s.pc thread).Closes fd))
  | .close _ hookEnable fd =>
    inferInstanceAs (Decidable
      ((∀ thread, ¬(s.pc thread).Opens fd) ∧ (hookEnable = false → s.manager.data fd = none)))
  | .lookup _ | .create _ | .del _ | .closeFile _ | .setUserNonblock .. | .setTimeout .. | .setFlags .. =>
    inferInstanceAs (Decidable True)

namespace DescriptorState

variable {s t : DescriptorState n}

@[simp] theorem opens_idle (fd : ℕ) : ¬DescriptorPc.idle.Opens fd := by simp [DescriptorPc.Opens]

@[simp] theorem closes_idle (fd : ℕ) : ¬DescriptorPc.idle.Closes fd := by simp [DescriptorPc.Closes]

@[simp] theorem opens_getting (fd fd' : ℕ) : (DescriptorPc.getting fd).Opens fd' ↔ fd = fd' := by
  simp [DescriptorPc.Opens]

@[simp] theorem opens_creating (fd fd' : ℕ) : (DescriptorPc.creating fd).Opens fd' ↔ fd = fd' := by
  simp [DescriptorPc.Opens]

@[simp] theorem opens_deleting (fd fd' : ℕ) : ¬(DescriptorPc.deleting fd).Opens fd' := by simp [DescriptorPc.Opens]

@[simp] theorem opens_closing (fd fd' : ℕ) : ¬(DescriptorPc.closing fd).Opens fd' := by simp [DescriptorPc.Opens]

@[simp] theorem closes_getting (fd fd' : ℕ) : ¬(DescriptorPc.getting fd).Closes fd' := by simp [DescriptorPc.Closes]

@[simp] theorem closes_creating (fd fd' : ℕ) : ¬(DescriptorPc.creating fd).Closes fd' := by simp [DescriptorPc.Closes]

@[simp] theorem closes_deleting (fd fd' : ℕ) : (DescriptorPc.deleting fd).Closes fd' ↔ fd = fd' := by
  simp [DescriptorPc.Closes]

@[simp] theorem closes_closing (fd fd' : ℕ) : (DescriptorPc.closing fd).Closes fd' ↔ fd = fd' := by
  simp [DescriptorPc.Closes]

/-! ## The invariant -/

/-- Whether the number is open, and a socket. -/
def kind (s : DescriptorState n) (fd : ℕ) : Option Bool := (s.files fd).map fun o => o.file.isSocket

/-- For one number: while it is being opened it is a socket without context, and in the hands of one thread; it is open
when it has a context; and the `close` that is past `del` finds none. -/
structure InvAt (s : DescriptorState n) (fd : ℕ) : Prop where
  opens : ∀ thread, (s.pc thread).Opens fd → s.manager.data fd = none ∧ s.kind fd = some true
  alone : ∀ thread, (s.pc thread).Opens fd → ∀ thread', (s.pc thread').Opens fd ∨ (s.pc thread').Closes fd →
    thread' = thread
  stored : s.kind fd = none → s.manager.data fd = none
  closing : ∀ thread, s.pc thread = .closing fd → s.manager.data fd = none

/-- The invariant. -/
def Inv (s : DescriptorState n) : Prop := ∀ fd, s.InvAt fd

theorem inv_new : (new n).Inv := fun fd =>
  { opens := fun _ h => by rcases h with h | h <;> cases h
    alone := fun _ h => by rcases h with h | h <;> cases h
    stored := fun _ => FdManager.data_new fd
    closing := fun _ h => by cases h }

/-- A step that is about other numbers. -/
theorem InvAt.congr {fd : ℕ} (hi : s.InvAt fd) (hm : t.manager.data fd = s.manager.data fd)
    (hf : t.kind fd = s.kind fd) (hpc : ∀ thread, t.pc thread = s.pc thread ∨
      ¬(t.pc thread).Opens fd ∧ ¬(t.pc thread).Closes fd) : t.InvAt fd where
  opens thread h := by
    rcases hpc thread with hp | hp
    · rw [hm, hf]
      exact hi.opens thread (hp ▸ h)
    · exact absurd h hp.1
  alone thread h thread' h' := by
    rcases hpc thread with hp | hp
    · rcases hpc thread' with hp' | hp'
      · exact hi.alone thread (hp ▸ h) thread' (hp' ▸ h')
      · exact absurd h' (not_or.2 hp')
    · exact absurd h hp.1
  stored h := by
    rw [hm]
    exact hi.stored (hf ▸ h)
  closing thread h := by
    rcases hpc thread with hp | hp
    · rw [hm]
      exact hi.closing thread (hp ▸ h)
    · exact absurd (.inr h) hp.2

/-- A step of one thread that is about one number, which no other thread is opening. -/
theorem Inv.update (hi : s.Inv) (fd : ℕ) (hm : ∀ fd', fd' ≠ fd → t.manager.data fd' = s.manager.data fd')
    (hf : ∀ fd', fd' ≠ fd → t.kind fd' = s.kind fd') {thread : Fin n} {pc : DescriptorPc}
    (hpc : t.pc = Function.update s.pc thread pc) (hat : ∀ fd', fd' ≠ fd → ¬pc.Opens fd' ∧ ¬pc.Closes fd')
    (hother : ∀ thread', thread' ≠ thread → ¬(s.pc thread').Opens fd)
    (hopens : pc.Opens fd → t.manager.data fd = none ∧ t.kind fd = some true ∧
      ∀ thread', thread' ≠ thread → ¬(s.pc thread').Closes fd)
    (hstored : t.kind fd = none → t.manager.data fd = none)
    (hclosing : t.manager.data fd = none ∨
      pc ≠ .closing fd ∧ ∀ thread', thread' ≠ thread → s.pc thread' ≠ .closing fd) :
    t.Inv := by
  have hself : t.pc thread = pc := by rw [hpc, Function.update_self]
  have hne : ∀ thread', thread' ≠ thread → t.pc thread' = s.pc thread' := fun thread' ht => by
    rw [hpc, Function.update_of_ne ht]
  -- a thread that opens the number now is the one that moved
  have hmoved : ∀ thread', (t.pc thread').Opens fd → thread' = thread := fun thread' h => by
    by_contra ht
    exact hother thread' ht (hne thread' ht ▸ h)
  intro fd'
  by_cases hfd : fd' = fd
  · subst hfd
    refine ⟨fun thread' h => ?_, fun thread₁ h₁ thread₂ h₂ => ?_, hstored, fun thread' h => ?_⟩
    · obtain rfl := hmoved thread' h
      obtain ⟨hd, hk, -⟩ := hopens (hself ▸ h)
      exact ⟨hd, hk⟩
    · obtain rfl := hmoved thread₁ h₁
      by_contra ht
      rcases h₂ with h₂ | h₂
      · exact ht (hmoved thread₂ h₂)
      · exact (hopens (hself ▸ h₁)).2.2 thread₂ ht (hne thread₂ ht ▸ h₂)
    · rcases hclosing with hd | ⟨hpc', hs⟩
      · exact hd
      · by_cases ht : thread' = thread
        · subst ht
          exact absurd (hself.symm.trans h) hpc'
        · exact absurd ((hne thread' ht).symm.trans h) (hs thread' ht)
  · refine (hi fd').congr (hm fd' hfd) (hf fd' hfd) fun thread' => ?_
    by_cases ht : thread' = thread
    · subst ht
      rw [hself]
      exact .inr (hat fd' hfd)
    · exact .inl (hne thread' ht)

/-! ## Steps -/

theorem kind_eq_none {fd : ℕ} : s.kind fd = none ↔ s.files fd = none := by simp [kind]

@[simp] theorem kind_openFile_self (fd : ℕ) (file : KernelFile) :
    (s.openFile fd file).kind fd = some file.isSocket := by
  simp [kind, openFile]

theorem kind_openFile_of_ne {fd fd' : ℕ} (h : fd' ≠ fd) (file : KernelFile) :
    (s.openFile fd file).kind fd' = s.kind fd' := by
  simp [kind, openFile, Function.update_of_ne h]

theorem kind_closeFile_of_ne {fd fd' : ℕ} (h : fd' ≠ fd) : (s.closeFile fd).kind fd' = s.kind fd' := by
  simp [kind, closeFile, Function.update_of_ne h]

@[simp] theorem kind_setPc (thread : Fin n) (pc : DescriptorPc) (fd : ℕ) :
    (s.setPc thread pc).kind fd = s.kind fd := rfl

theorem files_create (fd : ℕ) : (s.create fd).files = Function.update s.files fd
    ((s.files fd).bind fun o =>
      (FdCtx.new fd ((s.files fd).map Opening.file)).2.map fun file => { o with file := file }) := rfl

/-- The creation of a context leaves the descriptor table as it is, but for flags. -/
@[simp] theorem kind_create (fd fd' : ℕ) : (s.create fd).kind fd' = s.kind fd' := by
  by_cases h : fd' = fd
  · subst h
    rw [kind, files_create, Function.update_self, kind]
    cases ho : s.files fd' with
    | none => rfl
    | some o =>
      have := FdCtx.new_file fd' (some o.file)
      simpa [Option.map_map, Function.comp_def] using this
  · rw [kind, files_create, Function.update_of_ne h, kind]

theorem Inv.not_opens (hi : s.Inv) {fd : ℕ} (hfree : s.files fd = none) (thread : Fin n) :
    ¬(s.pc thread).Opens fd := by
  intro h
  have := ((hi fd).opens thread h).2
  rw [kind_eq_none.2 hfree] at this
  cases this

theorem inv_openFile (hi : s.Inv) {fd : ℕ} (hfree : s.files fd = none) (file : KernelFile) :
    (s.openFile fd file).Inv := by
  intro fd'
  by_cases h : fd' = fd
  · subst h
    refine ⟨fun thread h => absurd h (hi.not_opens hfree thread), (hi fd').alone, fun h => ?_, (hi fd').closing⟩
    rw [kind_openFile_self] at h
    cases h
  · exact (hi fd').congr rfl (kind_openFile_of_ne h file) fun thread => .inl rfl

/-- A thread is given a new number for a socket. -/
theorem inv_opened (hi : s.Inv) {fd : ℕ} (hfree : s.files fd = none) (hclosed : ∀ thread, ¬(s.pc thread).Closes fd)
    {file : KernelFile} (hsock : file.isSocket = true) (thread : Fin n) :
    ((s.openFile fd file).setPc thread (.getting fd)).Inv := by
  have hdata := (hi fd).stored (kind_eq_none.2 hfree)
  refine hi.update fd (fun _ _ => rfl) (fun fd' h => kind_openFile_of_ne h file) rfl
    (fun fd' h => ⟨by simpa using h.symm, by simp⟩) (fun thread' _ => hi.not_opens hfree thread') (fun _ => ?_)
    (fun _ => hdata) (.inl hdata)
  refine ⟨hdata, ?_, fun thread' _ => hclosed thread'⟩
  rw [kind_setPc, kind_openFile_self, hsock]

/-- No other thread opens or closes a number while it is being opened. -/
theorem Inv.others (hi : s.Inv) {thread : Fin n} {fd : ℕ} (hopens : (s.pc thread).Opens fd) {thread' : Fin n}
    (ht : thread' ≠ thread) : ¬(s.pc thread').Opens fd ∧ ¬(s.pc thread').Closes fd :=
  ⟨fun h => ht ((hi fd).alone thread hopens thread' (.inl h)),
    fun h => ht ((hi fd).alone thread hopens thread' (.inr h))⟩

/-- The thread that opens a number goes on with the creation. -/
theorem inv_lookup (hi : s.Inv) {thread : Fin n} {fd : ℕ} (hpc : s.pc thread = .getting fd) :
    (s.setPc thread (.creating fd)).Inv := by
  have hopens : (s.pc thread).Opens fd := .inl hpc
  obtain ⟨hdata, hkind⟩ := (hi fd).opens thread hopens
  exact hi.update fd (fun _ _ => rfl) (fun _ _ => rfl) rfl (fun fd' h => ⟨by simpa using h.symm, by simp⟩)
    (fun thread' ht => (hi.others hopens ht).1) (fun _ => ⟨hdata, hkind, fun thread' ht => (hi.others hopens ht).2⟩)
    (fun _ => hdata) (.inl hdata)

theorem inv_create (hi : s.Inv) {thread : Fin n} {fd : ℕ} (hpc : s.pc thread = .creating fd) :
    ((s.create fd).setPc thread .idle).Inv := by
  have hopens : (s.pc thread).Opens fd := .inr hpc
  refine hi.update fd (fun fd' h => FdManager.data_store_of_ne _ _ h _) (fun fd' _ => kind_create fd fd') rfl
    (fun fd' _ => ⟨by simp, by simp⟩) (fun thread' ht => (hi.others hopens ht).1) (fun h => absurd h (by simp))
    (fun h => ?_) (.inr ⟨by simp, fun thread' ht h => (hi.others hopens ht).2 (.inr h)⟩)
  rw [kind_setPc, kind_create, ((hi fd).opens thread hopens).2] at h
  cases h

theorem inv_close (hi : s.Inv) (thread : Fin n) {fd : ℕ} (hopened : ∀ thread, ¬(s.pc thread).Opens fd) :
    (s.setPc thread (match s.manager.lookup fd false with
      | some (some _) => .deleting fd
      | _ => .closing fd)).Inv := by
  rw [FdManager.lookup_eq, if_pos (.inr rfl)]
  cases hd : s.manager.data fd with
  | none =>
    exact hi.update fd (fun _ _ => rfl) (fun _ _ => rfl) rfl (fun fd' h => ⟨by simp, by simpa using h.symm⟩)
      (fun thread' _ => hopened thread') (fun h => absurd h (by simp)) (fun _ => hd) (.inl hd)
  | some ctx =>
    refine hi.update fd (fun _ _ => rfl) (fun _ _ => rfl) rfl (fun fd' h => ⟨by simp, by simpa using h.symm⟩)
      (fun thread' _ => hopened thread') (fun h => absurd h (by simp)) (hi fd).stored
      (.inr ⟨by simp, fun thread' _ h => ?_⟩)
    rw [(hi fd).closing thread' h] at hd
    cases hd

/-- A thread that closes a number leaves it to no other that opens it. -/
theorem Inv.not_opens_of_closes (hi : s.Inv) {thread : Fin n} {fd : ℕ} (hcloses : (s.pc thread).Closes fd)
    {thread' : Fin n} (ht : thread' ≠ thread) : ¬(s.pc thread').Opens fd :=
  fun h => ht ((hi fd).alone thread' h thread (.inr hcloses)).symm

theorem inv_del (hi : s.Inv) {thread : Fin n} {fd : ℕ} (hpc : s.pc thread = .deleting fd) :
    ({ s with manager := s.manager.del fd }.setPc thread (.closing fd)).Inv := by
  have hdata : (s.manager.del fd).data fd = none := FdManager.data_del_self ..
  exact hi.update fd (fun fd' h => FdManager.data_del_of_ne _ _ h) (fun _ _ => rfl) rfl
    (fun fd' h => ⟨by simp, by simpa using h.symm⟩) (fun thread' ht => hi.not_opens_of_closes (.inl hpc) ht)
    (fun h => absurd h (by simp)) (fun _ => hdata) (.inl hdata)

theorem inv_closeFile (hi : s.Inv) {thread : Fin n} {fd : ℕ} (hpc : s.pc thread = .closing fd) :
    ((s.closeFile fd).setPc thread .idle).Inv := by
  have hdata := (hi fd).closing thread hpc
  exact hi.update fd (fun _ _ => rfl) (fun fd' h => kind_closeFile_of_ne h) rfl (fun fd' _ => ⟨by simp, by simp⟩)
    (fun thread' ht => hi.not_opens_of_closes (.inr hpc) ht) (fun h => absurd h (by simp)) (fun _ => hdata)
    (.inl hdata)

/-- A plain `close_f`. -/
theorem inv_closePlain (hi : s.Inv) {fd : ℕ} (hopened : ∀ thread, ¬(s.pc thread).Opens fd)
    (hdata : s.manager.data fd = none) : (s.closeFile fd).Inv := by
  intro fd'
  by_cases h : fd' = fd
  · subst h
    exact ⟨fun thread h => absurd h (hopened thread), (hi fd').alone, fun _ => hdata, (hi fd').closing⟩
  · exact (hi fd').congr rfl (kind_closeFile_of_ne h) fun thread => .inl rfl

theorem inv_setCtx (hi : s.Inv) (fd : ℕ) (f : FdCtx → FdCtx) : (s.setCtx fd f).Inv := by
  unfold setCtx
  split
  · exact fun fd' => (hi fd').congr rfl rfl fun thread => .inl rfl
  · exact hi

theorem files_setFlags (fd : ℕ) (flags : BitVec 32) :
    (s.setFlags fd flags).files = Function.update s.files fd ((s.files fd).map fun o => o.setFlags flags) := rfl

theorem inv_setFlags (hi : s.Inv) (fd : ℕ) (flags : BitVec 32) : (s.setFlags fd flags).Inv := by
  refine fun fd' => (hi fd').congr rfl ?_ fun thread => .inl rfl
  by_cases h : fd' = fd
  · subst h
    simp [kind, files_setFlags, Opening.setFlags, Function.comp_def]
  · simp [kind, files_setFlags, Function.update_of_ne h]

/-- **The invariant.** -/
theorem inv_step {a : DescriptorLabel n} (hi : s.Inv) (ha : a.Clean s) (h : s.step a = some t) : t.Inv := by
  cases a with
  | socket thread hookEnable fd file =>
    simp only [step, Option.ite_none_right_eq_some, Option.isNone_iff_eq_none] at h
    obtain ⟨⟨-, hfree, hsock⟩, h⟩ := h
    cases h
    cases hookEnable with
    | true => exact inv_opened hi hfree ha hsock thread
    | false => exact inv_openFile hi hfree file
  | accept thread fd file =>
    simp only [step, Option.ite_none_right_eq_some, Option.isNone_iff_eq_none] at h
    obtain ⟨⟨-, hfree, hsock⟩, h⟩ := h
    cases h
    exact inv_opened hi hfree ha hsock thread
  | openFile fd file =>
    simp only [step, Option.ite_none_right_eq_some, Option.isNone_iff_eq_none] at h
    obtain ⟨hfree, h⟩ := h
    cases h
    exact inv_openFile hi hfree file
  | lookup thread =>
    cases hpc : s.pc thread with
    | getting fd =>
      simp only [step, hpc, FdManager.lookup_eq, ((hi fd).opens thread (.inl hpc)).1] at h
      cases h
      exact inv_lookup hi hpc
    | idle | creating | deleting | closing => simp [step, hpc] at h
  | create thread =>
    cases hpc : s.pc thread with
    | creating fd =>
      simp only [step, hpc] at h
      cases h
      exact inv_create hi hpc
    | idle | getting | deleting | closing => simp [step, hpc] at h
  | close thread hookEnable fd =>
    simp only [step, Option.ite_none_right_eq_some] at h
    obtain ⟨-, h⟩ := h
    cases h
    cases hookEnable with
    | true => exact inv_close hi thread ha.1
    | false => exact inv_closePlain hi ha.1 (ha.2 rfl)
  | del thread =>
    cases hpc : s.pc thread with
    | deleting fd =>
      simp only [step, hpc] at h
      cases h
      exact inv_del hi hpc
    | idle | getting | creating | closing => simp [step, hpc] at h
  | closeFile thread =>
    cases hpc : s.pc thread with
    | closing fd =>
      simp only [step, hpc] at h
      cases h
      exact inv_closeFile hi hpc
    | idle | getting | creating | deleting => simp [step, hpc] at h
  | setUserNonblock fd v =>
    cases h
    exact inv_setCtx hi fd _
  | setTimeout fd type v =>
    cases h
    exact inv_setCtx hi fd _
  | setFlags fd flags =>
    cases h
    exact inv_setFlags hi fd flags

theorem inv_reachableWhen (h : (descriptorSys n).ReachableWhen (fun s a => a.Clean s) s) : s.Inv :=
  h.invariant (fun s hs => by cases hs; exact inv_new) fun s a t hi ha hs => inv_step hi ha hs

/-- The context that a thread creates for the number it opens is fresh. -/
theorem fresh_create (hi : s.Inv) {thread : Fin n} {fd : ℕ} (hpc : s.pc thread = .creating fd) :
    ((s.create fd).setPc thread .idle).Fresh fd := by
  obtain ⟨-, hkind⟩ := (hi fd).opens thread (.inr hpc)
  obtain ⟨o, ho, hsock⟩ := Option.map_eq_some_iff.1 hkind
  obtain ⟨-, -, -, file, hfile, -, hflags⟩ := FdCtx.new_socket fd o.file hsock
  have hctxs : (s.create fd).ctxs = s.ctxs ++ [((FdCtx.new fd (some o.file)).1, some o.serial)] := by
    simp [create, ho]
  refine ⟨s.ctxs.length, (FdCtx.new fd (some o.file)).1, { o with file := file }, FdManager.data_store_self _ _ _, ?_,
    ?_, FdCtx.new_untouched _ _, fun _ => hflags⟩
  · rw [show ((s.create fd).setPc thread .idle).ctxs = (s.create fd).ctxs from rfl, hctxs]
    exact List.getElem?_concat_length
  · rw [show ((s.create fd).setPc thread .idle).files = (s.create fd).files from rfl, files_create,
      Function.update_self, ho, Option.bind_some, Option.map_some, hfile, Option.map_some]

end DescriptorState

/-- **Contexts of new descriptors are fresh**, in runs in which no number is opened while it is being closed or closed
while it is being opened, and no thread without hooks closes a descriptor that has a context. -/
theorem opened_context_fresh {s t : DescriptorState n} {a : DescriptorLabel n} {fd : ℕ}
    (hs : (descriptorSys n).ReachableWhen (fun s a => a.Clean s) s) (h : (descriptorSys n).step s a = some t)
    (hr : a.Returns s fd) : t.Fresh fd := by
  have hi := DescriptorState.inv_reachableWhen hs
  cases a with
  | lookup thread =>
    -- the lookup finds nothing
    obtain ⟨hpc, hfound⟩ := hr
    rw [FdManager.lookup_eq, ((hi fd).opens thread (.inl hpc)).1] at hfound
    simp at hfound
  | create thread =>
    have hpc : s.pc thread = .creating fd := hr
    simp only [descriptorSys, DescriptorState.step, hpc] at h
    cases h
    exact DescriptorState.fresh_create hi hpc
  | socket | accept | openFile | close | del | closeFile | setUserNonblock | setTimeout | setFlags => cases hr

/-- Thread 0 opens a socket, sets its flag and a timeout, and thread 1, which has hooks, closes it; then thread 0 gets
the number again. -/
theorem opened_context_fresh_socket : ∃ t : DescriptorState 2, t.opened = 2 ∧ t.Fresh 5 := by
  obtain ⟨s, hs, hp⟩ := (descriptorSys 2).reachableWhen_of_exec (fun s a => a.Clean s) (.new 2) rfl
    [.socket 0 true 5 ⟨true, 2⟩, .lookup 0, .create 0, .setUserNonblock 5 true, .setTimeout 5 .recv 100,
      .close 1 true 5, .del 1, .closeFile 1, .socket 0 true 5 ⟨true, 2⟩, .lookup 0]
    (p := fun s => s.pc 0 == .creating 5 && s.opened == 2) rfl
  simp only [Bool.and_eq_true, beq_iff_eq] at hp
  obtain ⟨hpc, hopened⟩ := hp
  have hstep : (descriptorSys 2).step s (.create 0) = some ((s.create 5).setPc 0 .idle) := by
    simp only [descriptorSys, DescriptorState.step, hpc]
  exact ⟨(s.create 5).setPc 0 .idle, hopened, opened_context_fresh hs hstep hpc⟩

/-- Thread 0 opens a socket, thread 1, which has no hooks, closes it, and thread 0 opens another. -/
def reuseOrder : List (DescriptorLabel 2) :=
  [.socket 0 true 5 ⟨true, 2⟩, .lookup 0, .create 0, .close 1 false 5, .socket 0 true 5 ⟨true, 2⟩]

/-- The second socket has the context of the first one, and is blocking. -/
theorem opened_context_stale : ∃ s t : DescriptorState 2, ∃ a, (descriptorSys 2).Reachable s ∧
    (descriptorSys 2).step s a = some t ∧ a.Returns s 5 ∧ ¬t.Fresh 5 := by
  obtain ⟨s, hs, hp⟩ := (descriptorSys 2).reachable_of_exec (.new 2) rfl reuseOrder
    (p := fun s => s.pc 0 == .getting 5 && s.manager.data 5 == some 0 &&
      (s.files 5).any fun o => o.file.isSocket && !hasNonblock o.file.flags) rfl
  simp only [Bool.and_eq_true, beq_iff_eq] at hp
  obtain ⟨⟨hpc, hdata⟩, hfile⟩ := hp
  have hlookup := s.manager.lookup_of_data 5 hdata true
  refine ⟨s, s.setPc 0 .idle, .lookup 0, hs, ?_, ⟨hpc, by simp [hlookup]⟩, fun hfresh => ?_⟩
  · simp only [descriptorSys, DescriptorState.step, hpc, hlookup]
  · obtain ⟨ctx, c, o, -, -, ho, -, hflags⟩ := hfresh.made
    rw [show (s.setPc 0 .idle).files = s.files from rfl] at ho
    rw [ho, Option.any_some, Bool.and_eq_true] at hfile
    rw [hflags hfile.1] at hfile
    cases hfile.2

/-! ## The context that a plain close leaves -/

namespace DescriptorState

variable {s t : DescriptorState n}

/-- Contexts and files are of openings that there have been. -/
structure Serials (s : DescriptorState n) : Prop where
  ctxs : ∀ (i : ℕ) (c : FdCtx) (k : ℕ), s.ctxs[i]? = some (c, some k) → k < s.opened
  files : ∀ fd o, s.files fd = some o → o.serial < s.opened

theorem Serials.congr (hi : s.Serials) (hc : ∀ i : ℕ, (t.ctxs[i]?).map Prod.snd = (s.ctxs[i]?).map Prod.snd)
    (hf : ∀ fd o, t.files fd = some o → ∃ o', s.files fd = some o' ∧ o'.serial = o.serial) (ho : t.opened = s.opened) :
    t.Serials where
  ctxs i c k h := by
    have hs : (s.ctxs[i]?).map Prod.snd = some (some k) := by rw [← hc, h, Option.map_some]
    obtain ⟨⟨c', k'⟩, hs, rfl⟩ := Option.map_eq_some_iff.1 hs
    exact ho ▸ hi.ctxs i c' _ hs
  files fd o h := by
    obtain ⟨o', h', he⟩ := hf fd o h
    exact ho ▸ he ▸ hi.files fd o' h'

theorem serials_openFile (hi : s.Serials) (fd : ℕ) (file : KernelFile) : (s.openFile fd file).Serials where
  ctxs i c k h := Nat.lt_succ_of_lt (hi.ctxs i c k h)
  files fd' o h := by
    by_cases hf : fd' = fd
    · subst hf
      obtain rfl : (⟨s.opened, file⟩ : Opening) = o := by simpa [openFile] using h
      exact Nat.lt_succ_self _
    · exact Nat.lt_succ_of_lt (hi.files fd' o (by simpa [openFile, Function.update_of_ne hf] using h))

theorem serials_closeFile (hi : s.Serials) (fd : ℕ) : (s.closeFile fd).Serials := by
  refine hi.congr (fun _ => rfl) (fun fd' o h => ?_) rfl
  by_cases hf : fd' = fd
  · subst hf
    simp [closeFile] at h
  · exact ⟨o, by simpa [closeFile, Function.update_of_ne hf] using h, rfl⟩

theorem serials_create (hi : s.Serials) (fd : ℕ) : (s.create fd).Serials where
  ctxs i c k h := by
    have h : (s.ctxs ++ [((FdCtx.new fd ((s.files fd).map Opening.file)).1,
        (s.files fd).map Opening.serial)])[i]? = some (c, some k) := h
    rcases List.mem_append.1 (List.mem_of_getElem? h) with hmem | hmem
    · obtain ⟨j, hj⟩ := List.getElem?_of_mem hmem
      exact hi.ctxs j c k hj
    · obtain ⟨-, hk⟩ := Prod.mk.inj (List.mem_singleton.1 hmem)
      obtain ⟨o, ho, rfl⟩ := Option.map_eq_some_iff.1 hk.symm
      exact hi.files fd o ho
  files fd' o h := by
    rw [files_create] at h
    by_cases hf : fd' = fd
    · subst hf
      rw [Function.update_self] at h
      obtain ⟨o', ho', h⟩ := Option.bind_eq_some_iff.1 h
      obtain ⟨file, -, rfl⟩ := Option.map_eq_some_iff.1 h
      exact hi.files fd' o' ho'
    · exact hi.files fd' o (by rwa [Function.update_of_ne hf] at h)

theorem serials_setCtx (hi : s.Serials) (fd : ℕ) (f : FdCtx → FdCtx) : (s.setCtx fd f).Serials := by
  unfold setCtx
  split
  · rename_i ctx _
    refine hi.congr (fun i => ?_) (fun fd o h => ⟨o, h, rfl⟩) rfl
    rw [List.getElem?_modify]
    by_cases h : ctx = i
    · simp [h, Function.comp_def]
    · simp [h]
  · exact hi

theorem serials_setFlags (hi : s.Serials) (fd : ℕ) (flags : BitVec 32) : (s.setFlags fd flags).Serials := by
  refine hi.congr (fun _ => rfl) (fun fd' o h => ?_) rfl
  rw [files_setFlags] at h
  by_cases hf : fd' = fd
  · subst hf
    rw [Function.update_self] at h
    obtain ⟨o', ho', rfl⟩ := Option.map_eq_some_iff.1 h
    exact ⟨o', ho', rfl⟩
  · exact ⟨o, by rwa [Function.update_of_ne hf] at h, rfl⟩

/-- Nothing but the threads changes. -/
theorem serials_setPc (hi : s.Serials) (thread : Fin n) (pc : DescriptorPc) : (s.setPc thread pc).Serials :=
  hi.congr (fun _ => rfl) (fun _ o h => ⟨o, h, rfl⟩) rfl

theorem serials_step {a : DescriptorLabel n} (hi : s.Serials) (h : s.step a = some t) : t.Serials := by
  cases a with
  | socket thread hookEnable fd file =>
    simp only [step, Option.ite_none_right_eq_some] at h
    cases h.2
    cases hookEnable with
    | true => exact serials_setPc (serials_openFile hi fd file) thread _
    | false => exact serials_openFile hi fd file
  | accept thread fd file =>
    simp only [step, Option.ite_none_right_eq_some] at h
    cases h.2
    exact serials_setPc (serials_openFile hi fd file) thread _
  | openFile fd file =>
    simp only [step, Option.ite_none_right_eq_some] at h
    cases h.2
    exact serials_openFile hi fd file
  | lookup thread =>
    cases hpc : s.pc thread with
    | getting fd =>
      simp only [step, hpc] at h
      cases h
      exact serials_setPc hi thread _
    | idle | creating | deleting | closing => simp [step, hpc] at h
  | create thread =>
    cases hpc : s.pc thread with
    | creating fd =>
      simp only [step, hpc] at h
      cases h
      exact serials_setPc (serials_create hi fd) thread _
    | idle | getting | deleting | closing => simp [step, hpc] at h
  | close thread hookEnable fd =>
    simp only [step, Option.ite_none_right_eq_some] at h
    cases h.2
    cases hookEnable with
    | true => exact serials_setPc hi thread _
    | false => exact serials_closeFile hi fd
  | del thread =>
    cases hpc : s.pc thread with
    | deleting fd =>
      simp only [step, hpc] at h
      cases h
      exact hi.congr (fun _ => rfl) (fun _ o h => ⟨o, h, rfl⟩) rfl
    | idle | getting | creating | closing => simp [step, hpc] at h
  | closeFile thread =>
    cases hpc : s.pc thread with
    | closing fd =>
      simp only [step, hpc] at h
      cases h
      exact serials_setPc (serials_closeFile hi fd) thread _
    | idle | getting | creating | deleting => simp [step, hpc] at h
  | setUserNonblock fd v =>
    cases h
    exact serials_setCtx hi fd _
  | setTimeout fd type v =>
    cases h
    exact serials_setCtx hi fd _
  | setFlags fd flags =>
    cases h
    exact serials_setFlags hi fd flags

theorem serials_reachable (h : (descriptorSys n).Reachable s) : s.Serials :=
  h.invariant
    (fun s hs => by
      cases hs
      exact ⟨fun _ _ _ h => (by cases h), fun _ _ h => (by cases h)⟩)
    fun s a t hi _ hs => serials_step hi hs

end DescriptorState

/-- Whenever a thread without hooks closes a descriptor that has a context, the next `socket` that is given the number
returns it with that context. -/
theorem stale_after_plain_close {s : DescriptorState n} (hs : (descriptorSys n).Reachable s) {thread : Fin n}
    {fd ctx : ℕ} (hpc : s.pc thread = .idle) (hdata : s.manager.data fd = some ctx) {file : KernelFile}
    (hsock : file.isSocket = true) :
    ∃ t u, (descriptorSys n).exec s [.close thread false fd, .socket thread true fd file] = some t ∧
      (descriptorSys n).step t (.lookup thread) = some u ∧ DescriptorLabel.Returns t fd (.lookup thread) ∧
      ¬u.Fresh fd := by
  have hlookup := s.manager.lookup_of_data fd hdata true
  let t := ((s.closeFile fd).openFile fd file).setPc thread (.getting fd)
  have htpc : t.pc thread = .getting fd := Function.update_self ..
  refine ⟨t, t.setPc thread .idle, ?_, ?_, ⟨htpc, ?_⟩, fun hfresh => ?_⟩
  · simp [Transition.Sys.exec, descriptorSys, DescriptorState.step, hpc, hsock, DescriptorState.closeFile, t]
  · simp only [descriptorSys, DescriptorState.step, htpc]
    rw [show t.manager = s.manager from rfl, hlookup]
  · rw [show t.manager = s.manager from rfl, hlookup]
    simp
  · obtain ⟨ctx', c, o, -, hctx, ho, -⟩ := hfresh.made
    have ho : (⟨s.opened, file⟩ : Opening) = o := by
      simpa [t, DescriptorState.setPc, DescriptorState.openFile, DescriptorState.closeFile] using ho
    have hlt := (DescriptorState.serials_reachable hs).ctxs ctx' c o.serial hctx
    rw [← ho] at hlt
    exact Nat.lt_irrefl _ hlt

end Megalo
