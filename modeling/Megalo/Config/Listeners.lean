import Mathlib.Data.List.Chain
import Megalo.Lib.System
import Megalo.Config.FromString

/-!
# Concurrent calls of `ConfigVar::setValue`

- `listenSys` is any number of threads in `setValue`: the comparison and the calls of the listeners are under the read
  lock, which several threads may hold, and the store is under the write lock, after the read lock was given up. Between
  the two other threads may call listeners and store, and listeners may be added and deleted;
- `Agrees` says that listeners know the value when no thread is in `setValue`, and that each call of a listener goes on
  from the value of the last one;
- two threads may call the listeners in one order and store in the other (`stored_in_other_order`). As long as no call
  that finds another value begins, and no listener is added, while another thread is in `setValue` (`Alone`), listeners
  and value agree (`listeners_agree`).
-/

namespace Megalo

/-- Where a thread is in `setValue`: not in it, at its listeners with those that it still has to call, or between the
two locks. -/
inductive SetPc (T : Type)
  | idle
  | notifying (v : T) (rest : List ℕ)
  | storing (v : T)

def SetPc.isIdle {T : Type} : SetPc T → Bool
  | .idle => true
  | _ => false

/-- The thread holds the read lock. -/
def SetPc.reads {T : Type} : SetPc T → Bool
  | .notifying _ _ => true
  | _ => false

/-- A `ConfigVar<T>` and its threads; `funId` is `s_fun_id`, `log` the calls of the listeners, and `changed` whether
`m_val` was set since a listener was added. -/
structure ListenState (n : ℕ) (T : Type) where
  var : ConfigVar T
  funId : ℕ
  pc : Fin n → SetPc T
  log : List (Notification T)
  changed : ℕ → Bool

/-- What a thread does under one lock, but for the calls of the listeners, which are steps of their own. The variables
of one type number their listeners together: `others` are those of the other variables. -/
inductive ListenLabel (n : ℕ) (T : Type)
  | start (t : Fin n) (v : T)
  | notify (t : Fin n)
  | unlock (t : Fin n)
  | store (t : Fin n)
  | addListener (others : ℕ)
  | delListener (key : ℕ)
  | clearListener

namespace ListenState

variable {n : ℕ} {T : Type}

def setPc (s : ListenState n T) (t : Fin n) (pc : SetPc T) : ListenState n T :=
  { s with pc := Function.update s.pc t pc }

/-- `i.second(m_val, v)`. -/
def notify (s : ListenState n T) (i : ℕ) (v : T) : ListenState n T := { s with log := s.log ++ [⟨i, s.var.val, v⟩] }

/-- `m_val = v`. -/
def assign (s : ListenState n T) (v : T) : ListenState n T :=
  { s with var := { s.var with val := v }, changed := fun _ => true }

/-- `m_cbs[key] = cb`. -/
def add (s : ListenState n T) (key : ℕ) : ListenState n T :=
  { s with
    var := { s.var with cbs := s.var.cbs ++ [key] }
    funId := key
    changed := Function.update s.changed key false }

/-- Keep some of the listeners. -/
def keep (s : ListenState n T) (p : ℕ → Bool) : ListenState n T :=
  { s with var := { s.var with cbs := s.var.cbs.filter p } }

/-- Nobody holds the read lock, so the write lock can be taken. -/
def writable (s : ListenState n T) : Bool := (List.finRange n).all fun t => !(s.pc t).reads

/-- The calls of a listener. -/
def calls (s : ListenState n T) (i : ℕ) : List (Notification T) := s.log.filter fun c => c.listener = i

/-- The value that a listener was told last. -/
def told (s : ListenState n T) (i : ℕ) : Option T := (s.calls i).getLast?.map Notification.new

/-- The step of each label, when it is enabled. -/
def step [BEq T] (s : ListenState n T) : ListenLabel n T → Option (ListenState n T)
  | .start t v =>
    match s.pc t with
    | .idle => some (if s.var.val == v then s else s.setPc t (.notifying v s.var.cbs))
    | _ => none
  | .notify t =>
    match s.pc t with
    | .notifying v (i :: rest) => some ((s.notify i v).setPc t (.notifying v rest))
    | _ => none
  | .unlock t =>
    match s.pc t with
    | .notifying v [] => some (s.setPc t (.storing v))
    | _ => none
  | .store t =>
    match s.pc t with
    | .storing v => if s.writable then some ((s.assign v).setPc t .idle) else none
    | _ => none
  | .addListener others => if s.writable then some (s.add (s.funId + others + 1)) else none
  | .delListener key => if s.writable then some (s.keep (· ≠ key)) else none
  | .clearListener => if s.writable then some (s.keep fun _ => false) else none

/-- No thread is in `setValue`. -/
def Quiet (s : ListenState n T) : Prop := ∀ t, (s.pc t).isIdle = true

/-- When no thread is in `setValue`, each listener that was added before the last store was told the value; and every
call of a listener goes on from the last one. -/
structure Agrees (s : ListenState n T) : Prop where
  stored : s.Quiet → ∀ i ∈ s.var.cbs, s.changed i = true → s.told i = some s.var.val
  chained : ∀ i, (s.calls i).IsChain fun c c' => c'.old = c.new

end ListenState

/-- A variable without listeners, of any value, and threads that are not in `setValue`. -/
def listenSys (n : ℕ) (T : Type) [BEq T] : Transition.Sys (ListenState n T) (ListenLabel n T) where
  init s := s.var.cbs = [] ∧ s.log = [] ∧ s.Quiet
  step := ListenState.step

/-- No call that finds another value begins while another thread is in `setValue`, unless there are no listeners, and
no listener is added then. -/
def ListenLabel.Alone {n : ℕ} {T : Type} [BEq T] (s : ListenState n T) : ListenLabel n T → Prop
  | .start _ v => (s.var.val == v) = true ∨ s.var.cbs = [] ∨ s.Quiet
  | .addListener _ => s.Quiet
  | _ => True

instance {n : ℕ} {T : Type} (s : ListenState n T) : Decidable s.Quiet :=
  decidable_of_iff ((List.finRange n).all fun t => (s.pc t).isIdle) (by simp [ListenState.Quiet, List.mem_finRange])

instance {n : ℕ} {T : Type} [BEq T] (s : ListenState n T) : (a : ListenLabel n T) → Decidable (a.Alone s)
  | .start _ _ => inferInstanceAs (Decidable (_ ∨ _ ∨ _))
  | .addListener _ => inferInstanceAs (Decidable s.Quiet)
  | .notify _ | .unlock _ | .store _ | .delListener _ | .clearListener => inferInstanceAs (Decidable True)

namespace ListenState

variable {n : ℕ} {T : Type} {s : ListenState n T} {t t' : Fin n} {v : T} {i j : ℕ} {c : Notification T}

/-- The listener was told this value last, or was added since and was told nothing. -/
def Knows (s : ListenState n T) (i : ℕ) (v : T) : Prop := s.told i = some v ∨ s.told i = none ∧ s.changed i = false

/-- What the listeners know, by where a thread in `setValue` is. -/
def Tells (s : ListenState n T) : SetPc T → Prop
  | .idle => True
  | .notifying v rest => rest.Nodup ∧ (∀ i ∈ rest, i ∈ s.var.cbs) ∧
    ∀ i ∈ s.var.cbs, if i ∈ rest then s.Knows i s.var.val else s.told i = some v
  | .storing v => ∀ i ∈ s.var.cbs, s.told i = some v

/-- The invariant. Without listeners there may be several threads in `setValue`. -/
structure Inv (s : ListenState n T) : Prop where
  alone : s.var.cbs ≠ [] → ∀ t t', (s.pc t).isIdle = false → (s.pc t').isIdle = false → t = t'
  nodup : s.var.cbs.Nodup
  named : ∀ i ∈ s.var.cbs, i ≤ s.funId
  logged : ∀ c ∈ s.log, c.listener ≤ s.funId
  quiet : s.Quiet → ∀ i ∈ s.var.cbs, s.Knows i s.var.val
  tells : ∀ t, s.Tells (s.pc t)
  chained : ∀ i, (s.calls i).IsChain fun c c' => c'.old = c.new

theorem Inv.agrees (h : s.Inv) : s.Agrees := by
  refine ⟨fun hq i hi hchanged => ?_, h.chained⟩
  rcases h.quiet hq i hi with htold | ⟨-, hnew⟩
  · exact htold
  · rw [hchanged] at hnew
    cases hnew

theorem writable_iff : s.writable = true ↔ ∀ t, (s.pc t).reads = false := by
  simp [writable, List.mem_finRange]

/-! ## One step -/

@[simp] theorem setPc_var (pc : SetPc T) : (s.setPc t pc).var = s.var := rfl
@[simp] theorem setPc_funId (pc : SetPc T) : (s.setPc t pc).funId = s.funId := rfl
@[simp] theorem setPc_log (pc : SetPc T) : (s.setPc t pc).log = s.log := rfl
@[simp] theorem setPc_changed (pc : SetPc T) : (s.setPc t pc).changed = s.changed := rfl
@[simp] theorem setPc_calls (pc : SetPc T) : (s.setPc t pc).calls i = s.calls i := rfl
@[simp] theorem setPc_told (pc : SetPc T) : (s.setPc t pc).told i = s.told i := rfl
@[simp] theorem setPc_knows (pc : SetPc T) : (s.setPc t pc).Knows i v ↔ s.Knows i v := Iff.rfl
theorem setPc_self (pc : SetPc T) : (s.setPc t pc).pc t = pc := Function.update_self ..
theorem setPc_other (pc : SetPc T) (h : t' ≠ t) : (s.setPc t pc).pc t' = s.pc t' := Function.update_of_ne h ..

/-- The call of a listener is the last one of it. -/
theorem calls_notify_self : (s.notify i v).calls i = s.calls i ++ [⟨i, s.var.val, v⟩] := by
  simp [calls, notify]

theorem calls_notify_other (h : j ≠ i) : (s.notify i v).calls j = s.calls j := by
  simp [calls, notify, Ne.symm h]

theorem told_notify_self : (s.notify i v).told i = some v := by
  rw [told, calls_notify_self, List.getLast?_concat]
  rfl

theorem told_notify_other (h : j ≠ i) : (s.notify i v).told j = s.told j := by
  rw [told, calls_notify_other h, told]

/-- The thread is the only one in `setValue`. -/
theorem Inv.others_idle (hi : s.Inv) (hcbs : s.var.cbs ≠ []) (ht : (s.pc t).isIdle = false) (h : t' ≠ t) :
    (s.pc t').isIdle = true := by
  cases hidle : (s.pc t').isIdle with
  | true => rfl
  | false => exact absurd (hi.alone hcbs t' t hidle ht) h

theorem tells_of_idle {pc : SetPc T} (h : pc.isIdle = true) : s.Tells pc := by
  cases pc with
  | idle => trivial
  | notifying | storing => cases h

/-- Without listeners a thread has nobody to tell. -/
theorem Tells.of_nil {s' : ListenState n T} {pc : SetPc T} (h : s.Tells pc) (hnil : s.var.cbs = [])
    (hnil' : s'.var.cbs = []) : s'.Tells pc := by
  have hnone : ∀ i, i ∉ s'.var.cbs := fun i => hnil' ▸ List.not_mem_nil
  cases pc with
  | idle => trivial
  | notifying v rest =>
    obtain ⟨hnodup, hmem, -⟩ := h
    refine ⟨hnodup, fun i hi => ?_, fun i hi => absurd hi (hnone i)⟩
    rw [hnil', ← hnil]
    exact hmem i hi
  | storing v => exact fun i hi => absurd hi (hnone i)

/-- A step of a thread that is alone, or that there are no listeners for. -/
theorem inv_move {s' : ListenState n T} {pc : SetPc T} (hi : s.Inv) (hcbs : s'.var.cbs = s.var.cbs)
    (hid : s'.funId = s.funId) (hpc : s'.pc = s.pc)
    (halone : s.var.cbs ≠ [] → ∀ t' ≠ t, (s.pc t').isIdle = true) (hlog : ∀ c ∈ s'.log, c.listener ≤ s.funId)
    (hchained : ∀ i, (s'.calls i).IsChain fun c c' => c'.old = c.new) (htells : s'.Tells pc)
    (hidle : pc.isIdle = true → ∀ i ∈ s'.var.cbs, s'.Knows i s'.var.val) : (s'.setPc t pc).Inv where
  alone h t₁ t₂ h₁ h₂ := by
    have hother : ∀ t', ((s'.setPc t pc).pc t').isIdle = false → t' = t := by
      intro t' ht'
      by_contra hne
      rw [setPc_other pc hne, hpc, halone (hcbs ▸ h) t' hne] at ht'
      cases ht'
    rw [hother t₁ h₁, hother t₂ h₂]
  nodup := hcbs ▸ hi.nodup
  named := by
    show ∀ i ∈ s'.var.cbs, i ≤ s'.funId
    rw [hcbs, hid]
    exact hi.named
  logged := by
    show ∀ c ∈ s'.log, c.listener ≤ s'.funId
    rw [hid]
    exact hlog
  quiet hq := hidle <| by
    have ht := hq t
    rwa [setPc_self] at ht
  tells t' := by
    by_cases ht : t' = t
    · subst ht
      rw [setPc_self]
      exact htells
    · rw [setPc_other pc ht, hpc]
      by_cases hnil : s.var.cbs = []
      · exact (hi.tells t').of_nil hnil (hcbs.trans hnil)
      · exact tells_of_idle (halone hnil t' ht)
  chained := hchained

theorem inv_start (hi : s.Inv) (hok : s.var.cbs = [] ∨ s.Quiet) : (s.setPc t (.notifying v s.var.cbs)).Inv := by
  refine inv_move hi rfl rfl rfl (fun hcbs t' _ => hok.resolve_left hcbs t') hi.logged hi.chained
    ⟨hi.nodup, fun _ h => h, fun i hmem => ?_⟩ nofun
  rw [if_pos hmem]
  exact hi.quiet (hok.resolve_left (List.ne_nil_of_mem hmem)) i hmem

theorem inv_notify {rest : List ℕ} (hi : s.Inv) (hpc : s.pc t = .notifying v (i :: rest)) :
    ((s.notify i v).setPc t (.notifying v rest)).Inv := by
  have htells := hi.tells t
  rw [hpc] at htells
  obtain ⟨hnodup, hmem, hknow⟩ := htells
  obtain ⟨hi', hnodup⟩ := List.nodup_cons.1 hnodup
  have hcbs : i ∈ s.var.cbs := hmem i List.mem_cons_self
  refine inv_move hi rfl rfl rfl (fun hne t' ht' => hi.others_idle hne (by rw [hpc]; rfl) ht') ?_ ?_
    ⟨hnodup, fun j hj => hmem j (List.mem_cons_of_mem i hj), fun j hj => ?_⟩ nofun
  · intro c hc
    rcases List.mem_append.1 hc with hc | hc
    · exact hi.logged c hc
    · obtain rfl := List.mem_singleton.1 hc
      exact hi.named i hcbs
  · -- the listener knew the value that it is told as the old one
    intro j
    by_cases hj : j = i
    · subst hj
      rw [calls_notify_self]
      refine (hi.chained j).append (List.isChain_singleton _) fun c hc c' hc' => ?_
      obtain rfl := Option.some.inj hc'
      have hold := hknow j hcbs
      rw [if_pos List.mem_cons_self] at hold
      have htold : s.told j = some c.new := by rw [told, hc]; rfl
      rcases hold with hold | ⟨hold, -⟩
      · exact Option.some.inj (hold.symm.trans htold)
      · cases hold.symm.trans htold
    · rw [calls_notify_other hj]
      exact hi.chained j
  · have hold := hknow j hj
    by_cases hji : j = i
    · subst hji
      rw [if_neg hi']
      exact told_notify_self
    · by_cases hrest : j ∈ rest
      · rw [if_pos (List.mem_cons_of_mem i hrest)] at hold
        rw [if_pos hrest, Knows, told_notify_other hji]
        exact hold
      · rw [if_neg (List.not_mem_cons_of_ne_of_not_mem hji hrest)] at hold
        rw [if_neg hrest, told_notify_other hji]
        exact hold

theorem inv_unlock (hi : s.Inv) (hpc : s.pc t = .notifying v []) : (s.setPc t (.storing v)).Inv := by
  have htells := hi.tells t
  rw [hpc] at htells
  obtain ⟨-, -, hknow⟩ := htells
  refine inv_move hi rfl rfl rfl (fun hne t' ht' => hi.others_idle hne (by rw [hpc]; rfl) ht') hi.logged hi.chained
    (fun i hmem => ?_) nofun
  have htold := hknow i hmem
  rwa [if_neg List.not_mem_nil] at htold

theorem inv_store (hi : s.Inv) (hpc : s.pc t = .storing v) : ((s.assign v).setPc t .idle).Inv := by
  have htells := hi.tells t
  rw [hpc] at htells
  exact inv_move hi rfl rfl rfl (fun hne t' ht' => hi.others_idle hne (by rw [hpc]; rfl) ht') hi.logged hi.chained
    trivial fun _ i hmem => .inl (htells i hmem)

theorem inv_add {key : ℕ} (hi : s.Inv) (hq : s.Quiet) (hkey : s.funId < key) : (s.add key).Inv where
  alone _ t _ ht _ := by
    have hidle := hq t
    have hbusy : (s.pc t).isIdle = false := ht
    rw [hbusy] at hidle
    cases hidle
  nodup := by
    refine List.nodup_append.2 ⟨hi.nodup, List.nodup_singleton key, fun i hmem j hj hij => ?_⟩
    obtain rfl := List.mem_singleton.1 hj
    have hle := hi.named i hmem
    omega
  named i hmem := by
    rcases List.mem_append.1 hmem with hmem | hmem
    · exact (hi.named i hmem).trans hkey.le
    · exact (List.mem_singleton.1 hmem).le
  logged c hc := (hi.logged c hc).trans hkey.le
  quiet _ i hmem := by
    have htold : (s.add key).told i = s.told i := rfl
    rw [Knows, htold]
    rcases List.mem_append.1 hmem with hmem | hmem
    · have hne : i ≠ key := ((hi.named i hmem).trans_lt hkey).ne
      have hchanged : (s.add key).changed i = s.changed i := Function.update_of_ne hne ..
      rw [hchanged]
      exact hi.quiet hq i hmem
    · -- a new listener was told nothing
      obtain rfl := List.mem_singleton.1 hmem
      have hnone : s.calls i = [] := List.filter_eq_nil_iff.2 fun c hc heq => by
        have hle := hi.logged c hc
        have := of_decide_eq_true heq
        omega
      exact .inr ⟨by rw [told, hnone]; rfl, Function.update_self ..⟩
  tells t := tells_of_idle (hq t)
  chained := hi.chained

theorem inv_keep (hi : s.Inv) (hw : s.writable = true) (p : ℕ → Bool) : (s.keep p).Inv where
  alone h := hi.alone fun hnil => h (by show s.var.cbs.filter p = []; rw [hnil]; rfl)
  nodup := hi.nodup.filter p
  named i hmem := hi.named i (List.mem_of_mem_filter hmem)
  logged := hi.logged
  quiet hq i hmem := hi.quiet hq i (List.mem_of_mem_filter hmem)
  tells t := by
    have hreads := writable_iff.1 hw t
    have htells := hi.tells t
    show (s.keep p).Tells (s.pc t)
    cases hpc : s.pc t with
    | idle => trivial
    | notifying v rest =>
      rw [hpc] at hreads
      cases hreads
    | storing v =>
      rw [hpc] at htells
      exact fun i hmem => htells i (List.mem_of_mem_filter hmem)
  chained := hi.chained

/-- **One step** of a thread that is alone keeps what the listeners know. -/
theorem inv_step [BEq T] {s' : ListenState n T} {a : ListenLabel n T} (hi : s.Inv) (ha : a.Alone s)
    (h : s.step a = some s') : s'.Inv := by
  cases a with
  | start t v =>
    simp only [step] at h
    split at h
    · split at h
      · cases h
        exact hi
      · rename_i hne
        cases h
        exact inv_start hi (ha.resolve_left hne)
    · cases h
  | notify t =>
    simp only [step] at h
    split at h
    · rename_i hpc
      cases h
      exact inv_notify hi hpc
    · cases h
  | unlock t =>
    simp only [step] at h
    split at h
    · rename_i hpc
      cases h
      exact inv_unlock hi hpc
    · cases h
  | store t =>
    simp only [step] at h
    split at h
    · rename_i hpc
      split at h
      · cases h
        exact inv_store hi hpc
      · cases h
    · cases h
  | addListener others =>
    simp only [step] at h
    split at h
    · cases h
      exact inv_add hi ha (by omega)
    · cases h
  | delListener key =>
    simp only [step] at h
    split at h
    · rename_i hw
      cases h
      exact inv_keep hi hw _
    · cases h
  | clearListener =>
    simp only [step] at h
    split at h
    · rename_i hw
      cases h
      exact inv_keep hi hw _
    · cases h

theorem inv_init [BEq T] (h : (listenSys n T).init s) : s.Inv := by
  obtain ⟨hcbs, hlog, hq⟩ := h
  have hnone : ∀ i, i ∉ s.var.cbs := fun i => hcbs ▸ List.not_mem_nil
  refine ⟨fun hne => absurd hcbs hne, hcbs ▸ List.nodup_nil, fun i hi => absurd hi (hnone i), ?_,
    fun _ i hi => absurd hi (hnone i), fun t => tells_of_idle (hq t), fun i => ?_⟩
  · rw [hlog]
    exact fun _ hc => absurd hc List.not_mem_nil
  · rw [calls, hlog]
    exact List.isChain_nil

end ListenState

/-- **Listeners and value agree** as long as no call that finds another value begins, and no listener is added, while
another thread is in `setValue`. -/
theorem listeners_agree {n : ℕ} {T : Type} [BEq T] (s : ListenState n T)
    (h : (listenSys n T).ReachableWhen (fun s a => a.Alone s) s) : s.Agrees :=
  (h.invariant (fun _ => ListenState.inv_init) fun _ _ _ => ListenState.inv_step).agrees

/-- A variable with the value 0, and two threads. -/
def twoThreads : ListenState 2 ℕ := ⟨⟨0, []⟩, 0, fun _ => .idle, [], fun _ => false⟩

theorem init_twoThreads : (listenSys 2 ℕ).init twoThreads := ⟨rfl, rfl, fun _ => rfl⟩

/-- One thread sets 1, and then the other one 2. -/
theorem listeners_agree_twice : ∃ s : ListenState 2 ℕ, s.told 1 = some 2 ∧ s.Agrees := by
  obtain ⟨s, hs, hp⟩ := (listenSys 2 ℕ).reachableWhen_of_exec (fun s a => a.Alone s) twoThreads init_twoThreads
    [.addListener 0, .start 0 1, .notify 0, .unlock 0, .store 0, .start 1 2, .notify 1, .unlock 1, .store 1]
    (p := fun s => s.told 1 == some 2) rfl
  exact ⟨s, beq_iff_eq.1 hp, listeners_agree s hs⟩

/-- Both threads call the listener, the first one with 1 and the second one with 2, and store in the other order. -/
theorem stored_in_other_order : ∃ s, (listenSys 2 ℕ).Reachable s ∧ s.Quiet ∧ s.told 1 = some 2 ∧ s.var.val = 1 ∧
    ¬s.Agrees := by
  obtain ⟨s, hs, hp⟩ := (listenSys 2 ℕ).reachable_of_exec twoThreads init_twoThreads
    [.addListener 0, .start 0 1, .start 1 2, .notify 0, .notify 1, .unlock 0, .unlock 1, .store 1, .store 0]
    (p := fun s => decide s.Quiet && s.told 1 == some 2 && s.var.val == 1 && s.var.cbs == [1] && s.changed 1)
    rfl
  simp only [Bool.and_eq_true, decide_eq_true_eq, beq_iff_eq] at hp
  obtain ⟨⟨⟨⟨hq, htold⟩, hval⟩, hcbs⟩, hchanged⟩ := hp
  refine ⟨s, hs, hq, htold, hval, fun h => ?_⟩
  have hmem : 1 ∈ s.var.cbs := by
    rw [hcbs]
    exact List.mem_singleton_self 1
  have hstored := h.stored hq 1 hmem hchanged
  rw [htold, hval] at hstored
  cases hstored

end Megalo
