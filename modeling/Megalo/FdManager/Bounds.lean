import Megalo.FdManager.Basic
import Megalo.IOManager.Table

/-!
# Indices of the tables by descriptor

- `FdTable.get` and `FdTable.del` are the members of `FdManager` for any `int`, with the size of the vector compared
  as an `int` and a `resize` that can shrink it; as long as that size fits an `int` and the descriptor is not negative
  they are those of `FdManager` (`FdTable.find_eq`, `FdTable.create_eq`, `FdTable.del_eq`);
- `InBounds`: no index beyond the end of a vector; `slot_inBounds`, `lookup_inBounds` and `lookupGrow_inBounds` say
  when a lookup is;
- `tableSys` is both tables under calls made one at a time. In every state it reaches, a call is in bounds exactly when
  its descriptor is `Safe` for the size of its table (`table_in_bounds_iff`).

There is always memory for a larger vector.
-/

namespace Megalo

open MachineInt

/-! ## `FdManager` for any descriptor -/

namespace FdTable

/-- `m_datas.resize(size)`. -/
def resize (size : ℕ) (datas : List (Option ℕ)) : List (Option ℕ) :=
  datas.take size ++ List.replicate (size - datas.length) none

/-- The first part of `get`: `some` what it returns, or `none` when it goes on to create a context. -/
def find (datas : List (Option ℕ)) (fd : ℤ) (autoCreated : Bool) : Except Fault (Option (Option ℕ)) :=
  if intSize datas.length ≤ fd then .ok (if autoCreated = false then some none else none)
  else (slot datas fd).map fun ctx => if ctx.isSome ∨ autoCreated = false then some ctx else none

/-- The second part of `get`, with the address of the new context. -/
def create (datas : List (Option ℕ)) (fd : ℤ) (ctx : ℕ) : Except Fault (List (Option ℕ)) :=
  let datas := if fd ≥ intSize datas.length then resize (growSize fd) datas else datas
  (slot datas fd).map fun _ => datas.set fd.toNat (some ctx)

/-- `get`: what it returns, and the table. -/
def get (datas : List (Option ℕ)) (fd : ℤ) (autoCreated : Bool) (ctx : ℕ) :
    Except Fault (Option ℕ × List (Option ℕ)) :=
  if fd = -1 then .ok (none, datas)
  else do
    match ← find datas fd autoCreated with
    | some r => return (r, datas)
    | none => return (some ctx, ← create datas fd ctx)

/-- `del`. -/
def del (datas : List (Option ℕ)) (fd : ℤ) : Except Fault (List (Option ℕ)) :=
  if intSize datas.length ≤ fd then .ok datas
  else (slot datas fd).map fun _ => datas.set fd.toNat none

variable {datas : List (Option ℕ)} {fd : ℤ}

theorem length_resize (size : ℕ) : (resize size datas).length = size := by
  rw [resize, List.length_append, List.length_take, List.length_replicate]
  omega

end FdTable

theorem slot_natCast {α : Type*} {l : List α} {fd : ℕ} (h : fd < l.length) : slot l (fd : ℤ) = .ok l[fd] :=
  slot_eq_ok.2 ⟨Int.natCast_nonneg fd, List.getElem?_eq_getElem h⟩

namespace FdTable

variable (m : FdManager) (fd : ℕ)

theorem find_eq (h : m.datas.length < intLimit) (autoCreated : Bool) :
    find m.datas fd autoCreated = .ok (m.lookup fd autoCreated) := by
  rw [find, FdManager.lookup, intSize_of_lt h]
  by_cases hle : m.datas.length ≤ fd
  · rw [if_pos hle, if_pos (by omega)]
  · have hlt : fd < m.datas.length := Nat.lt_of_not_le hle
    have hdata : m.data fd = m.datas[fd] := by
      rw [FdManager.data, List.getElem?_eq_getElem hlt]
      rfl
    rw [if_neg hle, if_neg (by omega), slot_natCast hlt, hdata]
    rfl

theorem create_eq (h : m.datas.length < intLimit) (ctx : ℕ) : create m.datas fd ctx = .ok (m.store fd ctx).datas := by
  have hlength := m.le_length
  show _ = Except.ok
    ((m.datas ++ List.replicate (if m.datas.length ≤ fd then fd * 3 / 2 - m.datas.length else 0) none).set fd
      (some ctx))
  rw [create, intSize_of_lt h]
  by_cases hle : m.datas.length ≤ fd
  · have hgrow : growSize fd = fd * 3 / 2 := by
      unfold growSize
      omega
    have hlt : fd < (resize (growSize fd) m.datas).length := by
      rw [length_resize, hgrow]
      omega
    have hresize : resize (growSize fd) m.datas =
        m.datas ++ List.replicate (fd * 3 / 2 - m.datas.length) none := by
      rw [resize, hgrow, List.take_of_length_le (by omega)]
    rw [if_pos hle, if_pos (by omega), ← hresize, slot_natCast hlt]
    rfl
  · have hlt : fd < m.datas.length := Nat.lt_of_not_le hle
    rw [if_neg hle, if_neg (by omega), slot_natCast hlt]
    simp [Except.map]

theorem del_eq (h : m.datas.length < intLimit) : del m.datas fd = .ok (m.del fd).datas := by
  show _ = Except.ok (if m.datas.length ≤ fd then m.datas else m.datas.set fd none)
  rw [del, intSize_of_lt h]
  by_cases hle : m.datas.length ≤ fd
  · rw [if_pos hle, if_pos (by omega)]
  · rw [if_neg hle, if_neg (by omega), slot_natCast (Nat.lt_of_not_le hle)]
    rfl

end FdTable

/-! ## In bounds -/

universe u

/-- No index is beyond the end of its vector. -/
def InBounds {β : Type*} (x : Except Fault β) : Prop := x ≠ .error .outOfBounds

section

variable {α β γ : Type u} {l : List α} {fd : ℤ} {x : Except Fault β}

theorem inBounds_ok (v : β) : InBounds (.ok v : Except Fault β) := nofun

theorem inBounds_map {β γ : Type*} {x : Except Fault β} (f : β → γ) : InBounds (x.map f) ↔ InBounds x := by
  cases x with
  | ok v => exact iff_of_true (inBounds_ok _) (inBounds_ok v)
  | error e => simp [InBounds, Except.map]

theorem inBounds_bind {f : β → Except Fault γ} :
    InBounds (x >>= f) ↔ InBounds x ∧ ∀ v, x = .ok v → InBounds (f v) := by
  cases x with
  | ok v => simp [Throw.ok_bind, inBounds_ok]
  | error e => simp [Throw.error_bind, InBounds]

/-- What follows a lookup has no index of its own. -/
theorem inBounds_bind_of {f : β → Except Fault γ} (hf : ∀ v, InBounds (f v)) : InBounds (x >>= f) ↔ InBounds x :=
  inBounds_bind.trans (and_iff_left fun v _ => hf v)

theorem slot_inBounds : InBounds (slot l fd) ↔ 0 ≤ fd ∧ fd < l.length := by
  cases hs : slot l fd with
  | ok c =>
    obtain ⟨hfd, hget⟩ := slot_eq_ok.1 hs
    have hlt := (List.getElem?_eq_some_iff.1 hget).1
    exact iff_of_true (inBounds_ok c) ⟨hfd, by omega⟩
  | error e =>
    have hout : e = .outOfBounds := by
      unfold slot at hs
      split at hs
      · cases hs
        rfl
      · split at hs
        · cases hs
        · cases hs
          rfl
    refine iff_of_false (fun h => h (congrArg _ hout)) ?_
    rintro ⟨hfd, hlt⟩
    lift fd to ℕ using hfd
    rw [slot_natCast (by omega)] at hs
    cases hs

/-- The descriptors for which the functions that do not grow a table of `n` entries stay in bounds. -/
def Found (n : ℕ) (fd : ℤ) : Prop := 0 ≤ fd ∨ intSize n ≤ fd

/-- The descriptors for which the functions that grow it do. -/
def Grown (n : ℕ) (fd : ℤ) : Prop := 2 ≤ fd ∨ 0 ≤ fd ∧ n < intLimit

theorem slot_inBounds_of_lt (h : fd < intSize l.length) : InBounds (slot l fd) ↔ 0 ≤ fd := by
  have hle := intSize_le l.length
  rw [slot_inBounds]
  omega

theorem lookup_inBounds : InBounds (lookup l fd) ↔ Found l.length fd := by
  rw [lookup, Found]
  split
  · rename_i hle
    exact iff_of_true (inBounds_ok _) (.inr hle)
  · rename_i hlt
    rw [inBounds_map, slot_inBounds_of_lt (by omega), or_iff_left hlt]

/-- A table of two entries at least, and of fewer than 2^32. -/
def Sound (n : ℕ) : Prop := 2 ≤ n ∧ n < 0x100000000

/-- The size of the table after growth. -/
theorem sound_growSize {fd : ℤ} (h : 2 ≤ fd) (hint : fd < 0x80000000) : Sound (growSize fd) := by
  unfold Sound growSize
  omega

/-- A table that was grown for a descriptor that is found in it. -/
theorem sound_of_slot {c : α} (h : slot l fd = .ok c) (hl : l.length = growSize fd) (hint : fd < 0x80000000) :
    Sound l.length := by
  obtain ⟨hfd, hget⟩ := slot_eq_ok.1 h
  have hlt := (List.getElem?_eq_some_iff.1 hget).1
  rw [hl] at hlt ⊢
  unfold growSize at hlt
  exact sound_growSize (by omega) hint

theorem grown_inBounds (hl : Sound l.length) {l' : List α} (hl' : l'.length = growSize fd) :
    (InBounds (if intSize l.length > fd then slot l fd else slot l' fd)) ↔ Grown l.length fd := by
  obtain ⟨htwo, hlimit⟩ := hl
  rw [Grown]
  split
  · rename_i hlt
    rw [slot_inBounds_of_lt hlt]
    rcases Nat.lt_or_ge l.length intLimit with hn | hn
    · omega
    · have hneg := intSize_neg hn hlimit
      omega
  · rename_i hle
    have hgrow : fd < l'.length ↔ 2 ≤ fd ∨ fd < 0 := by
      rw [hl']
      unfold growSize
      omega
    rw [slot_inBounds, hgrow]
    rcases Nat.lt_or_ge l.length intLimit with hn | hn
    · rw [intSize_of_lt hn] at hle
      omega
    · omega

theorem lookupGrow_inBounds (new : ℕ → α) (hl : Sound l.length) :
    InBounds (lookupGrow new l fd) ↔ Grown l.length fd := by
  rw [lookupGrow, ← grown_inBounds hl (length_contextResize new (growSize fd) l)]
  split
  · exact inBounds_map _
  · exact inBounds_map _

end

namespace FdTable

variable {datas datas' : List (Option ℕ)} {fd : ℤ} {ctx : ℕ}

theorem create_inBounds (hl : Sound datas.length) : InBounds (create datas fd ctx) ↔ Grown datas.length fd := by
  rw [create, inBounds_map, ← grown_inBounds hl (length_resize (growSize fd))]
  by_cases hle : fd ≥ intSize datas.length
  · rw [if_pos hle, if_neg (by omega)]
  · rw [if_neg hle, if_pos (by omega)]

theorem get_inBounds (hl : Sound datas.length) (autoCreated : Bool) : InBounds (get datas fd autoCreated ctx) ↔
    fd = -1 ∨ if autoCreated then Grown datas.length fd else Found datas.length fd := by
  rw [get]
  by_cases hfd : fd = -1
  · rw [if_pos hfd]
    exact iff_of_true (inBounds_ok _) (.inl hfd)
  · rw [if_neg hfd, or_iff_right hfd]
    have hcreate : InBounds (create datas fd ctx) ↔ Grown datas.length fd := create_inBounds hl
    by_cases hle : intSize datas.length ≤ fd
    · rw [find, if_pos hle, Throw.ok_bind]
      cases autoCreated with
      | false => exact iff_of_true (inBounds_ok _) (.inr hle)
      | true => exact (inBounds_bind_of fun _ => inBounds_ok _).trans hcreate
    · have hfind : InBounds (find datas fd autoCreated) ↔ 0 ≤ fd := by
        rw [find, if_neg hle, inBounds_map, slot_inBounds_of_lt (by omega)]
      rw [inBounds_bind, hfind]
      rcases lt_or_ge fd 0 with hneg | hpos
      · refine iff_of_false (fun h => absurd h.1 (not_le.2 hneg)) ?_
        cases autoCreated with
        | false =>
          rintro (h | h)
          · exact absurd h (not_le.2 hneg)
          · exact hle h
        | true =>
          rintro (h | h)
          · omega
          · exact absurd h.1 (not_le.2 hneg)
      · have hgrown : Grown datas.length fd := by
          refine .inr ⟨hpos, Nat.lt_of_not_le fun hn => ?_⟩
          have := intSize_neg hn hl.2
          omega
        refine iff_of_true ⟨hpos, fun v _ => ?_⟩ ?_
        · cases v with
          | some r => exact inBounds_ok _
          | none => exact (inBounds_bind_of fun _ => inBounds_ok _).2 (hcreate.2 hgrown)
        · cases autoCreated with
          | false => exact .inl hpos
          | true => exact hgrown

theorem create_sound (hl : Sound datas.length) (hint : fd < 0x80000000) (h : create datas fd ctx = .ok datas') :
    Sound datas'.length := by
  obtain ⟨c, hs, rfl⟩ := Throw.map_eq_ok_iff.1 h
  rw [List.length_set]
  by_cases hle : fd ≥ intSize datas.length
  · rw [if_pos hle] at hs ⊢
    exact sound_of_slot hs (length_resize _) hint
  · rwa [if_neg hle]

theorem get_sound (hl : Sound datas.length) (hint : fd < 0x80000000) {autoCreated : Bool}
    {r : Option ℕ × List (Option ℕ)} (h : get datas fd autoCreated ctx = .ok r) : Sound r.2.length := by
  rw [get] at h
  split at h
  · cases h
    exact hl
  · obtain ⟨v, -, h⟩ := Throw.bind_eq_ok_iff.1 h
    cases v with
    | some r' =>
      cases h
      exact hl
    | none =>
      obtain ⟨datas', hcreate, h⟩ := Throw.bind_eq_ok_iff.1 h
      cases h
      exact create_sound hl hint hcreate

theorem length_del (h : del datas fd = .ok datas') : datas'.length = datas.length := by
  rw [del] at h
  split at h
  · cases h
    rfl
  · obtain ⟨c, -, rfl⟩ := Throw.map_eq_ok_iff.1 h
    exact List.length_set

end FdTable

/-! ## Calls -/

/-- The table of `FdManager` and the event manager. -/
structure TableState (ς φ κ : Type*) where
  datas : List (Option ℕ)
  iom : IOManager ς φ κ

/-- A call for a descriptor; a new `FdCtx` gets an address. -/
inductive TableCall (ς φ κ : Type*)
  | get (fd : Int32) (autoCreated : Bool) (ctx : ℕ)
  | del (fd : Int32)
  | addEvent (ctl : EpollCtl) (caller : Caller ς φ) (fd : Int32) (event : Event) (cb : Option κ)
  | delEvent (ctl : EpollCtl) (fd : Int32) (event : Event)
  | cancelEvent (ctl : EpollCtl) (fd : Int32) (event : Event)
  | cancelAll (ctl : EpollCtl) (fd : Int32)

namespace TableCall

variable {ς φ κ : Type*}

def run (s : TableState ς φ κ) : TableCall ς φ κ → Except Fault (TableState ς φ κ)
  | get fd autoCreated ctx => (FdTable.get s.datas fd.toInt autoCreated ctx).map fun r => { s with datas := r.2 }
  | del fd => (FdTable.del s.datas fd.toInt).map fun datas => { s with datas := datas }
  | addEvent ctl caller fd event cb =>
    (s.iom.addEvent ctl caller fd.toInt event cb).map fun r => { s with iom := r.2 }
  | delEvent ctl fd event => (s.iom.delEvent ctl fd.toInt event).map fun r => { s with iom := r.2 }
  | cancelEvent ctl fd event => (s.iom.cancelEvent ctl fd.toInt event).map fun r => { s with iom := r.2 }
  | cancelAll ctl fd => (s.iom.cancelAll ctl fd.toInt).map fun r => { s with iom := r.2 }

/-- The descriptor suits the size of the table. -/
def Safe (s : TableState ς φ κ) : TableCall ς φ κ → Prop
  | get fd autoCreated _ =>
    fd = -1 ∨ if autoCreated then Grown s.datas.length fd.toInt else Found s.datas.length fd.toInt
  | del fd => Found s.datas.length fd.toInt
  | addEvent _ _ fd _ _ => Grown s.iom.fdContexts.length fd.toInt
  | delEvent _ fd _ | cancelEvent _ fd _ | cancelAll _ fd => Found s.iom.fdContexts.length fd.toInt

end TableCall

/-- Both tables, under calls made one at a time. -/
def tableSys (ς φ κ : Type*) : Transition.Sys (TableState ς φ κ) (TableCall ς φ κ) where
  init s := s = ⟨FdManager.new.datas, .new⟩
  step s c := (c.run s).toOption

section

variable {ς φ κ : Type u} {ctx : FdContext ς φ κ}

/-! ## Sections under a lock have no index -/

theorem inBounds_triggerEvent (event : Event) : InBounds (ctx.triggerEvent event) := by
  unfold FdContext.triggerEvent
  split
  · exact nofun
  · dsimp only
    split
    · exact nofun
    · split <;> exact nofun

theorem inBounds_addEvent (ctl : EpollCtl) (caller : Caller ς φ) (event : Event) (cb : Option κ) :
    InBounds (ctx.addEvent ctl caller event cb) := by
  unfold FdContext.addEvent
  split
  · exact nofun
  · dsimp only
    split
    · exact nofun
    · split
      · exact nofun
      · split
        · exact nofun
        · split <;> exact nofun

theorem inBounds_cancelEvent (ctl : EpollCtl) (event : Event) : InBounds (ctx.cancelEvent ctl event) := by
  unfold FdContext.cancelEvent
  split
  · exact nofun
  · dsimp only
    split
    · exact nofun
    · exact (inBounds_bind_of fun r => inBounds_ok _).2 (inBounds_triggerEvent event)

theorem inBounds_triggerIf (mask : EventMask) (event : Event) (r : Locked ς φ κ Bool) :
    InBounds (FdContext.triggerIf mask event r) := by
  unfold FdContext.triggerIf
  split
  · exact (inBounds_bind_of fun r => inBounds_ok _).2 (inBounds_triggerEvent event)
  · exact nofun

theorem inBounds_cancelAll (ctl : EpollCtl) : InBounds (ctx.cancelAll ctl) := by
  unfold FdContext.cancelAll
  split
  · exact nofun
  · split
    · exact nofun
    · refine (inBounds_bind_of fun r => (inBounds_bind_of fun r => ?_).2 ?_).2 ?_
      · split <;> exact nofun
      · exact inBounds_triggerIf _ _ _
      · exact inBounds_triggerIf _ _ _

/-! ## Every call -/

/-- Both tables have a size that the comparisons can handle. -/
def TableState.Sound (s : TableState ς φ κ) : Prop :=
  Megalo.Sound s.datas.length ∧ Megalo.Sound s.iom.fdContexts.length

theorem call_inBounds_iff {s : TableState ς φ κ} (h : s.Sound) (c : TableCall ς φ κ) :
    InBounds (c.run s) ↔ c.Safe s := by
  cases c with
  | get fd autoCreated ctx =>
    have hfd : fd = -1 ↔ fd.toInt = -1 := by rw [← Int32.toInt_inj]; rfl
    rw [TableCall.run, inBounds_map, FdTable.get_inBounds h.1, TableCall.Safe, hfd]
  | del fd =>
    rw [TableCall.run, inBounds_map, FdTable.del, TableCall.Safe, ← lookup_inBounds, lookup]
    split
    · exact iff_of_true (inBounds_ok _) (inBounds_ok _)
    · rw [inBounds_map, inBounds_map]
  | addEvent ctl caller fd event cb =>
    rw [TableCall.run, inBounds_map, IOManager.addEvent, TableCall.Safe, ← lookupGrow_inBounds FdContext.new h.2]
    exact inBounds_bind_of fun r => (inBounds_bind_of fun _ => inBounds_ok _).2 (inBounds_addEvent _ _ _ _)
  | delEvent ctl fd event =>
    rw [TableCall.run, inBounds_map, IOManager.delEvent, TableCall.Safe, ← lookup_inBounds]
    refine inBounds_bind_of fun r => ?_
    cases r <;> exact inBounds_ok _
  | cancelEvent ctl fd event =>
    rw [TableCall.run, inBounds_map, IOManager.cancelEvent, TableCall.Safe, ← lookup_inBounds]
    refine inBounds_bind_of fun r => ?_
    cases r with
    | none => exact inBounds_ok _
    | some ctx => exact (inBounds_bind_of fun _ => inBounds_ok _).2 (inBounds_cancelEvent _ _)
  | cancelAll ctl fd =>
    rw [TableCall.run, inBounds_map, IOManager.cancelAll, TableCall.Safe, ← lookup_inBounds]
    refine inBounds_bind_of fun r => ?_
    cases r with
    | none => exact inBounds_ok _
    | some ctx => exact (inBounds_bind_of fun _ => inBounds_ok _).2 (inBounds_cancelAll _)

theorem lookupGrow_sound {α : Type u} {new : ℕ → α} {l : List α} {fd : ℤ} {r : List α × α} (hl : Sound l.length)
    (hint : fd < 0x80000000) (h : lookupGrow new l fd = .ok r) : Sound r.1.length := by
  rw [lookupGrow] at h
  split at h
  · obtain ⟨c, -, rfl⟩ := Throw.map_eq_ok_iff.1 h
    exact hl
  · obtain ⟨c, hs, rfl⟩ := Throw.map_eq_ok_iff.1 h
    exact sound_of_slot hs (length_contextResize _ _ _) hint

/-- What a locked section writes back does not move the end of the table. -/
theorem length_commit {β : Type*} (m : IOManager ς φ κ) (fd : ℤ) (r : Locked ς φ κ β) :
    (m.commit fd r).fdContexts.length = m.fdContexts.length :=
  List.length_set

theorem addEvent_sound {m : IOManager ς φ κ} {ctl : EpollCtl} {caller : Caller ς φ} {fd : ℤ} {event : Event}
    {cb : Option κ} {r : ℤ × IOManager ς φ κ} (hm : Sound m.fdContexts.length) (hint : fd < 0x80000000)
    (h : m.addEvent ctl caller fd event cb = .ok r) : Sound r.2.fdContexts.length := by
  obtain ⟨⟨l, ctx⟩, hl, h⟩ := Throw.bind_eq_ok_iff.1 h
  obtain ⟨r', -, h⟩ := Throw.bind_eq_ok_iff.1 h
  cases h
  rw [length_commit]
  exact lookupGrow_sound hm hint hl

section

variable {m : IOManager ς φ κ} {ctl : EpollCtl} {fd : ℤ} {event : Event} {r : Bool × IOManager ς φ κ}

theorem length_delEvent (h : m.delEvent ctl fd event = .ok r) : r.2.fdContexts.length = m.fdContexts.length := by
  obtain ⟨v, -, h⟩ := Throw.bind_eq_ok_iff.1 h
  cases v with
  | none =>
    cases h
    rfl
  | some ctx =>
    cases h
    exact length_commit _ _ _

theorem length_cancelEvent (h : m.cancelEvent ctl fd event = .ok r) :
    r.2.fdContexts.length = m.fdContexts.length := by
  obtain ⟨v, -, h⟩ := Throw.bind_eq_ok_iff.1 h
  cases v with
  | none =>
    cases h
    rfl
  | some ctx =>
    obtain ⟨r', -, h⟩ := Throw.bind_eq_ok_iff.1 h
    cases h
    exact length_commit _ _ _

theorem length_cancelAll (h : m.cancelAll ctl fd = .ok r) : r.2.fdContexts.length = m.fdContexts.length := by
  obtain ⟨v, -, h⟩ := Throw.bind_eq_ok_iff.1 h
  cases v with
  | none =>
    cases h
    rfl
  | some ctx =>
    obtain ⟨r', -, h⟩ := Throw.bind_eq_ok_iff.1 h
    cases h
    exact length_commit _ _ _

end

/-- What a call that returns has come to. -/
theorem toOption_map_eq_some {β γ : Type*} {x : Except Fault β} {f : β → γ} {t : γ}
    (h : (x.map f).toOption = some t) : ∃ r, x = .ok r ∧ f r = t := by
  cases x with
  | ok r => exact ⟨r, rfl, Option.some.inj h⟩
  | error e => cases h

theorem toInt_lt_limit (fd : Int32) : fd.toInt < 0x80000000 := by
  have hlt := fd.toInt_lt
  omega

theorem tableSys_sound {s t : TableState ς φ κ} {c : TableCall ς φ κ} (hs : s.Sound)
    (h : (tableSys ς φ κ).step s c = some t) : t.Sound := by
  change (c.run s).toOption = some t at h
  cases c with
  | get fd autoCreated ctx =>
    rw [TableCall.run] at h
    obtain ⟨r, hr, rfl⟩ := toOption_map_eq_some h
    exact ⟨FdTable.get_sound hs.1 (toInt_lt_limit fd) hr, hs.2⟩
  | del fd =>
    rw [TableCall.run] at h
    obtain ⟨datas, hr, rfl⟩ := toOption_map_eq_some h
    refine ⟨?_, hs.2⟩
    show Sound datas.length
    rw [FdTable.length_del hr]
    exact hs.1
  | addEvent ctl caller fd event cb =>
    rw [TableCall.run] at h
    obtain ⟨r, hr, rfl⟩ := toOption_map_eq_some h
    exact ⟨hs.1, addEvent_sound hs.2 (toInt_lt_limit fd) hr⟩
  | delEvent ctl fd event =>
    rw [TableCall.run] at h
    obtain ⟨r, hr, rfl⟩ := toOption_map_eq_some h
    refine ⟨hs.1, ?_⟩
    show Sound r.2.fdContexts.length
    rw [length_delEvent hr]
    exact hs.2
  | cancelEvent ctl fd event =>
    rw [TableCall.run] at h
    obtain ⟨r, hr, rfl⟩ := toOption_map_eq_some h
    refine ⟨hs.1, ?_⟩
    show Sound r.2.fdContexts.length
    rw [length_cancelEvent hr]
    exact hs.2
  | cancelAll ctl fd =>
    rw [TableCall.run] at h
    obtain ⟨r, hr, rfl⟩ := toOption_map_eq_some h
    refine ⟨hs.1, ?_⟩
    show Sound r.2.fdContexts.length
    rw [length_cancelAll hr]
    exact hs.2

theorem sound_reachable {s : TableState ς φ κ} (h : (tableSys ς φ κ).Reachable s) : s.Sound := by
  refine h.invariant ?_ fun s c t hs _ hstep => tableSys_sound hs hstep
  rintro s rfl
  have hdatas : FdManager.new.datas.length = 64 := List.length_replicate
  have hcontexts : (IOManager.new : IOManager ς φ κ).fdContexts.length = 32 := length_contextResize _ _ _
  refine ⟨?_, ?_⟩
  · rw [hdatas]
    exact ⟨by decide, by decide⟩
  · rw [hcontexts]
    exact ⟨by decide, by decide⟩

end

/-- **Indices by descriptor.** In every state that calls made one at a time reach, a call has only indices below the
size of its table exactly when its descriptor is safe: for the functions that do not grow it, when the descriptor is
not negative or at least the size as an `int`; for those that do, when it is 2 at least, or not negative and the size
fits an `int`; -1 is safe for `get`. -/
theorem table_in_bounds_iff {ς φ κ : Type u} {s : TableState ς φ κ} (h : (tableSys ς φ κ).Reachable s)
    (c : TableCall ς φ κ) : InBounds (c.run s) ↔ c.Safe s :=
  call_inBounds_iff (sound_reachable h) c

/-- Both tables have grown. -/
theorem table_in_bounds_iff_new : ∃ s : TableState Unit Unit Unit, (tableSys Unit Unit Unit).Reachable s ∧
    s.datas.length = 150 ∧ s.iom.fdContexts.length = 60 ∧ InBounds ((TableCall.get 149 true 8).run s) ∧
    InBounds ((TableCall.delEvent (fun _ _ => true) 40 .read).run s) ∧ ¬ InBounds ((TableCall.del (-1)).run s) := by
  obtain ⟨s, hs, hp⟩ := Transition.Sys.reachable_of_exec (S := tableSys Unit Unit Unit) ⟨FdManager.new.datas, .new⟩ rfl
    [.get 100 true 7, .addEvent (fun _ _ => true) ⟨some (), (), true⟩ 40 .read none]
    (p := fun s => decide (s.datas.length = 150 ∧ s.iom.fdContexts.length = 60)) (by decide +kernel)
  obtain ⟨hdatas, hcontexts⟩ := of_decide_eq_true hp
  refine ⟨s, hs, hdatas, hcontexts, (table_in_bounds_iff hs _).2 (.inr (.inl (by decide))),
    (table_in_bounds_iff hs _).2 (.inl (by decide)), fun h => ?_⟩
  rcases (table_in_bounds_iff hs _).1 h with hneg | hsize
  · exact absurd hneg (by decide)
  · rw [hdatas] at hsize
    exact absurd hsize (by decide)

/-- `cancelAll` of a socket that is closed, whose descriptor is -1. -/
theorem cancelAll_out_of_bounds : (tableSys Unit Unit Unit).Reachable ⟨FdManager.new.datas, .new⟩ ∧
    ¬ InBounds ((TableCall.cancelAll (fun _ _ => true) (-1)).run
      (⟨FdManager.new.datas, .new⟩ : TableState Unit Unit Unit)) := by
  have hreach : (tableSys Unit Unit Unit).Reachable ⟨FdManager.new.datas, .new⟩ := .init rfl
  refine ⟨hreach, fun h => ?_⟩
  rcases (call_inBounds_iff (sound_reachable hreach) _).1 h with hneg | hsize
  · exact absurd hneg (by decide)
  · exact absurd hsize (by decide)

end Megalo
