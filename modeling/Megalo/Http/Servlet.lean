import Mathlib.Data.Int.Notation
import Mathlib.Logic.Function.Basic
import Megalo.Lib.History

/-!
# `ServletDispatch`

- `ServletDispatch` has the servlets by uri, the list of the globs with their servlets, and the default; a
  `Servlet::ptr` is a servlet with its address, or null, and `fnmatch` is a function of the two C strings and the
  flags;
- what a history of calls leaves is seen through two views of it, `exactView` and `globView`: the map has the live entry
  of each uri and the list has the live globs in the order of their calls (`Follows`). Each call keeps this
  (`Follows.call`), so it holds after any number of calls (`follows_calls`);
- so `getMatchServlet` is the selection by the history, `Selected` (`match_follows_history`).
-/

namespace Megalo

/-- A servlet: its address and, when it is a `FunctionServlet`, its callback. -/
inductive Servlet (C : Type*)
  | function (addr : ℕ) (cb : C)
  | notFound (addr : ℕ)
  | other (addr : ℕ)
  deriving DecidableEq

/-- The call of a member of `ServletDispatch` that changes it. The overloads with a callback are `addServletFn` and
`addGlobServletFn`, with the address of the servlet that they make. -/
inductive ServletCall (C : Type*)
  | addServlet (uri : List UInt8) (slt : Option (Servlet C))
  | addServletFn (uri : List UInt8) (addr : ℕ) (cb : C)
  | addGlobServlet (uri : List UInt8) (slt : Option (Servlet C))
  | addGlobServletFn (uri : List UInt8) (addr : ℕ) (cb : C)
  | delServlet (uri : List UInt8)
  | delGlobServlet (uri : List UInt8)
  | setDefault (v : Option (Servlet C))

/-- The members of a `ServletDispatch`. -/
structure ServletDispatch (C : Type*) where
  datas : List UInt8 → Option (Option (Servlet C))
  globs : List (List UInt8 × Option (Servlet C))
  default : Option (Servlet C)

/-- `c_str()`, as a function that takes a C string reads it. -/
def cStr (s : List UInt8) : List UInt8 := s.takeWhile (· ≠ 0)

namespace ServletDispatch

variable {C : Type*}

/-- The constructor, with the address of the `NotFoundServlet`. -/
def new (addr : ℕ) : ServletDispatch C := ⟨fun _ => none, [], some (.notFound addr)⟩

/-- `addServlet`. -/
def addServlet (d : ServletDispatch C) (uri : List UInt8) (slt : Option (Servlet C)) : ServletDispatch C :=
  { d with datas := Function.update d.datas uri (some slt) }

/-- `addServlet` with a callback: `m_datas[uri].reset(new FunctionServlet(cb))`. -/
def addServletFn (d : ServletDispatch C) (uri : List UInt8) (addr : ℕ) (cb : C) : ServletDispatch C :=
  { d with datas := Function.update d.datas uri (some (some (.function addr cb))) }

/-- `delServlet`. -/
def delServlet (d : ServletDispatch C) (uri : List UInt8) : ServletDispatch C :=
  { d with datas := Function.update d.datas uri none }

/-- `delGlobServlet`: the loop erases the first hit and breaks. -/
def delGlobServlet (d : ServletDispatch C) (uri : List UInt8) : ServletDispatch C :=
  { d with globs := d.globs.eraseP fun it => it.1 = uri }

/-- `addGlobServlet`: the same loop, and then `push_back`. -/
def addGlobServlet (d : ServletDispatch C) (uri : List UInt8) (slt : Option (Servlet C)) : ServletDispatch C :=
  { d with globs := (d.globs.eraseP fun it => it.1 = uri) ++ [(uri, slt)] }

/-- `addGlobServlet` with a callback. -/
def addGlobServletFn (d : ServletDispatch C) (uri : List UInt8) (addr : ℕ) (cb : C) : ServletDispatch C :=
  d.addGlobServlet uri (some (.function addr cb))

/-- `setDefault`. -/
def setDefault (d : ServletDispatch C) (v : Option (Servlet C)) : ServletDispatch C := { d with default := v }

/-- `getServlet`. -/
def getServlet (d : ServletDispatch C) (uri : List UInt8) : Option (Servlet C) := (d.datas uri).getD none

/-- `getGlobServlet`. -/
def getGlobServlet (d : ServletDispatch C) (uri : List UInt8) : Option (Servlet C) :=
  ((d.globs.find? fun it => it.1 = uri).map Prod.snd).getD none

/-- `!fnmatch(pattern, uri, 0)`. -/
def globMatches (fnmatch : List UInt8 → List UInt8 → ℤ → ℤ) (uri pattern : List UInt8) : Bool :=
  fnmatch (cStr pattern) (cStr uri) 0 = 0

/-- `getMatchServlet`. -/
def getMatchServlet (fnmatch : List UInt8 → List UInt8 → ℤ → ℤ) (d : ServletDispatch C) (uri : List UInt8) :
    Option (Servlet C) :=
  match d.datas uri with
  | some slt => slt
  | none =>
    match d.globs.find? fun it => globMatches fnmatch uri it.1 with
    | some it => it.2
    | none => d.default

/-- A call. -/
def call (d : ServletDispatch C) : ServletCall C → ServletDispatch C
  | .addServlet uri slt => d.addServlet uri slt
  | .addServletFn uri addr cb => d.addServletFn uri addr cb
  | .addGlobServlet uri slt => d.addGlobServlet uri slt
  | .addGlobServletFn uri addr cb => d.addGlobServletFn uri addr cb
  | .delServlet uri => d.delServlet uri
  | .delGlobServlet uri => d.delGlobServlet uri
  | .setDefault v => d.setDefault v

/-- One call after the other. -/
def calls (d : ServletDispatch C) (cs : List (ServletCall C)) : ServletDispatch C := cs.foldl call d

/-! ## What a history leaves -/

/-- The servlets that are added and deleted by uri. -/
def exactView : History.View (ServletCall C) (List UInt8) (Option (Servlet C)) where
  adds
    | .addServlet uri slt => some (uri, slt)
    | .addServletFn uri addr cb => some (uri, some (.function addr cb))
    | _ => none
  removes
    | .delServlet uri => some uri
    | _ => none

/-- The servlets that are added and deleted by pattern. -/
def globView : History.View (ServletCall C) (List UInt8) (Option (Servlet C)) where
  adds
    | .addGlobServlet uri slt => some (uri, slt)
    | .addGlobServletFn uri addr cb => some (uri, some (.function addr cb))
    | _ => none
  removes
    | .delGlobServlet uri => some uri
    | _ => none

/-- The default that a call sets. -/
def defaultOf : ServletCall C → Option (Option (Servlet C))
  | .setDefault v => some v
  | _ => none

/-- The default after a history: what the last `setDefault` gave, or the `NotFoundServlet` of the constructor. -/
def currentDefault (addr : ℕ) (cs : List (ServletCall C)) : Option (Servlet C) :=
  (cs.filterMap defaultOf).getLastD (some (.notFound addr))

/-- The servlet that a history selects for a uri: that of the last live `addServlet` of it; without one, that of the
live glob that matches whose call is the oldest; without one, the default. -/
inductive Selected (fnmatch : List UInt8 → List UInt8 → ℤ → ℤ) (addr : ℕ) (cs : List (ServletCall C))
    (uri : List UInt8) : Option (Servlet C) → Prop
  | exact {i : ℕ} {slt : Option (Servlet C)} : exactView.LiveAt cs i uri slt → Selected fnmatch addr cs uri slt
  | glob {i : ℕ} {pattern : List UInt8} {slt : Option (Servlet C)} :
      (∀ j s, ¬ exactView.LiveAt cs j uri s) →
      globView.LiveAt cs i pattern slt → globMatches fnmatch uri pattern →
      (∀ j p s, globView.LiveAt cs j p s → globMatches fnmatch uri p → i ≤ j) →
      Selected fnmatch addr cs uri slt
  | default :
      (∀ j s, ¬ exactView.LiveAt cs j uri s) →
      (∀ j p s, globView.LiveAt cs j p s → ¬ globMatches fnmatch uri p) →
      Selected fnmatch addr cs uri (currentDefault addr cs)

/-- The members are what the history leaves. -/
structure Follows (addr : ℕ) (d : ServletDispatch C) (cs : List (ServletCall C)) : Prop where
  datas (uri : List UInt8) (slt : Option (Servlet C)) :
    d.datas uri = some slt ↔ ∃ i, exactView.LiveAt cs i uri slt
  globs : d.globs = globView.live cs
  default : d.default = currentDefault addr cs

theorem follows_new (addr : ℕ) : Follows addr (new addr : ServletDispatch C) [] where
  datas uri slt := by
    constructor
    · intro h
      cases h
    · rintro ⟨i, hi⟩
      exact absurd hi History.not_liveAt_nil
  globs := rfl
  default := rfl

variable {addr : ℕ} {d : ServletDispatch C} {cs : List (ServletCall C)} {uri : List UInt8}

/-- A call that sets a uri in the map. -/
theorem Follows.datas_add (h : Follows addr d cs) {c : ServletCall C} {slt : Option (Servlet C)}
    (hadds : exactView.adds c = some (uri, slt)) (hrem : exactView.removes c = none) (key : List UInt8)
    (v : Option (Servlet C)) :
    Function.update d.datas uri (some slt) key = some v ↔ ∃ i, exactView.LiveAt (cs ++ [c]) i key v := by
  rw [History.exists_liveAt_snoc, ← h.datas, History.View.Touches, hadds, hrem]
  by_cases hk : key = uri
  · subst hk
    simp
  · have hk' : uri ≠ key := fun he => hk he.symm
    simp [hk, hk']

/-- A call that leaves the map alone. -/
theorem Follows.datas_skip (h : Follows addr d cs) {c : ServletCall C} (hadds : exactView.adds c = none)
    (hrem : exactView.removes c = none) (key : List UInt8) (v : Option (Servlet C)) :
    d.datas key = some v ↔ ∃ i, exactView.LiveAt (cs ++ [c]) i key v := by
  rw [History.exists_liveAt_snoc, ← h.datas, History.View.Touches, hadds, hrem]
  simp

/-- A call that takes a uri out of the map. -/
theorem Follows.datas_del (h : Follows addr d cs) (key : List UInt8) (v : Option (Servlet C)) :
    Function.update d.datas uri none key = some v ↔ ∃ i, exactView.LiveAt (cs ++ [.delServlet uri]) i key v := by
  rw [History.exists_liveAt_snoc, ← h.datas]
  by_cases hk : key = uri
  · subst hk
    simp [History.View.Touches, exactView]
  · have hk' : uri ≠ key := fun he => hk he.symm
    simp [History.View.Touches, exactView, hk, hk']

/-- A call that leaves the globs alone. -/
theorem Follows.globs_skip (h : Follows addr d cs) {c : ServletCall C} (hadds : globView.adds c = none)
    (hrem : globView.removes c = none) : d.globs = globView.live (cs ++ [c]) := by
  have hno : ∀ key, ¬ globView.Touches c key := by
    rintro key (⟨v, hv⟩ | hv)
    · rw [hadds] at hv
      cases hv
    · rw [hrem] at hv
      cases hv
  rw [History.live_snoc, History.View.update, hadds, h.globs, Option.toList_none, List.append_nil]
  exact (List.filter_eq_self.mpr fun e _ => by rw [decide_eq_false (hno e.1)]; rfl).symm

/-- A call that touches the pattern `uri` only: what is kept is the list without its first hit. -/
theorem Follows.globs_touch (h : Follows addr d cs) (c : ServletCall C) (uri : List UInt8)
    (htouch : ∀ key, globView.Touches c key ↔ key = uri) :
    (d.globs.eraseP fun it => it.1 = uri) ++ (globView.adds c).toList = globView.live (cs ++ [c]) := by
  rw [History.live_snoc, History.View.update, h.globs, History.eraseP_key (History.nodup_keys_live cs)]
  congr 2
  funext e
  rw [Bool.eq_iff_iff]
  simp [htouch]

/-- A call that leaves the default alone. -/
theorem Follows.default_skip (h : Follows addr d cs) {c : ServletCall C} (hc : defaultOf c = none) :
    d.default = currentDefault addr (cs ++ [c]) := by
  rw [h.default, currentDefault, currentDefault, List.filterMap_append, List.filterMap_cons_none hc, List.filterMap_nil,
    List.append_nil]

/-- **One call.** The members are what the history leaves, after one more call. -/
theorem Follows.call (h : Follows addr d cs) (c : ServletCall C) : Follows addr (d.call c) (cs ++ [c]) := by
  cases c with
  | addServlet uri slt => exact ⟨h.datas_add rfl rfl, h.globs_skip rfl rfl, h.default_skip rfl⟩
  | addServletFn uri at' cb => exact ⟨h.datas_add rfl rfl, h.globs_skip rfl rfl, h.default_skip rfl⟩
  | delServlet uri => exact ⟨h.datas_del, h.globs_skip rfl rfl, h.default_skip rfl⟩
  | addGlobServlet uri slt =>
    have hglobs := h.globs_touch (.addGlobServlet uri slt) uri fun key => by
      simp [History.View.Touches, globView, eq_comm]
    exact ⟨h.datas_skip rfl rfl, hglobs, h.default_skip rfl⟩
  | addGlobServletFn uri at' cb =>
    have hglobs := h.globs_touch (.addGlobServletFn uri at' cb) uri fun key => by
      simp [History.View.Touches, globView, eq_comm]
    exact ⟨h.datas_skip rfl rfl, hglobs, h.default_skip rfl⟩
  | delGlobServlet uri =>
    have hglobs := h.globs_touch (.delGlobServlet uri) uri fun key => by
      simp [History.View.Touches, globView, eq_comm]
    exact ⟨h.datas_skip rfl rfl, (List.append_nil _).symm.trans hglobs, h.default_skip rfl⟩
  | setDefault v =>
    refine ⟨h.datas_skip rfl rfl, h.globs_skip rfl rfl, ?_⟩
    have hmap : (cs ++ [ServletCall.setDefault v]).filterMap defaultOf = cs.filterMap defaultOf ++ [v] := by
      rw [List.filterMap_append]
      rfl
    rw [currentDefault, hmap, List.getLastD_concat]
    rfl

/-- After any number of calls. -/
theorem follows_calls (addr : ℕ) (cs : List (ServletCall C)) : Follows addr ((new addr).calls cs) cs := by
  induction cs using List.reverseRecOn with
  | nil => exact follows_new addr
  | append_singleton cs c ih =>
    rw [calls, List.foldl_append]
    exact ih.call c

/-- No two globs have one pattern. -/
theorem Follows.nodup_globs (h : Follows addr d cs) : (d.globs.map Prod.fst).Nodup := by
  rw [h.globs]
  exact History.nodup_keys_live cs

/-- No entry of the map is no live entry. -/
theorem Follows.not_live (h : Follows addr d cs) (hd : d.datas uri = none) (i : ℕ) (slt : Option (Servlet C)) :
    ¬ exactView.LiveAt cs i uri slt := by
  intro hl
  rw [(h.datas uri slt).mpr ⟨i, hl⟩] at hd
  cases hd

/-- No live entry is no entry of the map. -/
theorem Follows.datas_eq_none (h : Follows addr d cs) (hno : ∀ j s, ¬ exactView.LiveAt cs j uri s) :
    d.datas uri = none := by
  by_contra hne
  obtain ⟨s, hs⟩ := Option.ne_none_iff_exists'.mp hne
  obtain ⟨j, hj⟩ := (h.datas uri s).mp hs
  exact hno j s hj

/-- `getServlet` returns the live servlet of the uri, and null without one. -/
theorem Follows.getServlet_eq (h : Follows addr d cs) (uri : List UInt8) :
    (∀ i slt, exactView.LiveAt cs i uri slt → d.getServlet uri = slt) ∧
      ((∀ i slt, ¬ exactView.LiveAt cs i uri slt) → d.getServlet uri = none) := by
  constructor
  · intro i slt hl
    rw [getServlet, (h.datas uri slt).mpr ⟨i, hl⟩]
    rfl
  · intro hno
    rw [getServlet, h.datas_eq_none hno]
    rfl

/-- `getGlobServlet` returns the live servlet of the pattern, and null without one. -/
theorem Follows.getGlobServlet_eq (h : Follows addr d cs) (pattern : List UInt8) :
    (∀ i slt, globView.LiveAt cs i pattern slt → d.getGlobServlet pattern = slt) ∧
      ((∀ i slt, ¬ globView.LiveAt cs i pattern slt) → d.getGlobServlet pattern = none) := by
  constructor
  · intro i slt hl
    have hfind : (globView.live cs).find? (fun e => decide (e.1 = pattern)) = some (pattern, slt) := by
      refine (History.find_live_eq_some (fun k => decide (k = pattern))).mpr
        ⟨i, hl, decide_eq_true rfl, fun j k s hl' hk => ?_⟩
      obtain rfl := of_decide_eq_true hk
      exact hl.le hl'
    rw [getGlobServlet, h.globs, hfind]
    rfl
  · intro hno
    have hfind : (globView.live cs).find? (fun e => decide (e.1 = pattern)) = none := by
      refine (History.find_live_eq_none (fun k => decide (k = pattern))).mpr fun i k s hl =>
        decide_eq_false fun hk => ?_
      subst hk
      exact hno i s hl
    rw [getGlobServlet, h.globs, hfind]
    rfl

/-- What `getMatchServlet` returns is selected. -/
theorem Follows.selected_match (h : Follows addr d cs) (fnmatch : List UInt8 → List UInt8 → ℤ → ℤ) (uri : List UInt8) :
    Selected fnmatch addr cs uri (d.getMatchServlet fnmatch uri) := by
  cases hd : d.datas uri with
  | some slt =>
    obtain ⟨i, hi⟩ := (h.datas uri slt).mp hd
    rw [getMatchServlet, hd]
    exact .exact hi
  | none =>
    have hno := h.not_live hd
    cases hg : d.globs.find? fun it => globMatches fnmatch uri it.1 with
    | some it =>
      have hfind := hg
      rw [h.globs] at hfind
      obtain ⟨i, hl, hm, hmin⟩ := (History.find_live_eq_some (globMatches fnmatch uri)).mp hfind
      rw [getMatchServlet, hd]
      simp only [hg]
      exact .glob hno hl hm hmin
    | none =>
      have hfind := hg
      rw [h.globs] at hfind
      have hnone := (History.find_live_eq_none (globMatches fnmatch uri)).mp hfind
      rw [getMatchServlet, hd]
      simp only [hg]
      rw [h.default]
      exact .default hno fun j p s hl hm => Bool.false_ne_true ((hnone j p s hl).symm.trans hm)

/-- A history selects one servlet at most. -/
theorem Follows.match_of_selected (h : Follows addr d cs) {fnmatch : List UInt8 → List UInt8 → ℤ → ℤ}
    {slt : Option (Servlet C)} (hs : Selected fnmatch addr cs uri slt) : d.getMatchServlet fnmatch uri = slt := by
  cases hs with
  | exact hl => rw [getMatchServlet, (h.datas uri slt).mpr ⟨_, hl⟩]
  | glob hno hl hm hmin =>
    have hg := (History.find_live_eq_some (globMatches fnmatch uri)).mpr ⟨_, hl, hm, hmin⟩
    rw [← h.globs] at hg
    rw [getMatchServlet, h.datas_eq_none hno]
    simp only [hg]
  | default hno hnomatch =>
    have hg := (History.find_live_eq_none (globMatches fnmatch uri)).mpr fun j p s hl =>
      Bool.eq_false_iff.mpr (hnomatch j p s hl)
    rw [← h.globs] at hg
    rw [getMatchServlet, h.datas_eq_none hno]
    simp only [hg, h.default]

end ServletDispatch

open ServletDispatch

/-- **Dispatch follows the registration history.** After every sequence of calls no two globs have one pattern, and
`getMatchServlet` returns what the history selects. -/
theorem match_follows_history {C : Type*} (fnmatch : List UInt8 → List UInt8 → ℤ → ℤ) (addr : ℕ)
    (cs : List (ServletCall C)) :
    ((((new addr : ServletDispatch C).calls cs).globs.map Prod.fst).Nodup) ∧
      ∀ uri slt, ((new addr : ServletDispatch C).calls cs).getMatchServlet fnmatch uri = slt ↔
        Selected fnmatch addr cs uri slt := by
  have h := follows_calls addr cs
  refine ⟨h.nodup_globs, fun uri slt => ⟨?_, h.match_of_selected⟩⟩
  rintro rfl
  exact h.selected_match fnmatch uri

end Megalo
