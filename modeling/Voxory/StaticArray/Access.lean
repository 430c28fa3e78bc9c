import Voxory.StaticArray.Construction

/-!
# Reading and writing static arrays

Three ways lead to an element: the iterators, `operator[]` and the `operator[]` for constant
arrays. All go through `data()`; what differs are the assertions of a debug build.
-/

namespace Voxory
open Cxx

namespace StaticArray

variable {α : Type} {s : State α StaticArray} {T : StoredType α} {N i : ℕ} {us vs : List α}
  {o : StaticArrayBase} {debug : Bool}

/-- The ways to read an array. -/
inductive Access where
  | iteration
  | subscript
  | subscriptConst
  deriving DecidableEq

/-- `op` leads to every element, and a debug build aborts at every other index. -/
structure Subscripts (debug : Bool) (N : ℕ) (vs : List α) (op : ℕ → Method α Ptr)
    (s : State α StaticArray) : Prop where
  value : ∀ i v, vs[i]? = some v →
    (do let p ← op i; Cxx.read p : Method α α) s = .returned v s
  abort : debug = true → ∀ i, N ≤ i → op i s = .terminated

/-- What the access reports is the array `vs`. -/
def Access.Reports (debug : Bool) (N : ℕ) (vs : List α) (s : State α StaticArray) : Access → Prop
  | .iteration => iterate N s = .returned vs s
  | .subscript => Subscripts debug N vs (StaticArray.subscript debug N) s
  | .subscriptConst => Subscripts debug N vs (StaticArray.subscriptConst debug N) s

/-- The array `vs` after one write after the other. -/
def written (vs : List α) (ws : List (ℕ × α)) : List α :=
  ws.foldl (fun vs w => vs.set w.1 w.2) vs

/-! ### One access -/

lemma Holds.read (h : Holds N s.mem s.self vs) (hw : s.mem.Wf) {v : α} (hv : vs[i]? = some v) :
    Cxx.read (s.self.first + i) s = .returned v s := by
  have hi : i < N := by
    rw [← h.length]
    exact (List.getElem?_eq_some_iff.mp hv).1
  apply read_run hw
  rw [h.own, h.object i hi, hv]

lemma iterate_reports (h : Holds N s.mem s.self vs) (hw : s.mem.Wf) :
    iterate N s = .returned vs s := by
  have hloop : loadAll s.self.first (s.self.first + N - s.self.first) s = .returned vs s := by
    rw [Ptr.sub_eq, Ptr.add_off, Nat.add_sub_cancel_left]
    apply loadAll_run hw h.length
    intro i hi
    rw [h.own, h.object i hi]
  exact hloop

lemma debugAssert_run {cond : Bool} (h : debug = true → cond = true) :
    debugAssert debug cond s = .returned () s := by
  unfold debugAssert
  split_ifs with hdebug
  · rw [assertAbort, if_pos (h hdebug)]
  · rfl

lemma debugAssert_abort {cond : Bool} (hdebug : debug = true) (h : cond = false) :
    debugAssert debug cond s = .terminated := by
  rw [debugAssert, if_pos hdebug, assertAbort, h]
  rfl

lemma subscript_run (hi : i < N) (debug : Bool) :
    subscript debug N i s = .returned (s.self.first + i) s := by
  unfold subscript
  rw [Code.bind_returned (debugAssert_run (fun _ => decide_eq_true hi))]
  rfl

lemma subscript_reports (h : Holds N s.mem s.self vs) (hw : s.mem.Wf) (debug : Bool) :
    Subscripts debug N vs (subscript debug N) s where
  value i v hv := by
    have hi : i < N := by
      rw [← h.length]
      exact (List.getElem?_eq_some_iff.mp hv).1
    rw [Code.bind_returned (subscript_run hi debug)]
    exact h.read hw hv
  abort hdebug i hi := by
    unfold subscript
    rw [Code.bind_run, debugAssert_abort hdebug (by simpa using hi)]

/-- The assertion of the `operator[]` for constant arrays is the wrong way round. -/
lemma subscriptConst_inside (hi : i < N) : subscriptConst true N i s = .terminated := by
  unfold subscriptConst
  rw [Code.bind_run, debugAssert_abort rfl (by simpa using hi)]

lemma subscriptConst_end (debug : Bool) :
    subscriptConst debug N N s = .returned (s.self.first + N) s := by
  unfold subscriptConst
  rw [Code.bind_returned (debugAssert_run (fun _ => decide_eq_true le_rfl))]
  rfl

lemma subscriptConst_reports_iff (h : Holds N s.mem s.self vs) (hw : s.mem.Wf) (debug : Bool) :
    Subscripts debug N vs (subscriptConst debug N) s ↔ debug = false := by
  constructor
  · intro hall
    by_contra hdebug
    rw [Bool.not_eq_false] at hdebug
    -- index `N` serves also where there are no elements to abort at
    have hend := hall.abort hdebug N le_rfl
    rw [subscriptConst_end] at hend
    cases hend
  · intro hdebug
    subst hdebug
    constructor
    · intro i v hv
      exact h.read hw hv
    · intro hdebug
      cases hdebug

lemma reports_iff (h : Holds N s.mem s.self vs) (hw : s.mem.Wf) (debug : Bool) (path : Access) :
    path.Reports debug N vs s ↔ ¬(debug = true ∧ path = .subscriptConst) := by
  cases path with
  | iteration => simpa [Access.Reports] using iterate_reports h hw
  | subscript => simpa [Access.Reports] using subscript_reports h hw debug
  | subscriptConst => simpa [Access.Reports] using subscriptConst_reports_iff h hw debug

/-! ### Writes -/

lemma Holds.set (h : Holds N s.mem s.self vs) (hi : i < N) (v : α) :
    Holds N { s.mem with object := Function.update s.mem.object (s.self.storage + i) (some v) }
      s.self (vs.set i v) where
  own := h.own
  last := h.last
  block := h.block
  length := by rw [List.length_set, h.length]
  object j hj := by
    change Function.update s.mem.object (s.self.storage + i) (some v) (s.self.storage + j) = _
    by_cases hij : j = i
    · subst hij
      rw [Function.update_self, List.getElem?_set_self (by rw [h.length]; exact hi)]
    · rw [Function.update_of_ne (fun he => hij (by simpa [Ptr.ext_iff'] using he)),
        List.getElem?_set_ne (Ne.symm hij), h.object j hj]

/-- The array holds `vs` after writes to it, which changed nothing outside its storage. -/
structure Wrote (N : ℕ) (s : State α StaticArray) (vs : List α) (s' : State α StaticArray) :
    Prop where
  holds : Holds N s'.mem s'.self vs
  wf : s'.mem.Wf
  self : s'.self = s.self
  extent : s'.mem.extent = s.mem.extent
  far : ∀ p : Ptr, p.block ≠ s.self.storage.block → s'.mem.object p = s.mem.object p

lemma write_returns (h : Holds N s.mem s.self vs) (hw : s.mem.Wf) (hi : i < N) (v : α) :
    (write debug N i v).Returns s (fun _ s' => Wrote N s (vs.set i v) s') := by
  obtain ⟨w, hlive⟩ := Option.isSome_iff_exists.mp (h.live hi)
  unfold write
  apply Code.Returns.step (subscript_run hi debug)
  apply (assign_returns v hw hlive).mono
  intro _ s' hs'
  have hset := h.set hi v
  refine ⟨⟨by rw [hs'.self, h.own], by rw [hs'.self, h.last], ?_, hset.length, fun j hj => ?_⟩,
    hs'.wf hw, hs'.self, hs'.extent, fun p hp => ?_⟩
  · rw [hs'.self, hs'.extent]
    exact h.block
  · rw [hs'.self, hs'.object, h.own]
    exact hset.object j hj
  · rw [hs'.object, Function.update_of_ne]
    intro he
    rw [he, h.own] at hp
    exact hp rfl

lemma writeAll_returns (h : Holds N s.mem s.self vs) (hw : s.mem.Wf) (ws : List (ℕ × α))
    (hws : ∀ w ∈ ws, w.1 < N) : (writeAll debug N ws).Returns s
      (fun _ s' => Wrote N s (written vs ws) s') := by
  induction ws generalizing s vs with
  | nil => exact Code.Returns.pure ⟨h, hw, rfl, rfl, fun _ _ => rfl⟩
  | cons w ws ih =>
    unfold writeAll
    apply (write_returns h hw (hws w List.mem_cons_self) w.2).bind
    intro _ t ht
    apply (ih ht.holds ht.wf (fun w' hw' => hws w' (List.mem_cons_of_mem _ hw'))).mono
    intro _ u hu
    refine ⟨hu.holds, hu.wf, hu.self.trans ht.self, hu.extent.trans ht.extent, fun p hp => ?_⟩
    rw [hu.far p (by rw [ht.self]; exact hp), ht.far p hp]

/-! ### The whole life of an array -/

/-- Whatever throws, `construct` leaves the first elements of `us` and default-constructed ones,
and after any writes the access reports what was written. -/
def Represents (debug : Bool) (T : StoredType α) (N : ℕ) (us : List α) (path : Access)
    (construct : Method α Unit) (throws : Bool) (s : State α StaticArray) : Prop :=
  ∀ fuse, construct.Ends (armed fuse s)
    (fun _ t => Built N s (adopted N us T.init) t ∧
      ∀ ws : List (ℕ × α), (∀ w ∈ ws, w.1 < N) → (writeAll debug N ws).Returns t
        (fun _ u => path.Reports debug N (written (adopted N us T.init) ws) u))
    (fun _ => throws = true ∧ fuse ≠ none)

lemma represents_iff {construct : Method α Unit} {throws : Bool} {path : Access}
    (hbuilt : ∀ fuse, construct.Ends (armed fuse s)
      (fun _ t => Built N s (adopted N us T.init) t) (fun _ => throws = true ∧ fuse ≠ none)) :
    Represents debug T N us path construct throws s ↔
      ¬(debug = true ∧ path = .subscriptConst) := by
  constructor
  · intro hall
    obtain ⟨_, t, ht, hbuilds⟩ := (hbuilt none).returns (fun _ h => h.2 rfl)
    have hnone := hall none
    rw [Code.Ends, ht] at hnone
    obtain ⟨_, u, hu, hrep⟩ := hnone.2 [] (fun _ hw => absurd hw List.not_mem_nil)
    cases hu
    exact (reports_iff hbuilds.holds hbuilds.wf debug path).mp hrep
  · intro hpath fuse
    apply (hbuilt fuse).mono ?_ (fun _ h => h)
    intro _ t ht
    apply And.intro ht
    intro ws hws
    apply (writeAll_returns ht.holds ht.wf ws hws).mono
    intro _ u hu
    exact (reports_iff hu.holds hu.wf debug path).mpr hpath

/-- An array with the element 7 beside inline storage for two elements. -/
def beside : State ℕ StaticArray := ⟨laid [[some 7], [none, none]], unset ⟨some 1, 0⟩⟩

lemma beside_raw : Raw 2 beside.mem beside.self.storage where
  block := ⟨1, rfl, rfl⟩
  object i := by
    match i with
    | 0 | 1 | _ + 2 => rfl

lemma beside_source : Source beside.mem beside.self.storage ⟨⟨some 0, 0⟩, 1, ⟨some 0, 0⟩⟩ [7] where
  capacity := rfl
  block := ⟨0, rfl, rfl⟩
  object i hi := by
    match i with
    | 0 => rfl
    | _ + 1 => exact absurd hi (by simp)
  apart := by decide

end StaticArray

end Voxory
