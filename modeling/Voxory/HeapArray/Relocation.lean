import Voxory.HeapArray.MoveAssignment
import Voxory.Containers.Filling
import Voxory.Cxx.Tally

/-!
# Exceptions while a heap array gets a new block

The old elements are moved to the new block where moving cannot throw, else they are copied. The
guard around this gives the raw block back. It does not know of the elements in it, so what was
relocated is lost when one of the appended elements throws.
-/

namespace Voxory
open Cxx

namespace HeapArray

variable {α : Type} {s t : State α HeapArray} {E : Element α} {vs : List α} {c n : ℕ}

lemma cleanup_within : cleanup.Within (fun _ => True) s (fun _ _ => True) (fun _ => False) := by
  refine Code.Within.step (b := s.self) rfl ?_
  split_ifs
  · refine (destroyAll_within trivial (Or.inl trivial)).bind (fun _ _ _ => ?_)
    exact .of_ends (.of_returns ⟨(), _, rfl, trivial⟩)
  · exact Code.Within.pure trivial

lemma replaceBuffer_within {fill : Ptr → Method α Ptr} {R : State α HeapArray → Prop}
    (hw : s.mem.Wf) (hn : n ≠ 0)
    (hrequest : ∀ s', s.Undone s' → s.Tallies 0 s' → s.mem.fuse = some 0 → R s')
    (hfill : ∀ t c, s.Builds True c n t → t.FilledTo c 0 → Spent 1 s.mem.fuse t.mem.fuse →
      s.Tallies (Pi.single (.allocate ⟨some c, 0⟩ n) 1) t →
      (fill ⟨some c, 0⟩).Within (fun _ => True) t (fun _ _ => True)
        (fun u => R ⟨u.mem.release ⟨some c, 0⟩ n, u.self⟩)) :
    (replaceBuffer n fill).Within (fun _ => True) s (fun _ _ => True) R := by
  refine (((Code.Within.of_ends (allocate_builds hw hn)).and (allocate_tallies n s)).mono
    (fun _ _ ht => ht) (fun s' hs' => hrequest s' hs'.1.1 hs'.2 hs'.1.2)).bind ?_
  rintro _ t ⟨⟨c, rfl, ht, hd, hspent⟩, htally⟩
  refine Code.Within.bind (Q := fun _ _ => True) ?_ (fun _ _ _ => ?_)
  · exact (hfill t c ht hd hspent htally).onThrow
      (fun u hu => .of_ends (.of_returns ⟨(), _, rfl, hu⟩))
  · refine (cleanup_within.mono (fun _ _ h => h) (fun _ hf => hf.elim)).bind (fun _ _ _ => ?_)
    exact .of_ends (.of_returns (setSelf_returns trivial))

lemma uninitializedMoveN_zero {src dest : Ptr} :
    uninitializedMoveN E src 0 dest s = .returned dest s := by
  rw [uninitializedMoveN]
  cases E.byteCopy <;> rfl

lemma relocate_builds (h : Holds s.mem s.self vs) (ht : s.Builds True c n t) (hd : t.FilledTo c 0) :
    (relocate E ⟨some c, 0⟩).Within (fun _ => True) t
      (fun q u => q = ⟨some c, vs.length⟩ ∧ Fills s (vs = [] ∨ E.nothrowMove = false) c n vs.length
        (relocationCost E vs.length) t u)
      (fun u => ∃ k, k < relocationCost E vs.length ∧ Spills s True c n 0 k t u) := by
  have hcount : s.self.last - s.self.first = vs.length := h.size_eq
  have hle : s.self.first ≤ s.self.last := by
    rw [h.last_eq, Ptr.le_iff, Ptr.add_off]
    exact Nat.le_add_right _ _
  refine Code.Within.step (b := t.self) rfl ?_
  rw [ht.self]
  have hnone : vs = [] → Fills s (vs = [] ∨ E.nothrowMove = false) c n vs.length
      (relocationCost E vs.length) t t := by
    rintro rfl
    rw [relocationCost, List.length_nil, Nat.zero_mul]
    exact (Fills.refl ht hd).imp (fun _ => trivial)
  by_cases hnull : s.self.first = Ptr.null
  · have hnil : vs = [] := (h.eq_nil (by rw [hnull]; rfl)).2
    rw [if_neg (fun hne => hne hnull)]
    exact Code.Within.pure ⟨by rw [hnil]; rfl, hnone hnil⟩
  rw [if_pos hnull]
  split_ifs with hmove
  · rw [uninitializedMove, if_pos hle, hcount]
    by_cases hnil : vs = []
    · subst hnil
      rw [List.length_nil, Code.Within, uninitializedMoveN_zero]
      exact ⟨rfl, hnone rfl⟩
    · refine (uninitializedMoveN_builds (ht.imp (fun hf => hf.elim)) hd).mono ?_ ?_
      · rintro _ u ⟨rfl, hu⟩
        rw [Nat.zero_add] at hu ⊢
        refine ⟨rfl, ?_⟩
        rw [relocationCost, hmove, Bool.true_or]
        rw [hmove] at hu
        exact hu.imp (fun hor => hor.elim hnil (fun hf => by cases hf))
      · rintro u ⟨hf, -⟩
        rw [hmove] at hf
        cases hf
  · have hmove' : E.nothrowMove = false := by simpa using hmove
    rw [uninitializedCopy, if_pos hle, hcount]
    have hcost : relocationCost E vs.length = vs.length * (!E.nothrowCopy).toNat := by
      rw [relocationCost, hmove', Bool.false_or]
    refine (uninitializedCopyN_builds ht hd).mono ?_ ?_
    · rintro _ u ⟨rfl, hu⟩
      rw [Nat.zero_add] at hu ⊢
      rw [hcost]
      exact ⟨rfl, hu.imp (fun _ => trivial)⟩
    · rintro u ⟨hcopy, k, hk, hu⟩
      exact ⟨k, by rw [hcost, hcopy]; simpa using hk, hu⟩

/-- An exception out of a growing `resize`: what was relocated stays behind in the new block. -/
lemma resizeReallocate_spills (hw : s.mem.Wf) (h : Holds s.mem s.self vs) (hn : n ≠ 0) :
    (resizeReallocate E n).Within (fun _ => True) s (fun _ _ => True)
      (fun s' => ∃ k, s.mem.fuse = some k ∧
        (s.Undone s' ↔ vs = [] ∨ k < 1 + relocationCost E vs.length)) := by
  refine replaceBuffer_within hw hn (fun s' hs' _ hf => ?_) (fun t c ht hd hspent _ => ?_)
  · exact ⟨0, hf, iff_of_true hs' (Or.inr (by omega))⟩
  refine ((relocate_builds h ht hd).mono (fun _ _ hu => hu) ?_).bind ?_
  · rintro u ⟨k, hk, hu⟩
    exact ⟨1 + k, hspent.blown hu.blown, iff_of_true (hu.builds.undone hw hu.filled) (Or.inr (by omega))⟩
  · rintro _ u ⟨rfl, hu⟩
    refine Code.Within.step (b := u.self) rfl ?_
    refine (uninitializedDefaultConstructN_builds hu.builds hu.filled).mono (fun _ _ _ => trivial) ?_
    rintro u' ⟨-, k, -, hu'⟩
    refine ⟨1 + (relocationCost E vs.length + k), hspent.blown (hu.spills hu').blown, ?_⟩
    by_cases hnil : vs = []
    · refine iff_of_true ((hu'.builds.imp (fun _ => Or.inl hnil)).undone hw ?_) (Or.inl hnil)
      rw [← List.length_nil (α := α), ← hnil]
      exact hu'.filled
    · refine iff_of_false (hu'.builds.not_undone hu'.filled (List.length_pos_of_ne_nil hnil)) ?_
      rintro (hbad | hlt)
      · exact hnil hbad
      · omega

lemma resize_spills (hw : s.mem.Wf) (h : Holds s.mem s.self vs) (hn : n > s.self.capacity) :
    (resize E n).Within (fun _ => True) s (fun _ _ => True)
      (fun s' => ∃ k, s.mem.fuse = some k ∧
        (s.Undone s' ↔ vs = [] ∨ k < 1 + relocationCost E vs.length)) := by
  have hsize := h.size_eq
  have hcap := h.size_le
  refine Code.Within.step (b := s.self) rfl ?_
  rw [if_neg (by omega), if_pos hn]
  exact resizeReallocate_spills hw h (by omega)

end HeapArray

namespace Pool

variable {α : Type} {E : Element α} {p : Pool α} {x : ℕ} {a : HeapArray}

open Objects HeapArray

/-- In every reachable pool, an exception out of a `resize` beyond the capacity leaves everything as
it was exactly when the array has no elements, or the exception comes before the appended elements
are constructed. -/
theorem resize_undone_iff (h : MixedReachable E p) (hx : p.obj x = some a) {n : ℕ}
    (hn : n > a.capacity) (k : ℕ) {s' : State α HeapArray}
    (hthrow : resize E n ⟨(p.arm (some k)).mem, a⟩ = .threw s') :
    State.Undone ⟨(p.arm (some k)).mem, a⟩ s' ↔
      a.size = 0 ∨ k < 1 + relocationCost E a.size := by
  obtain ⟨M, hM⟩ := h.models
  obtain ⟨vs, -, hvs⟩ := (hM.arm (some k)).at_some hx
  have hsize : a.size = vs.length := hvs.size_eq
  have hspills := resize_spills (s := ⟨(p.arm (some k)).mem, a⟩) (E := E)
    (hM.arm (some k)).wf hvs hn
  rw [Code.Within, hthrow] at hspills
  obtain ⟨j, hj, hiff⟩ := hspills
  cases hj
  rw [hiff, hsize, List.length_eq_zero_iff]

/-- Elements whose every constructor may throw. -/
def fragile : Element ℕ :=
  { Element.plain 0 (fun _ => 0) with
    defaultThrows := true
    copyThrows := true
    moveThrows := true }

/-- Elements whose default constructor may throw, and whose moves leave 0 behind. -/
def shaky : Element ℕ := { Element.plain 0 (fun _ => 0) with defaultThrows := true }

/-- An array with two elements. -/
def pairOf : List (Option ℕ × MixedAction ℕ) := [(none, .equal (.filled 0 2 7))]

def pair : HeapArray := ⟨⟨some 0, 0⟩, ⟨some 0, 2⟩, 2⟩

/-- The second copy throws, and the first one is destroyed. -/
theorem resize_copy_undone : ∃ p s',
    Machine.run (nextMixed fragile) (start true) pairOf = some p ∧ p.obj 0 = some pair ∧
    resize fragile 4 ⟨(p.arm (some 2)).mem, pair⟩ = .threw s' ∧
    State.Undone ⟨(p.arm (some 2)).mem, pair⟩ s' := by
  obtain ⟨p, hrun, hx, hthrow⟩ : ∃ p : Pool ℕ,
      Machine.run (nextMixed fragile) (start true) pairOf = some p ∧ p.obj 0 = some pair ∧
      (resize fragile 4 ⟨(p.arm (some 2)).mem, pair⟩).thrown?.isSome = true :=
    ⟨_, rfl, by decide, by decide +kernel⟩
  obtain ⟨s', hs'⟩ := Option.isSome_iff_exists.mp hthrow
  have hreach : MixedReachable fragile p := ⟨true, pairOf, by decide +kernel, hrun⟩
  exact ⟨p, s', hrun, hx, Outcome.thrown?_eq_some.mp hs',
    (resize_undone_iff hreach hx (by decide) 2 (Outcome.thrown?_eq_some.mp hs')).mpr (by decide)⟩

/-- The first appended element throws: the old elements are moved from, and what they were moved
to is never destroyed. -/
theorem resize_loses_elements : ∃ p s',
    Machine.run (nextMixed shaky) (start true) pairOf = some p ∧ p.obj 0 = some pair ∧
    resize shaky 4 ⟨(p.arm (some 1)).mem, pair⟩ = .threw s' ∧
    s'.mem.object ⟨some 0, 0⟩ = some 0 ∧ lifetime ⟨some 1, 0⟩ s'.mem.trace = some true ∧
    s'.mem.extent 1 = none ∧ ¬State.Undone ⟨(p.arm (some 1)).mem, pair⟩ s' := by
  obtain ⟨p, hrun, hx, hbefore, hthrow⟩ : ∃ p : Pool ℕ,
      Machine.run (nextMixed shaky) (start true) pairOf = some p ∧ p.obj 0 = some pair ∧
      p.mem.object ⟨some 0, 0⟩ = some 7 ∧
      (resize shaky 4 ⟨(p.arm (some 1)).mem, pair⟩).thrown?.map (fun s' =>
        (s'.mem.object ⟨some 0, 0⟩, lifetime ⟨some 1, 0⟩ s'.mem.trace, s'.mem.extent 1)) =
        some (some 0, some true, none) :=
    ⟨_, rfl, by decide, by decide +kernel, by decide +kernel⟩
  obtain ⟨s', hs', heq⟩ := Option.map_eq_some_iff.mp hthrow
  simp only [Prod.mk.injEq] at heq
  refine ⟨p, s', hrun, hx, Outcome.thrown?_eq_some.mp hs', heq.1, heq.2.1, heq.2.2, fun hundone => ?_⟩
  have hsame := congrFun hundone.object ⟨some 0, 0⟩
  rw [heq.1] at hsame
  change some 0 = p.mem.object ⟨some 0, 0⟩ at hsame
  rw [hbefore] at hsame
  cases hsame

end Pool

end Voxory
