import Voxory.HeapArray.Relocation
import Voxory.Containers.Emission

/-!
# `reserve` and `shrink_to_fit`

Both relocate the elements and nothing else. So an exception finds nothing in the new block but
copies that their own guard destroys, and the old block is only given up when all copies are made.
-/

namespace Voxory
open Cxx

namespace HeapArray

variable {α : Type} {s t : State α HeapArray} {E : Element α} {vs : List α} {c n : ℕ}

/-- What `a[0]`, `a[1]`, … read, for the indices below `size()`. -/
def contents (m : Memory α) (a : HeapArray) : List (Option α) :=
  (List.range a.size).map fun i => m.object (a.first + i)

/-- The events of `_cleanup`. -/
def discarded (a : HeapArray) : Event → ℕ :=
  if a.first = Ptr.null then 0
  else razed a.first a.size + Pi.single (.deallocate a.first a.capacity) 1

/-- The events of a relocation into the block at `q` that the copy at position `k` interrupted. -/
def interrupted (q : Ptr) (n k : ℕ) : Event → ℕ :=
  Pi.single (.allocate q n) 1 + (built q k + razed q k) + Pi.single (.deallocate q n) 1

lemma cleanup_emits : (cleanup : Method α Unit).Emits s (discarded s.self) := by
  refine Code.Emits.step (b := s.self) rfl ?_
  rw [discarded]
  by_cases hnull : s.self.first = Ptr.null
  · rw [if_neg (fun hne => hne hnull), if_pos hnull]
    exact .pure
  · rw [if_pos hnull, if_neg hnull]
    refine Code.Emits.bind destroyAll_emits (fun _ t ht => ?_)
    have hstays : (destroyAll s.self.first (s.self.last - s.self.first)).Within (fun _ => True) s
        (fun _ t => Stays s t) (fun _ => True) := destroyAll_within trivial (Or.inl trivial)
    have hself : t.self = s.self := (hstays.returned ht).self
    refine Code.Emits.step (b := t.self) rfl ?_
    rw [hself]
    exact (deallocate_emits _ _).then_quiet (fun _ _ _ => setSelf_emits _)

lemma discarded_destroy {a : HeapArray} {m : Memory α} (h : Holds m a vs) (q : Ptr) :
    discarded a (.destroy q) =
      if q.block = a.first.block ∧ q.off < a.size then 1 else 0 := by
  have hoff := h.first_off
  rw [discarded]
  split_ifs with hnull hq hq
  · have hnil := (h.eq_nil (by rw [hnull]; rfl)).2
    rw [h.size_eq, hnil] at hq
    exact absurd hq.2 (Nat.not_lt_zero _)
  · rfl
  · rw [Pi.add_apply, razed_destroy, if_pos ⟨hq.1, by omega, by omega⟩,
      Pi.single_eq_of_ne (by simp), Nat.add_zero]
  · rw [Pi.add_apply, razed_destroy, if_neg (fun hin => hq ⟨hin.1, by omega⟩),
      Pi.single_eq_of_ne (by simp), Nat.add_zero]

lemma relocate_emits (h : Holds s.mem s.self vs) (ht : t.self = s.self) {q : Ptr}
    (hraw : ∀ i, i < vs.length → t.mem.object (q + i) = none) :
    (relocate E q).Emits t (built q vs.length) := by
  have hcount : s.self.last - s.self.first = vs.length := h.size_eq
  refine Code.Emits.step (b := t.self) rfl ?_
  rw [ht]
  by_cases hnull : s.self.first = Ptr.null
  · have hnil : vs = [] := (h.eq_nil (by rw [hnull]; rfl)).2
    rw [if_neg (fun hne => hne hnull), hnil, List.length_nil, built, Finset.sum_range_zero]
    exact .pure
  rw [if_pos hnull]
  split_ifs
  · rw [uninitializedMove, hcount]
    split_ifs
    · exact uninitializedMoveN_emits hraw
    · exact .undefined
  · rw [uninitializedCopy, hcount]
    split_ifs
    · exact uninitializedCopyN_emits hraw
    · exact .undefined

lemma relocate_tallies (h : Holds s.mem s.self vs) (ht : s.Builds True c n t)
    (hd : t.FilledTo c 0) : (relocate E ⟨some c, 0⟩).Within (fun _ => True) t (fun _ _ => True)
      (fun u => ∃ k, k < vs.length ∧ t.mem.fuse = some k ∧
        t.Tallies (built ⟨some c, 0⟩ k + razed ⟨some c, 0⟩ k) u) := by
  have hcount : s.self.last - s.self.first = vs.length := h.size_eq
  refine Code.Within.step (b := t.self) rfl ?_
  rw [ht.self]
  split_ifs with hnull hmove
  · rw [uninitializedMove, hcount]
    split_ifs
    · refine (uninitializedMoveN_builds (ht.imp (fun hf : False => hf.elim)) hd).mono
        (fun _ _ _ => trivial) ?_
      rintro u ⟨hf, -⟩
      rw [hmove] at hf
      cases hf
    · exact Code.Within.undefined trivial
  · rw [uninitializedCopy, hcount]
    split_ifs
    · exact uninitializedCopyN_tallies
    · exact Code.Within.undefined trivial
  · exact Code.Within.pure trivial

/-- An exception out of `_reallocate` undoes it: the request failed, or the copy at position `k` did
and the `k` copies before it were destroyed. -/
lemma reallocate_undone (hw : s.mem.Wf) (h : Holds s.mem s.self vs) (hn : n ≠ 0) :
    (reallocate E n).Within (fun _ => True) s (fun _ _ => True) (fun s' => s.Undone s' ∧
      ((s.mem.fuse = some 0 ∧ s.Tallies 0 s') ∨ ∃ k q, k < vs.length ∧ s.mem.fuse = some (k + 1) ∧
        s.Tallies (interrupted q n k) s')) := by
  refine replaceBuffer_within hw hn (fun s' hs' htally hf => ⟨hs', Or.inl ⟨hf, htally⟩⟩)
    (fun t c ht hd hspent htally => ?_)
  refine ((relocate_builds h ht hd).and (relocate_tallies h ht hd)).mono (fun _ _ _ => trivial) ?_
  rintro u ⟨⟨_, -, hu⟩, k, hk, hf, hcopies⟩
  refine ⟨hu.builds.undone hw hu.filled, Or.inr ⟨k, ⟨some c, 0⟩, hk, ?_, ?_⟩⟩
  · rw [hspent.blown hf, Nat.add_comm]
  · exact (htally.trans hcopies).trans (deallocate_emits ⟨some c, 0⟩ n () _ rfl)

lemma reallocate_tallies (hw : s.mem.Wf) (h : Holds s.mem s.self vs) (hn : n ≠ 0)
    {s' : State α HeapArray} (hrun : reallocate E n s = .returned () s') :
    ∃ q, s.Tallies (Pi.single (.allocate q n) 1 + built q vs.length + discarded s.self) s' := by
  obtain ⟨q, t, hrequest, hrest⟩ := Code.bind_eq_returned.mp hrun
  obtain ⟨r, u, hguard, hrest⟩ := Code.bind_eq_returned.mp hrest
  have hallocate : (allocate n).Within (fun _ => True) s _ _ := .of_ends (allocate_builds hw hn)
  obtain ⟨c, rfl, ht, hd, -⟩ := hallocate.returned hrequest
  have hfill : (relocate E ⟨some c, 0⟩).onThrow (deallocate ⟨some c, 0⟩ n) t = .returned r u := hguard
  have hself : u.self = s.self := by
    have hkeep : ((relocate E ⟨some c, 0⟩).onThrow (deallocate ⟨some c, 0⟩ n)).Within
        (fun _ => True) t _ (fun _ => True) := (relocate_builds (E := E) h ht hd).onThrow
      (fun _ _ => .of_ends (.of_returns ⟨(), _, rfl, trivial⟩))
    exact (hkeep.returned hfill).2.builds.self
  have hbuilt := (relocate_emits (E := E) h ht.self
    (fun i _ => by rw [Ptr.mk_add]; exact hd.object_none (Nat.zero_le _))).onThrow _ _ hfill
  have hclean : (cleanup >>= fun _ => setSelf ⟨⟨some c, 0⟩, r, n⟩ : Method α Unit).Emits u
      (discarded u.self) := cleanup_emits.then_quiet (fun _ _ _ => setSelf_emits _)
  have hlast := hclean () s' hrest
  rw [hself] at hlast
  exact ⟨_, ((allocate_emits hrequest).trans hbuilt).trans hlast⟩

/-- The member functions that only change the capacity. -/
inductive Refit where
  | reserve (newCapacity : ℕ)
  | shrinkToFit

namespace Refit

def code (E : Element α) : Refit → Method α Unit
  | .reserve newCapacity => HeapArray.reserve E newCapacity
  | .shrinkToFit => HeapArray.shrinkToFit E

/-- The call changes the capacity. -/
def Applies (a : HeapArray) : Refit → Prop
  | .reserve newCapacity => newCapacity > a.capacity
  | .shrinkToFit => a.size < a.capacity

/-- The capacity after the call. -/
def capacity (a : HeapArray) : Refit → ℕ
  | .reserve newCapacity => raised a.capacity newCapacity
  | .shrinkToFit => a.size

end Refit

lemma Holds.contents_eq {a : HeapArray} {m : Memory α} (h : Holds m a vs) :
    contents m a = vs.map some := by
  apply List.ext_getElem?
  intro i
  rw [contents, List.getElem?_map, List.getElem?_map, h.size_eq]
  cases h with
  | nil => rfl
  | block b cap vs hext hle hobj =>
    by_cases hi : i < vs.length
    · rw [List.getElem?_range hi, Option.map_some, Ptr.mk_add, Nat.zero_add, hobj,
        List.getElem?_eq_getElem hi, Option.map_some]
    · rw [List.getElem?_eq_none (by simpa using hi), List.getElem?_eq_none (by omega)]
      rfl

lemma refit_ends (call : Refit) (hw : s.mem.Wf) (h : Holds s.mem s.self vs) :
    (call.code E).Ends s
      (fun _ s' => Holds s'.mem s'.self vs ∧ s'.self.capacity = call.capacity s.self)
      (fun _ => s.mem.fuse ≠ none) := by
  cases call with
  | reserve n =>
    refine (reserve_ends n hw h).mono (fun _ s' hs' => ⟨hs'.holds, hs'.capacity⟩) ?_
    rintro s' ⟨k, hbr⟩
    simp [hbr.blown]
  | shrinkToFit =>
    refine (shrinkToFit_ends hw h).mono
      (fun _ s' hs' => ⟨hs'.holds, hs'.capacity.trans h.size_eq.symm⟩) ?_
    rintro s' ⟨k, hbr⟩
    simp [hbr.blown]

/-- The request for a new block failed, or copying the element at position `k` did; then the `k`
copies before it were constructed and destroyed once each, and the block given back. -/
def Unwound (s s' : State α HeapArray) : Prop :=
  (s.mem.fuse = some 0 ∧ s.Tallies 0 s') ∨ ∃ k q n, k < s.self.size ∧ s.mem.fuse = some (k + 1) ∧
    s.Tallies (interrupted q n k) s'

lemma refit_undone (call : Refit) (hw : s.mem.Wf) (h : Holds s.mem s.self vs) :
    (call.code E).Within (fun _ => True) s (fun _ _ => True)
      (fun s' => s.Undone s' ∧ Unwound s s') := by
  have hsize := h.size_eq
  have hcap := h.size_le
  have hreallocate : ∀ n, n ≠ 0 → (reallocate E n).Within (fun _ => True) s (fun _ _ => True)
      (fun s' => s.Undone s' ∧ Unwound s s') := by
    intro n hn
    refine (reallocate_undone hw h hn).mono (fun _ _ _ => trivial) ?_
    rintro s' ⟨hundone, hzero | ⟨k, q, hk, hf, htally⟩⟩
    · exact ⟨hundone, Or.inl hzero⟩
    · exact ⟨hundone, Or.inr ⟨k, q, n, by omega, hf, htally⟩⟩
  cases call with
  | reserve n =>
    refine Code.Within.step (b := s.self) rfl ?_
    split_ifs
    · exact hreallocate n (by omega)
    · exact Code.Within.pure trivial
  | shrinkToFit =>
    refine Code.Within.step (b := s.self) rfl ?_
    split_ifs
    · exact cleanup_within.mono (fun _ _ _ => trivial) (fun _ hf => hf.elim)
    · exact hreallocate _ (by omega)
    · exact Code.Within.pure trivial

lemma refit_destroys (call : Refit) (hw : s.mem.Wf) (h : Holds s.mem s.self vs)
    (happlies : call.Applies s.self) {s' : State α HeapArray}
    (hrun : call.code E s = .returned () s') (q : Ptr) :
    s'.mem.trace.count (.destroy q) = s.mem.trace.count (.destroy q) +
      if q.block = s.self.first.block ∧ q.off < s.self.size then 1 else 0 := by
  have hreallocate : ∀ n, n ≠ 0 → reallocate E n s = .returned () s' →
      s'.mem.trace.count (.destroy q) = s.mem.trace.count (.destroy q) +
        discarded s.self (.destroy q) := by
    intro n hn hs'
    obtain ⟨r, htally⟩ := reallocate_tallies hw h hn hs'
    rw [htally, Pi.add_apply, Pi.add_apply, Pi.single_eq_of_ne (by simp),
      built_other (fun _ => by simp), Nat.zero_add]
  rw [← discarded_destroy h]
  cases call with
  | reserve n =>
    have hgrow : n > s.self.capacity := happlies
    have hstep : (if n > s.self.capacity then reallocate E n else pure ()) s = .returned () s' := hrun
    rw [if_pos hgrow] at hstep
    exact hreallocate n (by omega) hstep
  | shrinkToFit =>
    have hless : s.self.size < s.self.capacity := happlies
    have hstep : (if s.self.size < s.self.capacity then
        if s.self.size = 0 then cleanup else reallocate E s.self.size
      else pure ()) s = .returned () s' := hrun
    rw [if_pos hless] at hstep
    split_ifs at hstep with hzero
    · exact cleanup_emits _ _ hstep (.destroy q)
    · exact hreallocate _ hzero hstep

end HeapArray

namespace Pool

variable {α : Type} {E : Element α} {p : Pool α} {x : ℕ} {a : HeapArray}

open Objects HeapArray

/-- In every reachable pool, an exception out of `reserve` or `shrink_to_fit` leaves everything as
it was, and a call that returns keeps the values and destroys the old elements once, if it
relocates them; without an exception it returns. -/
theorem refit_strong (h : MixedReachable E p) (hx : p.obj x = some a) (call : Refit) :
    (∀ k s', call.code E ⟨(p.arm k).mem, a⟩ = .threw s' →
      State.Undone ⟨(p.arm k).mem, a⟩ s' ∧ Unwound ⟨(p.arm k).mem, a⟩ s') ∧
    (∃ s', call.code E ⟨(p.arm none).mem, a⟩ = .returned () s') ∧
    ∀ k s', call.code E ⟨(p.arm k).mem, a⟩ = .returned () s' →
      contents s'.mem s'.self = contents p.mem a ∧ s'.self.capacity = call.capacity a ∧
      (call.Applies a → ∀ q, s'.mem.trace.count (.destroy q) = p.mem.trace.count (.destroy q) +
        if q.block = a.first.block ∧ q.off < a.size then 1 else 0) := by
  obtain ⟨M, hM⟩ := h.models
  have hheld : ∀ k, ∃ vs, Holds (p.arm k).mem a vs := by
    intro k
    obtain ⟨vs, -, hvs⟩ := (hM.arm k).at_some hx
    exact ⟨vs, hvs⟩
  refine ⟨fun k s' hthrow => ?_, ?_, fun k s' hrun => ?_⟩
  · obtain ⟨vs, hvs⟩ := hheld k
    have hundone := refit_undone (s := ⟨(p.arm k).mem, a⟩) (E := E) call (hM.arm k).wf hvs
    rwa [Code.Within, hthrow] at hundone
  · obtain ⟨vs, hvs⟩ := hheld none
    obtain ⟨_, s', hrun, -⟩ := (refit_ends (s := ⟨(p.arm none).mem, a⟩) (E := E) call
      (hM.arm none).wf hvs).returns (fun _ hne => hne rfl)
    exact ⟨s', hrun⟩
  · obtain ⟨vs, hvs⟩ := hheld k
    have hends := refit_ends (s := ⟨(p.arm k).mem, a⟩) (E := E) call (hM.arm k).wf hvs
    rw [Code.Ends, hrun] at hends
    have hbefore : contents p.mem a = vs.map some := hvs.contents_eq
    exact ⟨hends.1.contents_eq.trans hbefore.symm, hends.2,
      fun happlies q => refit_destroys call (hM.arm k).wf hvs happlies hrun q⟩

/-- `refit_strong` where the second copy throws. -/
theorem reserve_copy_undone : ∃ p s',
    Machine.run (nextMixed fragile) (start true) pairOf = some p ∧ p.obj 0 = some pair ∧
    reserve fragile 4 ⟨(p.arm (some 2)).mem, pair⟩ = .threw s' ∧
    State.Undone ⟨(p.arm (some 2)).mem, pair⟩ s' ∧ Unwound ⟨(p.arm (some 2)).mem, pair⟩ s' := by
  obtain ⟨p, hrun, hx, hthrow⟩ : ∃ p : Pool ℕ,
      Machine.run (nextMixed fragile) (start true) pairOf = some p ∧ p.obj 0 = some pair ∧
      (reserve fragile 4 ⟨(p.arm (some 2)).mem, pair⟩).thrown?.isSome = true :=
    ⟨_, rfl, by decide, by decide +kernel⟩
  obtain ⟨s', hs'⟩ := Option.isSome_iff_exists.mp hthrow
  have hreach : MixedReachable fragile p := ⟨true, pairOf, by decide +kernel, hrun⟩
  have hcall : (Refit.reserve 4).code fragile ⟨(p.arm (some 2)).mem, pair⟩ = .threw s' :=
    Outcome.thrown?_eq_some.mp hs'
  exact ⟨p, s', hrun, hx, hcall, (refit_strong hreach hx (.reserve 4)).1 (some 2) s' hcall⟩

end Pool

end Voxory
