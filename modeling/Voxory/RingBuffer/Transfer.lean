import Voxory.Containers.Emission
import Voxory.RingBuffer.Assign
import Voxory.RingBuffer.Capacity
import Voxory.RingBuffer.Queue

/-!
# Elements taken over in place

`_transfer_source` walks the two rings in lockstep, in chunks that end where one of them reaches an
end of its block. After the chunks the first elements of the target are those of the source; what
is left of the old ones is destroyed. If both have the same size, nothing is left, but the range
that is destroyed then runs once around the ring.
-/

namespace Voxory
open Cxx Cyclic

namespace RingBuffer

variable {α : Type}

/-! ### One chunk -/

/-- From `t` to `t'` the `n` elements from `src` on were copied or moved to `dest`, with the events
`g`; nothing else changed. -/
structure Chunk (t : State α RingBuffer) (src dest : Ptr) (n : ℕ) (g : Event → ℕ)
    (t' : State α RingBuffer) : Prop where
  stays : Stays t t'
  calm : t.mem.fuse = none → t'.mem.fuse = none
  written : ∀ i, i < n → t'.mem.object (dest + i) = t.mem.object (src + i)
  kept : ∀ p : Ptr, ¬(p.block = dest.block ∧ dest.off ≤ p.off ∧ p.off < dest.off + n) →
    ¬(p.block = src.block ∧ src.off ≤ p.off ∧ p.off < src.off + n) →
    t'.mem.object p = t.mem.object p
  tallies : t.Tallies g t'

variable {E : Element α} {s s' t t' : State α RingBuffer} {src dest : Ptr} {n c : ℕ}
  {g : Event → ℕ} {move : Bool}

lemma Chunk.of_copy
    (h : t.Becomes c (overlay t.mem.object dest n (fun i => t.mem.object (src + i))) t')
    (hg : t.Tallies g t') : Chunk t src dest n g t' where
  stays := .of_alters h.toAlters
  calm := calm_of_spent h.spent
  written i hi := by rw [h.object, overlay_inside _ _ _ hi]
  kept p hp _ := by rw [h.object, overlay_outside hp]
  tallies := hg

lemma Chunk.of_move (hdiff : src.block ≠ dest.block)
    (h : t.Becomes c (moveOverlay E t.mem.object src dest n) t') (hg : t.Tallies g t') :
    Chunk t src dest n g t' where
  stays := .of_alters h.toAlters
  calm := calm_of_spent h.spent
  written i hi := by
    rw [h.object, moveOverlay, overlay_other (by simpa using hdiff.symm), overlay_inside _ _ _ hi]
  kept p hp hp' := by rw [h.object, moveOverlay, overlay_outside hp', overlay_outside hp]
  tallies := hg

lemma assignHelper_chunk (hw : t.mem.Wf) (hcalm : t.mem.fuse = none)
    (hdiff : src.block ≠ dest.block) (hsrc : ∀ i, i < n → (t.mem.object (src + i)).isSome)
    (hdest : ∀ i, i < n → (t.mem.object (dest + i)).isSome) :
    (assignHelper E move src (src + n) dest).Returns t
      (fun p t' => p = dest + n ∧ Chunk t src dest n 0 t') := by
  have hlen : src + n - src = n := by rw [Ptr.sub_eq, Ptr.add_off, Nat.add_sub_cancel_left]
  have hlive : ∀ i, i < n → t.mem.object (dest + i) ≠ none := fun i hi =>
    Option.isSome_iff_ne_none.mp (hdest i hi)
  rw [assignHelper, hlen]
  refine Code.Returns.noexcept ?_
  cases move with
  | true =>
    refine ((((moveAssignN_ends hw hdiff hsrc hdest).returns ?_).tally
      (moveAssignN_emits hlive)).mono ?_)
    · rintro t' ⟨-, k, -, ht'⟩
      cases hcalm.symm.trans ht'.blown
    · rintro p t' ⟨⟨hp, ht'⟩, hg⟩
      exact ⟨hp, .of_move hdiff ht' hg⟩
  | false =>
    refine ((((copyAssignN_ends hw hdiff hsrc hdest).returns ?_).tally
      (copyAssignN_emits hlive)).mono ?_)
    · rintro t' ⟨-, k, -, ht'⟩
      cases hcalm.symm.trans ht'.blown
    · rintro p t' ⟨⟨hp, ht'⟩, hg⟩
      exact ⟨hp, .of_copy ht' hg⟩

/-- Elements that are constructed without an exception, because nothing throws or because nothing
is left to throw. -/
lemma uninitialized_chunk (hw : t.mem.Wf)
    (hsafe : t.mem.fuse = none ∨ (if move then E.nothrowMove else E.nothrowCopy) = true)
    (hdiff : src.block ≠ dest.block) (hsrc : ∀ i, i < n → (t.mem.object (src + i)).isSome)
    (hin : ∀ i, i < n → t.mem.inBounds (dest + i) = true)
    (hraw : ∀ i, i < n → t.mem.object (dest + i) = none) :
    (if move then uninitializedMoveN E src n dest else uninitializedCopyN E src n dest :
      Method α Ptr).Returns t (fun p t' => p = dest + n ∧ Chunk t src dest n (built dest n) t') := by
  cases move with
  | true =>
    refine ((((uninitializedMoveN_ends hw hsrc hin hraw).returns ?_).tally
      (uninitializedMoveN_emits hraw)).mono ?_)
    · rintro t' ⟨hthrows, k, -, ht'⟩
      rcases hsafe with hcalm | hnothrow
      · cases hcalm.symm.trans ht'.blown
      · cases hthrows.symm.trans hnothrow
    · rintro p t' ⟨⟨hp, ht'⟩, hg⟩
      exact ⟨hp, .of_move hdiff ht' hg⟩
  | false =>
    refine ((((uninitializedCopyN_ends hw hsrc hin hraw).returns ?_).tally
      (uninitializedCopyN_emits hraw)).mono ?_)
    · rintro t' ⟨hthrows, k, -, ht'⟩
      rcases hsafe with hcalm | hnothrow
      · cases hcalm.symm.trans ht'.blown
      · cases hthrows.symm.trans hnothrow
    · rintro p t' ⟨⟨hp, ht'⟩, hg⟩
      exact ⟨hp, .of_copy ht' hg⟩

/-! ### The two rings -/

/-- Two buffers with elements in one memory, `o` of no greater capacity. -/
structure Opposite (s : State α RingBuffer) (o : RingBuffer) (b f l : ℕ) (q : List α)
    (bo fo lo : ℕ) (qo : List α) : Prop where
  target : Holds s.mem s.self b f l q
  source : Holds s.mem o bo fo lo qo
  apart : b ≠ bo
  wf : s.mem.Wf
  calm : s.mem.fuse = none
  nonempty : q.length ≠ 0
  source_nonempty : qo.length ≠ 0
  capacity_le : o.capacity ≤ s.self.capacity

/-- One event `c` in each of the slots that come `a` to `a'` places after slot `f`. -/
def eachAt (c : Ptr → Event) (N b f a a' : ℕ) : Event → ℕ :=
  ∑ i ∈ Finset.Ico a a', Pi.single (c ⟨some b, slot N f i⟩) 1

/-- In `t` the first `a` elements of `o` are in the first slots of the target, and the others are
still in their place. -/
structure Progress (s : State α RingBuffer) (o : RingBuffer) (b f bo fo : ℕ) (qo : List α) (a : ℕ)
    (t : State α RingBuffer) : Prop where
  stays : Stays s t
  calm : t.mem.fuse = none
  target : ∀ j, j < s.self.capacity → t.mem.object ⟨some b, j⟩ =
    if Cyclic.place s.self.capacity f j < a then qo[Cyclic.place s.self.capacity f j]?
    else s.mem.object ⟨some b, j⟩
  source : ∀ i, a ≤ i → i < qo.length →
    t.mem.object ⟨some bo, slot o.capacity fo i⟩ = qo[i]?
  tallies : s.Tallies (eachAt .construct s.self.capacity b f s.self.size a) t

variable {o : RingBuffer} {b f l bo fo lo a : ℕ} {q qo : List α}

lemma Opposite.progress (h : Opposite s o b f l q bo fo lo qo) : Progress s o b f bo fo qo 0 s where
  stays := .refl s
  calm := h.calm
  target j _ := by rw [if_neg (Nat.not_lt_zero _)]
  source i _ hi := Holds.object_slot (s := ⟨s.mem, o⟩) h.source hi
  tallies := by
    rw [eachAt, Finset.Ico_eq_empty_of_le (Nat.zero_le _), Finset.sum_empty]
    exact .refl s

lemma Progress.advance (h : Opposite s o b f l q bo fo lo qo)
    (hp : Progress s o b f bo fo qo a t)
    (hc : Chunk t ⟨some bo, slot o.capacity fo a⟩ ⟨some b, slot s.self.capacity f a⟩ n g t')
    (hsrc : slot o.capacity fo a + n ≤ o.capacity)
    (hdst : slot s.self.capacity f a + n ≤ s.self.capacity) (han : a + n ≤ qo.length)
    (hg : eachAt .construct s.self.capacity b f s.self.size a + g =
      eachAt .construct s.self.capacity b f s.self.size (a + n)) :
    Progress s o b f bo fo qo (a + n) t' where
  stays := hp.stays.trans hc.stays
  calm := hc.calm hp.calm
  target j hj := by
    have hlen := h.source.size_le
    have hcap := h.capacity_le
    have hf := h.target.first_lt
    by_cases hin : slot s.self.capacity f a ≤ j ∧ j < slot s.self.capacity f a + n
    · obtain ⟨k, rfl⟩ := Nat.exists_eq_add_of_le hin.1
      have hk : k < n := by omega
      have hwritten := hc.written k hk
      rw [Ptr.mk_add, Ptr.mk_add, ← slot_add_of_lt (by omega), ← slot_add_of_lt (by omega),
        hp.source (a + k) (by omega) (by omega)] at hwritten
      rw [← slot_add_of_lt hj, place_slot hf (by omega), if_pos (by omega), hwritten]
    · have hplace : Cyclic.place s.self.capacity f j < a + n ↔ Cyclic.place s.self.capacity f j < a := by
        refine ⟨fun hlt => ?_, fun hlt => by omega⟩
        by_contra hge
        obtain ⟨k, hk⟩ := Nat.exists_eq_add_of_le (Nat.not_lt.mp hge)
        have hslot := slot_place hf hj
        rw [hk, slot_add_of_lt (by omega)] at hslot
        omega
      rw [hc.kept _ (by simpa using hin) (by simp [h.apart]), hp.target j hj]
      simp only [hplace]
  source i hi hio := by
    have hlen := h.source.size_le
    rw [hc.kept _ (by simp [Ne.symm h.apart]) ?_, hp.source i (by omega) hio]
    rintro ⟨-, hle, hlt⟩
    change slot o.capacity fo a ≤ slot o.capacity fo i at hle
    change slot o.capacity fo i < slot o.capacity fo a + n at hlt
    obtain ⟨k, hk⟩ := Nat.exists_eq_add_of_le hle
    have hkn : k < n := by omega
    rw [← slot_add_of_lt (by omega)] at hk
    have hplace := congrArg (Cyclic.place o.capacity fo) hk
    rw [place_slot h.source.first_lt (by omega), place_slot h.source.first_lt (by omega)] at hplace
    omega
  tallies := by
    rw [← hg]
    exact hp.tallies.trans hc.tallies

lemma wrap_slot {N : ℕ} (h : slot N f a + n ≤ N) :
    (if (⟨some b, slot N f a + n⟩ : Ptr) = ⟨some b, N⟩ then (⟨some b, 0⟩ : Ptr)
      else ⟨some b, slot N f a + n⟩) = ⟨some b, slot N f (a + n)⟩ := by
  by_cases hN : slot N f a + n = N
  · rw [if_pos (by rw [hN]), slot_add, hN, Nat.mod_self]
  · rw [if_neg (by simpa using hN), slot_add_of_lt (by omega)]

namespace Progress

lemma source_live (hp : Progress s o b f bo fo qo a t) (han : a + n ≤ qo.length) {i : ℕ}
    (hi : i < n) (hlt : slot o.capacity fo a + i < o.capacity) :
    (t.mem.object ((⟨some bo, slot o.capacity fo a⟩ : Ptr) + i)).isSome := by
  rw [Ptr.mk_add, ← slot_add_of_lt hlt, hp.source (a + i) (by omega) (by omega),
    List.getElem?_eq_getElem (by omega)]
  rfl

lemma assigns (h : Opposite s o b f l q bo fo lo qo) (hp : Progress s o b f bo fo qo a t)
    (hsrc : slot o.capacity fo a + n ≤ o.capacity)
    (hdst : slot s.self.capacity f a + n ≤ s.self.capacity) (han : a + n ≤ qo.length)
    (hold : a + n ≤ q.length) :
    (assignHelper E move ⟨some bo, slot o.capacity fo a⟩
      ((⟨some bo, slot o.capacity fo a⟩ : Ptr) + n) ⟨some b, slot s.self.capacity f a⟩).Returns t
      (fun p t' => p = ⟨some b, slot s.self.capacity f a + n⟩ ∧
        Progress s o b f bo fo qo (a + n) t') := by
  have hqn := h.target.size_le
  refine (assignHelper_chunk (hp.stays.wf h.wf) hp.calm (by simpa using Ne.symm h.apart)
    (fun i hi => hp.source_live han hi (by omega)) (fun i hi => ?_)).mono ?_
  · rw [Ptr.mk_add, hp.target _ (by omega), ← slot_add_of_lt (by omega),
      place_slot h.target.first_lt (by omega), if_neg (by omega),
      h.target.isSome_iff (slot_lt h.target.first_lt), place_slot h.target.first_lt (by omega)]
    omega
  · rintro p t' ⟨rfl, hc⟩
    refine ⟨rfl, hp.advance h hc hsrc hdst han ?_⟩
    rw [eachAt, eachAt, h.target.size, Finset.Ico_eq_empty_of_le (by omega),
      Finset.Ico_eq_empty_of_le hold, Finset.sum_empty, add_zero]

lemma constructs (h : Opposite s o b f l q bo fo lo qo) (hp : Progress s o b f bo fo qo a t)
    (hsrc : slot o.capacity fo a + n ≤ o.capacity)
    (hdst : slot s.self.capacity f a + n ≤ s.self.capacity) (han : a + n ≤ qo.length)
    (hold : q.length ≤ a) :
    (if move then uninitializedMoveN E ⟨some bo, slot o.capacity fo a⟩ n
        ⟨some b, slot s.self.capacity f a⟩
      else uninitializedCopyN E ⟨some bo, slot o.capacity fo a⟩ n
        ⟨some b, slot s.self.capacity f a⟩ : Method α Ptr).Returns t
      (fun p t' => p = ⟨some b, slot s.self.capacity f a + n⟩ ∧
        Progress s o b f bo fo qo (a + n) t') := by
  have hlen := h.source.size_le
  have hcap := h.capacity_le
  have hext : t.mem.extent b = some s.self.capacity := by rw [hp.stays.extent, h.target.extent]
  refine (uninitialized_chunk (hp.stays.wf h.wf) (Or.inl hp.calm) (by simpa using Ne.symm h.apart)
    (fun i hi => hp.source_live han hi (by omega)) (fun i hi => ?_) (fun i hi => ?_)).mono ?_
  · exact Memory.inBounds_iff.mpr ⟨b, s.self.capacity, rfl, hext, by
      change slot s.self.capacity f a + i < s.self.capacity
      omega⟩
  · rw [Ptr.mk_add, hp.target _ (by omega), ← slot_add_of_lt (by omega),
      place_slot h.target.first_lt (by omega), if_neg (by omega),
      h.target.object _ (slot_lt h.target.first_lt), lay_slot h.target.first_lt (by omega)]
    exact List.getElem?_eq_none (by omega)
  · rintro p t' ⟨rfl, hc⟩
    refine ⟨rfl, hp.advance h hc hsrc hdst han ?_⟩
    have hchunk : built ⟨some b, slot s.self.capacity f a⟩ n =
        eachAt .construct s.self.capacity b f a (a + n) := by
      rw [built, eachAt, Finset.sum_Ico_eq_sum_range, Nat.add_sub_cancel_left]
      refine Finset.sum_congr rfl (fun i hi => ?_)
      rw [Ptr.mk_add, slot_add_of_lt (by have := Finset.mem_range.mp hi; omega)]
    rw [hchunk, eachAt, eachAt, eachAt, h.target.size,
      Finset.sum_Ico_consecutive _ hold (Nat.le_add_right a n)]

end Progress

/-! ### The loops -/

/-- The loop over one segment of the source, whose elements end before element `e`. -/
lemma processAssignFromSegment_returns (E : Element α) (move : Bool) (fuel : ℕ) {A e j : ℕ}
    (h : Opposite s o b f l q bo fo lo qo) (hp : Progress s o b f bo fo qo a t) (hae : a ≤ e)
    (haA : a ≤ A) (hA : A ≤ qo.length) (hAq : A ≤ q.length)
    (hseg : ∀ i, a ≤ i → i < e → slot o.capacity fo i + (e - i) = j) (hj : j ≤ o.capacity)
    {i : ℕ} (hi : i + (e - a) = j) (hfuel : e - a < fuel) :
    (processAssignFromSegment E move ⟨some b, 0⟩ ⟨some b, s.self.capacity⟩ ⟨some bo, j⟩ fuel
      ⟨some bo, i⟩ ⟨some b, slot s.self.capacity f a⟩ (A - a)).Returns t
      (fun p t' => p = (⟨some b, slot s.self.capacity f (min e A)⟩, A - min e A) ∧
        Progress s o b f bo fo qo (min e A) t') := by
  induction fuel generalizing a t i with
  | zero => omega
  | succ fuel ih =>
    rw [processAssignFromSegment]
    by_cases hgo : a < e ∧ a < A
    · obtain rfl : i = slot o.capacity fo a := by
        have := hseg a le_rfl hgo.1
        omega
      have hslot : slot s.self.capacity f a < s.self.capacity := slot_lt h.target.first_lt
      rw [if_pos ⟨(Ptr.lt_iff _ _).mpr (by change slot o.capacity fo a < j; omega), by omega⟩]
      simp only [Ptr.sub_eq]
      generalize htake : min (j - slot o.capacity fo a)
        (min (s.self.capacity - slot s.self.capacity f a) (A - a)) = take
      refine (hp.assigns h (n := take) (by omega) (by omega) (by omega) (by omega)).bind ?_
      rintro _ t' ⟨rfl, hp'⟩
      rw [if_pos (by simp), wrap_slot (by omega), Nat.sub_sub, Ptr.mk_add]
      exact ih hp' (by omega) (by omega) (fun k hk hke => hseg k (by omega) hke) (by omega)
        (by omega)
    · have hmin : min e A = a := by omega
      rw [if_neg, hmin]
      · exact Code.Returns.pure ⟨rfl, hp⟩
      · rintro ⟨hlt, hpos⟩
        have hlt' := (Ptr.lt_iff _ _).mp hlt
        change i < j at hlt'
        omega

lemma Opposite.segments_eq (h : Opposite s o b f l q bo fo lo qo) :
    (fo + qo.length ≤ o.capacity ∧ segments o = ⟨⟨some bo, fo⟩, ⟨some bo, fo + qo.length⟩,
      .null, .null, false⟩) ∨
    (o.capacity ≤ fo + qo.length ∧ segments o = ⟨⟨some bo, fo⟩, ⟨some bo, o.capacity⟩,
      ⟨some bo, 0⟩, ⟨some bo, fo + qo.length - o.capacity⟩, true⟩) := by
  have hle := h.source.behind.le
  rw [segments, h.source.first, h.source.last, h.source.data, Ptr.mk_add, Nat.zero_add]
  rcases h.source.stretches h.source_nonempty with ⟨hfl, rfl⟩ | ⟨hfl, hcap, rfl⟩
  · exact Or.inl ⟨hle, if_pos ((Ptr.lt_iff _ _).mpr hfl)⟩
  · exact Or.inr ⟨hcap, if_neg (fun hlt => hfl ((Ptr.lt_iff _ _).mp hlt))⟩

lemma assignSegments_returns {A fuel : ℕ} (h : Opposite s o b f l q bo fo lo qo)
    (hA : A ≤ qo.length) (hAq : A ≤ q.length) (hfuel : qo.length < fuel) :
    (assignSegments E move fuel ⟨some b, 0⟩ ⟨some b, s.self.capacity⟩ (segments o) ⟨some b, f⟩
      A).Returns s (fun p t => p = ⟨some b, slot s.self.capacity f A⟩ ∧
        Progress s o b f bo fo qo A t) := by
  have hf := h.target.first_lt
  have hfo := h.source.first_lt
  have hlen := h.source.size_le
  have hstart : slot s.self.capacity f 0 = f := Nat.mod_eq_of_lt hf
  rw [assignSegments]
  by_cases hpos : A > 0
  · rw [if_pos hpos]
    rcases h.segments_eq with ⟨hone, hseg⟩ | ⟨htwo, hseg⟩ <;> rw [hseg]
    · have hfirst := processAssignFromSegment_returns E move fuel (e := qo.length)
        (j := fo + qo.length) (i := fo) h h.progress (Nat.zero_le _)
        (Nat.zero_le A) hA hAq (fun i _ hi => by rw [slot_eq hfo (by omega)]; split_ifs <;> omega)
        hone (by omega) (by omega)
      rw [hstart, Nat.sub_zero, Nat.min_eq_right hA] at hfirst
      refine hfirst.bind ?_
      rintro _ t ⟨rfl, ht⟩
      simp only [Nat.sub_self, gt_iff_lt, Nat.lt_irrefl, false_and, if_false]
      exact Code.Returns.pure ⟨rfl, ht⟩
    · have hfirst := processAssignFromSegment_returns E move fuel (e := o.capacity - fo)
        (j := o.capacity) (i := fo) h h.progress
        (Nat.zero_le _) (Nat.zero_le A) hA hAq
        (fun i _ hi => by rw [slot_eq hfo (by omega)]; split_ifs <;> omega)
        le_rfl (by omega) (by omega)
      rw [hstart, Nat.sub_zero] at hfirst
      refine hfirst.bind ?_
      rintro _ t ⟨rfl, ht⟩
      by_cases hrest : A - min (o.capacity - fo) A > 0
      · have hmin : min (o.capacity - fo) A = o.capacity - fo := by omega
        rw [hmin] at ht hrest ⊢
        simp only [hrest, true_and, if_true]
        have hsecond := processAssignFromSegment_returns E move fuel (e := qo.length)
          (j := fo + qo.length - o.capacity) (i := 0) h ht
          (by omega) (by omega) hA hAq
          (fun i hi hie => by rw [slot_eq hfo (by omega)]; split_ifs <;> omega)
          (by omega) (by omega) (by omega)
        rw [Nat.min_eq_right hA] at hsecond
        refine hsecond.bind ?_
        rintro _ t' ⟨rfl, ht'⟩
        exact Code.Returns.pure ⟨rfl, ht'⟩
      · have hmin : min (o.capacity - fo) A = A := by omega
        rw [hmin] at ht ⊢
        simp only [Nat.sub_self, gt_iff_lt, Nat.lt_irrefl, false_and, if_false]
        exact Code.Returns.pure ⟨rfl, ht⟩
  · obtain rfl : A = 0 := by omega
    rw [if_neg hpos, hstart]
    exact Code.Returns.pure ⟨rfl, h.progress⟩

lemma Opposite.firstToConstruct_eq (h : Opposite s o b f l q bo fo lo qo) (ha : a < qo.length) :
    firstToConstruct (segments o) a = ⟨some bo, slot o.capacity fo a⟩ := by
  have hfo := h.source.first_lt
  have hlen := h.source.size_le
  rw [slot_eq hfo (by omega)]
  rcases h.segments_eq with ⟨hone, hseg⟩ | ⟨htwo, hseg⟩ <;>
    rw [hseg] <;> simp only [firstToConstruct, Ptr.sub_eq, Ptr.mk_add]
  · rw [if_pos (by omega), if_pos (by omega)]
  · by_cases hin : a < o.capacity - fo
    · rw [if_pos hin, if_pos (by omega)]
    · rw [if_neg hin, if_pos trivial, if_neg (by omega), Nat.zero_add]
      congr 1
      omega

/-- The end of the segment with element `a`, and where the loop goes on from there. -/
lemma Opposite.segEnd_eq (h : Opposite s o b f l q bo fo lo qo) (ha : a < qo.length) :
    ∃ e, (if (⟨some bo, slot o.capacity fo a⟩ : Ptr) ≥ (segments o).seg1First ∧
        (⟨some bo, slot o.capacity fo a⟩ : Ptr) < (segments o).seg1Last then (segments o).seg1Last
        else (segments o).seg2Last) = ⟨some bo, e⟩ ∧
      slot o.capacity fo a < e ∧ e ≤ o.capacity ∧ e - slot o.capacity fo a ≤ qo.length - a ∧
      ∀ n, n ≤ e - slot o.capacity fo a → a + n < qo.length →
        (if (⟨some bo, slot o.capacity fo a + n⟩ : Ptr) = (segments o).seg1Last ∧
          (segments o).hasSeg2 then (segments o).seg2First
          else ⟨some bo, slot o.capacity fo a + n⟩) = ⟨some bo, slot o.capacity fo (a + n)⟩ := by
  have hfo := h.source.first_lt
  have hlen := h.source.size_le
  have hslot : ∀ i, i < qo.length → slot o.capacity fo i =
      if fo + i < o.capacity then fo + i else fo + i - o.capacity :=
    fun i hi => slot_eq hfo (by omega)
  rcases h.segments_eq with ⟨hone, hseg⟩ | ⟨htwo, hseg⟩
  · have hat : slot o.capacity fo a = fo + a := by rw [hslot a ha, if_pos (by omega)]
    rw [hseg, hat]
    refine ⟨fo + qo.length, if_pos ⟨(Ptr.le_iff _ _).mpr (Nat.le_add_right fo a),
      (Ptr.lt_iff _ _).mpr (Nat.add_lt_add_left ha fo)⟩, by omega, hone, by omega,
      fun n _ han => ?_⟩
    rw [if_neg (fun hn => (nomatch hn.2)), hslot _ han, if_pos (by omega), Nat.add_assoc]
  · by_cases hin : a < o.capacity - fo
    · have hat : slot o.capacity fo a = fo + a := by rw [hslot a ha, if_pos (by omega)]
      rw [hseg, hat]
      have hlt : fo + a < o.capacity := by omega
      refine ⟨o.capacity, if_pos ⟨(Ptr.le_iff _ _).mpr (Nat.le_add_right fo a),
        (Ptr.lt_iff _ _).mpr hlt⟩, hlt, le_rfl, by omega, fun n hn han => ?_⟩
      by_cases hend : fo + a + n = o.capacity
      · rw [if_pos ⟨by rw [hend], rfl⟩, hslot _ han, if_neg (by omega), ← Nat.add_assoc, hend,
          Nat.sub_self]
      · rw [if_neg (fun he => hend (congrArg Ptr.off he.1)), hslot _ han, if_pos (by omega),
          Nat.add_assoc]
    · have hat : slot o.capacity fo a = fo + a - o.capacity := by
        rw [hslot a ha, if_neg (by omega)]
      rw [hseg, hat]
      have hbefore : ¬fo ≤ fo + a - o.capacity := by omega
      refine ⟨fo + qo.length - o.capacity, if_neg (fun hle => hbefore ((Ptr.le_iff _ _).mp hle.1)),
        by omega, by omega, by omega, fun n hn han => ?_⟩
      have hend : fo + a - o.capacity + n ≠ o.capacity := by omega
      rw [if_neg (fun he => hend (congrArg Ptr.off he.1)), hslot _ han, if_neg (by omega)]
      congr 1
      omega

lemma constructRest_returns (E : Element α) (move : Bool) (fuel : ℕ)
    (h : Opposite s o b f l q bo fo lo qo) (hp : Progress s o b f bo fo qo a t)
    (hqa : q.length ≤ a) (ha : a ≤ qo.length) {p : Ptr}
    (hcur : a < qo.length → p = ⟨some bo, slot o.capacity fo a⟩) (hfuel : qo.length - a < fuel) :
    (constructRest E move ⟨some b, 0⟩ ⟨some b, s.self.capacity⟩ (segments o) fuel p
      ⟨some b, slot s.self.capacity f a⟩ (qo.length - a)).Returns t
      (fun p t' => p = ⟨some b, slot s.self.capacity f qo.length⟩ ∧
        Progress s o b f bo fo qo qo.length t') := by
  induction fuel generalizing a t p with
  | zero => omega
  | succ fuel ih =>
    rw [constructRest]
    by_cases hgo : a < qo.length
    · have hslot : slot s.self.capacity f a < s.self.capacity := slot_lt h.target.first_lt
      obtain ⟨e, hend, hlt, he, hrest, hnext⟩ := h.segEnd_eq hgo
      rw [if_pos (by omega), hcur hgo, hend]
      simp only [Ptr.sub_eq]
      generalize htake : min (min (e - slot o.capacity fo a)
        (s.self.capacity - slot s.self.capacity f a)) (qo.length - a) = take
      refine (hp.constructs h (n := take) (by omega) (by omega) (by omega) hqa).bind ?_
      rintro _ t' ⟨rfl, hp'⟩
      rw [wrap_slot (by omega), Nat.sub_sub, Ptr.mk_add]
      exact ih hp' (by omega) (by omega) (fun han => hnext take (by omega) han) (by omega)
    · obtain rfl : a = qo.length := by omega
      rw [if_neg (by omega)]
      exact Code.Returns.pure ⟨rfl, hp⟩

/-! ### What is left of the old elements -/

lemma eachAt_apply {c : Ptr → Event} (hc : Function.Injective c) {N a' i : ℕ} (hf : f < N)
    (ha : a' ≤ N) (hi : i < N) :
    eachAt c N b f a a' (c ⟨some b, slot N f i⟩) = if a ≤ i ∧ i < a' then 1 else 0 := by
  have hsingle : ∀ k ∈ Finset.Ico a a', (Pi.single (c ⟨some b, slot N f k⟩) 1 : Event → ℕ)
      (c ⟨some b, slot N f i⟩) = if i = k then 1 else 0 := by
    intro k hk
    rw [Pi.single_apply]
    refine if_congr ⟨fun he => ?_, fun he => by rw [he]⟩ rfl rfl
    have hslot := congrArg (Cyclic.place N f) (congrArg Ptr.off (hc he))
    rwa [place_slot hf hi, place_slot hf (by have := Finset.mem_Ico.mp hk; omega)] at hslot
  rw [eachAt, Finset.sum_apply, Finset.sum_congr rfl hsingle, Finset.sum_ite_eq]
  simp only [Finset.mem_Ico]

lemma eachAt_other {c : Ptr → Event} {N a' : ℕ} {e : Event} (he : ∀ p, e ≠ c p) :
    eachAt c N b f a a' e = 0 := by
  rw [eachAt, Finset.sum_apply]
  exact Finset.sum_eq_zero (fun k _ => Pi.single_eq_of_ne (he _) 1)

lemma eachAt_slot {c : Ptr → Event} {N a' : ℕ} :
    eachAt c N b (slot N f a) 0 (a' - a) = eachAt c N b f a a' := by
  rw [eachAt, eachAt, Finset.sum_Ico_eq_sum_range, Finset.sum_Ico_eq_sum_range, Nat.sub_zero]
  refine Finset.sum_congr rfl (fun i _ => ?_)
  rw [Nat.zero_add, slot_slot]

lemma destroySeq_emits {p e : Ptr} : (destroySeq p e : Method α Unit).Emits s (razed p (e - p)) := by
  rw [destroySeq]
  split_ifs
  · exact destroyAll_emits
  · exact .undefined

lemma destroyRange_emits {p e : Ptr} (hsize : s.self.size ≠ 0) :
    (destroyRange p e : Method α Unit).Emits s (if e > p then razed p (e - p)
      else razed p (s.self.data + s.self.capacity - p) + razed s.self.data (e - s.self.data)) := by
  refine Code.Emits.step rfl ?_
  rw [if_neg hsize]
  split_ifs
  · exact destroySeq_emits
  · exact destroySeq_emits.bind (fun _ _ _ => destroySeq_emits)

lemma razed_stretch {N : ℕ} (hf : f < N) (hn : n ≠ 0) (hnN : n ≤ N) (hl : Behind N f n l) :
    (if (⟨some b, l⟩ : Ptr) > ⟨some b, f⟩ then razed ⟨some b, f⟩ (l - f)
      else razed ⟨some b, f⟩ (N - f) + razed ⟨some b, 0⟩ l) = eachAt .destroy N b f 0 n := by
  have hle := hl.le
  have hcases := hl.cases hf hnN
  rw [eachAt, Finset.sum_Ico_eq_sum_range, Nat.sub_zero]
  by_cases hfl : f < l
  · have hlen : l - f = n := by omega
    rw [if_pos ((Ptr.lt_iff _ _).mpr hfl), razed, hlen]
    refine Finset.sum_congr rfl (fun i hi => ?_)
    have hi' := Finset.mem_range.mp hi
    rw [Ptr.mk_add, Nat.zero_add, slot_eq hf (by omega), if_pos (by omega)]
  · obtain rfl : n = (N - f) + l := by omega
    rw [if_neg (fun hlt => hfl ((Ptr.lt_iff _ _).mp hlt)), Finset.sum_range_add, razed, razed]
    congr 1
    · refine Finset.sum_congr rfl (fun i hi => ?_)
      have hi' := Finset.mem_range.mp hi
      rw [Ptr.mk_add, Nat.zero_add, slot_eq hf (by omega), if_pos (by omega)]
    · refine Finset.sum_congr rfl (fun i hi => ?_)
      have hi' := Finset.mem_range.mp hi
      rw [Ptr.mk_add, Nat.zero_add, Nat.zero_add, slot_eq hf (by omega), if_neg (by omega)]
      congr 3
      omega

/-- The events with which `destroySurplus` takes away what the source has no element for. -/
def surplus (trivial : Bool) (N b f a a' : ℕ) : Event → ℕ :=
  if trivial then 0 else eachAt .destroy N b f a a'

lemma destroySurplus_returns {trivial : Bool} (h : Opposite s o b f l q bo fo lo qo)
    (hp : Progress s o b f bo fo qo qo.length t) (hlt : qo.length < q.length ∨ trivial = true) :
    (destroySurplus trivial ⟨some b, slot s.self.capacity f qo.length⟩ ⟨some b, l⟩).Returns t
      (fun _ u => (∀ j, j < s.self.capacity → u.mem.object ⟨some b, j⟩ =
          if trivial = false ∧ qo.length ≤ Cyclic.place s.self.capacity f j ∧
            Cyclic.place s.self.capacity f j < q.length then none
          else t.mem.object ⟨some b, j⟩) ∧
        t.Tallies (surplus trivial s.self.capacity b f qo.length q.length) u) := by
  cases trivial with
  | true =>
    refine Code.Returns.pure ⟨fun j _ => ?_, .refl t⟩
    rw [if_neg (fun hn => (nomatch hn.1))]
  | false =>
    have hlt' : qo.length < q.length := hlt.resolve_right (fun hn => nomatch hn)
    have hf := h.target.first_lt
    have hqN := h.target.size_le
    have hsize : t.self.size ≠ 0 := by
      rw [hp.stays.self, h.target.size]
      exact h.nonempty
    have hdata : t.self.data = ⟨some b, 0⟩ := by rw [hp.stays.self, h.target.data]
    have hcap : t.self.capacity = s.self.capacity := by rw [hp.stays.self]
    have hl := h.target.behind.drop hf hlt'.le hqN
    have hrest : ∀ j, j < s.self.capacity →
        (Cyclic.place s.self.capacity (slot s.self.capacity f qo.length) j < q.length - qo.length ↔
          qo.length ≤ Cyclic.place s.self.capacity f j ∧
            Cyclic.place s.self.capacity f j < q.length) := by
      intro j hj
      have hs := slot_eq hf (hlt'.le.trans hqN)
      have hpj := place_lt hf hj
      simp only [Cyclic.place] at hpj ⊢
      split_ifs at hs hpj ⊢ <;> omega
    have hrange := destroyRange_stretch (s := t) (k := q.length - qo.length)
      (f := slot s.self.capacity f qo.length) (l := l) hdata (hp.stays.wf h.wf) hsize
      (by rw [hcap]; exact slot_lt hf) (by omega) (by omega)
      (by rw [hcap]; exact hl) (fun j hj hpj => ?_)
    · refine (hrange.tally (destroyRange_emits hsize)).mono ?_
      rintro _ u ⟨hu, hg⟩
      rw [hcap] at hu
      refine ⟨fun j hj => ?_, ?_⟩
      · by_cases hpj : qo.length ≤ Cyclic.place s.self.capacity f j ∧
            Cyclic.place s.self.capacity f j < q.length
        · rw [if_pos ⟨rfl, hpj⟩, hu.emptied j ⟨hj, (hrest j hj).mpr hpj⟩]
        · rw [if_neg (fun hn => hpj hn.2), hu.kept j (fun hn => hpj ((hrest j hj).mp hn.2))]
      · rw [hdata, hcap, Ptr.mk_add, Nat.zero_add] at hg
        simp only [Ptr.sub_eq] at hg
        rw [Nat.sub_zero, razed_stretch (slot_lt hf) (by omega) (by omega) hl, eachAt_slot] at hg
        exact hg
    · rw [hcap] at hj hpj
      obtain ⟨hge, hltq⟩ := (hrest j hj).mp hpj
      rw [hp.target j hj, if_neg (by omega), h.target.isSome_iff hj]
      exact hltq

/-! ### The whole transfer -/

/-- The buffer holds the elements `qo` from its old first slot on and nothing else; of its slots
those were destroyed that are beyond the new elements, and those constructed that are beyond the
old ones, once each. Elements of a trivially destructible type need not be destroyed. -/
structure Transferred (trivial : Bool) (qo : List α) (s s' : State α RingBuffer) : Prop where
  fields : s'.self = { s.self with last := s'.self.last, size := qo.length }
  last : ∃ l, s'.self.last = s.self.data + l ∧
    Behind s.self.capacity (s.self.first - s.self.data) qo.length l
  elements : ∀ i, i < qo.length → s'.mem.object (s.self.place i) = qo[i]?
  dead : trivial = false → ∀ i, qo.length ≤ i → i < s.self.capacity →
    s'.mem.object (s.self.place i) = none
  constructed : ∀ i, i < s.self.capacity → s'.mem.trace.count (.construct (s.self.place i)) =
    s.mem.trace.count (.construct (s.self.place i)) +
      if s.self.size ≤ i ∧ i < qo.length then 1 else 0
  destroyed : ∀ i, i < s.self.capacity → s'.mem.trace.count (.destroy (s.self.place i)) =
    s.mem.trace.count (.destroy (s.self.place i)) +
      if trivial = false ∧ qo.length ≤ i ∧ i < s.self.size then 1 else 0

lemma Holds.place_eq (h : Holds s.mem s.self b f l q) (i : ℕ) :
    s.self.place i = ⟨some b, slot s.self.capacity f i⟩ := by
  rw [RingBuffer.place, h.data, h.first, Ptr.mk_add, Ptr.sub_eq, Nat.sub_zero, Nat.zero_add, slot]

lemma Progress.transferred {trivial : Bool} {u : State α RingBuffer}
    (h : Opposite s o b f l q bo fo lo qo) (hp : Progress s o b f bo fo qo qo.length t)
    (hobj : ∀ j, j < s.self.capacity → u.mem.object ⟨some b, j⟩ =
      if trivial = false ∧ qo.length ≤ Cyclic.place s.self.capacity f j ∧
        Cyclic.place s.self.capacity f j < q.length then none else t.mem.object ⟨some b, j⟩)
    (hg : t.Tallies (surplus trivial s.self.capacity b f qo.length q.length) u) :
    Transferred trivial qo s ⟨u.mem, ⟨⟨some b, 0⟩, ⟨some b, f⟩,
      ⟨some b, slot s.self.capacity f qo.length⟩, qo.length, s.self.capacity,
      s.self.allowOverwrite⟩⟩ := by
  have hf := h.target.first_lt
  have hqN := h.target.size_le
  have hqoN : qo.length ≤ s.self.capacity := h.source.size_le.trans h.capacity_le
  have htally := hp.tallies.trans hg
  have hconstruct : Function.Injective Event.construct := fun _ _ he => Event.construct.inj he
  have hdestroy : Function.Injective Event.destroy := fun _ _ he => Event.destroy.inj he
  have hat : ∀ i, i < s.self.capacity → u.mem.object (s.self.place i) =
      if trivial = false ∧ qo.length ≤ i ∧ i < q.length then none
      else if i < qo.length then qo[i]? else q[i]? := by
    intro i hi
    rw [h.target.place_eq, hobj _ (slot_lt hf), hp.target _ (slot_lt hf), place_slot hf hi,
      h.target.object _ (slot_lt hf), lay_slot hf hi]
  refine ⟨by simp only [h.target.data, h.target.first],
    ⟨slot s.self.capacity f qo.length, ?_, (slot_lt hf).le, ?_⟩, fun i hi => ?_,
    fun htriv i hi hiN => ?_, fun i hi => ?_, fun i hi => ?_⟩
  · rw [h.target.data, Ptr.mk_add, Nat.zero_add]
  · rw [h.target.data, h.target.first, Ptr.sub_eq, Nat.sub_zero]
    exact Nat.mod_modEq _ _
  · rw [hat i (by omega), if_neg (by omega), if_pos hi]
  · rw [hat i hiN]
    split_ifs with hold hlt
    · rfl
    · omega
    · have hq : ¬i < q.length := fun hlt => hold ⟨htriv, hi, hlt⟩
      exact List.getElem?_eq_none (by omega)
  · have hcount := htally (.construct (s.self.place i))
    have hnone : surplus trivial s.self.capacity b f qo.length q.length
        (.construct (s.self.place i)) = 0 := by
      rw [surplus]
      split_ifs
      · rfl
      · exact eachAt_other (fun _ he => nomatch he)
    rw [Pi.add_apply, hnone, h.target.place_eq, eachAt_apply hconstruct hf hqoN hi,
      ← h.target.place_eq] at hcount
    exact hcount
  · have hcount := htally (.destroy (s.self.place i))
    have hsome : surplus trivial s.self.capacity b f qo.length q.length
        (.destroy (s.self.place i)) =
          if trivial = false ∧ qo.length ≤ i ∧ i < s.self.size then 1 else 0 := by
      rw [surplus, h.target.size]
      cases trivial with
      | true => rfl
      | false =>
        rw [if_neg (by simp), h.target.place_eq, eachAt_apply hdestroy hf hqN hi]
        simp only [true_and]
    have hnone : eachAt .construct s.self.capacity b f s.self.size qo.length
        (.destroy (s.self.place i)) = 0 := eachAt_other (fun _ he => nomatch he)
    rw [Pi.add_apply, hsome, hnone, Nat.zero_add] at hcount
    exact hcount

lemma destroyRange_whole (h : Opposite s o b f l q bo fo lo qo) (ht : Stays s t) :
    ∀ u, destroyRange (⟨some b, slot s.self.capacity f q.length⟩ : Ptr) ⟨some b, l⟩ t =
      .returned () u → t.mem.trace.count (.destroy (s.self.place 0)) <
        u.mem.trace.count (.destroy (s.self.place 0)) := by
  intro u hu
  have hf := h.target.first_lt
  have hcount : ∀ i n, i ≤ f → f < i + n →
      1 ≤ razed ⟨some b, i⟩ n (.destroy (s.self.place 0)) := by
    intro i n hi hn
    have hmem : f - i ∈ Finset.range n := Finset.mem_range.mpr (by omega)
    have hle := Finset.single_le_sum (f := fun k =>
      (Pi.single (.destroy ((⟨some b, i⟩ : Ptr) + k)) 1 : Event → ℕ) (.destroy (s.self.place 0)))
      (fun _ _ => Nat.zero_le _) hmem
    have hfirst : s.self.place 0 = (⟨some b, i⟩ : Ptr) + (f - i) := by
      rw [h.target.place_eq, slot_eq hf (Nat.zero_le _), if_pos (by omega), Ptr.mk_add,
        Nat.add_zero, Nat.add_sub_cancel' hi]
    rw [razed, Finset.sum_apply]
    refine le_trans ?_ hle
    rw [hfirst]
    exact (Pi.single_eq_same (M := fun _ => ℕ) _ 1).ge
  have hsize : t.self.size ≠ 0 := by
    rw [ht.self, h.target.size]
    exact h.nonempty
  have htally := destroyRange_emits hsize () u hu (.destroy (s.self.place 0))
  rw [htally, ht.self, h.target.data, Ptr.mk_add, Nat.zero_add]
  refine Nat.lt_add_of_pos_right ?_
  have hl := h.target.behind.le
  have hslot := slot_eq hf h.target.size_le
  have hlt : slot s.self.capacity f q.length < s.self.capacity := slot_lt hf
  have hcases := h.target.behind.cases hf h.target.size_le
  simp only [Ptr.sub_eq]
  by_cases hend : slot s.self.capacity f q.length < l
  · rw [if_pos ((Ptr.lt_iff _ _).mpr hend)]
    refine hcount _ _ ?_ ?_ <;> split_ifs at hslot <;> omega
  · rw [if_neg (fun hlt' => hend ((Ptr.lt_iff _ _).mp hlt')), Pi.add_apply]
    rcases Nat.lt_or_ge f (slot s.self.capacity f q.length) with hbefore | hafter
    · exact Nat.add_pos_right _ (hcount _ _ (Nat.zero_le _) (by split_ifs at hslot <;> omega))
    · exact Nat.add_pos_left (hcount _ _ hafter (by omega)) _

/-- The transfer leaves the target with the source's elements exactly when the sizes differ, or
nothing has to be destroyed. -/
theorem transferSource_iff (h : Opposite s o b f l q bo fo lo qo) (trivial move : Bool) (fuel : ℕ)
    (hfuel : qo.length < fuel) :
    (transferSource E trivial move fuel o).Returns s (fun _ s' => Transferred trivial qo s s') ↔
      q.length ≠ qo.length ∨ trivial = true := by
  have hqo := h.source_nonempty
  have hfull : ¬(¬o.first < o.last ∧ o.size = 0) := fun hn => hqo (h.source.size ▸ hn.2)
  have hend : s.self.data + s.self.capacity = ⟨some b, s.self.capacity⟩ := by
    rw [h.target.data, Ptr.mk_add, Nat.zero_add]
  constructor
  · rintro ⟨_, s', hs, htr⟩
    by_contra hcon
    obtain ⟨heq, htriv⟩ := not_or.mp hcon
    have heq' : q.length = qo.length := not_not.mp heq
    have hwhole : (transferSource E trivial move fuel o).Within (fun _ => True) s
        (fun _ s' => s.mem.trace.count (.destroy (s.self.place 0)) <
          s'.mem.trace.count (.destroy (s.self.place 0))) (fun _ => True) := by
      refine Code.Within.step rfl ?_
      rw [if_neg hfull, hend, h.target.data, h.target.first, h.target.last, h.target.size,
        h.source.size, heq', Nat.min_self]
      refine (Code.Within.of_ends (.of_returns (assignSegments_returns h le_rfl heq'.ge
        hfuel))).bind ?_
      rintro _ t ⟨rfl, ht⟩
      simp only [gt_iff_lt, Nat.lt_irrefl, Nat.sub_self, if_false]
      rw [destroySurplus, if_neg htriv, ← heq']
      refine Code.Within.bind (Code.Within.of_returned (fun _ u hu => ?_))
        (fun _ u hu => .of_ends (.of_returns (setSelf_returns hu)))
      have hquiet := ht.tallies (.destroy (s.self.place 0))
      have hnone : eachAt .construct s.self.capacity b f s.self.size qo.length
          (.destroy (s.self.place 0)) = 0 := eachAt_other (fun _ he => nomatch he)
      rw [hnone, Nat.add_zero] at hquiet
      rw [← hquiet]
      exact destroyRange_whole h ht.stays u hu
    have hlt := hwhole.returned hs
    have hcount := htr.destroyed 0 (Nat.pos_of_ne_zero h.target.capacity_pos)
    rw [if_neg (fun hn => hqo (Nat.le_zero.mp hn.2.1))] at hcount
    omega
  · intro hdiff
    refine Code.Returns.step rfl ?_
    rw [if_neg hfull, hend, h.target.data, h.target.first, h.target.last, h.target.size,
      h.source.size]
    rcases Nat.lt_or_ge q.length qo.length with hlt | hge
    · rw [Nat.min_eq_left hlt.le]
      refine (assignSegments_returns h hlt.le le_rfl hfuel).bind ?_
      rintro _ t ⟨rfl, ht⟩
      rw [if_neg (by omega), if_pos (by omega), h.firstToConstruct_eq hlt]
      refine (constructRest_returns E move fuel h ht le_rfl hlt.le (fun _ => rfl)
        (by omega)).bind ?_
      rintro _ u ⟨rfl, hu⟩
      refine setSelf_returns (hu.transferred h (fun j hj => ?_) ?_)
      · rw [if_neg (by omega)]
      · rw [surplus, eachAt, Finset.Ico_eq_empty_of_le hlt.le, Finset.sum_empty, ite_self]
        exact .refl u
    · rw [Nat.min_eq_right hge]
      refine (assignSegments_returns h le_rfl hge hfuel).bind ?_
      rintro _ t ⟨rfl, ht⟩
      have hsurplus : qo.length < q.length ∨ trivial = true := hdiff.imp_left (fun hne => by omega)
      have hrest : (do
          destroySurplus trivial ⟨some b, slot s.self.capacity f qo.length⟩ ⟨some b, l⟩
          setSelf ⟨⟨some b, 0⟩, ⟨some b, f⟩, ⟨some b, slot s.self.capacity f qo.length⟩, qo.length,
            s.self.capacity, s.self.allowOverwrite⟩ : Method α Unit).Returns t
          (fun _ s' => Transferred trivial qo s s') :=
        (destroySurplus_returns h ht hsurplus).bind
          (fun _ u hu => setSelf_returns (ht.transferred h hu.1 hu.2))
      by_cases hgt : q.length > qo.length
      · rw [if_pos hgt]
        exact hrest
      · rw [if_neg hgt, if_neg (by omega)]
        exact hrest

/-- A buffer with the elements `q` from slot `f` on, in a memory with that of `opposed`. -/
def facing (n f : ℕ) (q : List α) (no fo : ℕ) (qo : List α) : State α RingBuffer where
  mem := {
    fresh := 2
    extent := fun b => if b = 0 then some n else if b = 1 then some no else none
    object := fun p => if p.block = some 0 ∧ p.off < n then lay n f q p.off
      else if p.block = some 1 ∧ p.off < no then lay no fo qo p.off else none
    trace := []
    fuse := none
    nullOnZero := true }
  self := ⟨⟨some 0, 0⟩, ⟨some 0, f⟩, ⟨some 0, slot n f q.length⟩, q.length, n, true⟩

def opposed (no fo : ℕ) (qo : List α) : RingBuffer :=
  ⟨⟨some 1, 0⟩, ⟨some 1, fo⟩, ⟨some 1, slot no fo qo.length⟩, qo.length, no, true⟩

section Facing

variable {N no : ℕ}

lemma facing_target (qo : List α) (hf : f < N) (hq : q.length ≤ N) :
    Holds (facing N f q no fo qo).mem (facing N f q no fo qo).self 0 f (slot N f q.length) q :=
  ⟨rfl, rfl, rfl, rfl, rfl, hf, hq, ⟨(slot_lt hf).le, Nat.mod_modEq _ _⟩,
    fun _ hj => if_pos ⟨rfl, hj⟩⟩

lemma facing_source (q : List α) (hfo : fo < no) (hqo : qo.length ≤ no) :
    Holds (facing N f q no fo qo).mem (opposed no fo qo) 1 fo (slot no fo qo.length) qo :=
  ⟨rfl, rfl, rfl, rfl, rfl, hfo, hqo, ⟨(slot_lt hfo).le, Nat.mod_modEq _ _⟩, fun j hj => by
    have hj' : j < no := hj
    simp [facing, opposed, hj']⟩

lemma facing_wf (q qo : List α) : (facing N f q no fo qo).mem.Wf := by
  refine ⟨fun b hb => ?_, fun p hp => Memory.inBounds_iff.mpr ?_⟩
  · change 2 ≤ b at hb
    change (if b = 0 then some N else if b = 1 then some no else none) = none
    rw [if_neg (by omega), if_neg (by omega)]
  · by_cases h0 : p.block = some 0 ∧ p.off < N
    · exact ⟨0, N, h0.1, rfl, h0.2⟩
    · by_cases h1 : p.block = some 1 ∧ p.off < no
      · exact ⟨1, no, h1.1, rfl, h1.2⟩
      · simp [facing, h0, h1] at hp

lemma facing_opposite (hf : f < N) (hq : q.length ≤ N) (hq0 : q.length ≠ 0) (hfo : fo < no)
    (hqo : qo.length ≤ no) (hqo0 : qo.length ≠ 0) (hcap : no ≤ N) :
    Opposite (facing N f q no fo qo) (opposed no fo qo) 0 f (slot N f q.length) q 1 fo
      (slot no fo qo.length) qo :=
  ⟨facing_target qo hf hq, facing_source q hfo hqo, by decide, facing_wf q qo, rfl, hq0, hqo0, hcap⟩

end Facing

/-- Three elements that wrap around make way for two that wrap around. -/
theorem shorter_transferred : (transferSource (Element.plain 0 id) false false 3
    (opposed 2 1 [7, 8])).Returns (facing 3 2 [1, 2, 3] 2 1 [7, 8])
    (fun _ s' => Transferred false [7, 8] (facing 3 2 [1, 2, 3] 2 1 [7, 8]) s') :=
  (transferSource_iff (facing_opposite (by decide) (by decide) (by decide) (by decide) (by decide)
    (by decide) (by decide)) false false 3 (by decide)).mpr (Or.inl (by decide))

/-- Two elements for two elements: the new ones are destroyed. -/
theorem equal_sizes_destroyed : ∃ s', transferSource (Element.plain 0 id) false false 3
      (opposed 2 0 [7, 8]) (facing 2 0 [1, 2] 2 0 [7, 8]) = .returned () s' ∧
    s'.self.size = 2 ∧ s'.mem.object s'.self.first = none ∧
    ¬(transferSource (Element.plain 0 id) false false 3 (opposed 2 0 [7, 8])).Returns
      (facing 2 0 [1, 2] 2 0 [7, 8])
      (fun _ s' => Transferred false [7, 8] (facing 2 0 [1, 2] 2 0 [7, 8]) s') := by
  have hrun : (transferSource (Element.plain 0 id) false false 3 (opposed 2 0 [7, 8])
      (facing 2 0 [1, 2] 2 0 [7, 8])).state?.map
        (fun s' => (s'.self.size, s'.mem.object s'.self.first)) = some (2, none) := by
    decide +kernel
  obtain ⟨s', hs', heq⟩ := Option.map_eq_some_iff.mp hrun
  obtain ⟨_, hs⟩ := Outcome.state?_eq_some.mp hs'
  obtain ⟨hsize, hdead⟩ := Prod.mk.inj heq
  refine ⟨s', hs, hsize, hdead, ?_⟩
  rintro ⟨_, t, ht, htr⟩
  rw [hs] at ht
  cases ht
  have hfirst := htr.elements 0 (by decide)
  have hfields := htr.fields
  rw [hfields] at hdead
  cases hdead.symm.trans hfirst

end RingBuffer

end Voxory
