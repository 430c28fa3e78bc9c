import Voxory.RingBuffer.Transfer

/-!
# The elements of a ring in a row

`_fill_uninitialized_from_ring` constructs the elements of a buffer one after the other. Whether
they lie in one stretch or in two is decided by comparing `first` and `last`, which may be the same
place when the buffer is full, and have two forms at the end of the storage.
-/

namespace Voxory
open Cxx Cyclic

namespace RingBuffer

variable {α : Type} {E : Element α} {t u : State α RingBuffer} {o : RingBuffer} {qo : List α}
  {bo fo lo i j : ℕ} {dest : Ptr} {move : Bool}

/-- From `t` to `u` the elements `qo` were copied or moved out of the block `bo`, and constructed
once each from `dest` on. -/
structure Unrolls (t : State α RingBuffer) (bo : ℕ) (dest : Ptr) (qo : List α)
    (u : State α RingBuffer) : Prop where
  stays : Stays t u
  calm : t.mem.fuse = none → u.mem.fuse = none
  filled : ∀ j, j < qo.length → u.mem.object (dest + j) = qo[j]?
  kept : ∀ p : Ptr, p.block ≠ some bo →
    ¬(p.block = dest.block ∧ dest.off ≤ p.off ∧ p.off < dest.off + qo.length) →
    u.mem.object p = t.mem.object p
  tallies : t.Tallies (built dest qo.length) u

lemma transfer_chunk (hw : t.mem.Wf)
    (hsafe : t.mem.fuse = none ∨ (if move then E.nothrowMove else E.nothrowCopy) = true)
    (hdest : some bo ≠ dest.block) (hsrc : ∀ m, m < j → (t.mem.object ⟨some bo, i + m⟩).isSome)
    (hin : ∀ m, m < j → t.mem.inBounds (dest + m) = true)
    (hraw : ∀ m, m < j → t.mem.object (dest + m) = none) :
    (transfer E move ⟨some bo, i⟩ ⟨some bo, i + j⟩ dest).Returns t (fun p u =>
      p = dest + j ∧ Chunk t ⟨some bo, i⟩ dest j (built dest j) u) := by
  have hle : (⟨some bo, i⟩ : Ptr) ≤ ⟨some bo, i + j⟩ := (Ptr.le_iff _ _).mpr (Nat.le_add_right i j)
  have hlen : (⟨some bo, i + j⟩ : Ptr) - (⟨some bo, i⟩ : Ptr) = j := Nat.add_sub_cancel_left i j
  rw [transfer, uninitializedMove, uninitializedCopy, if_pos hle, if_pos hle, hlen]
  exact uninitialized_chunk hw hsafe hdest hsrc hin hraw

/-- One stretch of the ring. What lies outside it in the block stays. -/
lemma stretch_unrolls {q : List α} (hw : t.mem.Wf)
    (hsafe : t.mem.fuse = none ∨ (if move then E.nothrowMove else E.nothrowCopy) = true)
    (hdest : some bo ≠ dest.block)
    (hold : ∀ m, m < q.length → t.mem.object ⟨some bo, i + m⟩ = q[m]?)
    (hin : ∀ m, m < q.length → t.mem.inBounds (dest + m) = true)
    (hraw : ∀ m, m < q.length → t.mem.object (dest + m) = none) :
    (transfer E move ⟨some bo, i⟩ ⟨some bo, i + q.length⟩ dest).Returns t (fun p u =>
      p = dest + q.length ∧ Unrolls t bo dest q u ∧ ∀ k, k < i →
        u.mem.object ⟨some bo, k⟩ = t.mem.object ⟨some bo, k⟩) := by
  have hsrc : ∀ m, m < q.length → (t.mem.object ⟨some bo, i + m⟩).isSome := fun m hm => by
    rw [hold m hm, List.getElem?_eq_getElem hm]
    rfl
  refine (transfer_chunk hw hsafe hdest hsrc hin hraw).mono ?_
  rintro _ u ⟨rfl, hc⟩
  refine ⟨rfl, ⟨hc.stays, hc.calm, fun m hm => ?_, fun p hp hpd => ?_, hc.tallies⟩, fun k hk => ?_⟩
  · rw [hc.written m hm, Ptr.mk_add, hold m hm]
  · exact hc.kept p hpd (fun hin => hp hin.1)
  · refine hc.kept _ (fun hin => hdest hin.1) (fun hin => ?_)
    have hge : i ≤ k := hin.2.1
    omega

lemma Unrolls.trans {q q' : List α} {v : State α RingBuffer} (hdest : some bo ≠ dest.block)
    (h : Unrolls t bo dest q u) (h' : Unrolls u bo (dest + q.length) q' v) :
    Unrolls t bo dest (q ++ q') v where
  stays := h.stays.trans h'.stays
  calm hf := h'.calm (h.calm hf)
  filled k hk := by
    rw [List.length_append] at hk
    by_cases hkq : k < q.length
    · rw [h'.kept (dest + k) hdest.symm (fun hin => ?_), h.filled k hkq,
        List.getElem?_append_left hkq]
      have hge := hin.2.1
      simp only [Ptr.add_off] at hge
      omega
    · obtain ⟨m, rfl⟩ := Nat.exists_eq_add_of_le (Nat.not_lt.mp hkq)
      rw [← Ptr.add_add, h'.filled m (by omega), List.getElem?_append_right (Nat.le_add_right _ _),
        Nat.add_sub_cancel_left]
  kept p hp hpd := by
    rw [List.length_append] at hpd
    rw [h'.kept p hp (fun hin => hpd ?_), h.kept p hp (fun hin => hpd ?_)]
    · exact ⟨hin.1, hin.2.1, by omega⟩
    · have hin' := hin.2
      simp only [Ptr.add_off] at hin'
      exact ⟨hin.1, by omega, by omega⟩
  tallies := by
    have hsum := h.tallies.trans h'.tallies
    rwa [built_add, ← List.length_append] at hsum

/-- One stretch from `first` up to `last`, or one up to the end of the storage and one from its
start. -/
lemma fillUninitializedFrom_unrolls (h : Holds t.mem o bo fo lo qo) (hqo : qo.length ≠ 0)
    (hw : t.mem.Wf)
    (hsafe : t.mem.fuse = none ∨ (if move then E.nothrowMove else E.nothrowCopy) = true)
    (hdest : some bo ≠ dest.block) (hin : ∀ j, j < qo.length → t.mem.inBounds (dest + j) = true)
    (hraw : ∀ j, j < qo.length → t.mem.object (dest + j) = none) :
    (fillUninitializedFrom E o dest move).Returns t (fun p u =>
      p = dest + qo.length ∧ Unrolls t bo dest qo u) := by
  have hfo := h.first_lt
  have hlen := h.size_le
  have helement : ∀ i j, i + j < qo.length → slot o.capacity fo i + j < o.capacity →
      t.mem.object ⟨some bo, slot o.capacity fo i + j⟩ = qo[i + j]? := by
    intro i j hij hlt
    rw [← slot_add_of_lt hlt]
    exact Holds.object_slot (s := ⟨t.mem, o⟩) h hij
  have hstart : slot o.capacity fo 0 = fo := Nat.mod_eq_of_lt hfo
  refine Code.Returns.noexcept ?_
  rw [h.first, h.last, h.data, Ptr.mk_add, Nat.zero_add]
  rcases h.stretches hqo with ⟨hfl, rfl⟩ | ⟨hfl, hcap, rfl⟩
  · have hle := h.behind.le
    have hold : ∀ j, j < qo.length → t.mem.object ⟨some bo, fo + j⟩ = qo[j]? := fun j hj => by
      have hj' := helement 0 j (by omega) (by omega)
      rwa [hstart, Nat.zero_add] at hj'
    rw [if_pos ((Ptr.lt_iff _ _).mpr hfl)]
    refine (stretch_unrolls hw hsafe hdest hold hin hraw).mono ?_
    rintro _ u ⟨rfl, hu, -⟩
    exact ⟨rfl, hu⟩
  · -- the elements `q` up to the end of the storage, and the elements `q'` from its start on
    obtain ⟨i, hi⟩ := Nat.exists_eq_add_of_le hfo.le
    obtain ⟨q, q', rfl, rfl⟩ : ∃ q q', qo = q ++ q' ∧ q.length = i :=
      ⟨qo.take i, qo.drop i, (List.take_append_drop i qo).symm, List.length_take_of_le (by omega)⟩
    rw [List.length_append] at hfl hcap hlen hin hraw helement ⊢
    have hlast : fo + (q.length + q'.length) - o.capacity = 0 + q'.length := by omega
    have hold : ∀ k, k < q.length → t.mem.object ⟨some bo, fo + k⟩ = q[k]? := fun k hk => by
      have hk' := helement 0 k (by omega) (by omega)
      rwa [hstart, Nat.zero_add, List.getElem?_append_left hk] at hk'
    have hwrap : ∀ k, k < q'.length → t.mem.object ⟨some bo, 0 + k⟩ = q'[k]? := fun k hk => by
      have hslot : slot o.capacity fo q.length = 0 := by
        rw [slot_eq hfo (by omega), if_neg (by omega)]
        omega
      have hk' := helement q.length k (by omega) (by omega)
      rwa [hslot, List.getElem?_append_right (Nat.le_add_right _ _), Nat.add_sub_cancel_left] at hk'
    rw [if_neg (fun hlt => hfl ((Ptr.lt_iff _ _).mp hlt)), hlast, hi]
    refine (stretch_unrolls hw hsafe hdest hold (fun k hk => hin k (by omega))
      (fun k hk => hraw k (by omega))).bind ?_
    rintro _ u ⟨rfl, hu, hrest⟩
    have hraw' : ∀ k, k < q'.length → u.mem.object (dest + q.length + k) = none := fun k hk => by
      rw [Ptr.add_add, hu.kept (dest + (q.length + k)) hdest.symm (fun hin => ?_)]
      · exact hraw _ (by omega)
      · have hlt := hin.2.2
        simp only [Ptr.add_off] at hlt
        omega
    have hsecond : (transfer E move ⟨some bo, 0⟩ ⟨some bo, 0 + q'.length⟩
        (dest + q.length)).Returns u _ :=
      stretch_unrolls (hu.stays.wf hw) (hsafe.imp_left hu.calm) hdest
        (fun k hk => by rw [hrest (0 + k) (by omega), hwrap k hk])
        (fun k hk => by
          rw [hu.stays.inBounds, Ptr.add_add]
          exact hin _ (by omega)) hraw'
    refine hsecond.mono ?_
    rintro _ v ⟨rfl, hv, -⟩
    exact ⟨Ptr.add_add _ _ _, hu.trans hdest hv⟩

lemma fillUninitializedFromRing_self (E : Element α) (dest : Ptr) (move : Bool)
    (t : State α RingBuffer) :
    fillUninitializedFromRing E dest move t = fillUninitializedFrom E t.self dest move t := rfl

/-- With elements that do not throw, the elements of any buffer that has some are constructed in
order from `dest` on, one in each of the next `size()` slots and nowhere else; the slot after them
is returned. -/
theorem unrolled (h : Holds t.mem o bo fo lo qo) (hqo : qo ≠ []) (hw : t.mem.Wf)
    (hnothrow : (if move then E.nothrowMove else E.nothrowCopy) = true)
    (hdest : dest.block ≠ some bo) (hin : ∀ j, j < o.size → t.mem.inBounds (dest + j) = true)
    (hraw : ∀ j, j < o.size → t.mem.object (dest + j) = none) :
    (fillUninitializedFrom E o dest move).Returns t (fun p u => p = dest + o.size ∧
      (∀ j, j < o.size → u.mem.object (dest + j) = qo[j]?) ∧ t.Tallies (built dest o.size) u) := by
  rw [h.size] at hin hraw ⊢
  refine (fillUninitializedFrom_unrolls h (fun hz => hqo (List.length_eq_zero_iff.mp hz)) hw
    (Or.inr hnothrow) hdest.symm hin hraw).mono ?_
  rintro p u ⟨hp, hu⟩
  exact ⟨hp, hu.filled, hu.tallies⟩

/-- A full buffer whose last two elements lie at the start of its block. -/
theorem wrapped_unrolled : (fillUninitializedFrom (Element.plain 0 id) (opposed 3 2 [7, 8, 9])
    ⟨some 0, 0⟩ true).Returns (facing 4 0 [] 3 2 [7, 8, 9]) (fun p u => p = ⟨some 0, 3⟩ ∧
      (∀ j, j < 3 → u.mem.object ⟨some 0, 0 + j⟩ = [7, 8, 9][j]?) ∧
      (facing 4 0 [] 3 2 [7, 8, 9]).Tallies (built ⟨some 0, 0⟩ 3) u) := by
  have hin : ∀ j, j < 3 →
      (facing 4 0 [] 3 2 [7, 8, 9]).mem.inBounds ((⟨some 0, 0⟩ : Ptr) + j) = true :=
    fun j hj => Memory.inBounds_iff.mpr ⟨0, 4, rfl, rfl, by simpa using by omega⟩
  have hraw : ∀ j, j < 3 →
      (facing 4 0 [] 3 2 [7, 8, 9]).mem.object ((⟨some 0, 0⟩ : Ptr) + j) = none := fun j hj => by
    have hj4 : j < 4 := by omega
    simp [facing, hj4, lay]
  exact unrolled (facing_source [] (by decide : 2 < 3) (by decide)) (by decide)
    (facing_wf [] [7, 8, 9]) rfl (by decide) hin hraw

end RingBuffer

end Voxory
