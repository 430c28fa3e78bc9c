import Voxory.RingBuffer.Pool
import Voxory.Containers.Filling

/-!
# Exceptions while elements are relocated

Elements that cannot be moved without throwing are copied to the new block, those of a buffer
that has wrapped around in two goes. Each go destroys its own copies when it throws; the block is
given back in any case. So the copies of the first go are lost when the second one throws.
-/

namespace Voxory
open Cxx

namespace RingBuffer

variable {α : Type}

/-- The calls that relocate the elements. -/
inductive Relocation (α : Type) where
  | reserve (newCapacity : ℕ)
  | shrinkToFit
  | pushBack (val : Arg α)

namespace Relocation

def code (E : Element α) : Relocation α → Method α Unit
  | .reserve newCapacity => RingBuffer.reserve E newCapacity
  | .shrinkToFit => RingBuffer.shrinkToFit E
  | .pushBack val => RingBuffer.pushBack E val

/-- The call needs a new block. -/
def Applies (r : RingBuffer) : Relocation α → Prop
  | .reserve newCapacity => newCapacity > r.capacity
  | .shrinkToFit => r.size < r.capacity
  | .pushBack _ => r.size = r.capacity ∧ r.allowOverwrite = false

instance (r : RingBuffer) (call : Relocation α) : Decidable (call.Applies r) := by
  cases call <;> unfold Applies <;> infer_instance

end Relocation

/-- How many elements the relocation copies. -/
def relocated (r : RingBuffer) : ℕ :=
  if r.size = 0 then 0
  else if r.first < r.last then r.last - r.first
  else (r.data + r.capacity - r.first) + (r.last - r.data)

/-- The copy at position `k` is one of the first go. -/
def InFirstGo (r : RingBuffer) (k : ℕ) : Prop :=
  r.first < r.last ∨ k < r.data + r.capacity - r.first

instance (r : RingBuffer) (k : ℕ) : Decidable (InFirstGo r k) := by
  unfold InFirstGo
  infer_instance

variable {E : Element α} {s t : State α RingBuffer} {c k n : ℕ}

/-- A copy throws in the middle: the copies of earlier goes stay. -/
lemma fillUninitializedFromRing_spills (hcopy : E.nothrowCopy = false)
    (h : s.Builds True c n t) (hd : t.FilledTo c 0) (hr : Shape s.mem s.self)
    (hf : t.mem.fuse = some k) (hk : k < relocated s.self) :
    (fillUninitializedFromRing E ⟨some c, 0⟩ false).Within (fun _ => True) t (fun _ _ => False)
      (fun t' => ∃ e, s.Builds True c n t' ∧ t'.FilledTo c e ∧ (e = 0 ↔ InFirstGo s.self k)) := by
  refine Code.Within.noexcept (Code.Within.step rfl ?_)
  rw [h.self]
  have hz : s.self.size ≠ 0 := fun hz => by
    rw [relocated, if_pos hz] at hk
    omega
  rw [relocated, if_neg hz] at hk
  have htransfer : ∀ {u : State α RingBuffer} {b i j d}, s.Builds True c n u → u.FilledTo c d →
      i ≤ j → (transfer E false ⟨some b, i⟩ ⟨some b, j⟩ ⟨some c, d⟩).Within (fun _ => True) u
        (fun q u' => q = ⟨some c, d + (j - i)⟩ ∧ Fills s True c n (d + (j - i)) (j - i) u u')
        (fun u' => ∃ k, k < j - i ∧ Spills s True c n d k u u') := by
    intro u b i j d hu hfill hij
    rw [transfer, if_neg (by simp), uninitializedCopy, if_pos ((Ptr.le_iff _ _).mpr hij)]
    refine (uninitializedCopyN_builds hu hfill).mono ?_ (fun _ hu' => hu'.2)
    rintro q u' ⟨rfl, hu'⟩
    rw [hcopy, Bool.not_false, Bool.toNat_true, Nat.mul_one] at hu'
    exact ⟨rfl, hu'⟩
  have hfuse : ∀ {u : State α RingBuffer} {w : ℕ}, Spent w t.mem.fuse u.mem.fuse → w ≤ k :=
    fun hspent => hspent.1 k hf
  generalize s.self = r at hr hz hk ⊢
  cases hr with
  | nil allow => exact absurd rfl hz
  | block b f l size capacity allow hext hfc hl hsize =>
    have hposition : InFirstGo ⟨⟨some b, 0⟩, ⟨some b, f⟩, ⟨some b, l⟩, size, capacity, allow⟩ k ↔
        f < l ∨ k < capacity - f := by
      rw [InFirstGo, Ptr.mk_add, Nat.zero_add]
      rfl
    rw [hposition]
    simp only [Ptr.mk_add, Nat.zero_add, Ptr.sub_eq, Ptr.lt_iff, Nat.sub_zero] at hk ⊢
    change size ≠ 0 at hz
    by_cases hfl : f < l
    · rw [if_pos hfl] at hk ⊢
      refine (htransfer h hd hfl.le).mono ?_ ?_
      · rintro _ u ⟨-, hu⟩
        have := hfuse hu.spent
        omega
      · rintro u ⟨j, -, hu⟩
        exact ⟨0, hu.builds, hu.filled, iff_of_true rfl (Or.inl hfl)⟩
    · rw [if_neg hfl] at hk ⊢
      refine ((htransfer h hd (by omega)).mono (fun _ _ hu => hu) ?_).bind ?_
      · rintro u ⟨j, hj, hu⟩
        have hkj : k = j := Option.some.inj (hf.symm.trans hu.blown)
        exact ⟨0, hu.builds, hu.filled, iff_of_true rfl (Or.inr (by omega))⟩
      · rintro _ u ⟨rfl, hu⟩
        refine (htransfer hu.builds hu.filled (Nat.zero_le l)).mono ?_ ?_
        · rintro _ u' ⟨-, hu'⟩
          have := hfuse (hu.trans hu').spent
          omega
        · rintro u' ⟨j, -, hu'⟩
          have hkj : k = capacity - f + j :=
            Option.some.inj (hf.symm.trans (hu.spills hu').blown)
          exact ⟨_, hu'.builds, hu'.filled, iff_of_false (by omega) (by omega)⟩

/-- An exception in the middle of a relocation undoes the call, unless it comes in the second go. -/
lemma reallocate_spills (hmove : E.nothrowMove = false) (hcopy : E.nothrowCopy = false)
    (hr : Shape s.mem s.self) (hw : s.mem.Wf) (hf : s.mem.fuse = some (k + 1))
    (hk : k < relocated s.self) (hn : n ≠ 0) : (reallocate E n).Within (fun _ => True) s
      (fun _ _ => False) (fun s' => s.Undone s' ↔ InFirstGo s.self k) := by
  refine ((Code.Within.of_ends (allocate_builds hw hn)).mono (fun _ _ ht => ht) ?_).bind ?_
  · rintro t ⟨-, hzero⟩
    rw [hf] at hzero
    cases hzero
  rintro _ t ⟨c, rfl, ht, hfill, hspent⟩
  have htf : t.mem.fuse = some k := by
    rw [hspent.2, hf]
    rfl
  refine Code.Within.bind (Q := fun _ _ => False) ?_ (fun _ _ hfalse => hfalse.elim)
  refine Code.Within.step rfl ?_
  rw [ht.self, if_neg (fun hz => by rw [relocated, if_pos hz] at hk; omega), if_neg (by simp [hmove]),
    if_neg (by simp [hcopy])]
  refine Code.Within.onThrow (fillUninitializedFromRing_spills hcopy ht hfill hr htf hk) ?_
  rintro t' ⟨e, ht', hfill', hiff⟩
  refine Code.Within.of_ends (.of_returns ⟨(), _, rfl, ?_⟩)
  rw [← hiff]
  constructor
  · intro hundone
    by_contra he
    exact ht'.not_undone hfill' (Nat.pos_of_ne_zero he) hundone
  · rintro rfl
    exact ht'.undone hw hfill'

lemma relocation_spills (hmove : E.nothrowMove = false) (hcopy : E.nothrowCopy = false)
    (hr : Shape s.mem s.self) (hw : s.mem.Wf) (hf : s.mem.fuse = some (k + 1))
    (hk : k < relocated s.self) (call : Relocation α) (hcall : call.Applies s.self) :
    (call.code E).Within (fun _ => True) s (fun _ _ => False)
      (fun s' => s.Undone s' ↔ InFirstGo s.self k) := by
  have hz : s.self.size ≠ 0 := fun hz => by
    rw [relocated, if_pos hz] at hk
    omega
  cases call with
  | reserve newCapacity =>
    have hlt : newCapacity > s.self.capacity := hcall
    refine Code.Within.step rfl ?_
    rw [if_pos hlt]
    exact reallocate_spills hmove hcopy hr hw hf hk (by omega)
  | shrinkToFit =>
    have hlt : s.self.size < s.self.capacity := hcall
    refine Code.Within.step rfl ?_
    rw [if_pos hlt]
    exact reallocate_spills hmove hcopy hr hw hf hk hz
  | pushBack val =>
    obtain ⟨hfull, hallow⟩ := hcall
    refine Code.Within.step rfl ?_
    rw [if_neg (by omega), hallow, if_neg (by simp)]
    have hgrow : calculateGrow s.self.capacity ≠ 0 := by
      unfold calculateGrow
      split_ifs <;> omega
    exact (reallocate_spills hmove hcopy hr hw hf hk hgrow).bind (fun _ _ hfalse => hfalse.elim)

end RingBuffer

namespace RingPool

variable {α : Type} {E : Element α} {p : RingPool α} {x k : ℕ} {r : RingBuffer}

open Objects RingBuffer

/-- Elements that are copied and moved with operations that may throw. -/
def risky : Element ℕ := { Element.plain 0 id with copyThrows := true, moveThrows := true }

/-- A buffer of capacity 2 in its first block, with its oldest element in slot `f`. -/
def pairRing (f l : ℕ) : RingBuffer := ⟨⟨some 0, 0⟩, ⟨some 0, f⟩, ⟨some 0, l⟩, 2, 2, true⟩

/-- A full buffer of capacity 2. -/
def fullRun : List (Option ℕ × RingAction ℕ) :=
  [(none, .sized 0 2), (none, .pushBack 0 ⟨7, false⟩), (none, .pushBack 0 ⟨8, false⟩)]

end RingPool

end Voxory
