import Voxory.Containers.Bounds
import Voxory.Cxx.Tally

/-!
# The events of the algorithms

An algorithm that returns has constructed or destroyed once in every slot of its range; one that
assigns leaves no event.
-/

namespace Voxory
open Cxx

section Emission

variable {α ρ : Type} {E : Element α} {s : State α ρ} {first dest src : Ptr} {n : ℕ}

lemma destroyAll_emits : (destroyAll first n : Code (State α ρ) Unit).Emits s (razed first n) := by
  have hloop := Code.Emits.loop (s := s) (fun i => Pi.single (.destroy (first + i)) 1)
    (fun k _ => destroy_emits (α := α) (first + k)) 0 n
  simp only [Nat.zero_add] at hloop
  exact hloop

lemma guarded_emits {body : ℕ → Code (State α ρ) Unit} (G : ℕ → Event → ℕ)
    (hbody : ∀ k t, (body k).Emits t (G k)) :
    (guarded dest body n).Emits s (∑ k ∈ Finset.range n, G k) := by
  have hloop : (Code.loop (fun i => (body i).onThrow (destroyAll dest i)) 0 n).Emits s _ :=
    .loop G (fun k t => (hbody k t).onThrow) 0 n
  simp only [Nat.zero_add] at hloop
  exact hloop

lemma guarded_quiet {body : ℕ → Code (State α ρ) Unit} (hbody : ∀ k t, (body k).Emits t 0) :
    (guarded dest body n).Emits s 0 := by
  have hguarded : (guarded dest body n).Emits s _ := guarded_emits (fun _ => 0) hbody
  rwa [Finset.sum_const_zero] at hguarded

/-! ### Bytes -/

lemma loadAll_emits : (loadAll src n : Code (State α ρ) (List α)).Emits s 0 := by
  induction n generalizing s src with
  | zero => exact .pure
  | succ n ih =>
    exact (read_emits src).bind_quiet (fun _ _ _ => ih.bind_quiet (fun _ _ _ => .pure))

lemma store_keeps {t : State α ρ} {v : α} (hs : store dest v s = .returned () t) (i : ℕ) :
    t.mem.object (dest + 1 + i) = s.mem.object (dest + (i + 1)) := by
  rw [store_object hs, Ptr.add_add, Nat.add_comm 1 i, Function.update_of_ne]
  intro he
  have hoff := congrArg Ptr.off he
  simp at hoff

lemma storeAll_emits_live (vs : List α) (hlive : ∀ i, i < vs.length → s.mem.object (dest + i) ≠ none) :
    (storeAll dest vs : Code (State α ρ) Unit).Emits s 0 := by
  induction vs generalizing s dest with
  | nil => exact .pure
  | cons v vs ih =>
    have hfirst : s.mem.object dest ≠ none := hlive 0 (Nat.succ_pos _)
    have hstore := store_emits (s := s) dest v
    rw [if_neg hfirst] at hstore
    refine hstore.bind_quiet (fun _ t ht => ih (fun i hi => ?_))
    rw [store_keeps ht]
    exact hlive (i + 1) (Nat.succ_lt_succ hi)

lemma storeAll_emits_raw (vs : List α) (hraw : ∀ i, i < vs.length → s.mem.object (dest + i) = none) :
    (storeAll dest vs : Code (State α ρ) Unit).Emits s (built dest vs.length) := by
  induction vs generalizing s dest with
  | nil => exact .pure
  | cons v vs ih =>
    have hfirst : s.mem.object dest = none := hraw 0 (Nat.succ_pos _)
    have hstore := store_emits (s := s) dest v
    rw [if_pos hfirst] at hstore
    have hbuilt : built dest (v :: vs).length =
        Pi.single (.construct dest) 1 + built (dest + 1) vs.length := by
      rw [built, List.length_cons, Finset.sum_range_succ', add_comm]
      simp only [built, Ptr.add_add, Nat.add_comm 1]
      rfl
    rw [hbuilt]
    refine hstore.bind (fun _ t ht => ih (fun i hi => ?_))
    rw [store_keeps ht]
    exact hraw (i + 1) (Nat.succ_lt_succ hi)

lemma memmove_emits {g : Event → ℕ}
    (hstore : ∀ vs : List α, vs.length = n → (storeAll dest vs : Code (State α ρ) Unit).Emits s g) :
    (memmove dest src n : Code (State α ρ) Unit).Emits s g := by
  refine loadAll_emits.bind_quiet (fun vs t ht => ?_)
  have hwithin : (loadAll src n).Within (fun _ => True) s (fun vs t => vs.length = n ∧ t = s)
      (fun _ => True) := loadAll_within trivial (Or.inl trivial)
  obtain ⟨hlen, rfl⟩ := hwithin.returned ht
  exact hstore vs hlen

lemma memmove_emits_live (hlive : ∀ i, i < n → s.mem.object (dest + i) ≠ none) :
    (memmove dest src n : Code (State α ρ) Unit).Emits s 0 :=
  memmove_emits (fun vs hlen => storeAll_emits_live vs (fun i hi => hlive i (hlen ▸ hi)))

lemma memmove_emits_raw (hraw : ∀ i, i < n → s.mem.object (dest + i) = none) :
    (memmove dest src n : Code (State α ρ) Unit).Emits s (built dest n) := by
  refine memmove_emits (fun vs hlen => ?_)
  rw [← hlen]
  exact storeAll_emits_raw vs (fun i hi => hraw i (hlen ▸ hi))

/-! ### The algorithms -/

lemma copyConstruct_emits :
    (copyConstruct E dest src : Code (State α ρ) Unit).Emits s (Pi.single (.construct dest) 1) :=
  (read_emits src).bind_quiet (fun v _ _ => (mayThrow_emits _).bind_quiet
    (fun _ _ _ => construct_emits dest v))

lemma moveConstruct_emits :
    (moveConstruct E dest src : Code (State α ρ) Unit).Emits s (Pi.single (.construct dest) 1) :=
  (read_emits src).bind_quiet (fun v _ _ => (mayThrow_emits _).bind_quiet
    (fun _ _ _ => (construct_emits dest v).then_quiet (fun _ _ _ => assign_emits _ _)))

lemma assignCopyOne_emits : (assignCopyOne E dest src : Code (State α ρ) Unit).Emits s 0 :=
  (read_emits src).bind_quiet (fun _ _ _ => (mayThrow_emits _).bind_quiet
    (fun _ _ _ => assign_emits _ _))

lemma assignMoveOne_emits : (assignMoveOne E dest src : Code (State α ρ) Unit).Emits s 0 :=
  (read_emits src).bind_quiet (fun _ _ _ => (mayThrow_emits _).bind_quiet
    (fun _ _ _ => (assign_emits _ _).bind_quiet (fun _ _ _ => assign_emits _ _)))

lemma bulk_emits {c byte : Bool} {x y : Code (State α ρ) Unit} {q : Ptr} {g : Event → ℕ}
    (hx : x.Emits s g) (hy : y.Emits s g) :
    (Code.noexcept c (do (if byte then x else y); pure q)).Emits s g := by
  refine Code.Emits.noexcept (Code.Emits.then_quiet ?_ (fun _ _ _ => .pure))
  split_ifs
  · exact hx
  · exact hy

lemma uninitializedCopyN_emits (hraw : ∀ i, i < n → s.mem.object (dest + i) = none) :
    (uninitializedCopyN E src n dest : Code (State α ρ) Ptr).Emits s (built dest n) :=
  bulk_emits (memmove_emits_raw hraw) (guarded_emits _ (fun _ _ => copyConstruct_emits))

lemma uninitializedMoveN_emits (hraw : ∀ i, i < n → s.mem.object (dest + i) = none) :
    (uninitializedMoveN E src n dest : Code (State α ρ) Ptr).Emits s (built dest n) :=
  bulk_emits (memmove_emits_raw hraw) (guarded_emits _ (fun _ _ => moveConstruct_emits))

lemma fallible_emits (b : Bool) (v : α) :
    (mayThrow b >>= fun _ => construct dest v : Code (State α ρ) Unit).Emits s
      (Pi.single (.construct dest) 1) :=
  (mayThrow_emits b).bind_quiet (fun _ _ _ => construct_emits dest v)

lemma memset_emits_raw (v : α) (hraw : ∀ i, i < n → s.mem.object (dest + i) = none) :
    (memset dest v n : Code (State α ρ) Unit).Emits s (built dest n) := by
  have hstore : (storeAll dest (List.replicate n v)).Emits s _ :=
    storeAll_emits_raw _ (by rwa [List.length_replicate])
  rwa [List.length_replicate] at hstore

lemma uninitializedFillN_emits (v : α) (hraw : ∀ i, i < n → s.mem.object (dest + i) = none) :
    (uninitializedFillN E dest n v : Code (State α ρ) Ptr).Emits s (built dest n) :=
  bulk_emits (memset_emits_raw v hraw) (guarded_emits _ (fun _ _ => fallible_emits _ v))

lemma uninitializedDefaultConstructN_emits (hraw : ∀ i, i < n → s.mem.object (dest + i) = none) :
    (uninitializedDefaultConstructN E dest n : Code (State α ρ) Ptr).Emits s (built dest n) :=
  bulk_emits (memset_emits_raw _ hraw) (guarded_emits _ (fun _ _ => fallible_emits _ _))

lemma copyAssignN_emits (hlive : ∀ i, i < n → s.mem.object (dest + i) ≠ none) :
    (copyAssignN E src n dest : Code (State α ρ) Ptr).Emits s 0 :=
  bulk_emits (memmove_emits_live hlive) (guarded_quiet (fun _ _ => assignCopyOne_emits))

lemma moveAssignN_emits (hlive : ∀ i, i < n → s.mem.object (dest + i) ≠ none) :
    (moveAssignN E src n dest : Code (State α ρ) Ptr).Emits s 0 :=
  bulk_emits (memmove_emits_live hlive) (guarded_quiet (fun _ _ => assignMoveOne_emits))

/-! ### Up to an exception -/

/-- When a constructor throws, its guard destroys once what was constructed once. -/
lemma guarded_tallies {body : ℕ → Code (State α ρ) Unit} {b : Bool}
    (hbody : ∀ k t, (body k).Within (fun _ => True) t
      (fun _ t' => t.Tallies (Pi.single (.construct (dest + k)) 1) t' ∧
        Spent b.toNat t.mem.fuse t'.mem.fuse)
      (fun t' => b = true ∧ t.Tallies 0 t' ∧ t.mem.fuse = some 0)) :
    (guarded dest body n).Within (fun _ => True) s
      (fun _ s' => s.Tallies (built dest n) s' ∧ Spent (n * b.toNat) s.mem.fuse s'.mem.fuse)
      (fun s' => b = true ∧ ∃ k, k < n ∧ s.mem.fuse = some k ∧
        s.Tallies (built dest k + razed dest k) s') := by
  have hloop : Code.Within (fun _ => True) _ s _ (fun s' => b = true ∧ ∃ k, k < n ∧
      s.mem.fuse = some k ∧ s.Tallies (built dest k + razed dest k) s') := Code.Within.loop (s := s)
    (fun i => (body i).onThrow (destroyAll dest i)) 0 n
    (fun k t => s.Tallies (built dest k) t ∧ Spent (k * b.toNat) s.mem.fuse t.mem.fuse) ?_ ?_
  · rwa [Nat.zero_add] at hloop
  · rw [Nat.zero_mul]
    exact ⟨.refl s, .refl _⟩
  · rintro k t - hk ⟨ht, hspent⟩
    refine (Code.Within.onThrow (hbody k t) (T := fun s' => b = true ∧ ∃ k, k < n ∧
      s.mem.fuse = some k ∧ s.Tallies (built dest k + razed dest k) s') ?_).mono ?_ (fun _ hs' => hs')
    · rintro u ⟨hb, hu, hzero⟩
      refine Code.Within.of_returned (fun _ u' hrun => ⟨hb, k, by omega, ?_, ?_⟩)
      · have hblown := hspent.blown hzero
        rwa [hb, Bool.toNat_true, Nat.mul_one, Nat.add_zero] at hblown
      · have hsum := (ht.trans hu).trans (destroyAll_emits _ _ hrun)
        rwa [add_zero] at hsum
    · rintro _ u ⟨hu, hspent'⟩
      refine ⟨?_, ?_⟩
      · have hsum := ht.trans hu
        rwa [built, ← Finset.sum_range_succ] at hsum
      · rw [Nat.succ_mul]
        exact hspent.trans hspent'

lemma fallible_tallies (b : Bool) (v : α) :
    (mayThrow b >>= fun _ => construct dest v : Code (State α ρ) Unit).Within (fun _ => True) s
      (fun _ s' => s.Tallies (Pi.single (.construct dest) 1) s' ∧
        Spent b.toNat s.mem.fuse s'.mem.fuse)
      (fun s' => b = true ∧ s.Tallies 0 s' ∧ s.mem.fuse = some 0) := by
  refine (mayThrow_tallies b s).bind ?_
  rintro _ t ⟨ht, hspent⟩
  rw [Code.Within, construct]
  split_ifs
  · refine ⟨?_, hspent⟩
    rw [← zero_add (Pi.single _ 1)]
    exact ht.trans (.of_event rfl)
  · trivial

lemma copyConstruct_tallies : (copyConstruct E dest src : Code (State α ρ) Unit).Within
    (fun _ => True) s
    (fun _ s' => s.Tallies (Pi.single (.construct dest) 1) s' ∧
      Spent E.copyThrows.toNat s.mem.fuse s'.mem.fuse)
    (fun s' => E.copyThrows = true ∧ s.Tallies 0 s' ∧ s.mem.fuse = some 0) := by
  refine (read_within trivial (Or.inl trivial)).bind ?_
  rintro v _ rfl
  exact fallible_tallies E.copyThrows v

/-- The shape the algorithms share: only the loop over the elements can throw. -/
lemma bulk_tallies {noexc byte b : Bool} {x : Code (State α ρ) Unit} {q : Ptr}
    {body : ℕ → Code (State α ρ) Unit}
    (hx : x.Within (fun _ => True) s (fun _ _ => True) (fun _ => False))
    (hbody : ∀ k t, (body k).Within (fun _ => True) t
      (fun _ t' => t.Tallies (Pi.single (.construct (dest + k)) 1) t' ∧
        Spent b.toNat t.mem.fuse t'.mem.fuse)
      (fun t' => b = true ∧ t.Tallies 0 t' ∧ t.mem.fuse = some 0)) :
    (Code.noexcept noexc (do (if byte then x else guarded dest body n); pure q)).Within
      (fun _ => True) s (fun _ _ => True) (fun s' => ∃ k, k < n ∧ s.mem.fuse = some k ∧
        s.Tallies (built dest k + razed dest k) s') := by
  refine Code.Within.noexcept (Code.Within.bind (Q := fun _ _ => True) ?_
    (fun _ _ _ => Code.Within.pure trivial))
  split_ifs
  · exact hx.mono (fun _ _ _ => trivial) (fun _ hf => hf.elim)
  · have hguarded : (guarded dest body n).Within (fun _ => True) s _ _ := guarded_tallies hbody
    exact hguarded.mono (fun _ _ _ => trivial) (fun _ hs' => hs'.2)

lemma memmove_unthrown : (memmove dest src n : Code (State α ρ) Unit).Within (fun _ => True) s
    (fun _ _ => True) (fun _ => False) :=
  (memmove_within trivial (Or.inl trivial) (Or.inl trivial)).mono (fun _ _ _ => trivial)
    (fun _ hf => hf)

lemma memset_unthrown (v : α) : (memset dest v n : Code (State α ρ) Unit).Within (fun _ => True) s
    (fun _ _ => True) (fun _ => False) :=
  (storeAll_within _ (Or.inl trivial)).mono (fun _ _ _ => trivial) (fun _ hf => hf)

lemma uninitializedCopyN_tallies : (uninitializedCopyN E src n dest).Within (fun _ => True) s
    (fun _ _ => True) (fun s' => ∃ k, k < n ∧ s.mem.fuse = some k ∧
      s.Tallies (built dest k + razed dest k) s') :=
  bulk_tallies memmove_unthrown (fun _ _ => copyConstruct_tallies)

lemma moveConstruct_tallies : (moveConstruct E dest src : Code (State α ρ) Unit).Within
    (fun _ => True) s
    (fun _ s' => s.Tallies (Pi.single (.construct dest) 1) s' ∧
      Spent E.moveThrows.toNat s.mem.fuse s'.mem.fuse)
    (fun s' => E.moveThrows = true ∧ s.Tallies 0 s' ∧ s.mem.fuse = some 0) := by
  refine (read_within trivial (Or.inl trivial)).bind ?_
  rintro v _ rfl
  rw [← Code.bind_assoc]
  refine (fallible_tallies E.moveThrows v).bind ?_
  rintro _ t ⟨ht, hspent⟩
  have hassign : (assign src (E.movedFrom v) : Code (State α ρ) Unit).Within (fun _ => True) t
      (fun _ t' => t.Tallies 0 t' ∧ t'.mem.fuse = t.mem.fuse) (fun _ => False) := by
    rw [Code.Within, assign]
    split_ifs
    · cases t.mem.object src with
      | none => trivial
      | some w => exact ⟨.of_trace rfl, rfl⟩
    · trivial
  refine hassign.mono ?_ (fun _ hf => hf.elim)
  rintro _ t' ⟨ht', hfuse⟩
  have hsum := ht.trans ht'
  rw [add_zero] at hsum
  rw [hfuse]
  exact ⟨hsum, hspent⟩

lemma uninitializedMoveN_tallies : (uninitializedMoveN E src n dest).Within (fun _ => True) s
    (fun _ _ => True) (fun s' => ∃ k, k < n ∧ s.mem.fuse = some k ∧
      s.Tallies (built dest k + razed dest k) s') :=
  bulk_tallies memmove_unthrown (fun _ _ => moveConstruct_tallies)

lemma uninitializedFillN_tallies (v : α) : (uninitializedFillN E dest n v).Within (fun _ => True) s
    (fun _ _ => True) (fun s' => ∃ k, k < n ∧ s.mem.fuse = some k ∧
      s.Tallies (built dest k + razed dest k) s') :=
  bulk_tallies (memset_unthrown v) (fun _ _ => fallible_tallies E.copyThrows v)

lemma uninitializedDefaultConstructN_tallies : (uninitializedDefaultConstructN E dest n).Within
    (fun _ => True) s (fun _ _ => True) (fun s' => ∃ k, k < n ∧ s.mem.fuse = some k ∧
      s.Tallies (built dest k + razed dest k) s') :=
  bulk_tallies (memset_unthrown E.init) (fun _ _ => fallible_tallies E.defaultThrows E.init)

/-! ### What cannot end the program -/

lemma destroyAll_quiet (p : Ptr) (n : ℕ) : (destroyAll p n : Code (State α ρ) Unit).Quiet := by
  refine Code.Quiet.loop (fun i s => ?_) 0 n
  rw [Cxx.destroy]
  split_ifs
  · cases s.mem.object (p + i) <;> exact id
  · exact id

lemma guarded_mild {body : ℕ → Code (State α ρ) Unit} (hbody : ∀ i, (body i).Mild) (p : Ptr)
    (n : ℕ) : (guarded p body n).Mild :=
  Code.Mild.loop (fun i => (hbody i).onThrow (destroyAll_quiet p i)) 0 n

lemma fallible_mild (b : Bool) (p : Ptr) (v : α) :
    (mayThrow b >>= fun _ => construct p v : Code (State α ρ) Unit).Mild :=
  (mayThrow_mild b).bind (fun _ => construct_mild p v)

lemma bulk_mild {byte throws : Bool} {x : Code (State α ρ) Unit} {body : ℕ → Code (State α ρ) Unit}
    {p q : Ptr} (h : (byte || !throws) = false) (hbody : ∀ i, (body i).Mild) :
    (Code.noexcept (byte || !throws) (do (if byte then x else guarded p body n); pure q)).Mild := by
  rw [h, (Bool.or_eq_false_iff.mp h).1]
  exact Code.Mild.noexcept ((guarded_mild hbody p n).bind (fun _ => Code.Mild.pure q))

lemma uninitializedCopyN_mild (h : E.nothrowCopy = false) :
    (uninitializedCopyN E src n dest : Code (State α ρ) Ptr).Mild :=
  bulk_mild h (fun _ => (read_mild _).bind (fun _ => fallible_mild _ _ _))

lemma uninitializedMoveN_mild (h : E.nothrowMove = false) :
    (uninitializedMoveN E src n dest : Code (State α ρ) Ptr).Mild :=
  bulk_mild h (fun _ => (read_mild _).bind (fun _ => (mayThrow_mild _).bind (fun _ =>
    (construct_mild _ _).bind (fun _ => assign_mild _ _))))

lemma uninitializedFillN_mild (v : α) (h : E.nothrowFill = false) :
    (uninitializedFillN E dest n v : Code (State α ρ) Ptr).Mild :=
  bulk_mild h (fun _ => fallible_mild _ _ v)

lemma uninitializedDefaultConstructN_mild (h : E.nothrowDefault = false) :
    (uninitializedDefaultConstructN E dest n : Code (State α ρ) Ptr).Mild :=
  bulk_mild h (fun _ => fallible_mild _ _ _)

end Emission

end Voxory
