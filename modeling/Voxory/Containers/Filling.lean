import Voxory.Cxx.Undo
import Voxory.Containers.Bounds

/-!
# Filling a new block

The algorithms that construct elements in a new block fill one slot after the other. Whatever
their source looks like, an exception finds the slots alive that were alive before the algorithm,
since its guard destroys the others.
-/

namespace Voxory
open Cxx

section Filling

variable {α ρ : Type} {E : Element α} {s t : State α ρ} {keep : Prop} {c n d m : ℕ} {src : Ptr}

/-- Slots of the new block `c` are filled from `d` to `e` in the state `t'` after `t`, after `w`
fallible operations. -/
structure Fills (s : State α ρ) (keep : Prop) (c n e w : ℕ) (t t' : State α ρ) : Prop where
  builds : s.Builds keep c n t'
  filled : t'.FilledTo c e
  spent : Spent w t.mem.fuse t'.mem.fuse

/-- After the `k`-th fallible operation from `t` on threw, the slots of the new block `c` up to `d`
are filled in `t'`. -/
structure Spills (s : State α ρ) (keep : Prop) (c n d k : ℕ) (t t' : State α ρ) : Prop where
  builds : s.Builds keep c n t'
  filled : t'.FilledTo c d
  blown : t.mem.fuse = some k

lemma Fills.refl (h : s.Builds keep c n t) (hd : t.FilledTo c d) : Fills s keep c n d 0 t t :=
  ⟨h, hd, .refl _⟩

lemma Fills.imp {keep' : Prop} {w : ℕ} {t' : State α ρ} (h : Fills s keep c n d w t t')
    (himp : keep' → keep) : Fills s keep' c n d w t t' :=
  ⟨h.builds.imp himp, h.filled, h.spent⟩

lemma Fills.trans {e w v : ℕ} {t' u : State α ρ} (h : Fills s keep c n d w t t')
    (h' : Fills s keep c n e v t' u) : Fills s keep c n e (w + v) t u :=
  ⟨h'.builds, h'.filled, h.spent.trans h'.spent⟩

lemma Fills.spills {e w k : ℕ} {t' u : State α ρ} (h : Fills s keep c n d w t t')
    (h' : Spills s keep c n e k t' u) : Spills s keep c n e (w + k) t u :=
  ⟨h'.builds, h'.filled, h.spent.blown h'.blown⟩

lemma destroyAll_builds (h : s.Builds keep c n t) (hd : t.FilledTo c (d + m)) :
    (destroyAll ⟨some c, d⟩ m).Returns t (fun _ t' => s.Builds keep c n t' ∧ t'.FilledTo c d) := by
  have hbuilds : (destroyAll ⟨some c, d⟩ m).Within (fun _ => True) t
      (fun _ t' => s.Builds keep c n t') (fun _ => False) :=
    Code.Within.loop _ 0 m (fun _ t' => s.Builds keep c n t') h (fun k t' _ _ ht' => by
      rw [Ptr.mk_add]
      exact ht'.destroy (d + k))
  have hreturns : (destroyAll ⟨some c, d⟩ m).Returns t _ :=
    destroyAll_returns h.wf (fun i hi => (hd (d + i)).mpr (by omega))
  obtain ⟨_, t', hrun, ht'⟩ := hreturns
  exact ⟨(), t', hrun, hbuilds.returned hrun, hd.cut ht'.object⟩

/-- A guarded loop that constructs in one slot after the other. -/
lemma guarded_builds {body : ℕ → Code (State α ρ) Unit} {b : Bool}
    (hbody : ∀ k t', k < m → s.Builds keep c n t' → t'.FilledTo c (d + k) →
      (body k).Within (fun _ => True) t' (fun _ u => Fills s keep c n (d + k + 1) b.toNat t' u)
        (fun u => b = true ∧ Spills s keep c n (d + k) 0 t' u))
    (h : s.Builds keep c n t) (hd : t.FilledTo c d) :
    (guarded ⟨some c, d⟩ body m).Within (fun _ => True) t
      (fun _ t' => Fills s keep c n (d + m) (m * b.toNat) t t')
      (fun t' => b = true ∧ ∃ k, k < m ∧ Spills s keep c n d k t t') := by
  have hloop : Code.Within (fun _ => True) _ t _ (fun t' => b = true ∧ ∃ k, k < m ∧
      Spills s keep c n d k t t') := Code.Within.loop (s := t)
    (fun i => (body i).onThrow (destroyAll ⟨some c, d⟩ i)) 0 m
    (fun k t' => Fills s keep c n (d + k) (k * b.toNat) t t') ?_ ?_
  · rwa [Nat.zero_add] at hloop
  · rw [Nat.zero_mul]
    exact .refl h hd
  · intro k t' _ hk ht'
    have hkm : k < m := by omega
    refine (Code.Within.onThrow (hbody k t' hkm ht'.builds ht'.filled)
      (T := fun u => b = true ∧ ∃ k, k < m ∧ Spills s keep c n d k t u) ?_).mono ?_ (fun _ hu => hu)
    · rintro u ⟨hb, hu⟩
      refine Code.Within.of_ends (.of_returns ((destroyAll_builds hu.builds hu.filled).mono ?_))
      rintro _ u' ⟨hu', hfill⟩
      have hblown := ht'.spent.blown hu.blown
      rw [hb, Bool.toNat_true, Nat.mul_one, Nat.add_zero] at hblown
      exact ⟨hb, k, hkm, hu', hfill, hblown⟩
    · intro _ u hu
      have htrans := ht'.trans hu
      rwa [← Nat.succ_mul] at htrans

lemma fallible_builds (b : Bool) (v : α) (h : s.Builds keep c n t) (hd : t.FilledTo c d) :
    (mayThrow b >>= fun _ => Cxx.construct ⟨some c, d⟩ v).Within (fun _ => True) t
      (fun _ t' => Fills s keep c n (d + 1) b.toNat t t')
      (fun t' => b = true ∧ Spills s keep c n d 0 t t') := by
  refine ((h.mayThrow b).mono (fun _ _ ht' => ht') ?_).bind ?_
  · rintro t' ⟨hb, ht', hobj, hf⟩
    exact ⟨hb, ht', hd.congr (fun j => by rw [hobj]), hf⟩
  · rintro _ t' ⟨ht', hobj, hspent⟩
    refine (ht'.construct (hd.congr (fun j => by rw [hobj])) v).mono ?_ (fun _ hf => hf.elim)
    rintro _ u ⟨hu, hfill, hfuse⟩
    exact ⟨hu, hfill, by rwa [hfuse]⟩

lemma copyConstruct_builds (h : s.Builds keep c n t) (hd : t.FilledTo c d) :
    (copyConstruct E ⟨some c, d⟩ src).Within (fun _ => True) t
      (fun _ t' => Fills s keep c n (d + 1) E.copyThrows.toNat t t')
      (fun t' => E.copyThrows = true ∧ Spills s keep c n d 0 t t') := by
  refine (read_within trivial (Or.inl trivial)).bind ?_
  rintro v _ rfl
  exact fallible_builds E.copyThrows v h hd

/-- What is left in the source need not be its old value. -/
lemma moveConstruct_builds (h : s.Builds False c n t) (hd : t.FilledTo c d) :
    (moveConstruct E ⟨some c, d⟩ src).Within (fun _ => True) t
      (fun _ t' => Fills s False c n (d + 1) E.moveThrows.toNat t t')
      (fun t' => E.moveThrows = true ∧ Spills s False c n d 0 t t') := by
  refine (read_within trivial (Or.inl trivial)).bind ?_
  rintro v _ rfl
  refine ((h.mayThrow E.moveThrows).mono (fun _ _ ht' => ht') ?_).bind ?_
  · rintro t' ⟨hb, ht', hobj, hf⟩
    exact ⟨hb, ht', hd.congr (fun j => by rw [hobj]), hf⟩
  · rintro _ t' ⟨ht', hobj, hspent⟩
    refine ((ht'.construct (hd.congr (fun j => by rw [hobj])) v).mono (fun _ _ hu => hu)
      (fun _ hf => hf.elim)).bind ?_
    rintro _ u ⟨hu, hfill, hfuse⟩
    rw [Code.Within, assign]
    by_cases hin : u.mem.inBounds src = true
    · rw [if_pos hin]
      cases hw : u.mem.object src with
      | none => trivial
      | some w =>
        have hsome : ∀ p, (Function.update u.mem.object src (some (E.movedFrom v)) p).isSome =
            (u.mem.object p).isSome := by
          intro p
          by_cases hp : p = src
          · subst hp
            rw [Function.update_self, hw]
            rfl
          · rw [Function.update_of_ne hp]
        refine ⟨hu.frame ((put_alters _ u.mem.trace hin).wf hu.wf) rfl (fun hf => hf.elim)
          (fun p _ => hsome p) rfl, fun j => ?_, ?_⟩
        · exact (iff_of_eq (congrArg (· = true) (hsome ⟨some c, j⟩))).trans (hfill j)
        · change Spent E.moveThrows.toNat _ u.mem.fuse
          rwa [hfuse]
    · rw [if_neg hin]
      trivial

lemma storeAll_builds (vs : List α) (h : s.Builds keep c n t) (hd : t.FilledTo c d) :
    (storeAll ⟨some c, d⟩ vs).Within (fun _ => True) t
      (fun _ t' => Fills s keep c n (d + vs.length) 0 t t') (fun _ => False) := by
  induction vs generalizing t d with
  | nil => exact Code.Within.pure (.refl h hd)
  | cons v vs ih =>
    have hstore : store ⟨some c, d⟩ v t = Cxx.construct ⟨some c, d⟩ v t := by
      rw [store, Cxx.construct, hd.object_none le_rfl]
    refine Code.Within.bind (Q := fun _ t' => Fills s keep c n (d + 1) 0 t t') ?_ ?_
    · rw [Code.Within, hstore]
      refine (h.construct hd v).mono ?_ (fun _ hf => hf)
      rintro _ t' ⟨ht', hfill, hfuse⟩
      exact ⟨ht', hfill, hfuse ▸ .refl _⟩
    · intro _ t' ht'
      refine (ih ht'.builds ht'.filled).mono (fun _ u hu => ?_) (fun _ hf => hf)
      rw [List.length_cons, Nat.add_comm vs.length 1, ← Nat.add_assoc]
      exact ht'.trans hu

lemma bulk_builds {noexc byte b : Bool} {x y : Code (State α ρ) Unit}
    (hx : byte = true → x.Within (fun _ => True) t (fun _ t' => Fills s keep c n (d + m) 0 t t')
      (fun _ => False))
    (hy : byte = false → y.Within (fun _ => True) t
      (fun _ t' => Fills s keep c n (d + m) (m * b.toNat) t t')
      (fun t' => b = true ∧ ∃ k, k < m ∧ Spills s keep c n d k t t')) :
    (Code.noexcept noexc (do (if byte then x else y); pure ((⟨some c, d⟩ : Ptr) + m))).Within
      (fun _ => True) t
      (fun q t' => q = ⟨some c, d + m⟩ ∧ Fills s keep c n (d + m) (m * (!(byte || !b)).toNat) t t')
      (fun t' => (byte || !b) = false ∧ ∃ k, k < m ∧ Spills s keep c n d k t t') := by
  refine Code.Within.noexcept (Code.Within.bind
    (Q := fun _ t' => Fills s keep c n (d + m) (m * (!(byte || !b)).toNat) t t') ?_
    (fun _ t' ht' => Code.Within.pure ⟨rfl, ht'⟩))
  cases byte with
  | true => simpa using (hx rfl).mono (fun _ _ ht' => ht') (fun _ hf => hf.elim)
  | false => simpa using hy rfl

lemma memmove_builds (h : s.Builds keep c n t) (hd : t.FilledTo c d) :
    (memmove ⟨some c, d⟩ src m).Within (fun _ => True) t
      (fun _ t' => Fills s keep c n (d + m) 0 t t') (fun _ => False) := by
  refine (loadAll_within trivial (Or.inl trivial)).bind ?_
  rintro vs _ ⟨rfl, rfl⟩
  exact storeAll_builds vs h hd

lemma defaultConstruct_builds (h : s.Builds keep c n t) (hd : t.FilledTo c d) :
    (defaultConstruct E ⟨some c, d⟩).Within (fun _ => True) t
      (fun _ t' => Fills s keep c n (d + 1) E.defaultThrows.toNat t t')
      (fun t' => E.defaultThrows = true ∧ Spills s keep c n d 0 t t') :=
  fallible_builds E.defaultThrows E.init h hd

lemma uninitializedCopyN_builds (h : s.Builds keep c n t) (hd : t.FilledTo c d) :
    (uninitializedCopyN E src m ⟨some c, d⟩).Within (fun _ => True) t
      (fun q t' => q = ⟨some c, d + m⟩ ∧
        Fills s keep c n (d + m) (m * (!E.nothrowCopy).toNat) t t')
      (fun t' => E.nothrowCopy = false ∧ ∃ k, k < m ∧ Spills s keep c n d k t t') :=
  bulk_builds (fun _ => memmove_builds h hd)
    (fun _ => guarded_builds (fun _ _ _ ht' hfill => copyConstruct_builds ht' hfill) h hd)

lemma uninitializedMoveN_builds (h : s.Builds False c n t) (hd : t.FilledTo c d) :
    (uninitializedMoveN E src m ⟨some c, d⟩).Within (fun _ => True) t
      (fun q t' => q = ⟨some c, d + m⟩ ∧
        Fills s False c n (d + m) (m * (!E.nothrowMove).toNat) t t')
      (fun t' => E.nothrowMove = false ∧ ∃ k, k < m ∧ Spills s False c n d k t t') :=
  bulk_builds (fun _ => memmove_builds h hd)
    (fun _ => guarded_builds (fun _ _ _ ht' hfill => moveConstruct_builds ht' hfill) h hd)

lemma uninitializedDefaultConstructN_builds (h : s.Builds keep c n t) (hd : t.FilledTo c d) :
    (uninitializedDefaultConstructN E ⟨some c, d⟩ m).Within (fun _ => True) t
      (fun q t' => q = ⟨some c, d + m⟩ ∧
        Fills s keep c n (d + m) (m * (!E.nothrowDefault).toNat) t t')
      (fun t' => E.nothrowDefault = false ∧ ∃ k, k < m ∧ Spills s keep c n d k t t') := by
  refine bulk_builds (fun _ => ?_)
    (fun _ => guarded_builds (fun _ _ _ ht' hfill => defaultConstruct_builds ht' hfill) h hd)
  have hset := storeAll_builds (List.replicate m E.init) h hd
  rwa [List.length_replicate] at hset

lemma uninitializedFillN_builds (v : α) (h : s.Builds keep c n t) (hd : t.FilledTo c d) :
    (uninitializedFillN E ⟨some c, d⟩ m v).Within (fun _ => True) t
      (fun q t' => q = ⟨some c, d + m⟩ ∧
        Fills s keep c n (d + m) (m * (!E.nothrowFill).toNat) t t')
      (fun t' => E.nothrowFill = false ∧ ∃ k, k < m ∧ Spills s keep c n d k t t') := by
  refine bulk_builds (fun _ => ?_)
    (fun _ => guarded_builds (fun k _ _ ht' hfill =>
      fallible_builds (d := d + k) E.copyThrows v ht' hfill) h hd)
  have hset := storeAll_builds (List.replicate m v) h hd
  rwa [List.length_replicate] at hset

end Filling

end Voxory
