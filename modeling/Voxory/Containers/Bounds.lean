import Voxory.Containers.Internal

/-!
# Where the algorithms write

Whatever is alive in the slots they are given, the algorithms touch no slot outside their ranges
and change neither the blocks nor the fields of the object they work for.
-/

namespace Voxory
open Cxx

section Bounds

variable {α ρ : Type} {E : Element α} {ok : Fault → Prop} {s s' t : State α ρ} {p : Ptr}
  {R : State α ρ → Prop}

/-- Between `s` and `s'` only objects changed, and where the fuse stands. -/
def Stays (s s' : State α ρ) : Prop := s.Alters s'.mem.object s'

namespace Stays

lemma refl (s : State α ρ) : Stays s s := State.Alters.refl s

lemma of_alters {f : Ptr → Option α} (h : s.Alters f s') : Stays s s' := by
  rw [Stays, h.object]
  exact h

lemma trans (h : Stays s t) (h' : Stays t s') : Stays s s' := State.Alters.trans h h'

lemma inBounds (h : Stays s s') (p : Ptr) : s'.mem.inBounds p = s.mem.inBounds p :=
  State.Alters.inBounds h p

end Stays

/-! ### One slot -/

lemma mayThrow_within (c : Bool) : (mayThrow c).Within ok s (fun _ s' => Stays s s') (Stays s) :=
  .of_ends ((mayThrow_ends c s).mono (fun _ _ h => .of_alters h.toAlters)
    (fun _ h => .of_alters h.2.toAlters))

lemma read_within (hdead : ok .dead) (hp : ok .outside ∨ s.mem.inBounds p = true) :
    (Cxx.read p).Within ok s (fun _ s' => s' = s) R := by
  rw [Code.Within, Cxx.read]
  by_cases hin : s.mem.inBounds p = true
  · rw [if_pos hin]
    cases s.mem.object p with
    | none => exact hdead
    | some v => rfl
  · rw [if_neg hin]
    exact hp.resolve_right hin

lemma construct_within (v : α) (hp : ok .outside ∨ s.mem.inBounds p = true) :
    (construct p v).Within ok s (fun _ s' => s.mem.inBounds p = true ∧ Stays s s') R := by
  rw [Code.Within, construct]
  by_cases hin : s.mem.inBounds p = true
  · rw [if_pos hin]
    exact ⟨hin, .of_alters (put_alters _ _ hin)⟩
  · rw [if_neg hin]
    exact hp.resolve_right hin

lemma assign_within (v : α) (hdead : ok .dead) (hp : ok .outside ∨ s.mem.inBounds p = true) :
    (assign p v).Within ok s (fun _ s' => s.mem.inBounds p = true ∧ Stays s s') R := by
  rw [Code.Within, assign]
  by_cases hin : s.mem.inBounds p = true
  · rw [if_pos hin]
    cases s.mem.object p with
    | none => exact hdead
    | some w => exact ⟨hin, .of_alters (put_alters _ s.mem.trace hin)⟩
  · rw [if_neg hin]
    exact hp.resolve_right hin

lemma destroy_within (hdead : ok .dead) (hp : ok .outside ∨ s.mem.inBounds p = true) :
    (destroy p).Within ok s (fun _ s' => s.mem.inBounds p = true ∧ Stays s s') R := by
  rw [Code.Within, destroy]
  by_cases hin : s.mem.inBounds p = true
  · rw [if_pos hin]
    cases s.mem.object p with
    | none => exact hdead
    | some w => exact ⟨hin, .of_alters (put_alters _ _ hin)⟩
  · rw [if_neg hin]
    exact hp.resolve_right hin

lemma store_within (v : α) (hp : ok .outside ∨ s.mem.inBounds p = true) :
    (store p v).Within ok s (fun _ s' => s.mem.inBounds p = true ∧ Stays s s') R := by
  rw [Code.Within, store]
  by_cases hin : s.mem.inBounds p = true
  · rw [if_pos hin]
    cases s.mem.object p with
    | none => exact ⟨hin, .of_alters (put_alters _ _ hin)⟩
    | some w => exact ⟨hin, .of_alters (put_alters _ s.mem.trace hin)⟩
  · rw [if_neg hin]
    exact hp.resolve_right hin

lemma constructAt_within (throws : Bool) (v : α) (hp : ok .outside ∨ s.mem.inBounds p = true) :
    (constructAt throws p v).Within ok s (fun r s' => r = p + 1 ∧ Stays s s') (Stays s) := by
  refine Code.Within.noexcept ((mayThrow_within throws).bind (fun _ t ht => ?_))
  refine (construct_within v (hp.imp_right (fun hin => by rw [ht.inBounds, hin]))).bind ?_
  rintro _ s' ⟨-, hs'⟩
  exact Code.Within.pure ⟨rfl, ht.trans hs'⟩

/-! ### Ranges -/

variable {first dest : Ptr} {n : ℕ}

/-- The `n` slots from `p` on are slots of allocated blocks. -/
def Owned (s : State α ρ) (p : Ptr) (n : ℕ) : Prop := ∀ i, i < n → s.mem.inBounds (p + i) = true

lemma Owned.stays (h : Owned s p n) (hs : Stays s s') : Owned s' p n :=
  fun i hi => by rw [hs.inBounds, h i hi]

lemma Owned.succ (h : Owned s p n) (hn : s.mem.inBounds (p + n) = true) : Owned s p (n + 1) := by
  intro i hi
  rcases Nat.lt_or_ge i n with hlt | hge
  · exact h i hlt
  · rwa [show i = n by omega]

lemma loadAll_within (hdead : ok .dead) (hp : ok .outside ∨ Owned s p n) :
    (loadAll p n).Within ok s (fun vs s' => vs.length = n ∧ s' = s) R := by
  induction n generalizing p with
  | zero => exact Code.Within.pure ⟨rfl, rfl⟩
  | succ n ih =>
    refine (read_within hdead (hp.imp_right (fun h => h 0 (by omega)))).bind ?_
    rintro v _ rfl
    refine (ih (hp.imp_right (fun h i hi => ?_))).bind ?_
    · rw [Ptr.add_add, Nat.add_comm 1 i]
      exact h (i + 1) (by omega)
    · rintro vs _ ⟨hlen, rfl⟩
      exact Code.Within.pure ⟨by rw [List.length_cons, hlen], rfl⟩

lemma storeAll_within (vs : List α) (hp : ok .outside ∨ Owned s p vs.length) :
    (storeAll p vs).Within ok s (fun _ s' => Owned s p vs.length ∧ Stays s s') R := by
  induction vs generalizing s p with
  | nil => exact Code.Within.pure ⟨fun i hi => absurd hi (Nat.not_lt_zero i), .refl s⟩
  | cons v vs ih =>
    refine (store_within v (hp.imp_right (fun h => h 0 (Nat.succ_pos _)))).bind ?_
    rintro _ t ⟨hin, ht⟩
    refine (ih (hp.imp_right (fun h i hi => ?_))).mono ?_ (fun _ hr => hr)
    · rw [ht.inBounds, Ptr.add_add, Nat.add_comm 1 i]
      exact h (i + 1) (Nat.succ_lt_succ hi)
    · rintro _ s' ⟨hrest, hs'⟩
      refine ⟨fun i hi => ?_, ht.trans hs'⟩
      cases i with
      | zero => exact hin
      | succ i =>
        have hi' := hrest i (Nat.lt_of_succ_lt_succ hi)
        rwa [ht.inBounds, Ptr.add_add, Nat.add_comm 1 i] at hi'

lemma memmove_within (hdead : ok .dead) (hsrc : ok .outside ∨ Owned s first n)
    (hdest : ok .outside ∨ Owned s dest n) :
    (memmove dest first n).Within ok s (fun _ s' => Owned s dest n ∧ Stays s s') R := by
  refine (loadAll_within hdead hsrc).bind ?_
  rintro vs _ ⟨rfl, rfl⟩
  exact storeAll_within vs hdest

lemma destroyAll_within (hdead : ok .dead) (hp : ok .outside ∨ Owned s p n) :
    (destroyAll p n).Within ok s (fun _ s' => Stays s s') R := by
  refine Code.Within.loop _ 0 n (fun _ t => Stays s t) (.refl s) (fun k t _ hk ht => ?_)
  refine (destroy_within hdead (hp.imp_right (fun h => ?_))).mono
    (fun _ _ ht' => ht.trans ht'.2) (fun _ hr => hr)
  rw [ht.inBounds]
  exact h k (by omega)

lemma guarded_within {body : ℕ → Code (State α ρ) Unit} (hdead : ok .dead)
    (hbody : ∀ k t, k < n → Stays s t → (body k).Within ok t
      (fun _ t' => t.mem.inBounds (dest + k) = true ∧ Stays t t') (Stays t)) :
    (guarded dest body n).Within ok s (fun _ s' => Owned s dest n ∧ Stays s s') (Stays s) := by
  have hloop : Code.Within ok _ s _ (Stays s) := Code.Within.loop (s := s) (R := Stays s)
    (fun i => (body i).onThrow (destroyAll dest i)) 0 n
    (fun k t => Owned s dest k ∧ Stays s t)
    ⟨fun i hi => absurd hi (Nat.not_lt_zero i), .refl s⟩ ?_
  · rwa [Nat.zero_add] at hloop
  · rintro k t - hk ⟨hown, ht⟩
    refine (Code.Within.onThrow (hbody k t (by omega) ht) (T := Stays s) (fun t' ht' => ?_)).mono
      ?_ (fun _ hr => hr)
    · exact (destroyAll_within (R := fun _ => True) hdead
        (Or.inr (hown.stays (ht.trans ht')))).mono
        (fun _ _ ht'' => (ht.trans ht').trans ht'') (fun _ _ => trivial)
    · rintro _ t' ⟨hin, ht'⟩
      rw [ht.inBounds] at hin
      exact ⟨hown.succ hin, ht.trans ht'⟩

lemma copyConstruct_within (hdead : ok .dead) (hsrc : ok .outside ∨ s.mem.inBounds first = true)
    (hdest : ok .outside ∨ s.mem.inBounds dest = true) : (copyConstruct E dest first).Within ok s
      (fun _ s' => s.mem.inBounds dest = true ∧ Stays s s') (Stays s) := by
  refine (read_within hdead hsrc).bind ?_
  rintro v _ rfl
  refine (mayThrow_within E.copyThrows).bind (fun _ t ht => ?_)
  refine (construct_within v (hdest.imp_right (fun h => by rw [ht.inBounds, h]))).mono ?_
    (fun _ hr => hr)
  rintro _ s' ⟨hin, hs'⟩
  exact ⟨by rwa [ht.inBounds] at hin, ht.trans hs'⟩

lemma moveConstruct_within (hdead : ok .dead) (hsrc : ok .outside ∨ s.mem.inBounds first = true)
    (hdest : ok .outside ∨ s.mem.inBounds dest = true) : (moveConstruct E dest first).Within ok s
      (fun _ s' => s.mem.inBounds dest = true ∧ Stays s s') (Stays s) := by
  refine (read_within hdead hsrc).bind ?_
  rintro v _ rfl
  refine (mayThrow_within E.moveThrows).bind (fun _ t ht => ?_)
  refine (construct_within v (hdest.imp_right (fun h => by rw [ht.inBounds, h]))).bind ?_
  rintro _ u ⟨hin, hu⟩
  refine (assign_within (E.movedFrom v) hdead (hsrc.imp_right (fun h => ?_))).mono ?_
    (fun _ hr => hr)
  · rw [hu.inBounds, ht.inBounds, h]
  · rintro _ s' ⟨-, hs'⟩
    exact ⟨by rwa [ht.inBounds] at hin, (ht.trans hu).trans hs'⟩

lemma bulk_within {c byte : Bool} {x y : Code (State α ρ) Unit} {q : Ptr}
    (hx : x.Within ok s (fun _ s' => Owned s dest n ∧ Stays s s') (Stays s))
    (hy : y.Within ok s (fun _ s' => Owned s dest n ∧ Stays s s') (Stays s)) :
    (Code.noexcept c (do (if byte then x else y); pure q)).Within ok s
      (fun r s' => r = q ∧ Owned s dest n ∧ Stays s s') (Stays s) := by
  refine Code.Within.noexcept (Code.Within.bind ?_ (fun _ _ h => Code.Within.pure ⟨rfl, h⟩))
  split_ifs
  · exact hx
  · exact hy

lemma uninitializedMoveN_within (hdead : ok .dead) (hsrc : ok .outside ∨ Owned s first n)
    (hdest : ok .outside ∨ Owned s dest n) : (uninitializedMoveN E first n dest).Within ok s
      (fun q s' => q = dest + n ∧ Owned s dest n ∧ Stays s s') (Stays s) := by
  refine bulk_within (memmove_within hdead hsrc hdest) (guarded_within hdead (fun k t hk ht => ?_))
  refine moveConstruct_within hdead (hsrc.imp_right (fun h => ?_)) (hdest.imp_right (fun h => ?_))
  · exact h.stays ht k hk
  · exact h.stays ht k hk

lemma uninitializedCopyN_within (hdead : ok .dead) (hsrc : ok .outside ∨ Owned s first n)
    (hdest : ok .outside ∨ Owned s dest n) : (uninitializedCopyN E first n dest).Within ok s
      (fun q s' => q = dest + n ∧ Owned s dest n ∧ Stays s s') (Stays s) := by
  refine bulk_within (memmove_within hdead hsrc hdest) (guarded_within hdead (fun k t hk ht => ?_))
  refine copyConstruct_within hdead (hsrc.imp_right (fun h => ?_)) (hdest.imp_right (fun h => ?_))
  · exact h.stays ht k hk
  · exact h.stays ht k hk

end Bounds

end Voxory
