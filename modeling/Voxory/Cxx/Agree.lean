import Voxory.Cxx.Code

/-!
# Code that cannot be told apart

Two pieces of code agree from two states when they end in the same way, with the same value and
in states that are related again. The rules go through a piece of code step by step; what is
observed of a series of calls is the same from related states.
-/

namespace Cxx

variable {σ β γ : Type}

/-- The same end, in states related by `R`. -/
inductive Outcome.Agree (R : σ → σ → Prop) : Outcome σ β → Outcome σ β → Prop
  | returned (b : β) {s t : σ} (h : R s t) : Agree R (.returned b s) (.returned b t)
  | threw {s t : σ} (h : R s t) : Agree R (.threw s) (.threw t)
  | terminated : Agree R .terminated .terminated
  | fault (why : Fault) : Agree R (.fault why) (.fault why)

namespace Code

/-- `x` does from `s` what `y` does from `t`. -/
def AgreeAt (R : σ → σ → Prop) (x y : Code σ β) (s t : σ) : Prop := (x s).Agree R (y t)

namespace AgreeAt

variable {R : σ → σ → Prop} {x y : Code σ β} {s t : σ}

lemma pure {b : β} (h : R s t) : AgreeAt R (Pure.pure b) (Pure.pure b) s t := .returned b h

lemma undefined (why : Fault) :
    AgreeAt R (Code.undefined why : Code σ β) (Code.undefined why) s t := .fault why

lemma bind_into {R' : σ → σ → Prop} {f g : β → Code σ γ} (h : AgreeAt R x y s t)
    (hR : ∀ s' t', R s' t' → R' s' t')
    (hf : ∀ b s' t', x s = .returned b s' → R s' t' → AgreeAt R' (f b) (g b) s' t') :
    AgreeAt R' (x >>= f) (y >>= g) s t := by
  rw [AgreeAt] at h
  rw [AgreeAt, bind_run, bind_run]
  generalize x s = o at h hf ⊢
  generalize y t = o' at h ⊢
  cases h with
  | returned b hst => exact hf b _ _ rfl hst
  | threw hst => exact .threw (hR _ _ hst)
  | terminated => exact .terminated
  | fault why => exact .fault why

lemma bind {f g : β → Code σ γ} (h : AgreeAt R x y s t)
    (hf : ∀ b s' t', R s' t' → AgreeAt R (f b) (g b) s' t') :
    AgreeAt R (x >>= f) (y >>= g) s t :=
  h.bind_into (fun _ _ hst => hst) (fun b s' t' _ hst => hf b s' t' hst)

lemma step {f g : β → Code σ γ} {b c : β} {s' t' : σ} (hx : x s = .returned b s')
    (hy : y t = .returned c t') (h : AgreeAt R (f b) (g c) s' t') :
    AgreeAt R (x >>= f) (y >>= g) s t := by
  rwa [AgreeAt, bind_returned hx, bind_returned hy]

lemma noexcept {c : Bool} (h : AgreeAt R x y s t) :
    AgreeAt R (x.noexcept c) (y.noexcept c) s t := by
  rw [AgreeAt] at h
  rw [AgreeAt, Code.noexcept, Code.noexcept]
  generalize x s = o at h ⊢
  generalize y t = o' at h ⊢
  cases h with
  | returned b hR => exact .returned b hR
  | threw hR =>
    cases c
    · exact .threw hR
    · exact .terminated
  | terminated => exact .terminated
  | fault why => exact .fault why

lemma loop {body : ℕ → Code σ Unit} (i n : ℕ) (h : R s t)
    (hbody : ∀ k s' t', R s' t' → AgreeAt R (body k) (body k) s' t') :
    AgreeAt R (Code.loop body i n) (Code.loop body i n) s t := by
  induction n generalizing i s t with
  | zero => exact pure h
  | succ n ih => exact (hbody i s t h).bind (fun _ _ _ hR => ih (i + 1) hR)

end AgreeAt

end Code

/-! ### Series of calls -/

section Series

variable {κ : Type}

/-- What a caller sees of one call. -/
inductive Seen (β : Type) where
  | value (b : β)
  | exception
  | terminated
  | fault (why : Fault)
  deriving DecidableEq, Repr

/-- What a caller sees of a series of calls, which ends where a call is not allowed; the caller
catches exceptions and goes on. -/
def observe (call : κ → Code σ β) (allowed : σ → κ → Bool) : List κ → σ → List (Seen β)
  | [], _ => []
  | k :: ks, s =>
    if allowed s k then
      match call k s with
      | .returned b s' => .value b :: observe call allowed ks s'
      | .threw s' => .exception :: observe call allowed ks s'
      | .terminated => [.terminated]
      | .fault why => [.fault why]
    else []

/-- States from which every call agrees show the same in every series of calls. -/
theorem observe_congr {call : κ → Code σ β} {allowed : σ → κ → Bool} (R : σ → σ → Prop)
    (hallowed : ∀ k s t, R s t → allowed s k = allowed t k)
    (hcall : ∀ k s t, R s t → allowed s k = true → Code.AgreeAt R (call k) (call k) s t)
    {s t : σ} (ks : List κ) (h : R s t) : observe call allowed ks s = observe call allowed ks t := by
  induction ks generalizing s t with
  | nil => rfl
  | cons k ks ih =>
    rw [observe, observe, ← hallowed k s t h]
    by_cases hk : allowed s k = true
    · have hagree := hcall k s t h hk
      rw [Code.AgreeAt] at hagree
      rw [if_pos hk, if_pos hk]
      generalize call k s = o at hagree ⊢
      generalize call k t = o' at hagree ⊢
      cases hagree with
      | returned b hR => simp only [ih hR]
      | threw hR => simp only [ih hR]
      | terminated => rfl
      | fault why => rfl
    · rw [if_neg hk, if_neg hk]

end Series

end Cxx
