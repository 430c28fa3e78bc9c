import Mathlib.Tactic

/-!
# Imperative code with exceptions

A piece of code reads and writes a state and ends in one of four ways: it returns a
value, it lets an exception escape, it terminates the program, or it has undefined
behaviour. Undefined behaviour is an outcome of its own, so that a statement about a
run has to rule it out. The rules at the end are the ones the container proofs use.
-/

namespace Cxx

/-- The undefined behaviour a run can stop at. -/
inductive Fault where
  /-- an access through a null pointer or outside an allocated block -/
  | outside
  /-- an access to a slot that holds no live object -/
  | dead
  /-- a remainder modulo zero -/
  | modZero
  deriving DecidableEq, Repr

/-- How a piece of code over the state `σ` ends. -/
inductive Outcome (σ β : Type) where
  | returned (value : β) (state : σ)
  | threw (state : σ)
  | terminated
  | fault (why : Fault)

/-- The final state of a run that returns. -/
def Outcome.state? {σ β : Type} : Outcome σ β → Option σ
  | .returned _ s => some s
  | _ => none

lemma Outcome.state?_eq_some {σ β : Type} {o : Outcome σ β} {s : σ} :
    o.state? = some s ↔ ∃ b, o = .returned b s := by
  cases o <;> simp [Outcome.state?]

/-- The value of a run that returns. -/
def Outcome.value? {σ β : Type} : Outcome σ β → Option β
  | .returned b _ => some b
  | _ => none

lemma Outcome.value?_eq_some {σ β : Type} {o : Outcome σ β} {b : β} :
    o.value? = some b ↔ ∃ s, o = .returned b s := by
  cases o <;> simp [Outcome.value?]

/-- The state in which an exception leaves a run. -/
def Outcome.thrown? {σ β : Type} : Outcome σ β → Option σ
  | .threw s => some s
  | _ => none

lemma Outcome.thrown?_eq_some {σ β : Type} {o : Outcome σ β} {s : σ} :
    o.thrown? = some s ↔ o = .threw s := by
  cases o <;> simp [Outcome.thrown?]

/-- The undefined behaviour a run stops at. -/
def Outcome.fault? {σ β : Type} : Outcome σ β → Option Fault
  | .fault why => some why
  | _ => none

lemma Outcome.fault?_eq_some {σ β : Type} {o : Outcome σ β} {why : Fault} :
    o.fault? = some why ↔ o = .fault why := by
  cases o <;> simp [Outcome.fault?]

/-- An exception leaves the code, or ends the program. -/
def Outcome.Interrupted {σ β : Type} : Outcome σ β → Prop
  | .threw _ | .terminated => True
  | .returned _ _ | .fault _ => False

lemma Outcome.not_interrupted {σ β : Type} {o : Outcome σ β} {b : β} (h : o.value? = some b) :
    ¬o.Interrupted := by
  obtain ⟨s, rfl⟩ := Outcome.value?_eq_some.mp h
  exact id

def Code (σ β : Type) : Type := σ → Outcome σ β

namespace Code

variable {σ β γ : Type}

def bind (x : Code σ β) (f : β → Code σ γ) : Code σ γ := fun s =>
  match x s with
  | .returned b s' => f b s'
  | .threw s' => .threw s'
  | .terminated => .terminated
  | .fault why => .fault why

instance : Monad (Code σ) where
  pure b := fun s => .returned b s
  bind := bind

def get : Code σ σ := fun s => .returned s s

def set (s : σ) : Code σ Unit := fun _ => .returned () s

def undefined (why : Fault) : Code σ β := fun _ => .fault why

/-- Code that never comes back: a loop or a recursion without an end, and nothing after it runs. -/
def endless : Code σ β := fun _ => .terminated

/-- An exception is thrown. -/
def raise : Code σ β := fun s => .threw s

/-- A guard object: when `x` throws, the guard's destructor runs before the exception
leaves. A destructor that throws while the stack unwinds terminates the program. -/
def onThrow (x : Code σ β) (guard : Code σ Unit) : Code σ β := fun s =>
  match x s with
  | .threw s' =>
    match guard s' with
    | .returned _ s'' => .threw s''
    | .threw _ => .terminated
    | .terminated => .terminated
    | .fault why => .fault why
  | outcome => outcome

/-- A function declared `noexcept(b)`: an exception that would leave it terminates the program. -/
def noexcept (b : Bool) (x : Code σ β) : Code σ β := fun s =>
  match x s with
  | .threw s' => if b then .terminated else .threw s'
  | outcome => outcome

/-- Runs `x` on a part of the state. -/
def zoom {τ : Type} (part : σ → τ) (put : τ → σ → σ) (x : Code τ β) : Code σ β := fun s =>
  match x (part s) with
  | .returned b t => .returned b (put t s)
  | .threw t => .threw (put t s)
  | .terminated => .terminated
  | .fault why => .fault why

/-- A counting loop over `n` consecutive indices from `i`. -/
def loop (body : ℕ → Code σ Unit) : ℕ → ℕ → Code σ Unit
  | _, 0 => pure ()
  | i, n + 1 => do
    body i
    loop body (i + 1) n

/-- `x` returns from `s`, and its value and final state satisfy `Q`. -/
def Returns (x : Code σ β) (s : σ) (Q : β → σ → Prop) : Prop :=
  ∃ b s', x s = .returned b s' ∧ Q b s'

/-- What `x` does from `s`: it returns and `Q` holds, or an exception interrupts it and `R`
holds; where a function is `noexcept` the exception ends the program. -/
def Ends (x : Code σ β) (s : σ) (Q : β → σ → Prop) (R : σ → Prop) : Prop :=
  match x s with
  | .returned b s' => Q b s'
  | .threw s' => R s'
  | .terminated => ∃ s', R s'
  | .fault _ => False

/-- What `x` does from `s` if it stops at no fault but those in `ok`: it returns and `Q` holds, or
an exception leaves it and `R` holds, or the program ends. -/
def Within (ok : Fault → Prop) (x : Code σ β) (s : σ) (Q : β → σ → Prop) (R : σ → Prop) : Prop :=
  match x s with
  | .returned b s' => Q b s'
  | .threw s' => R s'
  | .terminated => True
  | .fault why => ok why

/-! ### Rules for code that returns -/

lemma pure_run (b : β) (s : σ) : (Pure.pure b : Code σ β) s = .returned b s := rfl

lemma bind_run (x : Code σ β) (f : β → Code σ γ) (s : σ) :
    (x >>= f) s = match x s with
      | .returned b s' => f b s'
      | .threw s' => .threw s'
      | .terminated => .terminated
      | .fault why => .fault why := rfl

lemma bind_returned {x : Code σ β} {f : β → Code σ γ} {s s' : σ} {b : β}
    (h : x s = .returned b s') : (x >>= f) s = f b s' := by
  rw [bind_run, h]

lemma bind_eq_returned {x : Code σ β} {f : β → Code σ γ} {s s'' : σ} {c : γ} :
    (x >>= f) s = .returned c s'' ↔ ∃ b s', x s = .returned b s' ∧ f b s' = .returned c s'' := by
  rw [bind_run]
  cases x s <;> simp

lemma onThrow_eq_returned {x : Code σ β} {guard : Code σ Unit} {s s' : σ} {b : β} :
    x.onThrow guard s = .returned b s' ↔ x s = .returned b s' := by
  rw [onThrow]
  cases x s with
  | threw s'' =>
    dsimp only
    cases guard s'' <;> simp
  | returned b s'' => exact Iff.rfl
  | terminated => exact Iff.rfl
  | fault why => exact Iff.rfl

lemma noexcept_eq_returned {x : Code σ β} {c : Bool} {s s' : σ} {b : β} :
    x.noexcept c s = .returned b s' ↔ x s = .returned b s' := by
  rw [noexcept]
  cases x s with
  | threw s'' => cases c <;> simp
  | returned b s'' => exact Iff.rfl
  | terminated => exact Iff.rfl
  | fault why => exact Iff.rfl

lemma zoom_returned {τ : Type} {part : σ → τ} {put : τ → σ → σ} {x : Code τ β} {s : σ} {b : β}
    {t : τ} (h : x (part s) = .returned b t) : x.zoom part put s = .returned b (put t s) := by
  simp only [zoom, h]

lemma pure_bind (b : β) (f : β → Code σ γ) : (Pure.pure b >>= f) = f b := rfl

lemma bind_assoc {δ : Type} (x : Code σ β) (f : β → Code σ γ) (g : γ → Code σ δ) :
    (x >>= f >>= g) = x >>= fun b => f b >>= g := by
  funext s
  rw [bind_run, bind_run, bind_run]
  cases x s <;> rfl

lemma onThrow_bind_pure (x : Code σ β) (f : β → γ) (guard : Code σ Unit) :
    (x >>= fun b => Pure.pure (f b)).onThrow guard = x.onThrow guard >>= fun b => Pure.pure (f b) := by
  funext s
  rw [onThrow, bind_run, bind_run, onThrow]
  cases x s with
  | threw s' =>
    dsimp only
    cases guard s' <;> rfl
  | returned b s' => rfl
  | terminated => rfl
  | fault why => rfl

/-- Code that cannot end the program. -/
def Mild (x : Code σ β) : Prop := ∀ s, x s ≠ .terminated

namespace Mild

lemma pure (b : β) : Mild (Pure.pure b : Code σ β) := fun _ h => nomatch h

lemma bind {x : Code σ β} {f : β → Code σ γ} (h : Mild x) (hf : ∀ b, Mild (f b)) :
    Mild (x >>= f) := by
  intro s
  rw [bind_run]
  cases hx : x s with
  | returned b s' => exact hf b s'
  | threw s' => exact fun h => nomatch h
  | terminated => exact absurd hx (h s)
  | fault why => exact fun h => nomatch h

lemma loop {body : ℕ → Code σ Unit} (hbody : ∀ i, Mild (body i)) (i n : ℕ) :
    Mild (Code.loop body i n) := by
  induction n generalizing i with
  | zero => exact pure ()
  | succ n ih => exact (hbody i).bind (fun _ => ih (i + 1))

lemma noexcept (h : Mild x) : Mild (x.noexcept false) := by
  intro s
  rw [Code.noexcept]
  cases hx : x s with
  | returned b s' => exact fun h => nomatch h
  | threw s' => exact fun h => nomatch h
  | terminated => exact absurd hx (h s)
  | fault why => exact fun h => nomatch h

end Mild

/-- Code that nothing can interrupt, as a destructor has to be. -/
def Quiet (x : Code σ β) : Prop := ∀ s, ¬(x s).Interrupted

namespace Quiet

lemma pure (b : β) : Quiet (Pure.pure b : Code σ β) := fun _ h => h

lemma bind {x : Code σ β} {f : β → Code σ γ} (h : Quiet x) (hf : ∀ b, Quiet (f b)) :
    Quiet (x >>= f) := by
  intro s
  rw [bind_run]
  cases hx : x s with
  | returned b s' => exact hf b s'
  | threw s' => exact absurd (by rw [hx]; trivial) (h s)
  | terminated => exact absurd (by rw [hx]; trivial) (h s)
  | fault why => exact fun h => h

lemma loop {body : ℕ → Code σ Unit} (hbody : ∀ i, Quiet (body i)) (i n : ℕ) :
    Quiet (Code.loop body i n) := by
  induction n generalizing i with
  | zero => exact pure ()
  | succ n ih => exact (hbody i).bind (fun _ => ih (i + 1))

end Quiet

/-- Code that no exception leaves. -/
def Nothrow (x : Code σ β) : Prop := ∀ s s', x s ≠ .threw s'

namespace Nothrow

variable {x : Code σ β} {f : β → Code σ γ} {s s' : σ}

lemma pure (b : β) : Nothrow (Pure.pure b : Code σ β) := fun _ _ h => by cases h

lemma undefined (why : Fault) : Nothrow (Code.undefined why : Code σ β) := fun _ _ h => by cases h

lemma endless : Nothrow (Code.endless : Code σ β) := fun _ _ h => by cases h

lemma bind_threw (h : Nothrow x) (hx : (x >>= f) s = .threw s') :
    ∃ b t, x s = .returned b t ∧ f b t = .threw s' := by
  rw [bind_run] at hx
  cases hxs : x s with
  | returned b t =>
    rw [hxs] at hx
    exact ⟨b, t, rfl, hx⟩
  | threw t => exact absurd hxs (h s t)
  | terminated =>
    rw [hxs] at hx
    cases hx
  | fault why =>
    rw [hxs] at hx
    cases hx

lemma bind (h : Nothrow x) (hf : ∀ b, Nothrow (f b)) : Nothrow (x >>= f) := by
  intro s s' hx
  obtain ⟨b, t, -, hft⟩ := h.bind_threw hx
  exact hf b t s' hft

lemma ite {c : Prop} [Decidable c] {y : Code σ β} (hx : Nothrow x) (hy : Nothrow y) :
    Nothrow (if c then x else y) := by
  split_ifs
  · exact hx
  · exact hy

lemma noexcept (x : Code σ β) : Nothrow (x.noexcept true) := by
  intro s s' h
  rw [Code.noexcept] at h
  cases hx : x s <;> rw [hx] at h <;> cases h

end Nothrow

lemma threw_of_bind {x : Code σ β} {f : β → Code σ γ} {s s' : σ} (hf : ∀ b, Nothrow (f b))
    (h : (x >>= f) s = .threw s') : x s = .threw s' := by
  rw [bind_run] at h
  cases hxs : x s with
  | returned b t =>
    rw [hxs] at h
    exact absurd h (hf b t s')
  | threw t =>
    rw [hxs] at h
    cases h
    rfl
  | terminated =>
    rw [hxs] at h
    cases h
  | fault why =>
    rw [hxs] at h
    cases h

lemma Mild.onThrow {x : Code σ β} {guard : Code σ Unit} (h : Mild x) (hguard : Quiet guard) :
    Mild (x.onThrow guard) := by
  intro s
  rw [Code.onThrow]
  cases hx : x s with
  | returned b s' => exact fun h => nomatch h
  | threw s' =>
    have hquiet := hguard s'
    cases hg : guard s' with
    | returned _ s'' => simp only [hg]; exact fun h => nomatch h
    | threw s'' => exact absurd (by rw [hg]; trivial) hquiet
    | terminated => exact absurd (by rw [hg]; trivial) hquiet
    | fault why => simp only [hg]; exact fun h => nomatch h
  | terminated => exact absurd hx (h s)
  | fault why => exact fun h => nomatch h

lemma Mild.throws {x : Code σ β} {s : σ} {Q : β → σ → Prop} {R : σ → Prop} (h : Mild x)
    (hx : Ends x s Q R) (hreturned : ∀ b s', x s ≠ .returned b s') :
    ∃ s', x s = .threw s' ∧ R s' := by
  rw [Ends] at hx
  cases hxs : x s with
  | returned b s' => exact absurd hxs (hreturned b s')
  | threw s' =>
    rw [hxs] at hx
    exact ⟨s', rfl, hx⟩
  | terminated => exact absurd hxs (h s)
  | fault why =>
    rw [hxs] at hx
    exact hx.elim

namespace Returns

variable {x : Code σ β} {s : σ} {Q : β → σ → Prop}

lemma pure {b : β} (h : Q b s) : Returns (Pure.pure b : Code σ β) s Q :=
  ⟨b, s, rfl, h⟩

lemma get {Q : σ → σ → Prop} (h : Q s s) : Returns (Code.get : Code σ σ) s Q :=
  ⟨s, s, rfl, h⟩

lemma set {s' : σ} {Q : Unit → σ → Prop} (h : Q () s') : Returns (Code.set s') s Q :=
  ⟨(), s', rfl, h⟩

lemma mono {R : β → σ → Prop} (h : Returns x s Q) (hQR : ∀ b s', Q b s' → R b s') :
    Returns x s R := by
  obtain ⟨b, s', hx, hQ⟩ := h
  exact ⟨b, s', hx, hQR b s' hQ⟩

lemma bind {f : β → Code σ γ} {R : γ → σ → Prop} (h : Returns x s Q)
    (hf : ∀ b s', Q b s' → Returns (f b) s' R) : Returns (x >>= f) s R := by
  obtain ⟨b, s', hx, hQ⟩ := h
  obtain ⟨c, s'', hc, hR⟩ := hf b s' hQ
  exact ⟨c, s'', by rw [bind_returned hx, hc], hR⟩

/-- Executes the first step of a sequence. -/
lemma step {f : β → Code σ γ} {R : γ → σ → Prop} {b : β} {t : σ} (h : x s = .returned b t)
    (hf : Returns (f b) t R) : Returns (x >>= f) s R := by
  rwa [Returns, bind_returned h]

lemma step_iff {f : β → Code σ γ} {R : γ → σ → Prop} {b : β} {t : σ} (h : x s = .returned b t) :
    Returns (x >>= f) s R ↔ Returns (f b) t R := by
  rw [Returns, bind_returned h, Returns]

lemma onThrow {guard : Code σ Unit} (h : Returns x s Q) : Returns (x.onThrow guard) s Q := by
  obtain ⟨b, s', hx, hQ⟩ := h
  exact ⟨b, s', by simp only [Code.onThrow, hx], hQ⟩

lemma noexcept {c : Bool} (h : Returns x s Q) : Returns (x.noexcept c) s Q := by
  obtain ⟨b, s', hx, hQ⟩ := h
  exact ⟨b, s', by simp only [Code.noexcept, hx], hQ⟩

/-- The loop rule: an invariant indexed by the loop counter that every iteration carries on. -/
lemma loop (body : ℕ → Code σ Unit) (i n : ℕ) (Inv : ℕ → σ → Prop) (h : Inv i s)
    (hstep : ∀ k t, i ≤ k → k < i + n → Inv k t →
      Returns (body k) t (fun _ t' => Inv (k + 1) t')) :
    Returns (Code.loop body i n) s (fun _ s' => Inv (i + n) s') := by
  induction n generalizing i s with
  | zero => exact pure h
  | succ n ih =>
    rw [Code.loop]
    refine (hstep i s le_rfl (by omega) h).bind ?_
    intro _ t ht
    have hrest := ih (i + 1) ht (fun k t' hk hkn => hstep k t' (by omega) (by omega))
    rwa [show i + 1 + n = i + (n + 1) from by omega] at hrest

end Returns

/-- A loop stops at the fault of its `m`-th iteration once the iterations before it return. -/
lemma loop_faults (body : ℕ → Code σ Unit) (why : Fault) (i m n : ℕ) (Inv : ℕ → σ → Prop) {s : σ}
    (h : Inv i s) (hm : m < n)
    (hstep : ∀ k t, i ≤ k → k < i + m → Inv k t →
      Returns (body k) t (fun _ t' => Inv (k + 1) t'))
    (hfault : ∀ t, Inv (i + m) t → body (i + m) t = .fault why) :
    Code.loop body i n s = .fault why := by
  induction m generalizing i n s with
  | zero =>
    obtain ⟨n, rfl⟩ := Nat.exists_eq_succ_of_ne_zero (by omega : n ≠ 0)
    rw [Code.loop, bind_run, show body i s = .fault why from hfault s h]
  | succ m ih =>
    obtain ⟨n, rfl⟩ := Nat.exists_eq_succ_of_ne_zero (by omega : n ≠ 0)
    obtain ⟨_, t, ht, hInv⟩ := hstep i s le_rfl (by omega) h
    rw [Code.loop, bind_returned ht]
    apply ih (i + 1) n hInv (by omega)
    · intro k t' hk hkm
      exact hstep k t' (by omega) (by omega)
    · intro t' ht'
      rw [Nat.add_right_comm, Nat.add_assoc] at ht' ⊢
      exact hfault t' ht'

/-! ### Rules for code that an exception may interrupt -/

namespace Ends

variable {x : Code σ β} {s : σ} {Q : β → σ → Prop} {R : σ → Prop}

lemma of_returns (h : Returns x s Q) : Ends x s Q R := by
  obtain ⟨b, s', hx, hQ⟩ := h
  rwa [Ends, hx]

lemma returns (h : Ends x s Q R) (hR : ∀ s', ¬R s') : Returns x s Q := by
  rw [Ends] at h
  cases hx : x s with
  | returned b s' => exact ⟨b, s', hx, by rwa [hx] at h⟩
  | threw s' =>
    rw [hx] at h
    exact absurd h (hR s')
  | terminated =>
    rw [hx] at h
    obtain ⟨s', h⟩ := h
    exact absurd h (hR s')
  | fault why =>
    rw [hx] at h
    exact h.elim

lemma returns_of_whole (h : Ends x s Q R) (hwhole : ¬(x s).Interrupted) : Returns x s Q := by
  rw [Ends] at h
  cases hx : x s with
  | returned b s' => exact ⟨b, s', hx, by rwa [hx] at h⟩
  | threw s' => exact absurd (by rw [hx]; trivial) hwhole
  | terminated => exact absurd (by rw [hx]; trivial) hwhole
  | fault why =>
    rw [hx] at h
    exact h.elim

lemma pure {b : β} (h : Q b s) : Ends (Pure.pure b : Code σ β) s Q R := h

lemma mono {Q' : β → σ → Prop} {R' : σ → Prop} (h : Ends x s Q R)
    (hQ : ∀ b s', Q b s' → Q' b s') (hR : ∀ s', R s' → R' s') : Ends x s Q' R' := by
  rw [Ends] at h ⊢
  cases hx : x s <;> rw [hx] at h
  · exact hQ _ _ h
  · exact hR _ h
  · exact h.imp hR
  · exact h

lemma bind {f : β → Code σ γ} {Q' : γ → σ → Prop} (h : Ends x s Q R)
    (hf : ∀ b s', Q b s' → Ends (f b) s' Q' R) : Ends (x >>= f) s Q' R := by
  rw [Ends] at h
  rw [Ends, bind_run]
  cases hx : x s <;> rw [hx] at h
  · exact hf _ _ h
  · exact h
  · exact h
  · exact h

lemma step {f : β → Code σ γ} {Q' : γ → σ → Prop} {b : β} {t : σ} (h : x s = .returned b t)
    (hf : Ends (f b) t Q' R) : Ends (x >>= f) s Q' R := by
  rwa [Ends, bind_returned h]

lemma onThrow {guard : Code σ Unit} {T : σ → Prop} (h : Ends x s Q R)
    (hguard : ∀ s', R s' → Returns guard s' (fun _ s'' => T s'')) :
    Ends (x.onThrow guard) s Q T := by
  rw [Ends] at h
  rw [Ends, Code.onThrow]
  cases hx : x s <;> rw [hx] at h
  · exact h
  · obtain ⟨_, s'', hs'', hR'⟩ := hguard _ h
    simp only [hs'']
    exact hR'
  · obtain ⟨s', h⟩ := h
    obtain ⟨_, s'', _, hR'⟩ := hguard s' h
    exact ⟨s'', hR'⟩
  · exact h

lemma noexcept {c : Bool} (h : Ends x s Q R) : Ends (x.noexcept c) s Q R := by
  rw [Ends] at h
  rw [Ends, Code.noexcept]
  cases hx : x s <;> rw [hx] at h
  · exact h
  · cases c
    · exact h
    · exact ⟨_, h⟩
  · exact h
  · exact h

lemma loop (body : ℕ → Code σ Unit) (i n : ℕ) (Inv : ℕ → σ → Prop) (h : Inv i s)
    (hstep : ∀ k t, i ≤ k → k < i + n → Inv k t →
      Ends (body k) t (fun _ t' => Inv (k + 1) t') R) :
    Ends (Code.loop body i n) s (fun _ s' => Inv (i + n) s') R := by
  induction n generalizing i s with
  | zero => exact h
  | succ n ih =>
    rw [Code.loop]
    refine (hstep i s le_rfl (by omega) h).bind ?_
    intro _ t ht
    have hrest := ih (i + 1) ht (fun k t' hk hkn => hstep k t' (by omega) (by omega))
    rwa [show i + 1 + n = i + (n + 1) from by omega] at hrest

end Ends

/-! ### Rules for code that may stop at some faults -/

namespace Within

variable {ok : Fault → Prop} {x : Code σ β} {s : σ} {Q : β → σ → Prop} {R : σ → Prop}

lemma of_ends (h : Ends x s Q R) : Within ok x s Q R := by
  rw [Ends] at h
  rw [Within]
  cases hx : x s <;> rw [hx] at h
  · exact h
  · exact h
  · trivial
  · exact h.elim

lemma returned {b : β} {s' : σ} (h : Within ok x s Q R) (hx : x s = .returned b s') : Q b s' := by
  rwa [Within, hx] at h

lemma returns {Q' : β → σ → Prop} (h : Within ok x s Q R) (hx : Returns x s Q') :
    Returns x s (fun b s' => Q' b s' ∧ Q b s') := by
  obtain ⟨b, s', hs, hQ⟩ := hx
  exact ⟨b, s', hs, hQ, h.returned hs⟩

lemma trivial (x : Code σ β) (s : σ) :
    Within (fun _ => True) x s (fun _ _ => True) (fun _ => True) := by
  rw [Within]
  cases x s <;> exact True.intro

lemma of_returned (h : ∀ b s', x s = .returned b s' → Q b s') :
    Within (fun _ => True) x s Q (fun _ => True) := by
  rw [Within]
  cases hx : x s with
  | returned b s' => exact h b s' hx
  | threw s' => exact True.intro
  | terminated => exact True.intro
  | fault why => exact True.intro

lemma pure {b : β} (h : Q b s) : Within ok (Pure.pure b : Code σ β) s Q R := h

lemma undefined {why : Fault} (h : ok why) : Within ok (Code.undefined why : Code σ β) s Q R := h

lemma mono {Q' : β → σ → Prop} {R' : σ → Prop} (h : Within ok x s Q R)
    (hQ : ∀ b s', Q b s' → Q' b s') (hR : ∀ s', R s' → R' s') : Within ok x s Q' R' := by
  rw [Within] at h ⊢
  cases hx : x s <;> rw [hx] at h
  · exact hQ _ _ h
  · exact hR _ h
  · trivial
  · exact h

lemma and {Q' : β → σ → Prop} {R' : σ → Prop} (h : Within ok x s Q R) (h' : Within ok x s Q' R') :
    Within ok x s (fun b s' => Q b s' ∧ Q' b s') (fun s' => R s' ∧ R' s') := by
  rw [Within] at h h' ⊢
  cases hx : x s <;> rw [hx] at h h'
  · exact ⟨h, h'⟩
  · exact ⟨h, h'⟩
  · trivial
  · exact h

lemma bind {f : β → Code σ γ} {Q' : γ → σ → Prop} (h : Within ok x s Q R)
    (hf : ∀ b s', Q b s' → Within ok (f b) s' Q' R) : Within ok (x >>= f) s Q' R := by
  rw [Within] at h
  rw [Within, bind_run]
  cases hx : x s <;> rw [hx] at h
  · exact hf _ _ h
  · exact h
  · trivial
  · exact h

lemma step {f : β → Code σ γ} {Q' : γ → σ → Prop} {b : β} {t : σ} (h : x s = .returned b t)
    (hf : Within ok (f b) t Q' R) : Within ok (x >>= f) s Q' R := by
  rwa [Within, bind_returned h]

lemma onThrow {guard : Code σ Unit} {T : σ → Prop} (h : Within ok x s Q R)
    (hguard : ∀ s', R s' → Within ok guard s' (fun _ s'' => T s'') (fun _ => True)) :
    Within ok (x.onThrow guard) s Q T := by
  rw [Within] at h
  rw [Within, Code.onThrow]
  cases hx : x s with
  | returned b s' =>
    rw [hx] at h
    exact h
  | threw s' =>
    rw [hx] at h
    have hg := hguard s' h
    rw [Within] at hg
    cases hgs : guard s' <;> simp only [hgs] at hg ⊢
    · exact hg
    · exact hg
  | terminated => exact True.intro
  | fault why =>
    rw [hx] at h
    exact h

lemma noexcept {c : Bool} (h : Within ok x s Q R) : Within ok (x.noexcept c) s Q R := by
  rw [Within] at h
  rw [Within, Code.noexcept]
  cases hx : x s <;> rw [hx] at h
  · exact h
  · cases c
    · exact h
    · trivial
  · trivial
  · exact h

lemma loop (body : ℕ → Code σ Unit) (i n : ℕ) (Inv : ℕ → σ → Prop) (h : Inv i s)
    (hstep : ∀ k t, i ≤ k → k < i + n → Inv k t →
      Within ok (body k) t (fun _ t' => Inv (k + 1) t') R) :
    Within ok (Code.loop body i n) s (fun _ s' => Inv (i + n) s') R := by
  induction n generalizing i s with
  | zero => exact h
  | succ n ih =>
    rw [Code.loop]
    refine (hstep i s le_rfl (by omega) h).bind ?_
    intro _ t ht
    have hrest := ih (i + 1) ht (fun k t' hk hkn => hstep k t' (by omega) (by omega))
    rwa [show i + 1 + n = i + (n + 1) from by omega] at hrest

end Within

end Code

end Cxx
