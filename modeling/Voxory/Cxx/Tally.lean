import Voxory.Cxx.Storage
import Mathlib.Algebra.BigOperators.Intervals

/-!
# How often an event happens

The events of a piece of code that returns, counted one by one. The counts of consecutive pieces
add up, whatever else is in the memory.
-/

namespace Cxx

section Tally

variable {α ρ β γ : Type}

/-- Between `s` and `s'` every event `e` happened `g e` times. -/
def State.Tallies (s : State α ρ) (g : Event → ℕ) (s' : State α ρ) : Prop :=
  ∀ e, s'.mem.trace.count e = s.mem.trace.count e + g e

/-- Objects constructed in the `n` slots from `p` on, once each. -/
def built (p : Ptr) (n : ℕ) : Event → ℕ := ∑ i ∈ Finset.range n, Pi.single (.construct (p + i)) 1

/-- Objects destroyed in the `n` slots from `p` on, once each. -/
def razed (p : Ptr) (n : ℕ) : Event → ℕ := ∑ i ∈ Finset.range n, Pi.single (.destroy (p + i)) 1

variable {s s' t : State α ρ} {g h : Event → ℕ}

lemma built_add (p : Ptr) (m n : ℕ) : built p m + built (p + m) n = built p (m + n) := by
  simp only [built, Finset.sum_range_add, Ptr.add_add]

lemma built_other {p : Ptr} {n : ℕ} {e : Event} (he : ∀ q, e ≠ .construct q) : built p n e = 0 := by
  rw [built, Finset.sum_apply]
  exact Finset.sum_eq_zero (fun k _ => Pi.single_eq_of_ne (he _) 1)

lemma razed_destroy (p q : Ptr) (n : ℕ) : razed p n (.destroy q) =
    if q.block = p.block ∧ p.off ≤ q.off ∧ q.off < p.off + n then 1 else 0 := by
  induction n with
  | zero =>
    rw [razed, Finset.sum_range_zero, Pi.zero_apply, if_neg (by omega)]
  | succ n ih =>
    rw [razed, Finset.sum_range_succ, Pi.add_apply, ← razed, ih]
    by_cases hq : q = p + n
    · subst hq
      rw [Pi.single_eq_same, if_neg (by simp only [Ptr.add_off]; omega), if_pos (by simp)]
    · rw [Pi.single_eq_of_ne (by simpa using hq), Nat.add_zero]
      have hoff : q.block = p.block → q.off ≠ p.off + n := fun hb ho =>
        hq ((Ptr.ext_iff' _ _).mpr ⟨hb, ho⟩)
      refine if_congr ⟨fun h => ⟨h.1, h.2.1, by omega⟩, fun h => ⟨h.1, h.2.1, ?_⟩⟩ rfl rfl
      have := hoff h.1
      omega

namespace State.Tallies

lemma of_trace (ht : s'.mem.trace = s.mem.trace) : s.Tallies 0 s' := fun e => by
  rw [ht, Pi.zero_apply, Nat.add_zero]

lemma refl (s : State α ρ) : s.Tallies 0 s := of_trace rfl

lemma of_event {e : Event} (ht : s'.mem.trace = e :: s.mem.trace) : s.Tallies (Pi.single e 1) s' := by
  intro e'
  rw [ht]
  by_cases he : e' = e
  · subst he
    rw [List.count_cons_self, Pi.single_eq_same]
  · rw [List.count_cons_of_ne (Ne.symm he), Pi.single_eq_of_ne he, Nat.add_zero]

lemma trans (ht : s.Tallies g t) (ht' : t.Tallies h s') : s.Tallies (g + h) s' := fun e => by
  rw [ht' e, ht e, Pi.add_apply, Nat.add_assoc]

end State.Tallies

/-- When `x` returns from `s`, every event `e` has happened `g e` times. -/
def Code.Emits (x : Code (State α ρ) β) (s : State α ρ) (g : Event → ℕ) : Prop :=
  ∀ b s', x s = .returned b s' → s.Tallies g s'

namespace Code.Emits

variable {x : Code (State α ρ) β}

lemma pure {b : β} : (Pure.pure b : Code (State α ρ) β).Emits s 0 := by
  rintro _ s' hs
  cases hs
  exact .refl s

lemma undefined {why : Fault} : (Code.undefined why : Code (State α ρ) β).Emits s g :=
  fun _ _ hs => nomatch hs

lemma bind {f : β → Code (State α ρ) γ} (hx : x.Emits s g)
    (hf : ∀ b s', x s = .returned b s' → (f b).Emits s' h) : (x >>= f).Emits s (g + h) := by
  intro c s' hs
  obtain ⟨b, t, ht, hft⟩ := Code.bind_eq_returned.mp hs
  exact (hx b t ht).trans (hf b t ht c s' hft)

lemma bind_quiet {f : β → Code (State α ρ) γ} (hx : x.Emits s 0)
    (hf : ∀ b s', x s = .returned b s' → (f b).Emits s' g) : (x >>= f).Emits s g := by
  have hsum := hx.bind hf
  rwa [zero_add] at hsum

lemma then_quiet {f : β → Code (State α ρ) γ} (hx : x.Emits s g)
    (hf : ∀ b s', x s = .returned b s' → (f b).Emits s' 0) : (x >>= f).Emits s g := by
  have hsum := hx.bind hf
  rwa [add_zero] at hsum

lemma step {f : β → Code (State α ρ) γ} {b : β} (hx : x s = .returned b s)
    (hf : (f b).Emits s g) : (x >>= f).Emits s g := by
  intro c s' hs
  rw [Code.bind_returned hx] at hs
  exact hf c s' hs

lemma noexcept {c : Bool} (hx : x.Emits s g) : (x.noexcept c).Emits s g := by
  intro b s' hs
  rw [Code.noexcept] at hs
  cases hxs : x s with
  | returned b' t =>
    rw [hxs] at hs
    exact hx b s' (hxs.trans hs)
  | threw t =>
    rw [hxs] at hs
    cases c <;> cases hs
  | terminated =>
    rw [hxs] at hs
    cases hs
  | fault why =>
    rw [hxs] at hs
    cases hs

lemma onThrow {guard : Code (State α ρ) Unit} (hx : x.Emits s g) : (x.onThrow guard).Emits s g := by
  intro b s' hs
  rw [Code.onThrow] at hs
  cases hxs : x s with
  | returned b' t =>
    rw [hxs] at hs
    exact hx b s' (hxs.trans hs)
  | threw t =>
    simp only [hxs] at hs
    cases hg : guard t <;> rw [hg] at hs <;> cases hs
  | terminated =>
    rw [hxs] at hs
    cases hs
  | fault why =>
    rw [hxs] at hs
    cases hs

lemma loop {body : ℕ → Code (State α ρ) Unit} (G : ℕ → Event → ℕ)
    (hbody : ∀ k t, (body k).Emits t (G k)) (i n : ℕ) :
    (Code.loop body i n).Emits s (∑ k ∈ Finset.range n, G (i + k)) := by
  induction n generalizing i s with
  | zero => exact pure
  | succ n ih =>
    rw [Finset.sum_range_succ', Nat.add_zero i, add_comm _ (G i)]
    refine (hbody i s).bind (fun _ t _ => ?_)
    have hrest := ih (s := t) (i + 1)
    simp only [Nat.add_assoc, Nat.add_comm 1] at hrest
    exact hrest

end Code.Emits

lemma Code.Returns.tally {x : Code (State α ρ) β} {Q : β → State α ρ → Prop} (hx : x.Returns s Q)
    (hg : x.Emits s g) : x.Returns s (fun b s' => Q b s' ∧ s.Tallies g s') := by
  obtain ⟨b, s', hs, hQ⟩ := hx
  exact ⟨b, s', hs, hQ, hg b s' hs⟩

/-! ### The primitive operations -/

lemma setSelf_emits (r : ρ) : (setSelf r : Code (State α ρ) Unit).Emits s 0 := by
  rintro _ s' hs
  cases hs
  exact .of_trace rfl

lemma mayThrow_emits (b : Bool) : (mayThrow b : Code (State α ρ) Unit).Emits s 0 := by
  rintro _ s' hs
  cases b with
  | false =>
    cases hs
    exact .refl s
  | true =>
    rw [mayThrow, if_pos rfl] at hs
    cases hf : s.mem.fuse with
    | none =>
      rw [hf] at hs
      cases hs
      exact .refl s
    | some k =>
      rw [hf] at hs
      cases k with
      | zero => cases hs
      | succ k =>
        cases hs
        exact .of_trace rfl

lemma mayThrow_tallies (b : Bool) (s : State α ρ) : (mayThrow b).Within (fun _ => True) s
    (fun _ s' => s.Tallies 0 s' ∧ Spent b.toNat s.mem.fuse s'.mem.fuse)
    (fun s' => b = true ∧ s.Tallies 0 s' ∧ s.mem.fuse = some 0) := by
  rw [Code.Within, mayThrow]
  cases b with
  | false => exact ⟨.refl s, .refl _⟩
  | true =>
    rw [if_pos rfl]
    cases hf : s.mem.fuse with
    | none => exact ⟨.refl s, by simp [Spent, hf]⟩
    | some k =>
      cases k with
      | zero => exact ⟨rfl, .of_trace rfl, rfl⟩
      | succ k => exact ⟨.of_trace rfl, by simp [Spent]⟩

lemma allocate_emits {n : ℕ} {p : Ptr} (hs : allocate n s = .returned p s') :
    s.Tallies (Pi.single (.allocate p n) 1) s' := by
  obtain ⟨_, t, ht, htake⟩ := Code.bind_eq_returned.mp hs
  have hquiet := mayThrow_emits true _ _ ht
  rw [takeBlock] at htake
  have htally : t.Tallies (Pi.single (.allocate p n) 1) s' := by
    split_ifs at htake with hzero
    · cases htake
      rw [hzero.1]
      exact .of_event rfl
    · cases htake
      exact .of_event rfl
  have hsum := hquiet.trans htally
  rwa [zero_add] at hsum

lemma allocate_tallies (n : ℕ) (s : State α ρ) : (allocate n).Within (fun _ => True) s
    (fun p s' => s.Tallies (Pi.single (.allocate p n) 1) s') (fun s' => s.Tallies 0 s') := by
  rw [Code.Within]
  cases hs : allocate n s with
  | returned p s' => exact allocate_emits hs
  | threw s' =>
    have hthrow := mayThrow_tallies true s
    rw [Code.Within] at hthrow
    rw [allocate, Code.bind_run] at hs
    cases hm : (mayThrow true : Code (State α ρ) Unit) s with
    | returned _ t =>
      rw [hm] at hs
      change takeBlock n t = .threw s' at hs
      rw [takeBlock] at hs
      split_ifs at hs
    | threw t =>
      rw [hm] at hs hthrow
      cases hs
      exact hthrow.2.1
    | terminated =>
      rw [hm] at hs
      cases hs
    | fault why =>
      rw [hm] at hs
      cases hs
  | terminated => trivial
  | fault why => trivial

lemma deallocate_emits (p : Ptr) (n : ℕ) : (deallocate p n : Code (State α ρ) Unit).Emits s
    (Pi.single (.deallocate p n) 1) := by
  rintro _ s' hs
  cases hs
  exact .of_event rfl

lemma construct_emits (p : Ptr) (v : α) : (construct p v : Code (State α ρ) Unit).Emits s
    (Pi.single (.construct p) 1) := by
  rintro _ s' hs
  rw [construct] at hs
  split_ifs at hs
  cases hs
  exact .of_event rfl

lemma read_emits (p : Ptr) : (read p : Code (State α ρ) α).Emits s 0 := by
  rintro _ s' hs
  rw [read] at hs
  split_ifs at hs
  cases hv : s.mem.object p with
  | none =>
    rw [hv] at hs
    cases hs
  | some v =>
    rw [hv] at hs
    cases hs
    exact .refl s

lemma assign_emits (p : Ptr) (v : α) : (assign p v : Code (State α ρ) Unit).Emits s 0 := by
  rintro _ s' hs
  rw [assign] at hs
  split_ifs at hs
  cases hv : s.mem.object p with
  | none =>
    rw [hv] at hs
    cases hs
  | some w =>
    rw [hv] at hs
    cases hs
    exact .of_trace rfl

lemma destroy_emits (p : Ptr) : (destroy p : Code (State α ρ) Unit).Emits s
    (Pi.single (.destroy p) 1) := by
  rintro _ s' hs
  rw [destroy] at hs
  split_ifs at hs
  cases hv : s.mem.object p with
  | none =>
    rw [hv] at hs
    cases hs
  | some w =>
    rw [hv] at hs
    cases hs
    exact .of_event rfl

lemma store_object {p : Ptr} {v : α} (hs : store p v s = .returned () s') :
    s'.mem.object = Function.update s.mem.object p (some v) := by
  rw [store] at hs
  split_ifs at hs
  cases hv : s.mem.object p <;> rw [hv] at hs <;> cases hs <;> rfl

lemma store_emits (p : Ptr) (v : α) : (store p v : Code (State α ρ) Unit).Emits s
    (if s.mem.object p = none then Pi.single (.construct p) 1 else 0) := by
  rintro _ s' hs
  rw [store] at hs
  split_ifs at hs
  cases hv : s.mem.object p with
  | none =>
    rw [hv] at hs
    cases hs
    exact .of_event rfl
  | some w =>
    rw [hv] at hs
    cases hs
    exact .of_trace rfl

end Tally

end Cxx
