import Mathlib.Algebra.Order.BigOperators.Group.Finset
import Mathlib.Data.Fintype.BigOperators
import Voxory.Machine

/-!
# Threads over a shared state

Threads take turns on a shared state, each at a point of its own in its program. A discipline says
what holds of the shared state, what a thread relies on where it is and which points do not go
together; a turn that keeps it for its own thread and spares what the others rely on keeps it for
all. Bookkeeping that is no part of the state may be chosen anew in every turn.
-/

open Machine

/-- The shared state, and where each thread is. -/
structure Crowd (τ σ π : Type) where
  shared : σ
  point : τ → π

namespace Crowd

variable {τ σ π ℓ γ : Type} [DecidableEq τ]

/-- The thread `t` has gone on, and left this shared state. -/
def place (s : Crowd τ σ π) (t : τ) (o : σ × π) : Crowd τ σ π :=
  ⟨o.1, Function.update s.point t o.2⟩

/-- A thread takes its turn. -/
def next (turn : Crowd τ σ π → τ → ℓ → Option (σ × π)) (s : Crowd τ σ π) (l : τ × ℓ) :
    Option (Crowd τ σ π) :=
  (turn s l.1 l.2).map (s.place l.1)

variable {turn : Crowd τ σ π → τ → ℓ → Option (σ × π)} {s s' : Crowd τ σ π} {t : τ} {o : σ × π}

@[simp] lemma place_shared : (s.place t o).shared = o.1 := rfl

@[simp] lemma place_self : (s.place t o).point t = o.2 := Function.update_self _ _ _

@[simp] lemma place_other {t' : τ} (h : t' ≠ t) : (s.place t o).point t' = s.point t' :=
  Function.update_of_ne h _ _

/-- What threads rely on, over bookkeeping `γ`. -/
structure Discipline (τ σ π γ : Type) where
  Inv : γ → σ → Prop
  Fits : γ → σ → τ → π → Prop
  Apart : π → π → Prop

namespace Discipline

/-- With the bookkeeping `g` the shared state is in order and every thread at a point that fits. -/
structure HoldsWith (D : Discipline τ σ π γ) (g : γ) (s : Crowd τ σ π) : Prop where
  inv : D.Inv g s.shared
  fits : ∀ t, D.Fits g s.shared t (s.point t)
  apart : ∀ t t', t ≠ t' → D.Apart (s.point t) (s.point t')

def Holds (D : Discipline τ σ π γ) (s : Crowd τ σ π) : Prop := ∃ g, D.HoldsWith g s

/-- A turn of the thread `t` that leads to `o` keeps the discipline: it leaves the shared state in
order and its thread at a point that fits, and what the other threads rely on. -/
structure Keeps (D : Discipline τ σ π γ) (g : γ) (s : Crowd τ σ π) (t : τ) (o : σ × π) (g' : γ) :
    Prop where
  inv : D.Inv g' o.1
  fits : D.Fits g' o.1 t o.2
  spares : ∀ t', t' ≠ t → D.Fits g' o.1 t' (s.point t')
  apart : ∀ t', t' ≠ t → D.Apart o.2 (s.point t') ∧ D.Apart (s.point t') o.2

variable {D : Discipline τ σ π γ} {g g' : γ}

lemma HoldsWith.place (h : D.HoldsWith g s) (hk : D.Keeps g s t o g') :
    D.HoldsWith g' (s.place t o) where
  inv := hk.inv
  fits t' := by
    by_cases htt : t' = t
    · rw [htt, place_self]
      exact hk.fits
    · rw [place_other htt]
      exact hk.spares t' htt
  apart t₁ t₂ hne := by
    by_cases h₁ : t₁ = t
    · rw [h₁] at hne ⊢
      rw [place_self, place_other (Ne.symm hne)]
      exact (hk.apart t₂ (Ne.symm hne)).1
    · by_cases h₂ : t₂ = t
      · rw [h₂, place_self, place_other h₁]
        exact (hk.apart t₁ h₁).2
      · rw [place_other h₁, place_other h₂]
        exact h.apart t₁ t₂ hne

/-- The rule for a whole crowd, of turns that are good where they are taken. -/
theorem run_holds {good : Crowd τ σ π → τ × ℓ → Prop}
    (hturn : ∀ g s t l o, D.HoldsWith g s → good s (t, l) → turn s t l = some o →
      ∃ g', D.Keeps g s t o g')
    {ls : List (τ × ℓ)} (h : D.Holds s) (hgood : Along (next turn) good s ls)
    (hrun : run (next turn) s ls = some s') : D.Holds s' := by
  refine run_invariant D.Holds ?_ h hgood hrun
  rintro s l s' ⟨g, hg⟩ hl hnext
  obtain ⟨o, ho, rfl⟩ := Option.map_eq_some_iff.mp hnext
  obtain ⟨g', hk⟩ := hturn g s l.1 l.2 o hg hl ho
  exact ⟨g', hg.place hk⟩

end Discipline

/-! ### Coming to rest -/

section Rest

variable {ok : ℓ → Prop}

/-- Turns of the thread `t` alone lead from `s` to `s'`, of those that are `ok`. -/
structure Leads (turn : Crowd τ σ π → τ → ℓ → Option (σ × π)) (ok : ℓ → Prop) (t : τ)
    (s s' : Crowd τ σ π) : Prop where
  run : ∃ ls, (∀ l ∈ ls, ok l.2) ∧ run (next turn) s ls = some s'
  others : ∀ t', t' ≠ t → s'.point t' = s.point t'

lemma Leads.refl (s : Crowd τ σ π) : Leads turn ok t s s :=
  ⟨⟨[], List.forall_mem_nil _, rfl⟩, fun _ _ => rfl⟩

lemma Leads.cons {s₁ : Crowd τ σ π} {l : ℓ} (hok : ok l) (hl : turn s t l = some o)
    (h : Leads turn ok t (s.place t o) s₁) : Leads turn ok t s s₁ := by
  obtain ⟨⟨ls, hls, hrun⟩, hothers⟩ := h
  refine ⟨⟨(t, l) :: ls, List.forall_mem_cons.mpr ⟨hok, hls⟩,
    run_cons.mpr ⟨_, by rw [next, hl]; rfl, hrun⟩⟩, fun t' htt => ?_⟩
  rw [hothers t' htt, place_other htt]

lemma Leads.trans {s₁ : Crowd τ σ π} (h : Leads turn ok t s s') (h' : Leads turn ok t s' s₁) :
    Leads turn ok t s s₁ := by
  obtain ⟨⟨ls, hls, hrun⟩, hothers⟩ := h
  obtain ⟨⟨ms, hms, hrun'⟩, hothers'⟩ := h'
  exact ⟨⟨ls ++ ms, List.forall_mem_append.mpr ⟨hls, hms⟩, run_append hrun hrun'⟩,
    fun t' htt => (hothers' t' htt).trans (hothers t' htt)⟩

/-- Where the points have ranks, and some thread can always come to a point of lower rank without
the others, all threads come to rest. -/
theorem all_rest [Fintype τ] {Good : Crowd τ σ π → Prop} {rest : π} (rank : π → ℕ)
    (hone : ∀ s, Good s → (∃ t, s.point t ≠ rest) →
      ∃ t s', Leads turn ok t s s' ∧ Good s' ∧ rank (s'.point t) < rank (s.point t))
    (h : Good s) : ∃ ls s', (∀ l ∈ ls, ok l.2) ∧ run (next turn) s ls = some s' ∧ Good s' ∧
      ∀ t, s'.point t = rest := by
  induction hn : ∑ t, rank (s.point t) using Nat.strong_induction_on generalizing s with
  | _ n ih =>
  by_cases hall : ∀ t, s.point t = rest
  · exact ⟨[], s, List.forall_mem_nil _, rfl, h, hall⟩
  obtain ⟨t, s₁, ⟨⟨ls, hls, hrun⟩, hothers⟩, hgood, hlt⟩ := hone s h (not_forall.mp hall)
  have hfewer : ∑ t, rank (s₁.point t) < n := by
    rw [← hn]
    refine Finset.sum_lt_sum (fun u _ => ?_) ⟨t, Finset.mem_univ t, hlt⟩
    by_cases hut : u = t
    · rw [hut]
      exact hlt.le
    · rw [hothers u hut]
  obtain ⟨ms, s', hms, hrun', hgood', hrest⟩ := ih _ hfewer hgood rfl
  exact ⟨ls ++ ms, s', List.forall_mem_append.mpr ⟨hls, hms⟩, run_append hrun hrun', hgood', hrest⟩

end Rest

end Crowd
