import Mathlib.Data.List.Basic

/-!
# Runs of a machine

A machine takes a labelled step where it can. `Along` says that every step of a run meets a
condition at the state it is taken in; an invariant that such steps keep holds of every state
such a run reaches.
-/

namespace Machine

variable {σ ℓ τ : Type} {next : σ → ℓ → Option σ}

/-- The state after the steps of a list, if all of them can be taken. -/
def run (next : σ → ℓ → Option σ) : σ → List ℓ → Option σ
  | s, [] => some s
  | s, l :: ls => (next s l).bind (fun s' => run next s' ls)

/-- Every step of the run meets `good` where it is taken. -/
def Along (next : σ → ℓ → Option σ) (good : σ → ℓ → Prop) : σ → List ℓ → Prop
  | _, [] => True
  | s, l :: ls => good s l ∧ ∀ s', next s l = some s' → Along next good s' ls

instance decidableAlong {good : σ → ℓ → Prop} [∀ s l, Decidable (good s l)] :
    ∀ s ls, Decidable (Along next good s ls)
  | _, [] => .isTrue trivial
  | s, l :: ls =>
    match h : next s l with
    | none => decidable_of_iff (good s l) ⟨fun hg => ⟨hg, fun _ hs => by simp [h] at hs⟩, And.left⟩
    | some t =>
      have : Decidable (Along next good t ls) := decidableAlong t ls
      decidable_of_iff (good s l ∧ Along next good t ls)
        ⟨fun hg => ⟨hg.1, fun _ hs => Option.some.inj (h.symm.trans hs) ▸ hg.2⟩,
          fun hg => ⟨hg.1, hg.2 t h⟩⟩

def Reachable (next : σ → ℓ → Option σ) (s s' : σ) : Prop := ∃ ls, run next s ls = some s'

lemma run_cons {s s' : σ} {l : ℓ} {ls : List ℓ} :
    run next s (l :: ls) = some s' ↔ ∃ t, next s l = some t ∧ run next t ls = some s' :=
  Option.bind_eq_some_iff

lemma run_append {s t u : σ} {ls ms : List ℓ} (h : run next s ls = some t)
    (h' : run next t ms = some u) : run next s (ls ++ ms) = some u := by
  induction ls generalizing s with
  | nil =>
    cases h
    exact h'
  | cons l ls ih =>
    obtain ⟨v, hv, hrest⟩ := run_cons.mp h
    exact run_cons.mpr ⟨v, hv, ih hrest⟩

lemma along_mono {good good' : σ → ℓ → Prop} (hgood : ∀ s l, good s l → good' s l) {s : σ}
    {ls : List ℓ} (h : Along next good s ls) : Along next good' s ls := by
  induction ls generalizing s with
  | nil => trivial
  | cons l ls ih => exact ⟨hgood s l h.1, fun t ht => ih (h.2 t ht)⟩

lemma Along.and {good good' : σ → ℓ → Prop} {s : σ} {ls : List ℓ} (h : Along next good s ls)
    (h' : Along next good' s ls) : Along next (fun s l => good s l ∧ good' s l) s ls := by
  induction ls generalizing s with
  | nil => trivial
  | cons l ls ih => exact ⟨⟨h.1, h'.1⟩, fun t ht => ih (h.2 t ht) (h'.2 t ht)⟩

/-- Where the steps that meet `P` are good and lead nowhere else, and no others are good, the good runs
are those of such steps. -/
lemma along_iff_of_stay {good : σ → ℓ → Prop} {P : ℓ → Prop} {s : σ} {ls : List ℓ}
    (hstay : ∀ l ∈ ls, P l → next s l = some s ∧ good s l) (hbad : ∀ l ∈ ls, ¬P l → ¬good s l) :
    Along next good s ls ↔ ∀ l ∈ ls, P l := by
  induction ls with
  | nil => exact iff_of_true trivial (fun _ hl => nomatch hl)
  | cons l ls ih =>
    rw [List.forall_mem_cons] at hstay hbad ⊢
    have hrest := ih hstay.2 hbad.2
    constructor
    · intro h
      have hl : P l := by
        by_contra hl
        exact hbad.1 hl h.1
      exact ⟨hl, hrest.mp (h.2 s (hstay.1 hl).1)⟩
    · rintro ⟨hl, hls⟩
      refine ⟨(hstay.1 hl).2, fun t ht => ?_⟩
      rw [(hstay.1 hl).1] at ht
      cases ht
      exact hrest.mpr hls

/-- An invariant that good steps keep holds after a run of good steps. -/
theorem run_invariant {good : σ → ℓ → Prop} (Inv : σ → Prop)
    (hstep : ∀ s l s', Inv s → good s l → next s l = some s' → Inv s') {s s' : σ} {ls : List ℓ}
    (hs : Inv s) (hgood : Along next good s ls) (hrun : run next s ls = some s') : Inv s' := by
  induction ls generalizing s with
  | nil =>
    cases hrun
    exact hs
  | cons l ls ih =>
    obtain ⟨t, ht, hrest⟩ := run_cons.mp hrun
    exact ih (hstep s l t hs hgood.1 ht) (hgood.2 t ht) hrest

/-- An invariant that all steps keep. -/
theorem run_keeps (Inv : σ → Prop) (hstep : ∀ s l s', Inv s → next s l = some s' → Inv s')
    {s s' : σ} {ls : List ℓ} (hs : Inv s) (hrun : run next s ls = some s') : Inv s' := by
  induction ls generalizing s with
  | nil =>
    cases hrun
    exact hs
  | cons l ls ih =>
    obtain ⟨t, ht, hrest⟩ := run_cons.mp hrun
    exact ih (hstep s l t hs ht) hrest

/-- Where every good step keeps an invariant and raises a measure only if it meets `p`, by one, a
run of good steps raises it by no more than the number of its steps that meet `p`. -/
theorem run_countP {good : σ → ℓ → Prop} (Inv : σ → Prop) (measure : σ → ℕ) (p : ℓ → Bool)
    (hstep : ∀ s l s', Inv s → good s l → next s l = some s' →
      Inv s' ∧ measure s' ≤ measure s + if p l then 1 else 0)
    {s s' : σ} {ls : List ℓ} (hs : Inv s) (hgood : Along next good s ls)
    (hrun : run next s ls = some s') : Inv s' ∧ measure s' ≤ measure s + ls.countP p := by
  induction ls generalizing s with
  | nil =>
    cases hrun
    exact ⟨hs, Nat.le_refl _⟩
  | cons l ls ih =>
    obtain ⟨t, ht, hrest⟩ := run_cons.mp hrun
    obtain ⟨hInv, hl⟩ := hstep s l t hs hgood.1 ht
    obtain ⟨hInv', hls⟩ := ih hInv (hgood.2 t ht) hrest
    refine ⟨hInv', ?_⟩
    rw [List.countP_cons]
    omega

/-- Two conditions that agree where an invariant holds, which steps that meet them keep, are met
by the same runs. -/
theorem along_congr {base good good' : σ → ℓ → Prop} (Inv : σ → Prop)
    (hiff : ∀ s l, Inv s → base s l → (good s l ↔ good' s l))
    (hstep : ∀ s l s', Inv s → base s l → good' s l → next s l = some s' → Inv s')
    {s : σ} {ls : List ℓ} (hs : Inv s) (hbase : Along next base s ls) :
    Along next good s ls ↔ Along next good' s ls := by
  induction ls generalizing s with
  | nil => exact Iff.rfl
  | cons l ls ih =>
    have hl := hiff s l hs hbase.1
    constructor
    · intro h
      have hgood := hl.mp h.1
      exact ⟨hgood, fun t ht => (ih (hstep s l t hs hbase.1 hgood ht) (hbase.2 t ht)).mp (h.2 t ht)⟩
    · intro h
      exact ⟨hl.mpr h.1, fun t ht => (ih (hstep s l t hs hbase.1 h.1 ht) (hbase.2 t ht)).mpr
        (h.2 t ht)⟩

/-- A run of a machine whose steps are a relation. -/
inductive Steps (anext : τ → ℓ → τ → Prop) : τ → List ℓ → τ → Prop
  | nil (a : τ) : Steps anext a [] a
  | cons {a b c : τ} {l : ℓ} {ls : List ℓ} (step : anext a l b) (rest : Steps anext b ls c) :
      Steps anext a (l :: ls) c

/-- A simulation: where good steps are matched by steps of `anext`, so are runs of good steps. -/
theorem run_simulates {good : σ → ℓ → Prop} (R : σ → τ → Prop) (anext : τ → ℓ → τ → Prop)
    (hstep : ∀ s a l s', R s a → good s l → next s l = some s' → ∃ a', anext a l a' ∧ R s' a')
    {s s' : σ} {a : τ} {ls : List ℓ} (hR : R s a) (hgood : Along next good s ls)
    (hrun : run next s ls = some s') : ∃ a', Steps anext a ls a' ∧ R s' a' := by
  induction ls generalizing s a with
  | nil =>
    cases hrun
    exact ⟨a, .nil a, hR⟩
  | cons l ls ih =>
    obtain ⟨t, ht, hrest⟩ := run_cons.mp hrun
    obtain ⟨b, hab, hRb⟩ := hstep s a l t hR hgood.1 ht
    obtain ⟨c, hbc, hRc⟩ := ih hRb (hgood.2 t ht) hrest
    exact ⟨c, .cons hab hbc, hRc⟩

/-- Where every good step can be taken and is matched, so can every run of good steps. -/
theorem run_simulates_total {good : σ → ℓ → Prop} (R : σ → τ → Prop) (anext : τ → ℓ → τ → Prop)
    (hstep : ∀ s a l, R s a → good s l → ∃ s' a', next s l = some s' ∧ anext a l a' ∧ R s' a')
    {s : σ} {a : τ} {ls : List ℓ} (hR : R s a) (hgood : Along next good s ls) :
    ∃ s' a', run next s ls = some s' ∧ Steps anext a ls a' ∧ R s' a' := by
  induction ls generalizing s a with
  | nil => exact ⟨s, a, rfl, .nil a, hR⟩
  | cons l ls ih =>
    obtain ⟨t, b, ht, hab, hRb⟩ := hstep s a l hR hgood.1
    obtain ⟨u, c, hu, hbc, hRc⟩ := ih hRb (hgood.2 t ht)
    exact ⟨u, c, run_cons.mpr ⟨t, ht, hu⟩, .cons hab hbc, hRc⟩

/-- Where exactly the good steps can be taken, exactly the runs of good steps can. -/
theorem run_total_iff {base good : σ → ℓ → Prop} (Inv : σ → Prop)
    (hgood : ∀ s l, Inv s → base s l → good s l → ∃ s', next s l = some s' ∧ Inv s')
    (hbad : ∀ s l, Inv s → base s l → ¬good s l → next s l = none)
    {s : σ} {ls : List ℓ} (hs : Inv s) (hbase : Along next base s ls) :
    (∃ s', run next s ls = some s') ↔ Along next good s ls := by
  induction ls generalizing s with
  | nil => exact iff_of_true ⟨s, rfl⟩ trivial
  | cons l ls ih =>
    by_cases hl : good s l
    · obtain ⟨t, ht, hInv⟩ := hgood s l hs hbase.1 hl
      have hrest := ih hInv (hbase.2 t ht)
      constructor
      · rintro ⟨s', hrun⟩
        obtain ⟨u, hu, hls⟩ := run_cons.mp hrun
        cases ht.symm.trans hu
        refine ⟨hl, fun u hu => ?_⟩
        cases ht.symm.trans hu
        exact hrest.mp ⟨s', hls⟩
      · intro h
        obtain ⟨s', hls⟩ := hrest.mpr (h.2 t ht)
        exact ⟨s', run_cons.mpr ⟨t, ht, hls⟩⟩
    · refine iff_of_false ?_ (fun h => hl h.1)
      rintro ⟨s', hrun⟩
      obtain ⟨u, hu, -⟩ := run_cons.mp hrun
      rw [hbad s l hs hbase.1 hl] at hu
      cases hu

lemma along_of_forall {good : ℓ → Prop} {s : σ} {ls : List ℓ} (h : ∀ l ∈ ls, good l) :
    Along next (fun _ l => good l) s ls := by
  induction ls generalizing s with
  | nil => trivial
  | cons l ls ih =>
    exact ⟨h l List.mem_cons_self, fun _ _ => ih (fun m hm => h m (List.mem_cons_of_mem l hm))⟩

end Machine
