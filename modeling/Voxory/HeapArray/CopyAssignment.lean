import Voxory.HeapArray.Refinement

/-!
# Copy assignment within a program

When copy assignment leaves its source alone, when the target becomes the source's list, and
when a run that uses it destroys every element once and releases only what was allocated. The
target with no elements or too little room takes the source's elements away; a target with
elements and the source's capacity ignores an empty source; a source without elements and with
another capacity has the target's block released with its elements in it, or a block released
that was never allocated.
-/

namespace Voxory
open Cxx

namespace Pool

variable {α : Type}

open Objects HeapArray

/-- The pools that a program reaches in which no copy assignment is torn by an exception. -/
def Reachable (E : Element α) (p : Pool α) : Prop :=
  ∃ z ls, Machine.Along (next E) (fun p l => l.2.Whole E (p.arm l.1)) (start z) ls ∧
    Machine.run (next E) (start z) ls = some p

variable {p p' : Pool α} {M : Contents α} {E : Element α} {x y : ℕ} {a b : HeapArray}

lemma next_legal {l : Option ℕ × Action α} (hn : next E p l = some p') : l.2.Legal p := by
  by_contra hnot
  rw [next, if_neg hnot] at hn
  cases hn

lemma next_models {l : Option ℕ × Action α} (h : p.Models M) (hwhole : l.2.Whole E (p.arm l.1))
    (hn : next E p l = some p') :
    (∃ M', p'.Models M') ∧ (l.2.Orderly E (p.arm l.1) → p.mem.Tidy → p'.mem.Tidy) := by
  have hends := Action.ends (E := E) (h.arm l.1) (show l.2.Legal (p.arm l.1) from next_legal hn)
    hwhole
  have htidy : p.mem.Tidy → (p.arm l.1).mem.Tidy := fun ht => ⟨ht.lifetimes, ht.blocks⟩
  rcases next_ends hends hn with ⟨hM, hkeep⟩ | ⟨-, ⟨M', hM, -⟩, hkeep⟩
  · exact ⟨⟨_, hM⟩, fun hord ht => hkeep.tidy hord (htidy ht)⟩
  · exact ⟨⟨M', hM⟩, fun hord ht => hkeep.tidy hord (htidy ht)⟩

lemma Reachable.models (h : Reachable E p) : ∃ M, p.Models M := by
  obtain ⟨z, ls, hgood, hrun⟩ := h
  refine Machine.run_invariant (fun p : Pool α => ∃ M, p.Models M) ?_ ⟨_, Models.start z⟩
    hgood hrun
  rintro q l q' ⟨M, hM⟩ hwhole hn
  exact (next_models hM hwhole hn).1

/-- Every run whose steps are whole and orderly, and that ends with the destruction of all its
arrays, destroys every element it constructs exactly once and releases only blocks that are
allocated, at their length. -/
theorem run_balanced (E : Element α) (z : Bool) (ls : List (Option ℕ × Action α))
    (hgood : Machine.Along (next E)
      (fun p l => l.2.Whole E (p.arm l.1) ∧ l.2.Orderly E (p.arm l.1)) (start z) ls)
    (hrun : Machine.run (next E) (start z) ls = some p) (hend : ∀ x, p.obj x = none) :
    (∀ q, lifetime q p.mem.trace = some false) ∧ outstanding p.mem.trace ≠ none := by
  obtain ⟨⟨M, hM⟩, htidy⟩ := Machine.run_invariant
    (fun p : Pool α => (∃ M, p.Models M) ∧ p.mem.Tidy)
    (fun q l q' hq hgood hn => by
      obtain ⟨⟨M, hM⟩, ht⟩ := hq
      have hstep := next_models hM hgood.1 hn
      exact ⟨hstep.1, hstep.2 hgood.2 ht⟩)
    ⟨⟨_, Models.start z⟩, Memory.empty_tidy none z⟩ hgood hrun
  have hnone : ∀ q, p.mem.object q = none := by
    intro q
    by_contra hq
    obtain ⟨x, a, ha, -⟩ := hM.owned q (Option.isSome_iff_ne_none.mpr hq)
    rw [hend x] at ha
    cases ha
  refine ⟨fun q => ?_, fun hout => ?_⟩
  · rw [htidy.lifetimes, hnone]
    rfl
  · obtain ⟨l, hl, -⟩ := htidy.blocks
    rw [hl] at hout
    cases hout

lemma whole_of_calm (act : Action α) (p : Pool α) : act.Whole E (p.arm none) := by
  cases act <;> try trivial
  rintro - a - o - ⟨-, -, -, k, hk, -⟩
  cases hk

lemma copyAssign_models (h : p.Models M) (hx : (p.obj x).isSome) (hy : (p.obj y).isSome)
    {k : Option ℕ} (hrun : copyAssign E x y (p.arm k) = .returned () p') :
    p'.Models ((Action.copyAssign x y).apply E M) := by
  have hends := Action.copyAssign_ends_or_torn (E := E) (h.arm k) hx hy
  rw [Code.Ends, Action.code, hrun] at hends
  exact hends.1

lemma copyAssign_calm (h : p.Models M) (hx : (p.obj x).isSome) (hy : (p.obj y).isSome) :
    ∃ p', copyAssign E x y (p.arm none) = .returned () p' := by
  have hends := Action.copyAssign_ends (E := E) (h.arm none) hx hy
    (whole_of_calm _ p)
  obtain ⟨_, p', hrun, -⟩ := hends.returns (fun _ hR => hR.1 rfl)
  exact ⟨p', hrun⟩

/-- `x = y` leaves the elements and the capacity of `y` alone exactly when `x` and `y` are one
array, when the target is not rebuilt, or when being moved from does not change the elements. -/
theorem copyAssign_source_iff (h : Reachable E p) (hx : p.obj x = some b) (hy : p.obj y = some a) :
    (∃ p', copyAssign E x y (p.arm none) = .returned () p') ∧
    ∀ k p', copyAssign E x y (p.arm k) = .returned () p' →
      (p'.view y = p.view y ↔
        x = y ∨ ¬Rebuilds b a ∨ ∀ v, some v ∈ p.elements a → E.movedFrom v = v) := by
  obtain ⟨M, hM⟩ := h.models
  have hxs : (p.obj x).isSome := by rw [hx]; rfl
  have hys : (p.obj y).isSome := by rw [hy]; rfl
  refine ⟨copyAssign_calm hM hxs hys, fun k p' hrun => ?_⟩
  have hM' := copyAssign_models hM hxs hys hrun
  rw [hM'.view_eq, hM.view_eq]
  by_cases hxy : x = y
  · rw [Action.apply, if_pos hxy]
    exact ⟨fun _ => Or.inl hxy, fun _ => rfl⟩
  obtain ⟨vs, hMx, hvs⟩ := hM.at_some hx
  obtain ⟨us, hMy, hus⟩ := hM.at_some hy
  have hbsize : b.size = vs.length := hvs.size_eq
  have hasize : a.size = us.length := hus.size_eq
  have hyx : y ≠ x := Ne.symm hxy
  have hsame : ∀ (N : Contents α) c, Contents.view (Function.update N x c) y = N.view y := by
    intro N c
    rw [Contents.view, Contents.view, Function.update_of_ne hyx]
  rw [Action.apply, if_neg hxy]
  simp only [Action.copyAssigned, hMx, hMy]
  by_cases hrebuild : Rebuilds b a
  · have hlen : us.length ≠ 0 := fun hz => hrebuild.1 (by omega)
    rw [if_neg hlen, if_pos (by have := hrebuild.2; omega), hsame]
    have hview : Contents.view (Function.update M y (some (us.map E.movedFrom, a.capacity))) y =
        Contents.view M y ↔ us.map E.movedFrom = us := by
      simp only [Contents.view, Function.update_self, hMy, Option.map_some, Option.some.injEq,
        Prod.mk.injEq, and_true]
      exact (List.map_injective_iff.mpr (Option.some_injective α)).eq_iff
    have hmoved : us.map E.movedFrom = us ↔ ∀ v ∈ us, E.movedFrom v = v := by
      simpa using List.map_inj_left (l := us) (f := E.movedFrom) (g := id)
    rw [hview, hmoved, elements_eq hus]
    simp [hxy, hrebuild]
  · refine iff_of_true ?_ (Or.inr (Or.inl hrebuild))
    by_cases hlen : us.length = 0
    · rw [if_pos hlen]
      split_ifs
      · rfl
      · exact hsame _ _
    · rw [if_neg hlen, if_neg (fun hr => hrebuild ⟨by omega, by omega⟩)]
      exact hsame _ _

/-- After `x = y` the target's elements are those `y` had, within the target's capacity, exactly
when it is not the case that `y` has none, `x` has some and the capacities agree. -/
theorem copyAssign_target_iff (h : Reachable E p) (hxy : x ≠ y) (hx : p.obj x = some b)
    (hy : p.obj y = some a) :
    (∃ p', copyAssign E x y (p.arm none) = .returned () p') ∧
    ∀ k p', copyAssign E x y (p.arm k) = .returned () p' →
      (((p'.view x).map Prod.fst = (p.view y).map Prod.fst ∧
          ∀ b', p'.obj x = some b' → b'.size ≤ b'.capacity) ↔
        ¬(a.size = 0 ∧ b.size ≠ 0 ∧ a.capacity = b.capacity)) := by
  obtain ⟨M, hM⟩ := h.models
  have hxs : (p.obj x).isSome := by rw [hx]; rfl
  have hys : (p.obj y).isSome := by rw [hy]; rfl
  refine ⟨copyAssign_calm hM hxs hys, fun k p' hrun => ?_⟩
  have hM' := copyAssign_models hM hxs hys hrun
  have hfits : ∀ b', p'.obj x = some b' → b'.size ≤ b'.capacity := by
    intro b' hb'
    obtain ⟨ws, -, hws⟩ := hM'.at_some hb'
    exact hws.size_eq ▸ hws.size_le
  rw [hM'.view_eq, hM.view_eq, and_iff_left hfits]
  obtain ⟨vs, hMx, hvs⟩ := hM.at_some hx
  obtain ⟨us, hMy, hus⟩ := hM.at_some hy
  have hbsize : b.size = vs.length := hvs.size_eq
  have hasize : a.size = us.length := hus.size_eq
  have hset : ∀ (M : Contents α) c cap,
      (Contents.view (Function.update M x (some (c, cap))) x).map Prod.fst = some (c.map some) := by
    intro M c cap
    simp [Contents.view]
  have hsource : (Contents.view M y).map Prod.fst = some (us.map some) := by
    simp [Contents.view, hMy]
  rw [Action.apply, if_neg hxy, hsource]
  simp only [Action.copyAssigned, hMx, hMy]
  by_cases hlen : us.length = 0
  · have hnil : us = [] := List.length_eq_zero_iff.mp hlen
    rw [if_pos hlen, hnil]
    by_cases hcap : a.capacity = b.capacity
    · rw [if_pos hcap]
      simp only [Contents.view, hMx, Option.map_some, Option.some.injEq, List.map_nil,
        List.map_eq_nil_iff, hasize, hbsize, hlen, hcap, true_and, and_true, not_not, ne_eq,
        List.length_eq_zero_iff]
    · rw [if_neg hcap, hset]
      exact iff_of_true rfl (fun hbad => hcap hbad.2.2)
  · refine iff_of_true ?_ (fun hbad => hlen (by omega))
    rw [if_neg hlen]
    split_ifs
    · exact hset _ us _
    · exact hset _ us _

lemma reachable_of_calm {z : Bool} {ls : List (Option ℕ × Action α)} (hcalm : ∀ l ∈ ls, l.1 = none)
    (hrun : Machine.run (next E) (start z) ls = some p) : Reachable E p := by
  refine ⟨z, ls, Machine.along_mono (fun q l hl => ?_) (Machine.along_of_forall hcalm), hrun⟩
  rw [hl]
  exact whole_of_calm l.2 q

lemma run_computes {z : Bool} {ls : List (Option ℕ × Action α)} (hcalm : ∀ l ∈ ls, l.1 = none)
    (hrun : Machine.run (next E) (start z) ls = some p) :
    p.Models (ls.foldl (fun M l => l.2.apply E M) (fun _ => none)) := by
  suffices hgen : ∀ q M, q.Models M → Machine.run (next E) q ls = some p →
      p.Models (ls.foldl (fun M l => l.2.apply E M) M) from hgen _ _ (Models.start z) hrun
  clear hrun
  induction ls with
  | nil =>
    intro q M hM hrun
    cases hrun
    exact hM
  | cons l ls ih =>
    intro q M hM hrun
    obtain ⟨t, ht, hrest⟩ := Machine.run_cons.mp hrun
    obtain ⟨k, act⟩ := l
    obtain rfl : k = none := hcalm _ List.mem_cons_self
    have hends := Action.ends (E := E) (hM.arm none)
      (show act.Legal (q.arm none) from next_legal ht) (whole_of_calm act q)
    rcases next_ends hends ht with ⟨hM', -⟩ | ⟨hne, -⟩
    · exact ih (fun l hl => hcalm l (List.mem_cons_of_mem _ hl)) t _ hM' hrest
    · exact absurd rfl hne

/-! ### What goes wrong -/

/-- An element type whose moved-from objects have the value 0. -/
def emptied : Element ℕ := Element.plain 0 (fun _ => 0)

/-- Reads a fact about a concrete run and the code called after it off its evaluation. -/
lemma eval_after_run {ℓ γ : Type} (step : Pool ℕ → ℓ → Option (Pool ℕ)) (x : Code (Pool ℕ) Unit)
    (ls : List ℓ) (f : Pool ℕ → Pool ℕ → γ) (c : γ)
    (h : (Machine.run step (start true) ls).bind
      (fun p => (x (p.arm none)).state?.map (f p)) = some c) :
    ∃ p p', Machine.run step (start true) ls = some p ∧ x (p.arm none) = .returned () p' ∧
      f p p' = c := by
  obtain ⟨p, hp, hrest⟩ := Option.bind_eq_some_iff.mp h
  obtain ⟨p', hp', hf⟩ := Option.map_eq_some_iff.mp hrest
  obtain ⟨_, hrun⟩ := Outcome.state?_eq_some.mp hp'
  exact ⟨p, p', hp, hrun, hf⟩

/-- Assigning to an array that owns no block moves the elements out of the source. -/
theorem copyAssign_empties_source : ∃ p p' : Pool ℕ,
    Machine.run (next emptied) (start true) [(none, .filled 0 2 7), (none, .default 1)] = some p ∧
    copyAssign emptied 1 0 (p.arm none) = .returned () p' ∧
    p.view 0 = some ([some 7, some 7], 2) ∧ p'.view 0 = some ([some 0, some 0], 2) := by
  obtain ⟨p, p', hp, hrun, hview⟩ := eval_after_run (next emptied) (copyAssign emptied 1 0)
    [(none, .filled 0 2 7), (none, .default 1)] (fun p p' => (p.view 0, p'.view 0))
    (some ([some 7, some 7], 2), some ([some 0, some 0], 2)) (by decide +kernel)
  exact ⟨p, p', hp, hrun, congrArg Prod.fst hview, congrArg Prod.snd hview⟩

/-- `copyAssign_source_iff` at such an assignment. -/
theorem copyAssign_source_iff_sample : ∃ (p p' : Pool ℕ) (b a : HeapArray),
    p.obj 1 = some b ∧ p.obj 0 = some a ∧ copyAssign emptied 1 0 (p.arm none) = .returned () p' ∧
    (p'.view 0 = p.view 0 ↔
      1 = 0 ∨ ¬Rebuilds b a ∨ ∀ v, some v ∈ p.elements a → emptied.movedFrom v = v) := by
  obtain ⟨p, p', hp, hrun, harr⟩ := eval_after_run (next emptied) (copyAssign emptied 1 0)
    [(none, .filled 0 2 7), (none, .default 1)] (fun p _ => (p.obj 1, p.obj 0))
    (some ⟨.null, .null, 0⟩, some ⟨⟨some 0, 0⟩, ⟨some 0, 2⟩, 2⟩) (by decide +kernel)
  have hb := congrArg Prod.fst harr
  have ha := congrArg Prod.snd harr
  exact ⟨p, p', _, _, hb, ha, hrun,
    (copyAssign_source_iff (reachable_of_calm (by simp) hp) hb ha).2 none p' hrun⟩

/-- Assigning an empty array of the same capacity leaves the target's elements. -/
theorem copyAssign_ignores_source : ∃ p p' : Pool ℕ,
    Machine.run (next emptied) (start true)
      [(none, .default 0), (none, .reserve 0 1), (none, .filled 1 1 7)] = some p ∧
    copyAssign emptied 1 0 (p.arm none) = .returned () p' ∧
    p.view 0 = some ([], 1) ∧ p'.view 1 = some ([some 7], 1) := by
  obtain ⟨p, p', hp, hrun, hview⟩ := eval_after_run (next emptied) (copyAssign emptied 1 0)
    [(none, .default 0), (none, .reserve 0 1), (none, .filled 1 1 7)]
    (fun p p' => (p.view 0, p'.view 1)) (some ([], 1), some ([some 7], 1)) (by decide +kernel)
  exact ⟨p, p', hp, hrun, congrArg Prod.fst hview, congrArg Prod.snd hview⟩

/-- `copyAssign_target_iff` at such an assignment. -/
theorem copyAssign_target_iff_sample : ∃ (p p' : Pool ℕ) (b a : HeapArray),
    p.obj 1 = some b ∧ p.obj 0 = some a ∧ copyAssign emptied 1 0 (p.arm none) = .returned () p' ∧
    (((p'.view 1).map Prod.fst = (p.view 0).map Prod.fst ∧
        ∀ b', p'.obj 1 = some b' → b'.size ≤ b'.capacity) ↔
      ¬(a.size = 0 ∧ b.size ≠ 0 ∧ a.capacity = b.capacity)) := by
  obtain ⟨p, p', hp, hrun, harr⟩ := eval_after_run (next emptied) (copyAssign emptied 1 0)
    [(none, .default 0), (none, .reserve 0 1), (none, .filled 1 1 7)]
    (fun p _ => (p.obj 1, p.obj 0))
    (some ⟨⟨some 1, 0⟩, ⟨some 1, 1⟩, 1⟩, some ⟨⟨some 0, 0⟩, ⟨some 0, 0⟩, 1⟩) (by decide +kernel)
  have hb := congrArg Prod.fst harr
  have ha := congrArg Prod.snd harr
  exact ⟨p, p', _, _, hb, ha, hrun,
    (copyAssign_target_iff (reachable_of_calm (by simp) hp) (by decide) hb ha).2 none p' hrun⟩

/-- A default-constructed array is assigned an empty one with reserved storage. -/
def releasingRun : List (Option ℕ × Action ℕ) :=
  [(none, .default 0), (none, .default 1), (none, .reserve 1 3), (none, .copyAssign 0 1),
    (none, .destroy 0), (none, .destroy 1)]

/-- All arrays of `releasingRun` are destroyed, but it releases a block that nobody allocated. -/
theorem releasingRun_unbalanced : ∃ p : Pool ℕ,
    Machine.run (next emptied) (start true) releasingRun = some p ∧ (∀ x, p.obj x = none) ∧
    outstanding p.mem.trace = none := by
  obtain ⟨p, hp, hout⟩ := Option.map_eq_some_iff.mp
    (show (Machine.run (next emptied) (start true) releasingRun).map
      (fun p => outstanding p.mem.trace) = some none by decide +kernel)
  refine ⟨p, hp, fun x => ?_, hout⟩
  rw [(run_computes (by simp [releasingRun]) hp).none_iff]
  by_cases h0 : x = 0 <;> by_cases h1 : x = 1 <;>
    simp [releasingRun, Action.apply, Action.copyAssigned, raised, h0, h1]

/-- A run that copies between arrays of all kinds and keeps the books. -/
def balancedRun : List (Option ℕ × Action ℕ) :=
  [(none, .filled 0 2 7), (none, .default 1), (none, .copyAssign 1 0), (none, .resize 0 1),
    (none, .copyAssign 1 0), (none, .clear 0), (none, .copyAssign 0 1), (none, .destroy 0), (none, .destroy 1)]

theorem balancedRun_balanced : ∃ p : Pool ℕ,
    Machine.run (next emptied) (start true) balancedRun = some p ∧
    (∀ q, lifetime q p.mem.trace = some false) ∧ outstanding p.mem.trace ≠ none := by
  obtain ⟨p, hp⟩ := Option.isSome_iff_exists.mp
    (show (Machine.run (next emptied) (start true) balancedRun).isSome = true by decide +kernel)
  refine ⟨p, hp, run_balanced emptied true balancedRun (by decide +kernel) hp (fun x => ?_)⟩
  rw [(run_computes (by simp [balancedRun]) hp).none_iff]
  by_cases h0 : x = 0 <;> by_cases h1 : x = 1 <;>
    simp [balancedRun, Action.apply, Action.copyAssigned, resized, raised, emptied, h0, h1]

end Pool

end Voxory
