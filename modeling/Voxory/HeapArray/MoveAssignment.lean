import Voxory.HeapArray.CopyAssignment

/-!
# Move assignment between unequal allocators

Where the allocators compare equal, move assignment takes the source's block over. Where they do
not, `_assign` moves the elements one by one and the source is cleaned up afterwards. The second
way leaves the target alone when the source has no elements but the target's capacity.
-/

namespace Voxory
open Cxx

namespace HeapArray

variable {α : Type} {s : State α HeapArray} {E : Element α} {vs us : List α} {o : HeapArray}
  {f g : Ptr → Option α}

/-- An exception inside a move assignment that works in the target's own block, after a first
element was assigned. -/
def MoveTorn (E : Element α) (a o : HeapArray) (fuse : Option ℕ) : Prop :=
  (E.byteCopy || !E.moveAssignThrows) = false ∧ o.size ≠ 0 ∧ ¬Rebuilds a o ∧
    ∃ k ∈ fuse, 0 < k ∧ k < min a.size o.size

instance (E : Element α) (a o : HeapArray) (fuse : Option ℕ) : Decidable (MoveTorn E a o fuse) :=
  inferInstanceAs (Decidable (_ ∧ _ ∧ _ ∧ _))

lemma eq_spent {b : ℕ} (hfar : ∀ p, p.block ≠ o.first.block → p.block ≠ some b → g p = f p)
    (p : Ptr) (hp : p.block ≠ some b) : g p = spent f g o p := by
  rw [spent]
  split_ifs with hpo
  · rfl
  · exact hfar p hpo hp

lemma moveTorn_or_survives {b k : ℕ} {s' : State α HeapArray} (hw : s.mem.Wf)
    (h : Holds s.mem s.self vs) (hb : s.self.first.block = some b) (hfits : o.size ≤ s.self.capacity)
    (hthrow : (E.byteCopy || !E.moveAssignThrows) = false) (hk : k < min s.self.size o.size)
    (hbr : s.Breaks k (overlay (moveOverlay E.assigning s.mem.object o.first s.self.first k)
      s.self.first k (fun _ => none)) s') :
    MoveTorn E s.self o s.mem.fuse ∨
      (s.mem.fuse ≠ none ∧ ∃ f, Spends s.mem.object f o ∧ Survives s f s') := by
  by_cases hzero : k = 0
  · subst hzero
    rw [overlay_zero, moveOverlay, overlay_zero, overlay_zero] at hbr
    exact Or.inr ⟨by simp [hbr.blown], _, .refl _ _,
      .of_breaks vs hw h hbr hb rfl (h.object_eq hb) (fun _ _ => rfl)⟩
  · exact Or.inl ⟨hthrow, by omega, by simp only [Rebuilds]; omega, k, hbr.blown, by omega, hk⟩

/-- Every old element was assigned before a construction past them threw: what was assigned
stays. -/
lemma survives_moving {b k : ℕ} {s' : State α HeapArray} (hw : s.mem.Wf)
    (h : Holds s.mem s.self vs) (ho : Holds s.mem o us) (hb : s.self.first.block = some b)
    (hne : o.first.block ≠ some b) (hous : us ≠ []) (hle : vs.length ≤ us.length)
    (hmoved : Moved s.mem.object g o.first s.self.first vs.length)
    (hbr : s.Breaks k s'.mem.object s')
    (hlive : ∀ p, (s'.mem.object p).isSome = (g p).isSome)
    (hother : ∀ p, p.block ≠ o.first.block → s'.mem.object p = g p) :
    s.mem.fuse ≠ none ∧ ∃ f, Spends s.mem.object f o ∧ Survives s f s' := by
  refine ⟨by simp [hbr.blown], spent s.mem.object s'.mem.object o,
    spends_spent (fun p hp => by rw [hlive, hmoved.live p hp]),
    .of_breaks (us.take vs.length) hw h hbr hb (by rw [List.length_take]; omega) (fun i => ?_)
      (eq_spent (fun p hpo hp => ?_))⟩
  · rw [hother _ (Ne.symm hne), ← h.first_add hb]
    by_cases hi : i < vs.length
    · rw [hmoved.moved i hi, ho.object_at hous, List.getElem?_take_of_lt hi]
    · rw [hmoved.far _ (by simpa [hb] using Ne.symm hne) (by simp; omega), h.first_add hb,
        h.object_eq hb, List.getElem?_eq_none (by omega),
        List.getElem?_eq_none (by rw [List.length_take]; omega)]
  · rw [hother p hpo, hmoved.far p hpo (fun hin => hp (hin.1.trans hb))]

lemma inPlaceMove_ends {b : ℕ} (hw : s.mem.Wf) (h : Holds s.mem s.self vs) (ho : Holds s.mem o us)
    (hb : s.self.first.block = some b) (hne : o.first.block ≠ some b)
    (hus : us.length ≤ s.self.capacity) (hvs : vs ≠ []) (hous : us ≠ []) :
    (assignFrom E o Tag.moveTag).Ends s
      (fun _ s' => ∃ f, Spends s.mem.object f o ∧ Updates s f us s.self.capacity s')
      (fun s' => MoveTorn E s.self o s.mem.fuse ∨
        (s.mem.fuse ≠ none ∧ ∃ f, Spends s.mem.object f o ∧ Survives s f s')) := by
  have hsize := h.size_eq
  have hosize := ho.size_eq
  have hcap := h.size_le
  have hvpos : 0 < vs.length := List.length_pos_of_ne_nil hvs
  have hupos : 0 < us.length := List.length_pos_of_ne_nil hous
  have hdiff : o.first.block ≠ s.self.first.block := by rwa [hb]
  refine Code.Ends.step (b := s.self) rfl ?_
  rw [if_neg (by omega), if_neg (by omega)]
  by_cases hmore : o.size > s.self.size
  · rw [if_pos hmore, hsize, if_neg (by decide)]
    refine Code.Ends.bind ((moveAssignN_ends (E := E) hw hdiff (fun i hi => ho.live_at (by omega))
      (fun i hi => h.live_at hi)).mono (fun _ _ h => h) ?_) ?_
    · rintro s' ⟨hthrow, k, hk, hbr⟩
      exact moveTorn_or_survives hw h hb (by omega) hthrow (by omega) hbr
    rintro _ t ⟨rfl, ht⟩
    rw [if_neg (by decide)]
    have hmoved := moveOverlay_moved (E := E.assigning) (f := s.mem.object) (n := vs.length) hdiff
    rw [← ht.object] at hmoved
    refine Code.Ends.bind ((uninitializedMoveN_ends (E := E) (ht.wf hw) (fun i hi => ?_)
      (fun i hi => ?_) (fun i hi => ?_)).mono (fun _ _ h => h) ?_) ?_
    · rw [Ptr.add_add, hmoved.rest _ (by omega)]
      exact ho.live_at (by omega)
    · rw [ht.inBounds, Ptr.add_add, h.first_add hb]
      exact Memory.inBounds_iff.mpr ⟨b, _, rfl, h.extent_eq hb, by simp only; omega⟩
    · rw [Ptr.add_add, hmoved.far _ (by simpa using hdiff.symm) (by simp), h.object_at hvs,
        List.getElem?_eq_none (by omega)]
    · rintro s' ⟨_, k, _, hbr⟩
      have hbreak := ht.breaks hbr
      rw [← hbr.object] at hbreak
      refine Or.inr (survives_moving hw h ho hb hne hous (by omega) hmoved hbreak (fun p => ?_)
        (fun p hp => ?_))
      · rw [hbr.object, overlay_map_isSome]
      · rw [hbr.object, overlay_other (by simpa using hp)]
    · rintro _ u ⟨rfl, hu⟩
      have hall := hmoved.trans hdiff (moveOverlay_moved (E := E) (n := o.size - vs.length)
        (by simpa using hdiff))
      rw [show vs.length + (o.size - vs.length) = us.length by omega] at hall
      have hself : u.self = s.self := hu.self.trans ht.self
      refine Code.Ends.of_returns (setSelf_returns ?_)
      refine ⟨_, spends_spent hall.live, ?_⟩
      have hup := Updates.inPlace us hw h (ht.trans hu) hb hus (fun i => ?_)
        (eq_spent (fun p hp hpb => hall.far p hp (fun hin => hpb (hin.1.trans hb))))
      · rwa [Ptr.add_add, show vs.length + (o.size - vs.length) = us.length by omega]
      · rw [← h.first_add hb]
        by_cases hi : i < us.length
        · rw [hall.moved i hi, ho.object_at hous]
        · rw [hall.far _ (by simpa using hdiff.symm) (by simp; omega), h.object_at hvs,
            List.getElem?_eq_none (by omega), List.getElem?_eq_none (by omega)]
  · rw [if_neg hmore, if_neg (by decide)]
    refine Code.Ends.bind ((moveAssignN_ends (E := E) hw hdiff (fun i hi => ho.live_at (by omega))
      (fun i hi => h.live_at (by omega))).mono (fun _ _ h => h) ?_) ?_
    · rintro s' ⟨hthrow, k, hk, hbr⟩
      exact moveTorn_or_survives hw h hb (by omega) hthrow (by omega) hbr
    rintro _ t ⟨rfl, ht⟩
    have hmoved := moveOverlay_moved (E := E.assigning) (f := s.mem.object) (n := o.size) hdiff
    rw [← ht.object] at hmoved
    have htrim := trim_returns us hw h (t := t) (by rwa [ht.object]) hb (by omega)
      (fun i hi => ?_) (fun i hi => ?_)
      (eq_spent (o := o) (fun p hp hpb => hmoved.far p hp (fun hin => hpb (hin.1.trans hb))))
    · rw [Ptr.add_add, show o.size + (s.self.size - o.size) = vs.length by omega, hosize]
      exact Code.Ends.of_returns (htrim.mono (fun _ _ hs' => ⟨_, spends_spent hmoved.live, hs'⟩))
    · rw [hmoved.moved i (by omega), ho.object_at hous]
    · rw [hmoved.far _ (by simpa using hdiff.symm) (by simp; omega), h.object_at hvs]

lemma assignFrom_move_ends (hw : s.mem.Wf) (h : Holds s.mem s.self vs) (ho : Holds s.mem o us)
    (hdiff : ∀ b, o.first.block = some b → s.self.first.block ≠ some b) :
    (assignFrom E o Tag.moveTag).Ends s
      (fun _ s' => ∃ f, Spends s.mem.object f o ∧
        Leaves s f (assigned s.self o vs us) (assignedCapacity s.self o) s')
      (fun s' => MoveTorn E s.self o s.mem.fuse ∨
        (s.mem.fuse ≠ none ∧ ∃ f ws cap, Spends s.mem.object f o ∧ Leaves s f ws cap s')) := by
  have hsize := h.size_eq
  have hosize := ho.size_eq
  by_cases hzero : o.size = 0
  · have hnil : us = [] := List.length_eq_zero_iff.mp (by omega)
    subst hnil
    have hrebuild : ¬Rebuilds s.self o := fun hr => hr.1 hzero
    rw [assignFrom]
    refine Code.Ends.step (b := s.self) rfl ?_
    rw [if_pos (Or.inr hzero), if_neg (by simp [hzero])]
    by_cases hcap : o.capacity = s.self.capacity
    · rw [if_neg (by simp [hcap]), assigned, if_pos ⟨hzero, hcap⟩, assignedCapacity,
        if_neg (fun hr => hr.elim hrebuild (fun hd => hd.2 hcap))]
      exact Code.Ends.pure ⟨_, .refl _ _, (Updates.refl hw h).toLeaves⟩
    · have hdiscard : Discards s.self o := ⟨hzero, hcap⟩
      rw [if_pos hcap, assigned, if_neg (fun hk => hcap hk.2), assignedCapacity,
        if_pos (Or.inr hdiscard)]
      exact (discard_ends hw h hdiscard).mono (fun _ _ hs' => ⟨_, .refl _ _, hs'.1⟩)
        (fun s' hs' => Or.inr ⟨hs'.1, _, _, _, .refl _ _, hs'.2.1⟩)
  have hous : us ≠ [] := by
    rintro rfl
    exact hzero hosize
  obtain ⟨c, hc⟩ := ho.owns hous
  have hne := hdiff c hc
  rw [assigned, if_neg (fun hk => hzero hk.1), assignedCapacity]
  by_cases hrebuild : Rebuilds s.self o
  · rw [if_pos (Or.inl hrebuild)]
    -- a named tag is not the copy tag, whichever it is
    have hrun : (cleanAndCreateBufferSrc E o.capacity o.first o.size Tag.moveTag.named).Ends s
        (fun _ s' => ∃ f, Spends s.mem.object f o ∧ Leaves s f us o.capacity s')
        (fun s' => MoveTorn E s.self o s.mem.fuse ∨
          (s.mem.fuse ≠ none ∧ ∃ f ws cap, Spends s.mem.object f o ∧ Leaves s f ws cap s')) := by
      rw [hosize]
      refine Code.Ends.mono (rebuild_ends hw h ho hc hne hous)
        (fun _ s' hs' => ⟨_, spends_movedOut _, hs'.toLeaves⟩) ?_
      rintro s' ⟨k, j, hj, hbr⟩
      have hsurv : Survives s (movedOut E s.mem.object o j) s' := by
        refine ⟨hbr.self, ⟨vs, h.frame (fun b _ => by rw [hbr.extent]) (fun b i hb => ?_)⟩,
          fun p _ => by rw [hbr.object], hbr.extent, hbr.fresh, hbr.nullOnZero, hbr.wf hw⟩
        rw [hbr.object, movedOut_other]
        rw [hc, ← hb]
        exact hne
      obtain ⟨ws, hws⟩ := Pool.survives_leaves hsurv
      exact Or.inr ⟨by simp [hbr.blown], _, _, _, spends_movedOut j, hws⟩
    rw [assignFrom]
    refine Code.Ends.step (b := s.self) rfl ?_
    by_cases hempty : s.self.size = 0
    · rw [if_pos (Or.inl hempty), if_pos hzero]
      exact hrun
    · rw [if_neg (by tauto), if_pos (by have := hrebuild.2; omega)]
      exact hrun
  · rw [if_neg (fun hr => hr.elim hrebuild (fun hd => hzero hd.1))]
    have hfit : ¬(s.self.size = 0 ∨ o.size > s.self.capacity) := fun hr => hrebuild ⟨hzero, hr⟩
    have hvs : vs ≠ [] := by
      rintro rfl
      exact hfit (Or.inl hsize)
    obtain ⟨b, hb⟩ := h.owns hvs
    refine (inPlaceMove_ends hw h ho hb (fun ho' => hdiff b ho' hb) (by omega) hvs hous).mono ?_ ?_
    · rintro _ s' ⟨f, hf, hs'⟩
      exact ⟨f, hf, hs'.toLeaves⟩
    · rintro s' (htorn | ⟨hfuse, f, hf, hsurv⟩)
      · exact Or.inl htorn
      · obtain ⟨ws, hws⟩ := Pool.survives_leaves hsurv
        exact Or.inr ⟨hfuse, f, ws, _, hf, hws⟩

end HeapArray

namespace Pool

variable {α : Type} {E : Element α} {p p' : Pool α} {M : Contents α} {x y : ℕ} {a b o : HeapArray}

open Objects HeapArray

/-- `x = std::move(y)` where the allocators do not compare equal. -/
def moveAssignUnequal (E : Element α) (x y : ℕ) : Code (Pool α) Unit :=
  if x = y then pure ()
  else do
    let o ← fields y
    member x (HeapArray.assignFrom E o Tag.moveTag)
    member y HeapArray.cleanup

/-- The steps of a program in which allocators need not compare equal. -/
inductive MixedAction (α : Type) where
  | equal (act : Action α)
  | moveUnequal (x y : ℕ)

namespace MixedAction

def code (E : Element α) : MixedAction α → Code (Pool α) Unit
  | .equal act => act.code E
  | .moveUnequal x y => moveAssignUnequal E x y

def Legal (p : Pool α) : MixedAction α → Prop
  | .equal act => act.Legal p
  | .moveUnequal x y => (p.obj x).isSome ∧ (p.obj y).isSome

instance (p : Pool α) (act : MixedAction α) : Decidable (act.Legal p) := by
  cases act <;> unfold Legal <;> infer_instance

/-- No assignment is torn by an exception. -/
def Whole (E : Element α) (p : Pool α) : MixedAction α → Prop
  | .equal act => act.Whole E p
  | .moveUnequal x y => x ≠ y → ∀ a ∈ p.obj x, ∀ o ∈ p.obj y, ¬MoveTorn E a o p.mem.fuse

instance (E : Element α) (p : Pool α) (act : MixedAction α) : Decidable (act.Whole E p) := by
  cases act <;> unfold Whole <;> infer_instance

end MixedAction

/-- One step of such a program, with the fallible operation that throws in it. -/
def nextMixed (E : Element α) (p : Pool α) (l : Option ℕ × MixedAction α) : Option (Pool α) :=
  if l.2.Legal p then after (l.2.code E (p.arm l.1)) else none

/-- The pools that such a program reaches in which no assignment is torn. -/
def MixedReachable (E : Element α) (p : Pool α) : Prop :=
  ∃ z ls, Machine.Along (nextMixed E) (fun p l => l.2.Whole E (p.arm l.1)) (start z) ls ∧
    Machine.run (nextMixed E) (start z) ls = some p

lemma moveAssignUnequal_ends {vs us : List α} (h : p.Models M) (hxy : x ≠ y)
    (hx : p.obj x = some a) (hy : p.obj y = some o) (hMx : M x = some (vs, a.capacity))
    (hMy : M y = some (us, o.capacity)) :
    (moveAssignUnequal E x y).Ends p
      (fun _ p' => p'.Models (Function.update (Function.update M x
        (some (assigned a o vs us, assignedCapacity a o))) y (some ([], 0))))
      (fun p' => MoveTorn E a o p.mem.fuse ∨ (p.mem.fuse ≠ none ∧ ∃ M', p'.Models M')) := by
  obtain ⟨vs', hMx', hvs⟩ := h.at_some hx
  obtain ⟨us', hMy', hus⟩ := h.at_some hy
  rw [hMx] at hMx'
  rw [hMy] at hMy'
  cases hMx'
  cases hMy'
  have hyx : y ≠ x := Ne.symm hxy
  rw [moveAssignUnequal, if_neg hxy]
  refine Code.Ends.step (fields_run hy) (Code.Ends.bind ((member_ends hx
    (assignFrom_move_ends (s := ⟨p.mem, a⟩) (E := E) h.wf hvs hus (fun b hob hab =>
      hxy (h.apart x y a o b hx hy hab hob)))).mono (fun _ _ hp => hp) ?_) ?_)
  · rintro _ ⟨s', htorn | ⟨hfuse, f, ws, cap, hf, hl⟩, rfl⟩
    · exact Or.inl htorn
    · obtain ⟨bs, hlen, hbs⟩ := hf.left hus
      exact Or.inr ⟨hfuse, _, h.spends hyx hx hy hMy hf hlen hbs hl⟩
  · rintro _ _ ⟨s', ⟨f, hf, hl⟩, rfl⟩
    obtain ⟨ws, hlen, hws⟩ := hf.left hus
    have hM' := h.spends hyx hx hy hMy hf hlen hws hl
    have hy' : Function.update p.obj x (some s'.self) y = some o := by
      rwa [Function.update_of_ne hyx]
    obtain ⟨ws', -, hold⟩ := hM'.at_some hy'
    obtain ⟨_, u, hu, hrun⟩ := member_returns
      (p := ⟨s'.mem, Function.update p.obj x (some s'.self)⟩) hy' (cleanup_returns hM'.wf hold)
    refine Code.Ends.of_returns ⟨(), _, hrun, ?_⟩
    have hclear := hM'.updates (Or.inl hy') hu.updates.toLeaves
    have hlast : ∀ c d e : Option (List α × ℕ), Function.update (Function.update
        (Function.update M y c) x d) y e = Function.update (Function.update M x d) y e :=
      fun c d e => by rw [Function.update_comm hyx, Function.update_idem]
    rwa [hlast] at hclear

lemma nextMixed_models {l : Option ℕ × MixedAction α} (h : p.Models M)
    (hwhole : l.2.Whole E (p.arm l.1)) (hn : nextMixed E p l = some p') : ∃ M', p'.Models M' := by
  obtain ⟨k, act⟩ := l
  rw [nextMixed] at hn
  split_ifs at hn with hlegal
  cases act with
  | equal act =>
    have hnext : next E p (k, act) = some p' := (if_pos hlegal).trans hn
    exact (next_models (l := (k, act)) h hwhole hnext).1
  | moveUnequal x y =>
    by_cases hxy : x = y
    · rw [MixedAction.code, moveAssignUnequal, if_pos hxy] at hn
      cases hn
      exact ⟨M, h.arm k⟩
    obtain ⟨a, ha⟩ := Option.isSome_iff_exists.mp hlegal.1
    obtain ⟨o, ho⟩ := Option.isSome_iff_exists.mp hlegal.2
    obtain ⟨vs, hMx, -⟩ := h.at_some ha
    obtain ⟨us, hMy, -⟩ := h.at_some ho
    rcases after_ends (moveAssignUnequal_ends (h.arm k) hxy ha ho hMx hMy) hn with
      ⟨_, hM'⟩ | htorn | ⟨-, hM'⟩
    · exact ⟨_, hM'⟩
    · exact absurd htorn (hwhole hxy a ha o ho)
    · exact hM'

lemma MixedReachable.models (h : MixedReachable E p) : ∃ M, p.Models M := by
  obtain ⟨z, ls, hgood, hrun⟩ := h
  refine Machine.run_invariant (fun p : Pool α => ∃ M, p.Models M) ?_ ⟨_, Models.start z⟩
    hgood hrun
  rintro q l q' ⟨M, hM⟩ hwhole hn
  exact nextMixed_models hM hwhole hn

/-- From `p` to `p'` the elements of `y` went over to `x`, and `y` owns nothing any more. -/
def HandsOver (p p' : Pool α) (x y : ℕ) : Prop :=
  (p'.view x).map Prod.fst = (p.view y).map Prod.fst ∧ p'.view y = some ([], 0)

lemma handsOver_iff {vs us : List α} {cap cap' : ℕ} (hxy : x ≠ y) (hM : p.Models M)
    (hy : M y = some (us, cap))
    (hM' : p'.Models (Function.update (Function.update M x (some (vs, cap'))) y (some ([], 0)))) :
    HandsOver p p' x y ↔ vs = us := by
  rw [HandsOver, hM.view_eq, hM'.view_eq, hM'.view_eq]
  simp only [Contents.view, Function.update_self, Function.update_of_ne hxy, hy, Option.map_some,
    List.map_nil, and_true, Option.some.injEq]
  exact (List.map_injective_iff.mpr (Option.some_injective α)).eq_iff

/-- Move assignment between arrays whose allocators compare equal hands the elements over. Between
arrays whose allocators do not, it does so exactly when it is not the case that the source has no
elements, the target has some and the capacities agree. -/
theorem moveAssignUnequal_agrees_iff (h : MixedReachable E p) (hxy : x ≠ y) (hx : p.obj x = some b)
    (hy : p.obj y = some a) :
    (∀ k, ∃ p', moveAssign x y (p.arm k) = .returned () p' ∧ HandsOver p p' x y) ∧
    (∃ p', moveAssignUnequal E x y (p.arm none) = .returned () p') ∧
    ∀ k p', moveAssignUnequal E x y (p.arm k) = .returned () p' →
      (HandsOver p p' x y ↔ ¬(a.size = 0 ∧ b.size ≠ 0 ∧ a.capacity = b.capacity)) := by
  obtain ⟨M, hM⟩ := h.models
  obtain ⟨vs, hMx, hvs⟩ := hM.at_some hx
  obtain ⟨us, hMy, hus⟩ := hM.at_some hy
  have hbsize : b.size = vs.length := hvs.size_eq
  have hasize : a.size = us.length := hus.size_eq
  have hends := fun k => moveAssignUnequal_ends (E := E) (hM.arm k) hxy hx hy hMx hMy
  refine ⟨fun k => ?_, ?_, fun k p' hrun => ?_⟩
  · obtain ⟨_, p', hrun, hM', -⟩ := Action.moveAssign_returns (hM.arm k) hxy hx hy
    rw [hMy] at hM'
    exact ⟨p', hrun, (handsOver_iff hxy hM hMy hM').mpr rfl⟩
  · have hreturns := (hends none).returns (fun p' hR => by
      rcases hR with ⟨-, -, -, k, hk, -⟩ | ⟨hne, -⟩
      · cases hk
      · exact hne rfl)
    obtain ⟨_, p', hrun, -⟩ := hreturns
    exact ⟨p', hrun⟩
  · have hM' := hends k
    rw [Code.Ends, hrun] at hM'
    rw [handsOver_iff hxy hM hMy hM', assigned]
    split_ifs with hkeep
    · have hnil : us = [] := List.length_eq_zero_iff.mp (by have := hkeep.1; omega)
      have hcap := hkeep.2
      rw [hnil, ← List.length_eq_zero_iff, ← hbsize]
      rw [hnil, List.length_nil] at hasize
      simp only [hasize, hcap, true_and, and_true, not_not]
    · simp only [Keeps, not_and] at hkeep
      exact iff_of_true rfl (fun hbad => hkeep hbad.1 hbad.2.2)

/-- An array with elements takes over the elements of a larger one. -/
def handingRun : List (Option ℕ × MixedAction ℕ) :=
  [(none, .equal (.filled 0 3 7)), (none, .equal (.filled 1 1 5)), (none, .moveUnequal 1 0),
    (none, .equal (.reserve 0 2))]

set_option synthInstance.maxSize 256 in
theorem handingRun_agrees : ∃ p p' : Pool ℕ,
    Machine.run (nextMixed emptied) (start true) handingRun = some p ∧
    p.view 1 = some ([some 7, some 7, some 7], 3) ∧ p.view 0 = some ([], 2) ∧
    moveAssignUnequal emptied 1 0 (p.arm none) = .returned () p' ∧ HandsOver p p' 1 0 := by
  obtain ⟨p, p', hp, hrun, hview⟩ := eval_after_run (nextMixed emptied)
    (moveAssignUnequal emptied 1 0) handingRun
    (fun p _ => ([p.view 1, p.view 0], [p.obj 1, p.obj 0]))
    ([some ([some 7, some 7, some 7], 3), some ([], 2)], [some ⟨⟨some 2, 0⟩, ⟨some 2, 3⟩, 3⟩,
      some ⟨⟨some 3, 0⟩, ⟨some 3, 0⟩, 2⟩]) (by decide +kernel)
  simp only [Prod.mk.injEq, List.cons.injEq, and_true] at hview
  obtain ⟨⟨hview1, hview0⟩, hx, hy⟩ := hview
  have hreach : MixedReachable emptied p := ⟨true, handingRun, by decide +kernel, hp⟩
  exact ⟨p, p', hp, hview1, hview0, hrun,
    ((moveAssignUnequal_agrees_iff hreach (by decide) hx hy).2.2 none p' hrun).mpr (by decide)⟩

set_option synthInstance.maxSize 256 in
/-- An empty array of the target's capacity: the target keeps its elements. -/
theorem moveAssignUnequal_keeps_target : ∃ p q p' : Pool ℕ,
    Machine.run (nextMixed emptied) (start true) [(none, .equal (.default 0)),
      (none, .equal (.reserve 0 1)), (none, .equal (.filled 1 1 7))] = some p ∧
    moveAssign 1 0 (p.arm none) = .returned () q ∧ HandsOver p q 1 0 ∧
    moveAssignUnequal emptied 1 0 (p.arm none) = .returned () p' ∧
    p'.view 1 = some ([some 7], 1) ∧ ¬HandsOver p p' 1 0 := by
  obtain ⟨p, p', hp, hrun, hview⟩ := eval_after_run (nextMixed emptied)
    (moveAssignUnequal emptied 1 0) [(none, .equal (.default 0)), (none, .equal (.reserve 0 1)),
      (none, .equal (.filled 1 1 7))]
    (fun p p' => (moveAssign 1 0 (p.arm none)).state?.map
      (fun q => [p.view 0, q.view 1, q.view 0, p'.view 1]))
    (some [some ([], 1), some ([], 1), some ([], 0), some ([some 7], 1)]) (by decide +kernel)
  obtain ⟨q, hq, hviews⟩ := Option.map_eq_some_iff.mp hview
  obtain ⟨_, hrunq⟩ := Outcome.state?_eq_some.mp hq
  simp only [List.cons.injEq, and_true] at hviews
  obtain ⟨hview0, hq1, hq0, hview1⟩ := hviews
  refine ⟨p, q, p', hp, hrunq, ⟨?_, hq0⟩, hrun, hview1, fun h => ?_⟩
  · rw [hq1, hview0]
  · have hsame := h.1
    rw [hview1, hview0] at hsame
    cases hsame

end Pool

end Voxory
