import Voxory.DebugIterators.Turns

/-!
# The registry stays exact under threads

One lemma for each point says what the step there does; with them the registry is in order after
every interleaving.
-/

namespace Voxory
open Cxx Chain Machine

namespace Registry

open Objects ListPool LinkedList

variable {n : ℕ} {g g' : Book n} {r r' : Registry} {t t' : Fin n} {p p' : Point} {mine : List ℕ}
  {c x o first last : ℕ} {q cur next : Ptr} {xs xs' ys zs : List (Ptr × ℕ)} {it : Iterator}
  {k : After} {e : Errand} {who : Caller}

/-- A step keeps the registry in order and loses no lock; an exception, which only an allocation
that fails throws, keeps it in order. -/
def Proceeds (g : Book n) (r : Registry) (t : Fin n) (mine : List ℕ) (m : Code Registry Point) :
    Prop :=
  m.Ends r (fun p' r' => ∃ g', Kept g r t mine g' p' r' ∧ g'.lost = g.lost)
    (fun r' => r.lists.mem.fuse ≠ none ∧ ∃ g', Kept g r t mine g' .idle r')

/-! ### Points that follow -/

lemma After.point_inside : (k.point x).inside = none := by cases k <;> rfl

lemma After.point_uses {y : ℕ} (hy : y ∈ (k.point x).uses) : y ∈ x :: k.uses := by
  cases k with
  | nothing => cases hy
  | endLife => exact hy
  | copy o => exact hy

lemma After.point_hands {a : Reference ℕ} {its : ℕ → Option Iterator} (hx : Unregistered its x)
    (hk : k.Hands a its) : (k.point x).Hands a its := by
  cases k with
  | nothing => trivial
  | endLife => exact hx
  | copy o => exact ⟨hx, hk⟩

lemma Fits.outside (h : Fits g r t p) (hout : p.inside = none) (hout' : p'.inside = none)
    (hhands : p'.Hands g.nodes r.iterators) : Fits g r t p' where
  owner c := by
    rw [h.owner, hout, hout']
  hands := hhands
  finds c hc := by
    rw [hout'] at hc
    cases hc

lemma Fits.under (h : Fits g r t p) (hin : p.inside = some c) (hin' : p'.inside = some c)
    (hhands : p'.Hands g.nodes r.iterators) (hxs : g.nodes.nodes c = some xs)
    (hfinds : p'.Finds r.iterators xs) : Fits g r t p' where
  owner c' := by
    rw [h.owner, hin, hin']
  hands := hhands
  finds c' hc' := by
    rw [hin'] at hc'
    cases hc'
    exact ⟨xs, hxs, hfinds⟩

lemma Fits.exact (h : Fits g r t p) (hin : p.inside = some c)
    (hp : ∀ xs, p.Finds r.iterators xs → Exactly r.iterators c xs) (hxs : g.nodes.nodes c = some xs) :
    Exactly r.iterators c xs := by
  obtain ⟨xs', hxs', hfinds⟩ := h.finds c hin
  rw [hxs] at hxs'
  cases hxs'
  exact hp xs hfinds

/-! ### `_release` -/

lemma check_proceeds (hinv : InOrder g r) (hfits : Fits g r t (.check x k)) :
    Proceeds g r t (x :: k.uses) (Point.check x k).step := by
  obtain ⟨hx, hk⟩ := hfits.hands
  obtain ⟨it, hit⟩ := Option.isSome_iff_exists.mp hx
  refine .step (iterator_run hit) ?_
  by_cases hproxy : it.proxy = .null
  · rw [if_pos hproxy]
    exact .pure ⟨_, .same hinv (hfits.outside rfl After.point_inside
      (After.point_hands ⟨it, hit, hproxy⟩ hk)) (fun _ hy => After.point_uses hy), rfl⟩
  · rw [if_neg hproxy]
    have hhome := hinv.homed it.container it.proxy x ⟨hproxy, it, hit, rfl, rfl⟩
    exact .pure ⟨_, .same hinv (hfits.outside rfl rfl ⟨hhome, ⟨it, hit, rfl⟩, hk⟩) (fun _ hy => hy), rfl⟩

lemma spin_proceeds (hinv : InOrder g r) (hfits : Fits g r t (.spin c e)) :
    Proceeds g r t e.uses (Point.spin c e).step := by
  obtain ⟨xs, hxs⟩ := Option.isSome_iff_exists.mp hfits.hands.1
  have hobj := hinv.obj hxs
  cases hheld : r.held c with
  | true =>
    have hsame : { r with held := Function.update r.held c true } = r := by
      rw [← hheld, Function.update_eq_self]
    rw [Proceeds, Code.Ends, Point.step]
    simp only [testAndSet, hobj, hheld, if_true, hsame]
    exact ⟨g, .same hinv hfits (fun _ hy => hy), rfl⟩
  | false =>
    rw [Proceeds, Code.Ends, Point.step]
    simp only [testAndSet, hobj, hheld, Bool.false_eq_true, if_false]
    exact ⟨_, .taken hinv hfits hheld, rfl⟩

lemma recheck_proceeds (hinv : InOrder g r) (hfits : Fits g r t (.enter c (.release x k))) :
    Proceeds g r t (x :: k.uses) (Point.enter c (.release x k)).step := by
  obtain ⟨-, ⟨it, hit, hcontainer⟩, hk⟩ := hfits.hands
  obtain ⟨xs, hxs, hexact⟩ := hfits.finds c rfl
  refine .step (iterator_run hit) ?_
  by_cases hproxy : it.proxy = .null
  · rw [if_pos hproxy]
    exact .pure ⟨_, .same hinv (hfits.under rfl rfl ⟨⟨it, hit, hproxy⟩, hk⟩ hxs hexact)
      (fun _ hy => hy), rfl⟩
  · rw [if_neg hproxy]
    exact .pure ⟨_, .same hinv (hfits.under rfl rfl ⟨⟨it, hit, hcontainer, hproxy⟩, hk⟩ hxs hexact)
      (fun _ hy => hy), rfl⟩

lemma pop_proceeds (hinv : InOrder g r) (hfits : Fits g r t (.pop c x k)) :
    Proceeds g r t (x :: k.uses) (Point.pop c x k).step := by
  obtain ⟨⟨it, hit, hcontainer, hproxy⟩, hk⟩ := hfits.hands
  obtain ⟨xs, hxs, hexact⟩ := hfits.finds c rfl
  obtain ⟨ys, zs, rfl⟩ := List.append_of_mem
    ((hexact it.proxy x).mpr ⟨hproxy, it, hit, hcontainer, rfl⟩)
  refine .step (iterator_run hit) ((Code.Ends.of_returns (list_returns (hinv.obj hxs)
    (popAt_returns (hinv.sound.holds hxs)))).bind ?_)
  rintro _ _ ⟨s', hs', rfl⟩
  exact .pure ⟨_, .inside hinv hfits rfl rfl (hinv.sound.popped hxs hs') (fun _ _ _ _ => Iff.rfl)
    (fun y it hit _ => ⟨it, hit, rfl, Or.inl rfl⟩)
    ⟨⟨it, hit, hcontainer, hproxy⟩,
      hk.mono (fun _ hc => isSome_nodes hc) (fun _ _ it hit => ⟨it, hit, rfl⟩)⟩
    (hexact.erase (hinv.nodup hxs)) (fun _ hy => hy), rfl⟩

lemma forget_proceeds (hinv : InOrder g r) (hfits : Fits g r t (.forget c x k)) :
    Proceeds g r t (x :: k.uses) (Point.forget c x k).step := by
  obtain ⟨⟨it, hit, hcontainer, hproxy⟩, hk⟩ := hfits.hands
  obtain ⟨xs, hxs, hfinds⟩ := hfits.finds c rfl
  refine .step (setProxy_run hit) (.pure ⟨_, .struck hinv hfits rfl rfl hxs hit hcontainer
    ⟨⟨_, Function.update_self _ _ _, rfl⟩, hk.mono (fun _ hc => hc) (fun y _ it' hit' => ?_)⟩
    (fun q y => (hfinds q y).trans (registered_struck q y).symm) (fun _ hy => hy), rfl⟩)
  by_cases hyx : y = x
  · rw [hyx, hit] at hit'
    cases hit'
    exact ⟨{ it with proxy := .null }, by rw [hyx, Function.update_self], rfl⟩
  · exact ⟨it', (Function.update_of_ne hyx _ _).trans hit', rfl⟩

lemma leave_proceeds {released : Option (ℕ × After)} (hinv : InOrder g r)
    (hfits : Fits g r t (.leave c released)) :
    Proceeds g r t (Point.leave c released).uses (Point.leave c released).step := by
  have hexact : ∀ xs, g.nodes.nodes c = some xs → Exactly r.iterators c xs :=
    fun _ => hfits.exact rfl (fun _ h => h)
  have hnever : Function.update r.held c false c = true ↔ c ∈ g.lost := by
    rw [Function.update_self]
    refine iff_of_false Bool.false_ne_true (fun hc => ?_)
    have hnone := hinv.whole c hc
    rw [(hfits.owner c).mpr rfl] at hnone
    cases hnone
  have hheld : ∀ c', c' ≠ c → Function.update r.held c false c' = r.held c' :=
    fun c' hcc => Function.update_of_ne hcc _ _
  cases released with
  | none =>
    exact ⟨_, .left hinv hfits rfl rfl hinv.sound hexact hheld (fun _ _ => Iff.rfl) hnever
      (fun _ _ _ => Iff.rfl) (fun _ _ hit _ => hit) trivial (List.forall_mem_nil _), rfl⟩
  | some what =>
    exact ⟨_, .left hinv hfits rfl After.point_inside hinv.sound hexact hheld
      (fun _ _ => Iff.rfl) hnever (fun _ _ _ => Iff.rfl) (fun _ _ hit _ => hit)
      (After.point_hands hfits.hands.1 hfits.hands.2) (fun _ hy => After.point_uses hy), rfl⟩

lemma endLife_proceeds (hinv : InOrder g r) (hfits : Fits g r t (.endLife x)) :
    Proceeds g r t [x] (Point.endLife x).step := by
  obtain ⟨it, hit, hproxy⟩ := hfits.hands
  have hloose : Loose (r.iterators x) := by rwa [hit, loose_some]
  exact .step setIterator_run (.pure ⟨_, .own hinv hfits rfl rfl
    (fun c => registered_loose hloose loose_none) (fun _ => List.mem_cons_self) trivial
    (List.forall_mem_nil _), rfl⟩)

/-! ### `_register_to_container` -/

lemma adopt_proceeds (hinv : InOrder g r) (hfits : Fits g r t (.adopt x o)) :
    Proceeds g r t [x, o] (Point.adopt x o).step := by
  obtain ⟨⟨it, hit, hproxy⟩, other, hother, hc⟩ := hfits.hands
  have hloose : Loose (r.iterators x) := by rwa [hit, loose_some]
  refine .step (iterator_run hother) (.step (iterator_run hit) (.step setIterator_run (.pure
    ⟨_, .own hinv hfits rfl rfl (fun c => registered_loose hloose (loose_some.mpr hproxy))
      (fun _ => List.mem_cons_self) ⟨hc, it.ptr, ?_⟩ (fun _ hy => ?_), rfl⟩)))
  · rw [Function.update_self, hproxy]
  · rw [List.mem_singleton.mp hy]
    exact List.mem_cons_self

/-- A registration appends a node; an exception leaves lists as they were, and the lock held. -/
lemma push_proceeds (hinv : InOrder g r) (hfits : Fits g r t (.enter c (.register x who))) :
    Code.Ends (do
      let q ← list c (LinkedList.pushBackMove addresses x)
      pure (Point.remember c x q)) r (fun p' r' => ∃ g', Kept g r t [x] g' p' r' ∧ g'.lost = g.lost)
      (fun r' => r.lists.mem.fuse ≠ none ∧
        ∃ lists, Sound lists g.nodes ∧ r' = { r with lists := lists }) := by
  obtain ⟨-, ptr, hit⟩ := hfits.hands
  obtain ⟨xs, hxs, hexact⟩ := hfits.finds c rfl
  refine ((list_ends (hinv.obj hxs) (push_ends (hinv.sound.holds hxs))).mono (fun _ _ h => h)
    ?_).bind ?_
  · rintro _ ⟨s', ⟨hs', hfuse⟩, rfl⟩
    exact ⟨hfuse, _, hinv.sound.unchanged hxs hs', rfl⟩
  rintro q _ ⟨s', ⟨-, hq, hs'⟩, rfl⟩
  have hsound := hinv.sound.pushed hxs hq hs'
  have hnodes : (g.nodes.update c (some (xs ++ [(q, x)])) []).nodes c = some (xs ++ [(q, x)]) :=
    Function.update_self _ _ _
  have hnull : q ≠ .null := (hsound.holds hnodes).ne_null (by simp)
  exact .pure ⟨_, .inside hinv hfits rfl rfl hsound (fun _ _ _ _ => Iff.rfl)
    (fun y it hit _ => ⟨it, hit, rfl, Or.inl rfl⟩) ⟨hnull, ptr, hit⟩ ⟨xs, rfl, hexact⟩
    (fun _ hy => hy), rfl⟩

lemma register_proceeds (hinv : InOrder g r) (hfits : Fits g r t (.enter c (.register x who))) :
    Proceeds g r t [x] (Point.enter c (.register x who)).step := by
  obtain ⟨-, ptr, hit⟩ := hfits.hands
  have hexact : ∀ xs, g.nodes.nodes c = some xs → Exactly r.iterators c xs :=
    fun _ => hfits.exact rfl (fun _ h => h)
  have hloose : Loose (r.iterators x) := by rw [hit, loose_some]
  have hlost : ∀ c', c' ≠ c → (c' ∈ insert c g.lost ↔ c' ∈ g.lost) :=
    fun c' hcc => Set.mem_insert_iff.trans (or_iff_right hcc)
  have hheld : r.held c = true ↔ c ∈ insert c g.lost := by
    refine iff_of_true ((hinv.held c).mpr (Or.inl ?_)) (Set.mem_insert c g.lost)
    rw [(hfits.owner c).mpr rfl]
    exact Option.some_ne_none t
  -- the constructors end the lifetime of the iterator
  have hgone : Proceeds g r t [x] ((do
      let q ← list c (LinkedList.pushBackMove addresses x)
      pure (Point.remember c x q) : Code Registry Point).onThrow (setIterator x none)) := by
    refine (push_proceeds hinv hfits).onThrow ?_
    rintro _ ⟨hfuse, lists, hs, rfl⟩
    refine ⟨(), _, setIterator_run, hfuse, _, .left hinv hfits rfl rfl hs hexact (fun _ _ => rfl)
      hlost hheld (fun c => registered_loose hloose loose_none) (fun y it hit hy => ?_) trivial
      (List.forall_mem_nil _)⟩
    exact (Function.update_of_ne (fun hyx => hy (List.mem_singleton.mpr hyx)) _ _).trans hit
  cases who with
  | converting => exact hgone.noexcept
  | copying => exact hgone
  | assigning =>
    refine (push_proceeds hinv hfits).mono (fun _ _ h => h) ?_
    rintro _ ⟨hfuse, lists, hs, rfl⟩
    exact ⟨hfuse, _, .left hinv hfits rfl rfl hs hexact (fun _ _ => rfl) hlost hheld
      (fun _ _ _ => Iff.rfl) (fun _ _ hit _ => hit) trivial (List.forall_mem_nil _)⟩

lemma remember_proceeds (hinv : InOrder g r) (hfits : Fits g r t (.remember c x q)) :
    Proceeds g r t [x] (Point.remember c x q).step := by
  obtain ⟨hq, ptr, hit⟩ := hfits.hands
  obtain ⟨xs, hxs, ys, rfl, hexact⟩ := hfits.finds c rfl
  have hloose : Loose (r.iterators x) := by rw [hit, loose_some]
  refine .step (setProxy_run hit) (.pure ⟨_, .under hinv hfits rfl rfl hxs (fun c' hcc => ?_)
    (fun y it' hit' hy => ?_) trivial ?_ (List.forall_mem_nil _), rfl⟩)
  · refine registered_elsewhere (.of_loose hloose) (fun it hit' => Or.inl ?_) hcc
    cases hit'
    rfl
  · exact ⟨it', (Function.update_of_ne (fun hyx => hy (List.mem_singleton.mpr hyx)) _ _).trans hit',
      rfl, Or.inl rfl⟩
  · intro q' y
    rw [List.mem_append, hexact q' y, List.mem_singleton, Prod.mk.injEq]
    by_cases hyx : y = x
    · rw [hyx, registered_iff (Function.update_self x _ r.iterators)]
      refine ⟨fun hor => ?_, fun hreg => Or.inr ⟨hreg.2.2.symm, rfl⟩⟩
      obtain ⟨rfl, -⟩ := hor.resolve_left (not_registered hloose)
      exact ⟨hq, rfl, rfl⟩
    · rw [registered_update hyx]
      exact or_iff_left (fun hy => hyx hy.2)

/-! ### `_release_proxy` and `_invalidate_range` -/

lemma front_cases (hinv : InOrder g r) (hxs : g.nodes.nodes c = some (ys ++ zs))
    (hcur : cur = front zs .null) : (cur = .null ∧ zs = []) ∨
      (cur ≠ .null ∧ ∃ x zs', zs = (cur, x) :: zs') := by
  cases zs with
  | nil => exact Or.inl ⟨hcur, rfl⟩
  | cons z zs =>
    refine Or.inr ⟨?_, z.2, zs, by rw [hcur]; rfl⟩
    rw [hcur]
    exact (hinv.sound.holds hxs).ne_null (by simp [front])

lemma releaseProxy_proceeds (hinv : InOrder g r) (hfits : Fits g r t (.enter c .releaseProxy)) :
    Proceeds g r t [] (Point.enter c .releaseProxy).step := by
  obtain ⟨xs, hxs, hexact⟩ := hfits.finds c rfl
  exact .step (fields_returned (hinv.obj hxs)) (.pure ⟨_, .same hinv
    (hfits.under rfl rfl trivial hxs ⟨[], xs, rfl, rfl, hexact⟩) (List.forall_mem_nil _), rfl⟩)

lemma drop_clears (hinv : InOrder g r) (hfits : Fits g r t (.drop c .null))
    (hxs : g.nodes.nodes c = some xs) (hexact : Exactly r.iterators c []) :
    (Point.drop c .null).step.Returns r
      (fun p' r' => p' = .leave c none ∧ ∃ g', Kept g r t [] g' p' r' ∧ g'.lost = g.lost) := by
  rw [Point.step, if_pos rfl]
  refine (list_returns (hinv.obj hxs) (clear_returns (hinv.sound.holds hxs))).bind ?_
  rintro _ _ ⟨s', hs', rfl⟩
  exact .pure ⟨rfl, _, .inside hinv hfits rfl rfl (hinv.sound.cleared hxs hs')
    (fun _ _ _ _ => Iff.rfl) (fun y it hit _ => ⟨it, hit, rfl, Or.inl rfl⟩) trivial hexact
    (List.forall_mem_nil _), rfl⟩

lemma drop_round (hinv : InOrder g r) (hfits : Fits g r t (.drop c cur))
    (hxs : g.nodes.nodes c = some (ys ++ (cur, x) :: zs))
    (hexact : Exactly r.iterators c ((cur, x) :: zs)) :
    (Point.drop c cur).step.Returns r (fun p' r' => p' = .drop c (front zs .null) ∧
      Kept g r t [] g p' r' ∧ Exactly r'.iterators c zs) := by
  obtain ⟨hnull, it, hit, hcontainer, -⟩ := (hexact cur x).mp List.mem_cons_self
  have hnodup : (keys ([] ++ (cur, x) :: zs)).Nodup := by
    have hall := hinv.nodup hxs
    rw [keys_append] at hall
    exact (List.nodup_append.mp hall).2.1
  have hrest : Exactly (Function.update r.iterators x (some { it with proxy := .null })) c zs := by
    intro q y
    have herased := Exactly.erase (show Exactly _ c ([] ++ _) from hexact) hnodup q y
    rw [registered_struck]
    exact herased
  rw [Point.step, if_neg hnull]
  exact .step (list_read hinv.sound hxs) (.step (setProxy_run hit) (.pure ⟨rfl,
    .struck hinv hfits rfl rfl hxs hit hcontainer trivial ⟨ys ++ [(cur, x)], zs, by simp, rfl, hrest⟩
      (List.forall_mem_nil _), hrest⟩))

lemma drop_proceeds (hinv : InOrder g r) (hfits : Fits g r t (.drop c cur)) :
    Proceeds g r t [] (Point.drop c cur).step := by
  obtain ⟨xs, hxs, ys, zs, rfl, hcur, hexact⟩ := hfits.finds c rfl
  rcases front_cases hinv hxs hcur with ⟨rfl, rfl⟩ | ⟨hnull, x, zs, rfl⟩
  · exact .of_returns ((drop_clears hinv hfits hxs hexact).mono (fun _ _ h => h.2))
  · exact .of_returns ((drop_round hinv hfits hxs hexact).mono
      (fun _ _ h => ⟨g, h.2.1, rfl⟩))

lemma invalidateRange_proceeds (hinv : InOrder g r)
    (hfits : Fits g r t (.enter c (.invalidateRange first last))) :
    Proceeds g r t [] (Point.enter c (.invalidateRange first last)).step := by
  obtain ⟨xs, hxs, hexact⟩ := hfits.finds c rfl
  exact .step (fields_returned (hinv.obj hxs)) (.pure ⟨_, .same hinv
    (hfits.under rfl rfl trivial hxs ⟨hexact, [], xs, rfl, rfl⟩) (List.forall_mem_nil _), rfl⟩)

lemma sweep_ends (hinv : InOrder g r) (hfits : Fits g r t (.sweep c first last .null))
    (hxs : g.nodes.nodes c = some xs) (hexact : Exactly r.iterators c xs) :
    (Point.sweep c first last .null).step.Returns r
      (fun p' r' => p' = .leave c none ∧ Kept g r t [] g p' r') := by
  rw [Point.step, if_pos rfl]
  exact .pure ⟨rfl, .same hinv (hfits.under rfl rfl trivial hxs hexact) (List.forall_mem_nil _)⟩

lemma sweep_looks (hinv : InOrder g r) (hfits : Fits g r t (.sweep c first last cur))
    (hxs : g.nodes.nodes c = some (ys ++ (cur, x) :: zs))
    (hexact : Exactly r.iterators c (ys ++ (cur, x) :: zs)) :
    (Point.sweep c first last cur).step.Returns r (fun p' r' => r' = r ∧ Kept g r t [] g p' r' ∧
      (p' = .strike c first last cur (front zs .null) ∨
        p' = .above c first last cur (front zs .null))) := by
  obtain ⟨hnull, it, hit, -⟩ := (hexact cur x).mp (by simp)
  rw [Point.step, if_neg hnull]
  refine .step (list_read hinv.sound hxs) (.step (iterator_run hit) ?_)
  by_cases hlt : it.ptr < first
  · rw [if_pos hlt]
    exact .pure ⟨rfl, .same hinv (hfits.under rfl rfl trivial hxs ⟨hexact, ys, x, zs, rfl, rfl⟩)
      (List.forall_mem_nil _), Or.inl rfl⟩
  · rw [if_neg hlt]
    exact .pure ⟨rfl, .same hinv (hfits.under rfl rfl trivial hxs ⟨hexact, ys, x, zs, rfl, rfl⟩)
      (List.forall_mem_nil _), Or.inr rfl⟩

lemma sweep_proceeds (hinv : InOrder g r) (hfits : Fits g r t (.sweep c first last cur)) :
    Proceeds g r t [] (Point.sweep c first last cur).step := by
  obtain ⟨xs, hxs, hexact, ys, zs, rfl, hcur⟩ := hfits.finds c rfl
  rcases front_cases hinv hxs hcur with ⟨rfl, rfl⟩ | ⟨hnull, x, zs, rfl⟩
  · exact .of_returns ((sweep_ends hinv hfits hxs hexact).mono (fun _ _ h => ⟨g, h.2, rfl⟩))
  · exact .of_returns ((sweep_looks hinv hfits hxs hexact).mono (fun _ _ h => ⟨g, h.2.1, rfl⟩))

lemma above_looks (hinv : InOrder g r) (hfits : Fits g r t (.above c first last cur next))
    (hxs : g.nodes.nodes c = some (ys ++ (cur, x) :: zs)) (hnext : next = front zs .null)
    (hexact : Exactly r.iterators c (ys ++ (cur, x) :: zs)) :
    (Point.above c first last cur next).step.Returns r (fun p' r' => r' = r ∧
      Kept g r t [] g p' r' ∧
        (p' = .strike c first last cur next ∨ p' = .sweep c first last next)) := by
  obtain ⟨-, it, hit, -⟩ := (hexact cur x).mp (by simp)
  refine .step (list_read hinv.sound hxs) (.step (iterator_run hit) ?_)
  by_cases hgt : it.ptr > last
  · rw [if_pos hgt]
    exact .pure ⟨rfl, .same hinv (hfits.under rfl rfl trivial hxs ⟨hexact, ys, x, zs, rfl, hnext⟩)
      (List.forall_mem_nil _), Or.inl rfl⟩
  · rw [if_neg hgt]
    exact .pure ⟨rfl, .same hinv (hfits.under rfl rfl trivial hxs
      ⟨hexact, ys ++ [(cur, x)], zs, by simp, hnext⟩) (List.forall_mem_nil _), Or.inr rfl⟩

lemma above_proceeds (hinv : InOrder g r) (hfits : Fits g r t (.above c first last cur next)) :
    Proceeds g r t [] (Point.above c first last cur next).step := by
  obtain ⟨xs, hxs, hexact, ys, x, zs, rfl, hnext⟩ := hfits.finds c rfl
  exact .of_returns ((above_looks hinv hfits hxs hnext hexact).mono (fun _ _ h => ⟨g, h.2.1, rfl⟩))

lemma strike_strikes (hinv : InOrder g r) (hfits : Fits g r t (.strike c first last cur next))
    (hxs : g.nodes.nodes c = some (ys ++ (cur, x) :: zs)) (hnext : next = front zs .null)
    (hexact : Exactly r.iterators c (ys ++ (cur, x) :: zs)) :
    (Point.strike c first last cur next).step.Returns r (fun p' r' =>
      p' = .erase c first last cur next ∧ Kept g r t [] g p' r' ∧
        Exactly r'.iterators c (ys ++ zs)) := by
  obtain ⟨-, it, hit, hcontainer, -⟩ := (hexact cur x).mp (by simp)
  have hrest : Exactly (Function.update r.iterators x (some { it with proxy := .null })) c
      (ys ++ zs) := by
    intro q y
    rw [registered_struck]
    exact hexact.erase (hinv.nodup hxs) q y
  exact .step (list_read hinv.sound hxs) (.step (setProxy_run hit) (.pure ⟨rfl,
    .struck hinv hfits rfl rfl hxs hit hcontainer trivial ⟨ys, x, zs, rfl, hnext, hrest⟩
      (List.forall_mem_nil _), hrest⟩))

lemma strike_proceeds (hinv : InOrder g r) (hfits : Fits g r t (.strike c first last cur next)) :
    Proceeds g r t [] (Point.strike c first last cur next).step := by
  obtain ⟨xs, hxs, hexact, ys, x, zs, rfl, hnext⟩ := hfits.finds c rfl
  exact .of_returns ((strike_strikes hinv hfits hxs hnext hexact).mono
    (fun _ _ h => ⟨g, h.2.1, rfl⟩))

lemma erase_erases (hinv : InOrder g r) (hfits : Fits g r t (.erase c first last cur next))
    (hxs : g.nodes.nodes c = some (ys ++ (cur, x) :: zs)) (hnext : next = front zs .null)
    (hexact : Exactly r.iterators c (ys ++ zs)) :
    (Point.erase c first last cur next).step.Returns r (fun p' r' =>
      p' = .sweep c first last next ∧ ∃ g', Kept g r t [] g' p' r' ∧ g'.lost = g.lost ∧
        g'.nodes.nodes c = some (ys ++ zs) ∧ r'.iterators = r.iterators) := by
  refine (list_returns (hinv.obj hxs)
    (popAt_returns (x := (cur, x)) (hinv.sound.holds hxs))).bind ?_
  rintro _ _ ⟨s', hs', rfl⟩
  exact .pure ⟨rfl, _, .inside hinv hfits rfl rfl (hinv.sound.popped hxs hs')
    (fun _ _ _ _ => Iff.rfl) (fun y it hit _ => ⟨it, hit, rfl, Or.inl rfl⟩) trivial
    ⟨hexact, ys, zs, rfl, hnext⟩ (List.forall_mem_nil _), rfl, Function.update_self _ _ _, rfl⟩

lemma erase_proceeds (hinv : InOrder g r) (hfits : Fits g r t (.erase c first last cur next)) :
    Proceeds g r t [] (Point.erase c first last cur next).step := by
  obtain ⟨xs, hxs, ys, x, zs, rfl, hnext, hexact⟩ := hfits.finds c rfl
  refine .of_returns ((erase_erases hinv hfits hxs hnext hexact).mono ?_)
  rintro p' r' ⟨-, g', hkept, hlost, -⟩
  exact ⟨g', hkept, hlost⟩

/-- The step at any point. -/
theorem step_proceeds (hinv : InOrder g r) (hfits : Fits g r t p) :
    Proceeds g r t p.uses p.step := by
  cases p with
  | idle => exact .pure ⟨_, .same hinv hfits (fun _ hy => hy), rfl⟩
  | check x k => exact check_proceeds hinv hfits
  | spin c e => exact spin_proceeds hinv hfits
  | enter c e =>
    cases e with
    | release x k => exact recheck_proceeds hinv hfits
    | register x who => exact register_proceeds hinv hfits
    | releaseProxy => exact releaseProxy_proceeds hinv hfits
    | invalidateRange first last => exact invalidateRange_proceeds hinv hfits
  | pop c x k => exact pop_proceeds hinv hfits
  | forget c x k => exact forget_proceeds hinv hfits
  | remember c x q => exact remember_proceeds hinv hfits
  | drop c cur => exact drop_proceeds hinv hfits
  | sweep c first last cur => exact sweep_proceeds hinv hfits
  | above c first last cur next => exact above_proceeds hinv hfits
  | strike c first last cur next => exact strike_proceeds hinv hfits
  | erase c first last cur next => exact erase_proceeds hinv hfits
  | leave c released => exact leave_proceeds hinv hfits
  | endLife x => exact endLife_proceeds hinv hfits
  | adopt x o => exact adopt_proceeds hinv hfits

/-! ### Calls -/

/-- The iterator that a call makes, and those it is about. -/
def names : RegistryAction → List ℕ
  | .construct x _ _ => [x]
  | .copyConstruct x o | .moveConstruct x o => [x, o]
  | act => act.uses

lemma After.uses_some {a : Reference ℕ} {its : ℕ → Option Iterator} (h : k.Hands a its) :
    ∀ y ∈ k.uses, (its y).isSome := by
  cases k with
  | nothing | endLife => exact List.forall_mem_nil _
  | copy o =>
    intro y hy
    obtain ⟨it, hit, -⟩ := h
    rw [List.mem_singleton.mp hy, hit]
    rfl

lemma Errand.uses_some {a : Reference ℕ} {its : ℕ → Option Iterator} (h : e.Hands a its c) :
    ∀ y ∈ e.uses, (its y).isSome := by
  cases e with
  | releaseProxy | invalidateRange => exact List.forall_mem_nil _
  | register x who =>
    intro y hy
    obtain ⟨ptr, hit⟩ := h
    rw [List.mem_singleton.mp hy, hit]
    rfl
  | release x k =>
    obtain ⟨⟨it, hit, -⟩, hk⟩ := h
    exact List.forall_mem_cons.mpr ⟨by rw [hit]; rfl, After.uses_some hk⟩

lemma Fits.uses_some (h : Fits g r t p) : ∀ y ∈ p.uses, (r.iterators y).isSome := by
  have hhands := h.hands
  have hloose : ∀ y, Unregistered r.iterators y → (r.iterators y).isSome := by
    rintro y ⟨it, hit, -⟩
    rw [hit]
    rfl
  cases p with
  | idle | drop | sweep | above | strike | erase => exact List.forall_mem_nil _
  | check x k => exact List.forall_mem_cons.mpr ⟨hhands.1, After.uses_some hhands.2⟩
  | spin c e | enter c e => exact Errand.uses_some hhands.2
  | pop c x k | forget c x k =>
    obtain ⟨⟨it, hit, -⟩, hk⟩ := hhands
    exact List.forall_mem_cons.mpr ⟨by rw [hit]; rfl, After.uses_some hk⟩
  | remember c x q =>
    obtain ⟨-, ptr, hit⟩ := hhands
    exact List.forall_mem_singleton.mpr (by rw [hit]; rfl)
  | leave c released =>
    cases released with
    | none => exact List.forall_mem_nil _
    | some what =>
      exact List.forall_mem_cons.mpr ⟨hloose _ hhands.1, After.uses_some hhands.2⟩
  | endLife x => exact List.forall_mem_singleton.mpr (hloose x hhands)
  | adopt x o =>
    exact List.forall_mem_cons.mpr ⟨hloose x hhands.1,
      After.uses_some (show (After.copy o).Hands g.nodes r.iterators from hhands.2)⟩

lemma InOrder.isSome (h : InOrder g r) (hc : (r.lists.obj c).isSome) :
    (g.nodes.nodes c).isSome := by
  rwa [h.sound.fields, Option.isSome_map] at hc

lemma fresh_kept {ptr : ℕ} (hinv : InOrder g r) (hfits : Fits g r t .idle)
    (hx : r.iterators x = none) (hc : (r.lists.obj c).isSome) (hmine : x ∈ mine) :
    Kept g r t mine g (.spin c (.register x who))
      { r with iterators := Function.update r.iterators x (some ⟨c, .null, ptr⟩) } := by
  refine .own hinv hfits rfl rfl (fun c => registered_loose ?_ (loose_some.mpr rfl))
    (fun hne => absurd hx hne) ⟨hinv.isSome hc, ptr, Function.update_self _ _ _⟩ (fun y hy => ?_)
  · rw [hx]
    exact loose_none
  · rwa [List.mem_singleton.mp hy]

lemma begin_returns (hinv : InOrder g r) (hfits : Fits g r t .idle) (act : RegistryAction)
    (hlegal : act.Legal r) (hshared : ¬act.Private) :
    act.begin.Returns r (fun p' r' => Kept g r t (names act) g p' r') := by
  have hhoused : ∀ o, RegistryAction.Homed r o → Housed g.nodes r.iterators o := by
    rintro o ⟨other, hother, hc⟩
    exact ⟨other, hother, hinv.isSome hc⟩
  cases act with
  | container c => exact absurd trivial hshared
  | destroyContainer c => exact absurd trivial hshared
  | construct x c ptr =>
    exact .step setIterator_run (.pure (fresh_kept hinv hfits hlegal.1 hlegal.2
      List.mem_cons_self))
  | copyConstruct x o | moveConstruct x o =>
    obtain ⟨hx, other, hother, hc⟩ := hlegal
    exact .step (iterator_run hother) (.step setIterator_run (.pure
      (fresh_kept hinv hfits hx hc List.mem_cons_self)))
  | copyProxy x o =>
    exact .pure (.same hinv (hfits.outside rfl rfl ⟨hlegal.1, hhoused o hlegal.2⟩)
      (fun _ hy => hy))
  | release x => exact .pure (.same hinv (hfits.outside rfl rfl ⟨hlegal, trivial⟩) (fun _ hy => hy))
  | destroy x => exact .pure (.same hinv (hfits.outside rfl rfl ⟨hlegal, trivial⟩) (fun _ hy => hy))
  | seek x ptr =>
    obtain ⟨it, hit⟩ := Option.isSome_iff_exists.mp hlegal
    have hseek : Registry.seek x ptr r = .returned ()
        { r with iterators := Function.update r.iterators x (some { it with ptr := ptr }) } := by
      rw [Registry.seek, Code.bind_returned (iterator_run hit)]
      rfl
    refine .step hseek (.pure (.own hinv hfits rfl rfl (fun c q y => ?_)
      (fun _ => List.mem_cons_self) trivial (List.forall_mem_nil _)))
    by_cases hyx : y = x
    · rw [hyx, registered_iff (Function.update_self x _ r.iterators), registered_iff hit]
    · exact registered_update hyx
  | releaseProxy c =>
    exact .pure (.same hinv (hfits.outside rfl rfl ⟨hinv.isSome hlegal, trivial⟩)
      (List.forall_mem_nil _))
  | invalidateRange c first last =>
    exact .pure (.same hinv (hfits.outside rfl rfl ⟨hinv.isSome hlegal, trivial⟩)
      (List.forall_mem_nil _))

/-- While no thread is under a lock, the bookkeeping is that of the sequential functions. -/
lemma InOrder.tracks (h : InOrder g r) (hfree : ∀ c, g.owner c = none) :
    Tracks r.lists r.iterators g.nodes :=
  ⟨h.sound, fun c xs hc => h.exact c xs (hfree c) hc, h.homed⟩

lemma Tracks.inOrder {a : Reference ℕ} (h : Tracks r.lists r.iterators a) :
    InOrder (⟨a, fun _ => none, {c | r.held c = true}⟩ : Book n) r :=
  ⟨h.sound, h.homed, fun _ => (or_iff_right (fun hne => hne rfl)).symm, fun _ _ => rfl,
    fun c xs _ hc => h.exact c xs hc⟩

lemma private_ends (hinv : InOrder g r) (hfree : ∀ c, g.owner c = none) (act : RegistryAction)
    (hlegal : act.Legal r) (hprivate : act.Private) :
    act.begin.Ends r (fun p' r' => p' = .idle ∧ Keeps r r' ∧ ∃ a', Tracks r'.lists r'.iterators a')
      (fun _ => True) := by
  have htracks := hinv.tracks hfree
  cases act with
  | container c =>
    exact ((container_ends htracks hlegal).mono (fun _ _ h => h) (fun _ _ => trivial)).bind
      (fun _ _ h => .pure ⟨rfl, h⟩)
  | destroyContainer c =>
    exact ((destroyContainer_ends htracks hlegal).mono (fun _ _ h => h) (fun _ _ => trivial)).bind
      (fun _ _ h => .pure ⟨rfl, h⟩)
  | construct | copyConstruct | moveConstruct | copyProxy | release | destroy | seek | releaseProxy
  | invalidateRange => exact absurd hprivate id

/-! ### Turns of a crowd -/

variable {s s' : Threads n} {l : Turn} {out : Registry × Point} {fuse : Option ℕ}

/-- No allocation fails in a turn. -/
def Turn.Calm : Turn → Prop
  | .begin _ => True
  | .step fuse => fuse = none

instance : DecidablePred Turn.Calm := fun l => by
  cases l <;> (unfold Turn.Calm; infer_instance)

lemma Kept.keeps (h : (discipline n).HoldsWith g s) (hk : Kept g s.shared t mine g' p' r')
    (hmine : ∀ t', t' ≠ t → ∀ x ∈ mine, x ∉ (s.point t').uses) :
    (discipline n).Keeps g s t (r', p') g' where
  inv := hk.inv
  fits := hk.fits
  spares t' htt := (h.fits t').spared hk.spares htt (fun x hx hxm => hmine t' htt x hxm hx)
  apart t' htt := ⟨fun x hx => hmine t' htt x (hk.uses x hx),
    fun x hx hx' => hmine t' htt x (hk.uses x hx') hx⟩

lemma names_apart (h : (discipline n).HoldsWith g s) {act : RegistryAction}
    (hlegal : s.Legal t act) (htt : t' ≠ t) : ∀ x ∈ names act, x ∉ (s.point t').uses := by
  have hfresh : ∀ x, s.shared.iterators x = none → x ∉ (s.point t').uses := by
    intro x hx hmem
    have hsome := (h.fits t').uses_some x hmem
    rw [hx] at hsome
    cases hsome
  have hused := hlegal.2.1 t' htt
  cases act with
  | container | destroyContainer | copyProxy | release | destroy | seek | releaseProxy
  | invalidateRange => exact hused
  | construct x c ptr => exact List.forall_mem_singleton.mpr (hfresh x hlegal.1.1)
  | copyConstruct x o | moveConstruct x o =>
    exact List.forall_mem_cons.mpr ⟨hfresh x hlegal.1.1, hused⟩

lemma fits_idle (hfree : ∀ c, g.owner c = none) : Fits g r t .idle := by
  refine ⟨fun c => ?_, trivial, fun c hc => by cases hc⟩
  rw [hfree]
  exact iff_of_false (Option.some_ne_none t).symm (Option.some_ne_none c).symm

lemma owner_idle (h : (discipline n).HoldsWith g s) (hidle : ∀ t, s.point t = .idle) (c : ℕ) :
    g.owner c = none := by
  by_contra hne
  obtain ⟨t, ht⟩ := Option.ne_none_iff_exists'.mp hne
  have hin := ((h.fits t).owner c).mp ht
  rw [hidle t] at hin
  cases hin

/-- A turn of any thread keeps the discipline, and a calm one loses no lock. -/
theorem turn_keeps (h : (discipline n).HoldsWith g s) (hturn : s.turn t l = some out) :
    ∃ g', (discipline n).Keeps g s t out g' ∧ (l.Calm → g'.lost ⊆ g.lost) := by
  cases l with
  | begin act =>
    rw [Threads.turn] at hturn
    split_ifs at hturn with hcall
    obtain ⟨hidle, hlegal⟩ := hcall
    have hfits := h.fits t
    rw [hidle] at hfits
    by_cases hprivate : act.Private
    · have hall : ∀ t', s.point t' = .idle := by
        intro t'
        by_cases htt : t' = t
        · rw [htt, hidle]
        · exact hlegal.2.2 hprivate t' htt
      have hends := private_ends h.inv (owner_idle h hall) act hlegal.1 hprivate
      rw [Code.Ends] at hends
      cases hrun : act.begin s.shared <;> rw [hrun] at hturn hends <;> cases hturn
      obtain ⟨rfl, hkeeps, a', h'⟩ := hends
      refine ⟨_, ⟨h'.inOrder, fits_idle (fun _ => rfl), fun t' _ => ?_, fun t' _ => ?_⟩,
        fun _ c hc => ?_⟩
      · rw [hall t']
        exact fits_idle (fun _ => rfl)
      · rw [hall t']
        exact ⟨List.forall_mem_nil _, List.forall_mem_nil _⟩
      · exact ((h.inv.held c).mp (hkeeps.held c hc)).resolve_left
          (fun hne => hne (owner_idle h hall c))
    · obtain ⟨p', r', hrun, hkept⟩ := begin_returns h.inv hfits act hlegal.1 hprivate
      rw [hrun] at hturn
      cases hturn
      exact ⟨g, hkept.keeps h (fun t' htt => names_apart h hlegal htt), fun _ => subset_rfl⟩
  | step fuse =>
    rw [Threads.turn] at hturn
    have hproceeds := step_proceeds (h.inv.arm fuse) (p := s.point t)
      ⟨(h.fits t).owner, (h.fits t).hands, (h.fits t).finds⟩
    have hapart : ∀ t', t' ≠ t → ∀ x ∈ (s.point t).uses, x ∉ (s.point t').uses :=
      fun t' htt => h.apart t t' (Ne.symm htt)
    rw [Proceeds, Code.Ends] at hproceeds
    cases hrun : (s.point t).step (s.shared.arm fuse) <;> rw [hrun] at hturn hproceeds <;>
      cases hturn
    · obtain ⟨g', hkept, hlost⟩ := hproceeds
      exact ⟨g', Kept.keeps h ⟨hkept.inv, hkept.fits,
        ⟨hkept.spares.owner, hkept.spares.homes, hkept.spares.lists, hkept.spares.iterators⟩,
        hkept.uses⟩ hapart, fun _ => hlost.le⟩
    · obtain ⟨hfuse, g', hkept⟩ := hproceeds
      exact ⟨g', Kept.keeps h ⟨hkept.inv, hkept.fits,
        ⟨hkept.spares.owner, hkept.spares.homes, hkept.spares.lists, hkept.spares.iterators⟩,
        hkept.uses⟩ hapart, fun hcalm => absurd hcalm hfuse⟩

/-! ### Runs -/

lemma start_holds (z : Bool) :
    (discipline n).HoldsWith ⟨Reference.start, fun _ => none, ∅⟩ (Threads.start n (start z)) where
  inv := ⟨Sound.start z, (start_tracks z).homed,
    fun c => iff_of_false Bool.false_ne_true (fun h => h.elim (fun hne => hne rfl) id),
    fun _ _ => rfl, fun c xs _ hc => (start_tracks z).exact c xs hc⟩
  fits _ := fits_idle (fun _ => rfl)
  apart _ _ _ _ hx := by cases hx

lemma along_all {s : Threads n} {ls : List (Fin n × Turn)} :
    Along (Crowd.next Threads.turn) (fun _ _ => True) s ls :=
  along_of_forall fun _ _ => trivial

lemma run_disciplined (z : Bool) {ls : List (Fin n × Turn)}
    (hrun : run (Crowd.next Threads.turn) (Threads.start n (start z)) ls = some s) :
    (discipline n).Holds s :=
  Crowd.Discipline.run_holds (fun _ _ _ _ _ h _ hturn => (turn_keeps h hturn).imp (fun _ h => h.1))
    ⟨_, start_holds z⟩ along_all hrun

/-! ### Conflicts over `_proxy` -/

/-- The iterator whose `_proxy` the next step reads or writes; ending its lifetime counts as
writing. -/
def Point.accesses (r : Registry) : Point → Option ℕ
  | .check x _ | .enter _ (.release x _) | .pop _ x _ | .forget _ x _ | .remember _ x _
  | .endLife x => some x
  | .drop _ cur | .strike _ _ _ cur _ => (r.lists.mem.object cur).map fun node => node.data
  | .idle | .spin _ _ | .enter _ (.register _ _) | .enter _ .releaseProxy
  | .enter _ (.invalidateRange _ _) | .sweep _ _ _ _ | .above _ _ _ _ _ | .erase _ _ _ _ _
  | .leave _ _ | .adopt _ _ => none

/-- The next step writes the `_proxy` that it accesses. -/
def Point.Writes : Point → Prop
  | .forget _ _ _ | .remember _ _ _ | .endLife _ | .drop _ _ | .strike _ _ _ _ _ => True
  | .idle | .check _ _ | .spin _ _ | .enter _ _ | .pop _ _ _ | .sweep _ _ _ _ | .above _ _ _ _ _
  | .erase _ _ _ _ _ | .leave _ _ | .adopt _ _ => False

/-- The next step is the first look of `_release` at the `_proxy` of `x`, without the lock. -/
def Point.Looks (x : ℕ) (p : Point) : Prop := ∃ k, p = .check x k

/-- The next step is one of the loops under the lock that empty the `_proxy` of each iterator. -/
def Point.Loops (p : Point) : Prop :=
  (∃ c cur, p = .drop c cur) ∨ ∃ c first last cur next, p = .strike c first last cur next

lemma Registered.container_eq {its : ℕ → Option Iterator} {c' : ℕ} (h : Registered its c q x)
    (hit : its x = some it) (hc : it.container = c') : c = c' := by
  obtain ⟨-, it', hit', hcontainer, -⟩ := h
  rw [hit] at hit'
  cases hit'
  exact hcontainer.symm.trans hc

lemma Registered.proxy_ne {its : ℕ → Option Iterator} (h : Registered its c q x)
    (hit : its x = some it) : it.proxy ≠ .null := by
  obtain ⟨hq, it', hit', -, hproxy⟩ := h
  rw [hit] at hit'
  cases hit'
  rwa [hproxy]

lemma node_data (hinv : InOrder g r) (hxs : g.nodes.nodes c = some (ys ++ (cur, o) :: zs))
    (hx : ((r.lists.mem.object cur).map fun node => node.data) = some x) : o = x := by
  rw [(hinv.sound.onHeap c _ hxs).linked.at] at hx
  exact Option.some.inj hx

lemma Fits.registered (h : Fits g r t p) (hinv : InOrder g r) (hx : p.accesses r = some x)
    (hloops : p.Loops) : ∃ c q, p.inside = some c ∧ Registered r.iterators c q x := by
  rcases hloops with ⟨c, cur, rfl⟩ | ⟨c, first, last, cur, next, rfl⟩
  · obtain ⟨xs, hxs, ys, zs, rfl, hcur, hexact⟩ := h.finds c rfl
    rcases front_cases hinv hxs hcur with ⟨rfl, -⟩ | ⟨-, o, zs, rfl⟩
    · have hnull : (r.lists.mem.object .null).map (fun node => node.data) = some x := hx
      rw [hinv.sound.heap.null] at hnull
      cases hnull
    · obtain rfl := node_data hinv hxs hx
      exact ⟨c, cur, rfl, (hexact cur o).mp List.mem_cons_self⟩
  · obtain ⟨xs, hxs, hexact, ys, o, zs, rfl, -⟩ := h.finds c rfl
    obtain rfl := node_data hinv hxs hx
    exact ⟨c, cur, rfl, (hexact cur o).mp (List.mem_append_right ys List.mem_cons_self)⟩

lemma Point.accesses_cases (hx : p.accesses r = some x) : x ∈ p.uses ∨ p.Loops := by
  cases p with
  | idle | spin | sweep | above | erase | leave | adopt => cases hx
  | check y k | pop c y k | forget c y k =>
    cases hx
    exact Or.inl List.mem_cons_self
  | remember c y q | endLife y =>
    cases hx
    exact Or.inl List.mem_cons_self
  | enter c e =>
    cases e with
    | release y k =>
      cases hx
      exact Or.inl List.mem_cons_self
    | register | releaseProxy | invalidateRange => cases hx
  | drop c cur => exact Or.inr (Or.inl ⟨c, cur, rfl⟩)
  | strike c first last cur next => exact Or.inr (Or.inr ⟨c, first, last, cur, next, rfl⟩)

/-- But for the first look, a registered iterator is accessed under the lock of its container. -/
lemma Fits.guarded (h : Fits g r t p) (hinv : InOrder g r) (hx : p.accesses r = some x)
    (hlook : ¬p.Looks x) (hreg : Registered r.iterators c q x) : p.inside = some c := by
  have hhands := h.hands
  cases p with
  | idle | spin | sweep | above | erase | leave | adopt => cases hx
  | check y k =>
    cases hx
    exact absurd ⟨k, rfl⟩ hlook
  | pop c' y k | forget c' y k =>
    cases hx
    obtain ⟨⟨it, hit, hcontainer, -⟩, -⟩ := hhands
    rw [hreg.container_eq hit hcontainer]
    rfl
  | remember c' y q' =>
    cases hx
    obtain ⟨-, ptr, hit⟩ := hhands
    exact absurd rfl (hreg.proxy_ne hit)
  | endLife y =>
    cases hx
    obtain ⟨it, hit, hproxy⟩ := hhands
    exact absurd hproxy (hreg.proxy_ne hit)
  | enter c' e =>
    cases e with
    | release y k =>
      cases hx
      obtain ⟨-, ⟨it, hit, hcontainer⟩, -⟩ := hhands
      rw [hreg.container_eq hit hcontainer]
      rfl
    | register | releaseProxy | invalidateRange => cases hx
  | drop c' cur =>
    obtain ⟨c'', q', hin, -, it, hit, hcontainer, -⟩ :=
      h.registered hinv hx (Or.inl ⟨c', cur, rfl⟩)
    rw [hreg.container_eq hit hcontainer, hin]
  | strike c' first last cur next =>
    obtain ⟨c'', q', hin, -, it, hit, hcontainer, -⟩ :=
      h.registered hinv hx (Or.inr ⟨c', first, last, cur, next, rfl⟩)
    rw [hreg.container_eq hit hcontainer, hin]

lemma inside_injective (h : (discipline n).HoldsWith g s) (ht : (s.point t).inside = some c)
    (ht' : (s.point t').inside = some c) : t = t' := by
  have hown := ((h.fits t).owner c).mpr ht
  rw [((h.fits t').owner c).mpr ht'] at hown
  exact (Option.some.inj hown).symm

/-- Two threads meet at one `_proxy`, one of them to write it, only where the other one looks at it
before it takes the lock and the writer is in a loop. -/
lemma conflict_looks (h : (discipline n).HoldsWith g s) (htt : t ≠ t')
    (hx : (s.point t).accesses s.shared = some x) (hx' : (s.point t').accesses s.shared = some x)
    (hwrites : (s.point t').Writes) : (s.point t).Looks x ∧ (s.point t').Loops := by
  have hblind : ¬(s.point t').Looks x := by
    rintro ⟨k, hk⟩
    rw [hk] at hwrites
    exact hwrites
  have hlook : (s.point t).Looks x := by
    by_contra hlook
    have hmeet : ∀ c q, ¬Registered s.shared.iterators c q x := fun c q hreg =>
      htt (inside_injective h ((h.fits t).guarded h.inv hx hlook hreg)
        ((h.fits t').guarded h.inv hx' hblind hreg))
    have huses : x ∈ (s.point t).uses := by
      refine (Point.accesses_cases hx).resolve_right (fun hloops => ?_)
      obtain ⟨c, q, -, hreg⟩ := (h.fits t).registered h.inv hx hloops
      exact hmeet c q hreg
    rcases Point.accesses_cases hx' with huses' | hloops
    · exact h.apart t t' htt x huses huses'
    · obtain ⟨c, q, -, hreg⟩ := (h.fits t').registered h.inv hx' hloops
      exact hmeet c q hreg
  refine ⟨hlook, (Point.accesses_cases hx').resolve_left (fun huses' => ?_)⟩
  obtain ⟨k, hk⟩ := hlook
  refine h.apart t t' htt x ?_ huses'
  rw [hk]
  exact List.mem_cons_self

/-- One thread destroys two iterators while another one drops those of their container. The first
look at `_proxy` finds a node, the one under the lock finds none any more. -/
def race : List (Fin 2 × Turn) :=
  [(0, .begin (.container 0)), (1, .begin (.construct 0 0 10))] ++
    List.replicate 4 (1, .step none) ++ [(1, .begin (.construct 1 0 14))] ++
    List.replicate 4 (1, .step none) ++
    [(0, .begin (.releaseProxy 0)), (1, .begin (.destroy 0)), (1, .step none)] ++
    List.replicate 3 (0, .step none) ++ [(1, .step none), (0, .step none), (1, .step none)] ++
    List.replicate 2 (0, .step none) ++ List.replicate 4 (1, .step none)

/-- Thread 1 is about to look at the `_proxy` that thread 0, with the lock, is about to empty. -/
def glance : List (Fin 2 × Turn) :=
  race.take 6 ++ [(0, .begin (.releaseProxy 0)), (1, .begin (.destroy 0)), (0, .step none),
    (0, .step none)]

end Registry

end Voxory
