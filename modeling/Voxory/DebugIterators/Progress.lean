import Voxory.DebugIterators.Concurrent

/-!
# No thread waits for ever

A lock is held by a thread that is under it, unless an exception has left it held. As long as none
has, every thread can come back from the call it is in: a thread under a lock needs no other one, and
while no thread is under a lock none waits.
-/

namespace Voxory
open Cxx Chain Machine

namespace Registry

open Objects ListPool LinkedList

def After.rank : After → ℕ
  | .nothing => 0
  | .endLife => 1
  | .copy _ => 5

def Errand.rank : Errand → ℕ
  | .release _ k => k.rank + 4
  | .register _ _ | .releaseProxy | .invalidateRange _ _ => 3

/-- How far a thread is from being idle; the loops count as one step. -/
def Point.rank : Point → ℕ
  | .idle => 0
  | .check _ k => k.rank + 6
  | .spin _ e => e.rank + 1
  | .enter _ e => e.rank
  | .pop _ _ k => k.rank + 3
  | .forget _ _ k => k.rank + 2
  | .remember _ _ _ | .drop _ _ | .sweep _ _ _ _ | .above _ _ _ _ _ | .strike _ _ _ _ _
  | .erase _ _ _ _ _ => 2
  | .leave _ none => 1
  | .leave _ (some (_, k)) => k.rank + 1
  | .endLife _ => 1
  | .adopt _ _ => 5

/-- One step brings a thread nothing nearer here: it is idle, waits for a lock or is in a loop. -/
def Point.Stays (r : Registry) : Point → Prop
  | .idle | .drop _ _ | .sweep _ _ _ _ | .above _ _ _ _ _ | .strike _ _ _ _ _
  | .erase _ _ _ _ _ => True
  | .spin c _ => r.held c = true
  | .check _ _ | .enter _ _ | .pop _ _ _ | .forget _ _ _ | .remember _ _ _ | .leave _ _
  | .endLife _ | .adopt _ _ => False

variable {n : ℕ} {g g' : Book n} {r r' : Registry} {s s' : Threads n} {t : Fin n} {p p' : Point}
  {c x first last : ℕ} {cur next : Ptr} {xs ys zs : List (Ptr × ℕ)} {k : After} {e : Errand}

@[simp] lemma After.point_rank : (k.point x).rank = k.rank := by cases k <;> rfl

lemma unwinds_eq_returned {β : Type} {who : Caller} {m : Code Registry β} {b : β} :
    who.unwinds x m r = .returned b r' ↔ m r = .returned b r' := by
  cases who with
  | converting => exact Code.noexcept_eq_returned.trans Code.onThrow_eq_returned
  | copying =>
    rw [Caller.unwinds]
    exact Code.onThrow_eq_returned
  | assigning => exact Iff.rfl

lemma begin_rank (h : e.begin c r = .returned p' r') : p'.rank < e.rank := by
  cases e with
  | release x k =>
    obtain ⟨it, _, -, hp⟩ := Code.bind_eq_returned.mp h
    cases hp
    by_cases hproxy : it.proxy = .null
    · rw [if_pos hproxy]
      change k.rank + 1 < k.rank + 4
      omega
    · rw [if_neg hproxy]
      exact Nat.lt_succ_self (k.rank + 3)
  | register x who =>
    obtain ⟨q, _, -, hp⟩ := Code.bind_eq_returned.mp (unwinds_eq_returned.mp h)
    cases hp
    exact Nat.lt_succ_self 2
  | releaseProxy | invalidateRange =>
    obtain ⟨l, _, -, hp⟩ := Code.bind_eq_returned.mp h
    cases hp
    exact Nat.lt_succ_self 2

lemma step_rank (hstays : ¬p.Stays r) (h : p.step r = .returned p' r') : p'.rank < p.rank := by
  cases p with
  | idle | drop | sweep | above | strike | erase => exact absurd trivial hstays
  | check x k =>
    obtain ⟨it, _, -, hp⟩ := Code.bind_eq_returned.mp h
    cases hp
    by_cases hproxy : it.proxy = .null
    · rw [if_pos hproxy, After.point_rank, Point.rank]
      omega
    · rw [if_neg hproxy]
      exact Nat.lt_succ_self (k.rank + 5)
  | spin c e =>
    rw [Point.step, testAndSet] at h
    cases hobj : r.lists.obj c <;> simp only [hobj] at h <;> cases h
    rw [if_neg (show ¬r.held c = true from hstays)]
    exact Nat.lt_succ_self e.rank
  | enter c e => exact begin_rank h
  | pop c x k =>
    obtain ⟨it, _, -, h⟩ := Code.bind_eq_returned.mp h
    obtain ⟨_, _, -, hp⟩ := Code.bind_eq_returned.mp h
    cases hp
    exact Nat.lt_succ_self (k.rank + 2)
  | forget c x k =>
    obtain ⟨_, _, -, hp⟩ := Code.bind_eq_returned.mp h
    cases hp
    exact Nat.lt_succ_self (k.rank + 1)
  | remember c x q =>
    obtain ⟨_, _, -, hp⟩ := Code.bind_eq_returned.mp h
    cases hp
    exact Nat.lt_succ_self 1
  | leave c released =>
    obtain ⟨_, _, -, hp⟩ := Code.bind_eq_returned.mp h
    cases hp
    cases released with
    | none => exact Nat.zero_lt_one
    | some what =>
      change (what.2.point what.1).rank < what.2.rank + 1
      rw [After.point_rank]
      exact Nat.lt_succ_self _
  | endLife x =>
    obtain ⟨_, _, -, hp⟩ := Code.bind_eq_returned.mp h
    cases hp
    exact Nat.zero_lt_one
  | adopt x o =>
    obtain ⟨other, _, -, h⟩ := Code.bind_eq_returned.mp h
    obtain ⟨it, _, -, h⟩ := Code.bind_eq_returned.mp h
    obtain ⟨_, _, -, hp⟩ := Code.bind_eq_returned.mp h
    cases hp
    exact Nat.lt_succ_self 4

/-! ### Turns of one thread -/

/-- The crowd is in order, and no exception has left a lock held. -/
def Whole (g : Book n) (s : Threads n) : Prop := (discipline n).HoldsWith g s ∧ g.lost = ∅

lemma Whole.inv (h : Whole g s) : InOrder g (s.shared.arm none) := h.1.inv.arm none

lemma Whole.fits (h : Whole g s) (hp : s.point t = p) : Fits g (s.shared.arm none) t p := by
  rw [← hp]
  exact ⟨(h.1.fits t).owner, (h.1.fits t).hands, (h.1.fits t).finds⟩

/-- Steps of the thread `t` alone lead from `s` to `s'`. -/
abbrev Leads (t : Fin n) (s s' : Threads n) : Prop :=
  Crowd.Leads Threads.turn (fun l => l = .step none) t s s'

lemma Whole.goes (h : Whole g s) (hp : s.point t = p)
    (hrun : p.step (s.shared.arm none) = .returned p' r')
    (hk : Kept g (s.shared.arm none) t p.uses g' p' r') (hlost : g'.lost = g.lost) :
    s.turn t (.step none) = some (r', p') ∧ Whole g' (s.place t (r', p')) := by
  refine ⟨by rw [Threads.turn, hp, hrun], h.1.place (Kept.keeps h.1 ⟨hk.inv, hk.fits,
    ⟨hk.spares.owner, hk.spares.homes, hk.spares.lists, hk.spares.iterators⟩, hk.uses⟩
    (fun t' htt x hx => ?_)), hlost.trans h.2⟩
  rw [← hp] at hx
  exact h.1.apart t t' (Ne.symm htt) x hx

/-- Where the thread `t` does not stay it can come nearer to being idle. -/
lemma Whole.lowers (h : Whole g s) (hstays : ¬(s.point t).Stays s.shared) :
    ∃ s' g', Leads t s s' ∧ Whole g' s' ∧
      (s'.point t).rank < (s.point t).rank := by
  obtain ⟨p', r', hrun, g', hkept, hlost⟩ := (step_proceeds h.inv (h.fits rfl)).returns
    (fun _ hthrown => hthrown.1 rfl)
  obtain ⟨hturn, hwhole⟩ := h.goes rfl hrun hkept hlost
  refine ⟨_, g', .cons rfl hturn (.refl _), hwhole, ?_⟩
  rw [Crowd.place_self]
  refine step_rank (fun hs => hstays ?_) hrun
  cases hp : s.point t <;> rw [hp] at hs <;> exact hs

/-! ### The loops -/

lemma drop_leaves (h : Whole g s) (hp : s.point t = .drop c cur)
    (hxs : g.nodes.nodes c = some (ys ++ zs)) (hcur : cur = front zs .null)
    (hexact : Exactly s.shared.iterators c zs) :
    ∃ s' g', Leads t s s' ∧ Whole g' s' ∧ s'.point t = .leave c none := by
  induction zs generalizing s ys cur with
  | nil =>
    rw [hcur] at hp
    obtain ⟨p', r', hrun, rfl, g', hkept, hlost⟩ := drop_clears h.inv (h.fits hp) hxs hexact
    obtain ⟨hturn, hwhole⟩ := h.goes hp hrun hkept hlost
    exact ⟨_, g', .cons rfl hturn (.refl _), hwhole, Crowd.place_self⟩
  | cons z zs ih =>
    rw [hcur] at hp
    obtain ⟨p', r', hrun, rfl, hkept, hrest⟩ := drop_round h.inv (h.fits hp) hxs hexact
    obtain ⟨hturn, hwhole⟩ := h.goes hp hrun hkept rfl
    have hxs' : g.nodes.nodes c = some ((ys ++ [z]) ++ zs) := by simpa using hxs
    obtain ⟨s', g', hleads, hwhole', hleave⟩ := ih hwhole Crowd.place_self hxs' rfl hrest
    exact ⟨s', g', .cons rfl hturn hleads, hwhole', hleave⟩

/-- The thread `t` is in the loop of `_invalidate_range` over the container `c`, with the nodes `zs`
ahead. -/
def Sweeping (s : Threads n) (t : Fin n) (c first last : ℕ) (zs : List (Ptr × ℕ)) : Prop :=
  ∃ g ys, Whole g s ∧ s.point t = .sweep c first last (front zs .null) ∧
    g.nodes.nodes c = some (ys ++ zs) ∧ Exactly s.shared.iterators c (ys ++ zs)

lemma erase_sweeps (h : Whole g s) (hp : s.point t = .erase c first last cur next)
    (hxs : g.nodes.nodes c = some (ys ++ (cur, x) :: zs)) (hnext : next = front zs .null)
    (hexact : Exactly s.shared.iterators c (ys ++ zs)) :
    ∃ s', Leads t s s' ∧ Sweeping s' t c first last zs := by
  obtain ⟨p', r', hrun, rfl, g', hkept, hlost, hnodes, hits⟩ :=
    erase_erases h.inv (h.fits hp) hxs hnext hexact
  obtain ⟨hturn, hwhole⟩ := h.goes hp hrun hkept hlost
  refine ⟨_, .cons rfl hturn (.refl _), g', ys, hwhole, ?_, hnodes, ?_⟩
  · rw [Crowd.place_self, hnext]
  · change Exactly r'.iterators c _
    rw [hits]
    exact hexact

lemma strike_sweeps (h : Whole g s) (hp : s.point t = .strike c first last cur next)
    (hxs : g.nodes.nodes c = some (ys ++ (cur, x) :: zs)) (hnext : next = front zs .null)
    (hexact : Exactly s.shared.iterators c (ys ++ (cur, x) :: zs)) :
    ∃ s', Leads t s s' ∧ Sweeping s' t c first last zs := by
  obtain ⟨p', r', hrun, rfl, hkept, hrest⟩ := strike_strikes h.inv (h.fits hp) hxs hnext hexact
  obtain ⟨hturn, hwhole⟩ := h.goes hp hrun hkept rfl
  obtain ⟨s', hleads, hsweeping⟩ := erase_sweeps hwhole Crowd.place_self hxs hnext hrest
  exact ⟨s', .cons rfl hturn hleads, hsweeping⟩

lemma above_sweeps (h : Whole g s) (hp : s.point t = .above c first last cur next)
    (hxs : g.nodes.nodes c = some (ys ++ (cur, x) :: zs)) (hnext : next = front zs .null)
    (hexact : Exactly s.shared.iterators c (ys ++ (cur, x) :: zs)) :
    ∃ s', Leads t s s' ∧ Sweeping s' t c first last zs := by
  obtain ⟨p', r', hrun, rfl, hkept, rfl | rfl⟩ := above_looks h.inv (h.fits hp) hxs hnext hexact
  · obtain ⟨hturn, hwhole⟩ := h.goes hp hrun hkept rfl
    obtain ⟨s', hleads, hsweeping⟩ := strike_sweeps hwhole Crowd.place_self hxs hnext hexact
    exact ⟨s', .cons rfl hturn hleads, hsweeping⟩
  · obtain ⟨hturn, hwhole⟩ := h.goes hp hrun hkept rfl
    refine ⟨_, .cons rfl hturn (.refl _), g, ys ++ [(cur, x)], hwhole,
      by rw [Crowd.place_self, hnext], by simpa using hxs, ?_⟩
    rw [List.append_assoc]
    exact hexact

lemma sweeping_leaves (h : Sweeping s t c first last zs) :
    ∃ s' g', Leads t s s' ∧ Whole g' s' ∧ s'.point t = .leave c none := by
  induction zs generalizing s with
  | nil =>
    obtain ⟨g, ys, h, hp, hxs, hexact⟩ := h
    obtain ⟨p', r', hrun, rfl, hkept⟩ := sweep_ends h.inv (h.fits hp) hxs hexact
    obtain ⟨hturn, hwhole⟩ := h.goes hp hrun hkept rfl
    exact ⟨_, g, .cons rfl hturn (.refl _), hwhole, Crowd.place_self⟩
  | cons z zs ih =>
    obtain ⟨g, ys, h, hp, hxs, hexact⟩ := h
    obtain ⟨p', r', hrun, rfl, hkept, hor⟩ := sweep_looks h.inv (h.fits hp) hxs hexact
    obtain ⟨hturn, hwhole⟩ := h.goes hp hrun hkept rfl
    have hround : ∃ s', Leads t (s.place t (s.shared.arm none, p')) s' ∧
        Sweeping s' t c first last zs := by
      rcases hor with rfl | rfl
      · exact strike_sweeps hwhole Crowd.place_self hxs rfl hexact
      · exact above_sweeps hwhole Crowd.place_self hxs rfl hexact
    obtain ⟨s₁, hleads₁, hsweeping⟩ := hround
    obtain ⟨s', g', hleads, hwhole', hleave⟩ := ih hsweeping
    exact ⟨s', g', .cons rfl hturn (hleads₁.trans hleads), hwhole', hleave⟩

/-! ### Coming to rest -/

/-- A thread in a loop comes to its end without the others. -/
lemma loop_lowers (h : Whole g s) (hin : (s.point t).inside = some c)
    (hstays : (s.point t).Stays s.shared) :
    ∃ s' g', Leads t s s' ∧ Whole g' s' ∧ (s'.point t).rank < (s.point t).rank := by
  have hleaves : (s.point t).rank = 2 ∧
      ∃ s' g', Leads t s s' ∧ Whole g' s' ∧ s'.point t = .leave c none := by
    cases hp : s.point t <;> rw [hp] at hin hstays
    case idle | check | spin | endLife | adopt => cases hin
    case enter | pop | forget | remember | leave => exact hstays.elim
    case drop c' cur =>
      cases hin
      obtain ⟨xs, hxs, ys, zs, rfl, hcur, hexact⟩ := (h.fits hp).finds c rfl
      exact ⟨rfl, drop_leaves h hp hxs hcur hexact⟩
    case sweep c' first last cur =>
      cases hin
      obtain ⟨xs, hxs, hexact, ys, zs, rfl, hcur⟩ := (h.fits hp).finds c rfl
      exact ⟨rfl, sweeping_leaves ⟨g, ys, h, by rw [hp, hcur], hxs, hexact⟩⟩
    case above c' first last cur next =>
      cases hin
      obtain ⟨xs, hxs, hexact, ys, x, zs, rfl, hnext⟩ := (h.fits hp).finds c rfl
      obtain ⟨s₁, hleads₁, hsweeping⟩ := above_sweeps h hp hxs hnext hexact
      obtain ⟨s', g', hleads, hwhole, hleave⟩ := sweeping_leaves hsweeping
      exact ⟨rfl, s', g', hleads₁.trans hleads, hwhole, hleave⟩
    case strike c' first last cur next =>
      cases hin
      obtain ⟨xs, hxs, hexact, ys, x, zs, rfl, hnext⟩ := (h.fits hp).finds c rfl
      obtain ⟨s₁, hleads₁, hsweeping⟩ := strike_sweeps h hp hxs hnext hexact
      obtain ⟨s', g', hleads, hwhole, hleave⟩ := sweeping_leaves hsweeping
      exact ⟨rfl, s', g', hleads₁.trans hleads, hwhole, hleave⟩
    case erase c' first last cur next =>
      cases hin
      obtain ⟨xs, hxs, ys, x, zs, rfl, hnext, hexact⟩ := (h.fits hp).finds c rfl
      obtain ⟨s₁, hleads₁, hsweeping⟩ := erase_sweeps h hp hxs hnext hexact
      obtain ⟨s', g', hleads, hwhole, hleave⟩ := sweeping_leaves hsweeping
      exact ⟨rfl, s', g', hleads₁.trans hleads, hwhole, hleave⟩
  obtain ⟨hrank, s', g', hleads, hwhole, hleave⟩ := hleaves
  refine ⟨s', g', hleads, hwhole, ?_⟩
  rw [hrank, hleave]
  exact Nat.lt_succ_self 1

lemma Whole.held_iff (h : Whole g s) (c : ℕ) :
    s.shared.held c = true ↔ ∃ t, (s.point t).inside = some c := by
  rw [h.1.inv.held, h.2, or_iff_left (Set.notMem_empty c), Option.ne_none_iff_exists']
  exact exists_congr (fun t => (h.1.fits t).owner c)

lemma Whole.some_lowers (h : Whole g s) (hbusy : ∃ t, s.point t ≠ .idle) :
    ∃ t s', Leads t s s' ∧ (∃ g', Whole g' s') ∧ (s'.point t).rank < (s.point t).rank := by
  by_cases hunder : ∃ t c, (s.point t).inside = some c
  · obtain ⟨t, c, hin⟩ := hunder
    by_cases hstays : (s.point t).Stays s.shared
    · obtain ⟨s', g', hleads, hwhole, hlt⟩ := loop_lowers h hin hstays
      exact ⟨t, s', hleads, ⟨g', hwhole⟩, hlt⟩
    · obtain ⟨s', g', hleads, hwhole, hlt⟩ := h.lowers hstays
      exact ⟨t, s', hleads, ⟨g', hwhole⟩, hlt⟩
  · obtain ⟨t, hbusy⟩ := hbusy
    -- no lock is held, so that no thread waits
    have hstays : ¬(s.point t).Stays s.shared := by
      intro hstays
      cases hp : s.point t <;> rw [hp] at hstays
      case idle => exact hbusy hp
      case spin c e =>
        obtain ⟨t', ht'⟩ := (h.held_iff c).mp hstays
        exact hunder ⟨t', c, ht'⟩
      case drop c cur => exact hunder ⟨t, c, by rw [hp]; rfl⟩
      case sweep c first last cur => exact hunder ⟨t, c, by rw [hp]; rfl⟩
      case above c first last cur next => exact hunder ⟨t, c, by rw [hp]; rfl⟩
      case strike c first last cur next => exact hunder ⟨t, c, by rw [hp]; rfl⟩
      case erase c first last cur next => exact hunder ⟨t, c, by rw [hp]; rfl⟩
      case check | enter | pop | forget | remember | leave | endLife | adopt => exact hstays
    obtain ⟨s', g', hleads, hwhole, hlt⟩ := h.lowers hstays
    exact ⟨t, s', hleads, ⟨g', hwhole⟩, hlt⟩

lemma run_whole (z : Bool) {ls : List (Fin n × Turn)} (hcalm : ∀ l ∈ ls, l.2.Calm)
    (hrun : run (Crowd.next Threads.turn) (Threads.start n (start z)) ls = some s) :
    ∃ g, Whole g s := by
  refine run_invariant (fun s => ∃ g : Book n, Whole g s) ?_ ⟨_, start_holds z, rfl⟩
    (along_of_forall hcalm) hrun
  rintro s l s' ⟨g, h, hlost⟩ hl hnext
  obtain ⟨o, ho, rfl⟩ := Option.map_eq_some_iff.mp hnext
  obtain ⟨g', hkeeps, hsub⟩ := turn_keeps h ho
  refine ⟨g', h.place hkeeps, Set.subset_empty_iff.mp ?_⟩
  rw [← hlost]
  exact hsub hl

/-- However `n` threads have interleaved, if no allocation has failed, then a lock is held just by
a thread that is under it, and steps of the threads lead to where all of them have come back from
the calls they are in, and no lock is held. -/
theorem threads_rest (z : Bool) {ls : List (Fin n × Turn)} (hcalm : ∀ l ∈ ls, l.2.Calm)
    (hrun : run (Crowd.next Threads.turn) (Threads.start n (start z)) ls = some s) :
    (∀ c, s.shared.held c = true ↔ ∃ t, (s.point t).inside = some c) ∧
    ∃ ms s', (∀ m ∈ ms, m.2 = .step none) ∧ run (Crowd.next Threads.turn) s ms = some s' ∧
      (∀ t, s'.point t = .idle) ∧ ∀ c, s'.shared.held c = false := by
  obtain ⟨g, h⟩ := run_whole z hcalm hrun
  have hone : ∀ s : Threads n, (∃ g : Book n, Whole g s) → (∃ t, s.point t ≠ .idle) →
      ∃ t s', Leads t s s' ∧ (∃ g : Book n, Whole g s') ∧
        (s'.point t).rank < (s.point t).rank := by
    rintro s ⟨g, h⟩ hbusy
    exact h.some_lowers hbusy
  obtain ⟨ms, s', hms, hrun', ⟨g', h'⟩, hidle⟩ := Crowd.all_rest Point.rank hone ⟨g, h⟩
  refine ⟨h.held_iff, ms, s', hms, hrun', hidle, fun c => ?_⟩
  rw [Bool.eq_false_iff]
  intro hheld
  obtain ⟨t, ht⟩ := (h'.held_iff c).mp hheld
  rw [hidle t] at ht
  cases ht

/-- In the middle of the race both threads are in a call. -/
theorem race_rests : ∃ s ms s',
    run (Crowd.next Threads.turn) (Threads.start 2 (start true)) (race.take 14) = some s ∧
    run (Crowd.next Threads.turn) s ms = some s' ∧ ∀ t, s'.point t = .idle := by
  obtain ⟨s, hs⟩ := Option.isSome_iff_exists.mp
    (show (run (Crowd.next Threads.turn) (Threads.start 2 (start true)) (race.take 14)).isSome by
      decide +kernel)
  obtain ⟨-, ms, s', -, hrun, hidle, -⟩ := threads_rest true (by decide) hs
  exact ⟨s, ms, s', hs, hrun, hidle⟩

end Registry

end Voxory
