import Voxory.DebugIterators.Progress

/-!
# One thread alone

A thread that no other one interrupts does what the sequential function does, and where that throws
so does the thread.
-/

namespace Voxory
open Cxx Chain Machine

namespace Registry

open Objects ListPool LinkedList

variable {n : ℕ} {r r' : Registry} {s : Threads n} {t : Fin n} {p p' : Point} {c x o : ℕ}
  {k : After} {who : Caller} {β : Type}

/-- Steps of one thread lead from the point `p` to where it is idle, or has thrown, and from `r` to
`r'`. -/
inductive Finishes : Point → Registry → Registry → Prop
  | idle (r : Registry) : Finishes .idle r r
  | step {p p' : Point} {r r₁ r' : Registry} (h : p.step r = .returned p' r₁)
      (rest : Finishes p' r₁ r') : Finishes p r r'
  | threw {p : Point} {r r' : Registry} (h : p.step r = .threw r') : Finishes p r r'

lemma bind_step {m : Code Registry β} {b : β} {r₁ : Registry} {f : β → Code Registry Point}
    (h : m r = .returned b r₁) : (m >>= f) r = f b r₁ := Code.bind_returned h

lemma lock_eq_returned (h : lock c r = .returned () r') :
    ∃ l, r.lists.obj c = some l ∧ r.held c = false ∧
      r' = { r with held := Function.update r.held c true } := by
  rw [lock] at h
  cases hl : r.lists.obj c with
  | none =>
    rw [hl] at h
    cases h
  | some l =>
    rw [hl] at h
    cases hheld : r.held c with
    | true =>
      rw [hheld] at h
      cases h
    | false =>
      rw [hheld] at h
      cases h
      exact ⟨l, rfl, rfl, rfl⟩

lemma iterator_eq_returned {it : Iterator} (h : iterator x r = .returned it r') : r' = r := by
  rw [iterator] at h
  cases hx : r.iterators x <;> rw [hx] at h <;> cases h
  rfl

lemma list_eq_returned {m : Method ℕ β} {b : β}
    (hm : ∀ s b s', m s = .returned b s' → s' = s) (h : list c m r = .returned b r') : r' = r := by
  simp only [list, onLists, member] at h
  cases hl : r.lists.obj c with
  | none =>
    rw [hl] at h
    cases h
  | some l =>
    simp only [hl] at h
    cases hrun : m ⟨r.lists.mem, l⟩ with
    | returned b' s' =>
      obtain rfl := hm _ _ _ hrun
      simp only [hrun] at h
      cases h
      rw [← hl, Function.update_eq_self]
    | threw s' =>
      simp only [hrun] at h
      cases h
    | terminated =>
      simp only [hrun] at h
      cases h
    | fault why =>
      simp only [hrun] at h
      cases h

lemma read_eq_returned {cur : Ptr} {s s' : State (Node ℕ) LinkedList} {node : Node ℕ}
    (h : (Cxx.read cur : Method ℕ (Node ℕ)) s = .returned node s') : s' = s := by
  rw [Cxx.read] at h
  by_cases hb : s.mem.inBounds cur
  · rw [if_pos hb] at h
    cases hnode : s.mem.object cur <;> simp only [hnode] at h <;> cases h
    rfl
  · rw [if_neg hb] at h
    cases h

lemma spin_finishes {e : Errand} {r₁ : Registry} (h : lock c r = .returned () r₁)
    (rest : Finishes (.enter c e) r₁ r') : Finishes (.spin c e) r r' := by
  obtain ⟨l, hl, hheld, rfl⟩ := lock_eq_returned h
  refine .step ?_ rest
  simp only [Point.step, testAndSet, hl, hheld, Bool.false_eq_true, if_false]

lemma leave_finishes {released : Option (ℕ × After)} {r₁ : Registry}
    (h : unlock c r = .returned () r₁)
    (rest : Finishes (match released with
      | none => .idle
      | some (x, k) => k.point x) r₁ r') : Finishes (.leave c released) r r' :=
  .step (bind_step h) rest

lemma release_finishes {r₁ : Registry} (h : release x r = .returned () r₁)
    (rest : Finishes (k.point x) r₁ r') : Finishes (.check x k) r r' := by
  obtain ⟨it, _, hit, h⟩ := Code.bind_eq_returned.mp h
  by_cases hproxy : it.proxy = .null
  · rw [if_pos hproxy] at h
    cases h
    refine .step (bind_step hit) ?_
    rwa [if_pos hproxy]
  rw [if_neg hproxy] at h
  obtain ⟨⟨⟩, r₂, hlock, h⟩ := Code.bind_eq_returned.mp h
  obtain ⟨now, r₃, hnow, h⟩ := Code.bind_eq_returned.mp h
  refine .step (bind_step hit) ?_
  rw [if_neg hproxy]
  refine spin_finishes hlock (.step (bind_step hnow) ?_)
  by_cases hproxy' : now.proxy = .null
  · rw [if_neg (not_not.mpr hproxy')] at h
    rw [if_pos hproxy']
    exact leave_finishes h rest
  · rw [if_pos hproxy'] at h
    obtain ⟨⟨⟩, r₄, hpop, h⟩ := Code.bind_eq_returned.mp h
    obtain ⟨⟨⟩, r₅, hset, h⟩ := Code.bind_eq_returned.mp h
    rw [if_neg hproxy']
    rw [iterator_eq_returned hnow] at hpop ⊢
    rw [iterator_eq_returned hnow] at hnow
    have hstep : (Point.pop it.container x k).step r₂ = .returned (.forget it.container x k) r₄ := by
      rw [Point.step, bind_step hnow, bind_step hpop]
      rfl
    exact .step hstep (.step (bind_step hset) (leave_finishes h rest))

lemma register_finishes (h : registerToContainer x c r = .returned () r') :
    Finishes (.spin c (.register x who)) r r' := by
  obtain ⟨⟨⟩, r₂, hlock, h⟩ := Code.bind_eq_returned.mp h
  obtain ⟨q, r₃, hpush, h⟩ := Code.bind_eq_returned.mp h
  obtain ⟨⟨⟩, r₄, hset, h⟩ := Code.bind_eq_returned.mp h
  exact spin_finishes hlock (.step (unwinds_eq_returned.mpr (bind_step hpush))
    (.step (bind_step hset) (leave_finishes h (.idle _))))

lemma drop_finishes {rounds : ℕ} {cur : Ptr} {r₁ : Registry}
    (h : dropFrom c rounds cur r = .returned () r₁) (rest : Finishes (.drop c .null) r₁ r') :
    Finishes (.drop c cur) r r' := by
  induction rounds generalizing r cur with
  | zero =>
    rw [dropFrom] at h
    by_cases hcur : cur = .null
    · rw [if_pos hcur] at h
      cases h
      rwa [hcur]
    · rw [if_neg hcur] at h
      cases h
  | succ rounds ih =>
    rw [dropFrom] at h
    by_cases hcur : cur = .null
    · rw [if_pos hcur] at h
      cases h
      rwa [hcur]
    · rw [if_neg hcur] at h
      obtain ⟨node, r₂, hread, h⟩ := Code.bind_eq_returned.mp h
      obtain ⟨⟨⟩, r₃, hset, h⟩ := Code.bind_eq_returned.mp h
      refine .step ?_ (ih h)
      rw [Point.step, if_neg hcur, bind_step hread, bind_step hset]
      rfl

lemma sweep_finishes {rounds first last : ℕ} {cur : Ptr} {r₁ : Registry}
    (h : invalidateFrom c first last rounds cur r = .returned () r₁)
    (rest : Finishes (.sweep c first last .null) r₁ r') :
    Finishes (.sweep c first last cur) r r' := by
  induction rounds generalizing r cur with
  | zero =>
    rw [invalidateFrom] at h
    by_cases hcur : cur = .null
    · rw [if_pos hcur] at h
      cases h
      rwa [hcur]
    · rw [if_neg hcur] at h
      cases h
  | succ rounds ih =>
    rw [invalidateFrom] at h
    by_cases hcur : cur = .null
    · rw [if_pos hcur] at h
      cases h
      rwa [hcur]
    rw [if_neg hcur] at h
    obtain ⟨node, r₂, hread, h⟩ := Code.bind_eq_returned.mp h
    obtain ⟨it, r₃, hit, h⟩ := Code.bind_eq_returned.mp h
    have hr₂ := list_eq_returned (fun _ _ _ => read_eq_returned) hread
    have hr₃ := (iterator_eq_returned hit).trans hr₂
    rw [hr₃] at h
    rw [hr₂] at hread
    rw [hr₂, hr₃] at hit
    -- the node is read again at every point of the round
    have hsweep : (Point.sweep c first last cur).step r = .returned (if it.ptr < first then
        .strike c first last cur node.next else .above c first last cur node.next) r := by
      rw [Point.step, if_neg hcur, bind_step hread, bind_step hit]
      rfl
    have habove : (Point.above c first last cur node.next).step r = .returned (if it.ptr > last then
        .strike c first last cur node.next else .sweep c first last node.next) r := by
      rw [Point.step, bind_step hread, bind_step hit]
      rfl
    by_cases hout : it.ptr < first ∨ it.ptr > last
    · rw [if_pos hout] at h
      obtain ⟨⟨⟩, r₄, hset, h⟩ := Code.bind_eq_returned.mp h
      obtain ⟨⟨⟩, r₅, hpop, h⟩ := Code.bind_eq_returned.mp h
      have hstrike : Finishes (.strike c first last cur node.next) r r' := by
        have hstep : (Point.strike c first last cur node.next).step r =
            .returned (.erase c first last cur node.next) r₄ := by
          rw [Point.step, bind_step hread, bind_step hset]
          rfl
        exact .step hstep (.step (bind_step hpop) (ih h))
      by_cases hlt : it.ptr < first
      · rw [if_pos hlt] at hsweep
        exact .step hsweep hstrike
      · rw [if_neg hlt] at hsweep
        rw [if_pos (hout.resolve_left hlt)] at habove
        exact .step hsweep (.step habove hstrike)
    · rw [if_neg hout] at h
      rw [not_or] at hout
      rw [if_neg hout.1] at hsweep
      rw [if_neg hout.2] at habove
      exact .step hsweep (.step habove (ih h))

/-- What a call does, and then the steps of its thread. -/
theorem code_finishes (act : RegistryAction) (h : act.code r = .returned () r') :
    ∃ p r₁, act.begin r = .returned p r₁ ∧ Finishes p r₁ r' := by
  have hhanded : ∀ (s : State (Node ℕ) LinkedList) b s', handedOut s = .returned b s' → s' = s := by
    intro s b s' hs
    cases hs
    rfl
  cases act with
  | container c => exact ⟨.idle, r', bind_step h, .idle r'⟩
  | destroyContainer c => exact ⟨.idle, r', bind_step h, .idle r'⟩
  | construct x c ptr =>
    obtain ⟨⟨⟩, r₁, hset, h⟩ := Code.bind_eq_returned.mp (Code.noexcept_eq_returned.mp h)
    exact ⟨_, r₁, bind_step hset, register_finishes (Code.onThrow_eq_returned.mp h)⟩
  | copyConstruct x o | moveConstruct x o =>
    obtain ⟨other, r₁, hother, h⟩ := Code.bind_eq_returned.mp h
    obtain ⟨⟨⟩, r₂, hset, h⟩ := Code.bind_eq_returned.mp h
    exact ⟨_, r₂, (bind_step hother).trans (bind_step hset),
      register_finishes (Code.onThrow_eq_returned.mp h)⟩
  | copyProxy x o =>
    obtain ⟨⟨⟩, r₁, hrelease, h⟩ := Code.bind_eq_returned.mp h
    obtain ⟨other, r₂, hother, h⟩ := Code.bind_eq_returned.mp h
    obtain ⟨it, r₃, hit, h⟩ := Code.bind_eq_returned.mp h
    obtain ⟨⟨⟩, r₄, hset, h⟩ := Code.bind_eq_returned.mp h
    have hstep : (Point.adopt x o).step r₁ =
        .returned (.spin other.container (.register x .assigning)) r₄ := by
      rw [Point.step, bind_step hother, bind_step hit, bind_step hset]
      rfl
    exact ⟨_, r, rfl, release_finishes (k := .copy o) hrelease (.step hstep (register_finishes h))⟩
  | release x => exact ⟨_, r, rfl, release_finishes h (.idle r')⟩
  | destroy x =>
    obtain ⟨⟨⟩, r₁, hrelease, h⟩ := Code.bind_eq_returned.mp h
    exact ⟨_, r, rfl, release_finishes hrelease (.step (bind_step h) (.idle r'))⟩
  | seek x ptr => exact ⟨.idle, r', bind_step h, .idle r'⟩
  | releaseProxy c =>
    obtain ⟨⟨⟩, r₁, hlock, h⟩ := Code.bind_eq_returned.mp h
    obtain ⟨l, r₂, hl, h⟩ := Code.bind_eq_returned.mp h
    obtain ⟨rounds, r₃, hrounds, h⟩ := Code.bind_eq_returned.mp h
    obtain ⟨⟨⟩, r₄, hdrop, h⟩ := Code.bind_eq_returned.mp h
    obtain ⟨⟨⟩, r₅, hclear, h⟩ := Code.bind_eq_returned.mp h
    rw [list_eq_returned hhanded hrounds] at hdrop
    have hstep : (Point.drop c .null).step r₄ = .returned (.leave c none) r₅ := by
      rw [Point.step, if_pos rfl, bind_step hclear]
      rfl
    exact ⟨_, r, rfl, spin_finishes hlock (.step (bind_step hl)
      (drop_finishes hdrop (.step hstep (leave_finishes h (.idle r')))))⟩
  | invalidateRange c first last =>
    obtain ⟨⟨⟩, r₁, hlock, h⟩ := Code.bind_eq_returned.mp h
    obtain ⟨l, r₂, hl, h⟩ := Code.bind_eq_returned.mp h
    obtain ⟨rounds, r₃, hrounds, h⟩ := Code.bind_eq_returned.mp h
    obtain ⟨⟨⟩, r₄, hsweep, h⟩ := Code.bind_eq_returned.mp h
    rw [list_eq_returned hhanded hrounds] at hsweep
    have hstep : (Point.sweep c first last .null).step r₄ = .returned (.leave c none) r₄ := by
      rw [Point.step, if_pos rfl]
      rfl
    exact ⟨_, r, rfl, spin_finishes hlock (.step (bind_step hl)
      (sweep_finishes hsweep (.step hstep (leave_finishes h (.idle r')))))⟩

/-! ### Exceptions -/

lemma list_nothrow {m : Method ℕ β} (h : m.Nothrow) : (list c m).Nothrow := by
  intro r r' hr
  rw [list, onLists] at hr
  cases hm : member c m r.lists with
  | threw q => exact member_nothrow h _ q hm
  | returned | terminated | fault =>
    rw [hm] at hr
    cases hr

lemma onLists_nothrow {m : Code (ListPool ℕ) β} (h : m.Nothrow) : (onLists m).Nothrow := by
  intro r r' hr
  rw [onLists] at hr
  cases hm : m r.lists with
  | threw q => exact h _ q hm
  | returned | terminated | fault =>
    rw [hm] at hr
    cases hr

lemma iterator_nothrow : (iterator x).Nothrow := by
  intro r r' h
  rw [iterator] at h
  cases hx : r.iterators x <;> rw [hx] at h <;> cases h

lemma setIterator_nothrow (it : Option Iterator) : (setIterator x it).Nothrow :=
  fun _ _ h => by cases h

lemma setProxy_nothrow (q : Ptr) : (setProxy x q).Nothrow :=
  iterator_nothrow.bind (fun _ => setIterator_nothrow _)

lemma unlock_nothrow : (unlock c).Nothrow := fun _ _ h => by cases h

lemma lock_nothrow : (lock c).Nothrow := by
  intro r r' h
  rw [lock] at h
  cases hc : r.lists.obj c with
  | none =>
    rw [hc] at h
    cases h
  | some l =>
    rw [hc] at h
    cases hheld : r.held c <;> rw [hheld] at h <;> cases h

lemma release_nothrow : (release x).Nothrow :=
  iterator_nothrow.bind (fun _ => .ite (.pure ()) (lock_nothrow.bind (fun _ =>
    iterator_nothrow.bind (fun _ => .ite ((list_nothrow (popAt_nothrow _)).bind (fun _ =>
      (setProxy_nothrow .null).bind (fun _ => unlock_nothrow))) unlock_nothrow))))

lemma dropFrom_nothrow (rounds : ℕ) (cur : Ptr) : (dropFrom c rounds cur).Nothrow := by
  induction rounds generalizing cur with
  | zero => exact .ite (.pure ()) .endless
  | succ rounds ih =>
    exact .ite (.pure ()) ((list_nothrow (read_nothrow cur)).bind (fun node =>
      (setProxy_nothrow .null).bind (fun _ => ih node.next)))

lemma invalidateFrom_nothrow (first last rounds : ℕ) (cur : Ptr) :
    (invalidateFrom c first last rounds cur).Nothrow := by
  induction rounds generalizing cur with
  | zero => exact .ite (.pure ()) .endless
  | succ rounds ih =>
    exact .ite (.pure ()) ((list_nothrow (read_nothrow cur)).bind (fun node =>
      iterator_nothrow.bind (fun _ => .ite ((setProxy_nothrow .null).bind (fun _ =>
        (list_nothrow (popAt_nothrow cur)).bind (fun _ => ih node.next))) (ih node.next))))

lemma releaseProxy_nothrow : (releaseProxy c).Nothrow :=
  lock_nothrow.bind (fun _ => (onLists_nothrow fields_nothrow).bind (fun _ =>
    (onLists_nothrow (member_nothrow handedOut_nothrow)).bind (fun _ =>
      (dropFrom_nothrow _ _).bind (fun _ => (list_nothrow clear_nothrow).bind (fun _ =>
        unlock_nothrow)))))

lemma invalidateRange_nothrow (first last : ℕ) : (invalidateRange c first last).Nothrow :=
  lock_nothrow.bind (fun _ => (onLists_nothrow fields_nothrow).bind (fun _ =>
    (onLists_nothrow (member_nothrow handedOut_nothrow)).bind (fun _ =>
      (invalidateFrom_nothrow _ _ _ _).bind (fun _ => unlock_nothrow))))

lemma unwinds_threw {m : Code Registry β} (h : who.unwinds x m r = .threw r') :
    ∃ r₁, m r = .threw r₁ ∧ ∀ {γ : Type} (m' : Code Registry γ) r₂, m' r₂ = .threw r₁ →
      who.unwinds x m' r₂ = .threw r' := by
  cases who with
  | converting => exact absurd h (Code.Nothrow.noexcept _ _ _)
  | copying =>
    rw [Caller.unwinds, Code.onThrow] at h
    cases hm : m r with
    | threw r₁ =>
      rw [hm] at h
      refine ⟨r₁, rfl, fun m' r₂ hm' => ?_⟩
      rw [Caller.unwinds, Code.onThrow, hm']
      cases h
      rfl
    | returned | terminated | fault =>
      rw [hm] at h
      cases h
  | assigning => exact ⟨r', h, fun _ _ hm' => hm'⟩

lemma register_throws (h : who.unwinds x (registerToContainer x c) r = .threw r') :
    Finishes (.spin c (.register x who)) r r' := by
  obtain ⟨r₁, hthrew, hunwinds⟩ := unwinds_threw h
  obtain ⟨⟨⟩, r₂, hlock, hthrew⟩ := lock_nothrow.bind_threw hthrew
  have hpush := Code.threw_of_bind (fun q => (setProxy_nothrow q).bind (fun _ => unlock_nothrow))
    hthrew
  refine spin_finishes hlock (.threw (hunwinds _ r₂ ?_))
  rw [Code.bind_run, hpush]

/-- Only the registration of an iterator throws, and not under a constructor that is `noexcept`. -/
theorem code_throws (act : RegistryAction) (h : act.code r = .threw r') :
    ∃ p r₁, act.begin r = .returned p r₁ ∧ Finishes p r₁ r' := by
  cases act with
  | container c =>
    exact absurd h ((onLists_nothrow (create_nothrow (setSelf_nothrow nil))).bind
      (fun _ => unlock_nothrow) r r')
  | destroyContainer c =>
    exact absurd h ((list_nothrow clear_nothrow).bind
      (fun _ => onLists_nothrow (put_nothrow none)) r r')
  | construct x c ptr => exact absurd h (Code.Nothrow.noexcept _ r r')
  | copyConstruct x o | moveConstruct x o =>
    obtain ⟨other, r₁, hother, h⟩ := iterator_nothrow.bind_threw h
    obtain ⟨⟨⟩, r₂, hset, h⟩ := (setIterator_nothrow _).bind_threw h
    exact ⟨_, r₂, (bind_step hother).trans (bind_step hset), register_throws  h⟩
  | copyProxy x o =>
    obtain ⟨⟨⟩, r₁, hrelease, h⟩ := release_nothrow.bind_threw h
    obtain ⟨other, r₂, hother, h⟩ := iterator_nothrow.bind_threw h
    obtain ⟨it, r₃, hit, h⟩ := iterator_nothrow.bind_threw h
    obtain ⟨⟨⟩, r₄, hset, h⟩ := (setIterator_nothrow _).bind_threw h
    have hstep : (Point.adopt x o).step r₁ =
        .returned (.spin other.container (.register x .assigning)) r₄ := by
      rw [Point.step, bind_step hother, bind_step hit, bind_step hset]
      rfl
    exact ⟨_, r, rfl, release_finishes (k := .copy o) hrelease
      (.step hstep (register_throws  h))⟩
  | release x => exact absurd h (release_nothrow r r')
  | destroy x => exact absurd h (release_nothrow.bind (fun _ => setIterator_nothrow none) r r')
  | seek x ptr => exact absurd h (iterator_nothrow.bind (fun _ => setIterator_nothrow _) r r')
  | releaseProxy c => exact absurd h (releaseProxy_nothrow r r')
  | invalidateRange c first last => exact absurd h (invalidateRange_nothrow first last r r')

lemma place_place {o o' : Registry × Point} : (s.place t o).place t o' = s.place t o' := by
  rw [Crowd.place, Crowd.place, Crowd.place, Function.update_idem]

lemma finishes_run (h : Finishes p r r') (o : Registry × Point) (ho : o = (r, p)) :
    ∃ fuses : List (Option ℕ), run (Crowd.next Threads.turn) (s.place t o)
      (fuses.map (fun fuse => (t, .step fuse))) = some (s.place t (r', .idle)) := by
  induction h generalizing o with
  | idle r => exact ⟨[], by rw [ho]; rfl⟩
  | @step p p₁ r r₁ r' hstep rest ih =>
    obtain ⟨fuses, hrun⟩ := ih _ rfl
    refine ⟨r.lists.mem.fuse :: fuses, run_cons.mpr ⟨(s.place t o).place t (r₁, p₁), ?_, ?_⟩⟩
    · have harm : r.arm r.lists.mem.fuse = r := rfl
      rw [Crowd.next, Threads.turn, Crowd.place_self, Crowd.place_shared, ho, harm, hstep]
      rfl
    · rw [place_place]
      exact hrun
  | @threw p r r' hstep =>
    refine ⟨[r.lists.mem.fuse], run_cons.mpr ⟨(s.place t o).place t (r', .idle), ?_, ?_⟩⟩
    · have harm : r.arm r.lists.mem.fuse = r := rfl
      rw [Crowd.next, Threads.turn, Crowd.place_self, Crowd.place_shared, ho, harm, hstep]
      rfl
    · rw [place_place]
      rfl

/-- A thread that calls a function while the others are idle, and takes its steps alone, leaves the
registry that the sequential function does, whether that returns or throws. -/
theorem alone_agrees {act : RegistryAction} (hidle : ∀ t, s.point t = .idle)
    (hlegal : act.Legal s.shared)
    (hcode : act.code s.shared = .returned () r' ∨ act.code s.shared = .threw r') :
    ∃ fuses : List (Option ℕ), run (Crowd.next Threads.turn) s
      ((t, .begin act) :: fuses.map (fun fuse => (t, .step fuse))) = some ⟨r', s.point⟩ := by
  obtain ⟨p, r₁, hbegin, hfinishes⟩ := hcode.elim (code_finishes act) (code_throws act)
  obtain ⟨fuses, hrun⟩ := finishes_run (s := s) (t := t) hfinishes _ rfl
  have hcall : s.point t = .idle ∧ s.Legal t act := by
    refine ⟨hidle t, hlegal, fun t' _ x _ hx => ?_, fun _ t' _ => hidle t'⟩
    rw [hidle t'] at hx
    cases hx
  refine ⟨fuses, run_cons.mpr ⟨_, ?_, hrun.trans (congrArg some ?_)⟩⟩
  · rw [Crowd.next, Threads.turn, if_pos hcall, hbegin]
    rfl
  · rw [Crowd.place, ← hidle t, Function.update_eq_self]

/-- One container without iterators. -/
def vacant : Registry :=
  { start true with
    lists := ⟨(start true).lists.mem, Function.update (start true).lists.obj 0 (some nil)⟩ }

/-- One container with an iterator that is not registered, and no memory for a node. -/
def scarce : Registry :=
  { vacant.arm (some 0) with iterators := Function.update vacant.iterators 2 (some ⟨0, .null, 10⟩) }

/-- A construction that returns, and a copy construction that throws. -/
theorem construct_agrees :
    (∃ r' fuses, run (Crowd.next Threads.turn) (Threads.start 2 vacant)
      ((1, .begin (.construct 3 0 10)) :: List.map (fun fuse => (1, .step fuse)) fuses) =
        some (Threads.start 2 r')) ∧
    ∃ r' fuses, (RegistryAction.copyConstruct 3 2).code scarce = .threw r' ∧
      run (Crowd.next Threads.turn) (Threads.start 2 scarce)
        ((1, .begin (.copyConstruct 3 2)) :: List.map (fun fuse => (1, .step fuse)) fuses) =
          some (Threads.start 2 r') := by
  constructor
  · obtain ⟨r', hr'⟩ := Option.isSome_iff_exists.mp
      (show ((RegistryAction.construct 3 0 10).code vacant).state?.isSome by decide +kernel)
    obtain ⟨⟨⟩, hcode⟩ := Outcome.state?_eq_some.mp hr'
    have hlegal : (RegistryAction.construct 3 0 10).Legal vacant := by decide
    obtain ⟨fuses, hrun⟩ :=
      alone_agrees (s := Threads.start 2 vacant) (t := 1) (fun _ => rfl) hlegal (Or.inl hcode)
    exact ⟨r', fuses, hrun⟩
  · obtain ⟨r', hr'⟩ := Option.isSome_iff_exists.mp
      (show ((RegistryAction.copyConstruct 3 2).code scarce).thrown?.isSome by decide +kernel)
    have hcode := Outcome.thrown?_eq_some.mp hr'
    have hlegal : (RegistryAction.copyConstruct 3 2).Legal scarce := by decide
    obtain ⟨fuses, hrun⟩ :=
      alone_agrees (s := Threads.start 2 scarce) (t := 1) (fun _ => rfl) hlegal (Or.inr hcode)
    exact ⟨r', fuses, hcode, hrun⟩

end Registry

end Voxory
