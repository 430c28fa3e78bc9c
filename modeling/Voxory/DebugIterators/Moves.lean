import Voxory.DebugIterators.Exact

/-!
# Moving a heap array with iterators into it

Move assignment hands the nodes of the source's list over to the target, but an iterator keeps the
container it was made for, and takes its node out of that container's list.
-/

namespace Voxory
open Cxx Chain Machine

namespace LinkedList

variable {α : Type} {s s' : State (Node α) LinkedList} {xs ys zs : List (Ptr × α)} {x : Ptr × α}
  {p q : Ptr}

/-- Between `s` and `s'` links to a node `p` were bent: `p` is as before, and no node is gone. -/
structure Bends (p : Ptr) (s s' : State (Node α) LinkedList) : Prop where
  heap : Heap s'.mem
  same : s'.mem.object p = s.mem.object p
  alive : ∀ q, (s.mem.object q).isSome → (s'.mem.object q).isSome

lemma Bends.refl (hs : Heap s.mem) : Bends p s s := ⟨hs, rfl, fun _ hq => hq⟩

lemma Bends.of_turns {n : Option (Node α)} (hn : n.isSome) (hqp : q ≠ p)
    (h : Turns s (Function.update s.mem.object q n) [] s') : Bends p s s' where
  heap := h.heap
  same := by rw [h.object, Function.update_of_ne (Ne.symm hqp)]
  alive r hr := by
    rw [h.object]
    by_cases hrq : r = q
    · rw [hrq, Function.update_self]
      exact hn
    · rwa [Function.update_of_ne hrq]

lemma setNext_bends {a : Ptr} (hs : Heap s.mem) (hq : (s.mem.object q).isSome) (hqp : q ≠ p) :
    (setNext q a).Returns s (fun _ s' => Bends p s s' ∧ s'.self = s.self) := by
  obtain ⟨n, hn⟩ := Option.isSome_iff_exists.mp hq
  exact (setNext_returns hs hn).mono (fun _ _ h => ⟨.of_turns rfl hqp h, h.self⟩)

lemma setLast_bends {a : Ptr} (hs : Heap s.mem) (hq : (s.mem.object q).isSome) (hqp : q ≠ p) :
    (setLast q a).Returns s (fun _ s' => Bends p s s' ∧ s'.self = s.self) := by
  obtain ⟨n, hn⟩ := Option.isSome_iff_exists.mp hq
  exact (setLast_returns hs hn).mono (fun _ _ h => ⟨.of_turns rfl hqp h, h.self⟩)

/-- A node whose neighbours are live nodes other than itself, or none. -/
structure Seated (m : Memory (Node α)) (p : Ptr) (n : Node α) : Prop where
  node : m.object p = some n
  next : n.next ≠ .null → (m.object n.next).isSome ∧ n.next ≠ p
  last : n.last ≠ .null → (m.object n.last).isSome ∧ n.last ≠ p

lemma Seated.bends {n : Node α} (h : Seated s.mem p n) (hb : Bends p s s') :
    Seated s'.mem p n where
  node := hb.same.trans h.node
  next hn := ⟨hb.alive _ (h.next hn).1, (h.next hn).2⟩
  last hn := ⟨hb.alive _ (h.last hn).1, (h.last hn).2⟩

lemma OnHeap.seated (h : OnHeap s.mem (ys ++ x :: zs)) :
    Seated s.mem x.1 ⟨x.2, front zs .null, back .null ys⟩ := by
  have hxyz := (List.nodup_cons.mp (List.nodup_middle.mp
    (by simpa only [keys_append, keys_cons] using h.nodup))).1
  rw [List.mem_append, not_or] at hxyz
  refine ⟨h.linked.at, fun hn => ?_, fun hn => ?_⟩
  · have hmem : front zs Ptr.null ∈ keys zs := front_mem (fun hzs => hn (by rw [hzs]; rfl))
    exact ⟨h.linked.isSome (by simp [hmem]), fun he => hxyz.2 (he ▸ hmem)⟩
  · have hmem : back Ptr.null ys ∈ keys ys := back_mem (fun hys => hn (by rw [hys]; rfl))
    exact ⟨h.linked.isSome (by simp [hmem]), fun he => hxyz.1 (he ▸ hmem)⟩

/-- A node that is taken out through an empty list which does not hold it: the list's counter goes
below zero, and one of its ends stays null. -/
lemma popAt_foreign {n : Node α} (hs : Heap s.mem) (hself : s.self = nil) (hp : Seated s.mem p n) :
    (popAt p).Returns s (fun _ s' => s'.self.size = 2 ^ 64 - 1 ∧
      (s'.self.first = .null ∨ s'.self.second = .null)) := by
  have hfront : (unlinkFront p).Returns s (fun _ s' => Bends p s s' ∧ s'.self.size = 0 ∧
      s'.self.second = .null ∧ (n.last ≠ .null → s'.self.first = .null)) := by
    refine .step (read_turns hs hp.node) ?_
    by_cases hlast : n.last = .null
    · rw [if_neg (not_not.mpr hlast)]
      refine .step (b := s.self) rfl ?_
      rw [hself]
      refine .step (t := { s with self := { nil with first := n.next } }) rfl ?_
      by_cases hnext : n.next = .null
      · rw [if_neg (not_not.mpr hnext)]
        exact .pure ⟨⟨hs, rfl, fun _ hq => hq⟩, rfl, rfl, fun hne => absurd hlast hne⟩
      · rw [if_pos hnext]
        refine (setLast_bends (p := p) (s := ⟨s.mem, { nil with first := n.next }⟩) hs
          (hp.next hnext).1 (hp.next hnext).2).mono ?_
        rintro _ s' ⟨hb, hself'⟩
        rw [hself']
        exact ⟨⟨hb.heap, hb.same, hb.alive⟩, rfl, rfl, fun hne => absurd hlast hne⟩
    · rw [if_pos hlast]
      refine (setNext_bends (p := p) hs (hp.last hlast).1 (hp.last hlast).2).mono ?_
      rintro _ s' ⟨hb, hself'⟩
      rw [hself', hself]
      exact ⟨hb, rfl, rfl, fun _ => rfl⟩
  have hback : ∀ s₁, Bends p s s₁ → s₁.self.size = 0 → s₁.self.second = .null →
      (n.last ≠ .null → s₁.self.first = .null) → (unlinkBack p).Returns s₁ (fun _ s' =>
        Bends p s₁ s' ∧ s'.self.size = 0 ∧ (s'.self.first = .null ∨ s'.self.second = .null)) := by
    intro s₁ hb₁ hsize₁ hsecond₁ hfirst₁
    have hp₁ := hp.bends hb₁
    refine .step (read_turns hb₁.heap hp₁.node) ?_
    by_cases hnext : n.next = .null
    · rw [if_neg (not_not.mpr hnext)]
      refine .step (b := s₁.self) rfl ?_
      refine .step (t := { s₁ with self := { s₁.self with second := n.last } }) rfl ?_
      by_cases hlast : n.last = .null
      · rw [if_neg (not_not.mpr hlast)]
        exact .pure ⟨⟨hb₁.heap, rfl, fun _ hq => hq⟩, hsize₁, Or.inr hlast⟩
      · rw [if_pos hlast]
        refine (setNext_bends (p := p) (s := ⟨s₁.mem, { s₁.self with second := n.last }⟩) hb₁.heap
          (hp₁.last hlast).1 (hp₁.last hlast).2).mono ?_
        rintro _ s' ⟨hb, hself'⟩
        rw [hself']
        exact ⟨⟨hb.heap, hb.same, hb.alive⟩, hsize₁, Or.inl (hfirst₁ hlast)⟩
    · rw [if_pos hnext]
      refine (setLast_bends (p := p) hb₁.heap (hp₁.next hnext).1 (hp₁.next hnext).2).mono ?_
      rintro _ s' ⟨hb, hself'⟩
      rw [hself']
      exact ⟨hb, hsize₁, Or.inr hsecond₁⟩
  rw [popAt, if_neg (hs.ne_null hp.node)]
  refine hfront.bind ?_
  rintro _ s₁ ⟨hb₁, hsize₁, hsecond₁, hfirst₁⟩
  refine (hback s₁ hb₁ hsize₁ hsecond₁ hfirst₁).bind ?_
  rintro _ s₂ ⟨hb₂, hsize₂, hends₂⟩
  refine (destroyNode_returns hb₂.heap ((hp.bends hb₁).bends hb₂).node).bind ?_
  intro _ s₃ h₃
  refine .step (b := s₃.self) rfl (setSelf_returns ?_)
  rw [h₃.self]
  exact ⟨by rw [hsize₂]; rfl, hends₂⟩

end LinkedList

namespace Registry

open Objects ListPool LinkedList

variable {r r' r₁ : Registry} {p : ListPool ℕ} {a : Reference ℕ} {c o x : ℕ} {q : Ptr}
  {it : Iterator} {xs ys : List (Ptr × ℕ)}

/-- The list of `c` is a chain of as many nodes as it counts, and its ends are no freed nodes. -/
def WellFormed (r : Registry) (c : ℕ) : Prop :=
  ∃ l nodes, r.lists.obj c = some l ∧ Chained r.lists.mem.object l nodes ∧
    l.first ∉ released r.lists.mem.trace ∧ l.second ∉ released r.lists.mem.trace

/-- The node of the iterator `x`, if it has one, is in the list that `_release` takes it out of. -/
def Unlinks (r : Registry) (x : ℕ) : Prop :=
  ∀ it, r.iterators x = some it → it.proxy ≠ .null →
    ∃ l, r.lists.obj it.container = some l ∧ it.proxy ∈ ListAction.nodesOf r.lists l

/-- A step of a program that only releases iterators. -/
def takeRelease (r : Registry) (x : ℕ) : Option Registry := (release x r).state?

lemma wellFormed_of_sound (h : Sound r.lists a) (hc : a.nodes c = some xs) : WellFormed r c := by
  have hobj : r.lists.obj c = some (ofNodes xs) := by
    rw [h.fields, hc]
    rfl
  have hends := h.represents.ends c _ hobj
  rw [← h.removed] at hends
  exact ⟨_, xs, hobj, chained_of_holds (h.holds hc), hends⟩

/-- What is left of both lists and the iterators once the nodes of `o` are the list of `c`. -/
structure Moved (r : Registry) (c o : ℕ) (ys : List (Ptr × ℕ)) (r₁ : Registry) : Prop where
  lists : ∃ a, Sound r₁.lists a ∧ a.nodes c = some ys ∧ a.nodes o = some []
  nodes : ∀ q x, (q, x) ∈ ys ↔ Registered r.iterators o q x
  iterators : r₁.iterators = dropProxies (fun _ it => it.container = c) r.iterators
  held : r₁.held o = false

lemma lock_exists {β : Type} {f : Unit → Code Registry β} {b : β}
    (h : (lock c >>= f) r = .returned b r') : (r.lists.obj c).isSome := by
  cases hc : r.lists.obj c with
  | none =>
    simp only [Code.bind_run, lock, hc] at h
    cases h
  | some l => rfl

lemma moveProxies_ends (h : Sound r.lists a) (hco : c ≠ o) (hc : a.nodes c = some xs)
    (ho : a.nodes o = some ys) : (moveProxies c o).Ends r
      (fun _ r' => (∃ a', Sound r'.lists a' ∧ a'.nodes c = some ys ∧ a'.nodes o = some []) ∧
        r'.iterators = r.iterators ∧ r'.held o = false) (fun _ => True) := by
  have hobj : (r.lists.obj o).isSome := by
    rw [h.fields, ho]
    rfl
  refine (lock_ends hobj (fun _ => trivial)).bind ?_
  rintro _ _ ⟨-, rfl⟩
  refine (Code.Ends.of_returns (onLists_returns (r := { r with held := Function.update r.held o true })
    (h.moveAssign_returns hco hc ho))).bind ?_
  rintro _ _ ⟨p', hp', rfl⟩
  refine ⟨⟨_, hp', ?_, Function.update_self _ _ _⟩, rfl, Function.update_self _ _ _⟩
  change Function.update (Function.update a.nodes c (some ys)) o (some []) c = some ys
  rw [Function.update_of_ne hco, Function.update_self]

lemma moved_of_moveAssign (h : Tracks r.lists r.iterators a) (hco : c ≠ o)
    (hmove : moveAssign c o r = .returned () r₁) : ∃ ys, Moved r c o ys r₁ := by
  rw [moveAssign, if_neg hco] at hmove
  obtain ⟨_, r₂, hrelease, hproxies⟩ := Code.bind_eq_returned.mp hmove
  have hexists : (r.lists.obj c).isSome := lock_exists hrelease
  have hends := releaseProxy_ends h hexists
  rw [Code.Ends, hrelease] at hends
  obtain ⟨-, hcontainers₂, ⟨a₂, h₂⟩, hits₂⟩ := hends
  obtain ⟨ys, ho⟩ := h₂.nodes (lock_exists hproxies)
  obtain ⟨xs, hc⟩ := h₂.nodes (hcontainers₂ c hexists)
  have hends := moveProxies_ends h₂.sound hco hc ho
  rw [Code.Ends, hproxies] at hends
  obtain ⟨hlists, hits₁, hheld⟩ := hends
  refine ⟨ys, hlists, fun q x => ?_, hits₁.trans hits₂, hheld⟩
  rw [h₂.exact o ys ho, hits₂, registered_drop]
  refine and_iff_left_of_imp ?_
  rintro ⟨-, it, hit, hcontainer, -⟩ it' hit' he
  rw [hit] at hit'
  cases hit'
  exact hco (he.symm.trans hcontainer)

namespace Moved

lemma release_target (h : Moved r c o ys r₁) (hx : Registered r.iterators c q x) :
    takeRelease r₁ x = some r₁ ∧ Unlinks r₁ x := by
  obtain ⟨-, it, hit, hcontainer, -⟩ := hx
  have hit₁ : r₁.iterators x = some { it with proxy := .null } := by
    rw [h.iterators, dropProxies, hit, Option.map_some, if_pos hcontainer]
  refine ⟨?_, fun it' hit' hproxy => ?_⟩
  · rw [takeRelease, release, Code.bind_returned (iterator_run hit₁)]
    rfl
  · rw [hit₁] at hit'
    cases hit'
    exact absurd rfl hproxy

lemma source_not_unlinks (h : Moved r c o ys r₁) (hco : c ≠ o)
    (hx : Registered r.iterators o q x) : ¬Unlinks r₁ x := by
  obtain ⟨a, ha, -, ho⟩ := h.lists
  obtain ⟨hq, it, hit, hcontainer, hproxy⟩ := hx
  intro hunlinks
  have hit₁ : r₁.iterators x = some it := by
    rw [h.iterators, dropProxies, hit, Option.map_some,
      if_neg (fun he => hco (he.symm.trans hcontainer))]
  obtain ⟨l, hl, hmem⟩ := hunlinks it hit₁ (by rw [hproxy]; exact hq)
  rw [hcontainer, ha.fields, ho] at hl
  cases hl
  have hnode : it.proxy ∈ keys ([] : List (Ptr × ℕ)) :=
    (ha.onHeap o [] ho).linked.follows_next.mem_of_walk hmem
  exact List.not_mem_nil hnode

/-- Its release leaves the list of the source with an end that is null, and no empty list. -/
lemma source_breaks (h : Moved r c o ys r₁) (hco : c ≠ o) (hx : Registered r.iterators o q x)
    (hrelease : takeRelease r₁ x = some r') : ¬WellFormed r' o := by
  obtain ⟨a, ha, hc, ho⟩ := h.lists
  obtain ⟨zs, zs', hys⟩ := List.append_of_mem ((h.nodes q x).mpr hx)
  obtain ⟨hq, it, hit, hcontainer, rfl⟩ := hx
  have hit₁ : r₁.iterators x = some it := by
    rw [h.iterators, dropProxies, hit, Option.map_some,
      if_neg (fun he => hco (he.symm.trans hcontainer))]
  have hobj : r₁.lists.obj o = some nil := by
    rw [ha.fields, ho]
    rfl
  have honHeap := ha.onHeap c ys hc
  rw [hys] at honHeap
  have hbroken : (release x).Returns r₁ (fun _ r' => ∃ l, r'.lists.obj o = some l ∧
      l.size = 2 ^ 64 - 1 ∧ (l.first = .null ∨ l.second = .null)) := by
    refine .step (iterator_run hit₁) ?_
    rw [if_neg hq, hcontainer]
    refine .step (lock_run hobj h.held) (.step (iterator_run hit₁) ?_)
    rw [if_pos hq]
    refine (list_returns (r := { r₁ with held := Function.update r₁.held o true }) hobj
      (popAt_foreign ha.heap rfl (OnHeap.seated (s := ⟨r₁.lists.mem, nil⟩) honHeap))).bind ?_
    rintro _ _ ⟨s', hs', rfl⟩
    refine .step (setProxy_run hit₁) ⟨(), _, rfl, s'.self, ?_, hs'⟩
    exact Function.update_self _ _ _
  obtain ⟨_, r'', hr'', l, hl, hsize, hends⟩ := hbroken
  rw [takeRelease, hr''] at hrelease
  cases hrelease
  rintro ⟨l', nodes, hl', hchained, -⟩
  rw [hl] at hl'
  cases hl'
  have hzero : l.size = 0 := hends.elim hchained.first_null.mp hchained.second_null.mp
  rw [hsize] at hzero
  omega

end Moved

/-- After a move every release takes its node out of the list that holds it, exactly when none of the
iterators was registered with the source; and exactly then both lists stay well formed. -/
theorem releases_after_move_iff (z : Bool) {ls : List (Option ℕ × RegistryAction)}
    (hrun : run next (start z) ls = some r) (hco : c ≠ o)
    (hmove : moveAssign c o r = .returned () r₁) {names : List ℕ}
    (hnames : ∀ x ∈ names, ∃ q, Registered r.iterators c q x ∨ Registered r.iterators o q x) :
    WellFormed r₁ c ∧ WellFormed r₁ o ∧
    (Along takeRelease Unlinks r₁ names ↔ ∀ x ∈ names, ¬∃ q, Registered r.iterators o q x) ∧
    (Along takeRelease (fun r x => ∃ r', takeRelease r x = some r' ∧ WellFormed r' c ∧
      WellFormed r' o) r₁ names ↔ ∀ x ∈ names, ¬∃ q, Registered r.iterators o q x) := by
  obtain ⟨a, h⟩ := run_tracks z hrun
  obtain ⟨ys, hmoved⟩ := moved_of_moveAssign h hco hmove
  obtain ⟨a₁, ha₁, hc, ho⟩ := hmoved.lists
  have hwell := wellFormed_of_sound ha₁ hc
  have hwell' := wellFormed_of_sound ha₁ ho
  have htarget : ∀ x ∈ names, (¬∃ q, Registered r.iterators o q x) →
      takeRelease r₁ x = some r₁ ∧ Unlinks r₁ x := by
    intro x hx hnot
    obtain ⟨q, hq⟩ := hnames x hx
    exact hmoved.release_target (hq.resolve_right (fun hq => hnot ⟨q, hq⟩))
  refine ⟨hwell, hwell', along_iff_of_stay htarget (fun x _ hx => ?_),
    along_iff_of_stay (fun x hx hnot => ?_) (fun x _ hx => ?_)⟩
  · obtain ⟨q, hq⟩ := not_not.mp hx
    exact hmoved.source_not_unlinks hco hq
  · obtain ⟨hstay, -⟩ := htarget x hx hnot
    exact ⟨hstay, r₁, hstay, hwell, hwell'⟩
  · obtain ⟨q, hq⟩ := not_not.mp hx
    rintro ⟨r', hr', -, hwell'⟩
    exact hmoved.source_breaks hco hq hr' hwell'

/-- Two containers, one with an iterator and the other with two. -/
def twoArrays : List (Option ℕ × RegistryAction) :=
  [(none, .container 0), (none, .container 1), (none, .construct 0 0 8), (none, .construct 1 1 16),
    (none, .construct 2 1 20)]

/-- The program after these steps. -/
def arrays : Registry := ((run next (start false) twoArrays).getD (start false))

/-- The first array takes the contents of the second. -/
def arraysMoved : Registry := ((moveAssign 0 1 arrays).state?.getD (start false))

lemma arrays_run : run next (start false) twoArrays = some arrays := by
  have hsome : (run next (start false) twoArrays).isSome := by decide +kernel
  obtain ⟨r, hr⟩ := Option.isSome_iff_exists.mp hsome
  rw [arrays, hr]
  rfl

lemma arraysMoved_run : moveAssign 0 1 arrays = .returned () arraysMoved := by
  have hsome : (moveAssign 0 1 arrays).state?.isSome := by decide +kernel
  obtain ⟨r, hr⟩ := Option.isSome_iff_exists.mp hsome
  obtain ⟨_, hrun⟩ := Outcome.state?_eq_some.mp hr
  rw [arraysMoved, hr]
  exact hrun

theorem release_of_target : Along takeRelease Unlinks arraysMoved [0] ↔
    ∀ x ∈ [0], ¬∃ q, Registered arrays.iterators 1 q x := by
  have hregistered : arrays.iterators 0 = some ⟨0, ⟨some 0, 0⟩, 8⟩ := by decide +kernel
  refine (releases_after_move_iff false arrays_run (by decide) arraysMoved_run
    (fun x hx => ⟨⟨some 0, 0⟩, Or.inl ?_⟩)).2.2.1
  rw [List.mem_singleton.mp hx]
  exact ⟨by decide, _, hregistered, rfl, rfl⟩

/-- The release of the first iterator of the second array: its node was the first in the list of the
first array, which goes on to lead there; the second array's list counts below zero. -/
theorem release_strands_head : run next (start false) twoArrays = some arrays ∧
    moveAssign 0 1 arrays = .returned () arraysMoved ∧
    (∃ q, Registered arrays.iterators 1 q 1) ∧ ¬Unlinks arraysMoved 1 ∧
    ∃ r₂ l l', takeRelease arraysMoved 1 = some r₂ ∧
      r₂.lists.obj 0 = some l ∧ l.first ∈ released r₂.lists.mem.trace ∧
      r₂.lists.obj 1 = some l' ∧ l'.size = 2 ^ 64 - 1 ∧ ¬WellFormed r₂ 1 := by
  have hit : arrays.iterators 1 = some ⟨1, ⟨some 1, 0⟩, 16⟩ := by decide +kernel
  have hsome : (takeRelease arraysMoved 1).isSome := by decide +kernel
  have hlists : (takeRelease arraysMoved 1).map (fun r => (r.lists.obj 0, r.lists.obj 1)) =
      some (some ⟨⟨some 1, 0⟩, ⟨some 2, 0⟩, 2⟩, some ⟨⟨some 2, 0⟩, .null, 2 ^ 64 - 1⟩) := by
    decide +kernel
  have hfreed : (takeRelease arraysMoved 1).map (fun r => released r.lists.mem.trace) =
      some [⟨some 1, 0⟩, ⟨some 0, 0⟩] := by decide +kernel
  obtain ⟨r₂, hr₂⟩ := Option.isSome_iff_exists.mp hsome
  rw [hr₂] at hlists hfreed
  simp only [Option.map_some, Option.some.injEq, Prod.mk.injEq] at hlists hfreed
  obtain ⟨a, h⟩ := run_tracks false arrays_run
  obtain ⟨ys, hmoved⟩ := moved_of_moveAssign h (by decide) arraysMoved_run
  have hregistered : Registered arrays.iterators 1 ⟨some 1, 0⟩ 1 := ⟨by decide, _, hit, rfl, rfl⟩
  refine ⟨arrays_run, arraysMoved_run, ⟨_, hregistered⟩,
    hmoved.source_not_unlinks (by decide) hregistered, r₂, _, _, hr₂, hlists.1, ?_, hlists.2, rfl,
    hmoved.source_breaks (by decide) hregistered hr₂⟩
  rw [hfreed]
  exact List.mem_cons_self

end Registry

end Voxory
