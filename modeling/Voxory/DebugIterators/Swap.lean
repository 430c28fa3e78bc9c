import Voxory.DebugIterators.Moves
import Voxory.LinkedList.Construction

/-!
# Swapping two registries

`_swap_proxies` moves the list of a container into a temporary, that of the other container into
its place, and then that very list back. The temporary, which got copies of the nodes, is not used
again: the other container has its own list after all, and the first one has none.
-/

namespace Voxory
open Cxx Chain Machine

namespace ListPool

open LinkedList

variable {α : Type} {p : ListPool α} {a : Reference α} {m : Memory (Node α)} {gone : List Ptr}

lemma Sound.beside (h : Sound p a) (hm : Heap m)
    (hframe : ∀ x xs, a.nodes x = some xs → ∀ q ∈ keys xs, m.object q = p.mem.object q)
    (hremoved : released m.trace = gone ++ released p.mem.trace) (honce : gone.Nodup)
    (hgone : ∀ q ∈ gone, (p.mem.object q).isSome) :
    Sound ⟨m, p.obj⟩ ⟨a.nodes, gone ++ a.removed⟩ where
  heap := hm
  fields := h.fields
  onHeap x xs hx := (h.onHeap x xs hx).frame (hframe x xs hx)
  apart := h.apart
  removed := by rw [hremoved, h.removed]
  once := by
    apply List.nodup_append.mpr
    refine ⟨honce, h.once, fun q hq r hr hqr => ?_⟩
    rw [← h.removed, ← hqr] at hr
    exact h.heap.not_released (hgone q hq) hr

end ListPool

namespace Registry

open Objects ListPool LinkedList

/-- `_swap_proxies`; the temporary is destroyed at the end of it. -/
def swapProxies (c o : ℕ) : Code Registry Unit := do
  let l ← onLists (fields c)
  let (_, tmp) ← onLists (temporary LinkedList.nil (LinkedList.constructMove addresses l))
  onLists ((ListAction.moveAssign c o).code addresses)
  onLists ((ListAction.moveAssign o c).code addresses)
  let _ ← onLists (temporary tmp LinkedList.destruct)

/-- The list of the container `c` is a chain of nodes with the names `names`. -/
def Lists (r : Registry) (c : ℕ) (names : List ℕ) : Prop :=
  ∃ l xs, r.lists.obj c = some l ∧ Chained r.lists.mem.object l xs ∧ xs.map Prod.snd = names

/-- The iterator `x` knows a live node that has its name. -/
def Stored (r : Registry) (x : ℕ) : Prop :=
  ∃ it n, r.iterators x = some it ∧ r.lists.mem.object it.proxy = some n ∧ n.data = x

/-- The containers `c`, which had the names `xs` in its list, and `o`, which had the names `ys`,
exchanged them; the iterators still know their nodes, and another swap undoes this one. -/
structure Swapped (c o : ℕ) (xs ys : List ℕ) (r : Registry) : Prop where
  first : Lists r c ys
  second : Lists r o xs
  stored : ∀ x ∈ xs ++ ys, Stored r x
  back : ∀ r', swapProxies c o r = .returned () r' → Lists r' c xs ∧ Lists r' o ys

variable {r r' : Registry} {a : Reference ℕ} {c o : ℕ} {xs ys : List (Ptr × ℕ)} {names : List ℕ}

lemma lists_of_sound (h : Sound r.lists a) (hc : a.nodes c = some xs) :
    Lists r c (xs.map Prod.snd) := by
  refine ⟨ofNodes xs, xs, ?_, chained_of_holds (h.holds hc), rfl⟩
  rw [h.fields, hc]
  rfl

lemma lists_nil (h : Sound r.lists a) (hc : a.nodes c = some []) (hnames : Lists r c names) :
    names = [] := by
  obtain ⟨l, xs, hl, hchained, rfl⟩ := hnames
  rw [h.fields, hc] at hl
  cases hl
  have hsize := hchained.size
  rw [keys, List.length_map] at hsize
  rw [List.length_eq_zero_iff.mp hsize.symm, List.map_nil]

lemma temporary_ends {m : Method ℕ Unit} {l : LinkedList}
    {Q R : State (Node ℕ) LinkedList → Prop} (h : m.Ends ⟨r.lists.mem, l⟩ (fun _ s' => Q s') R) :
    (onLists (temporary l m)).Ends r
      (fun b r' => ∃ s', Q s' ∧ b.2 = s'.self ∧ r' = { r with lists := ⟨s'.mem, r.lists.obj⟩ })
      (fun _ => ∃ s' : State (Node ℕ) LinkedList, R s') := by
  rw [Code.Ends] at h
  simp only [Code.Ends, onLists, temporary]
  cases hm : m ⟨r.lists.mem, l⟩ <;> rw [hm] at h
  · exact ⟨_, h, rfl, rfl⟩
  · exact ⟨_, h⟩
  · exact h.elim (fun s' hs' => ⟨r, s', hs'⟩)
  · exact h

/-- The temporary gets nodes of its own, and counts each of them twice. -/
lemma constructMove_beside (h : Sound r.lists a) (hc : a.nodes c = some xs) :
    (LinkedList.constructMove addresses (ofNodes xs)).Ends ⟨r.lists.mem, LinkedList.nil⟩
      (fun _ s' => Sound ⟨s'.mem, r.lists.obj⟩ a ∧
        ∃ ws k, Shows s' ws k ∧ ∀ q ∈ keys ws, r.lists.mem.object q = none)
      (fun _ => r.lists.mem.fuse ≠ none) := by
  have honHeap := h.onHeap c xs hc
  have hempty : Shows (⟨r.lists.mem, ⟨.null, .null, xs.length⟩⟩ : State (Node ℕ) LinkedList) []
      xs.length := ⟨h.heap, rfl, trivial, List.nodup_nil⟩
  unfold LinkedList.constructMove
  refine .step (t := ⟨r.lists.mem, ⟨.null, .null, xs.length⟩⟩) rfl ?_
  refine .step (b := r.lists.mem.fresh) (t := ⟨r.lists.mem, ⟨.null, .null, xs.length⟩⟩) rfl ?_
  apply (emplaceAll_ends (takeMove_takes addresses) hempty honHeap.linked honHeap.nodup
    (fun q hq => absurd hq List.not_mem_nil) (length_le_fresh h hc)).mono ?_ (fun _ hfuse => hfuse)
  intro _ s' ⟨ws, hws⟩
  have hreleased : released s'.mem.trace = [] ++ released r.lists.mem.trace := hws.released
  refine ⟨h.beside hws.shows.heap ?_ hreleased List.nodup_nil ?_, ws, _, hws.shows, hws.fresh⟩
  · intro y zs hy q hq
    by_cases hqx : q ∈ keys xs
    · rw [hws.source q hqx]
      exact Option.map_id'
    · apply hws.frame q List.not_mem_nil (fun hqw => ?_) hqx
      exact (h.onHeap y zs hy).linked.not_mem (hws.fresh q hqw) hq
  · intro q hq
    cases hq

/-- The list of `o` is its own again, and that of `c` is empty. -/
lemma swapProxies_ends (h : Sound r.lists a) (hco : c ≠ o) (hc : a.nodes c = some xs)
    (ho : a.nodes o = some ys) : (swapProxies c o).Ends r
      (fun _ r' => ∃ a', Sound r'.lists a' ∧ a'.nodes c = some [] ∧ a'.nodes o = some ys)
      (fun _ => r.lists.mem.fuse ≠ none) := by
  have hobj : r.lists.obj c = some (ofNodes xs) := by
    rw [h.fields, hc]
    rfl
  unfold swapProxies
  apply Code.Ends.step (fields_returned hobj)
  apply ((temporary_ends (constructMove_beside h hc)).mono (fun _ _ ht => ht)
    (fun _ ⟨_, hfuse⟩ => hfuse)).bind
  intro ⟨_, tmp⟩ _ ⟨s, ⟨hs, ws, k, hws, hfresh⟩, htmp, hr⟩
  subst hr
  apply Code.Ends.of_returns
  -- into the place of `c`, and back
  apply (onLists_returns (r := { r with lists := ⟨s.mem, r.lists.obj⟩ })
    (hs.moveAssign_keeps hco hc ho)).bind
  intro _ _ ⟨p₁, ⟨h₁, hframe₁⟩, hr₁⟩
  subst hr₁
  have hc₁ : Function.update (Function.update a.nodes c (some ys)) o (some []) c = some ys := by
    rw [Function.update_of_ne hco, Function.update_self]
  apply (onLists_returns (r := { r with lists := p₁ })
    (h₁.moveAssign_keeps hco.symm (Function.update_self _ _ _) hc₁)).bind
  intro _ _ ⟨p₂, ⟨h₂, hframe₂⟩, hr₂⟩
  subst hr₂
  have hobject : ∀ q ∈ keys ws, p₂.mem.object q = s.mem.object q := by
    intro q hq
    rw [hframe₂ q List.not_mem_nil, hframe₁ q (h.not_mem (hfresh q hq) hc)]
  have htemporary : Shows (⟨p₂.mem, tmp⟩ : State (Node ℕ) LinkedList) ws k :=
    ⟨h₂.heap, htmp.trans hws.self, hws.onHeap.frame hobject⟩
  -- the end of the temporary
  apply ((temporary_ends (r := { r with lists := p₂ })
    (.of_returns htemporary.clear_returns)).returns (fun _ ⟨_, hfalse⟩ => hfalse)).bind
  intro _ _ ⟨s', hs', _, hr'⟩
  subst hr'
  apply Code.Returns.pure
  refine ⟨_, h₂.beside hs'.holds.heap (fun y zs hy q hq => ?_) hs'.released
    (List.nodup_reverse.mpr hws.onHeap.nodup) (fun q hq => ?_), ?_, ?_⟩
  · apply hs'.frame q (fun hqw => ?_) List.not_mem_nil
    have hold : ∃ x xs', a.nodes x = some xs' ∧ q ∈ keys xs' := by
      rcases Sound.of_update hy with ⟨-, hzs⟩ | ⟨hyc, hzs⟩
      · cases hzs
        exact absurd hq List.not_mem_nil
      rcases Sound.of_update hzs with ⟨-, hzs⟩ | ⟨hyo, hzs⟩
      · cases hzs
        exact ⟨o, ys, ho, hq⟩
      change Function.update (Function.update a.nodes c (some ys)) o (some []) y = some zs at hzs
      rw [Function.update_of_ne hyo, Function.update_of_ne hyc] at hzs
      exact ⟨y, zs, hzs, hq⟩
    obtain ⟨x, xs', hx, hqx⟩ := hold
    exact h.not_mem (hfresh q hqw) hx hqx
  · exact htemporary.onHeap.linked.isSome (List.mem_reverse.mp hq)
  · exact Function.update_self _ _ _
  · exact (Function.update_of_ne hco.symm _ _).trans (Function.update_self _ _ _)

/-- The swap exchanges the two registries exactly when no iterator is in either of them. -/
theorem swapped_iff (h : Sound r.lists a) (hco : c ≠ o) (hc : a.nodes c = some xs)
    (ho : a.nodes o = some ys) : (swapProxies c o).Ends r
      (fun _ r' => Swapped c o (xs.map Prod.snd) (ys.map Prod.snd) r' ↔ xs = [] ∧ ys = [])
      (fun _ => r.lists.mem.fuse ≠ none) := by
  apply (swapProxies_ends h hco hc ho).mono ?_ (fun _ hfuse => hfuse)
  intro _ r' ⟨a', h', hc', ho'⟩
  constructor
  · intro hswapped
    have hys : ys = [] := List.map_eq_nil_iff.mp (lists_nil h' hc' hswapped.first)
    rw [hys] at ho'
    exact ⟨List.map_eq_nil_iff.mp (lists_nil h' ho' hswapped.second), hys⟩
  · intro ⟨hxs, hys⟩
    subst hxs hys
    refine ⟨lists_of_sound h' hc', lists_of_sound h' ho', fun x hx => absurd hx List.not_mem_nil,
      fun r'' hagain => ?_⟩
    have hends := swapProxies_ends h' hco hc' ho'
    rw [Code.Ends, hagain] at hends
    obtain ⟨a'', h'', hc'', ho''⟩ := hends
    exact ⟨lists_of_sound h'' hc'', lists_of_sound h'' ho''⟩

lemma nodes_nil (h : Sound r.lists a) (hc : r.lists.obj c = some nil) : a.nodes c = some [] := by
  obtain ⟨xs, hxs, hnil⟩ := h.nodes hc
  have hlength : xs.length = 0 := (congrArg LinkedList.size hnil).symm
  rwa [List.length_eq_zero_iff.mp hlength] at hxs

/-- A container with an iterator, and one without. -/
def visited : List (Option ℕ × RegistryAction) :=
  [(none, .container 0), (none, .container 1), (none, .construct 0 0 8)]

lemma visited_sound : ∃ r a, run next (start false) visited = some r ∧ Sound r.lists a ∧
    a.nodes 0 = some [(⟨some 0, 0⟩, 0)] ∧ a.nodes 1 = some [] ∧ r.lists.mem.fuse = none := by
  obtain ⟨r, hrun, hfields⟩ := Option.map_eq_some_iff.mp
    (show (run next (start false) visited).map
      (fun r => (r.iterators 0, r.lists.obj 1, (r.lists.obj 0).map LinkedList.size,
        r.lists.mem.fuse)) =
        some (some ⟨0, ⟨some 0, 0⟩, 8⟩, some nil, some 1, none) by decide +kernel)
  simp only [Prod.mk.injEq] at hfields
  obtain ⟨hiterator, hsecond, hfirst, hfuse⟩ := hfields
  obtain ⟨a, h⟩ := run_tracks false hrun
  obtain ⟨l, hl, hsize⟩ := Option.map_eq_some_iff.mp hfirst
  obtain ⟨xs, hxs, rfl⟩ := h.sound.nodes hl
  have hmem : ((⟨some 0, 0⟩ : Ptr), 0) ∈ xs :=
    (h.exact 0 xs hxs _ _).mpr ⟨by decide, _, hiterator, rfl, rfl⟩
  have hone : xs = [(⟨some 0, 0⟩, 0)] := by
    obtain ⟨z, rfl⟩ := List.length_eq_one_iff.mp hsize
    rw [List.mem_singleton.mp hmem]
  rw [hone] at hxs
  exact ⟨r, a, hrun, h.sound, hxs, nodes_nil h.sound hsecond, hfuse⟩

/-- Two containers without iterators are swapped, and two of which one has an iterator are not. -/
theorem idle_swapped :
    (∃ r r', run next (start false) [(none, .container 0), (none, .container 1)] = some r ∧
      swapProxies 0 1 r = .returned () r' ∧ Swapped 0 1 [] [] r') ∧
    ∃ r r', run next (start false) visited = some r ∧
      swapProxies 0 1 r = .returned () r' ∧ ¬Swapped 0 1 [0] [] r' := by
  constructor
  · obtain ⟨r, hrun, hlists⟩ := Option.map_eq_some_iff.mp
      (show (run next (start false) [(none, .container 0), (none, .container 1)]).map
        (fun r => (r.lists.obj 0, r.lists.obj 1, r.lists.mem.fuse)) =
          some (some nil, some nil, none) by decide +kernel)
    simp only [Prod.mk.injEq] at hlists
    obtain ⟨a, h⟩ := run_tracks false hrun
    have hends := swapped_iff h.sound (by decide : 0 ≠ 1) (nodes_nil h.sound hlists.1)
      (nodes_nil h.sound hlists.2.1)
    obtain ⟨_, r', hr', hiff⟩ := hends.returns (fun _ hfuse => hfuse hlists.2.2)
    exact ⟨r, r', hrun, hr', hiff.mpr ⟨rfl, rfl⟩⟩
  · obtain ⟨r, a, hrun, h, hfirst, hsecond, hfuse⟩ := visited_sound
    have hends := swapped_iff h (by decide : 0 ≠ 1) hfirst hsecond
    obtain ⟨_, r', hr', hiff⟩ := hends.returns (fun _ hthrew => hthrew hfuse)
    refine ⟨r, r', hrun, hr', fun hswapped => ?_⟩
    obtain ⟨hnil, -⟩ := hiff.mp hswapped
    cases hnil

/-- The registration is in neither list any more, and the iterator's node is gone. -/
theorem registration_lost : ∃ r r', run next (start false) visited = some r ∧ Lists r 0 [0] ∧
    Lists r 1 [] ∧ swapProxies 0 1 r = .returned () r' ∧ Lists r' 0 [] ∧ Lists r' 1 [] ∧
    (∃ it, r'.iterators 0 = some it ∧ it.proxy ∈ released r'.lists.mem.trace) ∧
    ¬Swapped 0 1 [0] [] r' := by
  obtain ⟨r, a, hrun, h, hfirst, hsecond, -⟩ := visited_sound
  obtain ⟨r', hswap, hfields⟩ := Option.map_eq_some_iff.mp
    (show ((run next (start false) visited).bind (fun r => (swapProxies 0 1 r).state?)).map
      (fun r => (r.iterators 0, released r.lists.mem.trace)) =
        some (some ⟨0, ⟨some 0, 0⟩, 8⟩, [⟨some 1, 0⟩, ⟨some 0, 0⟩]) by decide +kernel)
  simp only [Prod.mk.injEq] at hfields
  rw [hrun, Option.bind_some] at hswap
  obtain ⟨_, hr'⟩ := Outcome.state?_eq_some.mp hswap
  have hends := swapProxies_ends h (by decide : 0 ≠ 1) hfirst hsecond
  rw [Code.Ends, hr'] at hends
  obtain ⟨a', h', hc', ho'⟩ := hends
  refine ⟨r, r', hrun, lists_of_sound h hfirst, lists_of_sound h hsecond, hr',
    lists_of_sound h' hc', lists_of_sound h' ho', ⟨_, hfields.1, ?_⟩, fun hswapped => ?_⟩
  · rw [hfields.2]
    decide
  · cases lists_nil h' ho' hswapped.second

end Registry

end Voxory
