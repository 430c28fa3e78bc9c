import Voxory.LinkedList.Construction

/-!
# Copy assignment of lists

Nodes that both lists have get the values of the source, and nodes that are missing are appended.
The loop that erases the nodes left over never gets to erase one: `unwrap` calls itself.
-/

namespace Voxory
open Cxx Chain

namespace LinkedList

variable {α : Type} {E : Element α} {s s' : State (Node α) LinkedList} {xs ys : List (Ptr × α)}
  {b b' : Ptr} {k depth : ℕ}

/-- The first `k` nodes of `xs` with the values of `ys`, and then the rest of `xs`. -/
def overwrite : ℕ → List (Ptr × α) → List (Ptr × α) → List (Ptr × α)
  | k + 1, x :: xs, y :: ys => (x.1, y.2) :: overwrite k xs ys
  | _, xs, _ => xs

lemma overwrite_zero (xs ys : List (Ptr × α)) : overwrite 0 xs ys = xs := by
  cases xs <;> rfl

lemma overwrite_keys (k : ℕ) (xs ys : List (Ptr × α)) : keys (overwrite k xs ys) = keys xs := by
  induction k generalizing xs ys with
  | zero => rw [overwrite_zero]
  | succ k ih =>
    cases xs with
    | nil => cases ys <;> rfl
    | cons x xs =>
      cases ys with
      | nil => rfl
      | cons y ys => rw [overwrite, keys_cons, keys_cons, ih]

lemma overwrite_values (xs ys : List (Ptr × α)) (h : xs.length ≤ ys.length) :
    (overwrite xs.length xs ys).map Prod.snd = (ys.take xs.length).map Prod.snd := by
  induction xs generalizing ys with
  | nil => rw [List.length_nil, overwrite_zero, List.take_zero]
  | cons x xs ih =>
    cases ys with
    | nil => exact absurd h (by simp)
    | cons y ys =>
      rw [List.length_cons, overwrite, List.map_cons, List.take_succ_cons, List.map_cons,
        ih ys (by simpa using h)]

lemma assignCommon_ends (hs : Heap s.mem) (hxs : Linked s.mem.object b xs .null)
    (hnodup : (keys xs).Nodup) (hys : Linked s.mem.object b' ys .null)
    (hapart : List.Disjoint (keys xs) (keys ys)) (hkx : k ≤ xs.length) (hky : k ≤ ys.length) :
    (assignCommon E k (front xs .null) (front ys .null)).Ends s
      (fun r s' => r = (front (xs.drop k) .null, front (ys.drop k) .null) ∧ s'.self = s.self ∧
        (∃ f, Reshapes s.mem f [] s'.mem) ∧
        Linked s'.mem.object b (overwrite k xs ys) .null ∧
        ∀ q, q ∉ keys xs → s'.mem.object q = s.mem.object q)
      (fun _ => s.mem.fuse ≠ none) := by
  induction k generalizing s xs ys b b' with
  | zero =>
    refine .pure ⟨rfl, rfl, ⟨_, .refl hs⟩, ?_, fun _ _ => rfl⟩
    rwa [overwrite_zero]
  | succ k ih =>
    cases xs with
    | nil => exact absurd hkx (by simp)
    | cons x xs =>
      cases ys with
      | nil => exact absurd hky (by simp)
      | cons y ys =>
        obtain ⟨hx, hxs⟩ := hxs
        obtain ⟨hy, hys⟩ := hys
        obtain ⟨hxxs, hnodup⟩ := List.nodup_cons.mp hnodup
        have hyx : y.1 ≠ x.1 := fun he => hapart List.mem_cons_self (by rw [← he]; simp)
        refine .step (read_turns hs hy) ?_
        refine ((mayThrow_turns E.copyAssignThrows hs).mono (fun _ _ h => h) (fun _ h => h.2)).bind
          ?_
        intro _ s₁ h₁
        have hx₁ : s₁.mem.object x.1 = some ⟨x.2, front xs .null, b⟩ := by rw [h₁.object, hx]
        refine .step (read_turns h₁.heap hx₁) ?_
        refine (Code.Ends.of_returns (assign_turns _ h₁.heap hx₁)).bind ?_
        intro _ s₂ h₂
        have hobject : ∀ q, q ≠ x.1 → s₂.mem.object q = s.mem.object q := by
          intro q hq
          rw [h₂.object, Function.update_of_ne hq, h₁.object]
        have hx₂ : s₂.mem.object x.1 = some ⟨y.2, front xs .null, b⟩ := by
          rw [h₂.object, Function.update_self]
        have hy₂ : s₂.mem.object y.1 = some ⟨y.2, front ys .null, b'⟩ := by rw [hobject _ hyx, hy]
        refine .step (read_turns h₂.heap hx₂) (.step (read_turns h₂.heap hy₂) ?_)
        have hyy : x.1 ∉ keys ys := fun hmem => hapart List.mem_cons_self
          (List.mem_cons_of_mem _ hmem)
        refine (ih h₂.heap (hxs.congr (fun q hq => hobject q (fun he => hxxs (he ▸ hq)))) hnodup
          (hys.congr (fun q hq => hobject q (fun he => hyy (he ▸ hq))))
          (fun q hq hq' => hapart (List.mem_cons_of_mem _ hq) (List.mem_cons_of_mem _ hq'))
          (by simpa using hkx) (by simpa using hky)).mono ?_
          (fun _ hm hn => hm (h₂.calm (h₁.calm hn)))
        rintro r s₃ ⟨hr, hself₃, ⟨f₃, h₃⟩, hlinked₃, hframe₃⟩
        refine ⟨hr, hself₃.trans (h₂.self.trans h₁.self),
          ⟨_, (h₁.toReshapes.trans h₂.toReshapes).trans h₃⟩, ⟨?_, hlinked₃⟩, fun q hq => ?_⟩
        · rw [hframe₃ x.1 hxxs, hx₂, front_congr (overwrite_keys k xs ys)]
        · rw [keys_cons, List.mem_cons, not_or] at hq
          rw [hframe₃ q hq.2, hobject q hq.1]

/-- The stack of a program is never deep enough for `unwrap`. -/
lemma unwrap_endless (depth : ℕ) (it : Ptr) (s : State (Node α) LinkedList) :
    unwrap depth it s = .terminated := by
  induction depth with
  | zero => rfl
  | succ depth ih => exact ih

lemma eraseFrom_endless {n : Node α} {it : Ptr} (hs : Heap s.mem) (hn : s.mem.object it = some n)
    (rounds : ℕ) : eraseFrom depth (rounds + 1) it s = .terminated := by
  rw [eraseFrom, if_neg (hs.ne_null hn), Code.bind_returned (read_turns hs hn), Code.bind_run,
    unwrap_endless]

/-- Between `s` and `s'` the list was assigned the values of a list of nodes `ys`: it is a chain of
them, no link of it leads to a node that was given back, and the source is as it was. -/
structure Assigned (s : State (Node α) LinkedList) (ys : List (Ptr × α))
    (s' : State (Node α) LinkedList) : Prop where
  target : ∃ zs, Chained s'.mem.object s'.self zs ∧ zs.map Prod.snd = ys.map Prod.snd ∧
    ∀ q n, q ∈ keys zs → s'.mem.object q = some n → q ∉ released s'.mem.trace ∧
      n.next ∉ released s'.mem.trace ∧ n.last ∉ released s'.mem.trace
  ends : s'.self.first ∉ released s'.mem.trace ∧ s'.self.second ∉ released s'.mem.trace
  source : ∀ q ∈ keys ys, s'.mem.object q = s.mem.object q

lemma assigned_of_holds {zs : List (Ptr × α)} (h : Holds s' zs)
    (hvalues : zs.map Prod.snd = ys.map Prod.snd)
    (hsource : ∀ q ∈ keys ys, s'.mem.object q = s.mem.object q) : Assigned s ys s' := by
  have hnode : ∀ r, r ∈ keys zs ∨ r = Ptr.null → r ∉ released s'.mem.trace := by
    rintro r (hr | rfl)
    · exact h.heap.not_released (h.isSome hr)
    · exact h.heap.null_not_released
  refine ⟨⟨zs, ?_, hvalues, fun q n hq hn => ?_⟩, ?_, hsource⟩
  · rw [h.self]
    exact ListPool.chained_of_holds h
  · have hlinks := h.onHeap.linked.links hq hn
    exact ⟨hnode q (Or.inl hq), hnode _ hlinks.1, hnode _ hlinks.2⟩
  · rw [h.self]
    by_cases hzs : zs = []
    · rw [hzs]
      exact ⟨h.heap.null_not_released, h.heap.null_not_released⟩
    · exact ⟨hnode _ (Or.inl (front_mem hzs)), hnode _ (Or.inl (back_mem hzs))⟩

lemma assignCopy_ends (h : Holds s xs) (hys : OnHeap s.mem ys)
    (hapart : List.Disjoint (keys xs) (keys ys)) (hle : xs.length ≤ ys.length) :
    (assignCopy E depth (ofNodes ys)).Ends s (fun _ s' => Assigned s ys s')
      (fun _ => s.mem.fuse ≠ none) := by
  refine .step (b := s.self) rfl ?_
  refine .step (b := s.mem.fresh) (t := s) rfl ?_
  have hmin : min s.self.size (ofNodes ys).size = xs.length := by
    rw [h.self]
    exact min_eq_left hle
  have hsize : s.self.size = xs.length := by rw [h.self]; rfl
  have hfirst : s.self.first = front xs .null := by rw [h.self]; rfl
  rw [hmin, hsize, hfirst]
  refine (assignCommon_ends h.heap h.onHeap.linked h.onHeap.nodup hys.linked hapart le_rfl hle).bind ?_
  rintro _ s₁ ⟨rfl, hself₁, ⟨f₁, h₁⟩, hlinked₁, hframe₁⟩
  have hkeys := overwrite_keys xs.length xs ys
  have hlen : (overwrite xs.length xs ys).length = xs.length := by
    have hmap := congrArg List.length hkeys
    rwa [keys, keys, List.length_map, List.length_map] at hmap
  have hself : s₁.self = { ofNodes (overwrite xs.length xs ys) with size := xs.length } := by
    rw [hself₁, h.self, ofNodes, ofNodes, front_congr hkeys, back_congr hkeys]
  have hshows : Shows s₁ (overwrite xs.length xs ys) xs.length :=
    ⟨h₁.heap, hself, hlinked₁, by rw [hkeys]; exact h.onHeap.nodup⟩
  have hsource₁ : ∀ q ∈ keys ys, s₁.mem.object q = s.mem.object q :=
    fun q hq => hframe₁ q (fun hqx => hapart hqx hq)
  have hvalues := overwrite_values xs ys hle
  by_cases hlt : xs.length < ys.length
  · simp only [if_pos (show xs.length < (ofNodes ys).size from hlt)]
    have hsplit : Linked s₁.mem.object .null (ys.take xs.length ++ ys.drop xs.length) .null := by
      rw [List.take_append_drop]
      exact hys.linked.congr hsource₁
    have hsub : (keys (ys.drop xs.length)).Sublist (keys ys) := (List.drop_sublist _ _).map _
    have hrounds : (ys.drop xs.length).length ≤ s.mem.fresh := by
      have hlength := h.heap.length_le hys.nodup (fun p hp => hys.linked.isSome hp)
      rw [keys, List.length_map] at hlength
      rw [List.length_drop]
      omega
    refine (emplaceAll_ends (takeCopy_takes E) hshows (linked_append.mp hsplit).2
      (hys.nodup.sublist hsub) (by
        rw [hkeys]
        exact fun q hq hq' => hapart hq (hsub.subset hq')) hrounds).mono ?_
      (fun _ hm hs => hm (h₁.calm hs))
    rintro _ s₂ ⟨ws, h₂⟩
    have hlength : ws.length = (ys.drop xs.length).length := by
      rw [← List.length_map Prod.snd, h₂.values, List.length_map]
    have hcount : xs.length + (ys.drop xs.length).length =
        (overwrite xs.length xs ys ++ ws).length := by
      rw [List.length_append, hlen, hlength]
    have hshows₂ := h₂.shows
    rw [hcount] at hshows₂
    refine assigned_of_holds hshows₂.holds ?_ (fun q hq => ?_)
    · rw [List.map_append, hvalues, h₂.values, ← List.map_append, List.take_append_drop]
    · rw [← hsource₁ q hq]
      by_cases hdrop : q ∈ keys (ys.drop xs.length)
      · rw [h₂.source q hdrop]
        cases s₁.mem.object q <;> rfl
      · refine h₂.frame q (fun hmem => hapart (hkeys ▸ hmem) hq) (fun hmem => ?_) hdrop
        exact hys.linked.not_mem ((hsource₁ q hq).symm.trans (h₂.fresh q hmem)) hq
  · have heq : ys.length = xs.length := by omega
    simp only [if_neg (show ¬xs.length < (ofNodes ys).size from hlt),
      if_neg (show ¬xs.length > (ofNodes ys).size from Nat.not_lt.mpr hle)]
    have hholds : Shows s₁ (overwrite xs.length xs ys) (overwrite xs.length xs ys).length := by
      rw [hlen]
      exact hshows
    refine .pure (assigned_of_holds hholds.holds ?_ hsource₁)
    rw [hvalues, ← heq, List.take_length]

/-- Assigning from a shorter list never comes back. -/
lemma assignCopy_lost (h : Holds s xs) (hys : OnHeap s.mem ys)
    (hapart : List.Disjoint (keys xs) (keys ys)) (hlt : ys.length < xs.length)
    (hfuse : s.mem.fuse = none) : assignCopy E depth (ofNodes ys) s = .terminated := by
  have hself : self s = .returned s.self s := rfl
  have hrounds : handedOut s = .returned s.mem.fresh s := rfl
  have hmin : min s.self.size (ofNodes ys).size = ys.length := by
    rw [h.self]
    exact min_eq_right hlt.le
  have hsize : s.self.size = xs.length := by rw [h.self]; rfl
  have hfirst : s.self.first = front xs .null := by rw [h.self]; rfl
  have hofirst : (ofNodes ys).first = front ys .null := rfl
  obtain ⟨_, s₁, hcommon, rfl, -, ⟨f₁, h₁⟩, hlinked₁, hframe₁⟩ :=
    (assignCommon_ends (E := E) h.heap h.onHeap.linked h.onHeap.nodup hys.linked hapart hlt.le
      le_rfl).returns (fun _ hm => hm hfuse)
  rw [assignCopy, Code.bind_returned hself, Code.bind_returned hrounds, hmin, hsize, hfirst,
    hofirst, Code.bind_returned hcommon]
  simp only [if_neg (show ¬xs.length < (ofNodes ys).size from Nat.not_lt.mpr hlt.le),
    if_pos (show xs.length > (ofNodes ys).size from hlt)]
  obtain ⟨x, rest, hrest⟩ := List.exists_cons_of_ne_nil
    (show xs.drop ys.length ≠ [] from fun hnil => absurd (List.drop_eq_nil_iff.mp hnil) (by omega))
  have hx : x.1 ∈ keys xs :=
    List.mem_map_of_mem (List.mem_of_mem_drop (hrest ▸ List.mem_cons_self))
  obtain ⟨n, hn⟩ := Option.isSome_iff_exists.mp
    (hlinked₁.isSome (by rw [overwrite_keys]; exact hx))
  obtain ⟨rounds, hfresh⟩ : ∃ r, s.mem.fresh = r + 1 := ⟨s.mem.fresh - 1, by
    have hle := h.heap.length_le h.onHeap.nodup (fun p hp => h.isSome hp)
    rw [keys, List.length_map] at hle
    omega⟩
  rw [hrest, hfresh, Code.bind_run]
  have hfront : front (x :: rest) Ptr.null = x.1 := rfl
  rw [hfront, eraseFrom_endless h₁.heap hn]

/-- Copy assignment from another list comes back with its values, unless an operation throws,
exactly if the target is not longer than the source. -/
theorem assignCopy_iff (E : Element α) (h : Holds s xs) (hys : OnHeap s.mem ys)
    (hapart : List.Disjoint (keys xs) (keys ys)) (depth : ℕ) :
    (∀ fuse, (assignCopy E depth (ofNodes ys)).Ends ⟨{ s.mem with fuse := fuse }, s.self⟩
      (fun _ s' => Assigned s ys s') (fun _ => fuse ≠ none)) ↔ xs.length ≤ ys.length := by
  have harm : ∀ fuse, Holds (⟨{ s.mem with fuse := fuse }, s.self⟩ : State (Node α) LinkedList) xs :=
    fun fuse => ⟨h.heap.arm fuse, h.self, h.onHeap.linked, h.onHeap.nodup⟩
  constructor
  · intro hends
    by_contra hnot
    have hlost := hends none
    rw [Code.Ends, assignCopy_lost (harm none) ⟨hys.linked, hys.nodup⟩ hapart (by omega) rfl] at hlost
    obtain ⟨_, hnone⟩ := hlost
    exact hnone rfl
  · intro hle fuse
    exact (assignCopy_ends (harm fuse) ⟨hys.linked, hys.nodup⟩ hapart hle).mono
      (fun _ s' hs' => ⟨hs'.target, hs'.ends, hs'.source⟩) (fun _ h => h)

open Machine Objects in
lemma one_and_two_nodes : ∃ (m : Memory (Node ℕ)) (xs ys : List (Ptr × ℕ)), Heap m ∧
    OnHeap m xs ∧ OnHeap m ys ∧ List.Disjoint (keys xs) (keys ys) ∧
    xs.length = 1 ∧ ys.length = 2 := by
  have halong : Along (ListPool.next (Element.plain 0 id)) (fun p l => l.2.Legal p) (start false)
      [(none, .default 0), (none, .default 1), (none, .pushBack 0 10), (none, .pushBack 1 20),
        (none, .pushBack 1 21)] := by decide +kernel
  obtain ⟨p, a, hrun, -, hsound⟩ := run_simulates_total ListPool.Sound Reference.Step
    (fun p a l hs hlegal => ListPool.step hs hlegal) (ListPool.Sound.start false) halong
  have hsizes : ((run (ListPool.next (Element.plain 0 id)) (start false)
      [(none, .default 0), (none, .default 1), (none, .pushBack 0 10), (none, .pushBack 1 20),
        (none, .pushBack 1 21)]).map (fun p => ((p.obj 0).map LinkedList.size,
          (p.obj 1).map LinkedList.size))) = some (some 1, some 2) := by decide +kernel
  rw [hrun, Option.map_some, Option.some.injEq, Prod.mk.injEq] at hsizes
  obtain ⟨l, hl, hlsize⟩ := Option.map_eq_some_iff.mp hsizes.1
  obtain ⟨l', hl', hlsize'⟩ := Option.map_eq_some_iff.mp hsizes.2
  obtain ⟨xs, hxs, rfl⟩ := hsound.nodes hl
  obtain ⟨ys, hys, rfl⟩ := hsound.nodes hl'
  exact ⟨p.mem, xs, ys, hsound.heap, hsound.onHeap 0 xs hxs, hsound.onHeap 1 ys hys,
    hsound.apart 0 1 xs ys (by decide) hxs hys, hlsize, hlsize'⟩

theorem assign_two_to_one : ∃ (m : Memory (Node ℕ)) (xs ys : List (Ptr × ℕ)),
    Holds (⟨m, ofNodes xs⟩ : State (Node ℕ) LinkedList) xs ∧ OnHeap m ys ∧
    List.Disjoint (keys xs) (keys ys) ∧ xs.length = 1 ∧ ys.length = 2 ∧
    ∀ fuse, (assignCopy (Element.plain 0 id) 100 (ofNodes ys)).Ends ⟨{ m with fuse := fuse }, ofNodes xs⟩
      (fun _ s' => Assigned ⟨m, ofNodes xs⟩ ys s') (fun _ => fuse ≠ none) := by
  obtain ⟨m, xs, ys, hheap, hxs, hys, hapart, hone, htwo⟩ := one_and_two_nodes
  have hholds : Holds (⟨m, ofNodes xs⟩ : State (Node ℕ) LinkedList) xs := ⟨hheap, rfl, hxs⟩
  exact ⟨m, xs, ys, hholds, hys, hapart, hone, htwo,
    (assignCopy_iff (Element.plain 0 id) hholds hys hapart 100).mpr (by omega)⟩

/-- Assigning a list of one node to a list of two, however deep the stack is. -/
theorem assign_one_to_two : ∃ (m : Memory (Node ℕ)) (xs ys : List (Ptr × ℕ)),
    Holds (⟨m, ofNodes ys⟩ : State (Node ℕ) LinkedList) ys ∧ OnHeap m xs ∧
    List.Disjoint (keys ys) (keys xs) ∧ xs.length = 1 ∧ ys.length = 2 ∧
    ∀ depth, assignCopy (Element.plain 0 id) depth (ofNodes xs)
      ⟨{ m with fuse := none }, ofNodes ys⟩ = .terminated := by
  obtain ⟨m, xs, ys, hheap, hxs, hys, hapart, hone, htwo⟩ := one_and_two_nodes
  refine ⟨m, xs, ys, ⟨hheap, rfl, hys⟩, hxs, hapart.symm, hone, htwo, fun depth => ?_⟩
  exact assignCopy_lost ⟨hheap.arm none, rfl, hys.linked, hys.nodup⟩
    ⟨hxs.linked, hxs.nodup⟩ hapart.symm (by omega) rfl

end LinkedList

end Voxory
