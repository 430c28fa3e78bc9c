import Voxory.LinkedList.Pool

/-!
# Lists constructed from lists

The copy and the move constructor start from the size of the source and then append the nodes, each
of which is counted again. The nodes are right; the size is twice what it should be.
-/

namespace Voxory
open Cxx Chain

namespace LinkedList

variable {α : Type} {E : Element α} {s s' : State (Node α) LinkedList} {xs ys zs : List (Ptr × α)}
  {b : Ptr} {k rounds : ℕ} {g : α → α} {take : Ptr → Method α α}

/-- What `take` does to a node: it hands out the value and leaves `g` of it behind. -/
def Takes (take : Ptr → Method α α) (g : α → α) : Prop :=
  ∀ t cur n, Heap t.mem → t.mem.object cur = some n → (take cur).Ends t
    (fun v t' => v = n.data ∧
      Turns t (Function.update t.mem.object cur (some { n with data := g n.data })) [] t')
    (fun _ => t.mem.fuse ≠ none)

lemma takeCopy_takes (E : Element α) : Takes (takeCopy E) id := by
  intro t cur n ht hn
  refine .step (read_turns ht hn) ?_
  refine ((mayThrow_turns E.copyThrows ht).mono (fun _ _ h => h) (fun _ h => h.2)).bind ?_
  intro _ u hu
  refine .pure ⟨rfl, ?_⟩
  rwa [id, ← hn, Function.update_eq_self]

lemma takeMove_takes (E : Element α) : Takes (takeMove E) E.movedFrom := by
  intro t cur n ht hn
  refine .step (read_turns ht hn) ?_
  refine ((mayThrow_turns E.moveThrows ht).mono (fun _ _ h => h) (fun _ h => h.2)).bind ?_
  intro _ u hu
  refine .of_returns ((assign_turns _ hu.heap (by rw [hu.object]; exact hn)).bind ?_)
  intro _ v hv
  rw [hu.object] at hv
  exact .pure ⟨rfl, hu.trans hv⟩

/-- Between `s` and `s'` nodes with the values of `zs` were appended, and `g` of the values was left
in `zs`. -/
structure EmplacesAll (s : State (Node α) LinkedList) (xs : List (Ptr × α)) (k : ℕ)
    (zs : List (Ptr × α)) (g : α → α) (ws : List (Ptr × α)) (s' : State (Node α) LinkedList) :
    Prop where
  shows : Shows s' (xs ++ ws) (k + zs.length)
  values : ws.map Prod.snd = zs.map Prod.snd
  fresh : ∀ q ∈ keys ws, s.mem.object q = none
  source : ∀ q ∈ keys zs, s'.mem.object q =
    (s.mem.object q).map (fun n => { n with data := g n.data })
  frame : ∀ q, q ∉ keys xs → q ∉ keys ws → q ∉ keys zs → s'.mem.object q = s.mem.object q
  released : released s'.mem.trace = Cxx.released s.mem.trace
  calm : s.mem.fuse = none → s'.mem.fuse = none

lemma EmplacesAll.cons {z : Ptr × α} {zs ws : List (Ptr × α)} {p after : Ptr}
    {s₁ s₂ : State (Node α) LinkedList}
    (h₁ : Appends s xs k z.2 (Function.update s.mem.object z.1 (some ⟨g z.2, after, b⟩)) p s₁)
    (h₂ : EmplacesAll s₁ (xs ++ [(p, z.2)]) (k + 1) zs g ws s₂)
    (hz : s.mem.object z.1 = some ⟨z.2, after, b⟩)
    (hold : ∀ q ∈ keys zs, s₁.mem.object q = s.mem.object q) (hzzs : z.1 ∉ keys zs)
    (hzx : z.1 ∉ keys xs) : EmplacesAll s xs k (z :: zs) g ((p, z.2) :: ws) s₂ := by
  have hzp : z.1 ≠ p := h₁.live (by rw [hz]; rfl)
  have hz₁ : s₁.mem.object z.1 = some ⟨g z.2, after, b⟩ := by
    rw [h₁.frame z.1 hzp hzx, Function.update_self]
  have hbeyond : ∀ q, q ∉ keys xs → q ≠ p → q ∉ keys (xs ++ [(p, z.2)]) := by
    intro q hqx hqp
    rw [keys_append, List.mem_append, not_or]
    exact ⟨hqx, fun hmem => hqp (List.mem_singleton.mp hmem)⟩
  refine ⟨?_, ?_, fun q hq => ?_, fun q hq => ?_, fun q hqx hqw hqz => ?_,
    h₂.released.trans h₁.released, fun hm => h₂.calm (h₁.calm hm)⟩
  · have hshows := h₂.shows
    rwa [List.append_assoc, Nat.add_assoc, Nat.add_comm 1] at hshows
  · rw [List.map_cons, List.map_cons, h₂.values]
  · rcases List.mem_cons.mp hq with rfl | hq
    · exact h₁.fresh
    · have hnone := h₂.fresh q hq
      have hq₁ := h₁.shows.onHeap.linked.not_mem hnone
      rw [keys_append, List.mem_append, not_or] at hq₁
      rw [h₁.frame q (fun he => hq₁.2 (by rw [he]; exact List.mem_cons_self)) hq₁.1] at hnone
      by_cases hqz : q = z.1
      · rw [hqz, Function.update_self] at hnone
        cases hnone
      · rwa [Function.update_of_ne hqz] at hnone
  · rcases List.mem_cons.mp hq with rfl | hq
    · have hzw : z.1 ∉ keys ws := fun hmem => by
        have hnone := h₂.fresh z.1 hmem
        rw [hz₁] at hnone
        cases hnone
      rw [h₂.frame z.1 (hbeyond z.1 hzx hzp) hzw hzzs, hz₁, hz]
      rfl
    · rw [h₂.source q hq, hold q hq]
  · rw [keys_cons, List.mem_cons, not_or] at hqw hqz
    rw [h₂.frame q (hbeyond q hqx hqw.1) hqw.2 hqz.2, h₁.frame q hqw.1 hqx,
      Function.update_of_ne hqz.1]

lemma emplaceAll_ends (htake : Takes take g) (h : Shows s xs k)
    (hzs : Linked s.mem.object b zs .null) (hnodup : (keys zs).Nodup)
    (hapart : List.Disjoint (keys xs) (keys zs)) (hrounds : zs.length ≤ rounds) :
    (emplaceAll E take rounds (front zs .null)).Ends s
      (fun _ s' => ∃ ws, EmplacesAll s xs k zs g ws s') (fun _ => s.mem.fuse ≠ none) := by
  induction zs generalizing s xs k b rounds with
  | nil =>
    have hend : emplaceAll E take rounds (front ([] : List (Ptr × α)) .null) =
        (pure () : Method α Unit) := by
      cases rounds <;> exact if_pos rfl
    rw [hend]
    refine .pure ⟨[], ?_, rfl, fun q hq => (nomatch hq), fun q hq => (nomatch hq),
      fun _ _ _ _ => rfl, rfl, id⟩
    rw [List.append_nil]
    exact h
  | cons z zs ih =>
    obtain ⟨rounds, rfl⟩ : ∃ n, rounds = n + 1 := ⟨rounds - 1, by
      rw [List.length_cons] at hrounds
      omega⟩
    obtain ⟨hz, hzs⟩ := hzs
    obtain ⟨hzzs, hnodup⟩ := List.nodup_cons.mp hnodup
    rw [keys_cons, List.disjoint_cons_right] at hapart
    rw [emplaceAll, if_neg (show front (z :: zs) Ptr.null ≠ Ptr.null from h.heap.ne_null hz)]
    have hback : (emplaceBack E (take z.1)).Ends s
        (fun p s₁ => Appends s xs k z.2 (Function.update s.mem.object z.1
          (some ⟨g z.2, front zs .null, b⟩)) p s₁) (fun _ => s.mem.fuse ≠ none) := by
      refine emplaceBack_ends z.2 h (fun t ht => ?_) (fun _ _ hm => hm) (fun _ _ hm => hm)
        (h.onHeap.linked.update hapart.1) (fun q hq => ?_)
      · refine (htake t z.1 _ ht.heap (by rw [ht.object]; exact hz)).mono (fun v t' hv => ?_)
          (fun _ hm hs => hm (ht.calm hs))
        rwa [ht.object] at hv
      · rw [Function.update_of_ne (fun he => by rw [he, hz] at hq; cases hq), hq]
    refine hback.bind ?_
    intro p s₁ h₁
    have hz₁ : s₁.mem.object z.1 = some ⟨g z.2, front zs .null, b⟩ := by
      rw [h₁.frame z.1 (h₁.live (by rw [hz]; rfl)) hapart.1, Function.update_self]
    have hold : ∀ q ∈ keys zs, s₁.mem.object q = s.mem.object q := by
      intro q hq
      rw [h₁.frame q (h₁.live (hzs.isSome hq)) (fun hqx => hapart.2 hqx hq),
        Function.update_of_ne (fun he : q = z.1 => hzzs (he ▸ hq))]
    refine .step (read_turns h₁.shows.heap hz₁) ?_
    refine (ih h₁.shows (hzs.congr hold) hnodup ?_ (by simpa using hrounds)).mono ?_
      (fun _ hm hs => hm (h₁.calm hs))
    · intro q hqx hq
      rw [keys_append, List.mem_append] at hqx
      rcases hqx with hqx | hqp
      · exact hapart.2 hqx hq
      · exact h₁.live (hzs.isSome hq) (List.mem_singleton.mp hqp)
    · rintro _ s₂ ⟨ws, h₂⟩
      exact ⟨(p, z.2) :: ws, .cons h₁ h₂ hz hold hzzs hapart.1⟩

/-- The list of `s` contains the values `vals` in order, and its size is the number of its nodes. -/
def Contains (s : State (Node α) LinkedList) (vals : List α) : Prop :=
  ∃ xs, Chained s.mem.object s.self xs ∧ xs.map Prod.snd = vals

/-- A chain whose counter started at `n` contains its values exactly if `n` was 0. -/
lemma contains_iff {n : ℕ} (h : Shows s xs (n + xs.length)) :
    Contains s (xs.map Prod.snd) ↔ n = 0 := by
  constructor
  · rintro ⟨zs, hchain, -⟩
    have hfollows : Follows s.mem.object Node.next s.self.first (keys xs) .null := by
      rw [h.self]
      exact h.onHeap.linked.follows_next
    have hsize := hchain.size
    rw [hchain.forward.unique h.heap.null hfollows, h.self, keys, List.length_map] at hsize
    change n + xs.length = xs.length at hsize
    omega
  · intro hn
    rw [hn, Nat.zero_add] at h
    have hchain := ListPool.chained_of_holds h.holds
    rw [← h.holds.self] at hchain
    exact ⟨xs, hchain, rfl⟩

lemma constructFrom_ends {m : Memory (Node α)} {l : LinkedList} (htake : Takes take g) (hm : Heap m)
    (hys : OnHeap m ys) :
    Code.Ends (do
      setSelf (⟨.null, .null, ys.length⟩ : LinkedList)
      let rounds ← handedOut
      emplaceAll E take rounds (front ys .null)) ⟨m, l⟩
      (fun _ s' => Contains s' (ys.map Prod.snd) ↔ ys = []) (fun _ => m.fuse ≠ none) := by
  refine .step (t := ⟨m, ⟨.null, .null, ys.length⟩⟩) rfl ?_
  refine .step (b := m.fresh) (t := ⟨m, ⟨.null, .null, ys.length⟩⟩) rfl ?_
  have hrounds : ys.length ≤ m.fresh := by
    have hle := hm.length_le hys.nodup (fun p hp => hys.linked.isSome hp)
    rwa [keys, List.length_map] at hle
  have hempty : Shows (⟨m, ⟨.null, .null, ys.length⟩⟩ : State (Node α) LinkedList) [] ys.length :=
    ⟨hm, rfl, trivial, List.nodup_nil⟩
  refine (emplaceAll_ends htake hempty hys.linked hys.nodup (fun q hq => by cases hq) hrounds).mono
    ?_ (fun _ h => h)
  rintro _ s' ⟨ws, hws⟩
  have hlen : ws.length = ys.length := by
    rw [← List.length_map Prod.snd, hws.values, List.length_map]
  have hshows := hws.shows
  rw [List.nil_append, ← hlen] at hshows
  rw [← hws.values, contains_iff hshows, hlen, List.length_eq_zero_iff]

lemma constructCopy_ends (E : Element α) {m : Memory (Node α)} (l : LinkedList) (hm : Heap m)
    (hys : OnHeap m ys) : (constructCopy E (ofNodes ys)).Ends ⟨m, l⟩
      (fun _ s' => Contains s' (ys.map Prod.snd) ↔ ys = []) (fun _ => m.fuse ≠ none) :=
  constructFrom_ends (E := E) (takeCopy_takes E) hm hys

lemma constructMove_ends (E : Element α) {m : Memory (Node α)} (l : LinkedList) (hm : Heap m)
    (hys : OnHeap m ys) : (constructMove E (ofNodes ys)).Ends ⟨m, l⟩
      (fun _ s' => Contains s' (ys.map Prod.snd) ↔ ys = []) (fun _ => m.fuse ≠ none) :=
  constructFrom_ends (E := E) (takeMove_takes E) hm hys

/-- The list constructed from another one, by copy or by move, contains its values with the right
size exactly if there are none. -/
theorem constructors_contain_iff (E : Element α) {m : Memory (Node α)} (l : LinkedList)
    (hm : Heap m) (hys : OnHeap m ys) :
    (constructCopy E (ofNodes ys)).Ends ⟨m, l⟩
      (fun _ s' => Contains s' (ys.map Prod.snd) ↔ ys = []) (fun _ => m.fuse ≠ none) ∧
    (constructMove E (ofNodes ys)).Ends ⟨m, l⟩
      (fun _ s' => Contains s' (ys.map Prod.snd) ↔ ys = []) (fun _ => m.fuse ≠ none) :=
  ⟨constructCopy_ends E l hm hys, constructMove_ends E l hm hys⟩

open Machine Objects in
lemma two_nodes : ∃ (p : ListPool ℕ) (ys : List (Ptr × ℕ)),
    run (ListPool.next (Element.plain 0 id)) (start false)
      [(none, .default 0), (none, .pushBack 0 10), (none, .pushBack 0 11)] = some p ∧
    p.obj 0 = some (ofNodes ys) ∧ Heap p.mem ∧ OnHeap p.mem ys ∧ ys.length = 2 := by
  have halong : Along (ListPool.next (Element.plain 0 id)) (fun p l => l.2.Legal p) (start false)
      [(none, .default 0), (none, .pushBack 0 10), (none, .pushBack 0 11)] := by decide +kernel
  obtain ⟨p, a, hrun, -, hsound⟩ := run_simulates_total ListPool.Sound Reference.Step
    (fun p a l hs hlegal => ListPool.step hs hlegal) (ListPool.Sound.start false) halong
  have hsize : ((run (ListPool.next (Element.plain 0 id)) (start false)
      [(none, .default 0), (none, .pushBack 0 10), (none, .pushBack 0 11)]).bind
        (fun p => (p.obj 0).map LinkedList.size)) = some 2 := by decide +kernel
  rw [hrun, Option.bind_some] at hsize
  obtain ⟨l, hl, hlsize⟩ := Option.map_eq_some_iff.mp hsize
  obtain ⟨ys, hys, rfl⟩ := hsound.nodes hl
  exact ⟨p, ys, hrun, hl, hsound.heap, hsound.onHeap 0 ys hys, hlsize⟩

theorem constructors_of_two_nodes : ∃ (m : Memory (Node ℕ)) (ys : List (Ptr × ℕ)),
    Heap m ∧ OnHeap m ys ∧ ys.length = 2 ∧
    (constructCopy (Element.plain 0 id) (ofNodes ys)).Ends ⟨m, nil⟩
      (fun _ s' => Contains s' (ys.map Prod.snd) ↔ ys = []) (fun _ => m.fuse ≠ none) ∧
    (constructMove (Element.plain 0 id) (ofNodes ys)).Ends ⟨m, nil⟩
      (fun _ s' => Contains s' (ys.map Prod.snd) ↔ ys = []) (fun _ => m.fuse ≠ none) := by
  obtain ⟨p, ys, -, -, hheap, honHeap, hlen⟩ := two_nodes
  exact ⟨p.mem, ys, hheap, honHeap, hlen,
    constructors_contain_iff (Element.plain 0 id) nil hheap honHeap⟩

/-- The copy of a list of two nodes reports a size of four. -/
theorem two_nodes_count_four : ∃ (m : Memory (Node ℕ)) (ys : List (Ptr × ℕ))
    (s' : State (Node ℕ) LinkedList), Heap m ∧ OnHeap m ys ∧ ys.length = 2 ∧
    constructCopy (Element.plain 0 id) (ofNodes ys) ⟨m, nil⟩ = .returned () s' ∧
    s'.self.size = 4 ∧ ¬Contains s' (ys.map Prod.snd) := by
  obtain ⟨p, ys, hrun, hobj, hheap, honHeap, hlen⟩ := two_nodes
  have hfour : ((Machine.run (ListPool.next (Element.plain 0 id)) (Objects.start false)
      [(none, .default 0), (none, .pushBack 0 10), (none, .pushBack 0 11)]).bind
        (fun p => (p.obj 0).bind (fun l =>
          (constructCopy (Element.plain 0 id) l ⟨p.mem, nil⟩).state?.map
            (fun s => s.self.size)))) = some 4 := by decide +kernel
  rw [hrun, Option.bind_some, hobj, Option.bind_some] at hfour
  obtain ⟨s', hs', hsize⟩ := Option.map_eq_some_iff.mp hfour
  obtain ⟨_, hreturned⟩ := Outcome.state?_eq_some.mp hs'
  have hends := constructCopy_ends (Element.plain 0 id) nil hheap honHeap
  rw [Code.Ends, hreturned] at hends
  refine ⟨p.mem, ys, s', hheap, honHeap, hlen, hreturned, hsize, fun hcontains => ?_⟩
  rw [hends.mp hcontains] at hlen
  cases hlen

end LinkedList

end Voxory
