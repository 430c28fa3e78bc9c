import Voxory.LinkedList.Model

/-!
# Nodes on the heap

A memory whose objects are nodes, one to a block: a partial map from addresses to nodes, with the
addresses that have been given back. `Turns` is what a step does to it; the lemmas below say it for
every access to a node.
-/

namespace Voxory
open Cxx Chain

variable {α ρ : Type}

/-- Every node has a block to itself, and a block that was given back stays away. -/
structure Heap (m : Memory (Node α)) : Prop where
  wf : m.Wf
  tidy : m.Tidy
  blocks : ∀ p, (m.object p).isSome → ∃ b, p = ⟨some b, 0⟩ ∧ m.extent b = some 1
  gone : ∀ p ∈ released m.trace, ∃ b, p = ⟨some b, 0⟩ ∧ b < m.fresh ∧ m.extent b = none

/-- Between `m` and `m'` the nodes became `f`, and the blocks `freed` were given back. -/
structure Reshapes (m : Memory (Node α)) (f : Ptr → Option (Node α)) (freed : List Ptr)
    (m' : Memory (Node α)) : Prop where
  heap : Heap m'
  object : m'.object = f
  released : released m'.trace = freed ++ released m.trace
  extent : ∀ b k, m.extent b = some k → (⟨some b, 0⟩ : Ptr) ∉ freed → m'.extent b = some k
  calm : m.fuse = none → m'.fuse = none

/-- A step reshapes the heap and leaves the fields alone. -/
structure Turns (s : State (Node α) ρ) (f : Ptr → Option (Node α)) (freed : List Ptr)
    (s' : State (Node α) ρ) : Prop extends Reshapes s.mem f freed s'.mem where
  self : s'.self = s.self

variable {s s' s'' : State (Node α) ρ} {f g : Ptr → Option (Node α)} {freed freed' : List Ptr}
  {p : Ptr} {n n' : Node α}

namespace Heap

lemma empty (z : Bool) : Heap (Memory.empty none z : Memory (Node α)) :=
  ⟨Memory.empty_wf none z, Memory.empty_tidy none z, fun _ h => by simp [Memory.empty] at h,
    fun _ h => nomatch h⟩

lemma arm {m : Memory (Node α)} (h : Heap m) (k : Option ℕ) : Heap { m with fuse := k } :=
  ⟨⟨h.wf.fresh, h.wf.bounds⟩, ⟨h.tidy.lifetimes, h.tidy.blocks⟩, h.blocks, h.gone⟩

lemma null {m : Memory (Node α)} (h : Heap m) : m.object .null = none := by
  by_contra hn
  obtain ⟨b, hb, -⟩ := h.blocks .null (Option.isSome_iff_ne_none.mpr hn)
  cases hb

lemma ne_null {m : Memory (Node α)} (h : Heap m) (hp : m.object p = some n) : p ≠ .null := by
  rintro rfl
  rw [h.null] at hp
  cases hp

lemma lt_fresh {m : Memory (Node α)} (h : Heap m) {b : ℕ} (hb : m.extent b = some 1) :
    b < m.fresh := by
  by_contra hge
  rw [h.wf.fresh b (by omega)] at hb
  cases hb

lemma not_released {m : Memory (Node α)} (h : Heap m) (hp : (m.object p).isSome) :
    p ∉ Cxx.released m.trace := by
  intro hmem
  obtain ⟨b, rfl, hb⟩ := h.blocks p hp
  obtain ⟨c, hc, -, hnone⟩ := h.gone _ hmem
  cases hc
  rw [hb] at hnone
  cases hnone

lemma null_not_released {m : Memory (Node α)} (h : Heap m) : Ptr.null ∉ Cxx.released m.trace := by
  intro hmem
  obtain ⟨b, hb, -⟩ := h.gone _ hmem
  cases hb

lemma length_le {m : Memory (Node α)} (h : Heap m) {ps : List Ptr} (hnodup : ps.Nodup)
    (hps : ∀ p ∈ ps, (m.object p).isSome) : ps.length ≤ m.fresh := by
  have hblock : ∀ p ∈ ps, ∃ b, p = ⟨some b, 0⟩ ∧ b < m.fresh := by
    intro p hp
    obtain ⟨b, rfl, hb⟩ := h.blocks p (hps p hp)
    exact ⟨b, rfl, h.lt_fresh hb⟩
  have hsub : ps ⊆ (List.range m.fresh).map (fun b => (⟨some b, 0⟩ : Ptr)) := by
    intro p hp
    obtain ⟨b, rfl, hb⟩ := hblock p hp
    exact List.mem_map.mpr ⟨b, List.mem_range.mpr hb, rfl⟩
  have hle := (hnodup.subperm hsub).length_le
  rwa [List.length_map, List.length_range] at hle

end Heap

namespace Reshapes

variable {m m' m'' : Memory (Node α)}

lemma refl (h : Heap m) : Reshapes m m.object [] m := ⟨h, rfl, rfl, fun _ _ hb _ => hb, id⟩

lemma trans (h : Reshapes m f freed m') (h' : Reshapes m' g freed' m'') :
    Reshapes m g (freed' ++ freed) m'' where
  heap := h'.heap
  object := h'.object
  released := by rw [h'.released, h.released, List.append_assoc]
  extent b k hb hfreed := by
    rw [List.mem_append, not_or] at hfreed
    exact h'.extent b k (h.extent b k hb hfreed.2) hfreed.1
  calm hm := h'.calm (h.calm hm)

end Reshapes

namespace Turns

lemma refl (h : Heap s.mem) : Turns s s.mem.object [] s := ⟨.refl h, rfl⟩

lemma trans (h : Turns s f freed s') (h' : Turns s' g freed' s'') :
    Turns s g (freed' ++ freed) s'' :=
  ⟨h.toReshapes.trans h'.toReshapes, h'.self.trans h.self⟩

end Turns

/-! ### Accesses to nodes -/

lemma calm_of_spent {k : ℕ} {m m' : Memory (Node α)} (h : Spent k m.fuse m'.fuse)
    (hm : m.fuse = none) : m'.fuse = none := by
  rw [h.2, hm]
  rfl

lemma Turns.of_becomes {k : ℕ} (hs : Heap s.mem) (h : s.Becomes k f s')
    (hf : ∀ p, (f p).isSome → (s.mem.object p).isSome)
    (hreleased : Cxx.released s'.mem.trace = Cxx.released s.mem.trace) : Turns s f [] s' where
  heap := {
    wf := h.wf hs.wf
    tidy := h.tidy hs.tidy
    blocks := fun p hp => by
      rw [h.object] at hp
      rw [h.extent]
      exact hs.blocks p (hf p hp)
    gone := fun p hp => by
      rw [hreleased] at hp
      obtain ⟨b, hb, hlt, hnone⟩ := hs.gone p hp
      exact ⟨b, hb, hlt.trans_le h.fresh, by rw [h.extent, hnone]⟩ }
  self := h.self
  object := h.object
  released := hreleased
  extent b k hb _ := by rw [h.extent, hb]
  calm := calm_of_spent h.spent

lemma mayThrow_turns (b : Bool) (hs : Heap s.mem) : (mayThrow b).Ends s
    (fun _ s' => Turns s s.mem.object [] s')
    (fun s' => Turns s s.mem.object [] s' ∧ s.mem.fuse ≠ none) := by
  cases b with
  | false => exact .refl hs
  | true =>
    rw [Code.Ends, mayThrow, if_pos rfl]
    cases hf : s.mem.fuse with
    | none => exact .refl hs
    | some k =>
      cases k with
      | zero => exact ⟨⟨⟨hs.arm none, rfl, rfl, fun _ _ hb _ => hb, fun _ => rfl⟩, rfl⟩, by simp⟩
      | succ k => exact ⟨⟨hs.arm (some k), rfl, rfl, fun _ _ hb _ => hb, fun hn => by
          rw [hf] at hn
          cases hn⟩, rfl⟩

lemma read_turns (hs : Heap s.mem) (hp : s.mem.object p = some n) :
    Cxx.read p s = .returned n s := read_run hs.wf hp

lemma assign_turns (n' : Node α) (hs : Heap s.mem) (hp : s.mem.object p = some n) :
    (assign p n').Returns s
      (fun _ s' => Turns s (Function.update s.mem.object p (some n')) [] s') := by
  have hb := hs.wf.bounds p (by rw [hp]; rfl)
  obtain ⟨_, s', hrun, hbe⟩ := assign_returns n' hs.wf hp
  refine ⟨(), s', hrun, .of_becomes hs hbe (fun q hq => ?_) ?_⟩
  · by_cases hqp : q = p
    · rw [hqp, hp]
      rfl
    · rwa [Function.update_of_ne hqp] at hq
  · rw [assign, if_pos hb, hp] at hrun
    cases hrun
    rfl

lemma destroyBlock_turns (hs : Heap s.mem) (hp : s.mem.object p = some n) :
    Code.Returns (do destroy p; deallocate p 1) s
      (fun _ s' => Turns s (Function.update s.mem.object p none) [p] s') := by
  have hb := hs.wf.bounds p (by rw [hp]; rfl)
  obtain ⟨b, rfl, hext⟩ := hs.blocks p (by rw [hp]; rfl)
  obtain ⟨_, t, hrun, hbe⟩ := destroy_returns hs.wf hp
  have htrace : released t.mem.trace = released s.mem.trace := by
    rw [destroy, if_pos hb, hp] at hrun
    cases hrun
    rfl
  refine .step hrun ?_
  have hraw : ∀ i, t.mem.object ⟨some b, i⟩ = none := by
    intro i
    rw [hbe.object]
    by_cases hi : i = 0
    · rw [hi, Function.update_self]
    · rw [Function.update_of_ne (by simpa using hi)]
      by_contra hn
      obtain ⟨c, hc, -⟩ := hs.blocks _ (Option.isSome_iff_ne_none.mpr hn)
      exact hi (congrArg Ptr.off hc)
  obtain ⟨_, s', hfree, hre⟩ := deallocate_returns (n := 1) (by rw [hbe.extent, hext]) hraw
  have hreleased : released s'.mem.trace = ⟨some b, 0⟩ :: released s.mem.trace := by
    rw [← htrace]
    cases hfree
    rfl
  refine ⟨(), s', hfree, ⟨⟨hre.wf (hbe.wf hs.wf), hre.tidy (hbe.tidy hs.tidy), ?_, ?_⟩,
    hre.object.trans hbe.object, hreleased, ?_, fun hm => ?_⟩, hre.self.trans hbe.self⟩
  · intro q hq
    rw [hre.object, hbe.object] at hq
    by_cases hqp : q = ⟨some b, 0⟩
    · rw [hqp, Function.update_self] at hq
      cases hq
    · rw [Function.update_of_ne hqp] at hq
      obtain ⟨c, rfl, hc⟩ := hs.blocks q hq
      refine ⟨c, rfl, ?_⟩
      rw [hre.extent, Function.update_of_ne (fun h => hqp (by rw [h])), hbe.extent, hc]
  · intro q hq
    rw [hreleased] at hq
    rcases List.mem_cons.mp hq with rfl | hq
    · exact ⟨b, rfl, by rw [hre.fresh]; exact (hs.lt_fresh hext).trans_le hbe.fresh,
        by rw [hre.extent, Function.update_self]⟩
    · obtain ⟨c, rfl, hlt, hnone⟩ := hs.gone q hq
      refine ⟨c, rfl, by rw [hre.fresh]; exact hlt.trans_le hbe.fresh, ?_⟩
      rw [hre.extent]
      by_cases hcb : c = b
      · rw [hcb, Function.update_self]
      · rw [Function.update_of_ne hcb, hbe.extent, hnone]
  · intro c k hc hne
    rw [hre.extent, Function.update_of_ne (fun h => hne (by simp [h])), hbe.extent, hc]
  · rw [hre.fuse]
    exact calm_of_spent hbe.spent hm

/-- A block with no node in it yet. -/
structure Blank (m : Memory (Node α)) (p : Ptr) : Prop where
  block : ∃ b, p = ⟨some b, 0⟩ ∧ m.extent b = some 1
  object : m.object p = none

namespace Blank

lemma ne_null {m : Memory (Node α)} (h : Blank m p) : p ≠ .null := by
  obtain ⟨b, rfl, -⟩ := h.block
  exact fun h => nomatch h

lemma turns (h : Blank s.mem p) (ht : Turns s f freed s') (hf : f p = none) (hp : p ∉ freed) :
    Blank s'.mem p := by
  obtain ⟨b, rfl, hb⟩ := h.block
  exact ⟨⟨b, rfl, ht.extent b 1 hb hp⟩, by rw [ht.object, hf]⟩

lemma not_released {m : Memory (Node α)} (h : Blank m p) (hm : Heap m) :
    p ∉ released m.trace := by
  intro hmem
  obtain ⟨b, rfl, hb⟩ := h.block
  obtain ⟨c, hc, -, hnone⟩ := hm.gone _ hmem
  cases hc
  rw [hb] at hnone
  cases hnone

end Blank

lemma allocate_turns (hs : Heap s.mem) : (allocate 1).Ends s
    (fun p s' => Turns s s.mem.object [] s' ∧ Blank s'.mem p)
    (fun s' => Turns s s.mem.object [] s' ∧ s.mem.fuse ≠ none) := by
  refine (mayThrow_turns true hs).bind ?_
  intro _ t ht
  obtain ⟨p, s', hrun, hal⟩ := takeBlock_returns (s := t) 1 ht.heap.wf
  have htrace : released s'.mem.trace = released t.mem.trace := by
    rw [takeBlock, if_neg (by omega)] at hrun
    cases hrun
    rfl
  obtain ⟨b, hb, rfl, -, hext⟩ := hal.answer.resolve_left (by omega)
  have hnone : t.mem.extent b = none := ht.heap.wf.fresh b hb
  have hold : ∀ c k, t.mem.extent c = k → k ≠ none → s'.mem.extent c = k := by
    intro c k hc hk
    rw [hext, Function.update_of_ne (fun h => hk (by rw [← hc, h, hnone])), hc]
  refine .of_returns ⟨⟨some b, 0⟩, s', hrun, ⟨⟨⟨hal.wf ht.heap.wf, hal.tidy ht.heap.tidy, ?_, ?_⟩,
    hal.object.trans ht.object, ?_, ?_, fun hm => calm_of_spent hal.spent (ht.calm hm)⟩,
    hal.self.trans ht.self⟩, ⟨b, rfl, ?_⟩, ?_⟩
  · intro q hq
    rw [hal.object] at hq
    obtain ⟨c, rfl, hc⟩ := ht.heap.blocks q hq
    exact ⟨c, rfl, hold c _ hc (by simp)⟩
  · intro q hq
    rw [htrace] at hq
    obtain ⟨c, rfl, hlt, hc⟩ := ht.heap.gone q hq
    refine ⟨c, rfl, hlt.trans_le hal.fresh, ?_⟩
    rw [hext, Function.update_of_ne (fun h => by omega), hc]
  · rw [htrace, ht.released]
  · exact fun c k hc hne => hold c _ (ht.extent c k hc hne) (by simp)
  · rw [hext, Function.update_self]
  · rw [hal.object]
    by_contra hn
    obtain ⟨c, hc, hone⟩ := ht.heap.blocks _ (Option.isSome_iff_ne_none.mpr hn)
    cases hc
    rw [hnone] at hone
    cases hone

lemma construct_turns (n : Node α) (hs : Heap s.mem) (hp : Blank s.mem p) :
    (construct p n).Returns s
      (fun _ s' => Turns s (Function.update s.mem.object p (some n)) [] s') := by
  obtain ⟨b, rfl, hext⟩ := hp.block
  have hb : s.mem.inBounds ⟨some b, 0⟩ = true :=
    Memory.inBounds_iff.mpr ⟨b, 1, rfl, hext, Nat.one_pos⟩
  obtain ⟨_, s', hrun, hbe⟩ := construct_returns n hb hp.object
  have htrace : released s'.mem.trace = released s.mem.trace := by
    rw [construct, if_pos hb] at hrun
    cases hrun
    rfl
  refine ⟨(), s', hrun, ⟨⟨hbe.wf hs.wf, hbe.tidy hs.tidy, ?_, ?_⟩, hbe.object, htrace,
    fun c k hc _ => by rw [hbe.extent, hc], calm_of_spent hbe.spent⟩, hbe.self⟩
  · intro q hq
    rw [hbe.extent]
    by_cases hqp : q = ⟨some b, 0⟩
    · exact ⟨b, hqp, hext⟩
    · rw [hbe.object, Function.update_of_ne hqp] at hq
      exact hs.blocks q hq
  · intro q hq
    rw [htrace] at hq
    obtain ⟨c, rfl, hlt, hnone⟩ := hs.gone q hq
    exact ⟨c, rfl, hlt.trans_le hbe.fresh, by rw [hbe.extent, hnone]⟩

end Voxory
