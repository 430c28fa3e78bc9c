import Voxory.Cxx.Tally
import Voxory.RingBuffer.Pool

/-!
# Changes of the capacity

`reserve` and `shrink_to_fit` relocate the elements and then clean up, which sets the size to 0;
nothing sets it again. So they keep the elements exactly where there are none, or where the
capacity is right already. Elements that an earlier call has left behind uncounted are lost with
their block.
-/

namespace Voxory
open Cxx

namespace RingBuffer

variable {α : Type}

/-- Where element `i` is, as `operator[]` computes it. -/
def place (r : RingBuffer) (i : ℕ) : Ptr := r.data + ((r.first - r.data) + i) % r.capacity

/-- The call that led from `s` to `s'` kept the elements and made the capacity `c`; in a new
block, element `i` is in slot `i`, and each element that was alive in the old block, counted or not,
was destroyed once. -/
structure Relocates (s s' : State α RingBuffer) (c : ℕ) : Prop where
  size : s'.self.size = s.self.size
  capacity : s'.self.capacity = c
  elements : ∀ i, i < s.self.size →
    s'.mem.object (s'.self.place i) = s.mem.object (s.self.place i)
  placed : s'.self.data ≠ s.self.data → ∀ i, i < s.self.size →
    s'.self.place i = s'.self.data + i
  destroyed : s'.self.data ≠ s.self.data → ∀ q, q.block = s.self.data.block →
    s'.mem.trace.count (.destroy q) =
      s.mem.trace.count (.destroy q) + if (s.mem.object q).isSome then 1 else 0

/-- No object is alive in the buffer's block. -/
def Vacant (m : Memory α) (r : RingBuffer) : Prop :=
  ∀ q : Ptr, q.block = r.data.block → m.object q = none

variable {E : Element α} {s s' : State α RingBuffer} {c n : ℕ}

lemma Relocates.refl (s : State α RingBuffer) : Relocates s s s.self.capacity :=
  ⟨rfl, rfl, fun _ _ => rfl, fun hne => absurd rfl hne, fun hne => absurd rfl hne⟩

lemma cleanup_empty_returns (hz : s.self.size = 0) : (cleanup : Method α Unit).Returns s
    (fun _ s' => s'.self.size = 0 ∧
      ∀ q, s'.mem.trace.count (.destroy q) = s.mem.trace.count (.destroy q)) := by
  refine Code.Returns.step rfl ?_
  split_ifs
  · refine Code.Returns.step (b := ()) (t := s) ?_ (Code.Returns.step rfl ?_)
    · rw [destroyRange, Code.bind_returned (show self s = .returned s.self s from rfl), if_pos hz,
        Code.pure_run]
    · split_ifs
      · refine Code.Returns.step rfl (setSelf_returns ⟨rfl, fun q => ?_⟩)
        exact List.count_cons_of_ne (by simp)
      · exact Code.Returns.pure ⟨hz, fun _ => rfl⟩
  · exact Code.Returns.pure ⟨hz, fun _ => rfl⟩

lemma reallocate_empty_ends (n : ℕ) (hw : s.mem.Wf) (hz : s.self.size = 0) :
    (reallocate E n).Ends s (fun _ s' => s'.self.size = 0 ∧ s'.self.capacity = n)
      (fun _ => True) := by
  refine ((allocate_ends n hw).mono (fun _ _ ht => ht) (fun _ _ => trivial)).bind ?_
  intro p t ht
  have hzt : t.self.size = 0 := ht.self ▸ hz
  refine Code.Ends.step (b := p) (t := t) ?_ ?_
  · rw [relocate, Code.bind_returned (show self t = .returned t.self t from rfl), if_pos hzt,
      Code.pure_run]
  · refine (Code.Ends.of_returns (cleanup_empty_returns hzt)).bind (fun _ u hu => ?_)
    exact Code.Ends.step rfl (.of_returns (setSelf_returns ⟨hu.1, rfl⟩))

lemma data_ne_of_answer {p : Ptr} {t : State α RingBuffer} {k : ℕ} (h : Shape s.mem s.self)
    (hw : s.mem.Wf) (hn : n ≠ s.self.capacity) (ht : s.Allocates k n p t) : p ≠ s.self.data := by
  intro hp
  rcases ht.answer with ⟨hnull, hn0, -, -⟩ | ⟨b, hfresh, hb, -, -⟩
  · rw [hp] at hnull
    generalize s.self = r at h hn hnull
    cases h with
    | nil => exact hn hn0
    | block => cases hnull
  · have hlt := h.block_lt hw (b := b) (by rw [← hp, hb])
    omega

lemma reallocate_empty_destroys (n : ℕ) (h : Shape s.mem s.self) (hw : s.mem.Wf)
    (hz : s.self.size = 0) (hn : n ≠ s.self.capacity) : (reallocate E n).Within (fun _ => True) s
      (fun _ s' => s'.self.data ≠ s.self.data ∧
        ∀ q, s'.mem.trace.count (.destroy q) = s.mem.trace.count (.destroy q))
      (fun _ => True) := by
  refine (((Code.Within.of_ends (allocate_ends n hw)).and (allocate_tallies n s)).mono
    (fun _ _ ht => ht) (fun _ _ => trivial)).bind ?_
  rintro p t ⟨ht, htally⟩
  have hzt : t.self.size = 0 := ht.self ▸ hz
  refine Code.Within.step (b := p) (t := t) ?_ ?_
  · rw [relocate, Code.bind_returned (show self t = .returned t.self t from rfl), if_pos hzt,
      Code.pure_run]
  · refine (Code.Within.of_ends (.of_returns (cleanup_empty_returns hzt))).bind (fun _ u hu => ?_)
    refine Code.Within.step rfl (.of_ends (.of_returns (setSelf_returns
      ⟨data_ne_of_answer h hw hn ht, fun q => ?_⟩)))
    change u.mem.trace.count (.destroy q) = s.mem.trace.count (.destroy q)
    rw [hu.2 q, htally, Pi.single_eq_of_ne (by simp), Nat.add_zero]

/-- A reallocation that nothing interrupts keeps the elements exactly when there are none. -/
lemma reallocate_relocates_iff (h : Shape s.mem s.self) (hw : s.mem.Wf)
    (hzero : n = 0 → s.self.size = 0) (hn : n ≠ s.self.capacity)
    (hwhole : ¬(reallocate E n s).Interrupted) :
    (reallocate E n).Returns s (fun _ s' => Relocates s s' n) ↔
      s.self.size = 0 ∧ Vacant s.mem s.self := by
  constructor
  · rintro ⟨_, s', hrun, hs'⟩
    have hwithin : (reallocate E n).Within (fun _ => True) s _ _ :=
      reallocate_within trivial h hw (Or.inl trivial) hzero
    have hz := hs'.size.symm.trans (hwithin.returned hrun).2.1
    obtain ⟨hdata, hquiet⟩ := (reallocate_empty_destroys n h hw hz hn).returned hrun
    refine ⟨hz, fun q hq => ?_⟩
    have hcount := hs'.destroyed hdata q hq
    rw [hquiet q] at hcount
    by_contra hlive
    rw [if_pos (Option.isSome_iff_ne_none.mpr hlive)] at hcount
    omega
  · rintro ⟨hz, hvacant⟩
    obtain ⟨_, s', hrun, hsize, hcap⟩ := (reallocate_empty_ends n hw hz).returns_of_whole hwhole
    have hquiet := ((reallocate_empty_destroys n h hw hz hn).returned hrun).2
    refine ⟨_, s', hrun, hsize.trans hz.symm, hcap, fun _ hi => by omega, fun _ _ hi => by omega,
      fun _ q hq => ?_⟩
    rw [hquiet q, hvacant q hq]
    rfl

lemma Vacant.of_slots {m : Memory α} {r : RingBuffer} {b : ℕ} (hw : m.Wf)
    (hb : r.data.block = some b) (hext : m.extent b = some n)
    (hslots : ∀ j < n, m.object ⟨some b, j⟩ = none) : Vacant m r := by
  intro q hq
  by_cases hin : m.inBounds q = true
  · obtain ⟨c, k, hc, hk, hlt⟩ := Memory.inBounds_iff.mp hin
    rw [hq, hb] at hc
    cases hc
    rw [hext] at hk
    cases hk
    have hslot : q = ⟨some b, q.off⟩ := (Ptr.ext_iff' _ _).mpr ⟨hq.trans hb, rfl⟩
    rw [hslot]
    exact hslots q.off hlt
  · exact hw.object_none hin

lemma reserve_relocates_iff (h : Shape s.mem s.self) (hw : s.mem.Wf)
    (hwhole : ¬(reserve E n s).Interrupted) :
    (reserve E n).Returns s (fun _ s' => Relocates s s' (max s.self.capacity n)) ↔
      n ≤ s.self.capacity ∨ (s.self.size = 0 ∧ Vacant s.mem s.self) := by
  have hrun : reserve E n s =
      (if n > s.self.capacity then reallocate E n else pure ()) s := rfl
  by_cases hn : n ≤ s.self.capacity
  · rw [if_neg (by omega)] at hrun
    refine iff_of_true ⟨(), s, hrun, ?_⟩ (Or.inl hn)
    rw [max_eq_left hn]
    exact .refl s
  · rw [if_pos (by omega)] at hrun
    rw [hrun] at hwhole
    rw [Code.Returns, hrun, max_eq_right (by omega), or_iff_right hn]
    exact reallocate_relocates_iff h hw (fun hn0 => absurd (Nat.zero_le _) (hn0 ▸ hn))
      (fun hn' => hn hn'.le) hwhole

lemma shrinkToFit_relocates_iff (h : Shape s.mem s.self) (hw : s.mem.Wf)
    (hwhole : ¬(shrinkToFit E s).Interrupted) :
    (shrinkToFit E).Returns s (fun _ s' => Relocates s s' s.self.size) ↔
      s.self.size = s.self.capacity ∨ (s.self.size = 0 ∧ Vacant s.mem s.self) := by
  have hle := h.size_le
  have hrun : shrinkToFit E s =
      (if s.self.size < s.self.capacity then reallocate E s.self.size else pure ()) s := rfl
  by_cases hn : s.self.size = s.self.capacity
  · rw [if_neg (by omega)] at hrun
    refine iff_of_true ⟨(), s, hrun, ?_⟩ (Or.inl hn)
    rw [hn]
    exact .refl s
  · rw [if_pos (by omega)] at hrun
    rw [hrun] at hwhole
    rw [Code.Returns, hrun, or_iff_right hn]
    exact reallocate_relocates_iff h hw id hn hwhole

end RingBuffer

namespace RingPool

variable {α : Type} {E : Element α} {p : RingPool α} {x : ℕ} {r : RingBuffer}

open Objects RingBuffer

/-- In every pool reached without a move from a buffer with a capacity, a change of the capacity that
nothing interrupts keeps the elements exactly when it has nothing to do, or when there is no
element, counted or not. -/
theorem relocation_iff (h : Reachable E p) (hx : p.obj x = some r) (k : Option ℕ) :
    (∀ n, ¬(reserve E n ⟨(p.arm k).mem, r⟩).Interrupted →
      ((reserve E n).Returns ⟨(p.arm k).mem, r⟩
        (fun _ s' => Relocates ⟨(p.arm k).mem, r⟩ s' (max r.capacity n)) ↔
          n ≤ r.capacity ∨ (r.size = 0 ∧ Vacant (p.arm k).mem r))) ∧
    (¬(shrinkToFit E ⟨(p.arm k).mem, r⟩).Interrupted →
      ((shrinkToFit E).Returns ⟨(p.arm k).mem, r⟩
        (fun _ s' => Relocates ⟨(p.arm k).mem, r⟩ s' r.size) ↔
          r.size = r.capacity ∨ (r.size = 0 ∧ Vacant (p.arm k).mem r))) := by
  have hp := h.sound.arm k
  exact ⟨fun _ hwhole => reserve_relocates_iff (hp.shape x r hx) hp.wf hwhole,
    fun hwhole => shrinkToFit_relocates_iff (hp.shape x r hx) hp.wf hwhole⟩

/-- A buffer of capacity 4 from which everything was popped again. -/
def drainedRun : List (Option ℕ × RingAction ℕ) :=
  [(none, .sized 0 4), (none, .pushBack 0 ⟨7, false⟩), (none, .tryPopFront 0)]

theorem drainedRun_relocates : ∃ p r,
    Machine.run (next (Element.plain 0 id)) (start true) drainedRun = some p ∧
    p.obj 0 = some r ∧ r.capacity = 4 ∧
    (reserve (Element.plain 0 id) 9).Returns ⟨(p.arm none).mem, r⟩
      (fun _ s' => Relocates ⟨(p.arm none).mem, r⟩ s' 9) ∧
    (shrinkToFit (Element.plain 0 id)).Returns ⟨(p.arm none).mem, r⟩
      (fun _ s' => Relocates ⟨(p.arm none).mem, r⟩ s' 0) := by
  obtain ⟨p, hrun, hx, hext, hslots, hreserve, hshrink⟩ : ∃ p : RingPool ℕ,
      Machine.run (next (Element.plain 0 id)) (start true) drainedRun = some p ∧
      p.obj 0 = some ⟨⟨some 0, 0⟩, ⟨some 0, 1⟩, ⟨some 0, 1⟩, 0, 4, true⟩ ∧
      p.mem.extent 0 = some 4 ∧ (∀ j < 4, p.mem.object ⟨some 0, j⟩ = none) ∧
      (reserve (Element.plain 0 id) 9
        ⟨(p.arm none).mem, ⟨⟨some 0, 0⟩, ⟨some 0, 1⟩, ⟨some 0, 1⟩, 0, 4, true⟩⟩).value? = some () ∧
      (shrinkToFit (Element.plain 0 id)
        ⟨(p.arm none).mem, ⟨⟨some 0, 0⟩, ⟨some 0, 1⟩, ⟨some 0, 1⟩, 0, 4, true⟩⟩).value? = some () :=
    ⟨_, rfl, by decide, by decide, by decide, by decide +kernel, by decide +kernel⟩
  have hgood : Machine.Along (next (Element.plain 0 id)) (fun p l => l.2.Frugal p)
      (start true) drainedRun := ⟨trivial, fun _ _ => ⟨trivial, fun _ _ => ⟨trivial, fun _ _ => trivial⟩⟩⟩
  have hreach : Reachable (Element.plain 0 id) p := ⟨true, _, hgood, hrun⟩
  have hvacant : Vacant (p.arm none).mem ⟨⟨some 0, 0⟩, ⟨some 0, 1⟩, ⟨some 0, 1⟩, 0, 4, true⟩ :=
    .of_slots (hreach.sound.arm none).wf rfl hext hslots
  have hiff := relocation_iff hreach hx none
  exact ⟨p, _, hrun, hx, rfl,
    (hiff.1 9 (Outcome.not_interrupted hreserve)).mpr (Or.inr ⟨rfl, hvacant⟩),
    (hiff.2 (Outcome.not_interrupted hshrink)).mpr (Or.inr ⟨rfl, hvacant⟩)⟩

/-- A full buffer of capacity 1 whose element `reserve` forgets. -/
theorem reserve_forgets : ∃ (p : RingPool ℕ) (r : RingBuffer),
    Machine.run (next (Element.plain 0 id)) (start true)
      [(none, .sized 0 1), (none, .pushBack 0 ⟨7, false⟩)] = some p ∧
    p.obj 0 = some r ∧ r.size = 1 ∧
    ((reserve (Element.plain 0 id) 2 ⟨p.mem, r⟩).state?.map fun s' => s'.self.size) = some 0 ∧
    ¬(reserve (Element.plain 0 id) 2).Returns ⟨p.mem, r⟩
      (fun _ s' => Relocates ⟨p.mem, r⟩ s' (max r.capacity 2)) := by
  refine ⟨_, ⟨⟨some 0, 0⟩, ⟨some 0, 0⟩, ⟨some 0, 1⟩, 1, 1, true⟩, rfl, by decide, rfl,
    by decide +kernel, ?_⟩
  rintro ⟨_, s', hrun, hs'⟩
  have hsize := hs'.size
  cases hrun
  cases hsize

end RingPool

end Voxory
