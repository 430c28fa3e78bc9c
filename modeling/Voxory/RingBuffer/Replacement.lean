import Voxory.RingBuffer.Unrolling

/-!
# Assignment to an empty or smaller buffer, or from an empty one

`_assign` gives the old block of such a target back and fills a new one. Only where the source is
empty it leaves out the clean-up: elements that the target had stay where they are, or are lost
with their block.
-/

namespace Voxory
open Cxx Cyclic

namespace RingBuffer

variable {α : Type}

/-- The buffer holds the elements `q`. An empty one may own no block, whatever capacity it has been
left with, or a block without slots. -/
inductive Stores (m : Memory α) (r : RingBuffer) : List α → Prop
  | blockless (hdata : r.data = .null) (hfirst : r.first = .null) (hlast : r.last = .null)
      (hsize : r.size = 0) : Stores m r []
  | slotless (b : ℕ) (hdata : r.data = ⟨some b, 0⟩) (hfirst : r.first = ⟨some b, 0⟩)
      (hlast : r.last = ⟨some b, 0⟩) (hsize : r.size = 0) (hcap : r.capacity = 0)
      (hext : m.extent b = some 0) : Stores m r []
  | holds (b f l : ℕ) (q : List α) (h : Holds m r b f l q) : Stores m r q

/-- One destructor for each of the elements `q` of `r`. -/
def destructions (r : RingBuffer) (q : List α) : Event → ℕ :=
  ∑ i ∈ Finset.range q.length, Pi.single (.destroy (r.place i)) 1

/-- The block of `r`, if it owns one, goes back. -/
def giveBack (r : RingBuffer) : Event → ℕ :=
  if r.data = .null then 0 else Pi.single (.deallocate r.data r.capacity) 1

/-- From `s` to `t` the buffer gave its block back, with the events `g`. -/
structure Clears (s : State α RingBuffer) (g : Event → ℕ) (t : State α RingBuffer) : Prop where
  data : t.self.data = .null
  first : t.self.first = .null
  last : t.self.last = .null
  size : t.self.size = 0
  wf : t.mem.Wf
  fresh : s.mem.fresh ≤ t.mem.fresh
  calm : s.mem.fuse = none → t.mem.fuse = none
  object : ∀ p : Ptr, p.block ≠ s.self.data.block → t.mem.object p = s.mem.object p
  extent : ∀ c, s.self.data.block ≠ some c → t.mem.extent c = s.mem.extent c
  tallies : s.Tallies g t

variable {E : Element α} {s s' t u : State α RingBuffer} {o : RingBuffer} {q qo : List α}
  {g : Event → ℕ} {b f l bo fo lo c n : ℕ}

namespace Stores

lemma size_eq {m : Memory α} {r : RingBuffer} (h : Stores m r q) : r.size = q.length := by
  cases h with
  | blockless _ _ _ hsize => exact hsize
  | slotless _ _ _ _ hsize => exact hsize
  | holds b f l q h => exact h.size

lemma holds_of_ne {m : Memory α} {r : RingBuffer} (h : Stores m r q) (hq : q.length ≠ 0) :
    ∃ b f l, Holds m r b f l q := by
  cases h with
  | blockless => exact absurd rfl hq
  | slotless => exact absurd rfl hq
  | holds b f l q h => exact ⟨b, f, l, h⟩

lemma first_null_iff {m : Memory α} {r : RingBuffer} (h : Stores m r q) :
    r.first = .null ↔ r.data = .null := by
  cases h with
  | blockless hdata hfirst => simp only [hdata, hfirst]
  | slotless b hdata hfirst => simp only [hdata, hfirst]
  | holds b f l q h =>
    rw [h.data, h.first]
    exact ⟨fun he => (nomatch he), fun he => (nomatch he)⟩

end Stores

lemma destructions_nil (r : RingBuffer) : destructions r ([] : List α) = 0 := rfl

lemma Holds.destructions_eq (h : Holds s.mem s.self b f l q) :
    destructions s.self q = eachAt .destroy s.self.capacity b f 0 q.length := by
  rw [destructions, eachAt, Finset.range_eq_Ico]
  exact Finset.sum_congr rfl (fun i _ => by rw [h.place_eq])

/-! ### Giving the old block back -/

lemma destroySeq_elsewhere {p e : Ptr} : (destroySeq p e : Method α Unit).Within (fun _ => True) s
    (fun _ t => ∀ r : Ptr, r.block ≠ p.block → t.mem.object r = s.mem.object r)
    (fun _ => True) := by
  rw [destroySeq]
  split_ifs
  · refine Code.Within.loop _ 0 _ (fun _ (t : State α RingBuffer) => ∀ r : Ptr,
      r.block ≠ p.block → t.mem.object r = s.mem.object r) (fun _ _ => rfl) (fun k t _ _ ht => ?_)
    rw [Code.Within, destroy]
    split_ifs
    · cases hv : t.mem.object (p + k) with
      | none => trivial
      | some v =>
        intro r hr
        have hne : r ≠ p + k := fun he => hr (by rw [he, Ptr.add_block])
        exact (Function.update_of_ne hne _ _).trans (ht r hr)
    · trivial
  · exact Code.Within.undefined trivial

lemma destroyRange_elsewhere {p e : Ptr} (hp : p.block = s.self.data.block) :
    (destroyRange p e : Method α Unit).Within (fun _ => True) s
      (fun _ t => ∀ r : Ptr, r.block ≠ s.self.data.block → t.mem.object r = s.mem.object r)
      (fun _ => True) := by
  refine Code.Within.step rfl ?_
  split_ifs
  · exact Code.Within.pure (fun _ _ => rfl)
  · exact destroySeq_elsewhere.mono (fun _ _ ht r hr => ht r (hp ▸ hr)) (fun _ _ => trivial)
  · refine destroySeq_elsewhere.bind (fun _ t ht => ?_)
    refine destroySeq_elsewhere.mono (fun _ u hu r hr => ?_) (fun _ _ => trivial)
    rw [hu r hr, ht r (hp ▸ hr)]

lemma Stores.destroyRange_returns (h : Stores s.mem s.self q) (hw : s.mem.Wf) :
    (destroyRange s.self.first s.self.last).Returns s (fun _ t => Stays s t ∧
      (s.mem.fuse = none → t.mem.fuse = none) ∧
      (∀ p : Ptr, p.block ≠ s.self.data.block → t.mem.object p = s.mem.object p) ∧
      s.Tallies (destructions s.self q) t) := by
  by_cases hq : q.length = 0
  · refine Code.Returns.step rfl ?_
    rw [if_pos (h.size_eq.trans hq), List.length_eq_zero_iff.mp hq, destructions_nil]
    exact Code.Returns.pure ⟨.refl s, id, fun _ _ => rfl, .refl s⟩
  · obtain ⟨b, f, l, hh⟩ := h.holds_of_ne hq
    have hsize : s.self.size ≠ 0 := by rwa [hh.size]
    have hrange := (destroyRange_empties hh hw).tally (destroyRange_emits hsize)
    refine (destroyRange_elsewhere (by rw [hh.first, hh.data])).returns hrange |>.mono ?_
    rintro _ t ⟨⟨ht, hg⟩, hother⟩
    refine ⟨.of_alters ht.becomes.toAlters, calm_of_spent ht.becomes.spent, hother, ?_⟩
    rw [hh.first, hh.last, hh.data, Ptr.mk_add, Nat.zero_add] at hg
    simp only [Ptr.sub_eq] at hg
    rw [Nat.sub_zero, razed_stretch hh.first_lt hq hh.size_le hh.behind] at hg
    rw [hh.destructions_eq]
    exact hg

lemma deallocateBuffer_clears (h : Stores s.mem s.self q) (hw : s.mem.Wf) (ht : Stays s t)
    (hcalm : s.mem.fuse = none → t.mem.fuse = none)
    (hother : ∀ p : Ptr, p.block ≠ s.self.data.block → t.mem.object p = s.mem.object p)
    (hg : s.Tallies g t) : (deallocateBuffer : Method α Unit).Returns t
      (fun _ u => Clears s (g + giveBack s.self) u) := by
  refine Code.Returns.step rfl ?_
  rw [ht.self, giveBack]
  by_cases hdata : s.self.data = .null
  · rw [if_neg (fun hne => hne hdata), if_pos hdata, add_zero]
    have hnull : s.self.last = .null ∧ s.self.size = 0 := by
      cases h with
      | blockless _ _ hlast hsize => exact ⟨hlast, hsize⟩
      | slotless b hb => exact absurd (hb.symm.trans hdata) (fun he => nomatch he)
      | holds b f l q h => exact absurd (h.data.symm.trans hdata) (fun he => nomatch he)
    refine Code.Returns.pure ⟨?_, ?_, ?_, ?_, ht.wf hw, ht.fresh, hcalm, hother, ?_, hg⟩
    · rw [ht.self, hdata]
    · rw [ht.self, h.first_null_iff.mpr hdata]
    · rw [ht.self, hnull.1]
    · rw [ht.self, hnull.2]
    · exact fun c _ => by rw [ht.extent]
  · rw [if_pos hdata, if_neg hdata]
    refine Code.Returns.step rfl (setSelf_returns ⟨rfl, rfl, rfl, rfl,
      Memory.release_wf (ht.wf hw) _ _, ht.fresh, hcalm, fun p hp => ?_, fun c hc => ?_, ?_⟩)
    · simp only [Memory.release, if_neg hp]
      exact hother p hp
    · simp only [Memory.release, if_neg hc, ht.extent]
    · exact hg.trans (.of_event rfl)

lemma cleanup_clears (h : Stores s.mem s.self q) (hw : s.mem.Wf) :
    (cleanup : Method α Unit).Returns s
      (fun _ t => Clears s (destructions s.self q + giveBack s.self) t) := by
  refine Code.Returns.step rfl ?_
  by_cases hfirst : s.self.first = .null
  · rw [if_neg (fun hne => hne hfirst)]
    cases h with
    | blockless hdata _ hlast hsize =>
      refine Code.Returns.pure ⟨hdata, hfirst, hlast, hsize, hw, le_rfl, id, fun _ _ => rfl,
        fun _ _ => rfl, ?_⟩
      rw [destructions_nil, giveBack, if_pos hdata]
      exact .refl s
    | slotless b _ hb => exact absurd (hb.symm.trans hfirst) (fun he => nomatch he)
    | holds b f l q h => exact absurd (h.first.symm.trans hfirst) (fun he => nomatch he)
  · rw [if_pos hfirst]
    refine (h.destroyRange_returns hw).bind ?_
    rintro _ t ⟨ht, hcalm, hother, hg⟩
    exact deallocateBuffer_clears h hw ht hcalm hother hg

/-! ### Filling the new one -/

/-- From `t` to `u` a block `c` of `n` slots was allocated. -/
structure Opens (t : State α RingBuffer) (c n : ℕ) (u : State α RingBuffer) : Prop where
  new : t.mem.fresh ≤ c
  wf : u.mem.Wf
  calm : u.mem.fuse = none
  object : u.mem.object = t.mem.object
  extent : u.mem.extent = Function.update t.mem.extent c (some n)
  tallies : t.Tallies (Pi.single (.allocate ⟨some c, 0⟩ n) 1) u

lemma allocate_opens (hw : t.mem.Wf) (hcalm : t.mem.fuse = none) (hn : n ≠ 0) :
    (allocate n).Returns t (fun p u => ∃ c, p = ⟨some c, 0⟩ ∧ u.self = t.self ∧ Opens t c n u) := by
  have hends := (allocate_ends n hw).returns (fun t' ht' => nomatch hcalm.symm.trans ht'.blown)
  obtain ⟨p, u, hrun, hu⟩ := hends
  refine ⟨p, u, hrun, ?_⟩
  have htally := allocate_emits hrun
  rcases hu.answer with ⟨-, hzero, -⟩ | ⟨c, hc, rfl, -, hext⟩
  · exact absurd hzero hn
  · exact ⟨c, rfl, hu.self, hc, hu.wf hw, calm_of_spent hu.spent hcalm, hu.object, hext, htally⟩

/-- From `t` to `u` the elements `qo` of the block `bo` were copied or moved into the block `c`. -/
structure Receives (t : State α RingBuffer) (bo c : ℕ) (qo : List α) (u : State α RingBuffer) :
    Prop where
  stays : Stays t u
  calm : u.mem.fuse = none
  filled : ∀ j, u.mem.object ⟨some c, j⟩ = qo[j]?
  kept : ∀ p : Ptr, p.block ≠ some bo → p.block ≠ some c → u.mem.object p = t.mem.object p
  tallies : t.Tallies (built ⟨some c, 0⟩ qo.length) u

lemma fillUninitializedFrom_receives {move : Bool} (h : Holds t.mem o bo fo lo qo)
    (hqo : qo.length ≠ 0) (hw : t.mem.Wf) (hcalm : t.mem.fuse = none) (hbc : bo ≠ c)
    (hext : t.mem.extent c = some n) (hn : qo.length ≤ n)
    (hraw : ∀ j, t.mem.object ⟨some c, j⟩ = none) :
    (fillUninitializedFrom E o ⟨some c, 0⟩ move).Returns t (fun p u =>
      p = ⟨some c, qo.length⟩ ∧ Receives t bo c qo u) := by
  have hin : ∀ j, j < qo.length → t.mem.inBounds ((⟨some c, 0⟩ : Ptr) + j) = true := fun j hj =>
    Memory.inBounds_iff.mpr ⟨c, n, rfl, hext, by simp only [Ptr.add_off]; omega⟩
  refine (fillUninitializedFrom_unrolls h hqo hw (Or.inl hcalm) (by simpa using hbc) hin
    (fun j _ => hraw _)).mono ?_
  rintro _ u ⟨rfl, hu⟩
  refine ⟨by rw [Ptr.mk_add, Nat.zero_add], hu.stays, hu.calm hcalm, fun j => ?_,
    fun p hp hpc => hu.kept p hp (fun hin => hpc hin.1), hu.tallies⟩
  by_cases hj : j < qo.length
  · have hfilled := hu.filled j hj
    rwa [Ptr.mk_add, Nat.zero_add] at hfilled
  · rw [hu.kept _ (by simp [Ne.symm hbc]) (by simpa using hj), hraw, List.getElem?_eq_none (by omega)]

/-! ### The assignment -/

/-- The buffer holds the elements `qo` and has the capacity of `o`; its old elements `q` were
destroyed once each, if their type has a destructor, and its old block was given back once if it
has another one now. -/
structure Assigned (trivial : Bool) (o : RingBuffer) (q qo : List α) (s s' : State α RingBuffer) :
    Prop where
  stores : Stores s'.mem s'.self qo
  capacity : s'.self.capacity = o.capacity
  destroyed : trivial = false → ∀ i, i < q.length →
    s'.mem.trace.count (.destroy (s.self.place i)) =
      s.mem.trace.count (.destroy (s.self.place i)) + 1
  released : s.self.data ≠ .null →
    s'.mem.trace.count (.deallocate s.self.data s.self.capacity) =
      s.mem.trace.count (.deallocate s.self.data s.self.capacity) +
        if s'.self.data = s.self.data then 0 else 1

lemma Stores.destructions_apply (h : Stores s.mem s.self q) {i : ℕ} (hi : i < q.length) :
    destructions s.self q (.destroy (s.self.place i)) = 1 := by
  obtain ⟨b, f, l, hh⟩ := h.holds_of_ne (by omega)
  have hsize := hh.size_le
  rw [hh.destructions_eq, hh.place_eq,
    eachAt_apply (fun _ _ he => Event.destroy.inj he) hh.first_lt hsize (by omega),
    if_pos ⟨Nat.zero_le i, hi⟩]

lemma destructions_other (r : RingBuffer) (q : List α) {e : Event} (he : ∀ p, e ≠ .destroy p) :
    destructions r q e = 0 := by
  rw [destructions, Finset.sum_apply]
  exact Finset.sum_eq_zero (fun k _ => Pi.single_eq_of_ne (he _) 1)

lemma giveBack_other (r : RingBuffer) {e : Event} (he : ∀ p n, e ≠ .deallocate p n) :
    giveBack r e = 0 := by
  rw [giveBack]
  split_ifs
  · rfl
  · exact Pi.single_eq_of_ne (he _ _) 1

lemma Assigned.of_tallies {trivial : Bool} {d : Event → ℕ} (h : Stores s.mem s.self q)
    (hstores : Stores s'.mem s'.self qo) (hcap : s'.self.capacity = o.capacity)
    (hnew : s.self.data ≠ .null → s'.self.data ≠ s.self.data)
    (hd : trivial = false → d = destructions s.self q) (hd' : ∀ p n, d (.deallocate p n) = 0)
    (hg : ∀ p, g (.destroy p) = 0) (hg' : ∀ p n, g (.deallocate p n) = 0)
    (htally : s.Tallies (d + giveBack s.self + g) s') : Assigned trivial o q qo s s' := by
  refine ⟨hstores, hcap, fun htriv i hi => ?_, fun hdata => ?_⟩
  · have hback : giveBack s.self (.destroy (s.self.place i)) = 0 :=
      giveBack_other _ (fun _ _ he => nomatch he)
    rw [htally, Pi.add_apply, Pi.add_apply, hg, hd htriv, h.destructions_apply hi, hback]
  · rw [htally, Pi.add_apply, Pi.add_apply, hg', hd', giveBack, if_neg hdata, if_neg (hnew hdata),
      Pi.single_eq_same]

lemma Holds.elsewhere {m : Memory α} (h : Holds s.mem o bo fo lo qo)
    (hext : m.extent bo = s.mem.extent bo)
    (hobj : ∀ p : Ptr, p.block = some bo → m.object p = s.mem.object p) :
    Holds m o bo fo lo qo :=
  { h with
    extent := by rw [hext, h.extent]
    object := fun j hj => by rw [hobj _ rfl, h.object j hj] }

lemma Stores.elsewhere {m m' : Memory α} {r : RingBuffer} (h : Stores m r q)
    (hext : ∀ b, r.data.block = some b → m'.extent b = m.extent b)
    (hobj : ∀ p : Ptr, ∀ b, r.data.block = some b → p.block = some b →
      m'.object p = m.object p) : Stores m' r q := by
  cases h with
  | blockless hdata hfirst hlast hsize => exact .blockless hdata hfirst hlast hsize
  | slotless b hdata hfirst hlast hsize hcap hb =>
    exact .slotless b hdata hfirst hlast hsize hcap (by rw [hext b (by rw [hdata]), hb])
  | holds b f l q h =>
    have hb : r.data.block = some b := by rw [h.data]
    exact .holds b f l q { h with
      extent := by rw [hext b hb, h.extent]
      object := fun j hj => by rw [hobj _ b hb rfl, h.object j hj] }

lemma holds_fresh {m : Memory α} {allow : Bool} (hext : m.extent c = some n)
    (hn : qo.length ≤ n) (hpos : n ≠ 0) (hobj : ∀ j, m.object ⟨some c, j⟩ = qo[j]?) :
    Holds m ⟨⟨some c, 0⟩, ⟨some c, 0⟩, ⟨some c, qo.length⟩, qo.length, n, allow⟩ c 0 qo.length
      qo :=
  ⟨rfl, rfl, rfl, rfl, hext, Nat.pos_of_ne_zero hpos, hn, ⟨hn, by rw [Nat.zero_add]⟩,
    fun j _ => (hobj j).trans (by rw [lay, Cyclic.place, if_pos (Nat.zero_le j), Nat.sub_zero])⟩

lemma allocateBuffer_opens (hw : t.mem.Wf) (hcalm : t.mem.fuse = none) (hn : n ≠ 0) :
    (allocateBuffer n : Method α Unit).Returns t (fun _ u => ∃ c, Opens t c n u ∧ u.self =
      ⟨⟨some c, 0⟩, ⟨some c, 0⟩, ⟨some c, 0⟩, 0, n, t.self.allowOverwrite⟩) := by
  refine Code.Returns.step rfl ?_
  rw [if_neg hn]
  refine (allocate_opens hw hcalm hn).bind ?_
  rintro _ u ⟨c, rfl, -, hu⟩
  exact setSelf_returns ⟨c, ⟨hu.new, ⟨hu.wf.fresh, hu.wf.bounds⟩, hu.calm, hu.object, hu.extent,
    hu.tallies⟩, rfl⟩

lemma Opens.raw (h : Opens t c n u) (hw : t.mem.Wf) (j : ℕ) : u.mem.object ⟨some c, j⟩ = none := by
  rw [h.object]
  refine hw.object_none (fun hin => ?_)
  obtain ⟨b, k, hb, hk, -⟩ := Memory.inBounds_iff.mp hin
  cases hb
  rw [hw.fresh c h.new] at hk
  cases hk

lemma lt_fresh_of_extent {m : Memory α} (hw : m.Wf) (h : m.extent b = some n) : b < m.fresh := by
  by_contra hge
  rw [hw.fresh b (Nat.not_lt.mp hge)] at h
  cases h

lemma Stores.block_lt (h : Stores s.mem s.self q) (hw : s.mem.Wf) (hb : s.self.data.block = some b) :
    b < s.mem.fresh := by
  cases h with
  | blockless hdata =>
    rw [hdata] at hb
    cases hb
  | slotless c hdata _ _ _ _ hext =>
    rw [hdata] at hb
    cases hb
    exact lt_fresh_of_extent hw hext
  | holds c f l q h =>
    rw [h.data] at hb
    cases hb
    exact lt_fresh_of_extent hw h.extent

lemma Stores.data_ne (h : Stores s.mem s.self q) (hw : s.mem.Wf) (hc : s.mem.fresh ≤ c) :
    (⟨some c, 0⟩ : Ptr) ≠ s.self.data := by
  intro he
  have hlt := h.block_lt hw (congrArg Ptr.block he).symm
  omega

/-- The events with which a new block of `n` slots got `k` elements. -/
def arrival (c n k : ℕ) : Event → ℕ :=
  Pi.single (.allocate ⟨some c, 0⟩ n) 1 + built ⟨some c, 0⟩ k

lemma arrival_other {k : ℕ} {e : Event} (he : ∀ p m, e ≠ .allocate p m)
    (he' : ∀ p, e ≠ .construct p) : arrival c n k e = 0 := by
  rw [arrival, Pi.add_apply, Pi.single_eq_of_ne (he _ _), built_other he']

/-- Two buffers in one memory, each with its own block. -/
structure Apart (s : State α RingBuffer) (o : RingBuffer) (q qo : List α) : Prop where
  target : Stores s.mem s.self q
  source : Stores s.mem o qo
  apart : ∀ b, s.self.data.block = some b → o.data.block ≠ some b
  wf : s.mem.Wf
  calm : s.mem.fuse = none

lemma cleanup_refill_assigned (h : Apart s o q qo) (hqo : qo.length ≠ 0) (trivial move : Bool) : (do
    cleanup
    allocateBuffer o.capacity
    refill E o move : Method α Unit).Returns s (fun _ s' => Assigned trivial o q qo s s') := by
  obtain ⟨bo, fo, lo, ho⟩ := h.source.holds_of_ne hqo
  have hN : o.capacity ≠ 0 := by
    have := ho.first_lt
    omega
  have hapart : s.self.data.block ≠ some bo := fun hb =>
    h.apart bo hb (congrArg Ptr.block ho.data)
  refine (cleanup_clears h.target h.wf).bind (fun _ t ht => ?_)
  refine (allocateBuffer_opens ht.wf (ht.calm h.calm) hN).bind ?_
  rintro _ u ⟨c, hu, hself⟩
  have hbo : bo < s.mem.fresh := lt_fresh_of_extent h.wf ho.extent
  have hfresh := ht.fresh
  have hnew := hu.new
  have hbc : bo ≠ c := by omega
  have hou : Holds u.mem o bo fo lo qo := ho.elsewhere
    (by rw [hu.extent, Function.update_of_ne hbc, ht.extent bo hapart])
    (fun p hp => by rw [hu.object, ht.object p (fun he => hapart (he.symm.trans hp))])
  refine Code.Returns.step rfl ?_
  rw [hself]
  refine (fillUninitializedFrom_receives hou hqo hu.wf hu.calm hbc
    (by rw [hu.extent, Function.update_self]) ho.size_le (hu.raw ht.wf)).bind ?_
  rintro _ v ⟨rfl, hv⟩
  refine Code.Returns.step rfl (setSelf_returns ?_)
  rw [hv.stays.self, hself]
  have hext : v.mem.extent c = some o.capacity := by
    rw [hv.stays.extent, hu.extent, Function.update_self]
  refine .of_tallies (g := arrival c o.capacity qo.length) h.target
    (.holds c 0 qo.length qo (holds_fresh hext ho.size_le hN hv.filled)) rfl
    (fun _ => h.target.data_ne h.wf (hfresh.trans hnew)) (fun _ => rfl)
    (fun _ _ => destructions_other _ _ (fun _ he => nomatch he)) (fun p => ?_) (fun p k => ?_)
    (ht.tallies.trans (hu.tallies.trans hv.tallies))
  · exact arrival_other (fun _ _ he => nomatch he) (fun _ he => nomatch he)
  · exact arrival_other (fun _ _ he => nomatch he) (fun _ he => nomatch he)

lemma replaceByTemp_assigned (h : Apart s o q qo) (hqo : qo.length ≠ 0) (trivial : Bool) :
    (replaceByTemp E o).Returns s (fun _ s' => Assigned trivial o q qo s s') := by
  obtain ⟨bo, fo, lo, ho⟩ := h.source.holds_of_ne hqo
  have hN : o.capacity ≠ 0 := by
    have := ho.first_lt
    omega
  have hapart : s.self.data.block ≠ some bo := fun hb =>
    h.apart bo hb (congrArg Ptr.block ho.data)
  have hbo : bo < s.mem.fresh := lt_fresh_of_extent h.wf ho.extent
  refine Code.Returns.bind (Q := fun p v => ∃ c, p = (⟨some c, 0⟩, ⟨some c, qo.length⟩, qo.length) ∧
    s.mem.fresh ≤ c ∧ v.self = s.self ∧ v.mem.Wf ∧ v.mem.fuse = none ∧
    v.mem.extent = Function.update s.mem.extent c (some o.capacity) ∧
    (∀ j, v.mem.object ⟨some c, j⟩ = qo[j]?) ∧
    (∀ p : Ptr, p.block ≠ some bo → p.block ≠ some c → v.mem.object p = s.mem.object p) ∧
    s.Tallies (arrival c o.capacity qo.length) v) ?_ ?_
  · refine (allocate_opens h.wf h.calm hN).bind ?_
    rintro _ u ⟨c, rfl, hself, hu⟩
    have hnew := hu.new
    have hbc : bo ≠ c := by omega
    have hou : Holds u.mem o bo fo lo qo := ho.elsewhere
      (by rw [hu.extent, Function.update_of_ne hbc]) (fun p _ => by rw [hu.object])
    rw [if_neg (by rw [ho.size]; exact hqo)]
    refine (Code.Returns.onThrow (fillUninitializedFrom_receives hou hqo hu.wf hu.calm hbc
      (by rw [hu.extent, Function.update_self]) ho.size_le (hu.raw h.wf))).bind ?_
    rintro _ v ⟨rfl, hv⟩
    refine Code.Returns.pure ⟨c, by rw [ho.size], hnew, by rw [hv.stays.self, hself],
      hv.stays.wf hu.wf, hv.calm, by rw [hv.stays.extent, hu.extent], hv.filled, fun p hp hpc => ?_,
      hu.tallies.trans hv.tallies⟩
    rw [hv.kept p hp hpc, hu.object]
  · rintro _ v ⟨c, rfl, hnew, hself, hwv, hcalm, hext, hfilled, hkept, hg⟩
    have hdata : s.self.data.block ≠ some c := fun hb => by
      have hlt := h.target.block_lt h.wf hb
      omega
    have hsv : Stores v.mem v.self q := by
      rw [hself]
      refine h.target.elsewhere (fun b hb => ?_) (fun p b hb hp => ?_)
      · rw [hext, Function.update_of_ne (fun he => hdata (by rw [hb, he]))]
      · exact hkept p (fun he => hapart (by rw [hb, ← he, hp]))
          (fun he => hdata (by rw [hb, ← he, hp]))
    refine (cleanup_clears hsv hwv).bind (fun _ w hw => ?_)
    rw [hself] at hw
    have hdata' : v.self.data.block ≠ some c := by rwa [hself]
    have hextw : w.mem.extent c = some o.capacity := by
      rw [hw.extent c hdata', hext, Function.update_self]
    refine Code.Returns.step rfl (setSelf_returns ?_)
    refine .of_tallies (g := arrival c o.capacity qo.length) h.target
      (.holds c 0 qo.length qo (holds_fresh hextw ho.size_le hN (fun j => ?_))) rfl
      (fun _ => h.target.data_ne h.wf hnew) (fun _ => rfl)
      (fun _ _ => destructions_other _ _ (fun _ he => nomatch he)) (fun p => ?_) (fun p k => ?_) ?_
    · rw [hw.object _ (fun he => hdata' he.symm), hfilled]
    · exact arrival_other (fun _ _ he => nomatch he) (fun _ he => nomatch he)
    · exact arrival_other (fun _ _ he => nomatch he) (fun _ he => nomatch he)
    · have hsum := hg.trans hw.tallies
      rwa [add_comm] at hsum

/-- Whatever the operations promise, the target ends up with the elements of the source. -/
lemma releaseAndTransfer_assigned (h : Apart s o q qo) (hqo : qo.length ≠ 0)
    (trivial move : Bool) : (releaseAndTransfer E move o).Returns s
      (fun _ s' => Assigned trivial o q qo s s') := by
  refine Code.Returns.noexcept ?_
  split_ifs
  · exact cleanup_refill_assigned h hqo trivial true
  · exact cleanup_refill_assigned h hqo trivial false
  · exact replaceByTemp_assigned h hqo trivial

lemma deallocate_allocate_returns (h : Apart s o q []) : (do
    deallocateBuffer
    allocateBuffer o.capacity : Method α Unit).Returns s (fun _ s' =>
      ∃ g, Stores s'.mem s'.self ([] : List α) ∧ s'.self.capacity = o.capacity ∧
        (s.self.data ≠ .null → s'.self.data ≠ s.self.data) ∧ (∀ p, g (.destroy p) = 0) ∧
        (∀ p n, g (.deallocate p n) = 0) ∧ s.Tallies (giveBack s.self + g) s') := by
  refine (deallocateBuffer_clears h.target h.wf (.refl s) id (fun _ _ => rfl) (.refl s)).bind ?_
  intro _ t ht
  rw [zero_add] at ht
  by_cases hN : o.capacity = 0
  · refine Code.Returns.step rfl ?_
    rw [if_pos hN]
    refine setSelf_returns ⟨0, .blockless ht.data rfl rfl rfl, hN.symm, ?_, fun _ => rfl,
      fun _ _ => rfl, ?_⟩
    · intro hne he
      exact hne (he.symm.trans ht.data)
    · rw [add_zero]
      exact ht.tallies
  · refine (allocateBuffer_opens ht.wf (ht.calm h.calm) hN).mono ?_
    rintro _ u ⟨c, hu, hself⟩
    have hempty : arrival c o.capacity 0 = Pi.single (.allocate ⟨some c, 0⟩ o.capacity) 1 := by
      rw [arrival, built, Finset.sum_range_zero, add_zero]
    refine ⟨arrival c o.capacity 0, .holds c 0 0 [] ?_, by rw [hself], fun _ => ?_,
      fun p => arrival_other (fun _ _ he => by cases he) (fun _ he => by cases he),
      fun p n => arrival_other (fun _ _ he => by cases he) (fun _ he => by cases he),
      hempty ▸ ht.tallies.trans hu.tallies⟩
    · rw [hself]
      have hlen : ([] : List α).length ≤ o.capacity := Nat.zero_le _
      exact holds_fresh (by rw [hu.extent, Function.update_self]) hlen hN (fun j => hu.raw ht.wf j)
    · rw [hself]
      exact h.target.data_ne h.wf (ht.fresh.trans hu.new)

lemma deallocate_allocate_iff (h : Apart s o q []) (trivial : Bool) : (do
    deallocateBuffer
    allocateBuffer o.capacity : Method α Unit).Returns s
      (fun _ s' => Assigned trivial o q [] s s') ↔ q = [] ∨ trivial = true := by
  obtain ⟨_, t, hrun, g, hstores, hcap, hnew, hg, hg', htally⟩ :=
    deallocate_allocate_returns h
  constructor
  · rintro ⟨_, s', hs, has⟩
    rw [hrun] at hs
    cases hs
    by_contra hcon
    obtain ⟨hq, htriv⟩ := not_or.mp hcon
    have hdead := has.destroyed (by simpa using htriv) 0 (List.length_pos_of_ne_nil hq)
    have hback : giveBack s.self (.destroy (s.self.place 0)) = 0 :=
      giveBack_other _ (fun _ _ he => nomatch he)
    rw [htally, Pi.add_apply, hg, hback] at hdead
    omega
  · intro hnone
    refine ⟨(), t, hrun, .of_tallies (d := 0) (g := g) h.target hstores hcap hnew (fun htriv => ?_)
      (fun _ _ => rfl) hg hg' (by rwa [zero_add])⟩
    rcases hnone with rfl | htrue
    · exact (destructions_nil _).symm
    · cases htriv.symm.trans htrue

/-- Where one of the buffers is empty or the source's capacity is the greater one, the assignment is
right exactly if the source has elements, or the target has none to lose. -/
theorem assign_iff (h : Apart s o q qo) (trivial move : Bool) (fuel : ℕ)
    (hcase : q = [] ∨ qo = [] ∨ s.self.capacity < o.capacity) :
    (assign E trivial move fuel o).Returns s (fun _ s' => Assigned trivial o q qo s s') ↔
      qo ≠ [] ∨ q = [] ∨ (trivial = true ∧ o.capacity ≠ s.self.capacity) := by
  have hsize := h.target.size_eq
  have hosize := h.source.size_eq
  have hself : self s = .returned s.self s := rfl
  rw [assign, Code.Returns.step_iff hself]
  by_cases hqo : qo = []
  · subst hqo
    have hzero : o.size = 0 := hosize
    rw [if_pos (Or.inr hzero), if_neg (fun hne => hne hzero)]
    by_cases hcap : o.capacity = s.self.capacity
    · rw [if_neg (fun hne => hne hcap)]
      constructor
      · rintro ⟨_, s', hs, has⟩
        cases hs
        have hq := h.target.size_eq.symm.trans has.stores.size_eq
        exact Or.inr (Or.inl (List.length_eq_zero_iff.mp hq))
      · rintro (hne | rfl | ⟨-, hne⟩)
        · exact absurd rfl hne
        · refine Code.Returns.pure ⟨h.target, hcap.symm, fun _ i hi => ?_, fun _ => ?_⟩
          · exact absurd hi (Nat.not_lt_zero i)
          · rw [if_pos rfl, Nat.add_zero]
        · exact absurd hcap hne
    · rw [if_pos hcap, deallocate_allocate_iff h trivial]
      simp only [ne_eq, not_true_eq_false, false_or, hcap, not_false_eq_true, and_true]
  · have hne : qo.length ≠ 0 := fun hz => hqo (List.length_eq_zero_iff.mp hz)
    refine iff_of_true ?_ (Or.inl hqo)
    by_cases hq : q = []
    · rw [if_pos (Or.inl (by rw [hsize, hq, List.length_nil])), if_pos (by rwa [hosize])]
      exact releaseAndTransfer_assigned h hne trivial move
    · have hfull : ¬(s.self.size = 0 ∨ o.size = 0) := by
        rw [hsize, hosize]
        exact not_or.mpr ⟨fun hz => hq (List.length_eq_zero_iff.mp hz), hne⟩
      rw [if_neg hfull, if_pos (hcase.resolve_left hq |>.resolve_left hqo)]
      exact releaseAndTransfer_assigned h hne trivial move

lemma facing_apart {N no : ℕ} (hf : f < N) (hq : q.length ≤ N) (hfo : fo < no)
    (hqo : qo.length ≤ no) : Apart (facing N f q no fo qo) (opposed no fo qo) q qo :=
  ⟨.holds _ _ _ _ (facing_target qo hf hq), .holds _ _ _ _ (facing_source q hfo hqo),
    fun b hb hb' => (by cases hb; cases hb'), facing_wf q qo, rfl⟩

/-- Two elements that wrap around in a block for two, assigned to a buffer for one. -/
theorem greater_assigned : (assign (Element.plain 0 id) false false 3 (opposed 2 1 [7, 8])).Returns
    (facing 1 0 [1] 2 1 [7, 8]) (fun _ s' => Assigned false (opposed 2 1 [7, 8]) [1] [7, 8]
      (facing 1 0 [1] 2 1 [7, 8]) s') :=
  (assign_iff (facing_apart (by decide) (by decide) (by decide) (by decide)) false false 3
    (Or.inr (Or.inr (by decide)))).mpr (Or.inl (by decide))

/-- An empty buffer of the same capacity is assigned, and the element stays. -/
theorem empty_not_assigned : ∃ s',
    assign (Element.plain 0 id) false false 3 (opposed 2 0 ([] : List ℕ))
      (facing 2 0 [1] 2 0 []) = .returned () s' ∧
    s'.self.size = 1 ∧ s'.mem.object s'.self.first = some 1 ∧
    ¬(assign (Element.plain 0 id) false false 3 (opposed 2 0 ([] : List ℕ))).Returns
      (facing 2 0 [1] 2 0 []) (fun _ s' => Assigned false (opposed 2 0 ([] : List ℕ)) [1] [] (facing 2 0 [1] 2 0 []) s') := by
  refine ⟨_, rfl, rfl, rfl, ?_⟩
  rintro ⟨_, s', hs, has⟩
  cases hs
  cases has.stores.size_eq

end RingBuffer

end Voxory
