import Voxory.RingBuffer.Model
import Voxory.Containers.Bounds

/-!
# Ring buffers stay in their storage

The fields of a buffer agree when they are all null or describe places in the block it owns.
Every member function keeps that up and touches no slot outside the block, even where the size
no longer counts the elements that are alive. What stands in the way of a function is a
hypothesis `ok .outside`: without it the function has no such fault, with it the lemma says what
holds if the function gets through.
-/

namespace Voxory
open Cxx

namespace RingBuffer

variable {α : Type}

/-- The fields agree with each other and with the block. -/
inductive Shape (m : Memory α) : RingBuffer → Prop
  | nil (allow : Bool) : Shape m (nil allow)
  | block (b f l size capacity : ℕ) (allow : Bool) (hext : m.extent b = some capacity)
      (hf : f < capacity ∨ (capacity = 0 ∧ f = 0)) (hl : l ≤ capacity) (hsize : size ≤ capacity) :
      Shape m ⟨⟨some b, 0⟩, ⟨some b, f⟩, ⟨some b, l⟩, size, capacity, allow⟩

/-- A member function that ran from `s` to `s'`: its buffer's fields agree, and it owns its old
block or a new one. -/
structure Remains (s s' : State α RingBuffer) : Prop where
  shape : Shape s'.mem s'.self
  wf : s'.mem.Wf
  fresh : s.mem.fresh ≤ s'.mem.fresh
  block : ∀ b, s'.self.data.block = some b → s.self.data.block = some b ∨ s.mem.fresh ≤ b
  extent : ∀ b, b < s.mem.fresh → s.self.data.block ≠ some b →
    s'.mem.extent b = s.mem.extent b
  allowOverwrite : s'.self.allowOverwrite = s.self.allowOverwrite

variable {E : Element α} {ok : Fault → Prop} {s s' t : State α RingBuffer} {m m' : Memory α}
  {r : RingBuffer} {R : State α RingBuffer → Prop}

namespace Shape

lemma frame (h : Shape m r) (hext : ∀ b, r.data.block = some b → m'.extent b = m.extent b) :
    Shape m' r := by
  cases h with
  | nil allow => exact .nil allow
  | block b f l size capacity allow hb hf hl hsize =>
    exact .block b f l size capacity allow ((hext b rfl).trans hb) hf hl hsize

lemma policy (h : Shape m r) (allow : Bool) : Shape m { r with allowOverwrite := allow } := by
  cases h with
  | nil => exact .nil allow
  | block b f l size capacity _ hb hf hl hsize =>
    exact .block b f l size capacity allow hb hf hl hsize

lemma stays (h : Shape s.mem s.self) (hs : Stays s s') : Shape s'.mem s'.self := by
  rw [hs.self]
  exact h.frame (fun b _ => by rw [hs.extent])

lemma block_lt (h : Shape m r) (hw : m.Wf) {b : ℕ} (hb : r.data.block = some b) : b < m.fresh := by
  cases h with
  | nil => cases hb
  | block c f l size capacity allow hext =>
    cases hb
    by_contra hle
    rw [hw.fresh b (by omega)] at hext
    cases hext

lemma size_le (h : Shape m r) : r.size ≤ r.capacity := by
  cases h with
  | nil => exact le_rfl
  | block b f l size capacity allow hext hf hl hsize => exact hsize

end Shape

namespace Remains

lemma of_stays (h : Shape s.mem s.self) (hw : s.mem.Wf) (hs : Stays s s') : Remains s s' :=
  ⟨h.stays hs, hs.wf hw, hs.fresh, fun b hb => Or.inl (by rwa [← hs.self]),
    fun b _ _ => by rw [hs.extent], by rw [hs.self]⟩

lemma refl (h : Shape s.mem s.self) (hw : s.mem.Wf) : Remains s s := of_stays h hw (.refl s)

lemma of_set (hw : s.mem.Wf) (hs : Stays s t) (hr : Shape t.mem r)
    (hdata : r.data = s.self.data) (hallow : r.allowOverwrite = s.self.allowOverwrite) :
    Remains s { t with self := r } :=
  ⟨hr, hs.wf hw, hs.fresh, fun b hb => Or.inl (by rwa [← hdata]),
    fun b _ _ => by rw [hs.extent], hallow⟩

lemma trans (h : Remains s t) (h' : Remains t s') : Remains s s' := by
  refine ⟨h'.shape, h'.wf, h.fresh.trans h'.fresh, fun b hb => ?_, fun b hb hne => ?_,
    h'.allowOverwrite.trans h.allowOverwrite⟩
  · rcases h'.block b hb with hb | hb
    · exact h.block b hb
    · exact Or.inr (h.fresh.trans hb)
  · rw [h'.extent b (lt_of_lt_of_le hb h.fresh) ?_, h.extent b hb hne]
    intro htb
    rcases h.block b htb with hsb | hsb
    · exact hne hsb
    · omega

end Remains

/-! ### Destroying and releasing -/

lemma owned_of_extent {b i j n : ℕ} (hext : s.mem.extent b = some n) (hj : i + j ≤ n) :
    Owned s ⟨some b, i⟩ j := by
  intro k hk
  exact Memory.inBounds_iff.mpr ⟨b, n, rfl, hext, by simp only [Ptr.add_off]; omega⟩

lemma destroySeq_within {b i j n : ℕ} (hdead : ok .dead) (hext : s.mem.extent b = some n)
    (hij : i ≤ j) (hj : j ≤ n) :
    (destroySeq ⟨some b, i⟩ ⟨some b, j⟩).Within ok s (fun _ s' => Stays s s') R := by
  rw [destroySeq, if_pos ((Ptr.le_iff _ _).mpr hij)]
  refine destroyAll_within hdead (Or.inr (owned_of_extent hext ?_))
  simp only [Ptr.sub_eq]
  omega

lemma destroySeqs_within {b i n j : ℕ} (hdead : ok .dead) (hext : s.mem.extent b = some n)
    (hi : i ≤ n) (hj : j ≤ n) : (do
      destroySeq ⟨some b, i⟩ ((⟨some b, 0⟩ : Ptr) + n)
      destroySeq ⟨some b, 0⟩ ⟨some b, j⟩ : Method α Unit).Within ok s
        (fun _ s' => Stays s s') R := by
  rw [Ptr.mk_add, Nat.zero_add]
  refine (destroySeq_within hdead hext hi le_rfl).bind (fun _ t ht => ?_)
  refine (destroySeq_within hdead (by rw [ht.extent, hext]) (Nat.zero_le j) hj).mono ?_
    (fun _ hr => hr)
  intro _ s' hs'
  exact ht.trans hs'

lemma destroyRange_within (hdead : ok .dead) (h : Shape s.mem s.self) :
    (destroyRange s.self.first s.self.last).Within ok s (fun _ s' => Stays s s') R := by
  refine Code.Within.step rfl ?_
  by_cases hz : s.self.size = 0
  · rw [if_pos hz]
    exact Code.Within.pure (.refl s)
  rw [if_neg hz]
  have hsize := h.size_le
  generalize s.self = r at h hz hsize ⊢
  cases h with
  | nil => exact absurd rfl hz
  | block b f l size capacity allow hext hf hl =>
    have hfc : f ≤ capacity := by omega
    by_cases hfl : f < l
    · rw [if_pos ((Ptr.lt_iff _ _).mpr hfl)]
      exact destroySeq_within hdead hext hfl.le hl
    · rw [if_neg (fun hlt => hfl ((Ptr.lt_iff _ _).mp hlt))]
      exact destroySeqs_within hdead hext hfc hl

lemma destroyN_within {n : ℕ} (hdead : ok .dead) (h : Shape s.mem s.self)
    (hn : n ≤ s.self.size) :
    (destroyN s.self.first n).Within ok s (fun _ s' => Stays s s') R := by
  refine Code.Within.step rfl ?_
  by_cases hz : n = 0
  · rw [if_pos hz]
    exact Code.Within.pure (.refl s)
  rw [if_neg hz]
  generalize s.self = r at h hn ⊢
  cases h with
  | nil => exact absurd (Nat.le_zero.mp hn) hz
  | block b f l size capacity allow hext hf hl hsize =>
    have hfc : f ≤ capacity := by omega
    by_cases hfn : f + n ≤ capacity
    · rw [if_pos ((Ptr.le_iff _ _).mpr (by simpa using hfn))]
      exact destroySeq_within hdead hext (Nat.le_add_right f n) hfn
    · rw [if_neg (fun hle => hfn (by simpa using (Ptr.le_iff _ _).mp hle))]
      refine destroySeqs_within hdead hext hfc ?_
      simp only [Ptr.sub_eq, Ptr.add_off, Nat.zero_add]
      change n ≤ size at hn
      omega

/-- The block is gone and the fields are null. -/
structure Drops (s s' : State α RingBuffer) : Prop where
  self : s'.self = nil s.self.allowOverwrite
  wf : s'.mem.Wf
  fresh : s.mem.fresh ≤ s'.mem.fresh
  extent : ∀ b, s.self.data.block ≠ some b → s'.mem.extent b = s.mem.extent b

lemma Drops.remains (h : Drops s s') : Remains s s' :=
  ⟨h.self ▸ .nil _, h.wf, h.fresh, fun b hb => (by rw [h.self] at hb; cases hb),
    fun b _ hb => h.extent b hb, by rw [h.self]; rfl⟩

lemma cleanup_within (hdead : ok .dead) (h : Shape s.mem s.self) (hw : s.mem.Wf) :
    (cleanup : Method α Unit).Within ok s (fun _ s' => Drops s s') R := by
  refine Code.Within.step rfl ?_
  by_cases hnull : s.self.first = Ptr.null
  · rw [if_neg (fun hne => hne hnull)]
    refine Code.Within.pure ⟨?_, hw, le_rfl, fun _ _ => rfl⟩
    generalize s.self = r at h hnull ⊢
    cases h with
    | nil => rfl
    | block => cases hnull
  rw [if_pos hnull]
  refine (destroyRange_within hdead h).bind (fun _ t ht => Code.Within.step rfl ?_)
  rw [ht.self]
  have hdata : s.self.data ≠ Ptr.null := by
    intro hd
    generalize s.self = r at h hnull hd
    cases h with
    | nil => exact hnull rfl
    | block => cases hd
  rw [if_pos hdata]
  refine Code.Within.step rfl (Code.Within.of_ends (.of_returns (setSelf_returns ⟨rfl, ?_, ?_, ?_⟩)))
  · exact Memory.release_wf (ht.wf hw) _ _
  · exact ht.fresh
  · intro b hb
    simp only [Memory.release, if_neg hb, ht.extent]

/-! ### Growing -/

/-- Filling the new block `c` was interrupted. -/
structure Spares (s : State α RingBuffer) (c : ℕ) (s' : State α RingBuffer) : Prop where
  self : s'.self = s.self
  wf : s'.mem.Wf
  fresh : s.mem.fresh ≤ s'.mem.fresh
  extent : ∀ b, b ≠ c → s'.mem.extent b = s.mem.extent b

lemma Spares.of_stays {c : ℕ} (hw : s.mem.Wf) (hs : Stays s s') : Spares s c s' :=
  ⟨hs.self, hs.wf hw, hs.fresh, fun b _ => by rw [hs.extent]⟩

lemma transfer_within {b c i j n k N : ℕ} (move : Bool) (hdead : ok .dead)
    (hext : s.mem.extent b = some n) (hij : i ≤ j) (hj : j ≤ n)
    (hc : s.mem.extent c = some N) (hN : ok .outside ∨ k + (j - i) ≤ N) :
    (transfer E move ⟨some b, i⟩ ⟨some b, j⟩ ⟨some c, k⟩).Within ok s
      (fun q s' => q = ⟨some c, k + (j - i)⟩ ∧ (k ≤ N → k + (j - i) ≤ N) ∧ Stays s s')
      (Stays s) := by
  have hsrc : ok .outside ∨ Owned s ⟨some b, i⟩ (j - i) :=
    Or.inr (owned_of_extent hext (by omega))
  have hdest : ok .outside ∨ Owned s ⟨some c, k⟩ (j - i) :=
    hN.imp_right (fun h => owned_of_extent hc h)
  have hall : ∀ (q : Ptr) s', q = (⟨some c, k⟩ : Ptr) + (j - i) ∧
      Owned s ⟨some c, k⟩ (j - i) ∧ Stays s s' →
      q = ⟨some c, k + (j - i)⟩ ∧ (k ≤ N → k + (j - i) ≤ N) ∧ Stays s s' := by
    rintro q s' ⟨rfl, hown, hs'⟩
    refine ⟨rfl, fun hk => ?_, hs'⟩
    by_contra hgt
    obtain ⟨c', N', hcc, hN', hlt⟩ := Memory.inBounds_iff.mp (hown (j - i - 1) (by omega))
    cases hcc
    rw [hc] at hN'
    cases hN'
    simp only [Ptr.add_off] at hlt
    omega
  have hle : (⟨some b, i⟩ : Ptr) ≤ ⟨some b, j⟩ := (Ptr.le_iff _ _).mpr hij
  rw [transfer]
  split_ifs
  · rw [uninitializedMove, if_pos hle]
    exact (uninitializedMoveN_within hdead hsrc hdest).mono hall (fun _ h => h)
  · rw [uninitializedCopy, if_pos hle]
    exact (uninitializedCopyN_within hdead hsrc hdest).mono hall (fun _ h => h)

lemma fillUninitializedFromRing_within {c N : ℕ} (move : Bool) (hdead : ok .dead)
    (h : Shape s.mem s.self) (hz : s.self.size ≠ 0) (hc : s.mem.extent c = some N)
    (hN : ok .outside ∨ s.self.capacity ≤ N) :
    (fillUninitializedFromRing E ⟨some c, 0⟩ move).Within ok s
      (fun q s' => (∃ k, q = ⟨some c, k⟩ ∧ k ≤ N) ∧ Stays s s') (Stays s) := by
  refine Code.Within.noexcept (Code.Within.step rfl ?_)
  have hsize := h.size_le
  generalize s.self = r at h hz hsize hN ⊢
  cases h with
  | nil => exact absurd rfl hz
  | block b f l size capacity allow hext hf hl =>
    have hfc : f ≤ capacity := by omega
    change ok .outside ∨ capacity ≤ N at hN
    by_cases hfl : f < l
    · rw [if_pos ((Ptr.lt_iff _ _).mpr hfl)]
      refine (transfer_within move hdead hext hfl.le hl hc (hN.imp_right (by omega))).mono ?_
        (fun _ h => h)
      rintro _ s' ⟨rfl, hk, hs'⟩
      exact ⟨⟨_, rfl, hk (Nat.zero_le N)⟩, hs'⟩
    · rw [if_neg (fun hlt => hfl ((Ptr.lt_iff _ _).mp hlt)), Ptr.mk_add, Nat.zero_add]
      refine (transfer_within move hdead hext hfc le_rfl hc (hN.imp_right (by omega))).bind ?_
      rintro _ t ⟨rfl, hk, ht⟩
      refine (transfer_within move hdead (by rw [ht.extent, hext]) (Nat.zero_le l) hl
        (by rw [ht.extent, hc]) (hN.imp_right (by omega))).mono ?_ (fun _ hs' => ht.trans hs')
      rintro _ s' ⟨rfl, hk', hs'⟩
      exact ⟨⟨_, rfl, hk' (hk (Nat.zero_le N))⟩, ht.trans hs'⟩

lemma relocate_within {c N : ℕ} (hdead : ok .dead) (h : Shape s.mem s.self) (hw : s.mem.Wf)
    (hc : s.mem.extent c = some N) (hN : ok .outside ∨ s.self.capacity ≤ N) :
    (relocate E ⟨some c, 0⟩ N).Within ok s
      (fun q s' => (∃ k, q = ⟨some c, k⟩ ∧ k ≤ N) ∧ Stays s s') (Spares s c) := by
  refine Code.Within.step rfl ?_
  by_cases hz : s.self.size = 0
  · rw [if_pos hz]
    exact Code.Within.pure ⟨⟨0, rfl, Nat.zero_le N⟩, .refl s⟩
  have hfill := fun move => (fillUninitializedFromRing_within (E := E) move hdead h hz hc hN)
  rw [if_neg hz]
  split_ifs
  · exact (hfill true).mono (fun _ _ hs' => hs') (fun _ hs' => .of_stays hw hs')
  · exact (hfill false).mono (fun _ _ hs' => hs') (fun _ hs' => .of_stays hw hs')
  · refine Code.Within.onThrow (hfill false) (fun t ht => ?_)
    refine Code.Within.of_ends (.of_returns ⟨(), _, rfl, ht.self, ?_, ht.fresh, fun b hb => ?_⟩)
    · exact Memory.release_wf (ht.wf hw) _ _
    · simp only [Memory.release]
      rw [if_neg (by simpa using Ne.symm hb), ht.extent]

lemma reallocate_within {n : ℕ} (hdead : ok .dead) (h : Shape s.mem s.self) (hw : s.mem.Wf)
    (hn : ok .outside ∨ s.self.capacity ≤ n) (hzero : n = 0 → s.self.size = 0) :
    (reallocate E n).Within ok s
      (fun _ s' => Remains s s' ∧ s'.self.size = 0 ∧ s'.self.capacity = n) (Remains s) := by
  refine ((Code.Within.of_ends (allocate_ends n hw)).mono (fun _ _ ht => ht)
    (fun _ ht => .of_stays h hw (.of_alters ht.toAlters))).bind (fun p t ht => ?_)
  rcases ht.answer with ⟨rfl, hn0, -, hext⟩ | ⟨c, hfresh, rfl, -, hext⟩
  · have hts : Remains s t := ⟨by rw [ht.self]; exact h.frame (fun b _ => by rw [hext]), ht.wf hw,
      ht.fresh, fun b hb => Or.inl (by rwa [← ht.self]), fun b _ _ => by rw [hext], by rw [ht.self]⟩
    refine Code.Within.step (b := Ptr.null) (t := t) ?_ ?_
    · rw [relocate, Code.bind_returned (show self t = .returned t.self t from rfl), ht.self,
        if_pos (hzero hn0), Code.pure_run]
    · refine (cleanup_within hdead hts.shape hts.wf).bind (fun _ u hu => Code.Within.step rfl ?_)
      rw [hu.self, hn0]
      refine Code.Within.of_ends (.of_returns (setSelf_returns
        ⟨hts.trans (t := t) ⟨.nil _, hu.wf, hu.fresh, fun b hb => (nomatch hb), ?_, rfl⟩, rfl, rfl⟩))
      exact fun b _ hb => hu.extent b hb
  · have hold : ∀ b, s.self.data.block = some b → b ≠ c := by
      intro b hb hbc
      have := h.block_lt hw hb
      omega
    have hshape : Shape t.mem t.self := by
      rw [ht.self]
      exact h.frame (fun b hb => by rw [hext, Function.update_of_ne (hold b hb)])
    have hextc : t.mem.extent c = some n := by rw [hext, Function.update_self]
    refine ((relocate_within hdead hshape (ht.wf hw) hextc (by rwa [ht.self])).mono
      (fun _ _ hu => hu) (fun u hu => ?_)).bind ?_
    · have hself : u.self = s.self := hu.self.trans ht.self
      refine ⟨?_, hu.wf, ht.fresh.trans hu.fresh, fun b hb => Or.inl (by rwa [← hself]),
        fun b hb hne => ?_, by rw [hself]⟩
      · rw [hself]
        exact h.frame (fun b hb => by
          rw [hu.extent b (hold b hb), hext, Function.update_of_ne (hold b hb)])
      · rw [hu.extent b (by omega), hext, Function.update_of_ne (by omega)]
    · rintro _ u ⟨⟨k, rfl, hk⟩, hu⟩
      have hself : u.self = s.self := hu.self.trans ht.self
      refine (cleanup_within hdead (hshape.stays hu) (hu.wf (ht.wf hw))).bind
        (fun _ v hv => Code.Within.step rfl ?_)
      have hvc : v.mem.extent c = some n := by
        rw [hv.extent c ?_, hu.extent, hextc]
        rw [hself]
        exact fun hsc => hold c hsc rfl
      rw [hv.self]
      refine Code.Within.of_ends (.of_returns (setSelf_returns ⟨⟨?_, hv.wf, ?_, ?_, ?_, ?_⟩, rfl, rfl⟩))
      · exact .block c 0 k 0 n _ hvc (by omega) hk (Nat.zero_le n)
      · exact (ht.fresh.trans hu.fresh).trans hv.fresh
      · intro b hb
        cases hb
        exact Or.inr hfresh
      · intro b hb hne
        change v.mem.extent b = _
        rw [hv.extent b (by rwa [hself]), hu.extent, hext, Function.update_of_ne (by omega)]
      · change u.self.allowOverwrite = _
        rw [hself]

/-! ### One element -/

lemma calculateGrow_gt (capacity : ℕ) : capacity < calculateGrow capacity := by
  rw [calculateGrow]
  split_ifs <;> omega

lemma emplaceBackWithUnusedCapacity_within (val : Arg α) (h : Shape s.mem s.self) (hw : s.mem.Wf)
    (hlt : s.self.size < s.self.capacity) :
    (emplaceBackWithUnusedCapacity E val).Within ok s
      (fun _ s' => Remains s s' ∧ s'.self.size = s.self.size + 1) (Remains s) := by
  refine Code.Within.noexcept (Code.Within.step rfl ?_)
  have hset : ∀ t, Stays s t → ∀ b f l size capacity allow,
      s.self = ⟨⟨some b, 0⟩, ⟨some b, f⟩, ⟨some b, l⟩, size, capacity, allow⟩ →
      s.mem.extent b = some capacity → f < capacity → ∀ l', l' ≤ capacity → size < capacity →
      Remains s ⟨t.mem, ⟨⟨some b, 0⟩, ⟨some b, f⟩, ⟨some b, l'⟩, size + 1, capacity, allow⟩⟩ := by
    intro t ht b f l size capacity allow hself hext hf l' hl' hsz
    refine .of_set hw ht ?_ (by rw [hself]) (by rw [hself])
    exact .block b f l' (size + 1) capacity allow (by rw [ht.extent, hext]) (Or.inl hf) hl' hsz
  have hstays := fun t (ht : Stays s t) => Remains.of_stays h hw ht
  generalize hr : s.self = r at h hlt hset ⊢
  cases h with
  | nil => exact absurd hlt (Nat.lt_irrefl 0)
  | block b f l size capacity allow hext hf hl hsize =>
    change size < capacity at hlt
    have hfc : f < capacity := by omega
    by_cases hend : l + 1 ≤ capacity
    · rw [if_pos ((Ptr.le_iff _ _).mpr (by simpa using hend))]
      refine ((constructAt_within (p := ⟨some b, l⟩) _ val.value (Or.inr (Memory.inBounds_iff.mpr
        ⟨b, capacity, rfl, hext, hend⟩))).mono (fun _ _ ht => ht) hstays).bind ?_
      rintro _ t ⟨rfl, ht⟩
      exact Code.Within.of_ends (.of_returns (setSelf_returns
        ⟨hset t ht b f l size capacity allow rfl hext hfc (l + 1) hend hlt, rfl⟩))
    · rw [if_neg (fun hle => hend (by simpa using (Ptr.le_iff _ _).mp hle))]
      refine ((constructAt_within (p := ⟨some b, 0⟩) _ val.value (Or.inr (Memory.inBounds_iff.mpr
        ⟨b, capacity, rfl, hext, Nat.zero_lt_of_lt hfc⟩))).mono (fun _ _ ht => ht) hstays).bind ?_
      rintro _ t ⟨rfl, ht⟩
      exact Code.Within.of_ends (.of_returns (setSelf_returns
        ⟨hset t ht b f l size capacity allow rfl hext hfc (0 + 1) (by omega) hlt, rfl⟩))

lemma overwriteFirst_within (val : Arg α) {p : Ptr} (hdead : ok .dead)
    (hp : ok .outside ∨ s.mem.inBounds p = true) : (overwriteFirst E val p).Within ok s
      (fun _ s' => s.mem.inBounds p = true ∧ Stays s s') (Stays s) := by
  rw [overwriteFirst]
  split_ifs
  · refine (mayThrow_within _).bind (fun _ t ht => ?_)
    refine (assign_within val.value hdead (hp.imp_right (fun hin => by rw [ht.inBounds, hin]))).mono
      ?_ (fun _ hr => hr)
    rintro _ s' ⟨hin, hs'⟩
    exact ⟨by rwa [ht.inBounds] at hin, ht.trans hs'⟩
  · refine Code.Within.bind (Q := fun _ t => s.mem.inBounds p = true ∧ Stays s t)
      ((destroy_within hdead hp).bind (fun _ _ ht => Code.Within.pure ht)) (fun _ t ht => ?_)
    refine ((constructAt_within _ val.value (Or.inr (by rw [ht.2.inBounds, ht.1]))).mono
      (fun _ _ hs' => hs') (fun _ hs' => ht.2.trans hs')).bind ?_
    rintro _ s' ⟨-, hs'⟩
    exact Code.Within.pure ⟨ht.1, ht.2.trans hs'⟩

lemma emplaceBackOverwrite_within (val : Arg α) (hdead : ok .dead) (h : Shape s.mem s.self)
    (hw : s.mem.Wf) (hcap : ok .outside ∨ s.self.capacity ≠ 0) :
    (emplaceBackOverwrite E val).Within ok s
      (fun _ s' => Remains s s' ∧ s'.self.size = s.self.size) (Remains s) := by
  refine Code.Within.noexcept (Code.Within.step rfl ?_)
  by_cases hfull : s.self.size = s.self.capacity
  swap
  · rw [if_pos hfull]
    exact Code.Within.pure ⟨.refl h hw, rfl⟩
  rw [if_neg (fun hne => hne hfull)]
  have hfirst : ok .outside ∨ s.mem.inBounds s.self.first = true := by
    refine hcap.imp_right (fun hcap => ?_)
    generalize s.self = r at h hcap
    cases h with
    | nil => exact absurd rfl hcap
    | block b f l size capacity allow hext hf hl hsize =>
      exact Memory.inBounds_iff.mpr ⟨b, capacity, rfl, hext, by
        change capacity ≠ 0 at hcap
        change f < capacity
        omega⟩
  refine ((overwriteFirst_within val hdead hfirst).mono (fun _ _ ht => ht)
    (fun _ ht => .of_stays h hw ht)).bind ?_
  rintro _ t ⟨hin, ht⟩
  refine Code.Within.of_ends (.of_returns (setSelf_returns ⟨.of_set hw ht ?_ rfl rfl, rfl⟩))
  generalize s.self = r at h hin hfull ⊢
  cases h with
  | nil =>
    obtain ⟨b, n, hb, -⟩ := Memory.inBounds_iff.mp hin
    cases hb
  | block b f l size capacity allow hext hf hl hsize =>
    obtain ⟨b', n, hb, hn, hlt⟩ := Memory.inBounds_iff.mp hin
    cases hb
    rw [hext] at hn
    cases hn
    change f < capacity at hlt
    have hextt : t.mem.extent b = some capacity := by rw [ht.extent, hext]
    by_cases hend : f + 1 = capacity
    · rw [if_pos (by rw [Ptr.mk_add, Ptr.mk_add, hend, Nat.zero_add])]
      exact .block b 0 (f + 1) size capacity allow hextt (by omega) (by omega) hsize
    · rw [if_neg (by simpa [Ptr.mk_add] using hend)]
      exact .block b (f + 1) (f + 1) size capacity allow hextt (by omega) (by omega) hsize

lemma pushBack_within (val : Arg α) (hdead : ok .dead) (h : Shape s.mem s.self) (hw : s.mem.Wf)
    (hcap : ok .outside ∨ s.self.capacity ≠ 0 ∨ s.self.allowOverwrite = false) :
    (pushBack E val).Within ok s
      (fun _ s' => Remains s s' ∧ s'.self.size ≤ s.self.size + 1) (Remains s) := by
  refine Code.Within.step rfl ?_
  by_cases hlt : s.self.size < s.self.capacity
  · rw [if_pos hlt]
    exact (emplaceBackWithUnusedCapacity_within val h hw hlt).mono
      (fun _ _ hs' => ⟨hs'.1, hs'.2.le⟩) (fun _ hs' => hs')
  rw [if_neg hlt]
  by_cases hallow : s.self.allowOverwrite = true
  · rw [if_pos hallow]
    refine (emplaceBackOverwrite_within val hdead h hw ?_).mono
      (fun _ _ hs' => ⟨hs'.1, by omega⟩) (fun _ hs' => hs')
    rw [hallow] at hcap
    simpa using hcap
  rw [if_neg hallow]
  have hgrow := calculateGrow_gt s.self.capacity
  refine (reallocate_within hdead h hw (Or.inr hgrow.le) (by omega)).bind ?_
  rintro _ t ⟨ht, hsize, hcapt⟩
  refine (emplaceBackWithUnusedCapacity_within val ht.shape ht.wf (by omega)).mono ?_
    (fun _ hs' => ht.trans hs')
  rintro _ s' ⟨hs', hsz⟩
  exact ⟨ht.trans hs', by omega⟩

lemma append_block {b f n : ℕ} (hself : s.self.data = ⟨some b, 0⟩) (hcap : s.self.capacity ≠ 0) :
    append ⟨some b, f⟩ n s = .returned ⟨some b, (f + n) % s.self.capacity⟩ s := by
  rw [append, Code.bind_returned (show self s = .returned s.self s from rfl), if_neg hcap,
    Code.pure_run, hself]
  simp only [Ptr.sub_eq, Ptr.mk_add, Nat.zero_add, Nat.sub_zero]

lemma advance_within {n : ℕ} (h : Shape s.mem s.self) (hw : s.mem.Wf) (hs : Stays s t)
    (hcap : ok .modZero ∨ s.self.capacity ≠ 0) : (append s.self.first n).Within ok t
      (fun q t' => t' = t ∧
        Remains s ⟨t.mem, { s.self with first := q, size := s.self.size - n }⟩) R := by
  by_cases hz : s.self.capacity = 0
  · refine Code.Within.step rfl ?_
    rw [hs.self, if_pos hz]
    exact Code.Within.undefined (hcap.resolve_right (fun hne => hne hz))
  have hset : ∀ b f l size capacity allow,
      s.self = ⟨⟨some b, 0⟩, ⟨some b, f⟩, ⟨some b, l⟩, size, capacity, allow⟩ →
      s.mem.extent b = some capacity → l ≤ capacity → size ≤ capacity → ∀ f', f' < capacity →
      Remains s ⟨t.mem, ⟨⟨some b, 0⟩, ⟨some b, f'⟩, ⟨some b, l⟩, size - n, capacity, allow⟩⟩ := by
    intro b f l size capacity allow hself hext hl hsz f' hf'
    refine .of_set hw hs ?_ (by rw [hself]) (by rw [hself])
    exact .block b f' l _ capacity allow (by rw [hs.extent, hext]) (Or.inl hf') hl
      ((Nat.sub_le _ _).trans hsz)
  have hself := hs.self
  generalize s.self = r at h hz hset hself ⊢
  cases h with
  | nil => exact absurd rfl hz
  | block b f l size capacity allow hext hf hl hsz =>
    have happ := append_block (s := t) (b := b) (f := f) (n := n) (by rw [hself])
      (by rw [hself]; exact hz)
    rw [hself] at happ
    rw [Code.Within, happ]
    exact ⟨rfl, hset b f l size capacity allow rfl hext hl hsz _
      (Nat.mod_lt _ (Nat.pos_of_ne_zero hz))⟩

lemma inBounds_first (h : Shape s.mem s.self) (hsize : s.self.size ≠ 0) :
    s.mem.inBounds s.self.first = true := by
  have hle := h.size_le
  generalize s.self = r at h hsize hle
  cases h with
  | nil => exact absurd rfl hsize
  | block b f l size capacity allow hext hf hl hsz =>
    refine Memory.inBounds_iff.mpr ⟨b, capacity, rfl, hext, ?_⟩
    change size ≠ 0 at hsize
    change f < capacity
    omega

lemma tryPopFront_within (hdead : ok .dead) (h : Shape s.mem s.self) (hw : s.mem.Wf) :
    (tryPopFront E).Within ok s
      (fun r s' => Remains s s' ∧ s'.self.size + r.toList.length = s.self.size) (Remains s) := by
  have hle := h.size_le
  refine Code.Within.step rfl ?_
  by_cases hz : s.self.size = 0
  · rw [if_pos hz]
    exact Code.Within.pure ⟨.refl h hw, by rw [hz]; rfl⟩
  rw [if_neg hz]
  have hin := inBounds_first h hz
  refine (read_within hdead (Or.inr hin)).bind ?_
  rintro v _ rfl
  refine ((mayThrow_within E.moveThrows).mono (fun _ _ ht => ht)
    (fun _ ht => .of_stays h hw ht)).bind (fun _ t ht => ?_)
  refine (assign_within (E.movedFrom v) hdead (Or.inr (by rw [ht.inBounds, hin]))).bind ?_
  rintro _ u ⟨-, hu⟩
  have hsu := ht.trans hu
  refine Code.Within.bind (Q := fun _ t' => Stays _ t')
    ((destroy_within hdead (Or.inr (by rw [hsu.inBounds, hin]))).bind
      (fun _ _ ht' => Code.Within.pure (hsu.trans ht'.2))) (fun _ t' ht' => ?_)
  refine (advance_within h hw ht' (Or.inr (by omega))).bind ?_
  rintro q _ ⟨rfl, hq⟩
  refine Code.Within.step rfl (((mayThrow_within E.moveThrows).mono (fun _ _ hs' => hs')
    (fun _ hs' => hq.trans (.of_stays hq.shape hq.wf hs'))).bind (fun _ s' hs' => ?_))
  refine Code.Within.pure ⟨hq.trans (.of_stays hq.shape hq.wf hs'), ?_⟩
  have hself : s'.self.size = _ := congrArg RingBuffer.size hs'.self
  rw [hself, Option.toList_some, List.length_singleton]
  exact Nat.sub_add_cancel (Nat.one_le_iff_ne_zero.mpr hz)

lemma index_within {i : ℕ} (hdead : ok .dead) (h : Shape s.mem s.self) (hw : s.mem.Wf)
    (hi : i < s.self.size) : (do
      let p ← index i
      Cxx.read p : Method α α).Within ok s (fun _ s' => s' = s) R := by
  have hle := h.size_le
  refine Code.Within.bind (Q := fun p t => t = s ∧ s.mem.inBounds p = true)
    (Code.Within.step rfl ?_) ?_
  · have hcap : s.self.capacity ≠ 0 := by omega
    have hrun : ∀ b f, s.self.data = ⟨some b, 0⟩ → append ⟨some b, f⟩ i s = _ :=
      fun b f hd => append_block hd hcap
    generalize s.self = r at h hle hi hrun hcap ⊢
    cases h with
    | nil => exact absurd rfl hcap
    | block b f l size capacity allow hext hf hl hsz =>
      rw [Code.Within, hrun b f rfl]
      exact ⟨rfl, Memory.inBounds_iff.mpr
        ⟨b, capacity, rfl, hext, Nat.mod_lt _ (Nat.pos_of_ne_zero hcap)⟩⟩
  · rintro p _ ⟨rfl, hin⟩
    exact read_within hdead (Or.inr hin)

/-! ### The whole buffer -/

lemma clear_within (hdead : ok .dead) (h : Shape s.mem s.self) (hw : s.mem.Wf) :
    (clear : Method α Unit).Within ok s (fun _ s' => Remains s s') R := by
  refine Code.Within.step rfl ((destroyRange_within hdead h).bind (fun _ t ht => ?_))
  refine Code.Within.of_ends (.of_returns (setSelf_returns (.of_set hw ht ?_ rfl rfl)))
  generalize s.self = r at h ⊢
  cases h with
  | nil allow => exact .nil allow
  | block b f l size capacity allow hext hf hl hsz =>
    exact .block b 0 0 0 capacity allow (by rw [ht.extent, hext]) (by omega) (Nat.zero_le _)
      (Nat.zero_le _)

lemma commitRead_within {n : ℕ} (hdead : ok .dead) (h : Shape s.mem s.self) (hw : s.mem.Wf)
    (hn : n ≤ s.self.size) (hcap : ok .modZero ∨ s.self.capacity ≠ 0) :
    (commitRead n : Method α Unit).Within ok s (fun _ s' => Remains s s') R := by
  refine Code.Within.step rfl ((destroyN_within hdead h hn).bind (fun _ t ht => ?_))
  refine (advance_within h hw ht hcap).bind ?_
  rintro q _ ⟨rfl, hq⟩
  exact Code.Within.of_ends (.of_returns (setSelf_returns hq))

lemma commitWrite_within {n : ℕ} (h : Shape s.mem s.self) (hw : s.mem.Wf)
    (hn : n ≤ s.self.capacity - s.self.size) (hcap : ok .modZero ∨ s.self.capacity ≠ 0) :
    (commitWrite n : Method α Unit).Within ok s (fun _ s' => Remains s s') R := by
  refine Code.Within.step rfl ?_
  by_cases hz : s.self.capacity = 0
  · refine Code.Within.bind (Q := fun _ _ => False) (Code.Within.step rfl ?_)
      (fun _ _ hfalse => hfalse.elim)
    rw [if_pos hz]
    exact Code.Within.undefined (hcap.resolve_right (fun hne => hne hz))
  have hset : ∀ b f l size capacity allow,
      s.self = ⟨⟨some b, 0⟩, ⟨some b, f⟩, ⟨some b, l⟩, size, capacity, allow⟩ →
      s.mem.extent b = some capacity → (f < capacity ∨ (capacity = 0 ∧ f = 0)) →
      ∀ l', l' ≤ capacity → ∀ size', size' ≤ capacity →
      Remains s ⟨s.mem, ⟨⟨some b, 0⟩, ⟨some b, f⟩, ⟨some b, l'⟩, size', capacity, allow⟩⟩ := by
    intro b f l size capacity allow hself hext hf l' hl' size' hsz
    refine .of_set hw (.refl s) ?_ (by rw [hself]) (by rw [hself])
    exact .block b f l' size' capacity allow hext hf hl' hsz
  have happ := fun b l => append_block (s := s) (b := b) (f := l) (n := n)
  have hle := h.size_le
  generalize s.self = r at h hn hz hset hle happ ⊢
  cases h with
  | nil => exact absurd rfl hz
  | block b f l size capacity allow hext hf hl hsz =>
    refine Code.Within.step (happ b l rfl hz) ?_
    refine Code.Within.of_ends (.of_returns (setSelf_returns ?_))
    have hlt : (l + n) % capacity < capacity := Nat.mod_lt _ (Nat.pos_of_ne_zero hz)
    change n ≤ capacity - size at hn
    have hfit : size + n ≤ capacity := by omega
    exact hset b f l size capacity allow rfl hext hf _ hlt.le _ hfit

lemma reserve_within (n : ℕ) (hdead : ok .dead) (h : Shape s.mem s.self) (hw : s.mem.Wf) :
    (reserve E n).Within ok s (fun _ s' => Remains s s') (Remains s) := by
  refine Code.Within.step rfl ?_
  split_ifs with hn
  · exact (reallocate_within hdead h hw (Or.inr hn.le) (by omega)).mono
      (fun _ _ hs' => hs'.1) (fun _ hs' => hs')
  · exact Code.Within.pure (.refl h hw)

lemma shrinkToFit_within (hdead : ok .dead) (hout : ok .outside) (h : Shape s.mem s.self)
    (hw : s.mem.Wf) : (shrinkToFit E).Within ok s (fun _ s' => Remains s s') (Remains s) := by
  refine Code.Within.step rfl ?_
  split_ifs
  · exact (reallocate_within hdead h hw (Or.inl hout) id).mono
      (fun _ _ hs' => hs'.1) (fun _ hs' => hs')
  · exact Code.Within.pure (.refl h hw)

lemma constructSized_within (n : ℕ) (hw : m.Wf) :
    (constructSized n : Method α Unit).Within ok ⟨m, nil true⟩
      (fun _ s' => Remains ⟨m, nil true⟩ s') (Remains ⟨m, nil true⟩) := by
  have hnil : Shape m (nil true) := .nil true
  refine Code.Within.step (b := ()) (t := ⟨m, nil true⟩) rfl (Code.Within.step rfl ?_)
  by_cases hz : n = 0
  · rw [if_pos hz]
    exact Code.Within.of_ends (.of_returns (setSelf_returns (.refl hnil hw)))
  rw [if_neg hz]
  refine ((Code.Within.of_ends (allocate_ends n (s := ⟨m, nil true⟩) hw)).mono (fun _ _ ht => ht)
    (fun _ ht => .of_stays hnil hw (.of_alters ht.toAlters))).bind (fun p t ht => ?_)
  rcases ht.answer with ⟨-, hn, -⟩ | ⟨c, hfresh, rfl, -, hext⟩
  · exact absurd hn hz
  refine Code.Within.of_ends (.of_returns (setSelf_returns ⟨?_, ht.wf hw, ht.fresh, ?_, ?_, rfl⟩))
  · exact .block c 0 0 0 n true (by rw [hext, Function.update_self]) (by omega) (Nat.zero_le n)
      (Nat.zero_le n)
  · intro b hb
    cases hb
    exact Or.inr hfresh
  · intro b hb _
    change t.mem.extent b = _
    rw [hext, Function.update_of_ne (by change b < m.fresh at hb; change m.fresh ≤ c at hfresh; omega)]

end RingBuffer

end Voxory
