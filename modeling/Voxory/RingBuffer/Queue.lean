import Voxory.RingBuffer.Model
import Voxory.Cyclic

/-!
# The ring buffer holds a queue

The elements of a buffer are laid out in its block from `first` on, wrapping around at the end.
Every member function but growth keeps this layout, whichever of its two forms `last` has, and
does to the elements what it should do to a queue.
-/

namespace Voxory
open Cxx Cyclic

namespace RingBuffer

variable {α : Type}

/-- The buffer `r` owns the block `b` and holds the elements `q` in it, from slot `f` up to the
offset `l`. -/
structure Holds (m : Memory α) (r : RingBuffer) (b f l : ℕ) (q : List α) : Prop where
  data : r.data = ⟨some b, 0⟩
  first : r.first = ⟨some b, f⟩
  last : r.last = ⟨some b, l⟩
  size : r.size = q.length
  extent : m.extent b = some r.capacity
  first_lt : f < r.capacity
  size_le : q.length ≤ r.capacity
  behind : Behind r.capacity f q.length l
  object : ∀ j, j < r.capacity → m.object ⟨some b, j⟩ = lay r.capacity f q j

/-- A member function that ran from `s` to `s'` and left the elements `q` in its buffer. -/
structure Serves (s : State α RingBuffer) (q : List α) (s' : State α RingBuffer) : Prop where
  holds : ∃ b f l, Holds s'.mem s'.self b f l q
  capacity : s'.self.capacity = s.self.capacity
  allowOverwrite : s'.self.allowOverwrite = s.self.allowOverwrite
  wf : s'.mem.Wf
  tidy : s.mem.Tidy → s'.mem.Tidy
  calm : s.mem.fuse = none → s'.mem.fuse = none

/-- As `Serves`, with the elements in the block `b` from slot `f` on. -/
structure ServesAt (s : State α RingBuffer) (b f : ℕ) (q : List α) (s' : State α RingBuffer) :
    Prop extends Serves s q s' where
  located : ∃ l, Holds s'.mem s'.self b f l q

variable {E : Element α} {s s' t : State α RingBuffer} {b f l : ℕ} {q : List α} {v : α}

lemma calm_of_spent {c : ℕ} {k k' : Option ℕ} (h : Spent c k k') (hk : k = none) : k' = none := by
  rw [h.2, hk]
  rfl

namespace Holds

lemma capacity_pos (h : Holds s.mem s.self b f l q) : s.self.capacity ≠ 0 := by
  have := h.first_lt
  omega

lemma inBounds (h : Holds s.mem s.self b f l q) {j : ℕ} (hj : j < s.self.capacity) :
    s.mem.inBounds ⟨some b, j⟩ = true :=
  Memory.inBounds_iff.mpr ⟨b, s.self.capacity, rfl, h.extent, hj⟩

lemma object_slot (h : Holds s.mem s.self b f l q) {i : ℕ} (hi : i < q.length) :
    s.mem.object ⟨some b, slot s.self.capacity f i⟩ = q[i]? := by
  have hsize := h.size_le
  rw [h.object _ (slot_lt h.first_lt), lay_slot h.first_lt (by omega)]

lemma object_first (h : Holds s.mem s.self b f l q) (hq : q ≠ []) :
    s.mem.object s.self.first = q.head? := by
  have hpos : 0 < q.length := List.length_pos_of_ne_nil hq
  have hslot : slot s.self.capacity f 0 = f := Nat.mod_eq_of_lt h.first_lt
  have h0 := h.object_slot hpos
  rwa [hslot, ← h.first, ← List.head?_eq_getElem?] at h0

lemma stretches {m : Memory α} {r : RingBuffer} (h : Holds m r b f l q) (hq : q.length ≠ 0) :
    (f < l ∧ l = f + q.length) ∨
      (¬f < l ∧ r.capacity ≤ f + q.length ∧ l = f + q.length - r.capacity) := by
  have hf := h.first_lt
  have hsize := h.size_le
  have hle := h.behind.le
  have hcases := h.behind.cases hf hsize
  omega

lemma remember (h : Holds s.mem s.self b f l q) {m : Memory α} (hext : m.extent = s.mem.extent)
    (hobj : m.object = s.mem.object) : Holds m s.self b f l q :=
  { h with
    extent := by rw [hext, h.extent]
    object := fun j hj => by rw [hobj, h.object j hj] }

end Holds

lemma serves_refl (h : Holds s.mem s.self b f l q) (hw : s.mem.Wf) : Serves s q s :=
  ⟨⟨b, f, l, h⟩, rfl, rfl, hw, id, id⟩

lemma Serves.of_becomes {c : ℕ} {g : Ptr → Option α} {r : RingBuffer} (hw : s.mem.Wf)
    (hbe : s.Becomes c g s') (hh : ∃ b f l, Holds s'.mem r b f l q)
    (hcap : r.capacity = s.self.capacity) (hallow : r.allowOverwrite = s.self.allowOverwrite) :
    Serves s q { s' with self := r } :=
  ⟨hh, hcap, hallow, hbe.wf hw, hbe.tidy, calm_of_spent hbe.spent⟩

lemma ServesAt.of_becomes {c : ℕ} {g : Ptr → Option α} {r : RingBuffer} (hw : s.mem.Wf)
    (hbe : s.Becomes c g s') (hh : Holds s'.mem r b f l q)
    (hcap : r.capacity = s.self.capacity) (hallow : r.allowOverwrite = s.self.allowOverwrite) :
    ServesAt s b f q { s' with self := r } :=
  ⟨.of_becomes hw hbe ⟨b, f, l, hh⟩ hcap hallow, l, hh⟩

lemma servesAt_refl (h : Holds s.mem s.self b f l q) (hw : s.mem.Wf) : ServesAt s b f q s :=
  ⟨serves_refl h hw, l, h⟩

/-! ### Walking the ring -/

lemma append_run (h : Holds s.mem s.self b f l q) (ht : t.self = s.self) (i : ℕ) :
    append s.self.first i t = .returned ⟨some b, slot s.self.capacity f i⟩ t := by
  rw [append, Code.bind_returned (show self t = .returned t.self t from rfl), ht,
    if_neg h.capacity_pos, Code.pure_run, h.data, h.first]
  simp only [Ptr.sub_eq, Ptr.mk_add, Nat.zero_add, Nat.sub_zero, slot]

lemma destroySeq_returns {i j : ℕ} (hw : s.mem.Wf) (hij : i ≤ j)
    (hlive : ∀ k, i ≤ k → k < j → (s.mem.object ⟨some b, k⟩).isSome) :
    (destroySeq ⟨some b, i⟩ ⟨some b, j⟩).Returns s (fun _ s' =>
      s.Becomes 0 (overlay s.mem.object ⟨some b, i⟩ (j - i) (fun _ => none)) s') := by
  rw [destroySeq, if_pos ((Ptr.le_iff _ _).mpr hij)]
  refine destroyAll_returns hw (fun k hk => ?_)
  rw [Ptr.mk_add]
  exact hlive _ (by omega) (by simp only [Ptr.sub_eq] at hk; omega)

/-- Between `s` and `s'` the slots of the block `b` that satisfy `P` were emptied, after `c`
fallible operations. -/
structure Empties (s : State α RingBuffer) (c b : ℕ) (P : ℕ → Prop) (s' : State α RingBuffer) :
    Prop where
  becomes : s.Becomes c s'.mem.object s'
  emptied : ∀ j, P j → s'.mem.object ⟨some b, j⟩ = none
  kept : ∀ j, ¬P j → s'.mem.object ⟨some b, j⟩ = s.mem.object ⟨some b, j⟩

lemma empties_refl {P : ℕ → Prop} (hP : ∀ j, ¬P j) : Empties s 0 b P s :=
  ⟨.refl s, fun j hj => absurd hj (hP j), fun _ _ => rfl⟩

lemma destroySeq_empties {i j : ℕ} (hw : s.mem.Wf) (hij : i ≤ j)
    (hlive : ∀ k, i ≤ k → k < j → (s.mem.object ⟨some b, k⟩).isSome) :
    (destroySeq ⟨some b, i⟩ ⟨some b, j⟩).Returns s (fun _ s' =>
      Empties s 0 b (fun k => i ≤ k ∧ k < j) s') := by
  refine (destroySeq_returns hw hij hlive).mono (fun _ s' hs' => ⟨?_, fun k hk => ?_, fun k hk => ?_⟩)
  · rw [hs'.object]
    exact hs'
  · have hinside := overlay_inside s.mem.object ⟨some b, i⟩ (fun _ => none)
      (show k - i < j - i by omega)
    rwa [Ptr.mk_add, show i + (k - i) = k by omega, ← hs'.object] at hinside
  · rw [hs'.object]
    exact overlay_outside (by simp only [true_and, not_and]; omega)

lemma Empties.trans {c d : ℕ} {P P' : ℕ → Prop} (h : Empties s c b P t)
    (h' : Empties t d b P' s') : Empties s (c + d) b (fun j => P j ∨ P' j) s' := by
  refine ⟨h.becomes.trans h'.becomes, fun j hj => ?_, fun j hj => ?_⟩
  · by_cases hP' : P' j
    · exact h'.emptied j hP'
    · rw [h'.kept j hP']
      exact h.emptied j (hj.resolve_right hP')
  · rw [h'.kept j (fun hP' => hj (Or.inr hP')), h.kept j (fun hP => hj (Or.inl hP))]

lemma Empties.congr {c : ℕ} {P P' : ℕ → Prop} (h : Empties s c b P s')
    (hP : ∀ j, (s.mem.object ⟨some b, j⟩).isSome → (P j ↔ P' j)) : Empties s c b P' s' := by
  refine ⟨h.becomes, fun j hj => ?_, fun j hj => ?_⟩
  · by_cases hPj : P j
    · exact h.emptied j hPj
    · rw [h.kept j hPj]
      by_contra hne
      exact hPj ((hP j (Option.isSome_iff_ne_none.mpr hne)).mpr hj)
  · by_cases hPj : P j
    · rw [h.emptied j hPj]
      by_contra hne
      exact hj ((hP j (Option.isSome_iff_ne_none.mpr (Ne.symm hne))).mp hPj)
    · exact h.kept j hPj

namespace Holds

lemma lt_capacity (h : Holds s.mem s.self b f l q) (hw : s.mem.Wf) {j : ℕ}
    (hj : (s.mem.object ⟨some b, j⟩).isSome) : j < s.self.capacity := by
  obtain ⟨c, n, hc, hn, hlt⟩ := Memory.inBounds_iff.mp (hw.bounds _ hj)
  cases hc
  rw [h.extent] at hn
  cases hn
  exact hlt

lemma isSome_iff (h : Holds s.mem s.self b f l q) {j : ℕ} (hj : j < s.self.capacity) :
    (s.mem.object ⟨some b, j⟩).isSome ↔ place s.self.capacity f j < q.length := by
  rw [h.object j hj, lay_isSome]

end Holds

lemma destroyRange_stretch {k : ℕ} (hdata : s.self.data = ⟨some b, 0⟩) (hw : s.mem.Wf)
    (hsize : s.self.size ≠ 0) (hf : f < s.self.capacity) (hk : k ≠ 0) (hkn : k ≤ s.self.capacity)
    (hl : Behind s.self.capacity f k l)
    (hlive : ∀ j, j < s.self.capacity → place s.self.capacity f j < k →
      (s.mem.object ⟨some b, j⟩).isSome) :
    (destroyRange ⟨some b, f⟩ ⟨some b, l⟩).Returns s (fun _ s' =>
      Empties s 0 b (fun j => j < s.self.capacity ∧ place s.self.capacity f j < k) s') := by
  have hle := hl.le
  have hocc : ∀ j, j < s.self.capacity → (place s.self.capacity f j < k ↔
      if f < l then f ≤ j ∧ j < l else f ≤ j ∨ j < l) := fun j hj => hl.occupied hf hkn hk hj
  refine Code.Returns.step rfl ?_
  rw [if_neg hsize, hdata]
  by_cases hfl : f < l
  · simp only [if_pos hfl] at hocc
    rw [if_pos ((Ptr.lt_iff _ _).mpr hfl)]
    refine (destroySeq_empties hw hfl.le (fun j hj hjl =>
      hlive j (by omega) ((hocc j (by omega)).mpr ⟨hj, hjl⟩))).mono (fun _ s' hs' => ?_)
    refine hs'.congr (fun j _ => ⟨fun hj => ⟨by omega, (hocc j (by omega)).mpr hj⟩, ?_⟩)
    exact fun hj => (hocc j hj.1).mp hj.2
  · simp only [if_neg hfl] at hocc
    rw [if_neg (fun hlt => hfl ((Ptr.lt_iff _ _).mp hlt)), Ptr.mk_add, Nat.zero_add]
    refine (destroySeq_empties hw hf.le
      (fun j hj hjn => hlive j hjn ((hocc j hjn).mpr (Or.inl hj)))).bind (fun _ t ht => ?_)
    refine (destroySeq_empties (ht.becomes.wf hw) (Nat.zero_le l) (fun j _ hjl => ?_)).mono ?_
    · rw [ht.kept j (by omega)]
      exact hlive j (by omega) ((hocc j (by omega)).mpr (Or.inr hjl))
    · intro _ s' hs'
      refine (ht.trans hs').congr (fun j _ => ⟨fun hj => ?_, fun hj => ?_⟩)
      · exact ⟨by omega, (hocc j (by omega)).mpr (by omega)⟩
      · have hj' := (hocc j hj.1).mp hj.2
        omega

lemma destroyRange_empties (h : Holds s.mem s.self b f l q) (hw : s.mem.Wf) :
    (destroyRange s.self.first s.self.last).Returns s
      (fun _ s' => Empties s 0 b (fun j => place s.self.capacity f j < q.length) s') := by
  by_cases hz : q.length = 0
  · refine Code.Returns.step rfl ?_
    rw [if_pos (h.size.trans hz)]
    exact Code.Returns.pure (empties_refl (fun j => by omega))
  · rw [h.first, h.last]
    refine (destroyRange_stretch h.data hw (by rwa [h.size]) h.first_lt hz h.size_le h.behind
      (fun j hj hp => (h.isSome_iff hj).mpr hp)).mono (fun _ s' hs' => hs'.congr (fun j hj => ?_))
    exact and_iff_right (h.lt_capacity hw hj)

lemma destroyN_empties {n : ℕ} (h : Holds s.mem s.self b f l q) (hw : s.mem.Wf)
    (hn : n ≤ q.length) : (destroyN s.self.first n).Returns s
      (fun _ s' => Empties s 0 b (fun j => place s.self.capacity f j < n) s') := by
  refine Code.Returns.step rfl ?_
  by_cases hz : n = 0
  · rw [if_pos hz]
    exact Code.Returns.pure (empties_refl (fun j => by omega))
  have hf := h.first_lt
  have hsize := h.size_le
  have hlive : ∀ j, j < s.self.capacity → place s.self.capacity f j < n →
      (s.mem.object ⟨some b, j⟩).isSome :=
    fun j hj hp => (h.isSome_iff hj).mpr (by omega)
  rw [if_neg hz, h.first, h.data, Ptr.mk_add, Ptr.mk_add, Nat.zero_add]
  by_cases hfn : f + n ≤ s.self.capacity
  · rw [if_pos ((Ptr.le_iff _ _).mpr hfn)]
    refine (destroySeq_empties hw (Nat.le_add_right f n) (fun k hk hkn => ?_)).mono ?_
    · refine hlive k (by omega) ?_
      rw [place, if_pos hk]
      omega
    · intro _ s' hs'
      refine hs'.congr (fun j hj => ?_)
      have hjn := h.lt_capacity hw hj
      rw [place]
      split_ifs <;> omega
  · rw [if_neg (fun hle => hfn ((Ptr.le_iff _ _).mp hle)), Ptr.mk_add, Nat.zero_add]
    refine (destroySeq_empties hw hf.le (fun k hk hkn => ?_)).bind (fun _ t ht => ?_)
    · refine hlive k hkn ?_
      rw [place, if_pos hk]
      omega
    · simp only [Ptr.sub_eq]
      refine (destroySeq_empties (ht.becomes.wf hw) (Nat.zero_le _) (fun k _ hkn => ?_)).mono ?_
      · rw [ht.kept k (by omega)]
        refine hlive k (by omega) ?_
        rw [place, if_neg (by omega)]
        omega
      · intro _ s' hs'
        refine (ht.trans hs').congr (fun j hj => ?_)
        have hjn := h.lt_capacity hw hj
        rw [place]
        split_ifs <;> omega

/-! ### What the operations do to the layout -/

namespace Holds

lemma drop {c n : ℕ} (h : Holds s.mem s.self b f l q) (hn : n ≤ q.length)
    (he : Empties s c b (fun j => place s.self.capacity f j < n) s') :
    Holds s'.mem { s.self with first := ⟨some b, slot s.self.capacity f n⟩,
                               size := s.self.size - n }
      b (slot s.self.capacity f n) l (q.drop n) where
  data := h.data
  first := rfl
  last := h.last
  size := by rw [h.size, List.length_drop]
  extent := by rw [he.becomes.extent, h.extent]
  first_lt := slot_lt h.first_lt
  size_le := by
    rw [List.length_drop]
    exact (Nat.sub_le _ _).trans h.size_le
  behind := by
    rw [List.length_drop]
    exact h.behind.drop h.first_lt hn h.size_le
  object j hj := by
    rw [lay_drop h.first_lt hn h.size_le hj]
    split_ifs with hp
    · exact he.emptied j hp
    · rw [he.kept j hp, h.object j hj]

lemma reset (h : Holds s.mem s.self b f l q)
    (he : Empties s 0 b (fun j => place s.self.capacity f j < q.length) s') :
    Holds s'.mem { s.self with first := s.self.data, last := s.self.data, size := 0 } b 0 0 [] where
  data := h.data
  first := h.data
  last := h.data
  size := rfl
  extent := by rw [he.becomes.extent, h.extent]
  first_lt := Nat.pos_of_ne_zero h.capacity_pos
  size_le := Nat.zero_le _
  behind := ⟨Nat.zero_le _, rfl⟩
  object j hj := by
    by_cases hp : place s.self.capacity f j < q.length
    · exact he.emptied j hp
    · rw [he.kept j hp, h.object j hj, lay, List.getElem?_eq_none (by omega)]
      rfl

lemma push (h : Holds s.mem s.self b f l q) (hlt : q.length < s.self.capacity)
    (hext : s'.mem.extent = s.mem.extent)
    (hobj : s'.mem.object = Function.update s.mem.object
      ⟨some b, slot s.self.capacity f q.length⟩ (some v)) :
    Holds s'.mem { s.self with last := ⟨some b, slot s.self.capacity f q.length + 1⟩,
                               size := s.self.size + 1 }
      b f (slot s.self.capacity f q.length + 1) (q ++ [v]) where
  data := h.data
  first := h.first
  last := rfl
  size := by rw [h.size, List.length_append, List.length_singleton]
  extent := by rw [hext, h.extent]
  first_lt := h.first_lt
  size_le := by
    rw [List.length_append, List.length_singleton]
    exact hlt
  behind := by
    rw [List.length_append, List.length_singleton]
    exact Behind.push h.first_lt hlt
  object j hj := by
    rw [lay_append h.first_lt hlt hj, hobj]
    split_ifs with hjs
    · rw [hjs, Function.update_self]
    · rw [Function.update_of_ne (by simpa using hjs), h.object j hj]

lemma overwrite (h : Holds s.mem s.self b f l q) (hfull : q.length = s.self.capacity)
    (hext : s'.mem.extent = s.mem.extent)
    (hobj : s'.mem.object = Function.update s.mem.object ⟨some b, f⟩ (some v)) :
    Holds s'.mem { s.self with last := ⟨some b, f + 1⟩,
                               first := ⟨some b, slot s.self.capacity f 1⟩ }
      b (slot s.self.capacity f 1) (f + 1) (q.drop 1 ++ [v]) := by
  have hf := h.first_lt
  have hslot := slot_eq hf (show 1 ≤ s.self.capacity by omega)
  have hlen : (q.drop 1 ++ [v]).length = s.self.capacity := by
    rw [List.length_append, List.length_drop, List.length_singleton]
    omega
  refine ⟨h.data, rfl, rfl, ?_, ?_, slot_lt hf, hlen.le, ?_, fun j hj => ?_⟩
  · rw [hlen, ← hfull]
    exact h.size
  · rw [hext, h.extent]
  · rw [hlen]
    refine Behind.of_cases hf ?_
    dsimp only
    split_ifs at hslot <;> omega
  · rw [lay_overwrite hf hfull hj, hobj]
    split_ifs with hjf
    · rw [hjf, Function.update_self]
    · rw [Function.update_of_ne (by simpa using hjf), h.object j hj]

end Holds

/-! ### The member functions -/

lemma mayThrow_calm (c : Bool) (s : State α RingBuffer) : (mayThrow c).Ends s
    (fun _ s' => s.Becomes c.toNat s.mem.object s') (fun _ => s.mem.fuse ≠ none) :=
  (mayThrow_ends c s).mono (fun _ _ h => h) (fun s' h => by
    rw [h.2.blown]
    exact Option.some_ne_none 0)

lemma allocate_calm (n : ℕ) (hw : s.mem.Wf) : (allocate n).Ends s
    (fun p s' => s.Allocates 1 n p s') (fun _ => s.mem.fuse ≠ none) :=
  (allocate_ends n hw).mono (fun _ _ h => h) (fun s' h => by
    rw [h.blown]
    exact Option.some_ne_none 0)

lemma holds_of_allocates {c n : ℕ} {p : Ptr} (hn : 1 ≤ n) (hw : s.mem.Wf)
    (h : s.Allocates c n p t) (allow : Bool) : ∃ b, Holds t.mem ⟨p, p, p, 0, n, allow⟩ b 0 0 [] := by
  rcases h.answer with ⟨-, hzero, -⟩ | ⟨b, hb, rfl, -, hext⟩
  · omega
  refine ⟨b, rfl, rfl, rfl, rfl, ?_, hn, Nat.zero_le _, ⟨Nat.zero_le _, rfl⟩, fun j _ => ?_⟩
  · rw [hext, Function.update_self]
  · rw [h.object]
    refine hw.object_none (fun hin => ?_)
    obtain ⟨d, k, hd, hk, -⟩ := Memory.inBounds_iff.mp hin
    cases hd
    rw [hw.fresh b hb] at hk
    cases hk

lemma Serves.later {c : ℕ} (h : Serves s q t) (hbe : t.Becomes c t.mem.object s') :
    Serves s q s' := by
  obtain ⟨b, f, l, hh⟩ := h.holds
  refine ⟨⟨b, f, l, ?_⟩, by rw [hbe.self, h.capacity], by rw [hbe.self, h.allowOverwrite],
    hbe.wf h.wf, fun ht => hbe.tidy (h.tidy ht), fun hc => calm_of_spent hbe.spent (h.calm hc)⟩
  rw [hbe.self]
  exact hh.remember hbe.extent hbe.object

lemma ServesAt.later {c : ℕ} (h : ServesAt s b f q t) (hbe : t.Becomes c t.mem.object s') :
    ServesAt s b f q s' := by
  refine ⟨h.toServes.later hbe, h.located.imp (fun l hh => ?_)⟩
  rw [hbe.self]
  exact hh.remember hbe.extent hbe.object

lemma ServesAt.trans {b' f' : ℕ} {q' : List α} (h : ServesAt s b f q t)
    (h' : ServesAt t b' f' q' s') : ServesAt s b' f' q' s' :=
  ⟨⟨h'.holds, h'.capacity.trans h.capacity, h'.allowOverwrite.trans h.allowOverwrite, h'.wf,
    fun ht => h'.tidy (h.tidy ht), fun hc => h'.calm (h.calm hc)⟩, h'.located⟩

lemma constructAt_ends (throws : Bool) {p : Ptr} (v : α) (hb : s.mem.inBounds p = true)
    (hraw : s.mem.object p = none) : (constructAt throws p v).Ends s
      (fun r s' => r = p + 1 ∧
        s.Becomes throws.toNat (Function.update s.mem.object p (some v)) s')
      (fun _ => s.mem.fuse ≠ none) := by
  refine Code.Ends.noexcept ((mayThrow_calm throws s).bind (fun _ t ht => ?_))
  refine .of_returns ((construct_returns v (by rw [ht.inBounds, hb]) (by rw [ht.object, hraw])).bind
    (fun _ t' ht' => Code.Returns.pure ⟨rfl, ?_⟩))
  rw [ht.object] at ht'
  exact ht.trans ht'

lemma emplaceBackWithUnusedCapacity_ends (val : Arg α) (h : Holds s.mem s.self b f l q)
    (hw : s.mem.Wf) (hlt : q.length < s.self.capacity) :
    (emplaceBackWithUnusedCapacity E val).Ends s
      (fun _ s' => ServesAt s b f (q ++ [val.value]) s') (fun _ => s.mem.fuse ≠ none) := by
  have hslot := slot_lt (i := q.length) h.first_lt
  have hwhere : (if s.self.last + 1 ≤ s.self.data + s.self.capacity
      then constructAt (val.constructThrows E) s.self.last val.value
      else constructAt (val.constructThrows E) s.self.data val.value) =
      (constructAt (val.constructThrows E) ⟨some b, slot s.self.capacity f q.length⟩ val.value :
        Method α Ptr) := by
    rw [← h.behind.next h.first_lt hlt, h.last, h.data]
    simp only [Ptr.le_iff, Ptr.add_off, Nat.zero_add]
    split_ifs <;> rfl
  refine Code.Ends.noexcept (Code.Ends.step rfl ?_)
  rw [hwhere]
  refine (constructAt_ends _ val.value (h.inBounds hslot) ?_).bind ?_
  · rw [h.object _ hslot, lay_slot h.first_lt hlt, List.getElem?_eq_none le_rfl]
  · rintro _ t ⟨rfl, ht⟩
    exact .of_returns (setSelf_returns
      (.of_becomes hw ht (h.push hlt ht.extent ht.object) rfl rfl))

/-- The element at `first` is replaced, by assignment or through the fallback. -/
lemma overwriteFirst_ends (val : Arg α) (h : Holds s.mem s.self b f l q) (hw : s.mem.Wf)
    (hne : q ≠ []) : (overwriteFirst E val s.self.first).Ends s
      (fun _ s' => ∃ c, s.Becomes c (Function.update s.mem.object s.self.first (some val.value)) s')
      (fun _ => s.mem.fuse ≠ none) := by
  have hfirst := h.object_first hne
  rw [List.head?_eq_some_head hne] at hfirst
  rw [overwriteFirst]
  split_ifs
  · refine (mayThrow_calm _ s).bind (fun _ t ht => ?_)
    refine .of_returns ((assign_returns val.value (ht.wf hw) (by rw [ht.object, hfirst])).mono ?_)
    intro _ s' hs'
    rw [ht.object] at hs'
    exact ⟨_, ht.trans hs'⟩
  · refine Code.Ends.bind (Q := fun _ t => s.Becomes 0
      (Function.update s.mem.object s.self.first none) t) (.of_returns
        ((destroy_returns hw hfirst).bind (fun _ t ht => Code.Returns.pure ht))) (fun _ t ht => ?_)
    refine ((constructAt_ends (val.constructThrows E) val.value ?_ ?_).mono
      (fun _ _ hs' => hs') (fun _ hfuse hcalm => hfuse (calm_of_spent ht.spent hcalm))).bind ?_
    · rw [ht.inBounds, h.first]
      exact h.inBounds h.first_lt
    · rw [ht.object, Function.update_self]
    · rintro _ s' ⟨-, hs'⟩
      rw [ht.object, Function.update_idem] at hs'
      exact Code.Ends.pure ⟨_, ht.trans hs'⟩

lemma emplaceBackOverwrite_ends (val : Arg α) (h : Holds s.mem s.self b f l q) (hw : s.mem.Wf)
    (hfull : q.length = s.self.capacity) : (emplaceBackOverwrite E val).Ends s
      (fun _ s' => Serves s (q.drop 1 ++ [val.value]) s') (fun _ => s.mem.fuse ≠ none) := by
  have hne : q ≠ [] := fun hq => h.capacity_pos (by rw [← hfull, hq]; rfl)
  refine Code.Ends.noexcept (Code.Ends.step rfl ?_)
  rw [if_neg (fun hs => hs (h.size.trans hfull))]
  refine (overwriteFirst_ends val h hw hne).bind ?_
  rintro _ t ⟨c, ht⟩
  have hf := h.first_lt
  have hslot := slot_eq hf (show 1 ≤ s.self.capacity by omega)
  have hwrap : (if s.self.first + 1 = s.self.data + s.self.capacity then s.self.data
      else s.self.first + 1) = ⟨some b, slot s.self.capacity f 1⟩ := by
    rw [h.first, h.data, Ptr.mk_add, Ptr.mk_add, Nat.zero_add, hslot]
    by_cases hend : f + 1 = s.self.capacity
    · rw [if_pos (by rw [hend]), if_neg (by omega), hend, Nat.sub_self]
    · rw [if_neg (by simpa using hend), if_pos (by omega)]
  refine .of_returns (setSelf_returns (.of_becomes hw ht
    ⟨b, slot s.self.capacity f 1, f + 1, ?_⟩ rfl rfl))
  rw [hwrap, h.first, Ptr.mk_add]
  exact h.overwrite hfull ht.extent (by rw [ht.object, h.first])

lemma tryPopFront_first (h : Holds s.mem s.self b f l q) (hw : s.mem.Wf) (hq : q ≠ []) :
    (tryPopFront E).Ends s
      (fun r s' => r = q.head? ∧ ServesAt s b (slot s.self.capacity f 1) (q.drop 1) s')
      (fun _ => s.mem.fuse ≠ none) := by
  have hsize := h.size
  have hpos : 1 ≤ q.length := List.length_pos_of_ne_nil hq
  refine Code.Ends.step rfl ?_
  rw [if_neg (by omega)]
  have hfirst := h.object_first hq
  rw [List.head?_eq_some_head hq] at hfirst ⊢
  refine Code.Ends.step (read_run hw hfirst) ((mayThrow_calm _ s).bind (fun _ t ht => ?_))
  refine Code.Ends.bind (.of_returns (assign_returns (E.movedFrom (q.head hq)) (ht.wf hw)
    (by rw [ht.object, hfirst]))) (fun _ u hu => ?_)
  have hsu := ht.trans hu
  refine Code.Ends.bind (Q := fun _ t' => s.Becomes E.moveThrows.toNat
      (Function.update s.mem.object s.self.first none) t') (.of_returns
      ((destroy_returns (hsu.wf hw) (by rw [hu.object, Function.update_self])).bind
        (fun _ t' ht' => Code.Returns.pure ?_))) (fun _ t' ht' => ?_)
  · rw [hu.object, Function.update_idem, ht.object] at ht'
    exact hsu.trans ht'
  have hemp : Empties s E.moveThrows.toNat b (fun j => place s.self.capacity f j < 1) t' := by
    refine Empties.congr (P := fun j => j = f) ⟨?_, fun j hj => ?_, fun j hj => ?_⟩ (fun j hj => ?_)
    · rwa [ht'.object]
    · rw [ht'.object, hj, h.first, Function.update_self]
    · rw [ht'.object, h.first, Function.update_of_ne (by simpa using hj)]
    · have hjn := h.lt_capacity hw hj
      have hf := h.first_lt
      rw [place]
      split_ifs <;> omega
  refine Code.Ends.step (append_run h ht'.self 1) (Code.Ends.step rfl ?_)
  have hserves : ServesAt s b _ (q.drop 1) _ := .of_becomes hw ht' (h.drop hpos hemp) rfl rfl
  refine ((mayThrow_calm _ _).mono (fun _ _ hs' => hs')
    (fun _ hfuse hcalm => hfuse (hserves.calm hcalm))).bind (fun _ s' hs' => ?_)
  exact Code.Ends.pure ⟨rfl, hserves.later hs'⟩

lemma tryPopFront_ends (h : Holds s.mem s.self b f l q) (hw : s.mem.Wf) :
    (tryPopFront E).Ends s (fun r s' => r = q.head? ∧ Serves s (q.drop 1) s')
      (fun _ => s.mem.fuse ≠ none) := by
  by_cases hq : q = []
  · subst hq
    refine Code.Ends.step rfl ?_
    rw [if_pos (show s.self.size = 0 from h.size)]
    exact Code.Ends.pure ⟨rfl, serves_refl h hw⟩
  · exact (tryPopFront_first h hw hq).mono (fun _ _ hs' => ⟨hs'.1, hs'.2.toServes⟩) (fun _ hs' => hs')

lemma peekFront_run (h : Holds s.mem s.self b f l q) :
    peekFront s = .returned (if q = [] then Ptr.null else s.self.first) s := by
  rw [peekFront, Code.bind_returned (show self s = .returned s.self s from rfl), h.size]
  by_cases hq : q = []
  · rw [if_pos hq, if_pos (by rw [hq]; rfl), Code.pure_run]
  · rw [if_neg hq, if_neg (fun hz => hq (List.length_eq_zero_iff.mp hz)), Code.pure_run]

lemma index_run (h : Holds s.mem s.self b f l q) (i : ℕ) :
    index i s = .returned ⟨some b, slot s.self.capacity f i⟩ s := by
  rw [index, Code.bind_returned (show self s = .returned s.self s from rfl), append_run h rfl]

lemma clear_returns (h : Holds s.mem s.self b f l q) (hw : s.mem.Wf) :
    clear.Returns s (fun _ s' => Serves s [] s') := by
  refine Code.Returns.step rfl ((destroyRange_empties h hw).bind (fun _ t ht => ?_))
  exact setSelf_returns (.of_becomes hw ht.becomes ⟨b, 0, 0, h.reset ht⟩ rfl rfl)

lemma commitRead_returns {n : ℕ} (h : Holds s.mem s.self b f l q) (hw : s.mem.Wf)
    (hn : n ≤ q.length) : (commitRead n).Returns s
      (fun _ s' => ServesAt s b (slot s.self.capacity f n) (q.drop n) s') := by
  refine Code.Returns.step rfl ((destroyN_empties h hw hn).bind (fun _ t ht => ?_))
  refine Code.Returns.step (append_run h ht.becomes.self n) ?_
  exact setSelf_returns (.of_becomes hw ht.becomes (h.drop hn ht) rfl rfl)

end RingBuffer

end Voxory
