import Voxory.StaticArray.Construction

/-!
# Assigning to static arrays

Both assignment operators pass on `_capacity` elements of the source, whichever capacity the
source has. A source with fewer elements is read behind its end.
-/

namespace Voxory
open Cxx

namespace StaticArray

variable {α : Type} {s t : State α StaticArray} {T : StoredType α} {N n m : ℕ} {us vs : List α}
  {o : StaticArrayBase} {first dest : Ptr} {one : Ptr → Ptr → Method α Unit} {b c : Bool}
  {F : ℕ → Ptr → Option α}

/-! ### Assigning a range -/

/-- `one` assigns element after element from `first` on to `dest`; the objects are `F k` after
the first `k` of at least `m` elements. -/
structure Assigning (T : StoredType α) (s : State α StaticArray) (first dest : Ptr) (m : ℕ)
    (one : Ptr → Ptr → Method α Unit) (b : Bool) (F : ℕ → Ptr → Option α) : Prop where
  start : F 0 = s.mem.object
  step : ∀ k t, k < m → s.Alters (F k) t → t.mem.Wf → (one (dest + k) (first + k)).Ends t
    (fun _ t' => t.Becomes b.toNat (F (k + 1)) t') (fun t' => b = true ∧ t.Breaks 0 t.mem.object t')
  value : ∀ i, i < m → F m (dest + i) = s.mem.object (first + i)
  bytes : T.byteCopy = true →
    F m = overlay s.mem.object dest m (fun i => s.mem.object (first + i))
  outside : ∀ p q t, t.mem.inBounds q = false → one p q t = .fault .outside

lemma read_outside {p : Ptr} (h : s.mem.inBounds p = false) :
    Cxx.read p s = .fault .outside := by
  rw [Cxx.read, h]
  rfl

lemma copy_assigning (hdiff : first.block ≠ dest.block)
    (hsrc : ∀ i, i < m → (s.mem.object (first + i)).isSome)
    (hlive : ∀ i, i < m → (s.mem.object (dest + i)).isSome) :
    Assigning T s first dest m (assignCopyOne T.toElement) T.copyAssignThrows
      (fun k => overlay s.mem.object dest k (fun i => s.mem.object (first + i))) where
  start := overlay_zero _ _ _
  step k t hk ht htw := assignCopyOne_ends hdiff (hsrc k hk) (hlive k hk) ht htw
  value i hi := overlay_inside _ _ _ hi
  bytes _ := rfl
  outside p q t hq := by
    rw [assignCopyOne, Code.bind_run, read_outside hq]

lemma move_assigning (hdiff : first.block ≠ dest.block)
    (hsrc : ∀ i, i < m → (s.mem.object (first + i)).isSome)
    (hlive : ∀ i, i < m → (s.mem.object (dest + i)).isSome) :
    Assigning T s first dest m (assignMoveOne T.toElement) T.moveAssignThrows
      (fun k => moveOverlay T.toElement.assigning s.mem.object first dest k) where
  start := by simp only [moveOverlay, overlay_zero]
  step k t hk ht htw := assignMoveOne_ends hdiff (hsrc k hk) (hlive k hk) ht htw
  value i hi := (moveOverlay_moved hdiff).moved i hi
  bytes hbyte := moveOverlay_byteCopy (E := T.toElement.assigning) hbyte (.of_block hdiff)
  outside p q t hq := by
    rw [assignMoveOne, Code.bind_run, read_outside hq]

lemma assignRange_ends (h : Assigning T s first dest n one b F) (hw : s.mem.Wf)
    (hsrc : ∀ i, i < n → (s.mem.object (first + i)).isSome)
    (hlive : ∀ i, i < n → (s.mem.object (dest + i)).isSome) :
    (assignRange T c one first (first + n) dest).Ends s
      (fun q s' => q = dest + n ∧ Leaves s.mem (F n) s'.mem ∧ s'.self = s.self)
      (fun _ => b = true ∧ s.mem.fuse ≠ none) := by
  unfold assignRange
  apply Code.Ends.noexcept
  rw [Ptr.sub_eq, Ptr.add_off, Nat.add_sub_cancel_left]
  dsimp only
  apply Code.Ends.bind (Q := fun _ s' => Leaves s.mem (F n) s'.mem ∧ s'.self = s.self)
  · split_ifs with hbyte
    · apply Code.Ends.of_returns
      apply (memmove_returns hw hsrc (fun i hi => hw.bounds _ (hlive i hi))).mono
      intro _ s' hs'
      rw [← h.bytes hbyte] at hs'
      exact ⟨Leaves.of_becomes hw hs', hs'.self⟩
    · have hloop := Code.Ends.loop (s := s) (fun i => one (dest + i) (first + i)) 0 n
        (R := fun _ => b = true ∧ s.mem.fuse ≠ none)
        (fun k t => s.Becomes (k * b.toNat) (F k) t) ?_ ?_
      · rw [Nat.zero_add] at hloop
        apply hloop.mono _ (fun _ h => h)
        intro _ s' hs'
        exact ⟨Leaves.of_becomes hw hs', hs'.self⟩
      · rw [Nat.zero_mul, h.start]
        exact State.Becomes.refl s
      · intro k t _ hk ht
        apply (h.step k t (by omega) ht.toAlters (ht.wf hw)).mono
        · intro _ t' ht'
          rw [Nat.add_mul, Nat.one_mul]
          exact ht.trans ht'
        · rintro t' ⟨hb, ht'⟩
          apply And.intro hb
          rw [(ht.breaks ht').blown]
          exact Option.some_ne_none _
  · intro _ s' hs'
    exact Code.Ends.pure ⟨rfl, hs'⟩

lemma loadAll_outside {src : Ptr} (hw : s.mem.Wf)
    (hsrc : ∀ i, i < m → (s.mem.object (src + i)).isSome)
    (hout : s.mem.inBounds (src + m) = false) (hm : m < n) :
    loadAll src n s = .fault .outside := by
  induction m generalizing src n with
  | zero =>
    obtain ⟨n, rfl⟩ := Nat.exists_eq_succ_of_ne_zero (by omega : n ≠ 0)
    have hread : Cxx.read src s = .fault .outside := read_outside hout
    rw [loadAll, Code.bind_run, hread]
  | succ m ih =>
    obtain ⟨n, rfl⟩ := Nat.exists_eq_succ_of_ne_zero (by omega : n ≠ 0)
    obtain ⟨v, hv⟩ := Option.isSome_iff_exists.mp (hsrc 0 (by omega))
    have hrest : loadAll (src + 1) n s = .fault .outside := by
      apply ih _ _ (by omega)
      · intro i hi
        rw [Ptr.add_add, Nat.add_comm 1 i]
        exact hsrc (i + 1) (by omega)
      · rw [Ptr.add_add, Nat.add_comm 1 m]
        exact hout
    have hread : Cxx.read src s = .returned v s := read_run hw hv
    rw [loadAll, Code.bind_returned hread, Code.bind_run, hrest]

lemma assignRange_outside (h : Assigning T s first dest m one b F) (hw : s.mem.Wf)
    (hsrc : ∀ i, i < m → (s.mem.object (first + i)).isSome)
    (hout : s.mem.inBounds (first + m) = false) (hfuse : s.mem.fuse = none) (hm : m < n) :
    assignRange T c one first (first + n) dest s = .fault .outside := by
  have hbody : (if T.byteCopy then memmove dest first n
      else Code.loop (fun i => one (dest + i) (first + i)) 0 n : Method α Unit) s =
        .fault .outside := by
    split_ifs
    · rw [memmove, Code.bind_run, loadAll_outside hw hsrc hout hm]
    · apply Code.loop_faults _ .outside 0 m n (fun k t => s.Becomes (k * b.toNat) (F k) t) _ hm
      · intro k t _ hk ht
        have hstep := h.step k t (by omega) ht.toAlters (ht.wf hw)
        apply (hstep.returns _).mono
        · intro _ t' ht'
          rw [Nat.add_mul, Nat.one_mul]
          exact ht.trans ht'
        · rintro t' ⟨_, ht'⟩
          have hblown := (ht.breaks ht').blown
          rw [hfuse] at hblown
          cases hblown
      · intro t ht
        apply h.outside
        rw [ht.inBounds, Nat.zero_add]
        exact hout
      · rw [Nat.zero_mul, h.start]
        exact State.Becomes.refl s
  unfold assignRange
  rw [Ptr.sub_eq, Ptr.add_off, Nat.add_sub_cancel_left]
  dsimp only
  rw [Code.noexcept, Code.bind_run, hbody]

/-! ### The assignment operators -/

/-- What an assignment operator may get: the array itself, or a base of another array. -/
inductive Given (N : ℕ) (s : State α StaticArray) (o : StaticArrayBase) (us : List α) : Prop where
  | same (h : o = base N s.self) (holds : Holds N s.mem s.self us)
  | other (h : o.address ≠ s.self.storage) (source : Source s.mem s.self.storage o us)

/-- Whatever throws, `assign` leaves the first elements of `us` and default-constructed ones, with
every lifetime in order. -/
def Assigns (T : StoredType α) (N : ℕ) (us : List α) (assign : Method α Unit) (throws : Bool)
    (s : State α StaticArray) : Prop :=
  ∀ fuse, assign.Ends (armed fuse s)
    (fun _ s' => Built N s (adopted N us T.init) s') (fun _ => throws = true ∧ fuse ≠ none)

lemma Source.not_inBounds {m : Memory α} {storage : Ptr} (h : Source m storage o us) :
    m.inBounds (o.data + us.length) = false := by
  obtain ⟨c, hdata, hext⟩ := h.block
  rw [hdata, Ptr.mk_add, Memory.inBounds]
  simp only [Option.bind_some, hext]
  simp

lemma assignBase_ends {assign : Ptr → Ptr → Ptr → Method α Ptr} {f : Ptr → Option α}
    (h : Holds N s.mem s.self vs) (haddr : o.address ≠ s.self.storage)
    (ho : Source s.mem s.self.storage o us) (hN : N ≤ us.length)
    (hf : ∀ i, i < N → f (s.self.first + i) = s.mem.object (o.data + i))
    (hassign : (assign o.data (o.data + N) s.self.first).Ends s
      (fun q s' => q = s.self.first + N ∧ Leaves s.mem f s'.mem ∧ s'.self = s.self)
      (fun _ => b = true ∧ s.mem.fuse ≠ none)) :
    (assignBase T N assign o).Ends s (fun _ s' => Built N s (adopted N us T.init) s')
      (fun _ => b = true ∧ s.mem.fuse ≠ none) := by
  have hbuilt : ∀ t : State α StaticArray, Leaves s.mem f t.mem →
      t.self = { s.self with last := s.self.first + N } → Built N s (adopted N us T.init) t := by
    intro t ht hself
    refine ⟨⟨by rw [hself, h.own], by rw [hself, h.own], ?_, adopted_length _ _ _, fun i hi => ?_⟩,
      ht.wf, ht.tidy⟩
    · rw [hself, ht.extent]
      exact h.block
    · rw [hself, ht.object, adopted_taken hi (by omega), ← ho.object i (by omega), ← hf i hi, h.own]
  unfold assignBase
  refine Code.Ends.step (t := s) rfl ?_
  rw [if_neg (Ne.symm haddr)]
  split_ifs with hlt
  · apply Code.Ends.bind hassign
    rintro q t ⟨hq, ht, hself⟩
    apply Code.Ends.of_returns
    apply setSelf_returns
    exact hbuilt _ ht (by rw [hq])
  · apply Code.Ends.bind hassign
    rintro q t ⟨hq, ht, hself⟩
    have hlast : s.self.last = q := by rw [hq, h.own, h.last]
    have hdestroy : destroyRange T q s.self.last t = .returned () t := by
      rw [destroyRange, hlast]
      split_ifs with htriv hle
      · rfl
      · rw [Ptr.sub_eq, Nat.sub_self]
        rfl
      · exact absurd (Nat.le_refl q.off) hle
    apply Code.Ends.step hdestroy
    refine Code.Ends.step (t := ⟨t.mem, { s.self with last := q }⟩) rfl ?_
    have hcount : N - (q - s.self.first) = 0 := by
      rw [hq, Ptr.sub_eq, Ptr.add_off]
      omega
    rw [hcount]
    refine Code.Ends.step (b := q) (t := ⟨t.mem, { s.self with last := q }⟩) rfl ?_
    apply Code.Ends.of_returns
    apply setSelf_returns
    exact hbuilt _ ht (by rw [hq])

lemma assignBase_same {assign : Ptr → Ptr → Ptr → Method α Ptr} (h : o = base N s.self) :
    assignBase T N assign o s = .returned () s := by
  have hself : (self : Method α StaticArray) s = .returned s.self s := rfl
  unfold assignBase
  rw [Code.bind_returned hself, h, base, if_pos rfl]
  rfl

lemma assignBase_outside {assign : Ptr → Ptr → Ptr → Method α Ptr}
    (haddr : o.address ≠ s.self.storage)
    (hassign : assign o.data (o.data + N) s.self.first s = .fault .outside) :
    assignBase T N assign o s = .fault .outside := by
  have hself : (self : Method α StaticArray) s = .returned s.self s := rfl
  unfold assignBase
  rw [Code.bind_returned hself, if_neg (Ne.symm haddr)]
  split_ifs
  · rw [Code.bind_run, hassign]
  · rw [Code.bind_run, hassign]

lemma assigns_iff {throws : Bool}
    (hone : ∀ (t : State α StaticArray) first dest m, first.block ≠ dest.block →
      (∀ i, i < m → (t.mem.object (first + i)).isSome) →
      (∀ i, i < m → (t.mem.object (dest + i)).isSome) →
      ∃ F, Assigning T t first dest m one b F)
    (hb : b = true → throws = true) (hw : s.mem.Wf) (h : Holds N s.mem s.self vs)
    (ho : Given N s o us) :
    Assigns T N us (assignBase T N (assignRange T c one) o) throws s ↔ N ≤ us.length := by
  cases ho with
  | same hbase holds =>
    refine ⟨fun _ => le_of_eq holds.length.symm, fun _ fuse => ?_⟩
    have hrun : assignBase T N (assignRange T c one) o (armed fuse s) = .returned () (armed fuse s) :=
      assignBase_same hbase
    rw [Code.Ends, hrun, adopted_self holds.length]
    exact ⟨holds.armed, armed_wf hw, fun hti => ⟨hti.lifetimes, hti.blocks⟩⟩
  | other haddr source =>
    have hapart : o.data.block ≠ s.self.first.block := by
      rw [h.own]
      exact source.apart
    constructor
    · intro hall
      by_contra hlt
      obtain ⟨F, hF⟩ := hone (armed none s) o.data s.self.first us.length hapart
        (fun i hi => source.live hi) (fun i hi => h.live (by omega))
      have hfault : assignBase T N (assignRange T c one) o (armed none s) = .fault .outside :=
        assignBase_outside haddr (assignRange_outside hF (armed_wf hw)
          (fun i hi => source.live hi) source.armed.not_inBounds rfl (by omega))
      have hnone := hall none
      rwa [Code.Ends, hfault] at hnone
    · intro hN fuse
      obtain ⟨F, hF⟩ := hone (armed fuse s) o.data s.self.first N hapart
        (fun i hi => source.live (by omega)) (fun i hi => h.live hi)
      have hrange := assignRange_ends (c := c) hF (armed_wf hw)
        (fun i hi => source.live (by omega)) (fun i hi => h.live hi)
      have hends := assignBase_ends (T := T) (s := armed fuse s) h.armed haddr source.armed hN
        hF.value hrange
      apply hends.mono
      · intro _ t ht
        exact ht.disarmed
      · rintro _ ⟨hthrows, hfuse⟩
        exact ⟨hb hthrows, hfuse⟩

/-- Assignment, by copy or by move, does what it should from a source with at least `N` elements;
a shorter one is read behind its end. -/
theorem assigned_iff (hw : s.mem.Wf) (h : Holds N s.mem s.self vs) (ho : Given N s o us) :
    (Assigns T N us (assignCopy T N o) (T.copyAssignThrows || T.defaultThrows) s ↔
      N ≤ us.length) ∧
    (Assigns T N us (assignMove T N o) (T.moveAssignThrows || T.defaultThrows) s ↔
      N ≤ us.length) := by
  constructor
  · apply assigns_iff (b := T.copyAssignThrows) (fun _ _ _ _ hdiff hsrc hlive =>
      ⟨_, copy_assigning hdiff hsrc hlive⟩) _ hw h ho
    intro hthrows
    rw [hthrows, Bool.true_or]
  · apply assigns_iff (b := T.moveAssignThrows) (fun _ _ _ _ hdiff hsrc hlive =>
      ⟨_, move_assigning hdiff hsrc hlive⟩) _ hw h ho
    intro hthrows
    rw [hthrows, Bool.true_or]

/-- An array with the one element 1 beside an array with two elements. -/
def narrow : State ℕ StaticArray :=
  ⟨laid [[some 7, some 8], [some 1]], ⟨⟨some 1, 0⟩, ⟨some 1, 0⟩, ⟨some 1, 1⟩⟩⟩

lemma narrow_holds : Holds 1 narrow.mem narrow.self [1] where
  own := rfl
  last := rfl
  block := ⟨1, rfl, rfl⟩
  length := rfl
  object i hi := by
    match i with
    | 0 => rfl
    | _ + 1 => exact absurd hi (by simp)

lemma narrow_source :
    Source narrow.mem narrow.self.storage ⟨⟨some 0, 0⟩, 2, ⟨some 0, 0⟩⟩ [7, 8] where
  capacity := rfl
  block := ⟨0, rfl, rfl⟩
  object i hi := by
    match i with
    | 0 | 1 => rfl
    | _ + 2 => exact absurd hi (by simp)
  apart := by decide

theorem narrow_assigned : Assigns ⟨Element.plain 0 id, true⟩ 1 [7, 8]
    (assignCopy ⟨Element.plain 0 id, true⟩ 1 ⟨⟨some 0, 0⟩, 2, ⟨some 0, 0⟩⟩) false narrow :=
  (assigned_iff (T := ⟨Element.plain 0 id, true⟩) (laid_wf _) narrow_holds
    (.other (by decide) narrow_source)).1.mpr (by decide)

/-- Assigning an array with the one element 7 to one with two elements reads behind the 7. -/
theorem wide_not_assigned : ¬Assigns ⟨Element.plain 0 id, true⟩ 2 [7]
    (assignCopy ⟨Element.plain 0 id, true⟩ 2 ⟨⟨some 0, 0⟩, 1, ⟨some 0, 0⟩⟩) false
    ⟨laid [[some 7], [some 1, some 2]], ⟨⟨some 1, 0⟩, ⟨some 1, 0⟩, ⟨some 1, 2⟩⟩⟩ := by
  intro h
  have hrun : (assignCopy ⟨Element.plain 0 id, true⟩ 2 ⟨⟨some 0, 0⟩, 1, ⟨some 0, 0⟩⟩ (armed none
      ⟨laid [[some 7], [some 1, some 2]], ⟨⟨some 1, 0⟩, ⟨some 1, 0⟩, ⟨some 1, 2⟩⟩⟩)).fault? =
        some .outside := by decide +kernel
  have hfault := h none
  rwa [Code.Ends, Outcome.fault?_eq_some.mp hrun] at hfault

end StaticArray

end Voxory
