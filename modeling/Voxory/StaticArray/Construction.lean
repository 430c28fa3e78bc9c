import Voxory.StaticArray.Model

/-!
# Constructing static arrays

A constructor finds raw inline storage and a source of another capacity. What it leaves is one
list of `N` elements: as many as fit from the source, then default-constructed ones.
-/

namespace Voxory
open Cxx

namespace StaticArray

variable {α : Type} {s s' t : State α StaticArray} {T : StoredType α} {N : ℕ} {us vs : List α}
  {o : StaticArrayBase}

/-- The array `a` is alive, points to its own storage and its elements are `vs`. -/
structure Holds (N : ℕ) (m : Memory α) (a : StaticArray) (vs : List α) : Prop where
  own : a.first = a.storage
  last : a.last = a.storage + N
  block : ∃ b, a.storage = ⟨some b, 0⟩ ∧ m.extent b = some N
  length : vs.length = N
  object : ∀ i, i < N → m.object (a.storage + i) = vs[i]?

/-- Inline storage for `N` elements with no element in it. -/
structure Raw (N : ℕ) (m : Memory α) (storage : Ptr) : Prop where
  block : ∃ b, storage = ⟨some b, 0⟩ ∧ m.extent b = some N
  object : ∀ i : ℕ, m.object (storage + i) = none

/-- A base object of another array than the one at `storage`, with the elements `us` and not a
slot more. -/
structure Source (m : Memory α) (storage : Ptr) (o : StaticArrayBase) (us : List α) : Prop where
  capacity : o.capacity = us.length
  block : ∃ c, o.data = ⟨some c, 0⟩ ∧ m.extent c = some us.length
  object : ∀ i, i < us.length → m.object (o.data + i) = us[i]?
  apart : o.data.block ≠ storage.block

/-- As many of `us` as fit into `N` slots, and `init` in the others. -/
def adopted (N : ℕ) (us : List α) (init : α) : List α :=
  us.take N ++ List.replicate (N - us.length) init

lemma adopted_length (N : ℕ) (us : List α) (init : α) : (adopted N us init).length = N := by
  rw [adopted, List.length_append, List.length_take, List.length_replicate]
  omega

lemma adopted_taken {init : α} {i : ℕ} (hi : i < N) (hu : i < us.length) :
    (adopted N us init)[i]? = us[i]? := by
  rw [adopted, List.getElem?_append_left (by rw [List.length_take]; omega),
    List.getElem?_take_of_lt hi]

lemma adopted_rest {init : α} {i : ℕ} (hi : i < N) (hu : us.length ≤ i) :
    (adopted N us init)[i]? = some init := by
  rw [adopted, List.getElem?_append_right (by rw [List.length_take]; omega),
    List.getElem?_replicate_of_lt (by rw [List.length_take]; omega)]

lemma adopted_self {init : α} (h : us.length = N) : adopted N us init = us := by
  rw [adopted, ← h, List.take_length, Nat.sub_self, List.replicate_zero, List.append_nil]

/-! ### Memories -/

/-- Between the memories `m` and `m'` the blocks stayed, the objects became `f` and every lifetime
is in order; `m'` has an exception to come only if `m` has. -/
structure Leaves (m : Memory α) (f : Ptr → Option α) (m' : Memory α) : Prop where
  object : m'.object = f
  extent : m'.extent = m.extent
  wf : m'.Wf
  tidy : m.Tidy → m'.Tidy
  fuse : m'.fuse ≠ none → m.fuse ≠ none

lemma Leaves.refl {m : Memory α} (hw : m.Wf) : Leaves m m.object m := ⟨rfl, rfl, hw, id, id⟩

lemma Leaves.trans {m m' m'' : Memory α} {f g : Ptr → Option α} (h : Leaves m f m')
    (h' : Leaves m' g m'') : Leaves m g m'' :=
  ⟨h'.object, h'.extent.trans h.extent, h'.wf, fun ht => h'.tidy (h.tidy ht),
    fun hf => h.fuse (h'.fuse hf)⟩

lemma Leaves.of_becomes {c : ℕ} {f : Ptr → Option α} (hw : s.mem.Wf) (h : s.Becomes c f s') :
    Leaves s.mem f s'.mem := by
  refine ⟨h.object, h.extent, h.wf hw, h.tidy, fun hf hs => hf ?_⟩
  rw [h.spent.2, hs]
  rfl

lemma Leaves.inBounds {m m' : Memory α} {f : Ptr → Option α} (h : Leaves m f m') (p : Ptr) :
    m'.inBounds p = m.inBounds p := by
  simp only [Memory.inBounds, h.extent]

lemma std_ends {x : Method α Unit} {q : Ptr} {c n : ℕ} {b : Bool} {f : Ptr → Option α}
    {g : ℕ → Ptr → Option α} (hw : s.mem.Wf)
    (hx : x.Ends s (fun _ s' => s.Becomes c f s')
      (fun s' => b = true ∧ ∃ k, k < n ∧ s.Breaks k (g k) s')) :
    (do x; pure q : Method α Ptr).Ends s
      (fun r s' => r = q ∧ Leaves s.mem f s'.mem ∧ s'.self = s.self)
      (fun _ => b = true ∧ s.mem.fuse ≠ none) := by
  apply Code.Ends.bind (hx.mono (fun _ _ h => h) ?_)
  · intro _ s' hs'
    exact Code.Ends.pure ⟨rfl, Leaves.of_becomes hw hs', hs'.self⟩
  · rintro s' ⟨hb, k, _, hbr⟩
    apply And.intro hb
    rw [hbr.blown]
    exact Option.some_ne_none k

lemma stdUninitializedDefaultConstructN_ends {E : Element α} {first : Ptr} {n : ℕ} (hw : s.mem.Wf)
    (hb : ∀ i, i < n → s.mem.inBounds (first + i) = true)
    (hraw : ∀ i, i < n → s.mem.object (first + i) = none) :
    (stdUninitializedDefaultConstructN E first n).Ends s
      (fun q s' => q = first + n ∧
        Leaves s.mem (overlay s.mem.object first n (fun _ => some E.init)) s'.mem ∧
        s'.self = s.self)
      (fun _ => E.defaultThrows = true ∧ s.mem.fuse ≠ none) :=
  std_ends hw (guardedDefault_ends hw hb hraw)

lemma stdUninitializedCopyN_ends {E : Element α} {first dest : Ptr} {n : ℕ} (hw : s.mem.Wf)
    (hsrc : ∀ i, i < n → (s.mem.object (first + i)).isSome)
    (hb : ∀ i, i < n → s.mem.inBounds (dest + i) = true)
    (hraw : ∀ i, i < n → s.mem.object (dest + i) = none) :
    (stdUninitializedCopyN E first n dest).Ends s
      (fun q s' => q = dest + n ∧
        Leaves s.mem (overlay s.mem.object dest n (fun i => s.mem.object (first + i))) s'.mem ∧
        s'.self = s.self)
      (fun _ => E.copyThrows = true ∧ s.mem.fuse ≠ none) :=
  std_ends hw (guardedCopy_ends hw hsrc hb hraw)

lemma stdUninitializedMove_ends {E : Element α} {first dest : Ptr} {n : ℕ} (hw : s.mem.Wf)
    (hsrc : ∀ i, i < n → (s.mem.object (first + i)).isSome)
    (hb : ∀ i, i < n → s.mem.inBounds (dest + i) = true)
    (hraw : ∀ i, i < n → s.mem.object (dest + i) = none) :
    (stdUninitializedMove E first (first + n) dest).Ends s
      (fun q s' => q = dest + n ∧ Leaves s.mem (moveOverlay E s.mem.object first dest n) s'.mem ∧
        s'.self = s.self)
      (fun _ => E.moveThrows = true ∧ s.mem.fuse ≠ none) := by
  unfold stdUninitializedMove
  rw [Ptr.sub_eq, Ptr.add_off, Nat.add_sub_cancel_left]
  exact std_ends hw (guardedMove_ends hw hsrc hb hraw)

lemma Raw.inBounds {m : Memory α} {storage : Ptr} (h : Raw N m storage) {i : ℕ} (hi : i < N) :
    m.inBounds (storage + i) = true := by
  obtain ⟨b, rfl, hb⟩ := h.block
  apply Memory.inBounds_iff.mpr
  exact ⟨b, N, rfl, hb, by simpa [Ptr.mk_add] using hi⟩

lemma Holds.live {m : Memory α} {a : StaticArray} (h : Holds N m a vs) {i : ℕ} (hi : i < N) :
    (m.object (a.first + i)).isSome := by
  rw [h.own, h.object i hi, List.getElem?_eq_getElem (by rw [h.length]; exact hi)]
  rfl

lemma Source.live {m : Memory α} {storage : Ptr} (h : Source m storage o us) {i : ℕ}
    (hi : i < us.length) : (m.object (o.data + i)).isSome := by
  rw [h.object i hi, List.getElem?_eq_getElem hi]
  rfl

/-- A memory with the given blocks, whose slots hold an object or are raw. -/
def laid (blocks : List (List (Option α))) : Memory α where
  fresh := blocks.length
  extent b := blocks[b]?.map List.length
  object p := p.block.bind fun b => blocks[b]?.bind fun slots => slots[p.off]?.join
  trace := []
  fuse := none
  nullOnZero := false

lemma laid_wf (blocks : List (List (Option α))) : (laid blocks).Wf where
  fresh b hb := by
    change blocks[b]?.map List.length = none
    rw [List.getElem?_eq_none hb, Option.map_none]
  bounds p hp := by
    unfold laid at hp
    apply Memory.inBounds_iff.mpr
    cases hblock : p.block with
    | none => simp [hblock] at hp
    | some b =>
      cases hslots : blocks[b]? with
      | none => simp [hblock, hslots] at hp
      | some slots =>
        refine ⟨b, slots.length, rfl, by simp [laid, hslots], ?_⟩
        by_contra hout
        simp [hblock, hslots, List.getElem?_eq_none (Nat.le_of_not_lt hout)] at hp

/-- The array after its constructor or after an assignment. -/
structure Built (N : ℕ) (s : State α StaticArray) (vs : List α) (s' : State α StaticArray) : Prop where
  holds : Holds N s'.mem s'.self vs
  wf : s'.mem.Wf
  tidy : s.mem.Tidy → s'.mem.Tidy

/-! ### Exceptions to come -/

/-- The environment chooses the fallible operation that throws next, if any. -/
def armed (fuse : Option ℕ) (s : State α StaticArray) : State α StaticArray :=
  ⟨{ s.mem with fuse := fuse }, s.self⟩

lemma armed_wf {fuse : Option ℕ} (h : s.mem.Wf) : (armed fuse s).mem.Wf := ⟨h.fresh, h.bounds⟩

lemma Holds.armed {fuse : Option ℕ} (h : Holds N s.mem s.self vs) :
    Holds N (armed fuse s).mem (armed fuse s).self vs :=
  ⟨h.own, h.last, h.block, h.length, h.object⟩

lemma Raw.armed {fuse : Option ℕ} (h : Raw N s.mem s.self.storage) :
    Raw N (armed fuse s).mem (armed fuse s).self.storage :=
  ⟨h.block, h.object⟩

lemma Source.armed {fuse : Option ℕ} (h : Source s.mem s.self.storage o us) :
    Source (armed fuse s).mem (armed fuse s).self.storage o us :=
  ⟨h.capacity, h.block, h.object, h.apart⟩

lemma Built.disarmed {fuse : Option ℕ} (h : Built N (armed fuse s) vs t) : Built N s vs t :=
  ⟨h.holds, h.wf, fun hti => h.tidy ⟨hti.lifetimes, hti.blocks⟩⟩

/-! ### The constructors -/

/-- The last step of the constructors: the slots behind the first `n` get default-constructed
elements. -/
lemma rest_ends {n : ℕ} {f : Ptr → Option α} (hraw : Raw N s.mem s.self.storage)
    (hn : n = min us.length N) (ht : Leaves s.mem f t.mem)
    (hself : t.self = ⟨s.self.storage, s.self.storage, s.self.storage + n⟩)
    (htaken : ∀ i, i < n → f (s.self.storage + i) = us[i]?)
    (hrest : ∀ i, n ≤ i → f (s.self.storage + i) = none) :
    (if n < N then do
      let last ← stdUninitializedDefaultConstructN T.toElement (s.self.storage + n) (N - n)
      setSelf ⟨s.self.storage, s.self.storage, last⟩
    else pure () : Method α Unit).Ends t (fun _ s' => Built N s (adopted N us T.init) s')
      (fun _ => T.defaultThrows = true ∧ s.mem.fuse ≠ none) := by
  obtain ⟨b, hb, hext⟩ := hraw.block
  by_cases hlt : n < N
  · rw [if_pos hlt]
    have hb' : ∀ i, i < N - n → t.mem.inBounds (s.self.storage + n + i) = true := by
      intro i hi
      rw [ht.inBounds, Ptr.add_add]
      exact hraw.inBounds (by omega)
    have hraw' : ∀ i, i < N - n → t.mem.object (s.self.storage + n + i) = none := by
      intro i _
      rw [ht.object, Ptr.add_add]
      exact hrest _ (by omega)
    have hinit := stdUninitializedDefaultConstructN_ends (E := T.toElement) ht.wf hb' hraw'
    rw [Ptr.add_add, Nat.add_sub_cancel' hlt.le] at hinit
    apply Code.Ends.bind (hinit.mono (fun _ _ h => h) (fun _ h => ⟨h.1, ht.fuse h.2⟩))
    rintro q u ⟨hq, hu, _⟩
    apply Code.Ends.of_returns
    apply setSelf_returns
    refine ⟨⟨rfl, hq, ⟨b, hb, ?_⟩, adopted_length _ _ _, fun i hi => ?_⟩, hu.wf,
      fun hti => hu.tidy (ht.tidy hti)⟩
    · change u.mem.extent b = some N
      rw [hu.extent, ht.extent, hext]
    · change u.mem.object (s.self.storage + i) = _
      rw [hu.object, ht.object]
      by_cases hin : i < n
      · rw [overlay_outside (by simp only [Ptr.add_off]; omega), htaken i hin,
          adopted_taken hi (by omega)]
      · have hinside := overlay_inside (n := N - n) (i := i - n) f (s.self.storage + n)
          (fun _ => some T.init) (by omega)
        rw [Ptr.add_add, Nat.add_sub_cancel' (by omega)] at hinside
        rw [hinside, adopted_rest hi (by omega)]
  · rw [if_neg hlt]
    apply Code.Ends.pure
    have hN : n = N := by omega
    refine ⟨⟨by rw [hself], by rw [hself, hN], ⟨b, by rw [hself, hb], ?_⟩, adopted_length _ _ _,
      fun i hi => ?_⟩, ht.wf, ht.tidy⟩
    · rw [ht.extent, hext]
    · rw [hself, ht.object, htaken i (by omega), adopted_taken hi (by omega)]

lemma take_ends {take : Method α Ptr} {n : ℕ} {f : Ptr → Option α} {b : Bool}
    (hraw : Raw N s.mem s.self.storage) (hn : n = min us.length N)
    (htake : take.Ends ⟨s.mem, { s.self with first := s.self.storage }⟩
      (fun q s' => q = s.self.storage + n ∧ Leaves s.mem f s'.mem ∧
        s'.self = { s.self with first := s.self.storage })
      (fun _ => b = true ∧ s.mem.fuse ≠ none))
    (htaken : ∀ i, i < n → f (s.self.storage + i) = us[i]?)
    (hrest : ∀ i, n ≤ i → f (s.self.storage + i) = none) :
    (do
      let last ← take
      setSelf ⟨s.self.storage, s.self.storage, last⟩
      if n < N then do
        let last ← stdUninitializedDefaultConstructN T.toElement (s.self.storage + n) (N - n)
        setSelf ⟨s.self.storage, s.self.storage, last⟩
      else pure () : Method α Unit).Ends ⟨s.mem, { s.self with first := s.self.storage }⟩
      (fun _ s' => Built N s (adopted N us T.init) s')
      (fun _ => (b || T.defaultThrows) = true ∧ s.mem.fuse ≠ none) := by
  apply Code.Ends.bind (htake.mono (fun _ _ h => h) ?_)
  · rintro q u ⟨hq, hu, _⟩
    refine Code.Ends.step (b := ()) (t := ⟨u.mem, ⟨s.self.storage, s.self.storage, q⟩⟩) rfl ?_
    have hends := rest_ends (T := T) (t := ⟨u.mem, ⟨s.self.storage, s.self.storage, q⟩⟩) hraw hn hu
      (by rw [hq]) htaken hrest
    apply hends.mono (fun _ _ h => h)
    rintro _ ⟨hthrows, hfuse⟩
    rw [hthrows, Bool.or_true]
    exact ⟨rfl, hfuse⟩
  · rintro _ ⟨hthrows, hfuse⟩
    rw [hthrows, Bool.true_or]
    exact ⟨rfl, hfuse⟩

lemma constructCopy_ends (hw : s.mem.Wf) (hraw : Raw N s.mem s.self.storage)
    (ho : Source s.mem s.self.storage o us) : (constructCopy T N o).Ends s
      (fun _ s' => Built N s (adopted N us T.init) s')
      (fun _ => (T.copyThrows || T.defaultThrows) = true ∧ s.mem.fuse ≠ none) := by
  unfold constructCopy constructRange
  apply Code.Ends.noexcept
  apply Code.Ends.noexcept
  refine Code.Ends.step (t := s) rfl (Code.Ends.step (b := ())
    (t := ⟨s.mem, { s.self with first := s.self.storage }⟩) rfl ?_)
  have hn : min o.capacity N = min us.length N := by rw [ho.capacity]
  have hcopy := stdUninitializedCopyN_ends (E := T.toElement)
    (s := ⟨s.mem, { s.self with first := s.self.storage }⟩) (n := min o.capacity N) hw
    (fun i hi => ho.live (by omega)) (fun i hi => hraw.inBounds (by omega))
    (fun i _ => hraw.object i)
  apply take_ends hraw hn hcopy
  · intro i hi
    rw [overlay_inside _ _ _ hi, ho.object i (by omega)]
  · intro i hi
    rw [overlay_outside (by simp only [Ptr.add_off]; omega)]
    exact hraw.object i

lemma constructMove_ends (hw : s.mem.Wf) (hraw : Raw N s.mem s.self.storage)
    (ho : Source s.mem s.self.storage o us) : (constructMove T N o).Ends s
      (fun _ s' => Built N s (adopted N us T.init) s')
      (fun _ => (T.moveThrows || T.defaultThrows) = true ∧ s.mem.fuse ≠ none) := by
  unfold constructMove
  apply Code.Ends.noexcept
  refine Code.Ends.step (t := s) rfl (Code.Ends.step (b := ())
    (t := ⟨s.mem, { s.self with first := s.self.storage }⟩) rfl ?_)
  have hn : min N o.capacity = min us.length N := by rw [ho.capacity, Nat.min_comm]
  have hmove := stdUninitializedMove_ends (E := T.toElement)
    (s := ⟨s.mem, { s.self with first := s.self.storage }⟩) (n := min N o.capacity) hw
    (fun i hi => ho.live (by omega)) (fun i hi => hraw.inBounds (by omega))
    (fun i _ => hraw.object i)
  have hmoved := moveOverlay_moved (E := T.toElement) (f := s.mem.object) (n := min N o.capacity)
    ho.apart
  apply take_ends hraw hn hmove
  · intro i hi
    exact (hmoved.moved i hi).trans (ho.object i (by omega))
  · intro i hi
    apply (hmoved.far (s.self.storage + i) ho.apart.symm _).trans (hraw.object i)
    simp only [Ptr.add_off]
    omega

lemma constructDefault_ends (hw : s.mem.Wf) (hraw : Raw N s.mem s.self.storage) :
    (constructDefault T N).Ends s (fun _ s' => Built N s (List.replicate N T.init) s')
      (fun _ => T.defaultThrows = true ∧ s.mem.fuse ≠ none) := by
  obtain ⟨b, hb, hext⟩ := hraw.block
  unfold constructDefault constructRange
  apply Code.Ends.noexcept
  apply Code.Ends.noexcept
  refine Code.Ends.step (t := s) rfl (Code.Ends.step (b := ())
    (t := ⟨s.mem, { s.self with first := s.self.storage }⟩) rfl ?_)
  have hinit := stdUninitializedDefaultConstructN_ends (E := T.toElement)
    (s := ⟨s.mem, { s.self with first := s.self.storage }⟩) (n := N) hw
    (fun i hi => hraw.inBounds hi) (fun i _ => hraw.object i)
  dsimp only
  rw [Nat.min_self]
  apply Code.Ends.bind hinit
  rintro q u ⟨hq, hu, _⟩
  apply Code.Ends.of_returns
  apply setSelf_returns
  refine ⟨⟨rfl, hq, ⟨b, hb, ?_⟩, List.length_replicate, fun i hi => ?_⟩, hu.wf, hu.tidy⟩
  · exact (congrFun hu.extent b).trans hext
  · apply (congrFun hu.object _).trans
    rw [overlay_inside _ _ _ hi, List.getElem?_replicate_of_lt hi]

end StaticArray

end Voxory
