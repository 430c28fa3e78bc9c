import Voxory.RingBuffer.Capacity
import Voxory.RingBuffer.Interruption
import Voxory.RingBuffer.Relocation

/-!
# Pushing an element of the buffer itself

The argument of `push_back(const T&)` is a reference; where it leads is read when the new element
is constructed or assigned. If it leads into the buffer, its slot has to be alive by then.
-/

namespace Voxory
open Cxx

namespace RingBuffer

variable {α : Type}

/-! ### `push_back(const T&)` with the argument in a slot -/

/-- `construct_at(p, alloc, *src)`. The object in the slot `p` ends its lifetime when the slot is
reused, before the constructor reads its argument. -/
def constructAtRef (E : Element α) (p src : Ptr) : Method α Ptr :=
  Code.noexcept (!E.copyThrows) <|
    if p = src then Code.undefined .dead
    else do
      copyConstruct E p src
      pure (p + 1)

/-- The slot in which `_emplace_back_with_unused_capacity` constructs the new element. -/
def landing (r : RingBuffer) : Ptr := if r.last + 1 ≤ r.data + r.capacity then r.last else r.data

def emplaceBackWithUnusedCapacityRef (E : Element α) (src : Ptr) : Method α Unit :=
  Code.noexcept (!E.copyThrows) <| do
    let r ← self
    let last ← (if r.last + 1 ≤ r.data + r.capacity then constructAtRef E r.last src
      else constructAtRef E r.data src)
    setSelf { r with last := last, size := r.size + 1 }

def overwriteFirstRef (E : Element α) (first src : Ptr) : Method α Unit :=
  if E.copyAssignable then assignCopyOne E first src
  else do
    let _ ← destroyAt first
    let _ ← constructAtRef E first src

def emplaceBackOverwriteRef (E : Element α) (src : Ptr) : Method α Unit :=
  Code.noexcept (if E.copyAssignable then !E.copyAssignThrows else true) <| do
    let r ← self
    if r.size ≠ r.capacity then pure ()
    else do
      overwriteFirstRef E r.first src
      setSelf { r with
        last := r.first + 1
        first := if r.first + 1 = r.data + r.capacity then r.data else r.first + 1 }

/-- `push_back(*src)` -/
def pushBackRef (E : Element α) (src : Ptr) : Method α Unit := do
  let r ← self
  if r.size < r.capacity then emplaceBackWithUnusedCapacityRef E src
  else if r.allowOverwrite then emplaceBackOverwriteRef E src
  else do
    reallocate E (calculateGrow r.capacity)
    emplaceBackWithUnusedCapacityRef E src

/-! ### Reading the argument in time -/

/-- The element before `last` is a copy of the one in the slot `src` before the push. -/
def Appends (s : State α RingBuffer) (src : Ptr) (s' : State α RingBuffer) : Prop :=
  (s.mem.object src).isSome ∧ s'.mem.object (s'.self.last - 1) = s.mem.object src

variable {E : Element α} {s s' t : State α RingBuffer} {src p : Ptr} {v : α} {i : ℕ}

lemma constructAtRef_ends (hw : s.mem.Wf) (hp : s.mem.inBounds p = true)
    (hv : s.mem.object src = some v) (hne : p ≠ src) : (constructAtRef E p src).Ends s
      (fun q s' => q = p + 1 ∧ s'.self = s.self ∧ s'.mem.object p = some v) (fun _ => True) := by
  unfold constructAtRef
  rw [if_neg hne]
  refine Code.Ends.noexcept (Code.Ends.bind (Q := fun _ s' => s'.self = s.self ∧
    s'.mem.object p = some v) (Code.Ends.step (read_run hw hv) ?_)
    (fun _ s' hs' => Code.Ends.pure ⟨rfl, hs'⟩))
  refine ((mayThrow_ends E.copyThrows s).mono (fun _ _ ht => ht) (fun _ _ => trivial)).bind ?_
  intro _ t ht
  rw [Code.Ends, Cxx.construct, if_pos (by rw [ht.inBounds, hp])]
  exact ⟨ht.self, Function.update_self _ _ _⟩

lemma read_dead (hv : s.mem.inBounds src = true → s.mem.object src = none) :
    (Cxx.read src).Within (fun _ => True) s (fun _ _ => False) (fun _ => True) := by
  rw [Code.Within, Cxx.read]
  split_ifs with hin
  · rw [hv hin]
    trivial
  · trivial

lemma constructAtRef_dead
    (hv : p = src ∨ (s.mem.inBounds src = true → s.mem.object src = none)) :
    (constructAtRef E p src).Within (fun _ => True) s (fun _ _ => False) (fun _ => True) := by
  unfold constructAtRef
  split_ifs with hp
  · exact Code.Within.noexcept (Code.Within.undefined trivial)
  · refine Code.Within.noexcept (Code.Within.bind (Q := fun _ _ => False) ?_
      (fun _ _ hf => hf.elim))
    exact (read_dead (hv.resolve_left hp)).bind (fun _ _ hf => hf.elim)

lemma emplaceBackWithUnusedCapacityRef_dead
    (hv : s.self.landing = src ∨ (s.mem.inBounds src = true → s.mem.object src = none)) :
    (emplaceBackWithUnusedCapacityRef E src).Within (fun _ => True) s (fun _ _ => False)
      (fun _ => True) := by
  refine Code.Within.noexcept (Code.Within.step rfl (Code.Within.bind (Q := fun _ _ => False) ?_
    (fun _ _ hf => hf.elim)))
  unfold landing at hv
  split_ifs at hv ⊢ <;> exact constructAtRef_dead hv

lemma landing_inBounds (hr : Shape s.mem s.self) (hlt : s.self.size < s.self.capacity) :
    s.mem.inBounds s.self.landing = true := by
  generalize s.self = r at hr hlt ⊢
  cases hr with
  | nil => exact absurd hlt (Nat.lt_irrefl 0)
  | block b f l size capacity allow hext hf hl hsize =>
    change size < capacity at hlt
    unfold landing
    split_ifs with hend
    · have hend' : l + 1 ≤ capacity := by simpa using (Ptr.le_iff _ _).mp hend
      exact Memory.inBounds_iff.mpr ⟨b, capacity, rfl, hext, hend'⟩
    · exact Memory.inBounds_iff.mpr ⟨b, capacity, rfl, hext, Nat.zero_lt_of_lt hlt⟩

lemma emplaceBackWithUnusedCapacityRef_ends (hr : Shape s.mem s.self) (hw : s.mem.Wf)
    (hlt : s.self.size < s.self.capacity) (hv : s.mem.object src = some v)
    (hne : s.self.landing ≠ src) :
    (emplaceBackWithUnusedCapacityRef E src).Ends s (fun _ s' => Appends s src s')
      (fun _ => True) := by
  have hwhere : (if s.self.last + 1 ≤ s.self.data + s.self.capacity then
      constructAtRef E s.self.last src else constructAtRef E s.self.data src : Method α Ptr) =
        constructAtRef E s.self.landing src := by
    unfold landing
    split_ifs <;> rfl
  refine Code.Ends.noexcept (Code.Ends.step rfl ?_)
  rw [hwhere]
  refine (constructAtRef_ends hw (landing_inBounds hr hlt) hv hne).bind ?_
  rintro _ t ⟨rfl, -, hobj⟩
  refine Code.Ends.of_returns (setSelf_returns ⟨by rw [hv]; rfl, ?_⟩)
  change t.mem.object (s.self.landing + 1 - 1) = s.mem.object src
  have hp1 : s.self.landing + 1 - 1 = s.self.landing := rfl
  rw [hp1, hobj, hv]

/-- The oldest element has to be alive to make way, and must not be the argument if it is destroyed
first. -/
lemma overwriteFirstRef_within {first : Ptr} : (overwriteFirstRef E first src).Within
    (fun _ => True) s (fun _ _ => (s.mem.object first).isSome ∧
      (E.copyAssignable = true ∨ src ≠ first)) (fun _ => True) := by
  rw [overwriteFirstRef]
  split_ifs with hassign
  · refine (read_within trivial (Or.inl trivial)).bind ?_
    rintro v _ rfl
    refine (Code.Within.of_ends ((mayThrow_ends E.copyAssignThrows _).mono (fun _ _ ht => ht.object)
      (fun _ _ => trivial))).bind (fun _ t ht => ?_)
    rw [Code.Within, Cxx.assign, ← ht]
    split_ifs
    · cases t.mem.object first with
      | none => trivial
      | some w => exact ⟨rfl, Or.inl hassign⟩
    · trivial
  · have hdestroy : (destroyAt first).Within (fun _ => True) s
        (fun _ t => (s.mem.object first).isSome ∧ t.mem.object first = none) (fun _ => True) := by
      refine Code.Within.bind (Q := fun _ t => (s.mem.object first).isSome ∧
        t.mem.object first = none) ?_ (fun _ _ ht => Code.Within.pure ht)
      rw [Code.Within, destroy]
      split_ifs
      · cases s.mem.object first with
        | none => trivial
        | some w => exact ⟨rfl, Function.update_self _ _ _⟩
      · trivial
    refine hdestroy.bind ?_
    rintro _ t ⟨hlive, hnone⟩
    by_cases hsrc : src = first
    · refine Code.Within.bind (Q := fun _ _ => False) ?_ (fun _ _ hf => hf.elim)
      exact constructAtRef_dead (Or.inl hsrc.symm)
    · exact (Code.Within.trivial _ _).mono (fun _ _ _ => ⟨hlive, Or.inr hsrc⟩) (fun _ _ => trivial)

lemma overwriteFirstRef_ends {first : Ptr} {w : α} (hw : s.mem.Wf)
    (hfirst : s.mem.object first = some w) (hv : s.mem.object src = some v)
    (hok : E.copyAssignable = true ∨ src ≠ first) : (overwriteFirstRef E first src).Ends s
      (fun _ s' => s'.mem.object first = some v) (fun _ => True) := by
  rw [overwriteFirstRef]
  split_ifs with hassign
  · refine Code.Ends.step (read_run hw hv) (((mayThrow_ends E.copyAssignThrows s).mono
      (fun _ _ ht => ht) (fun _ _ => trivial)).bind (fun _ t ht => ?_))
    refine .of_returns ((assign_returns v (ht.wf hw) (by rw [ht.object, hfirst])).mono ?_)
    intro _ s' hs'
    rw [hs'.object, Function.update_self]
  · have hsrc : src ≠ first := hok.resolve_left hassign
    refine Code.Ends.bind (Q := fun _ t => s.Becomes 0 (Function.update s.mem.object first none) t)
      (.of_returns ((destroy_returns hw hfirst).bind (fun _ t ht => Code.Returns.pure ht)))
      (fun _ t ht => ?_)
    refine (constructAtRef_ends (ht.wf hw) (p := first) ?_ (v := v) ?_ hsrc.symm).bind ?_
    · rw [ht.inBounds]
      exact hw.bounds first (by rw [hfirst]; rfl)
    · rw [ht.object, Function.update_of_ne hsrc, hv]
    · rintro _ s' ⟨-, -, hobj⟩
      exact Code.Ends.pure hobj

lemma emplaceBackOverwriteRef_within (hfull : s.self.size = s.self.capacity) :
    (emplaceBackOverwriteRef E src).Within (fun _ => True) s (fun _ _ =>
      (s.mem.object s.self.first).isSome ∧ (E.copyAssignable = true ∨ src ≠ s.self.first))
      (fun _ => True) := by
  refine Code.Within.noexcept (Code.Within.step rfl ?_)
  rw [if_neg (fun hne => hne hfull)]
  exact overwriteFirstRef_within.bind
    (fun _ _ ht => .of_ends (.of_returns (setSelf_returns ht)))

lemma emplaceBackOverwriteRef_ends {w : α} (hw : s.mem.Wf)
    (hfull : s.self.size = s.self.capacity) (hfirst : s.mem.object s.self.first = some w)
    (hv : s.mem.object src = some v) (hok : E.copyAssignable = true ∨ src ≠ s.self.first) :
    (emplaceBackOverwriteRef E src).Ends s (fun _ s' => Appends s src s') (fun _ => True) := by
  refine Code.Ends.noexcept (Code.Ends.step rfl ?_)
  rw [if_neg (fun hne => hne hfull)]
  refine (overwriteFirstRef_ends hw hfirst hv hok).bind (fun _ t hobj => ?_)
  refine .of_returns (setSelf_returns ⟨by rw [hv]; rfl, ?_⟩)
  change t.mem.object (s.self.first + 1 - 1) = s.mem.object src
  have hp1 : s.self.first + 1 - 1 = s.self.first := rfl
  rw [hp1, hobj, hv]

lemma constructAtRef_run (hw : s.mem.Wf) (hv : s.mem.object src = some v) (hne : p ≠ src) :
    constructAtRef E p src s = constructAt E.copyThrows p v s := by
  simp only [constructAtRef, if_neg hne, constructAt, copyConstruct, Code.noexcept, Code.bind_run,
    read_run hw hv]
  cases mayThrow E.copyThrows s <;> rfl

/-- With a live argument that the push does not disturb, the reference stands for its value. -/
lemma emplaceBackWithUnusedCapacityRef_run (hw : s.mem.Wf) (hv : s.mem.object src = some v)
    (hne : s.self.landing ≠ src) : emplaceBackWithUnusedCapacityRef E src s =
      emplaceBackWithUnusedCapacity E ⟨v, false⟩ s := by
  have hself : self s = .returned s.self s := rfl
  have hthrows : (⟨v, false⟩ : Arg α).constructThrows E = E.copyThrows := rfl
  rw [emplaceBackWithUnusedCapacityRef, emplaceBackWithUnusedCapacity, Code.noexcept,
    Code.noexcept, Code.bind_returned hself, Code.bind_returned hself, hthrows]
  unfold landing at hne
  by_cases hend : s.self.last + 1 ≤ s.self.data + s.self.capacity
  · rw [if_pos hend] at hne
    rw [if_pos hend, if_pos hend, Code.bind_run, Code.bind_run, constructAtRef_run hw hv hne]
  · rw [if_neg hend] at hne
    rw [if_neg hend, if_neg hend, Code.bind_run, Code.bind_run, constructAtRef_run hw hv hne]

/-! ### Growing -/

lemma cleanup_releases {b : ℕ} (hr : Shape s.mem s.self) (hb : s.self.data.block = some b) :
    (cleanup : Method α Unit).Within (fun _ => True) s (fun _ s' => s'.mem.extent b = none)
      (fun _ => False) := by
  refine Code.Within.step rfl ?_
  have hfirst : s.self.first ≠ Ptr.null := by
    intro hnull
    generalize s.self = r at hr hb hnull
    cases hr with
    | nil => cases hb
    | block => cases hnull
  have hdata : s.self.data ≠ Ptr.null := by
    intro hnull
    rw [hnull] at hb
    cases hb
  rw [if_pos hfirst]
  refine (destroyRange_within trivial hr).bind (fun _ t ht => Code.Within.step rfl ?_)
  rw [ht.self, if_pos hdata]
  refine Code.Within.step rfl (.of_ends (.of_returns (setSelf_returns ?_)))
  simp only [Memory.release]
  rw [if_pos hb]

lemma reallocate_releases {b n : ℕ} (hr : Shape s.mem s.self) (hw : s.mem.Wf) (hn : n ≠ 0)
    (hb : s.self.data.block = some b) : (reallocate E n).Within (fun _ => True) s
      (fun _ s' => s'.mem.extent b = none) (fun _ => True) := by
  refine ((Code.Within.of_ends (allocate_builds hw hn)).mono (fun _ _ ht => ht)
    (fun _ _ => trivial)).bind ?_
  rintro _ t ⟨c, rfl, ht, -, -⟩
  have hbc : b ≠ c := fun hbc => by
    have hlt := hr.block_lt hw hb
    have hnew := ht.new
    omega
  have hrt : Shape t.mem t.self := by
    rw [ht.self]
    refine hr.frame (fun d hd => ?_)
    rw [hb] at hd
    cases hd
    rw [ht.extent, Function.update_of_ne hbc]
  refine ((relocate_within trivial hrt ht.wf (by rw [ht.extent, Function.update_self])
    (Or.inl trivial)).mono (fun _ _ hu => hu) (fun _ _ => trivial)).bind ?_
  rintro _ u ⟨-, hu⟩
  refine ((cleanup_releases (b := b) (hrt.stays hu) (by rw [hu.self, ht.self, hb])).mono
    (fun _ _ hv => hv) (fun _ hf => hf.elim)).bind (fun _ w hw' => ?_)
  exact Code.Within.step rfl (.of_ends (.of_returns (setSelf_returns hw')))

/-! ### The three paths -/

lemma place_eq_first_iff (hr : Shape s.mem s.self) (hi : i < s.self.size) :
    s.self.place i = s.self.first ↔ i = 0 := by
  generalize s.self = r at hr hi ⊢
  cases hr with
  | nil => exact absurd hi (Nat.not_lt_zero i)
  | block b f l size capacity allow hext hf hl hle =>
    change i < size at hi
    have hf' : f < capacity := by omega
    have hslot : (f + i) % capacity = f ↔ i = 0 := by
      by_cases hwrap : f + i < capacity
      · rw [Nat.mod_eq_of_lt hwrap]
        omega
      · rw [Nat.mod_eq_sub_mod (by omega), Nat.mod_eq_of_lt (by omega)]
        omega
    rw [place, Ptr.mk_add, Ptr.sub_eq]
    simpa using hslot

lemma place_block (hr : Shape s.mem s.self) (hi : i < s.self.size) :
    ∃ b, s.self.data.block = some b := by
  generalize s.self = r at hr hi ⊢
  cases hr with
  | nil => exact absurd hi (Nat.not_lt_zero i)
  | block b => exact ⟨b, rfl⟩

/-- When the buffer grows, the old block is gone before the argument is read. -/
lemma reallocate_place_dead (hr : Shape s.mem s.self) (hw : s.mem.Wf) (hi : i < s.self.size) :
    (do reallocate E (calculateGrow s.self.capacity)
        emplaceBackWithUnusedCapacityRef E (s.self.place i)).Within (fun _ => True) s
      (fun _ _ => False) (fun _ => True) := by
  obtain ⟨b, hb⟩ := place_block hr hi
  have hgrow : calculateGrow s.self.capacity ≠ 0 := by
    have := calculateGrow_gt s.self.capacity
    omega
  refine (reallocate_releases hr hw hgrow hb).bind (fun _ t ht => ?_)
  refine emplaceBackWithUnusedCapacityRef_dead (Or.inr fun hin => ?_)
  obtain ⟨c, n, hc, hn, -⟩ := Memory.inBounds_iff.mp hin
  have hcb : some c = some b := hc.symm.trans hb
  rw [Option.some.inj hcb, ht] at hn
  cases hn

/-- A push of a live element that nothing interrupts appends that element exactly where it makes no
element give way before it has read its argument. -/
lemma pushBackRef_iff (hr : Shape s.mem s.self) (hw : s.mem.Wf) (hi : i < s.self.size)
    (hwhole : ¬(pushBackRef E (s.self.place i) s).Interrupted) :
    (pushBackRef E (s.self.place i)).Returns s (fun _ s' => Appends s (s.self.place i) s') ↔
      (s.mem.object (s.self.place i)).isSome ∧
        ((s.self.size < s.self.capacity ∧ s.self.landing ≠ s.self.place i) ∨
        (s.self.size = s.self.capacity ∧ s.self.allowOverwrite = true ∧
          (s.mem.object s.self.first).isSome ∧ (E.copyAssignable = true ∨ i ≠ 0))) := by
  have hle := hr.size_le
  have hrun : pushBackRef E (s.self.place i) s = (if s.self.size < s.self.capacity then
      emplaceBackWithUnusedCapacityRef E (s.self.place i)
    else if s.self.allowOverwrite then emplaceBackOverwriteRef E (s.self.place i)
    else do
      reallocate E (calculateGrow s.self.capacity)
      emplaceBackWithUnusedCapacityRef E (s.self.place i)) s := rfl
  rw [Code.Returns, hrun]
  rw [hrun] at hwhole
  by_cases hlt : s.self.size < s.self.capacity
  · rw [if_pos hlt] at hwhole ⊢
    constructor
    · rintro ⟨_, s', hs, hs'⟩
      refine ⟨hs'.1, Or.inl ⟨hlt, fun hland => ?_⟩⟩
      exact (emplaceBackWithUnusedCapacityRef_dead (Or.inl hland)).returned hs
    · rintro ⟨hsome, hroom⟩
      obtain ⟨v, hv⟩ := Option.isSome_iff_exists.mp hsome
      have hland := (hroom.resolve_right (fun h => by omega)).2
      exact (emplaceBackWithUnusedCapacityRef_ends hr hw hlt hv hland).returns_of_whole hwhole
  have hfull : s.self.size = s.self.capacity := by omega
  rw [if_neg hlt] at hwhole ⊢
  by_cases hallow : s.self.allowOverwrite = true
  · rw [if_pos hallow] at hwhole ⊢
    have hfirst := place_eq_first_iff hr hi
    constructor
    · rintro ⟨_, s', hs, hs'⟩
      obtain ⟨hlive, hok⟩ := (emplaceBackOverwriteRef_within hfull).returned hs
      exact ⟨hs'.1, Or.inr ⟨hfull, hallow, hlive, hok.imp_right (mt hfirst.mpr)⟩⟩
    · rintro ⟨hsome, hroom⟩
      obtain ⟨v, hv⟩ := Option.isSome_iff_exists.mp hsome
      obtain ⟨-, -, hlive, hok⟩ := hroom.resolve_left (fun h => hlt h.1)
      obtain ⟨w, hw'⟩ := Option.isSome_iff_exists.mp hlive
      exact (emplaceBackOverwriteRef_ends hw hfull hw' hv
        (hok.imp_right (mt hfirst.mp))).returns_of_whole hwhole
  · rw [if_neg hallow]
    refine iff_of_false ?_ (fun h => h.2.elim (fun h => hlt h.1) (fun h => hallow h.2.1))
    rintro ⟨_, s', hs, -⟩
    exact (reallocate_place_dead hr hw hi).returned hs

end RingBuffer

namespace RingPool

variable {α : Type} {E : Element α} {p : RingPool α} {x i : ℕ} {r : RingBuffer}

open Objects RingBuffer

/-- In every pool reached without a move from a buffer with a capacity, a push of an element of the
same buffer that nothing interrupts appends the value it had exactly if its slot is alive and either
there is room and the new element goes into another slot, or the oldest element is alive and gives
way by an assignment, or is another one. -/
theorem pushBackRef_appends_iff (h : Reachable E p) (hx : p.obj x = some r) (hi : i < r.size)
    (k : Option ℕ)
    (hwhole : ¬(pushBackRef E (r.place i) ⟨(p.arm k).mem, r⟩).Interrupted) :
    (pushBackRef E (r.place i)).Returns ⟨(p.arm k).mem, r⟩
        (fun _ s' => Appends ⟨(p.arm k).mem, r⟩ (r.place i) s') ↔
      ((p.arm k).mem.object (r.place i)).isSome ∧
        ((r.size < r.capacity ∧ r.landing ≠ r.place i) ∨
        (r.size = r.capacity ∧ r.allowOverwrite = true ∧
          ((p.arm k).mem.object r.first).isSome ∧ (E.copyAssignable = true ∨ i ≠ 0))) := by
  have hp := h.sound.arm k
  exact pushBackRef_iff (s := ⟨(p.arm k).mem, r⟩) (hp.shape x r hx) hp.wf hi
    hwhole

/-- A full buffer appends a copy of its newer element over its oldest one. -/
theorem fullRun_appends : ∃ p, Machine.run (next (Element.plain 0 id)) (start true) fullRun = some p ∧
    p.obj 0 = some (pairRing 0 2) ∧
    (pushBackRef (Element.plain 0 id) ((pairRing 0 2).place 1)).Returns
      ⟨(p.arm none).mem, pairRing 0 2⟩
      (fun _ s' => Appends ⟨(p.arm none).mem, pairRing 0 2⟩ ((pairRing 0 2).place 1) s') := by
  obtain ⟨p, hrun, hx, hlive, hfirst, hwhole⟩ : ∃ p : RingPool ℕ,
      Machine.run (next (Element.plain 0 id)) (start true) fullRun = some p ∧
      p.obj 0 = some (pairRing 0 2) ∧
      ((p.arm none).mem.object ((pairRing 0 2).place 1)).isSome = true ∧
      ((p.arm none).mem.object (pairRing 0 2).first).isSome = true ∧
      (pushBackRef (Element.plain 0 id) ((pairRing 0 2).place 1)
        ⟨(p.arm none).mem, pairRing 0 2⟩).value? = some () :=
    ⟨_, rfl, by decide, by decide, by decide, by decide +kernel⟩
  have hgood : Machine.Along (next (Element.plain 0 id)) (fun p l => l.2.Frugal p) (start true)
      fullRun := ⟨trivial, fun _ _ => ⟨trivial, fun _ _ => ⟨trivial, fun _ _ => trivial⟩⟩⟩
  exact ⟨p, hrun, hx, (pushBackRef_appends_iff ⟨true, _, hgood, hrun⟩ hx (by decide) none
    (Outcome.not_interrupted hwhole)).mpr ⟨hlive, Or.inr ⟨rfl, rfl, hfirst, Or.inl rfl⟩⟩⟩

/-- A full buffer that does not overwrite. -/
def keptRun : List (Option ℕ × RingAction ℕ) :=
  [(none, .sized 0 1), (none, .setOverwrite 0 false), (none, .pushBack 0 ⟨7, false⟩)]

def keptRing : RingBuffer := { singleRing with allowOverwrite := false }

/-- The element is destroyed and its block released before it is copied. -/
theorem growing_push_reads_released : ∃ p,
    Machine.run (next (Element.plain 0 id)) (start true) keptRun = some p ∧
    p.obj 0 = some keptRing ∧
    pushBackRef (Element.plain 0 id) (keptRing.place 0) ⟨(p.arm none).mem, keptRing⟩ =
      .fault .outside ∧
    ¬(pushBackRef (Element.plain 0 id) (keptRing.place 0)).Returns ⟨(p.arm none).mem, keptRing⟩
      (fun _ s' => Appends ⟨(p.arm none).mem, keptRing⟩ (keptRing.place 0) s') := by
  obtain ⟨p, hrun, hx, hfault⟩ : ∃ p : RingPool ℕ,
      Machine.run (next (Element.plain 0 id)) (start true) keptRun = some p ∧
      p.obj 0 = some keptRing ∧
      (pushBackRef (Element.plain 0 id) (keptRing.place 0)
        ⟨(p.arm none).mem, keptRing⟩).fault? = some .outside :=
    ⟨_, rfl, by decide, by decide +kernel⟩
  have hstop := Outcome.fault?_eq_some.mp hfault
  refine ⟨p, hrun, hx, hstop, ?_⟩
  rintro ⟨_, s', hs, -⟩
  rw [hstop] at hs
  cases hs

end RingPool

end Voxory
