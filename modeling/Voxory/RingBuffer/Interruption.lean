import Voxory.RingBuffer.Capacity
import Voxory.RingBuffer.Session
import Mathlib.Data.Finset.Card

/-!
# A push that its value interrupts

Where there is room, and where the oldest element is assigned over, a push sets its fields after
the value is in its place, and an exception changes nothing. Where the oldest element is destroyed
first, or the buffer has grown first, the exception comes when the fields and the slots disagree.
-/

namespace Voxory
open Cxx

namespace RingBuffer

variable {α : Type}

/-- The elements in order, with `none` for one that is not alive. -/
def contents (m : Memory α) (r : RingBuffer) : List (Option α) :=
  (List.range r.size).map (fun i => m.object (r.place i))

/-- The live slots are those of the window from `first` on, `size` of them. -/
structure Orderly (m : Memory α) (r : RingBuffer) : Prop where
  live : ∀ j, (m.object (r.data + j)).isSome ↔ ∃ i < r.size, j = ((r.first - r.data) + i) % r.capacity
  count : {j ∈ Finset.range r.capacity | (m.object (r.data + j)).isSome}.card = r.size

/-- The next push makes the oldest element give way. -/
def Overwrites (r : RingBuffer) : Prop := r.size = r.capacity ∧ r.allowOverwrite = true

/-- The push that an exception interrupted between `s` and `s'` left a valid buffer, in which at
most the element that was to be overwritten is missing or has another value. -/
structure Keeps (s s' : State α RingBuffer) : Prop where
  orderly : Orderly s'.mem s'.self
  elements : contents s'.mem s'.self = contents s.mem s.self ∨ (Overwrites s.self ∧
    ∃ front : List (Option α), front.length ≤ 1 ∧
      contents s'.mem s'.self = front ++ (contents s.mem s.self).drop 1)

variable {E : Element α} {s s' : State α RingBuffer} {m : Memory α} {r : RingBuffer}

lemma length_contents : (contents m r).length = r.size := by
  rw [contents, List.length_map, List.length_range]

lemma Holds.orderly {b f l : ℕ} {q : List α} (h : Holds s.mem s.self b f l q) (hw : s.mem.Wf) :
    Orderly s.mem s.self := by
  have hin := h.inOrder hw
  refine ⟨hin.live, ?_⟩
  have hwindow : {j ∈ Finset.range s.self.capacity | (s.mem.object (s.self.data + j)).isSome} =
      (Finset.range s.self.size).image
        (fun i => ((s.self.first - s.self.data) + i) % s.self.capacity) := by
    ext j
    rw [Finset.mem_filter, Finset.mem_image, hin.live, Finset.mem_range]
    constructor
    · rintro ⟨-, i, hi, rfl⟩
      exact ⟨i, Finset.mem_range.mpr hi, rfl⟩
    · rintro ⟨i, hi, rfl⟩
      exact ⟨Nat.mod_lt _ (Nat.pos_of_ne_zero h.capacity_pos), i, Finset.mem_range.mp hi, rfl⟩
  rw [hwindow, Finset.card_image_of_injOn, Finset.card_range]
  intro i hi j hj hij
  have hi' : i < s.self.size := by simpa using hi
  have hj' : j < s.self.size := by simpa using hj
  have hle := hin.size_le
  have hplace := congrArg (Cyclic.place s.self.capacity (s.self.first - s.self.data)) hij
  change Cyclic.place _ _ (Cyclic.slot _ _ i) = Cyclic.place _ _ (Cyclic.slot _ _ j) at hplace
  rwa [Cyclic.place_slot hin.first_lt (by omega), Cyclic.place_slot hin.first_lt (by omega)] at hplace

lemma keeps_iff_of_same (hself : s'.self = s.self) (hobj : s'.mem.object = s.mem.object) :
    Keeps s s' ↔ Orderly s.mem s.self := by
  have horderly : Orderly s'.mem s'.self ↔ Orderly s.mem s.self := by
    rw [hself]
    constructor
    · intro h
      exact ⟨fun j => by rw [← hobj, h.live], by rw [← hobj]; exact h.count⟩
    · intro h
      exact ⟨fun j => by rw [hobj, h.live], by rw [hobj]; exact h.count⟩
  refine ⟨fun h => horderly.mp h.orderly, fun h => ⟨horderly.mpr h, Or.inl ?_⟩⟩
  rw [contents, hself, hobj, contents]

lemma Orderly.first_isSome {m' : Memory α} (h : Orderly m r) (hr : Shape m' r) (hsize : r.size ≠ 0) :
    (m.object r.first).isSome := by
  have hlive := (h.live (r.first - r.data)).mpr ⟨0, Nat.pos_of_ne_zero hsize, ?_⟩
  · cases hr with
    | nil => exact absurd rfl hsize
    | block b f l size capacity allow hext hf hl hle =>
      rwa [Ptr.mk_add, Ptr.sub_eq, Nat.sub_zero, Nat.zero_add] at hlive
  · cases hr with
    | nil => exact absurd rfl hsize
    | block b f l size capacity allow hext hf hl hle =>
      change size ≠ 0 at hsize
      change f - 0 = (f - 0 + 0) % capacity
      rw [Nat.add_zero, Nat.sub_zero, Nat.mod_eq_of_lt (by omega)]

/-! ### Where the exception comes -/

lemma constructAt_interrupted {throws : Bool} {q : Ptr} {v : α} :
    (constructAt throws q v).Within (fun _ => True) s (fun _ _ => True)
      (fun s' => s'.self = s.self ∧ s'.mem.object = s.mem.object) := by
  refine Code.Within.noexcept (Code.Within.bind (Q := fun _ _ => True) ?_ (fun _ t _ => ?_))
  · exact .of_ends ((mayThrow_ends throws s).mono (fun _ _ _ => trivial)
      (fun _ ht => ⟨ht.2.self, ht.2.object⟩))
  · refine Code.Within.bind (Q := fun _ _ => True) ?_ (fun _ _ _ => Code.Within.pure trivial)
    exact (construct_within (R := fun _ => False) v (Or.inl trivial)).mono (fun _ _ _ => trivial)
      (fun _ hf => hf.elim)

lemma emplaceBackWithUnusedCapacity_interrupted (val : Arg α) :
    (emplaceBackWithUnusedCapacity E val).Within (fun _ => True) s (fun _ _ => True)
      (fun s' => s'.self = s.self ∧ s'.mem.object = s.mem.object) := by
  refine Code.Within.noexcept (Code.Within.step rfl (Code.Within.bind (Q := fun _ _ => True) ?_ ?_))
  · split_ifs <;> exact constructAt_interrupted
  · exact fun _ _ _ => .of_ends (.of_returns (setSelf_returns trivial))

/-- An assignment that throws has not begun, a constructor comes after the destructor. -/
lemma emplaceBackOverwrite_interrupted (val : Arg α) (hfull : s.self.size = s.self.capacity) :
    (emplaceBackOverwrite E val).Within (fun _ => True) s (fun _ _ => True)
      (fun s' => s'.self = s.self ∧ if val.assignable E then s'.mem.object = s.mem.object
        else s'.mem.object s.self.first = none) := by
  refine Code.Within.noexcept (Code.Within.step rfl ?_)
  rw [if_neg (fun hne => hne hfull)]
  refine Code.Within.bind (Q := fun _ _ => True) ?_
    (fun _ _ _ => .of_ends (.of_returns (setSelf_returns trivial)))
  rw [overwriteFirst]
  split_ifs with hassign
  · refine Code.Within.bind (Q := fun _ _ => True) ?_ (fun _ _ _ => ?_)
    · exact .of_ends ((mayThrow_ends _ s).mono (fun _ _ _ => trivial)
        (fun _ ht => ⟨ht.2.self, ht.2.object⟩))
    · exact (assign_within (R := fun _ => False) _ trivial (Or.inl trivial)).mono
        (fun _ _ _ => trivial) (fun _ hf => hf.elim)
  · have hdestroy : (destroyAt s.self.first).Within (fun _ => True) s
        (fun _ t => t.self = s.self ∧ t.mem.object s.self.first = none) (fun _ => False) := by
      refine Code.Within.bind (Q := fun _ t => t.self = s.self ∧
        t.mem.object s.self.first = none) ?_ (fun _ _ ht => Code.Within.pure ht)
      rw [Code.Within, destroy]
      split_ifs
      · cases s.mem.object s.self.first with
        | none => trivial
        | some v => exact ⟨rfl, Function.update_self _ _ _⟩
      · trivial
    refine (hdestroy.mono (fun _ _ ht => ht) (fun _ hf => hf.elim)).bind ?_
    rintro _ t ⟨hself, hnone⟩
    refine Code.Within.bind (Q := fun _ _ => True) ?_ (fun _ _ _ => Code.Within.pure trivial)
    refine constructAt_interrupted.mono (fun _ _ _ => trivial) ?_
    rintro s' ⟨hself', hobj⟩
    exact ⟨hself'.trans hself, by rw [hobj, hnone]⟩

lemma pushBack_keeps_iff (val : Arg α) (hr : Shape s.mem s.self) (hw : s.mem.Wf)
    (hcap : s.self.capacity ≠ 0)
    (hgrown : s.self.size = s.self.capacity → s.self.allowOverwrite = false →
      (reallocate E (calculateGrow s.self.capacity)).Returns s (fun _ _ => True))
    (hthrow : pushBack E val s = .threw s') : Keeps s s' ↔ Orderly s.mem s.self ∧
      (s.self.size < s.self.capacity ∨
        (s.self.allowOverwrite = true ∧ val.assignable E = true)) := by
  have hle := hr.size_le
  have hrun : pushBack E val s = (if s.self.size < s.self.capacity then
      emplaceBackWithUnusedCapacity E val
    else if s.self.allowOverwrite then emplaceBackOverwrite E val
    else do
      reallocate E (calculateGrow s.self.capacity)
      emplaceBackWithUnusedCapacity E val) s := rfl
  rw [hthrow] at hrun
  by_cases hlt : s.self.size < s.self.capacity
  · rw [if_pos hlt] at hrun
    have hsame := emplaceBackWithUnusedCapacity_interrupted (E := E) (s := s) val
    rw [Code.Within, ← hrun] at hsame
    rw [keeps_iff_of_same hsame.1 hsame.2]
    exact ⟨fun h => ⟨h, Or.inl hlt⟩, And.left⟩
  have hfull : s.self.size = s.self.capacity := by omega
  rw [if_neg hlt] at hrun
  by_cases hallow : s.self.allowOverwrite = true
  · rw [if_pos hallow] at hrun
    have hover := emplaceBackOverwrite_interrupted (E := E) val hfull
    rw [Code.Within, ← hrun] at hover
    obtain ⟨hself, hobj⟩ := hover
    by_cases hassign : val.assignable E = true
    · rw [if_pos hassign] at hobj
      rw [keeps_iff_of_same hself hobj]
      exact ⟨fun h => ⟨h, Or.inr ⟨hallow, hassign⟩⟩, And.left⟩
    · rw [if_neg hassign] at hobj
      refine iff_of_false (fun h => ?_) (fun h => h.2.elim hlt (fun h => hassign h.2))
      have hsome := h.orderly.first_isSome (hself ▸ hr) (by rw [hself]; omega)
      rw [hself, hobj] at hsome
      cases hsome
  · rw [if_neg hallow] at hrun
    refine iff_of_false (fun h => ?_) (fun h => h.2.elim hlt (fun h => hallow h.1))
    obtain ⟨_, t, ht, -⟩ := hgrown hfull (by simpa using hallow)
    rw [Code.bind_returned ht] at hrun
    have hrealloc : (reallocate E (calculateGrow s.self.capacity)).Within (fun _ => True) s _ _ :=
      reallocate_within trivial hr hw (Or.inl trivial) (by
        have := calculateGrow_gt s.self.capacity
        omega)
    have hzero := (hrealloc.returned ht).2.1
    have hsame := emplaceBackWithUnusedCapacity_interrupted (E := E) (s := t) val
    rw [Code.Within, ← hrun] at hsame
    rcases h.elements with helements | ⟨⟨-, hover⟩, -⟩
    · have hlen := congrArg List.length helements
      rw [length_contents, length_contents, hsame.1] at hlen
      omega
    · exact hallow hover

end RingBuffer

namespace RingPool

variable {α : Type} {E : Element α} {p : RingPool α} {x : ℕ} {r : RingBuffer}

open Objects RingBuffer

/-- Elements whose assignment may throw. -/
def brittle : Element ℕ := { Element.plain 0 id with copyAssignThrows := true }

/-- Elements that cannot be assigned, and whose move constructor may throw. -/
def unassignable : Element ℕ :=
  { Element.plain 0 id with moveAssignable := false, moveThrows := true }

/-- A full buffer of capacity 1. -/
def singleRun : List (Option ℕ × RingAction ℕ) := [(none, .sized 0 1), (none, .pushBack 0 ⟨7, false⟩)]

def singleRing : RingBuffer := ⟨⟨some 0, 0⟩, ⟨some 0, 0⟩, ⟨some 0, 1⟩, 1, 1, true⟩

end RingPool

end Voxory
