import Voxory.HeapArray.Reallocation

/-!
# Exceptions in the constructors of the heap array

An element that throws while it is constructed has the elements before it destroyed, and the guard
of `_construct_range` runs `_cleanup` on an array with a block and no elements. Whether the caller
gets to see the exception is up to the `noexcept` condition of the constructor.
-/

namespace Voxory
open Cxx

namespace HeapArray

variable {α : Type} {s s' t : State α HeapArray} {E : Element α} {c n k m : ℕ}

/-- The constructors that construct elements. -/
inductive Construction (α : Type) where
  | sized (count : ℕ)
  | filled (count : ℕ) (val : α)
  | copy (o : HeapArray)

namespace Construction

def code (E : Element α) : Construction α → Method α Unit
  | .sized count => constructSized E count
  | .filled count val => constructFill E count val
  | .copy o => constructCopy E o

/-- The arguments of `_construct_range` after the first one. -/
def args : Construction α → RangeArgs α
  | .sized _ => .default
  | .filled _ val => .fill val
  | .copy o => .copy o.first o.last

/-- How many slots are allocated. -/
def capacity : Construction α → ℕ
  | .sized count | .filled count _ => count
  | .copy o => o.capacity

/-- How many elements are constructed. -/
def count : Construction α → ℕ
  | .sized count | .filled count _ => count
  | .copy o => o.size

/-- The `noexcept` condition of the constructor. -/
def declared (E : Element α) : Construction α → Bool
  | .sized _ => noexceptConstructRange E (.fill E.init)
  | .filled _ val => noexceptConstructRange E (.fill val)
  | .copy _ => true

/-- An array that is copied holds elements. -/
def Sourced (mem : Memory α) : Construction α → Prop
  | .sized _ | .filled _ _ => True
  | .copy o => ∃ vs, Holds mem o vs

/-- `heap_array(count)` lets an exception through if copying an element might throw, the copy
constructor never does. -/
def Passes (E : Element α) : Construction α → Prop
  | .sized _ => E.copyThrows = true
  | .filled _ _ => True
  | .copy _ => False

lemma code_eq (E : Element α) (call : Construction α) :
    call.code E = Code.noexcept (call.declared E) (do
      setSelf ⟨.null, .null, call.capacity⟩
      constructRange E call.capacity call.args) := by
  cases call <;> rfl

end Construction

/-- From `s` on a block of `n` slots was allocated and `k` elements were constructed in it; each was
destroyed once, the block was given back once, and nothing else happened. -/
structure RolledBack (s : State α HeapArray) (n k : ℕ) (s' : State α HeapArray) : Prop where
  undone : s.Undone ⟨s'.mem, s.self⟩
  events : ∃ q, s.Tallies (interrupted q n k) s'

variable {args : RangeArgs α}

/-! ### What cannot end the program -/

lemma cleanup_quiet : (cleanup : Method α Unit).Quiet := by
  refine Code.Quiet.bind (fun _ h => h) (fun a => ?_)
  split_ifs
  · exact (destroyAll_quiet _ _).bind (fun _ => Code.Quiet.bind (fun _ h => h) (fun _ =>
      Code.Quiet.bind (fun _ h => h) (fun _ _ h => h)))
  · exact Code.Quiet.pure ()

lemma buildRange_mild (h : noexceptConstructRange E args = false) (first : Ptr) (n : ℕ) :
    (buildRange E first n args).Mild := by
  cases args with
  | default => exact uninitializedDefaultConstructN_mild h
  | fill val => exact uninitializedFillN_mild val h
  | copy p q =>
    rw [buildRange, uninitializedCopy]
    split_ifs
    · exact uninitializedCopyN_mild h
    · intro _ hf
      cases hf

lemma constructRange_mild (h : noexceptConstructRange E args = false) (n : ℕ) :
    (constructRange E n args).Mild := by
  rw [constructRange, h]
  refine Code.Mild.noexcept ?_
  split_ifs
  · refine Code.Mild.bind ((allocate_mild n).bind (fun p => setSelf_mild _)) (fun _ => ?_)
    exact Code.Mild.onThrow (self_mild.bind (fun a => (buildRange_mild h _ n).bind
      (fun last => setSelf_mild _))) cleanup_quiet
  · exact Code.Mild.pure ()

/-! ### What is undone -/

lemma Builds.fields (h : s.Builds True c n t) (r : HeapArray) :
    ({ s with self := r } : State α HeapArray).Builds True c n { t with self := r } :=
  ⟨rfl, h.wf, h.new, h.extent, h.kept, h.events⟩

lemma cleanup_raw (hs : s.self = ⟨⟨some c, 0⟩, ⟨some c, 0⟩, n⟩) :
    cleanup s = .returned () ⟨s.mem.release ⟨some c, 0⟩ n, nil⟩ := by
  obtain ⟨mem, a⟩ := s
  subst hs
  rfl

/-- The construction step constructs `m` elements, or it throws at one of them and those before it
are destroyed. -/
def Unwinds (E : Element α) (n m : ℕ) (args : RangeArgs α) : Prop :=
  ∀ (s t : State α HeapArray) (c : ℕ), s.Builds True c n t → t.FilledTo c 0 →
    (buildRange E ⟨some c, 0⟩ n args).Within (fun _ => True) t
      (fun _ u => Spent (m * (!noexceptConstructRange E args).toNat) t.mem.fuse u.mem.fuse)
      (fun u => ∃ k, k < m ∧ Spills s True c n 0 k t u ∧
        t.Tallies (built ⟨some c, 0⟩ k + razed ⟨some c, 0⟩ k) u)

lemma unwinds_of {x : Method α Ptr} {b : Bool} {p q : Ptr}
    (hbuilds : x.Within (fun _ => True) t
      (fun r t' => r = q ∧ Fills s True c n m (m * (!b).toNat) t t')
      (fun t' => b = false ∧ ∃ k, k < m ∧ Spills s True c n 0 k t t'))
    (htallies : x.Within (fun _ => True) t (fun _ _ => True) (fun t' => ∃ k, k < m ∧
      t.mem.fuse = some k ∧ t.Tallies (built p k + razed p k) t')) :
    x.Within (fun _ => True) t (fun _ u => Spent (m * (!b).toNat) t.mem.fuse u.mem.fuse)
      (fun u => ∃ k, k < m ∧ Spills s True c n 0 k t u ∧ t.Tallies (built p k + razed p k) u) := by
  refine (hbuilds.and htallies).mono (fun _ _ hu => hu.1.2.spent) ?_
  rintro u ⟨⟨-, k, hk, hu⟩, j, -, hj, htally⟩
  have hjk : some j = some k := hj.symm.trans hu.blown
  cases hjk
  exact ⟨k, hk, hu, htally⟩

lemma default_unwinds (n : ℕ) : Unwinds E n n .default := by
  intro s t c ht hd
  have hbuilds := uninitializedDefaultConstructN_builds (E := E) (m := n) ht hd
  rw [Nat.zero_add] at hbuilds
  exact unwinds_of hbuilds uninitializedDefaultConstructN_tallies

lemma fill_unwinds (n : ℕ) (val : α) : Unwinds E n n (.fill val) := by
  intro s t c ht hd
  have hbuilds := uninitializedFillN_builds (E := E) (m := n) val ht hd
  rw [Nat.zero_add] at hbuilds
  exact unwinds_of hbuilds (uninitializedFillN_tallies val)

lemma copy_unwinds (n : ℕ) (first last : Ptr) :
    Unwinds E n (last - first) (.copy first last) := by
  intro s t c ht hd
  rw [buildRange, uninitializedCopy]
  split_ifs
  · have hbuilds : (uninitializedCopyN E first (last - first) ⟨some c, 0⟩).Within _ t _ _ :=
      uninitializedCopyN_builds ht hd
    rw [Nat.zero_add] at hbuilds
    exact unwinds_of hbuilds uninitializedCopyN_tallies
  · exact Code.Within.undefined trivial

/-- An exception out of `_construct_range`: the request failed, or an element did. -/
lemma constructRange_unwinds (hw : s.mem.Wf) (hn : n ≠ 0) (hbuild : Unwinds E n m args) :
    (constructRange E n args).Within (fun _ => True) s
      (fun _ s' => Spent (1 + m * (!noexceptConstructRange E args).toNat) s.mem.fuse s'.mem.fuse)
      (fun s' => s.mem.fuse = some 0 ∨
        ∃ k, k < m ∧ s.mem.fuse = some (k + 1) ∧ RolledBack s n k s') := by
  refine Code.Within.noexcept ?_
  rw [if_pos hn]
  refine Code.Within.bind (Q := fun _ t => ∃ c r, r = ⟨⟨some c, 0⟩, ⟨some c, 0⟩, n⟩ ∧
    ({ s with self := r } : State α HeapArray).Builds True c n t ∧ t.FilledTo c 0 ∧
    Spent 1 s.mem.fuse t.mem.fuse ∧ s.Tallies (Pi.single (.allocate ⟨some c, 0⟩ n) 1) t) ?_ ?_
  · refine (((Code.Within.of_ends (allocate_builds hw hn)).and (allocate_tallies n s)).mono
      (fun _ _ ht => ht) (fun s' hs' => Or.inl hs'.1.2)).bind ?_
    rintro _ t ⟨⟨c, rfl, ht, hd, hspent⟩, htally⟩
    exact .of_ends (.of_returns (setSelf_returns ⟨c, _, rfl, Builds.fields ht _, hd, hspent, htally⟩))
  rintro _ t ⟨c, r, hr, ht, hd, hspent, htally⟩
  refine Code.Within.onThrow (R := fun u => ∃ k, k < m ∧ Spills { s with self := r } True c n 0 k t u ∧
    t.Tallies (built ⟨some c, 0⟩ k + razed ⟨some c, 0⟩ k) u) ?_ ?_
  · refine Code.Within.step (b := t.self) rfl ?_
    rw [show t.self = ⟨⟨some c, 0⟩, ⟨some c, 0⟩, n⟩ from ht.self.trans hr]
    refine (hbuild _ t c ht hd).bind (fun _ u hu => ?_)
    exact .of_ends (.of_returns (setSelf_returns (hspent.trans hu)))
  · rintro u ⟨k, hk, hu, hevents⟩
    refine .of_ends (.of_returns ⟨(), _, cleanup_raw (hu.builds.self.trans hr), Or.inr ⟨k, hk, ?_, ?_⟩⟩)
    · rw [hspent.blown hu.blown, Nat.add_comm]
    · have hundone := hu.builds.undone hw hu.filled
      have hall := (htally.trans hevents).trans
        (deallocate_emits ⟨some c, 0⟩ n () ⟨u.mem.release ⟨some c, 0⟩ n, u.self⟩ rfl)
      exact ⟨⟨rfl, hundone.object, hundone.extent, hundone.events⟩, ⟨some c, 0⟩, hall⟩

namespace Construction

lemma unwinds (E : Element α) (call : Construction α) :
    Unwinds E call.capacity call.count call.args := by
  cases call with
  | sized count => exact default_unwinds count
  | filled count val => exact fill_unwinds count val
  | copy o => exact copy_unwinds o.capacity o.first o.last

lemma constructRange_ends (call : Construction α) (hw : s.mem.Wf) (hsource : call.Sourced s.mem) :
    (constructRange E call.capacity call.args).Ends ⟨s.mem, ⟨.null, .null, call.capacity⟩⟩
      (fun _ _ => True) (fun _ => True) := by
  cases call with
  | sized count =>
    exact (HeapArray.constructRange_ends (s := ⟨s.mem, nil⟩) hw rfl rfl (by simp)
      (fun _ => default_builds hw count)).mono (fun _ _ _ => trivial) (fun _ _ => trivial)
  | filled count val =>
    exact (HeapArray.constructRange_ends (s := ⟨s.mem, nil⟩) hw rfl rfl (by simp)
      (fun _ => fill_builds hw count val)).mono (fun _ _ _ => trivial) (fun _ _ => trivial)
  | copy o =>
    obtain ⟨vs, hvs⟩ := hsource
    refine (HeapArray.constructRange_ends (s := ⟨s.mem, nil⟩) hw rfl rfl hvs.size_le
      (fun hn => ?_)).mono (fun _ _ _ => trivial) (fun _ _ => trivial)
    cases hc : o.first.block with
    | none => exact absurd (by rw [(hvs.eq_nil hc).1]; rfl) hn
    | some c => exact copy_builds hw hvs hc

lemma capacity_pos {call : Construction α} {mem : Memory α} (hsource : call.Sourced mem)
    (hk : k < call.count) : call.capacity ≠ 0 := by
  cases call with
  | sized count => exact Nat.ne_zero_of_lt hk
  | filled count val => exact Nat.ne_zero_of_lt hk
  | copy o =>
    obtain ⟨vs, hvs⟩ := hsource
    have hsize := hvs.size_le
    rw [← hvs.size_eq] at hsize
    exact Nat.ne_zero_of_lt (Nat.lt_of_lt_of_le hk hsize)

/-- Where an element may throw, the constructor says so exactly if it lets exceptions through. -/
lemma declared_iff {call : Construction α} (hfallible : noexceptConstructRange E call.args = false) :
    call.declared E = false ↔ call.Passes E := by
  cases call with
  | sized count =>
    have hbyte : E.byteFill = false := (Bool.or_eq_false_iff.mp hfallible).1
    change E.nothrowFill = false ↔ E.copyThrows = true
    rw [Element.nothrowFill, hbyte, Bool.false_or, Bool.not_eq_false']
  | filled count val => exact iff_of_true hfallible trivial
  | copy o => exact iff_of_false (fun h => nomatch h) id

/-- The construction of the element at position `k` throws: what was constructed before is rolled
back, and the exception reaches the caller exactly if the constructor lets it through. -/
theorem rolledBack_iff (call : Construction α) (hw : s.mem.Wf) (hsource : call.Sourced s.mem)
    (hfallible : noexceptConstructRange E call.args = false) (hk : k < call.count)
    (hfuse : s.mem.fuse = some (k + 1)) :
    (∃ s', call.code E s = .threw s' ∧ RolledBack s call.capacity k s') ↔ call.Passes E := by
  have hthrows : ∃ u, constructRange E call.capacity call.args
      ⟨s.mem, ⟨.null, .null, call.capacity⟩⟩ = .threw u ∧ RolledBack s call.capacity k u := by
    have hwithin := constructRange_unwinds (s := ⟨s.mem, ⟨.null, .null, call.capacity⟩⟩) hw
      (capacity_pos hsource hk) (unwinds E call)
    -- more elements than the fuse allows
    have hnot : ∀ b u, constructRange E call.capacity call.args
        ⟨s.mem, ⟨.null, .null, call.capacity⟩⟩ ≠ .returned b u := by
      intro b u hu
      have hspent := (hwithin.returned hu).1 _ hfuse
      rw [hfallible, Bool.not_false, Bool.toNat_true, Nat.mul_one] at hspent
      omega
    obtain ⟨u, hu, -⟩ := (constructRange_mild hfallible call.capacity).throws
      (constructRange_ends call hw hsource) hnot
    rw [Code.Within, hu] at hwithin
    refine ⟨u, hu, ?_⟩
    rcases hwithin with hzero | ⟨j, -, hj, hback⟩
    · cases hfuse.symm.trans hzero
    · cases hfuse.symm.trans hj
      exact ⟨⟨rfl, hback.undone.object, hback.undone.extent, hback.undone.events⟩, hback.events⟩
  rw [← declared_iff hfallible, code_eq]
  obtain ⟨u, hu, hback⟩ := hthrows
  have hbody : (do
      setSelf ⟨.null, .null, call.capacity⟩
      constructRange E call.capacity call.args : Method α Unit) s = .threw u := hu
  rw [Code.noexcept, hbody]
  cases call.declared E with
  | false => exact iff_of_true ⟨u, rfl, hback⟩ rfl
  | true =>
    apply iff_of_false
    · rintro ⟨_, hs', _⟩
      cases hs'
    · intro h
      cases h

/-- Two elements are constructed with a value before the third throws. -/
theorem filled_rolledBack : ∃ s' : State ℕ HeapArray,
    (Construction.filled 4 7).code Pool.fragile ⟨Memory.empty (some 3) true, nil⟩ = .threw s' ∧
    RolledBack ⟨Memory.empty (some 3) true, nil⟩ 4 2 s' :=
  (rolledBack_iff (E := Pool.fragile) (s := ⟨Memory.empty (some 3) true, nil⟩) (.filled 4 7)
    (Memory.empty_wf _ _) trivial rfl (by decide) rfl).mpr trivial

/-- The second element throws in `heap_array(3)`, whose elements are copied without exceptions, and
in a copy of an array of two: both times the program ends. -/
theorem throws_end_program :
    (Construction.sized 3).code Pool.shaky ⟨Memory.empty (some 2) true, nil⟩ = .terminated ∧
    (¬∃ s', (Construction.sized 3).code Pool.shaky ⟨Memory.empty (some 2) true, nil⟩ = .threw s' ∧
      RolledBack ⟨Memory.empty (some 2) true, nil⟩ 3 1 s') ∧
    ∃ p, Machine.run (Pool.nextMixed Pool.fragile) (Objects.start true) Pool.pairOf = some p ∧
      p.obj 0 = some Pool.pair ∧
      (Construction.copy Pool.pair).code Pool.fragile ⟨(p.arm (some 2)).mem, nil⟩ = .terminated := by
  have hended : (Construction.sized 3).code Pool.shaky ⟨Memory.empty (some 2) true, nil⟩ =
      .terminated := rfl
  refine ⟨hended, ?_, _, rfl, by decide, rfl⟩
  rintro ⟨s', hs', -⟩
  rw [hended] at hs'
  cases hs'

end Construction

end HeapArray

end Voxory
