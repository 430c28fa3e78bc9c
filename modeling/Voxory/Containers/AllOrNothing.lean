import Voxory.Containers.ConstructHelper
import Voxory.Containers.Emission

/-!
# All or nothing

An algorithm that constructs elements in raw slots leaves all of them alive, or none if one of the
constructors throws: the helper has destroyed those before it. The byte-wise paths leave the same
objects as the loops.
-/

namespace Voxory
open Cxx

/-- The algorithms that construct elements, with what they construct them from. -/
inductive Algorithm (α : Type) where
  | copy (first : Ptr)
  | copyN (first : Ptr)
  | move (first : Ptr)
  | moveN (first : Ptr)
  | fillN (val : α)
  | defaultConstruct
  | defaultConstructN

namespace Algorithm

variable {α ρ : Type}

/-- The call that constructs `n` elements from `dest` on. -/
def code (T : LaidOut α) (n : ℕ) (dest : Ptr) : Algorithm α → Code (State α ρ) Ptr
  | .copy first => T.uninitializedCopy first (first + n) dest
  | .copyN first => T.uninitializedCopyN first n dest
  | .move first => T.uninitializedMove first (first + n) dest
  | .moveN first => T.uninitializedMoveN first n dest
  | .fillN val => T.uninitializedFillN dest n val
  | .defaultConstruct => T.uninitializedDefaultConstruct dest (dest + n)
  | .defaultConstructN => T.uninitializedDefaultConstructN dest n

/-- The element-wise path of the call, whether it is taken or not. -/
def loop (T : LaidOut α) (n : ℕ) (dest : Ptr) : Algorithm α → Code (State α ρ) Ptr
  | .copy first | .copyN first => transferEach (copyConstruct T.toElement) first (first + n) dest
  | .move first | .moveN first => transferEach (moveConstruct T.toElement) first (first + n) dest
  | .fillN val => fillEach (fun p => valueConstruct T.toElement p val) dest (dest + n)
  | .defaultConstruct | .defaultConstructN =>
    fillEach (Voxory.defaultConstruct T.toElement) dest (dest + n)

/-- The type takes the byte-wise path. -/
def bytewise (E : Element α) : Algorithm α → Bool
  | .copy _ | .copyN _ | .move _ | .moveN _ => E.byteCopy
  | .fillN _ | .defaultConstruct | .defaultConstructN => E.byteFill

/-- The constructor that the loop calls may throw. -/
def throws (E : Element α) : Algorithm α → Bool
  | .copy _ | .copyN _ | .fillN _ => E.copyThrows
  | .move _ | .moveN _ => E.moveThrows
  | .defaultConstruct | .defaultConstructN => E.defaultThrows

/-- The value that the element at position `i` has to get. -/
def value (E : Element α) (f : Ptr → Option α) (i : ℕ) : Algorithm α → Option α
  | .copy first | .copyN first | .move first | .moveN first => f (first + i)
  | .fillN val => some val
  | .defaultConstruct | .defaultConstructN => some E.init

/-- The source is a range of `n` live objects. -/
def Sourced (f : Ptr → Option α) (n : ℕ) : Algorithm α → Prop
  | .copy first | .copyN first | .move first | .moveN first => ∀ i, i < n → (f (first + i)).isSome
  | .fillN _ | .defaultConstruct | .defaultConstructN => True

/-- The construction of the element at position `k` throws in the loop. -/
def ThrowsAt (alg : Algorithm α) (E : Element α) (n : ℕ) (m : Memory α) (k : ℕ) : Prop :=
  alg.throws E = true ∧ k < n ∧ m.fuse = some k

/-- `n` raw slots from `dest` on. -/
structure Raw (m : Memory α) (dest : Ptr) (n : ℕ) : Prop where
  inBounds : ∀ i, i < n → m.inBounds (dest + i) = true
  object : ∀ i, i < n → m.object (dest + i) = none

/-- Between `s` and `s'` the `n` slots from `dest` on were filled, each by one construction. -/
structure Filled (alg : Algorithm α) (E : Element α) (s : State α ρ) (dest : Ptr) (n : ℕ)
    (s' : State α ρ) : Prop where
  live : ∀ i, i < n → ∃ v, alg.value E s.mem.object i = some v ∧ s'.mem.object (dest + i) = some v
  events : s.Tallies (built dest n) s'

/-- Between `s` and `s'` the first `k` of the `n` slots from `dest` on were filled and emptied again,
each once, and no slot is live. -/
structure Unwound (s : State α ρ) (dest : Ptr) (n k : ℕ) (s' : State α ρ) : Prop where
  raw : ∀ i, i < n → s'.mem.object (dest + i) = none
  events : s.Tallies (built dest k + razed dest k) s'

/-- What the algorithm does on the slots from `dest` on. -/
structure AllOrNothing (alg : Algorithm α) (T : LaidOut α) (n : ℕ) (dest : Ptr) (s : State α ρ) :
    Prop where
  nothing : alg.bytewise T.toElement = false → ∀ k, alg.ThrowsAt T.toElement n s.mem k →
    ∃ s', alg.code T n dest s = .threw s' ∧ Unwound s dest n k s'
  all : alg.bytewise T.toElement = true ∨ (∀ k, ¬alg.ThrowsAt T.toElement n s.mem k) →
    ∃ s', alg.code T n dest s = .returned (dest + n) s' ∧ Filled alg T.toElement s dest n s'
  agrees : alg.bytewise T.toElement = true → (∀ k, ¬alg.ThrowsAt T.toElement n s.mem k) →
    ∃ s' t, alg.code T n dest s = .returned (dest + n) s' ∧
      alg.loop T n dest s = .returned (dest + n) t ∧ s'.mem.object = t.mem.object

variable {T : LaidOut α} {s : State α ρ} {dest : Ptr} {n : ℕ} {f : Ptr → Option α}

/-- The `noexcept` condition. -/
def nothrow (alg : Algorithm α) (E : Element α) : Bool := alg.bytewise E || !alg.throws E

/-- The objects after an algorithm that returns. -/
def done (E : Element α) (f : Ptr → Option α) (n : ℕ) (dest : Ptr) : Algorithm α → Ptr → Option α
  | .copy first | .copyN first => overlay f dest n (fun i => f (first + i))
  | .move first | .moveN first => moveOverlay E f first dest n
  | .fillN val => overlay f dest n (fun _ => some val)
  | .defaultConstruct | .defaultConstructN => overlay f dest n (fun _ => some E.init)

/-- The objects after the constructor at position `k` has thrown: what was moved from stays so. -/
def undone (E : Element α) (f : Ptr → Option α) (k : ℕ) : Algorithm α → Ptr → Option α
  | .move first | .moveN first => overlay f first k (fun i => (f (first + i)).map E.movedFrom)
  | .copy _ | .copyN _ | .fillN _ | .defaultConstruct | .defaultConstructN => f

lemma done_value {alg : Algorithm α} {E : Element α} (hsource : alg.Sourced f n)
    (hraw : ∀ i, i < n → f (dest + i) = none) {i : ℕ} (hi : i < n) :
    alg.done E f n dest (dest + i) = alg.value E f i := by
  cases alg with
  | copy first | copyN first => exact overlay_inside f dest (fun i => f (first + i)) hi
  | move first | moveN first =>
    have hapart : Apart first dest n := .of_raw hsource hraw
    have hout : ∀ j, j < n → dest + i ≠ first + j := fun j hj => (hapart j i hj hi).symm
    change moveOverlay E f first dest n (dest + i) = f (first + i)
    rw [moveOverlay, overlay_of_ne hout, overlay_inside _ _ _ hi]
  | fillN val => exact overlay_inside f dest (fun _ => some val) hi
  | defaultConstruct | defaultConstructN => exact overlay_inside f dest (fun _ => some E.init) hi

lemma value_isSome {alg : Algorithm α} {E : Element α} (hsource : alg.Sourced f n) {i : ℕ}
    (hi : i < n) : (alg.value E f i).isSome := by
  cases alg with
  | copy first | copyN first | move first | moveN first => exact hsource i hi
  | fillN val | defaultConstruct | defaultConstructN => rfl

lemma undone_raw {alg : Algorithm α} {E : Element α} {k : ℕ} (hraw : ∀ i, i < n → f (dest + i) = none)
    {i : ℕ} (hi : i < n) : alg.undone E f k (dest + i) = none := by
  cases alg with
  | move first | moveN first =>
    have hlive := overlay_map_isSome f first k E.movedFrom (dest + i)
    rw [hraw i hi, Option.isSome_none, Option.isSome_eq_false_iff] at hlive
    exact Option.isNone_iff_eq_none.mp hlive
  | copy first | copyN first | fillN val | defaultConstruct | defaultConstructN => exact hraw i hi

/-! ### What every algorithm does -/

/-- The call, by the algorithms that the containers use. -/
def core (E : Element α) (n : ℕ) (dest : Ptr) : Algorithm α → Code (State α ρ) Ptr
  | .copy first | .copyN first => uninitializedCopyN E first n dest
  | .move first | .moveN first => uninitializedMoveN E first n dest
  | .fillN val => uninitializedFillN E dest n val
  | .defaultConstruct | .defaultConstructN => uninitializedDefaultConstructN E dest n

lemma code_eq (alg : Algorithm α) :
    alg.code T n dest = (alg.core T.toElement n dest : Code (State α ρ) Ptr) := by
  cases alg with
  | copy first => exact LaidOut.uninitializedCopy_eq
  | copyN first => exact LaidOut.uninitializedCopyN_eq
  | move first => exact LaidOut.uninitializedMove_eq
  | moveN first => exact LaidOut.uninitializedMoveN_eq
  | fillN val => exact LaidOut.uninitializedFillN_eq val
  | defaultConstruct => exact LaidOut.uninitializedDefaultConstruct_eq
  | defaultConstructN => exact LaidOut.uninitializedDefaultConstructN_eq

lemma code_ends (alg : Algorithm α) (hw : s.mem.Wf) (hsource : alg.Sourced s.mem.object n)
    (hraw : Raw s.mem dest n) : (alg.code T n dest).Ends s
      (fun q s' => q = dest + n ∧ s.Becomes (n * (!alg.nothrow T.toElement).toNat)
        (alg.done T.toElement s.mem.object n dest) s')
      (fun s' => alg.nothrow T.toElement = false ∧ ∃ k, k < n ∧
        s.Breaks k (alg.undone T.toElement s.mem.object k) s') := by
  rw [code_eq]
  cases alg with
  | copy first | copyN first =>
    exact uninitializedCopyN_ends hw hsource hraw.inBounds hraw.object
  | move first | moveN first =>
    exact uninitializedMoveN_ends hw hsource hraw.inBounds hraw.object
  | fillN val => exact uninitializedFillN_ends val hw hraw.inBounds hraw.object
  | defaultConstruct | defaultConstructN =>
    exact uninitializedDefaultConstructN_ends hw hraw.inBounds hraw.object

lemma code_emits (alg : Algorithm α) (hraw : Raw s.mem dest n) :
    (alg.code T n dest).Emits s (built dest n) := by
  rw [code_eq]
  cases alg with
  | copy first | copyN first => exact uninitializedCopyN_emits hraw.object
  | move first | moveN first => exact uninitializedMoveN_emits hraw.object
  | fillN val => exact uninitializedFillN_emits val hraw.object
  | defaultConstruct | defaultConstructN => exact uninitializedDefaultConstructN_emits hraw.object

lemma code_tallies (alg : Algorithm α) : (alg.code T n dest).Within (fun _ => True) s
    (fun _ _ => True) (fun s' => ∃ k, k < n ∧ s.mem.fuse = some k ∧
      s.Tallies (built dest k + razed dest k) s') := by
  rw [code_eq]
  cases alg with
  | copy first | copyN first => exact uninitializedCopyN_tallies
  | move first | moveN first => exact uninitializedMoveN_tallies
  | fillN val => exact uninitializedFillN_tallies val
  | defaultConstruct | defaultConstructN => exact uninitializedDefaultConstructN_tallies

lemma code_mild {alg : Algorithm α} (h : alg.nothrow T.toElement = false) :
    (alg.code T n dest : Code (State α ρ) Ptr).Mild := by
  rw [code_eq]
  cases alg with
  | copy first | copyN first => exact uninitializedCopyN_mild h
  | move first | moveN first => exact uninitializedMoveN_mild h
  | fillN val => exact uninitializedFillN_mild val h
  | defaultConstruct | defaultConstructN => exact uninitializedDefaultConstructN_mild h

/-! ### The loops -/

lemma pointer_ends {x : Code (State α ρ) Unit} {q : Ptr} {b : Bool} {c : ℕ} {g : Ptr → Option α}
    {F : ℕ → Ptr → Option α} (h : x.Ends s (fun _ s' => s.Becomes c g s')
      (fun s' => b = true ∧ ∃ k, k < n ∧ s.Breaks k (F k) s')) :
    (do x; pure q).Ends s (fun r s' => r = q ∧ s'.mem.object = g)
      (fun _ => b = true ∧ ∃ k, k < n ∧ s.mem.fuse = some k) := by
  refine Code.Ends.bind (h.mono (fun _ _ hs' => hs') ?_) (fun _ _ hs' => .pure ⟨rfl, hs'.object⟩)
  rintro s' ⟨hthrow, k, hk, hs'⟩
  exact ⟨hthrow, k, hk, hs'.blown⟩

lemma loop_ends (alg : Algorithm α) (hw : s.mem.Wf) (hsource : alg.Sourced s.mem.object n)
    (hraw : Raw s.mem dest n) : (alg.loop T n dest).Ends s
      (fun q s' => q = dest + n ∧ s'.mem.object = alg.done T.toElement s.mem.object n dest)
      (fun _ => ∃ k, alg.ThrowsAt T.toElement n s.mem k) := by
  have hthrows : ∀ s' : State α ρ, (alg.throws T.toElement = true ∧
      ∃ k, k < n ∧ s.mem.fuse = some k) → ∃ k, alg.ThrowsAt T.toElement n s.mem k := by
    rintro - ⟨hthrow, k, hk, hfuse⟩
    exact ⟨k, hthrow, hk, hfuse⟩
  refine Code.Ends.mono ?_ (fun _ _ hs' => hs') hthrows
  cases alg with
  | copy first | copyN first =>
    rw [loop, transferEach_eq]
    exact pointer_ends (guardedCopy_ends hw hsource hraw.inBounds hraw.object)
  | move first | moveN first =>
    rw [loop, transferEach_eq]
    exact pointer_ends (guardedMove_ends hw hsource hraw.inBounds hraw.object)
  | fillN val =>
    rw [loop, fillEach_eq]
    exact pointer_ends (guardedFill_ends val hw hraw.inBounds hraw.object)
  | defaultConstruct | defaultConstructN =>
    rw [loop, fillEach_eq]
    exact pointer_ends (guardedDefault_ends hw hraw.inBounds hraw.object)

/-! ### The result -/

lemma throwsAt_of_breaks {alg : Algorithm α} {k : ℕ} {f : Ptr → Option α} {s' : State α ρ}
    (hnothrow : alg.nothrow T.toElement = false) (hk : k < n) (hs' : s.Breaks k f s') :
    alg.bytewise T.toElement = false ∧ alg.ThrowsAt T.toElement n s.mem k := by
  obtain ⟨hbyte, hthrow⟩ := Bool.or_eq_false_iff.mp hnothrow
  exact ⟨hbyte, by simpa using hthrow, hk, hs'.blown⟩

lemma code_returns {alg : Algorithm α} (hw : s.mem.Wf) (hsource : alg.Sourced s.mem.object n)
    (hraw : Raw s.mem dest n)
    (h : alg.bytewise T.toElement = true ∨ ∀ k, ¬alg.ThrowsAt T.toElement n s.mem k) :
    (alg.code T n dest).Returns s (fun q s' => q = dest + n ∧
      s'.mem.object = alg.done T.toElement s.mem.object n dest ∧ s.Tallies (built dest n) s') := by
  refine (((code_ends alg hw hsource hraw).returns ?_).tally (code_emits alg hraw)).mono ?_
  · rintro s' ⟨hnothrow, k, hk, hs'⟩
    obtain ⟨hbyte, hthrows⟩ := throwsAt_of_breaks hnothrow hk hs'
    rcases h with h | h
    · rw [hbyte] at h
      cases h
    · exact h k hthrows
  · rintro q s' ⟨⟨hq, hs'⟩, hevents⟩
    exact ⟨hq, hs'.object, hevents⟩

/-- An exception leaves the loop at the position at which a constructor throws. -/
lemma code_throws {alg : Algorithm α} {k : ℕ} (hw : s.mem.Wf)
    (hsource : alg.Sourced s.mem.object n) (hraw : Raw s.mem dest n)
    (hbyte : alg.bytewise T.toElement = false) (h : alg.ThrowsAt T.toElement n s.mem k) :
    ∃ s', alg.code T n dest s = .threw s' ∧ Unwound s dest n k s' := by
  obtain ⟨hthrow, hk, hfuse⟩ := h
  have hnothrow : alg.nothrow T.toElement = false := by
    rw [nothrow, hbyte, hthrow]
    rfl
  have hends := code_ends (T := T) alg hw hsource hraw
  have hreturned : ∀ q s', alg.code T n dest s ≠ .returned q s' := by
    intro q s' hrun
    rw [Code.Ends, hrun, hnothrow] at hends
    -- a run that returns has survived all `n` constructions
    have hspent := hends.2.spent.1 k hfuse
    rw [Bool.not_false, Bool.toNat_true, Nat.mul_one] at hspent
    omega
  obtain ⟨s', hrun, -, j, -, hs'⟩ := (code_mild hnothrow).throws hends hreturned
  have htallies : (alg.code T n dest).Within _ s _ _ := code_tallies alg
  rw [Code.Within, hrun] at htallies
  obtain ⟨i, -, hi, hevents⟩ := htallies
  rw [hfuse] at hi
  cases hi
  refine ⟨s', hrun, fun i hi => ?_, hevents⟩
  rw [hs'.object]
  exact undone_raw hraw.object hi

/-- If the construction at position `k` throws, the elements before it are destroyed and every slot
is raw. Otherwise all slots are filled, also those that the byte-wise paths fill, which have the
objects of the loop. -/
theorem allOrNothing (alg : Algorithm α) (hw : s.mem.Wf) (hsource : alg.Sourced s.mem.object n)
    (hraw : Raw s.mem dest n) : AllOrNothing alg T n dest s where
  nothing hbyte _ h := code_throws hw hsource hraw hbyte h
  all h := by
    obtain ⟨_, s', hrun, rfl, hobject, hevents⟩ := code_returns hw hsource hraw h
    refine ⟨s', hrun, fun i hi => ?_, hevents⟩
    obtain ⟨v, hv⟩ := Option.isSome_iff_exists.mp (value_isSome (E := T.toElement) hsource hi)
    exact ⟨v, hv, by rw [hobject, done_value hsource hraw.object hi, hv]⟩
  agrees hbyte h := by
    obtain ⟨_, s', hrun, rfl, hobject, -⟩ := code_returns hw hsource hraw (Or.inl hbyte)
    have hloop := (loop_ends (T := T) alg hw hsource hraw).returns
      (fun _ hthrows => hthrows.elim h)
    obtain ⟨_, t, hrun', rfl, hobject'⟩ := hloop
    exact ⟨s', t, hrun, hrun', hobject.trans hobject'.symm⟩

/-- A block whose first half holds the objects `vs`. -/
def halfFilled (vs : List α) (fuse : Option ℕ) : State α Unit where
  mem :=
    { fresh := 1
      extent := fun b => if b = 0 then some (vs.length + vs.length) else none
      object := fun p => if p.block = some 0 then vs[p.off]? else none
      trace := []
      fuse := fuse
      nullOnZero := false }
  self := ()

lemma halfFilled_wf (vs : List α) (fuse : Option ℕ) : (halfFilled vs fuse).mem.Wf where
  fresh _ hb := if_neg (Nat.ne_of_gt hb)
  bounds p hp := by
    change (if p.block = some 0 then vs[p.off]? else none).isSome = true at hp
    split_ifs at hp with hblock
    · obtain ⟨v, hv⟩ := Option.isSome_iff_exists.mp hp
      obtain ⟨hlt, -⟩ := List.getElem?_eq_some_iff.mp hv
      exact Memory.inBounds_iff.mpr ⟨0, vs.length + vs.length, hblock, rfl, by omega⟩
    · cases hp

lemma halfFilled_sourced (vs : List α) (fuse : Option ℕ) {i : ℕ} (hi : i < vs.length) :
    ((halfFilled vs fuse).mem.object ((⟨some 0, 0⟩ : Ptr) + i)).isSome := by
  change (vs[0 + i]?).isSome = true
  rw [Nat.zero_add, List.getElem?_eq_getElem hi]
  rfl

lemma halfFilled_raw (vs : List α) (fuse : Option ℕ) :
    Raw (halfFilled vs fuse).mem ⟨some 0, vs.length⟩ vs.length where
  inBounds _ hi := Memory.inBounds_iff.mpr ⟨0, vs.length + vs.length, rfl, rfl,
    Nat.add_lt_add_left hi vs.length⟩
  object i _ := List.getElem?_eq_none (Nat.le_add_right vs.length i)

/-- A type whose copies may throw. -/
def throwing : LaidOut ℕ :=
  { Element.plain 0 id with
    copyThrows := true
    layout := none
    character := none
    layout_isSome := rfl
    character_isSome := rfl
    toInt_init := fun _ hc => by cases hc }

/-- `signed char` -/
def signedChar : LaidOut Int8 :=
  { Element.plain 0 id with
    byteCopy := true
    byteFill := true
    byteCopy_movedFrom := fun _ => rfl
    byteCopy_moveAssignedFrom := fun _ => rfl
    layout := some Character.signed.toLayout
    character := some Character.signed
    layout_isSome := rfl
    character_isSome := rfl
    toInt_init := fun c hc => by
      cases hc
      rfl }

/-- The second of two copies throws. Two negative characters are set, byte-wise as in the loop. -/
theorem copy_unwound_fill_agrees :
    (∃ s', (copy ⟨some 0, 0⟩).code throwing 2 ⟨some 0, 2⟩ (halfFilled [7, 8] (some 1)) =
      .threw s' ∧ Unwound (halfFilled [7, 8] (some 1)) ⟨some 0, 2⟩ 2 1 s') ∧
    ∃ s' t, (fillN (-1)).code signedChar 2 ⟨some 0, 2⟩ (halfFilled [7, 8] none) =
        .returned ⟨some 0, 4⟩ s' ∧
      (fillN (-1)).loop signedChar 2 ⟨some 0, 2⟩ (halfFilled [7, 8] none) =
        .returned ⟨some 0, 4⟩ t ∧ s'.mem.object = t.mem.object := by
  refine ⟨?_, ?_⟩
  · exact (allOrNothing (copy ⟨some 0, 0⟩) (halfFilled_wf _ _)
      (fun _ hi => halfFilled_sourced [7, 8] _ hi) (halfFilled_raw [7, 8] _)).nothing rfl 1
      ⟨rfl, by decide, rfl⟩
  · refine (allOrNothing (fillN (-1)) (halfFilled_wf _ _) trivial
      (halfFilled_raw [7, 8] none)).agrees rfl ?_
    rintro k ⟨hthrow, -⟩
    cases hthrow

end Algorithm

end Voxory
