import Voxory.Containers.Bounds
import Voxory.Cxx.Layout

/-!
# The construction algorithms in full

The algorithms of `containers/detail/containers_internal.h` that construct elements, with the
cursors of `construct_helper` and the bytes of the fast paths. On a range they are the algorithms
that the containers use.
-/

namespace Voxory
open Cxx

/-- An element type, with the layouts that its byte-wise paths rely on. -/
structure LaidOut (α : Type) extends Element α where
  /-- the layout of a trivially copyable type -/
  layout : Option (Layout α)
  /-- the layout of a character type or of `bool` -/
  character : Option (Character α)
  layout_isSome : layout.isSome = byteCopy
  character_isSome : character.isSome = byteFill
  /-- `T()` is zero -/
  toInt_init : ∀ c ∈ character, c.toInt init = 0

section Definitions

variable {α ρ : Type}

/-! ### Bytes -/

def loadBytes (L : Layout α) (src : Ptr) (bytes : ℕ) : Code (State α ρ) (List UInt8) := do
  let vs ← loadAll src (bytes / L.size)
  pure (vs.flatMap L.bytes)

/-- Bytes that represent no value leave no objects behind. -/
def storeBytes (L : Layout α) (dest : Ptr) (bs : List UInt8) : Code (State α ρ) Unit :=
  match L.values bs with
  | some vs => storeAll dest vs
  | none => Code.undefined .dead

/-- `std::memmove` -/
def memmoveBytes (L : Layout α) (dest src : Ptr) (bytes : ℕ) : Code (State α ρ) Unit := do
  let bs ← loadBytes L src bytes
  storeBytes L dest bs

/-- `std::memset`, which converts its second argument to `unsigned char`. -/
def memsetBytes (L : Layout α) (dest : Ptr) (c : ℤ) (bytes : ℕ) : Code (State α ρ) Unit :=
  storeBytes L dest (List.replicate bytes (UInt8.ofInt c))

/-- `is_zeroed`: the bytes of `val` are those of `T{}`. -/
def isZeroed (T : LaidOut α) (c : Character α) (val : α) : Bool := c.bytes val == c.bytes T.init

/-- `last - first`, as a `size_t`: a negative one counts more objects than there is memory. -/
def distance (first last : Ptr) : Code (State α ρ) ℕ :=
  if first ≤ last then pure (last - first) else Code.undefined .outside

/-! ### The helper -/

/-- `construct_helper`, by its cursors `first_` and `current_`. -/
structure ConstructHelper where
  first : Ptr
  current : Ptr

namespace ConstructHelper

/-- `construct_one`, where `one` runs the constructor in the slot it is given. -/
def constructOne (one : Ptr → Code (State α ρ) Unit) (c : ConstructHelper) :
    Code (State α ρ) ConstructHelper := do
  one c.current
  pure { c with current := c.current + 1 }

def release (c : ConstructHelper) : ConstructHelper := { c with first := c.current }

/-- `~construct_helper()` -/
def destructor (c : ConstructHelper) : Code (State α ρ) Unit :=
  destroyAll c.first (c.current - c.first)

end ConstructHelper

/-- `for (; it != end; ++it)` with a call of `construct_one`. A loop that is not over after `rounds`
rounds has left its range. -/
def constructUntil (one : Ptr → Ptr → Code (State α ρ) Unit) (last : Ptr) (rounds : ℕ)
    (c : ConstructHelper) (it : Ptr) : Code (State α ρ) ConstructHelper :=
  if it = last then pure c
  else
    match rounds with
    | 0 => Code.undefined .outside
    | rounds + 1 => do
      -- what leaves the loop runs the destructor of the helper
      let c ← (c.constructOne (fun p => one p it)).onThrow c.destructor
      constructUntil one last rounds c (it + 1)

/-- The generic path, up to the end of the helper's scope. -/
def elementwise (one : Ptr → Ptr → Code (State α ρ) Unit) (first last dest : Ptr) :
    Code (State α ρ) Ptr := do
  let c ← constructUntil one last (last - first) ⟨dest, dest⟩ first
  let c := c.release
  c.destructor
  pure c.current

/-! ### The algorithms -/

/-- The generic path from one range to another. -/
def transferEach (one : Ptr → Ptr → Code (State α ρ) Unit) (first last dest : Ptr) :
    Code (State α ρ) Ptr := do
  let _ ← elementwise one first last dest
  pure (dest + (last - first))

/-- The generic path on a range of its own. -/
def fillEach (one : Ptr → Code (State α ρ) Unit) (first last : Ptr) : Code (State α ρ) Ptr :=
  elementwise (fun p _ => one p) first last first

/-- The shape of `uninitialized_copy` and `uninitialized_move`. -/
def transfer (T : LaidOut α) (nothrow : Bool) (one : Ptr → Ptr → Code (State α ρ) Unit)
    (first last dest : Ptr) : Code (State α ρ) Ptr :=
  Code.noexcept nothrow <|
    match T.layout with
    | some L => do
      let count ← distance first last
      memmoveBytes L dest first (count * L.size)
      pure (dest + count)
    | none => transferEach one first last dest

/-- The shape of `uninitialized_copy_n` and `uninitialized_move_n`. -/
def transferN (T : LaidOut α) (nothrow : Bool) (one : Ptr → Ptr → Code (State α ρ) Unit)
    (first : Ptr) (count : ℕ) (dest : Ptr) : Code (State α ρ) Ptr :=
  Code.noexcept nothrow <|
    match T.layout with
    | some L => do
      memmoveBytes L dest first (count * L.size)
      pure (dest + count)
    | none => transferEach one first (first + count) dest

namespace LaidOut

def uninitializedCopy (T : LaidOut α) (first last dest : Ptr) : Code (State α ρ) Ptr :=
  transfer T T.nothrowCopy (copyConstruct T.toElement) first last dest

def uninitializedMove (T : LaidOut α) (first last dest : Ptr) : Code (State α ρ) Ptr :=
  transfer T T.nothrowMove (moveConstruct T.toElement) first last dest

def uninitializedCopyN (T : LaidOut α) (first : Ptr) (count : ℕ) (dest : Ptr) :
    Code (State α ρ) Ptr :=
  transferN T T.nothrowCopy (copyConstruct T.toElement) first count dest

def uninitializedMoveN (T : LaidOut α) (first : Ptr) (count : ℕ) (dest : Ptr) :
    Code (State α ρ) Ptr :=
  transferN T T.nothrowMove (moveConstruct T.toElement) first count dest

def uninitializedFillN (T : LaidOut α) (first : Ptr) (count : ℕ) (val : α) :
    Code (State α ρ) Ptr :=
  Code.noexcept T.nothrowFill <|
    match T.character with
    | some c => do
      (if isZeroed T c val then memsetBytes c.toLayout first 0 (count * c.size)
        else memsetBytes c.toLayout first (c.toInt val) (count * c.size))
      pure (first + count)
    | none => fillEach (fun p => valueConstruct T.toElement p val) first (first + count)

def uninitializedDefaultConstruct (T : LaidOut α) (first last : Ptr) : Code (State α ρ) Ptr :=
  Code.noexcept T.nothrowDefault <|
    match T.character with
    | some c => do
      let count ← distance first last
      memsetBytes c.toLayout first 0 (count * c.size)
      pure (first + count)
    | none => fillEach (defaultConstruct T.toElement) first last

def uninitializedDefaultConstructN (T : LaidOut α) (first : Ptr) (count : ℕ) :
    Code (State α ρ) Ptr :=
  Code.noexcept T.nothrowDefault <|
    match T.character with
    | some c => do
      memsetBytes c.toLayout first 0 (count * c.size)
      pure (first + count)
    | none => fillEach (defaultConstruct T.toElement) first (first + count)

end LaidOut

end Definitions

section Refinement

variable {α ρ : Type} {T : LaidOut α} {first dest src : Ptr} {n : ℕ}

/-! ### Bytes are objects -/

lemma memmoveBytes_eq (L : Layout α) :
    memmoveBytes L dest src (n * L.size) = (memmove dest src n : Code (State α ρ) Unit) := by
  unfold memmoveBytes memmove loadBytes
  rw [Nat.mul_div_cancel _ L.size_pos, Code.bind_assoc]
  congr 1
  funext vs
  rw [Code.pure_bind, storeBytes, L.values_flatMap]

lemma memsetBytes_eq (c : Character α) (v : α) :
    memsetBytes c.toLayout dest (c.toInt v) (n * c.size) =
      (memset dest v n : Code (State α ρ) Unit) := by
  unfold memsetBytes memset storeBytes
  rw [c.size_eq v, Nat.mul_one, c.values_replicate]

lemma eq_init_of_isZeroed {c : Character α} {val : α} (h : isZeroed T c val = true) :
    val = T.init := by
  have hbytes : c.bytes val = c.bytes T.init := beq_iff_eq.mp h
  have hvalue := c.value_bytes val
  rw [hbytes, c.value_bytes] at hvalue
  exact (Option.some.inj hvalue).symm

/-! ### The helper is a guard -/

lemma constructUntil_eq (one : Ptr → Ptr → Code (State α ρ) Unit) (i : ℕ) :
    constructUntil one (first + (i + n)) n ⟨dest, dest + i⟩ (first + i) = (do
      Code.loop (fun j => (one (dest + j) (first + j)).onThrow (destroyAll dest j)) i n
      pure ⟨dest, dest + (i + n)⟩) := by
  induction n generalizing i with
  | zero =>
    rw [constructUntil, Nat.add_zero, if_pos rfl]
    rfl
  | succ n ih =>
    have hne : first + i ≠ first + (i + (n + 1)) := by
      intro he
      have hoff := congrArg Ptr.off he
      simp at hoff
    have hcount : dest + i - dest = i := Nat.add_sub_cancel_left dest.off i
    have hrest := ih (i + 1)
    rw [show i + 1 + n = i + (n + 1) by omega] at hrest
    rw [constructUntil, if_neg hne, Code.loop, Code.bind_assoc]
    unfold ConstructHelper.constructOne ConstructHelper.destructor
    rw [Code.onThrow_bind_pure, Code.bind_assoc]
    dsimp only
    rw [hcount]
    congr 1
    funext u
    rw [Code.pure_bind]
    exact hrest

/-- The helper's destructor finds nothing to destroy after `release`. -/
lemma elementwise_eq (one : Ptr → Ptr → Code (State α ρ) Unit) :
    elementwise one first (first + n) dest = (do
      guarded dest (fun i => one (dest + i) (first + i)) n
      pure (dest + n)) := by
  have hcount : first + n - first = n := Nat.add_sub_cancel_left first.off n
  have huntil : constructUntil one (first + (0 + n)) n ⟨dest, dest + 0⟩ (first + 0) = _ :=
    constructUntil_eq one 0
  rw [Nat.zero_add] at huntil
  unfold elementwise
  rw [hcount]
  change constructUntil one (first + n) n ⟨dest, dest + 0⟩ (first + 0) >>= _ = _
  rw [huntil, Code.bind_assoc]
  congr 1
  funext u
  rw [Code.pure_bind]
  unfold ConstructHelper.destructor ConstructHelper.release
  dsimp only
  rw [Ptr.sub_eq, Nat.sub_self]
  rfl

/-! ### The algorithms -/

lemma distance_run (first : Ptr) (n : ℕ) :
    (distance first (first + n) : Code (State α ρ) ℕ) = pure n := by
  rw [distance, if_pos ((Ptr.le_iff _ _).mpr (Nat.le_add_right _ _))]
  exact congrArg pure (Nat.add_sub_cancel_left first.off n)

lemma transferEach_eq (one : Ptr → Ptr → Code (State α ρ) Unit) :
    transferEach one first (first + n) dest = (do
      guarded dest (fun i => one (dest + i) (first + i)) n
      pure (dest + n)) := by
  have hcount : first + n - first = n := Nat.add_sub_cancel_left first.off n
  rw [transferEach, elementwise_eq, hcount, Code.bind_assoc]
  rfl

lemma fillEach_eq (one : Ptr → Code (State α ρ) Unit) :
    fillEach one first (first + n) = (do
      guarded first (fun i => one (first + i)) n
      pure (first + n)) :=
  elementwise_eq _

lemma transferN_eq (nothrow : Bool) (one : Ptr → Ptr → Code (State α ρ) Unit) :
    transferN T nothrow one first n dest = Code.noexcept nothrow (do
      (if T.byteCopy then memmove dest first n
        else guarded dest (fun i => one (dest + i) (first + i)) n)
      pure (dest + n)) := by
  unfold transferN
  rw [← T.layout_isSome]
  cases T.layout with
  | none =>
    dsimp only
    rw [transferEach_eq]
    rfl
  | some L =>
    dsimp only
    rw [memmoveBytes_eq]
    rfl

lemma transfer_eq (nothrow : Bool) (one : Ptr → Ptr → Code (State α ρ) Unit) :
    transfer T nothrow one first (first + n) dest = transferN T nothrow one first n dest := by
  unfold transfer transferN
  cases T.layout with
  | none => rfl
  | some L =>
    dsimp only
    rw [distance_run, Code.pure_bind]

namespace LaidOut

lemma uninitializedCopyN_eq :
    T.uninitializedCopyN first n dest =
      (Voxory.uninitializedCopyN T.toElement first n dest : Code (State α ρ) Ptr) :=
  transferN_eq _ _

lemma uninitializedMoveN_eq :
    T.uninitializedMoveN first n dest =
      (Voxory.uninitializedMoveN T.toElement first n dest : Code (State α ρ) Ptr) :=
  transferN_eq _ _

lemma uninitializedCopy_eq :
    T.uninitializedCopy first (first + n) dest =
      (Voxory.uninitializedCopyN T.toElement first n dest : Code (State α ρ) Ptr) :=
  (transfer_eq _ _).trans uninitializedCopyN_eq

lemma uninitializedMove_eq :
    T.uninitializedMove first (first + n) dest =
      (Voxory.uninitializedMoveN T.toElement first n dest : Code (State α ρ) Ptr) :=
  (transfer_eq _ _).trans uninitializedMoveN_eq

lemma uninitializedFillN_eq (val : α) :
    T.uninitializedFillN first n val =
      (Voxory.uninitializedFillN T.toElement first n val : Code (State α ρ) Ptr) := by
  unfold LaidOut.uninitializedFillN Voxory.uninitializedFillN
  rw [← T.character_isSome]
  cases hc : T.character with
  | none =>
    dsimp only
    rw [fillEach_eq]
    rfl
  | some c =>
    dsimp only
    have hset : (if isZeroed T c val then memsetBytes c.toLayout first 0 (n * c.size)
        else memsetBytes c.toLayout first (c.toInt val) (n * c.size)) =
          (memset first val n : Code (State α ρ) Unit) := by
      split_ifs with hzero
      · rw [eq_init_of_isZeroed hzero, ← T.toInt_init c hc, memsetBytes_eq]
      · rw [memsetBytes_eq]
    rw [hset]
    rfl

lemma uninitializedDefaultConstructN_eq :
    T.uninitializedDefaultConstructN first n =
      (Voxory.uninitializedDefaultConstructN T.toElement first n : Code (State α ρ) Ptr) := by
  unfold LaidOut.uninitializedDefaultConstructN Voxory.uninitializedDefaultConstructN
  rw [← T.character_isSome]
  cases hc : T.character with
  | none =>
    dsimp only
    rw [fillEach_eq]
    rfl
  | some c =>
    dsimp only
    rw [← T.toInt_init c hc, memsetBytes_eq]
    rfl

lemma uninitializedDefaultConstruct_eq :
    T.uninitializedDefaultConstruct first (first + n) =
      (Voxory.uninitializedDefaultConstructN T.toElement first n : Code (State α ρ) Ptr) := by
  rw [← uninitializedDefaultConstructN_eq]
  unfold LaidOut.uninitializedDefaultConstruct LaidOut.uninitializedDefaultConstructN
  cases T.character with
  | none => rfl
  | some c =>
    dsimp only
    rw [distance_run, Code.pure_bind]

end LaidOut

end Refinement

end Voxory
