import Voxory.HeapArray.Model

/-!
# The static array

The member functions of `containers/impl/static_array.h`. An object is its inline storage, a
block of `N` slots that has raw slots before the constructor runs, and a pair of pointers. Any
`static_array_base` is seen through what its two virtual functions answer and through its
address, for which the address of the inline storage stands.
-/

namespace Voxory
open Cxx

/-- `_data`, by its address, and `_pair` of a `static_array<T, N>`. -/
structure StaticArray where
  storage : Ptr
  first : Ptr
  last : Ptr
  deriving DecidableEq, Repr

/-- A `static_array_base<T>`: its address, `capacity()` and `data()`. -/
structure StaticArrayBase where
  address : Ptr
  capacity : ℕ
  data : Ptr
  deriving DecidableEq, Repr

/-- An element type with the trait that decides whether elements are destroyed. -/
structure StoredType (α : Type) extends Element α where
  /-- `std::is_trivially_constructible<T>` -/
  triviallyConstructible : Bool

/-- `trivial_traits<T>::is_trivially_destructible`, which the source defines as
`std::is_trivially_constructible<T>`. -/
def StoredType.isTriviallyDestructible {α : Type} (T : StoredType α) : Bool :=
  T.triviallyConstructible

section Std

variable {α ρ : Type}

/-- `std::uninitialized_default_construct_n` -/
def stdUninitializedDefaultConstructN (E : Element α) (first : Ptr) (n : ℕ) :
    Code (State α ρ) Ptr := do
  guarded first (fun i => defaultConstruct E (first + i)) n
  pure (first + n)

/-- `std::uninitialized_fill_n` -/
def stdUninitializedFillN (E : Element α) (first : Ptr) (n : ℕ) (val : α) :
    Code (State α ρ) Ptr := do
  guarded first (fun i => valueConstruct E (first + i) val) n
  pure (first + n)

/-- `std::uninitialized_copy_n` -/
def stdUninitializedCopyN (E : Element α) (first : Ptr) (n : ℕ) (dest : Ptr) :
    Code (State α ρ) Ptr := do
  guarded dest (fun i => copyConstruct E (dest + i) (first + i)) n
  pure (dest + n)

/-- `std::uninitialized_move` -/
def stdUninitializedMove (E : Element α) (first last dest : Ptr) : Code (State α ρ) Ptr := do
  guarded dest (fun i => moveConstruct E (dest + i) (first + i)) (last - first)
  pure (dest + (last - first))

/-- `ASSERT_ABORT` -/
def assertAbort {σ : Type} (cond : Bool) : Code σ Unit := fun s =>
  if cond then .returned () s else .terminated

/-- An `ASSERT_ABORT` between `#ifdef DEBUG` and `#endif`. -/
def debugAssert {σ : Type} (debug cond : Bool) : Code σ Unit :=
  if debug then assertAbort cond else pure ()

end Std

namespace StaticArray

abbrev Method (α β : Type) : Type := Code (State α StaticArray) β

/-- The array as its base class. -/
def base (N : ℕ) (a : StaticArray) : StaticArrayBase := ⟨a.storage, N, a.first⟩

/-- The members before a constructor sets them. -/
def unset (storage : Ptr) : StaticArray := ⟨storage, .null, .null⟩

variable {α : Type}

def destroyRange (T : StoredType α) (first last : Ptr) : Method α Unit :=
  if T.isTriviallyDestructible then pure ()
  else if first ≤ last then destroyAll first (last - first)
  else Code.undefined .outside

def cleanup (T : StoredType α) : Method α Unit := do
  let a ← self
  destroyRange T a.first a.last
  setSelf { a with last := a.first }

/-- `~static_array()` -/
def destruct (T : StoredType α) : Method α Unit := cleanup T

/-! ### Constructors -/

/-- `IsNoexceptConstructibleRange_v<pointer, Args...>` -/
def isNoexceptConstructibleRange (T : StoredType α) : RangeArgs α → Bool
  | .default => !T.defaultThrows
  | .fill _ => !T.copyThrows || T.byteCopy
  | .copy _ _ => (!T.copyThrows || T.byteCopy) && !T.defaultThrows

def constructRange (T : StoredType α) (N count : ℕ) (args : RangeArgs α) : Method α Unit :=
  Code.noexcept (isNoexceptConstructibleRange T args) <| do
    let a ← self
    let first := a.storage
    setSelf { a with first := first }
    let n := min count N
    match args with
    | .default => do
      let last ← stdUninitializedDefaultConstructN T.toElement first n
      setSelf ⟨a.storage, first, last⟩
    | .fill val => do
      let last ← stdUninitializedFillN T.toElement first n val
      setSelf ⟨a.storage, first, last⟩
    | .copy begin_ _ => do
      let last ← stdUninitializedCopyN T.toElement begin_ n first
      setSelf ⟨a.storage, first, last⟩
      if n < N then do
        let last ← stdUninitializedDefaultConstructN T.toElement (first + n) (N - n)
        setSelf ⟨a.storage, first, last⟩
      else pure ()

/-- `static_array()` -/
def constructDefault (T : StoredType α) (N : ℕ) : Method α Unit :=
  Code.noexcept (!T.defaultThrows) (constructRange T N N .default)

/-- `static_array(const static_array_base<T>&)` -/
def constructCopy (T : StoredType α) (N : ℕ) (o : StaticArrayBase) : Method α Unit :=
  Code.noexcept (isNoexceptConstructibleRange T (.copy o.data (o.data + o.capacity)))
    (constructRange T N o.capacity (.copy o.data (o.data + o.capacity)))

/-- `static_array(static_array_base<T>&&)` -/
def constructMove (T : StoredType α) (N : ℕ) (o : StaticArrayBase) : Method α Unit :=
  Code.noexcept (!T.moveThrows && !T.defaultThrows) <| do
    let a ← self
    let first := a.storage
    setSelf { a with first := first }
    let n := min N o.capacity
    let last ← stdUninitializedMove T.toElement o.data (o.data + n) first
    setSelf ⟨a.storage, first, last⟩
    if n < N then do
      let last ← stdUninitializedDefaultConstructN T.toElement (first + n) (N - n)
      setSelf ⟨a.storage, first, last⟩
    else pure ()

/-! ### Assignment -/

/-- The shape `_copy_assign` and `_move_assign` share: bytes, or one element after the other. -/
def assignRange (T : StoredType α) (nothrow : Bool) (one : Ptr → Ptr → Method α Unit)
    (first last dest : Ptr) : Method α Ptr :=
  Code.noexcept nothrow <| do
    let count := last - first
    (if T.byteCopy then memmove dest first count
      else Code.loop (fun i => one (dest + i) (first + i)) 0 count)
    pure (dest + count)

/-- `_copy_assign` -/
def copyAssign (T : StoredType α) (first last dest : Ptr) : Method α Ptr :=
  assignRange T (!T.copyAssignThrows) (assignCopyOne T.toElement) first last dest

/-- `_move_assign` -/
def moveAssign (T : StoredType α) (first last dest : Ptr) : Method α Ptr :=
  assignRange T (!T.moveAssignThrows) (assignMoveOne T.toElement) first last dest

/-- The shape the two assignment operators share. Both branches pass on `_capacity` elements of
the source. -/
def assignBase (T : StoredType α) (N : ℕ) (assign : Ptr → Ptr → Ptr → Method α Ptr)
    (o : StaticArrayBase) : Method α Unit := do
  let a ← self
  if a.storage = o.address then pure ()
  else if N < o.capacity then do
    let last ← assign o.data (o.data + N) a.first
    setSelf { a with last := last }
  else do
    let newLast ← assign o.data (o.data + N) a.first
    destroyRange T newLast a.last
    setSelf { a with last := newLast }
    let last ← stdUninitializedDefaultConstructN T.toElement newLast (N - (newLast - a.first))
    setSelf { a with last := last }

/-- `operator=(const static_array_base<T>&)` -/
def assignCopy (T : StoredType α) (N : ℕ) (o : StaticArrayBase) : Method α Unit :=
  assignBase T N (copyAssign T) o

/-- `operator=(static_array_base<T>&&)` -/
def assignMove (T : StoredType α) (N : ℕ) (o : StaticArrayBase) : Method α Unit :=
  assignBase T N (moveAssign T) o

/-! ### Access -/

def begin : Method α Ptr := do
  let a ← self
  pure a.first

def end_ (N : ℕ) : Method α Ptr := do
  let a ← self
  pure (a.first + N)

/-- `operator[](size_type)` -/
def subscript (debug : Bool) (N idx : ℕ) : Method α Ptr := do
  debugAssert debug (idx < N)
  let a ← self
  pure (a.first + idx)

/-- `operator[](size_type) const` -/
def subscriptConst (debug : Bool) (N idx : ℕ) : Method α Ptr := do
  debugAssert debug (N ≤ idx)
  let a ← self
  pure (a.first + idx)

/-- The values that `for (auto it = begin(); it != end(); ++it)` comes across. -/
def iterate (N : ℕ) : Method α (List α) := do
  let b ← begin
  let e ← end_ N
  loadAll b (e - b)

/-- `(*this)[idx] = val` -/
def write (debug : Bool) (N idx : ℕ) (val : α) : Method α Unit := do
  let p ← subscript debug N idx
  Cxx.assign p val

/-- One write after the other. -/
def writeAll (debug : Bool) (N : ℕ) : List (ℕ × α) → Method α Unit
  | [] => pure ()
  | w :: ws => do
    write debug N w.1 w.2
    writeAll debug N ws

end StaticArray

end Voxory
