import Voxory.Containers.Internal

/-!
# The ring buffer

The member functions of `containers/impl/ring_buffer.h`, for `std::allocator`. A value that is
pushed lies outside the buffer. As for the heap array, the destructor of a trivially
destructible type, which the source compiles away, ends a lifetime here.
-/

namespace Voxory
open Cxx

/-- The fields of `_storage` with `_capacity` and `_allow_overwrite`. -/
structure RingBuffer where
  data : Ptr
  first : Ptr
  last : Ptr
  size : ℕ
  capacity : ℕ
  allowOverwrite : Bool
  deriving DecidableEq, Repr

/-- The argument of `push_back(const T&)` or of `push_back(T&&)`. -/
structure Arg (α : Type) where
  value : α
  rvalue : Bool
  deriving DecidableEq, Repr

namespace Arg

variable {α : Type}

def constructThrows (E : Element α) (val : Arg α) : Bool :=
  if val.rvalue then E.moveThrows else E.copyThrows

def assignThrows (E : Element α) (val : Arg α) : Bool :=
  if val.rvalue then E.moveAssignThrows else E.copyAssignThrows

/-- `is_assignable_v<T&, U>` -/
def assignable (E : Element α) (val : Arg α) : Bool :=
  if val.rvalue then E.moveAssignable else E.copyAssignable

/-- `is_nothrow_convertible<T, U>`: binding a `T` to a `const T&` constructs nothing. -/
def nothrowConvertible (E : Element α) (val : Arg α) : Bool :=
  if val.rvalue then !E.moveThrows else true

end Arg

namespace RingBuffer

abbrev Method (α β : Type) : Type := Code (State α RingBuffer) β

/-- A buffer that owns no block. -/
def nil (allowOverwrite : Bool) : RingBuffer := ⟨.null, .null, .null, 0, 0, allowOverwrite⟩

/-- What `_storage(_storage&&)` leaves of the buffer `o`. -/
def movedFrom (o : RingBuffer) : RingBuffer :=
  { o with data := .null, first := .null, last := .null, size := 0 }

variable {α : Type}

def append (current : Ptr) (n : ℕ) : Method α Ptr := do
  let r ← self
  if r.capacity = 0 then Code.undefined .modZero
  else pure (r.data + ((current - r.data) + n) % r.capacity)

/-! ### Destroying -/

/-- The lambda `destroy_seq`. -/
def destroySeq (b e : Ptr) : Method α Unit :=
  if b ≤ e then destroyAll b (e - b) else Code.undefined .outside

def destroyRange (first last : Ptr) : Method α Unit := do
  let r ← self
  if r.size = 0 then pure ()
  else if last > first then destroySeq first last
  else do
    destroySeq first (r.data + r.capacity)
    destroySeq r.data last

def destroyN (first : Ptr) (n : ℕ) : Method α Unit := do
  let r ← self
  if n = 0 then pure ()
  else if first + n ≤ r.data + r.capacity then destroySeq first (first + n)
  else do
    destroySeq first (r.data + r.capacity)
    destroySeq r.data (r.data + (n - (r.data + r.capacity - first)))

/-! ### The block -/

def allocateBuffer (count : ℕ) : Method α Unit := do
  let r ← self
  if count = 0 then setSelf { r with first := .null, last := .null, size := 0, capacity := 0 }
  else do
    let newData ← allocate count
    setSelf { r with data := newData, first := newData, last := newData, size := 0,
                     capacity := count }

def deallocateBuffer : Method α Unit := do
  let r ← self
  if r.data ≠ Ptr.null then do
    deallocate r.data r.capacity
    setSelf (nil r.allowOverwrite)
  else pure ()

def cleanup : Method α Unit := do
  let r ← self
  if r.first ≠ Ptr.null then do
    destroyRange r.first r.last
    deallocateBuffer
  else pure ()

/-- `uninitialized_move` or `uninitialized_copy`, by the tag. -/
def transfer (E : Element α) (move : Bool) (first last dest : Ptr) : Method α Ptr :=
  if move then uninitializedMove E first last dest else uninitializedCopy E first last dest

/-- `_fill_uninitialized_from_ring` with the buffer itself as its source. -/
def fillUninitializedFromRing (E : Element α) (dest : Ptr) (move : Bool) : Method α Ptr :=
  Code.noexcept (if move then E.nothrowMove else E.nothrowCopy) <| do
    let o ← self
    if o.first < o.last then transfer E move o.first o.last dest
    else do
      let dest ← transfer E move o.first (o.data + o.capacity) dest
      transfer E move o.data o.last dest

/-- The elements of `_reallocate`, moved where that cannot throw; returns the new `last`. -/
def relocate (E : Element α) (newData : Ptr) (newCapacity : ℕ) : Method α Ptr := do
  let r ← self
  if r.size = 0 then pure newData
  else if E.nothrowMove then fillUninitializedFromRing E newData true
  else if E.nothrowCopy then fillUninitializedFromRing E newData false
  else reallocGuard newData newCapacity (fillUninitializedFromRing E newData false)

def reallocate (E : Element α) (newCapacity : ℕ) : Method α Unit := do
  let newData ← allocate newCapacity
  let newLast ← relocate E newData newCapacity
  cleanup
  let r ← self
  setSelf { r with data := newData, first := newData, last := newLast, capacity := newCapacity }

def calculateGrow (capacity : ℕ) : ℕ :=
  if capacity = 0 then 4
  else if capacity < 8 then capacity * 2
  else if capacity < 64 then capacity + capacity / 2
  else capacity + capacity / 4

/-! ### One element -/

def emplaceBackWithUnusedCapacity (E : Element α) (val : Arg α) : Method α Unit :=
  Code.noexcept (!val.constructThrows E) <| do
    let r ← self
    let last ← (if r.last + 1 ≤ r.data + r.capacity then
        constructAt (val.constructThrows E) r.last val.value
      else constructAt (val.constructThrows E) r.data val.value)
    setSelf { r with last := last, size := r.size + 1 }

/-- `*first = val`, or the fallback for types without such an assignment. -/
def overwriteFirst (E : Element α) (val : Arg α) (first : Ptr) : Method α Unit :=
  if val.assignable E then do
    mayThrow (val.assignThrows E)
    assign first val.value
  else do
    let _ ← destroyAt first
    let _ ← constructAt (val.constructThrows E) first val.value

def emplaceBackOverwrite (E : Element α) (val : Arg α) : Method α Unit :=
  Code.noexcept
    (if val.assignable E then !val.assignThrows E else val.nothrowConvertible E) <| do
    let r ← self
    if r.size ≠ r.capacity then pure ()
    else do
      overwriteFirst E val r.first
      setSelf { r with
        last := r.first + 1
        first := if r.first + 1 = r.data + r.capacity then r.data else r.first + 1 }

def emplaceBack (E : Element α) (val : Arg α) : Method α Unit := do
  let r ← self
  if r.size < r.capacity then emplaceBackWithUnusedCapacity E val
  else if r.allowOverwrite then emplaceBackOverwrite E val
  else do
    reallocate E (calculateGrow r.capacity)
    emplaceBackWithUnusedCapacity E val

def pushBack (E : Element α) (val : Arg α) : Method α Unit := emplaceBack E val

/-- `try_pop_front`: the element is moved to a local, and from there into the result. -/
def tryPopFront (E : Element α) : Method α (Option α) := do
  let r ← self
  if r.size = 0 then pure none
  else do
    let v ← Cxx.read r.first
    mayThrow E.moveThrows
    assign r.first (E.movedFrom v)
    let _ ← destroyAt r.first
    let first ← append r.first 1
    setSelf { r with first := first, size := r.size - 1 }
    mayThrow E.moveThrows
    pure (some v)

def peekFront : Method α Ptr := do
  let r ← self
  if r.size = 0 then pure .null else pure r.first

/-- `operator[]` -/
def index (idx : ℕ) : Method α Ptr := do
  let r ← self
  append r.first idx

/-! ### The whole buffer -/

def clear : Method α Unit := do
  let r ← self
  destroyRange r.first r.last
  setSelf { r with first := r.data, last := r.data, size := 0 }

def commitWrite (n : ℕ) : Method α Unit := do
  let r ← self
  let last ← append r.last n
  setSelf { r with last := last, size := r.size + n }

def commitRead (n : ℕ) : Method α Unit := do
  let r ← self
  destroyN r.first n
  let first ← append r.first n
  setSelf { r with first := first, size := r.size - n }

def reserve (E : Element α) (newCapacity : ℕ) : Method α Unit := do
  let r ← self
  if newCapacity > r.capacity then reallocate E newCapacity else pure ()

def shrinkToFit (E : Element α) : Method α Unit := do
  let r ← self
  if r.size < r.capacity then reallocate E r.size else pure ()

def setOverwrite (allow : Bool) : Method α Unit := do
  let r ← self
  setSelf { r with allowOverwrite := allow }

/-! ### Construction, moves and destruction -/

/-- `ring_buffer(alloc)` -/
def construct : Method α Unit := setSelf (nil true)

/-- `ring_buffer(capacity)` -/
def constructSized (capacity : ℕ) : Method α Unit := do
  setSelf (nil true)
  allocateBuffer capacity

/-- `ring_buffer(ring_buffer&&)`; returns what is left of `o`. -/
def constructMove (o : RingBuffer) : Method α RingBuffer := do
  setSelf o
  pure o.movedFrom

/-- `operator=(ring_buffer&&)` from another buffer, which takes over the `_storage` only;
returns what is left of `o`. -/
def assignMove (o : RingBuffer) : Method α RingBuffer := do
  cleanup
  let r ← self
  setSelf { r with data := o.data, first := o.first, last := o.last, size := o.size }
  pure o.movedFrom

/-- `~ring_buffer()` -/
def destruct : Method α Unit := cleanup

end RingBuffer

end Voxory
