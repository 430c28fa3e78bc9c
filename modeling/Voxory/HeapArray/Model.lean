import Voxory.Containers.Internal

/-!
# The heap array

The member functions of `containers/impl/heap_array.h`, for `std::allocator` and without
debug iterators. A member function is code over the memory and the three fields of its own
array; a second array is passed by its fields, which no member function changes while it
runs. Destroying an element of a trivially destructible type is a no-op that the source
compiles away; here the lifetime ends either way.
-/

namespace Voxory
open Cxx

/-- The fields `_pair._second._first`, `_pair._second._last` and `_capacity`. -/
structure HeapArray where
  first : Ptr
  last : Ptr
  capacity : ℕ
  deriving DecidableEq, Repr

/-- The tag type a template parameter `Tag` is deduced to. A temporary `copy_tag{}` gives
`copy_tag`; a named tag that is passed on is an lvalue and gives `copy_tag&`. -/
structure Tag where
  copy : Bool
  lvalue : Bool
  deriving DecidableEq, Repr

namespace Tag

def copyTag : Tag := ⟨true, false⟩

def moveTag : Tag := ⟨false, false⟩

/-- The type deduced from the name of a parameter of this type. -/
def named (t : Tag) : Tag := { t with lvalue := true }

/-- `std::is_same_v<copy_tag, Tag>` -/
def isCopyTag (t : Tag) : Bool := t.copy && !t.lvalue

end Tag

/-- The arguments after `count` of `_construct_range`. -/
inductive RangeArgs (α : Type) where
  | default
  | fill (val : α)
  | copy (first last : Ptr)

namespace HeapArray

abbrev Method (α β : Type) : Type := Code (State α HeapArray) β

/-- An array that owns no block. -/
def nil : HeapArray := ⟨.null, .null, 0⟩

def size (a : HeapArray) : ℕ := a.last - a.first

variable {α : Type}

def destroyRange (first last : Ptr) : Method α Unit := destroyAll first (last - first)

def deallocateBuffer : Method α Unit := do
  let a ← self
  deallocate a.first a.capacity
  setSelf nil

def cleanup : Method α Unit := do
  let a ← self
  if a.first ≠ Ptr.null then do
    destroyRange a.first a.last
    deallocateBuffer
  else pure ()

def allocateBuffer (n : ℕ) : Method α Unit := do
  let newData ← allocate n
  setSelf ⟨newData, newData, n⟩

/-- The construction step of `_construct_range`; returns the new `last`. -/
def buildRange (E : Element α) (first : Ptr) (count : ℕ) : RangeArgs α → Method α Ptr
  | .default => uninitializedDefaultConstructN E first count
  | .fill val => uninitializedFillN E first count val
  | .copy srcFirst srcLast => uninitializedCopy E srcFirst srcLast first

/-- `IsNoexceptConstructRange_v` -/
def noexceptConstructRange (E : Element α) : RangeArgs α → Bool
  | .default => E.nothrowDefault
  | .fill _ => E.nothrowFill
  | .copy _ _ => E.nothrowCopy

def constructRange (E : Element α) (count : ℕ) (args : RangeArgs α) : Method α Unit :=
  Code.noexcept (noexceptConstructRange E args) <|
    if count ≠ 0 then do
      allocateBuffer count
      Code.onThrow (do
        let a ← self
        let last ← buildRange E a.first count args
        setSelf { a with last := last }) cleanup
    else pure ()

/-- `heap_array(alloc)` -/
def construct : Method α Unit := setSelf nil

/-- `heap_array(count, val)`; its `noexcept` condition asks for a `_construct_range` that
takes a value. -/
def constructFill (E : Element α) (count : ℕ) (val : α) : Method α Unit :=
  Code.noexcept (noexceptConstructRange E (.fill val)) <| do
    setSelf ⟨.null, .null, count⟩
    constructRange E count (.fill val)

/-- `heap_array(count)`, with the `noexcept` condition of `heap_array(count, val)`. -/
def constructSized (E : Element α) (count : ℕ) : Method α Unit :=
  Code.noexcept (noexceptConstructRange E (.fill E.init)) <| do
    setSelf ⟨.null, .null, count⟩
    constructRange E count .default

/-- `heap_array(const heap_array&)`; `std::allocator` makes it `noexcept`. -/
def constructCopy (E : Element α) (o : HeapArray) : Method α Unit :=
  Code.noexcept true <| do
    setSelf ⟨.null, .null, o.capacity⟩
    constructRange E o.capacity (.copy o.first o.last)

/-- `_steal_no_cleanup`; returns what is left of `o`. -/
def stealNoCleanup (o : HeapArray) : Method α HeapArray := do
  setSelf ⟨o.first, o.last, o.capacity⟩
  pure nil

/-- `heap_array(heap_array&&)`; returns what is left of `o`. -/
def constructMove (o : HeapArray) : Method α HeapArray := do
  setSelf ⟨o.first, o.last, o.capacity⟩
  pure nil

/-- `operator=(heap_array&&)` from another array; returns what is left of `o`. -/
def assignMove (o : HeapArray) : Method α HeapArray := do
  cleanup
  stealNoCleanup o

/-- The move-or-copy of the old elements that `_reallocate` and `_resize_reallocate` share. -/
def relocate (E : Element α) (newData : Ptr) : Method α Ptr := do
  let a ← self
  if a.first ≠ Ptr.null then
    if E.nothrowMove then uninitializedMove E a.first a.last newData
    else uninitializedCopy E a.first a.last newData
  else pure newData

/-- Allocates a new block, fills it under a `realloc_guard` and replaces the old one by it:
what `_reallocate`, `_resize_reallocate` and `_clean_and_create_buffer_src` have in common. -/
def replaceBuffer (newCapacity : ℕ) (fill : Ptr → Method α Ptr) : Method α Unit := do
  let newData ← allocate newCapacity
  let newLast ← reallocGuard newData newCapacity (fill newData)
  cleanup
  setSelf ⟨newData, newLast, newCapacity⟩

def reallocate (E : Element α) (newCapacity : ℕ) : Method α Unit :=
  replaceBuffer newCapacity (relocate E)

def resizeReallocate (E : Element α) (newCapacity : ℕ) : Method α Unit :=
  replaceBuffer newCapacity fun newData => do
    let newLast ← relocate E newData
    let a ← self
    uninitializedDefaultConstructN E newLast
      (if newCapacity > a.size then newCapacity - a.size else 0)

def resizeBuffer (E : Element α) (newSize : ℕ) : Method α Unit := do
  let a ← self
  if newSize = a.size then pure ()
  else if newSize > a.capacity then resizeReallocate E newSize
  else if newSize < a.size then do
    destroyRange (a.last - (a.size - newSize)) a.last
    setSelf { a with last := a.last - (a.size - newSize) }
  else do
    let last ← uninitializedDefaultConstruct E a.last (a.last + (newSize - a.size))
    setSelf { a with last := last }

def resize (E : Element α) (size : ℕ) : Method α Unit := resizeBuffer E size

def reserve (E : Element α) (size : ℕ) : Method α Unit := do
  let a ← self
  if size > a.capacity then reallocate E size else pure ()

def shrinkToFit (E : Element α) : Method α Unit := do
  let a ← self
  if a.size < a.capacity then
    if a.size = 0 then cleanup else reallocate E a.size
  else pure ()

def clear : Method α Unit := cleanup

/-- `(*this)[idx] = val` -/
def write (E : Element α) (idx : ℕ) (val : α) : Method α Unit := do
  let a ← self
  mayThrow E.copyAssignThrows
  assign (a.first + idx) val

/-- `_clean_and_create_buffer_src`, instantiated at the tag type it deduces. -/
def cleanAndCreateBufferSrc (E : Element α) (newCapacity : ℕ) (src : Ptr) (newSize : ℕ)
    (tag : Tag) : Method α Unit :=
  replaceBuffer newCapacity fun newData =>
    if tag.isCopyTag then uninitializedCopy E src (src + newSize) newData
    else uninitializedMove E src (src + newSize) newData

/-- `_assign`. It passes its named tag on to `_clean_and_create_buffer_src`. -/
def assignFrom (E : Element α) (o : HeapArray) (tag : Tag) : Method α Unit := do
  let a ← self
  if a.size = 0 ∨ o.size = 0 then
    if o.size ≠ 0 then cleanAndCreateBufferSrc E o.capacity o.first o.size tag.named
    else if o.capacity ≠ a.capacity then do
      deallocateBuffer
      allocateBuffer o.capacity
    else pure ()
  else if o.size > a.capacity then
    cleanAndCreateBufferSrc E o.capacity o.first o.size tag.named
  else if o.size > a.size then do
    let mid ← (if tag.isCopyTag then copyAssignN E o.first a.size a.first
      else moveAssignN E o.first a.size a.first)
    let mid ← (if tag.isCopyTag then uninitializedCopyN E (o.first + a.size) (o.size - a.size) mid
      else uninitializedMoveN E (o.first + a.size) (o.size - a.size) mid)
    setSelf { a with last := mid }
  else do
    let mid ← (if tag.isCopyTag then copyAssignN E o.first o.size a.first
      else moveAssignN E o.first o.size a.first)
    destroyRange mid (mid + (a.size - o.size))
    setSelf { a with last := mid }

/-- `operator=(const heap_array&)` from another array. -/
def assignCopy (E : Element α) (o : HeapArray) : Method α Unit := assignFrom E o Tag.copyTag

/-- `~heap_array()` -/
def destruct : Method α Unit := cleanup

end HeapArray

end Voxory
