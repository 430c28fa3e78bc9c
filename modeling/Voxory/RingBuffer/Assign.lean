import Voxory.RingBuffer.Model

/-!
# Assignment from another ring buffer

`_assign` and the helpers it hands over to. The other buffer `o` is only read, but for its
elements, which a move leaves in their moved-from state. The loops of `_transfer_source` run on
`fuel`.
-/

namespace Voxory
open Cxx

namespace RingBuffer

variable {α : Type}

/-! ### `_transfer_source` -/

/-- `_destroy_range`, which returns at once for a trivially destructible type. -/
def destroySurplus (trivial : Bool) (first last : Ptr) : Method α Unit :=
  if trivial then pure () else destroyRange first last

def assignHelper (E : Element α) (move : Bool) (srcFirst srcLast dest : Ptr) : Method α Ptr :=
  Code.noexcept (if move then E.nothrowMove else E.nothrowCopy) <|
    if move then moveAssignN E srcFirst (srcLast - srcFirst) dest
    else copyAssignN E srcFirst (srcLast - srcFirst) dest

/-- The variables `src_seg1_first` to `src_seg2_last` and `has_seg2`. -/
structure Segments where
  seg1First : Ptr
  seg1Last : Ptr
  seg2First : Ptr
  seg2Last : Ptr
  hasSeg2 : Bool

/-- The stretches of the block in which the elements of `o` lie. -/
def segments (o : RingBuffer) : Segments :=
  if o.first < o.last then ⟨o.first, o.last, .null, .null, false⟩
  else ⟨o.first, o.data + o.capacity, o.data, o.last, true⟩

/-- The lambda `advance_dst`. -/
def advanceDst (dstStart dstEnd dst : Ptr) (n : ℕ) : Ptr :=
  if dst + n ≥ dstEnd then dstStart + ((dst + n) - dstEnd) else dst + n

/-- The lambda `process_assign_from_segment`; returns `dst` and `remaining_assign`. -/
def processAssignFromSegment (E : Element α) (move : Bool) (dstStart dstEnd segLast : Ptr) :
    ℕ → Ptr → Ptr → ℕ → Method α (Ptr × ℕ)
  | 0, _, _, _ => Code.endless
  | fuel + 1, s, dst, remainingAssign =>
    if s < segLast ∧ remainingAssign > 0 then do
      let take := min (segLast - s) (min (dstEnd - dst) remainingAssign)
      let newDst ← assignHelper E move s (s + take) dst
      processAssignFromSegment E move dstStart dstEnd segLast fuel (s + take)
        (if newDst - dst = take then (if newDst = dstEnd then dstStart else newDst)
          else advanceDst dstStart dstEnd dst take) (remainingAssign - take)
    else pure (dst, remainingAssign)

/-- The assignments from both segments; returns `dst`. -/
def assignSegments (E : Element α) (move : Bool) (fuel : ℕ) (dstStart dstEnd : Ptr)
    (seg : Segments) (dst : Ptr) (assignCount : ℕ) : Method α Ptr :=
  if assignCount > 0 then do
    let (dst, remainingAssign) ←
      processAssignFromSegment E move dstStart dstEnd seg.seg1Last fuel seg.seg1First dst assignCount
    if remainingAssign > 0 ∧ seg.hasSeg2 then do
      let (dst, _) ← processAssignFromSegment E move dstStart dstEnd seg.seg2Last fuel
        seg.seg2First dst remainingAssign
      pure dst
    else pure dst
  else pure dst

/-- `cur_src` before the first element is constructed. -/
def firstToConstruct (seg : Segments) (skipped : ℕ) : Ptr :=
  if skipped < seg.seg1Last - seg.seg1First then seg.seg1First + skipped
  else if seg.hasSeg2 then seg.seg2First + (skipped - (seg.seg1Last - seg.seg1First))
  else seg.seg1Last

/-- The loop `while (need > 0)`; returns `dst`. -/
def constructRest (E : Element α) (move : Bool) (dstStart dstEnd : Ptr) (seg : Segments) :
    ℕ → Ptr → Ptr → ℕ → Method α Ptr
  | 0, _, _, _ => Code.endless
  | fuel + 1, curSrc, dst, need =>
    if need > 0 then do
      let curSegEnd := if curSrc ≥ seg.seg1First ∧ curSrc < seg.seg1Last then seg.seg1Last
        else seg.seg2Last
      let take := min (min (curSegEnd - curSrc) (dstEnd - dst)) need
      let dst ← (if move then uninitializedMoveN E curSrc take dst
        else uninitializedCopyN E curSrc take dst)
      constructRest E move dstStart dstEnd seg fuel
        (if curSrc + take = seg.seg1Last ∧ seg.hasSeg2 then seg.seg2First else curSrc + take)
        (if dst = dstEnd then dstStart else dst) (need - take)
    else pure dst

def transferSource (E : Element α) (trivial move : Bool) (fuel : ℕ) (o : RingBuffer) :
    Method α Unit := do
  let r ← self
  if ¬o.first < o.last ∧ o.size = 0 then do
    destroySurplus trivial r.first r.last
    setSelf { r with last := r.first, size := 0 }
  else do
    let dstEnd := r.data + r.capacity
    let assignCount := min r.size o.size
    let dst ← assignSegments E move fuel r.data dstEnd (segments o) r.first assignCount
    if r.size > o.size then do
      destroySurplus trivial dst r.last
      setSelf { r with last := dst, size := o.size }
    else if o.size - r.size > 0 then do
      let newLast ← constructRest E move r.data dstEnd (segments o) fuel
        (firstToConstruct (segments o) assignCount) dst (o.size - r.size)
      setSelf { r with last := newLast, size := o.size }
    else do
      destroySurplus trivial dst r.last
      setSelf { r with last := dst, size := o.size }

/-! ### A block for the elements of the other buffer -/

/-- `_fill_uninitialized_from_ring` with the elements of `o`. -/
def fillUninitializedFrom (E : Element α) (o : RingBuffer) (dest : Ptr) (move : Bool) :
    Method α Ptr :=
  Code.noexcept (if move then E.nothrowMove else E.nothrowCopy) <|
    if o.first < o.last then transfer E move o.first o.last dest
    else do
      let dest ← transfer E move o.first (o.data + o.capacity) dest
      transfer E move o.data o.last dest

/-- Returns `new_start`, `new_last` and `new_size`. -/
def allocateFillTemp (E : Element α) (o : RingBuffer) (move : Bool) :
    Method α (Ptr × Ptr × ℕ) := do
  let newStart ← allocate o.capacity
  if o.size = 0 then pure (newStart, newStart, 0)
  else do
    let newLast ← reallocGuard newStart o.capacity (fillUninitializedFrom E o newStart move)
    pure (newStart, newLast, o.size)

/-- The elements of `o` in the buffer's empty block. -/
def refill (E : Element α) (o : RingBuffer) (move : Bool) : Method α Unit := do
  let r ← self
  let newLast ← fillUninitializedFrom E o r.first move
  let r ← self
  setSelf { r with last := newLast, size := newLast - r.first }

/-- The elements of `o` in a block of their own, which takes the place of the buffer's. -/
def replaceByTemp (E : Element α) (o : RingBuffer) : Method α Unit := do
  let (newStart, newLast, newSize) ← allocateFillTemp E o false
  cleanup
  let r ← self
  setSelf { r with data := newStart, first := newStart, last := newLast, size := newSize,
                   capacity := o.capacity }

def releaseAndTransfer (E : Element α) (move : Bool) (o : RingBuffer) : Method α Unit :=
  Code.noexcept (E.nothrowMove || E.nothrowCopy) <|
    if E.nothrowMove && move then do
      cleanup
      allocateBuffer o.capacity
      refill E o true
    else if E.nothrowCopy then do
      cleanup
      allocateBuffer o.capacity
      refill E o false
    else replaceByTemp E o

def destroyAndTransferSource (E : Element α) (move : Bool) (o : RingBuffer) : Method α Unit :=
  Code.noexcept (E.nothrowMove || E.nothrowCopy) <|
    if (E.nothrowMove && move) || E.nothrowCopy then do
      let r ← self
      destroyRange r.first r.last
      setSelf { r with first := r.data, last := r.data, size := 0 }
      if o.size = 0 then pure () else refill E o (E.nothrowMove && move)
    else replaceByTemp E o

/-! ### The dispatch -/

/-- `_assign`; `move_assign_n` and `copy_assign_n` are `noexcept` where copy construction is. -/
def assign (E : Element α) (trivial move : Bool) (fuel : ℕ) (o : RingBuffer) : Method α Unit := do
  let r ← self
  if r.size = 0 ∨ o.size = 0 then
    if o.size ≠ 0 then releaseAndTransfer E move o
    else if o.capacity ≠ r.capacity then do
      deallocateBuffer
      allocateBuffer o.capacity
    else pure ()
  else if o.capacity > r.capacity then releaseAndTransfer E move o
  else if E.nothrowCopy && move then transferSource E trivial true fuel o
  else if E.nothrowCopy then transferSource E trivial false fuel o
  else destroyAndTransferSource E move o

end RingBuffer

end Voxory
