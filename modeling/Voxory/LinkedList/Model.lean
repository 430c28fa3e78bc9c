import Voxory.Chain
import Voxory.Containers.Internal

/-!
# The linked list

The member functions of `containers/impl/list.h`, for `std::allocator` and `default_node`. A node
is a block with one object in it. As with the heap array, destroying a node ends a lifetime also
where the source compiles the destructor away.
-/

namespace Voxory
open Cxx

/-- `default_node`: `_data`, `_next` and `_last`. -/
abbrev Node (α : Type) : Type := Chain.Node Ptr α

/-- The fields `_pair._second.first`, `_pair._second.second` and `_size`. -/
structure LinkedList where
  first : Ptr
  second : Ptr
  size : ℕ
  deriving DecidableEq, Repr

/-- The number of blocks handed out so far. -/
def handedOut {α ρ : Type} : Code (State α ρ) ℕ := fun s => .returned s.mem.fresh s

namespace LinkedList

abbrev Method (α β : Type) : Type := Code (State (Node α) LinkedList) β

def nil : LinkedList := ⟨.null, .null, 0⟩

/-- `--_size` on a `size_t`; `++_size` does not wrap, since nodes take up memory. -/
def decrement (size : ℕ) : ℕ := if size = 0 then 2 ^ 64 - 1 else size - 1

section Methods

variable {α : Type}

/-- `p->_next = q` -/
def setNext (p q : Ptr) : Method α Unit := do
  let n ← Cxx.read p
  assign p { n with next := q }

/-- `p->_last = q` -/
def setLast (p q : Ptr) : Method α Unit := do
  let n ← Cxx.read p
  assign p { n with last := q }

def destroyNode (p : Ptr) : Method α Unit := do
  destroy p
  deallocate p 1

/-- The links to a new last node. -/
def linkBack (p : Ptr) : Method α Unit := do
  let l ← self
  if l.first = Ptr.null then setSelf { l with first := p, second := p }
  else do
    setNext l.second p
    setLast p l.second
    setSelf { l with second := p }

/-- `emplace_back`. The node's constructor takes its argument by value, which `take` initialises,
and copies it into the node. -/
def emplaceBack (E : Element α) (take : Method α α) : Method α Ptr := do
  let p ← allocate 1
  let val ← take
  mayThrow E.copyThrows
  let l ← self
  construct p ⟨val, .null, l.second⟩
  linkBack p
  let l ← self
  setSelf { l with size := l.size + 1 }
  pure p

/-- `push_back(const value_type&)` -/
def pushBack (E : Element α) (val : α) : Method α Ptr :=
  emplaceBack E (do
    mayThrow E.copyThrows
    pure val)

/-- `push_back(value_type&&)` -/
def pushBackMove (E : Element α) (val : α) : Method α Ptr :=
  emplaceBack E (do
    mayThrow E.moveThrows
    pure val)

def popBack : Method α Unit := do
  let l ← self
  if l.first = Ptr.null then pure ()
  else if l.first = l.second then do
    destroyNode l.first
    setSelf nil
  else do
    let tail ← Cxx.read l.second
    destroyNode l.second
    setNext tail.last .null
    setSelf { l with second := tail.last, size := decrement l.size }

/-- The first half of `pop_at`: the links that lead to `loc` from the front. -/
def unlinkFront (loc : Ptr) : Method α Unit := do
  let n ← Cxx.read loc
  if n.last ≠ Ptr.null then setNext n.last n.next
  else do
    let l ← self
    setSelf { l with first := n.next }
    if n.next ≠ Ptr.null then setLast n.next .null else pure ()

/-- The second half of `pop_at`: the links that lead to `loc` from the back. -/
def unlinkBack (loc : Ptr) : Method α Unit := do
  let n ← Cxx.read loc
  if n.next ≠ Ptr.null then setLast n.next n.last
  else do
    let l ← self
    setSelf { l with second := n.last }
    if n.last ≠ Ptr.null then setNext n.last .null else pure ()

def popAt (loc : Ptr) : Method α Unit :=
  if loc = Ptr.null then pure ()
  else do
    unlinkFront loc
    unlinkBack loc
    destroyNode loc
    let l ← self
    setSelf { l with size := decrement l.size }

/-- The loop of `clear`. Each round gives a block back, so that there are no more rounds than
blocks handed out before the next one would read a node that is gone. -/
def clearFrom : ℕ → Ptr → Method α Unit
  | 0, cur => if cur = Ptr.null then pure () else Code.undefined .dead
  | rounds + 1, cur =>
    if cur = Ptr.null then pure ()
    else do
      let n ← Cxx.read cur
      destroyNode cur
      clearFrom rounds n.next

def clear : Method α Unit := do
  let l ← self
  let rounds ← handedOut
  clearFrom rounds l.first
  setSelf nil

/-- `list()` -/
def construct : Method α Unit := setSelf nil

/-- `~list()` -/
def destruct : Method α Unit := clear

/-- `steal_no_cleanup`; returns what is left of `o`. -/
def stealNoCleanup (o : LinkedList) : Method α LinkedList := do
  setSelf o
  pure nil

/-- `operator=(list&&)` from another list; returns what is left of `o`. -/
def assignMove (o : LinkedList) : Method α LinkedList := do
  clear
  stealNoCleanup o

/-! ### Copies -/

/-- `for (auto& e : o) emplace_back(e)` from the node `cur` on, over nodes in at most `rounds`
blocks. -/
def emplaceAll (E : Element α) (take : Ptr → Method α α) : ℕ → Ptr → Method α Unit
  | 0, cur => if cur = Ptr.null then pure () else Code.endless
  | rounds + 1, cur =>
    if cur = Ptr.null then pure ()
    else do
      let _ ← emplaceBack E (take cur)
      let n ← Cxx.read cur
      emplaceAll E take rounds n.next

/-- The value of a node, copied. -/
def takeCopy (E : Element α) (cur : Ptr) : Method α α := do
  let n ← Cxx.read cur
  mayThrow E.copyThrows
  pure n.data

/-- The value of a node, moved out of it. -/
def takeMove (E : Element α) (cur : Ptr) : Method α α := do
  let n ← Cxx.read cur
  mayThrow E.moveThrows
  assign cur { n with data := E.movedFrom n.data }
  pure n.data

/-- `list(const list&)` -/
def constructCopy (E : Element α) (o : LinkedList) : Method α Unit := do
  setSelf ⟨.null, .null, o.size⟩
  let rounds ← handedOut
  emplaceAll E (takeCopy E) rounds o.first

/-- `list(list&&)` -/
def constructMove (E : Element α) (o : LinkedList) : Method α Unit := do
  setSelf ⟨.null, .null, o.size⟩
  let rounds ← handedOut
  emplaceAll E (takeMove E) rounds o.first

/-- `*it = *o_it` for the first `common` nodes; returns both iterators. -/
def assignCommon (E : Element α) : ℕ → Ptr → Ptr → Method α (Ptr × Ptr)
  | 0, it, oIt => pure (it, oIt)
  | common + 1, it, oIt => do
    let src ← Cxx.read oIt
    mayThrow E.copyAssignThrows
    let dest ← Cxx.read it
    assign it { dest with data := src.data }
    let m ← Cxx.read it
    let n ← Cxx.read oIt
    assignCommon E common m.next n.next

/-- `ListIterator::unwrap`, which calls itself, in a program whose stack has room for so many
calls. -/
def unwrap : ℕ → Ptr → Method α Ptr
  | 0, _ => Code.endless
  | depth + 1, it => unwrap depth it

/-- The loop of `assign_copy` that erases the nodes from `it` on. -/
def eraseFrom (depth : ℕ) : ℕ → Ptr → Method α Unit
  | 0, it => if it = Ptr.null then pure () else Code.undefined .dead
  | rounds + 1, it =>
    if it = Ptr.null then pure ()
    else do
      let n ← Cxx.read it
      let p ← unwrap depth it
      destroyNode p
      eraseFrom depth rounds n.next

/-- `assign_copy`, which is `operator=(const list&)` from another list. -/
def assignCopy (E : Element α) (depth : ℕ) (o : LinkedList) : Method α Unit := do
  let l ← self
  let rounds ← handedOut
  let (it, oIt) ← assignCommon E (min l.size o.size) l.first o.first
  if l.size < o.size then emplaceAll E (takeCopy E) rounds oIt
  else if l.size > o.size then do
    eraseFrom depth rounds it
    let l ← self
    setSelf { l with size := o.size }
  else pure ()

end Methods

end LinkedList

end Voxory
