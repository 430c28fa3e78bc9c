import Voxory.LinkedList.Pool

/-!
# Debug iterators

With `DEBUG_ITERATORS` every container keeps a list of the iterators into it, and every iterator
knows its container and its node in that list. The functions of `containers_dbg.cpp`, and
`_invalidate_range` of the heap array; for one thread, so that a lock that is held stays held.
The versions are left out: one thread only finds that they did not change.
-/

namespace Voxory
open Cxx

/-- The fields `_container` and `_proxy` of an iterator, and the address `_ptr` it points to. -/
structure Iterator where
  container : ℕ
  proxy : Ptr
  ptr : ℕ
  deriving DecidableEq, Repr

/-- The containers, with `_list` and whether `_sl` is held, and the live iterators. A node's value is
the name of an iterator. -/
structure Registry where
  lists : ListPool ℕ
  held : ℕ → Bool
  iterators : ℕ → Option Iterator

namespace Registry

open Objects

variable {β : Type}

def start (z : Bool) : Registry := ⟨Objects.start z, fun _ => false, fun _ => none⟩

/-- The environment chooses the allocation that fails, if any. -/
def arm (fuse : Option ℕ) (r : Registry) : Registry := { r with lists := r.lists.arm fuse }

/-- Iterator addresses are copied without a throw. -/
def addresses : Element ℕ := Element.plain 0 id

def onLists (m : Code (ListPool ℕ) β) : Code Registry β := fun r =>
  match m r.lists with
  | .returned b p => .returned b { r with lists := p }
  | .threw p => .threw { r with lists := p }
  | .terminated => .terminated
  | .fault why => .fault why

/-- Calls a member function of the list of the container `c`. -/
def list (c : ℕ) (m : LinkedList.Method ℕ β) : Code Registry β := onLists (member c m)

def iterator (x : ℕ) : Code Registry Iterator := fun r =>
  match r.iterators x with
  | some it => .returned it r
  | none => .fault .dead

def setIterator (x : ℕ) (it : Option Iterator) : Code Registry Unit := fun r =>
  .returned () { r with iterators := Function.update r.iterators x it }

/-- `x->_proxy = p` -/
def setProxy (x : ℕ) (p : Ptr) : Code Registry Unit := do
  let it ← iterator x
  setIterator x (some { it with proxy := p })

/-! ### `container_base_dbg` -/

/-- `_lock` -/
def lock (c : ℕ) : Code Registry Unit := fun r =>
  match r.lists.obj c with
  | none => .fault .dead
  | some _ =>
    if r.held c then Code.endless r
    else .returned () { r with held := Function.update r.held c true }

/-- `_unlock` -/
def unlock (c : ℕ) : Code Registry Unit := fun r =>
  .returned () { r with held := Function.update r.held c false }

/-- `container_base_dbg()` -/
def container (c : ℕ) : Code Registry Unit := do
  onLists (create LinkedList.nil c LinkedList.construct)
  unlock c

/-- `~container_base_dbg()` -/
def destroyContainer (c : ℕ) : Code Registry Unit := do
  list c LinkedList.destruct
  onLists (put c none)

/-- `for (auto& elem : _list) elem->_proxy = nullptr` from the node `cur` on, over nodes in at most
`rounds` blocks. -/
def dropFrom (c : ℕ) : ℕ → Ptr → Code Registry Unit
  | 0, cur => if cur = Ptr.null then pure () else Code.endless
  | rounds + 1, cur =>
    if cur = Ptr.null then pure ()
    else do
      let n ← list c (Cxx.read cur)
      setProxy n.data .null
      dropFrom c rounds n.next

/-- `_release_proxy` -/
def releaseProxy (c : ℕ) : Code Registry Unit := do
  lock c
  let l ← onLists (fields c)
  let rounds ← onLists (member c handedOut)
  dropFrom c rounds l.first
  list c LinkedList.clear
  unlock c

/-- `_move_proxies` -/
def moveProxies (c o : ℕ) : Code Registry Unit := do
  lock o
  onLists ((ListAction.moveAssign c o).code addresses)
  unlock o

/-! ### `iterator_base_dbg` -/

/-- `_register_to_container` -/
def registerToContainer (x c : ℕ) : Code Registry Unit := do
  lock c
  let p ← list c (LinkedList.pushBackMove addresses x)
  setProxy x p
  unlock c

/-- `_release` -/
def release (x : ℕ) : Code Registry Unit := do
  let it ← iterator x
  if it.proxy = Ptr.null then pure ()
  else do
    lock it.container
    let now ← iterator x
    if now.proxy ≠ Ptr.null then do
      list it.container (LinkedList.popAt now.proxy)
      setProxy x .null
    else pure ()
    unlock it.container

/-- `_copy_proxy` -/
def copyProxy (x o : ℕ) : Code Registry Unit := do
  release x
  let other ← iterator o
  let it ← iterator x
  setIterator x (some { it with container := other.container })
  registerToContainer x other.container

/-- A constructor of `iterator_base_dbg`; one that throws leaves no iterator. -/
def construct (x c ptr : ℕ) : Code Registry Unit := do
  setIterator x (some ⟨c, .null, ptr⟩)
  (registerToContainer x c).onThrow (setIterator x none)

/-! ### Iterators of a heap array -/

/-- `ConstHeapArrayIterator(const container_base*, pointer) noexcept` -/
def constructFrom (x c ptr : ℕ) : Code Registry Unit := (construct x c ptr).noexcept true

/-- Copy construction, which takes over `_container` and `_ptr`. -/
def copyConstruct (x o : ℕ) : Code Registry Unit := do
  let other ← iterator o
  construct x other.container other.ptr

/-- Move construction leaves the other iterator as it was. -/
def moveConstruct (x o : ℕ) : Code Registry Unit := do
  let other ← iterator o
  construct x other.container other.ptr

/-- `~ConstHeapArrayIterator()` -/
def destroy (x : ℕ) : Code Registry Unit := do
  release x
  setIterator x none

/-- `_ptr = ptr`, as the operators on iterators do. -/
def seek (x ptr : ℕ) : Code Registry Unit := do
  let it ← iterator x
  setIterator x (some { it with ptr := ptr })

/-- The loop of `_invalidate_range`, over nodes in at most `rounds` blocks. -/
def invalidateFrom (c first last : ℕ) : ℕ → Ptr → Code Registry Unit
  | 0, cur => if cur = Ptr.null then pure () else Code.endless
  | rounds + 1, cur =>
    if cur = Ptr.null then pure ()
    else do
      let n ← list c (Cxx.read cur)
      let it ← iterator n.data
      if it.ptr < first ∨ it.ptr > last then do
        setProxy n.data .null
        list c (LinkedList.popAt cur)
      else pure ()
      invalidateFrom c first last rounds n.next

/-- `_invalidate_range` -/
def invalidateRange (c first last : ℕ) : Code Registry Unit := do
  lock c
  let l ← onLists (fields c)
  let rounds ← onLists (member c handedOut)
  invalidateFrom c first last rounds l.first
  unlock c

/-- What move assignment of a heap array does to the iterators: `_cleanup` and then
`_steal_no_cleanup`. -/
def moveAssign (a b : ℕ) : Code Registry Unit :=
  if a = b then pure ()
  else do
    releaseProxy a
    moveProxies a b

end Registry

/-- The operations on containers and iterators, under their names. -/
inductive RegistryAction where
  | container (c : ℕ)
  | destroyContainer (c : ℕ)
  | construct (x c ptr : ℕ)
  | copyConstruct (x o : ℕ)
  | moveConstruct (x o : ℕ)
  | copyProxy (x o : ℕ)
  | release (x : ℕ)
  | destroy (x : ℕ)
  | seek (x ptr : ℕ)
  | releaseProxy (c : ℕ)
  | invalidateRange (c first last : ℕ)

namespace RegistryAction

open Registry

def code : RegistryAction → Code Registry Unit
  | .container c => Registry.container c
  | .destroyContainer c => Registry.destroyContainer c
  | .construct x c ptr => constructFrom x c ptr
  | .copyConstruct x o => Registry.copyConstruct x o
  | .moveConstruct x o => Registry.moveConstruct x o
  | .copyProxy x o => Registry.copyProxy x o
  | .release x => Registry.release x
  | .destroy x => Registry.destroy x
  | .seek x ptr => Registry.seek x ptr
  | .releaseProxy c => Registry.releaseProxy c
  | .invalidateRange c first last => Registry.invalidateRange c first last

/-- The container of the iterator `x` exists. -/
def Homed (r : Registry) (x : ℕ) : Prop := ∃ it ∈ r.iterators x, (r.lists.obj it.container).isSome

instance (r : Registry) (x : ℕ) : Decidable (Homed r x) := by
  unfold Homed
  cases h : r.iterators x with
  | none => exact .isFalse (fun ⟨it, hit, _⟩ => by cases hit)
  | some it =>
    exact decidable_of_iff (r.lists.obj it.container).isSome
      ⟨fun hc => ⟨it, rfl, hc⟩, fun ⟨it', hit', hc⟩ => by
        cases hit'
        exact hc⟩

/-- An action uses containers and iterators that exist and constructs one under a free name; a
container goes when no iterator is registered with it. -/
def Legal (r : Registry) : RegistryAction → Prop
  | .container c => r.lists.obj c = none
  | .destroyContainer c => (r.lists.obj c).map LinkedList.first = some .null
  | .construct x c _ => r.iterators x = none ∧ (r.lists.obj c).isSome
  | .copyConstruct x o | .moveConstruct x o => r.iterators x = none ∧ Homed r o
  | .copyProxy x o => (r.iterators x).isSome ∧ Homed r o
  | .release x | .destroy x | .seek x _ => (r.iterators x).isSome
  | .releaseProxy c | .invalidateRange c _ _ => (r.lists.obj c).isSome

instance (r : Registry) (act : RegistryAction) : Decidable (act.Legal r) := by
  cases act <;> (unfold Legal; infer_instance)

end RegistryAction

namespace Registry

/-- One action of the program, with the allocation that fails in it. An exception is caught and the
program goes on. -/
def next (r : Registry) (l : Option ℕ × RegistryAction) : Option Registry :=
  if l.2.Legal r then
    match l.2.code (r.arm l.1) with
    | .returned _ r' => some r'
    | .threw r' => some r'
    | .terminated => none
    | .fault _ => none
  else none

end Registry

end Voxory
