import Voxory.Crowd
import Voxory.DebugIterators.Exact

/-!
# The registry under threads

The functions of `containers_dbg.cpp` as threads execute them: `_lock` is the loop of `spin_lock` on
its flag, `_release` looks at `_proxy` before it takes the lock and again under it, and between any
two accesses to what threads share another thread may go on. What is done to a list between two
accesses to iterators is one step. Memory is sequentially consistent here, although the fields of an
iterator are plain ones in the source: where two threads are about to access one `_proxy`, one of
them to write it, the source has a data race, and the model takes the two accesses one after the
other. The versions are left out: nothing here changes them.
-/

namespace Voxory
open Cxx Machine

namespace Registry

open Objects

/-- What follows when `_release` is done: nothing in `_release` itself, the end of the lifetime in a
destructor, and the registration with the container of `o` in `_copy_proxy`. -/
inductive After where
  | nothing
  | endLife
  | copy (o : ℕ)
  deriving DecidableEq

/-- Who calls `_register_to_container`: a constructor that is `noexcept`, one that is not, or
`_copy_proxy`. -/
inductive Caller where
  | converting
  | copying
  | assigning
  deriving DecidableEq

/-- What a thread takes the lock of a container for. -/
inductive Errand where
  | release (x : ℕ) (k : After)
  | register (x : ℕ) (who : Caller)
  | releaseProxy
  | invalidateRange (first last : ℕ)
  deriving DecidableEq

/-- Where a thread is. -/
inductive Point where
  | idle
  /-- before the first look at `_proxy` -/
  | check (x : ℕ) (k : After)
  /-- in the loop of `spin_lock::lock` -/
  | spin (c : ℕ) (e : Errand)
  /-- behind the loop -/
  | enter (c : ℕ) (e : Errand)
  /-- before `pop_at(_proxy)` -/
  | pop (c x : ℕ) (k : After)
  /-- before `_proxy = nullptr` -/
  | forget (c x : ℕ) (k : After)
  /-- before `_proxy = q` -/
  | remember (c x : ℕ) (q : Ptr)
  /-- in the loop of `_release_proxy` -/
  | drop (c : ℕ) (cur : Ptr)
  /-- in the loop of `_invalidate_range` -/
  | sweep (c first last : ℕ) (cur : Ptr)
  /-- before the comparison with `last` -/
  | above (c first last : ℕ) (cur next : Ptr)
  /-- before `current->_data->_proxy = nullptr` -/
  | strike (c first last : ℕ) (cur next : Ptr)
  /-- before `pop_at(current)` -/
  | erase (c first last : ℕ) (cur next : Ptr)
  /-- before `_unlock`; what is released, if anything is -/
  | leave (c : ℕ) (released : Option (ℕ × After))
  | endLife (x : ℕ)
  /-- before `_container = o._container` -/
  | adopt (x o : ℕ)
  deriving DecidableEq

def After.point (x : ℕ) : After → Point
  | .nothing => .idle
  | .endLife => .endLife x
  | .copy o => .adopt x o

/-- What becomes of the iterator when its registration throws. -/
def Caller.unwinds {β : Type} (who : Caller) (x : ℕ) (m : Code Registry β) : Code Registry β :=
  match who with
  | .converting => (m.onThrow (setIterator x none)).noexcept true
  | .copying => m.onThrow (setIterator x none)
  | .assigning => m

/-- One round of the loop `while (flag_.test_and_set())`. -/
def testAndSet (c : ℕ) (e : Errand) : Code Registry Point := fun r =>
  match r.lists.obj c with
  | none => .fault .dead
  | some _ =>
    .returned (if r.held c then .spin c e else .enter c e)
      { r with held := Function.update r.held c true }

/-- The first step under the lock. -/
def Errand.begin (c : ℕ) : Errand → Code Registry Point
  | .release x k => do
    let it ← iterator x
    pure (if it.proxy = Ptr.null then .leave c (some (x, k)) else .pop c x k)
  | .register x who => who.unwinds x do
    let q ← list c (LinkedList.pushBackMove addresses x)
    pure (.remember c x q)
  | .releaseProxy => do
    let l ← onLists (fields c)
    pure (.drop c l.first)
  | .invalidateRange first last => do
    let l ← onLists (fields c)
    pure (.sweep c first last l.first)

/-- The next step of a thread. -/
def Point.step : Point → Code Registry Point
  | .idle => pure .idle
  | .check x k => do
    let it ← iterator x
    pure (if it.proxy = Ptr.null then k.point x else .spin it.container (.release x k))
  | .spin c e => testAndSet c e
  | .enter c e => e.begin c
  | .pop c x k => do
    let it ← iterator x
    list c (LinkedList.popAt it.proxy)
    pure (.forget c x k)
  | .forget c x k => do
    setProxy x .null
    pure (.leave c (some (x, k)))
  | .remember c x q => do
    setProxy x q
    pure (.leave c none)
  | .drop c cur =>
    if cur = Ptr.null then do
      list c LinkedList.clear
      pure (.leave c none)
    else do
      let n ← list c (Cxx.read cur)
      setProxy n.data .null
      pure (.drop c n.next)
  | .sweep c first last cur =>
    if cur = Ptr.null then pure (.leave c none)
    else do
      let n ← list c (Cxx.read cur)
      let it ← iterator n.data
      pure (if it.ptr < first then .strike c first last cur n.next
        else .above c first last cur n.next)
  | .above c first last cur next => do
    let n ← list c (Cxx.read cur)
    let it ← iterator n.data
    pure (if it.ptr > last then .strike c first last cur next else .sweep c first last next)
  | .strike c first last cur next => do
    let n ← list c (Cxx.read cur)
    setProxy n.data .null
    pure (.erase c first last cur next)
  | .erase c first last cur next => do
    list c (LinkedList.popAt cur)
    pure (.sweep c first last next)
  | .leave c released => do
    unlock c
    pure (match released with
      | none => .idle
      | some (x, k) => k.point x)
  | .endLife x => do
    setIterator x none
    pure .idle
  | .adopt x o => do
    let other ← iterator o
    let it ← iterator x
    setIterator x (some { it with container := other.container })
    pure (.spin other.container (.register x .assigning))

/-- The iterators that a thread at this point has in its hands. -/
def After.uses : After → List ℕ
  | .nothing | .endLife => []
  | .copy o => [o]

def Errand.uses : Errand → List ℕ
  | .release x k => x :: k.uses
  | .register x _ => [x]
  | .releaseProxy | .invalidateRange _ _ => []

def Point.uses : Point → List ℕ
  | .idle | .drop _ _ | .sweep _ _ _ _ | .above _ _ _ _ _ | .strike _ _ _ _ _
  | .erase _ _ _ _ _ | .leave _ none => []
  | .check x k | .pop _ x k | .forget _ x k | .leave _ (some (x, k)) => x :: k.uses
  | .spin _ e | .enter _ e => e.uses
  | .remember _ x _ | .endLife x => [x]
  | .adopt x o => [x, o]

/-- The container whose lock a thread at this point has taken. -/
def Point.inside : Point → Option ℕ
  | .idle | .check _ _ | .spin _ _ | .endLife _ | .adopt _ _ => none
  | .enter c _ | .pop c _ _ | .forget c _ _ | .remember c _ _ | .drop c _ | .sweep c _ _ _
  | .above c _ _ _ _ | .strike c _ _ _ _ | .erase c _ _ _ _ | .leave c _ => some c

end Registry

namespace RegistryAction

open Registry

/-- The part of a call before its first step. Containers come and go in one step. -/
def begin : RegistryAction → Code Registry Point
  | .container c => do
    Registry.container c
    pure .idle
  | .destroyContainer c => do
    Registry.destroyContainer c
    pure .idle
  | .construct x c ptr => do
    setIterator x (some ⟨c, .null, ptr⟩)
    pure (.spin c (.register x .converting))
  | .copyConstruct x o | .moveConstruct x o => do
    let other ← iterator o
    setIterator x (some ⟨other.container, .null, other.ptr⟩)
    pure (.spin other.container (.register x .copying))
  | .copyProxy x o => pure (.check x (.copy o))
  | .release x => pure (.check x .nothing)
  | .destroy x => pure (.check x .endLife)
  | .seek x ptr => do
    Registry.seek x ptr
    pure .idle
  | .releaseProxy c => pure (.spin c .releaseProxy)
  | .invalidateRange c first last => pure (.spin c (.invalidateRange first last))

/-- The existing iterators that a call is about. -/
def uses : RegistryAction → List ℕ
  | .container _ | .destroyContainer _ | .construct _ _ _ | .releaseProxy _
  | .invalidateRange _ _ _ => []
  | .copyConstruct _ o | .moveConstruct _ o => [o]
  | .copyProxy x o => [x, o]
  | .release x | .destroy x | .seek x _ => [x]

/-- The calls that make or destroy a container. -/
def Private : RegistryAction → Prop
  | .container _ | .destroyContainer _ => True
  | .construct _ _ _ | .copyConstruct _ _ | .moveConstruct _ _ | .copyProxy _ _ | .release _
  | .destroy _ | .seek _ _ | .releaseProxy _ | .invalidateRange _ _ _ => False

instance : DecidablePred Private
  | .container _ | .destroyContainer _ => .isTrue trivial
  | .construct _ _ _ | .copyConstruct _ _ | .moveConstruct _ _ | .copyProxy _ _ | .release _
  | .destroy _ | .seek _ _ | .releaseProxy _ | .invalidateRange _ _ _ => .isFalse id

end RegistryAction

namespace Registry

/-- The registry and `n` threads. -/
abbrev Threads (n : ℕ) : Type := Crowd (Fin n) Registry Point

/-- A thread calls a function, or takes its next step; the allocation that fails in it. -/
inductive Turn where
  | begin (act : RegistryAction)
  | step (fuse : Option ℕ)

namespace Threads

variable {n : ℕ}

def start (n : ℕ) (r : Registry) : Threads n := ⟨r, fun _ => .idle⟩

/-- A call is a legal one, and about no iterator that another thread has in its hands; containers
come and go while the other threads are idle. -/
def Legal (s : Threads n) (t : Fin n) (act : RegistryAction) : Prop :=
  act.Legal s.shared ∧ (∀ t', t' ≠ t → ∀ x ∈ act.uses, x ∉ (s.point t').uses) ∧
    (act.Private → ∀ t', t' ≠ t → s.point t' = .idle)

instance (s : Threads n) (t : Fin n) (act : RegistryAction) : Decidable (Legal s t act) := by
  unfold Legal
  infer_instance

/-- The turn of a thread. One that an exception has left is idle again. -/
def turn (s : Threads n) (t : Fin n) : Turn → Option (Registry × Point)
  | .begin act =>
    if s.point t = .idle ∧ Legal s t act then
      match act.begin s.shared with
      | .returned p r => some (r, p)
      | .threw _ => none
      | .terminated => none
      | .fault _ => none
    else none
  | .step fuse =>
    match (s.point t).step (s.shared.arm fuse) with
    | .returned p r => some (r, p)
    | .threw r => some (r, .idle)
    | .terminated => none
    | .fault _ => none

end Threads

end Registry

end Voxory
