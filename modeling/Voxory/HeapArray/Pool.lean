import Voxory.Cxx.Objects
import Voxory.HeapArray.Assignment
import Voxory.Machine

/-!
# A program with many heap arrays

A pool is a memory and the heap arrays that live in it, under names. Every action constructs,
uses or destroys arrays through the member functions of `HeapArray`; an exception that leaves
a member function is caught and the program goes on. With each action comes the environment's
choice of the fallible operation that throws in it, if any.
-/

namespace Voxory
open Cxx

abbrev Pool (α : Type) : Type := Objects α HeapArray

/-- The operations on heap arrays, under the names of the arrays they concern. -/
inductive Action (α : Type) where
  | default (x : ℕ)
  | sized (x n : ℕ)
  | filled (x n : ℕ) (val : α)
  | copyOf (x y : ℕ)
  | moveOf (x y : ℕ)
  | moveAssign (x y : ℕ)
  | copyAssign (x y : ℕ)
  | swap (x y : ℕ)
  | resize (x n : ℕ)
  | reserve (x n : ℕ)
  | shrinkToFit (x : ℕ)
  | clear (x : ℕ)
  | write (x i : ℕ) (val : α)
  | destroy (x : ℕ)

namespace Pool

variable {α : Type}

open Objects

/-- `x = std::move(y)` -/
def moveAssign (x y : ℕ) : Code (Pool α) Unit :=
  if x = y then pure ()
  else do
    let o ← fields y
    let left ← member x (HeapArray.assignMove o)
    put y (some left)

/-- `x = y` -/
def copyAssign (E : Element α) (x y : ℕ) : Code (Pool α) Unit :=
  if x = y then pure ()
  else do
    let o ← fields y
    member x (HeapArray.assignCopy E o)

/-- `std::swap(x, y)` -/
def swap (x y : ℕ) : Code (Pool α) Unit := do
  let a ← fields x
  let (left, tmp) ← temporary HeapArray.nil (HeapArray.constructMove a)
  put x (some left)
  moveAssign x y
  let left ← member y (HeapArray.assignMove tmp)
  let _ ← temporary left HeapArray.destruct

end Pool

namespace Action

variable {α : Type}

def code (E : Element α) : Action α → Code (Pool α) Unit
  | .default x => Objects.create HeapArray.nil x HeapArray.construct
  | .sized x n => Objects.create HeapArray.nil x (HeapArray.constructSized E n)
  | .filled x n val => Objects.create HeapArray.nil x (HeapArray.constructFill E n val)
  | .copyOf x y => do
    let o ← Objects.fields y
    Objects.create HeapArray.nil x (HeapArray.constructCopy E o)
  | .moveOf x y => do
    let o ← Objects.fields y
    let left ← Objects.create HeapArray.nil x (HeapArray.constructMove o)
    Objects.put y (some left)
  | .moveAssign x y => Pool.moveAssign x y
  | .copyAssign x y => Pool.copyAssign E x y
  | .swap x y => Pool.swap x y
  | .resize x n => Objects.member x (HeapArray.resize E n)
  | .reserve x n => Objects.member x (HeapArray.reserve E n)
  | .shrinkToFit x => Objects.member x (HeapArray.shrinkToFit E)
  | .clear x => Objects.member x HeapArray.clear
  | .write x i val => Objects.member x (HeapArray.write E i val)
  | .destroy x => do
    Objects.member x HeapArray.destruct
    Objects.put x none

/-- An action uses arrays that exist, constructs one under a free name, and writes to an
existing element. -/
def Legal (p : Pool α) : Action α → Prop
  | .default x | .sized x _ | .filled x _ _ => p.obj x = none
  | .copyOf x y | .moveOf x y => p.obj x = none ∧ (p.obj y).isSome
  | .moveAssign x y | .copyAssign x y | .swap x y => (p.obj x).isSome ∧ (p.obj y).isSome
  | .resize x _ | .reserve x _ | .shrinkToFit x | .clear x | .destroy x => (p.obj x).isSome
  | .write x i _ => ∃ a, p.obj x = some a ∧ i < a.size

instance (i : ℕ) (o : Option HeapArray) : Decidable (∃ a, o = some a ∧ i < a.size) :=
  match o with
  | none => .isFalse (fun ⟨_, h, _⟩ => nomatch h)
  | some a => decidable_of_iff (i < a.size)
    ⟨fun h => ⟨a, rfl, h⟩, fun ⟨_, h, hi⟩ => Option.some.inj h ▸ hi⟩

instance (p : Pool α) (act : Action α) : Decidable (act.Legal p) := by
  cases act <;> unfold Legal <;> infer_instance

end Action

namespace Pool

variable {α : Type}

/-- One action of the program, with the fallible operation that throws in it. -/
def next (E : Element α) (p : Pool α) (l : Option ℕ × Action α) : Option (Pool α) :=
  if l.2.Legal p then Objects.after (l.2.code E (p.arm l.1)) else none

end Pool

end Voxory
