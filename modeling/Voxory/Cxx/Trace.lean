import Mathlib.Data.List.Basic
import Mathlib.Tactic

/-!
# Allocation and lifetime traces

The allocator calls and object lifetimes of a run, newest event first. `lifetime` follows
one slot through a trace and `outstanding` the blocks that were allocated and not yet
released; both fail at the first event that breaks the discipline.
-/

namespace Cxx

/-- A pointer into slot `off` of a block, or an offset from the null pointer. -/
structure Ptr where
  block : Option ℕ
  off : ℕ
  deriving DecidableEq, Repr

namespace Ptr

def null : Ptr := ⟨none, 0⟩

instance : HAdd Ptr ℕ Ptr := ⟨fun p n => ⟨p.block, p.off + n⟩⟩

instance : HSub Ptr ℕ Ptr := ⟨fun p n => ⟨p.block, p.off - n⟩⟩

/-- The distance between two pointers into one block. -/
instance : HSub Ptr Ptr ℕ := ⟨fun p q => p.off - q.off⟩

/-- Pointers are only ordered within one block, where the offsets decide. -/
instance : LT Ptr := ⟨fun p q => p.off < q.off⟩

instance : LE Ptr := ⟨fun p q => p.off ≤ q.off⟩

instance (p q : Ptr) : Decidable (p < q) := inferInstanceAs (Decidable (p.off < q.off))

instance (p q : Ptr) : Decidable (p ≤ q) := inferInstanceAs (Decidable (p.off ≤ q.off))

@[simp] lemma add_block (p : Ptr) (n : ℕ) : (p + n).block = p.block := rfl

@[simp] lemma add_off (p : Ptr) (n : ℕ) : (p + n).off = p.off + n := rfl

@[simp] lemma sub_block (p : Ptr) (n : ℕ) : (p - n).block = p.block := rfl

@[simp] lemma sub_off (p : Ptr) (n : ℕ) : (p - n).off = p.off - n := rfl

lemma mk_add (b : Option ℕ) (i n : ℕ) : (⟨b, i⟩ : Ptr) + n = ⟨b, i + n⟩ := rfl

lemma mk_sub (b : Option ℕ) (i n : ℕ) : (⟨b, i⟩ : Ptr) - n = ⟨b, i - n⟩ := rfl

lemma add_zero (p : Ptr) : p + 0 = p := rfl

lemma add_add (p : Ptr) (m n : ℕ) : p + m + n = p + (m + n) := by
  change (⟨p.block, p.off + m + n⟩ : Ptr) = ⟨p.block, p.off + (m + n)⟩
  rw [Nat.add_assoc]

lemma sub_eq (p q : Ptr) : p - q = p.off - q.off := rfl

lemma lt_iff (p q : Ptr) : p < q ↔ p.off < q.off := Iff.rfl

lemma le_iff (p q : Ptr) : p ≤ q ↔ p.off ≤ q.off := Iff.rfl

lemma ext_iff' (p q : Ptr) : p = q ↔ p.block = q.block ∧ p.off = q.off := by
  cases p
  cases q
  simp

end Ptr

/-- What the allocator and the objects' lifetimes show to an observer. -/
inductive Event where
  | allocate (p : Ptr) (n : ℕ)
  | deallocate (p : Ptr) (n : ℕ)
  | construct (p : Ptr)
  | destroy (p : Ptr)
  deriving DecidableEq, Repr

/-- Whether slot `p` holds a live object after the events of the trace; `none` once an object
was constructed over a live one, or destroyed where none was alive. So `some false` says that
every object constructed in the slot has been destroyed, once and before the next one began. -/
def lifetime (p : Ptr) : List Event → Option Bool
  | [] => some false
  | e :: t =>
    match lifetime p t with
    | none => none
    | some alive =>
      if e = .construct p then (if alive then none else some true)
      else if e = .destroy p then (if alive then some false else none)
      else some alive

/-- The blocks allocated and not yet released; `none` once a release matched no such block. -/
def outstanding : List Event → Option (List (Ptr × ℕ))
  | [] => some []
  | .allocate p n :: t => (outstanding t).map ((p, n) :: ·)
  | .deallocate p n :: t =>
    (outstanding t).bind fun l => if (p, n) ∈ l then some (l.erase (p, n)) else none
  | .construct _ :: t => outstanding t
  | .destroy _ :: t => outstanding t

/-- The addresses of the blocks given back, newest first. -/
def released : List Event → List Ptr
  | [] => []
  | .deallocate p _ :: t => p :: released t
  | .allocate _ _ :: t | .construct _ :: t | .destroy _ :: t => released t

lemma lifetime_other {p : Ptr} {e : Event} {t : List Event} (hc : e ≠ .construct p)
    (hd : e ≠ .destroy p) : lifetime p (e :: t) = lifetime p t := by
  rw [lifetime]
  cases lifetime p t with
  | none => rfl
  | some alive => simp only [if_neg hc, if_neg hd]

lemma lifetime_construct {p : Ptr} {t : List Event} (h : lifetime p t = some false) :
    lifetime p (.construct p :: t) = some true := by
  simp [lifetime, h]

lemma lifetime_destroy {p : Ptr} {t : List Event} (h : lifetime p t = some true) :
    lifetime p (.destroy p :: t) = some false := by
  simp [lifetime, h]

/-- A slot whose lifetimes are in order has been constructed as often as destroyed, or once
more while it is alive. -/
theorem lifetime_count {p : Ptr} {t : List Event} {alive : Bool}
    (h : lifetime p t = some alive) :
    t.count (.construct p) = t.count (.destroy p) + alive.toNat := by
  induction t generalizing alive with
  | nil =>
    simp only [lifetime, Option.some.injEq] at h
    subst h
    rfl
  | cons e t ih =>
    rw [lifetime] at h
    cases hl : lifetime p t with
    | none => simp [hl] at h
    | some before =>
      have hcount := ih hl
      simp only [hl] at h
      by_cases hc : e = .construct p
      · subst hc
        cases before <;> simp at h
        subst h
        simpa using hcount
      · by_cases hd : e = .destroy p
        · subst hd
          cases before <;> simp at h
          subst h
          simpa using hcount
        · simp only [if_neg hc, if_neg hd, Option.some.injEq] at h
          subst h
          rwa [List.count_cons_of_ne hc, List.count_cons_of_ne hd]

end Cxx
