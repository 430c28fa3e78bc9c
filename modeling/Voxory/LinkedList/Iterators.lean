import Voxory.LinkedList.Pool
import Voxory.StaticArray.Model

/-!
# Iterators into linked lists

`ConstListIterator` and `ListIterator` of `containers/impl/list.h`. An iterator is the address of a
node, and `end()` is the null pointer.
-/

namespace Voxory
open Cxx Chain Machine

/-- The field `_ptr`. -/
abbrev ListIterator : Type := Ptr

namespace ListIterator

variable {α : Type}

abbrev Method (α β : Type) : Type := Code (State (Node α) ListIterator) β

/-- The node of `_ptr->`, after the assertion where `DEBUG_ITERATORS` is defined. -/
def nodeAt (debug : Bool) (p : Ptr) : Method α (Node α) := do
  debugAssert debug (p ≠ Ptr.null)
  Cxx.read p

/-- `while (off--) p = p->_next;` and the same along `_last`. -/
def follow (debug : Bool) (step : Node α → Ptr) : ℕ → Ptr → Method α Ptr
  | 0, p => pure p
  | off + 1, p => do
    let n ← nodeAt debug p
    follow debug step off (step n)

/-- The two loops of `operator+=` and `operator[]`. -/
def followBy (debug : Bool) : ℤ → Ptr → Method α Ptr
  | .ofNat off, p => follow debug Node.next off p
  | .negSucc off, p => follow debug Node.last (off + 1) p

/-- `operator*` -/
def deref (debug : Bool) : Method α α := do
  let p ← self
  let n ← nodeAt debug p
  pure n.data

/-- `*it = val` -/
def assignValue (E : Element α) (debug : Bool) (val : α) : Method α Unit := do
  let p ← self
  let n ← nodeAt debug p
  mayThrow E.copyAssignThrows
  assign p { n with data := val }

/-- `operator++` -/
def increment (debug : Bool) : Method α Unit := do
  let p ← self
  let n ← nodeAt debug p
  setSelf n.next

/-- `operator--` -/
def decrement (debug : Bool) : Method α Unit := do
  let p ← self
  let n ← nodeAt debug p
  setSelf n.last

/-- `operator+=` -/
def addAssign (debug : Bool) (off : ℤ) : Method α Unit := do
  let p ← self
  let q ← followBy debug off p
  setSelf q

/-- `operator-=` -/
def subAssign (debug : Bool) (off : ℤ) : Method α Unit := addAssign debug (-off)

/-- `operator[]`, which does not assert that the node it gets to is one. -/
def subscript (debug : Bool) (off : ℤ) : Method α α := do
  let p ← self
  let q ← followBy debug off p
  let n ← Cxx.read q
  pure n.data

/-- The values that `for (auto& e : x)` goes through from `p` on, over nodes in at most `rounds`
blocks. -/
def values (debug : Bool) : ℕ → Ptr → Method α (List α)
  | 0, p => if p = .null then pure [] else Code.endless
  | rounds + 1, p =>
    if p = .null then pure []
    else do
      let n ← nodeAt debug p
      let rest ← values debug rounds n.next
      pure (n.data :: rest)

variable {debug : Bool} {s : State (Node α) ListIterator} {step : Node α → Ptr} {p q : Ptr}
  {n : Node α} {k : ℕ} {off : ℤ}

/-- What comes of an access to a node that is not there: an assertion stops the program at a null
pointer. -/
def Lost {σ β : Type} (debug : Bool) (p : Ptr) (o : Outcome σ β) : Prop :=
  if debug = true ∧ p = .null then o = .terminated else ∃ why, o = .fault why

lemma Lost.bind {σ β γ : Type} {x : Code σ β} {f : β → Code σ γ} {t : σ}
    (h : Lost debug p (x t)) : Lost debug p ((x >>= f) t) := by
  unfold Lost at h ⊢
  rw [Code.bind_run]
  split_ifs at h ⊢ with hp
  · rw [h]
  · obtain ⟨why, hwhy⟩ := h
    exact ⟨why, by rw [hwhy]⟩

lemma Lost.not_returned {σ β : Type} {o : Outcome σ β} {b : β} {t : σ} (h : Lost debug p o) :
    o ≠ .returned b t := by
  rintro rfl
  by_cases hp : debug = true ∧ p = .null
  · rw [Lost, if_pos hp] at h
    cases h
  · rw [Lost, if_neg hp] at h
    obtain ⟨why, hwhy⟩ := h
    cases hwhy

lemma read_lost (hp : s.mem.object p = none) : ∃ why, Cxx.read p s = .fault why := by
  unfold Cxx.read
  split_ifs
  · exact ⟨.dead, by simp only [hp]⟩
  · exact ⟨.outside, rfl⟩

lemma nodeAt_run (hs : Heap s.mem) (hp : s.mem.object p = some n) :
    nodeAt debug p s = .returned n s := by
  have hne : decide (p ≠ Ptr.null) = true := decide_eq_true (hs.ne_null hp)
  have hassert : debugAssert debug (p ≠ Ptr.null) s = .returned () s := by
    rw [hne]
    cases debug <;> rfl
  rw [nodeAt, Code.bind_returned hassert, read_turns hs hp]

lemma nodeAt_lost (debug : Bool) (hp : s.mem.object p = none) : Lost debug p (nodeAt debug p s) := by
  obtain ⟨why, hwhy⟩ := read_lost hp
  unfold Lost
  split_ifs with h
  · obtain ⟨rfl, rfl⟩ := h
    rfl
  · have hassert : debugAssert debug (p ≠ Ptr.null) s = .returned () s := by
      cases debug with
      | false => rfl
      | true =>
        have hne : decide (p ≠ Ptr.null) = true := decide_eq_true (fun hn => h ⟨rfl, hn⟩)
        rw [hne]
        rfl
    exact ⟨why, by rw [nodeAt, Code.bind_returned hassert, hwhy]⟩

/-! ### Walks -/

lemma follow_run (hs : Heap s.mem) (h : stride s.mem.object step k p = some q) :
    follow debug step k p s = .returned q s := by
  induction k generalizing p with
  | zero =>
    cases h
    rfl
  | succ k ih =>
    obtain ⟨n, hn, hrest⟩ := Option.bind_eq_some_iff.mp h
    rw [follow, Code.bind_returned (nodeAt_run hs hn)]
    exact ih hrest

lemma follow_lost {P : Ptr → Prop} (hs : Heap s.mem)
    (hstep : ∀ q n, P q → s.mem.object q = some n → P (step n)) (hp : P p)
    (h : stride s.mem.object step k p = none) :
    ∃ q, P q ∧ s.mem.object q = none ∧ Lost debug q (follow debug step k p s) := by
  induction k generalizing p with
  | zero => cases h
  | succ k ih =>
    cases hn : s.mem.object p with
    | none => exact ⟨p, hp, hn, (nodeAt_lost debug hn).bind⟩
    | some n =>
      rw [stride, hn] at h
      obtain ⟨q, hq, hdead, hlost⟩ := ih (hstep p n hp hn) h
      refine ⟨q, hq, hdead, ?_⟩
      rwa [follow, Code.bind_returned (nodeAt_run hs hn)]

lemma followBy_run (hs : Heap s.mem) (h : strideBy s.mem.object off p = some q) :
    followBy debug off p s = .returned q s := by
  cases off with
  | ofNat k => exact follow_run hs h
  | negSucc k => exact follow_run hs h

lemma followBy_lost {P : Ptr → Prop} (debug : Bool) (hs : Heap s.mem)
    (hlinks : ∀ q n, P q → s.mem.object q = some n → P n.next ∧ P n.last) (hp : P p)
    (h : strideBy s.mem.object off p = none) :
    ∃ q, P q ∧ s.mem.object q = none ∧ Lost debug q (followBy debug off p s) := by
  cases off with
  | ofNat k => exact follow_lost hs (fun q n hq hn => (hlinks q n hq hn).1) hp h
  | negSucc k => exact follow_lost hs (fun q n hq hn => (hlinks q n hq hn).2) hp h

/-! ### The operators -/

lemma increment_eq (debug : Bool) : (increment debug : Method α Unit) = addAssign debug 1 := by
  unfold increment addAssign
  refine congrArg (self >>= ·) (funext fun p => ?_)
  change _ = ((nodeAt debug p >>= fun n => pure n.next) >>= setSelf)
  rw [Code.bind_assoc]
  rfl

lemma decrement_eq (debug : Bool) : (decrement debug : Method α Unit) = addAssign debug (-1) := by
  unfold decrement addAssign
  refine congrArg (self >>= ·) (funext fun p => ?_)
  change _ = ((nodeAt debug p >>= fun n => pure n.last) >>= setSelf)
  rw [Code.bind_assoc]
  rfl

lemma addAssign_run (hs : Heap s.mem) (h : strideBy s.mem.object off s.self = some q) :
    addAssign debug off s = .returned () { s with self := q } := by
  rw [addAssign, Code.bind_returned (show self s = .returned s.self s from rfl),
    Code.bind_returned (followBy_run hs h)]
  rfl

lemma deref_run (hs : Heap s.mem) (hn : s.mem.object s.self = some n) :
    deref debug s = .returned n.data s := by
  rw [deref, Code.bind_returned (show self s = .returned s.self s from rfl),
    Code.bind_returned (nodeAt_run hs hn)]
  rfl

lemma deref_lost (debug : Bool) (hn : s.mem.object s.self = none) :
    Lost debug s.self (deref debug s) := by
  rw [deref, Code.bind_returned (show self s = .returned s.self s from rfl)]
  exact (nodeAt_lost debug hn).bind

lemma subscript_run (hs : Heap s.mem) (h : strideBy s.mem.object off s.self = some q)
    (hn : s.mem.object q = some n) : subscript debug off s = .returned n.data s := by
  rw [subscript, Code.bind_returned (show self s = .returned s.self s from rfl),
    Code.bind_returned (followBy_run hs h), Code.bind_returned (read_turns hs hn)]
  rfl

/-- `operator[]` does not assert that it got to a node. -/
lemma subscript_past (debug : Bool) (hs : Heap s.mem) (h : strideBy s.mem.object off s.self = some q)
    (hn : s.mem.object q = none) : ∃ why, subscript debug off s = .fault why := by
  obtain ⟨why, hwhy⟩ := read_lost hn
  refine ⟨why, ?_⟩
  rw [subscript, Code.bind_returned (show self s = .returned s.self s from rfl),
    Code.bind_returned (followBy_run hs h), Code.bind_run, hwhy]

lemma subscript_returned {v : α} {t : State (Node α) ListIterator} (hs : Heap s.mem)
    (h : subscript debug off s = .returned v t) :
    ∃ q n, strideBy s.mem.object off s.self = some q ∧ s.mem.object q = some n ∧ n.data = v := by
  rw [subscript, Code.bind_returned (show self s = .returned s.self s from rfl)] at h
  cases hq : strideBy s.mem.object off s.self with
  | none =>
    obtain ⟨r, -, -, hlost⟩ := followBy_lost (P := fun _ => True) debug hs
      (fun _ _ _ _ => ⟨trivial, trivial⟩) trivial hq
    exact absurd h hlost.bind.not_returned
  | some q =>
    rw [Code.bind_returned (followBy_run hs hq)] at h
    cases hn : s.mem.object q with
    | none =>
      obtain ⟨why, hwhy⟩ := read_lost hn
      rw [Code.bind_run, hwhy] at h
      cases h
    | some n =>
      rw [Code.bind_returned (read_turns hs hn)] at h
      cases h
      exact ⟨q, n, rfl, hn, rfl⟩

lemma assignValue_eq (E : Element α) (debug : Bool) (val : α) (hs : Heap s.mem)
    (hn : s.mem.object s.self = some n) : assignValue E debug val s =
      (do
        mayThrow E.copyAssignThrows
        assign s.self { n with data := val } : Method α Unit) s := by
  rw [assignValue, Code.bind_returned (show self s = .returned s.self s from rfl),
    Code.bind_returned (nodeAt_run hs hn)]

lemma assignValue_ends (b : Bool) (val : α) (hs : Heap s.mem)
    (hn : s.mem.object s.self = some n) : Code.Ends (do
        mayThrow b
        assign s.self { n with data := val } : Method α Unit) s
      (fun _ s' =>
        Turns s (Function.update s.mem.object s.self (some { n with data := val })) [] s')
      (fun s' => Turns s s.mem.object [] s' ∧ s.mem.fuse ≠ none) := by
  refine (mayThrow_turns b hs).bind ?_
  intro _ t ht
  have hnt : t.mem.object s.self = some n := by rw [ht.object, hn]
  refine .of_returns ((assign_turns _ ht.heap hnt).mono (fun _ s' hs' => ?_))
  have hboth := ht.trans hs'
  rwa [ht.object] at hboth

lemma assignValue_lost (E : Element α) (debug : Bool) (val : α)
    (hn : s.mem.object s.self = none) : Lost debug s.self (assignValue E debug val s) := by
  rw [assignValue, Code.bind_returned (show self s = .returned s.self s from rfl)]
  exact (nodeAt_lost debug hn).bind

lemma values_run {b : Ptr} {xs : List (Ptr × α)} (debug : Bool) (hs : Heap s.mem)
    (h : Linked s.mem.object b xs .null) (hk : xs.length ≤ k) :
    values debug k (front xs .null) s = .returned (xs.map Prod.snd) s := by
  induction k generalizing b xs with
  | zero =>
    rw [List.eq_nil_of_length_eq_zero (Nat.le_zero.mp hk)]
    rfl
  | succ k ih =>
    cases xs with
    | nil => rfl
    | cons x xs =>
      rw [front, values, if_neg (hs.ne_null h.1), Code.bind_returned (nodeAt_run hs h.1),
        Code.bind_returned (ih h.2 (Nat.le_of_succ_le_succ hk))]
      rfl

end ListIterator

end Voxory
