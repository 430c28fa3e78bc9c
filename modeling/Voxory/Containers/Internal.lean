import Voxory.Cxx.Storage

/-!
# Construction and assignment algorithms

The algorithms of `containers/detail/containers_internal.h` that the containers share. An
`Element` collects what they ask of the element type: its special members' effects, which of
them may throw, and the traits that select a byte-wise path.
-/

namespace Voxory
open Cxx

/-- What the containers use of an element type `T` with values in `α`. -/
structure Element (α : Type) where
  /-- the value of `T()` -/
  init : α
  /-- what move construction leaves in the moved-from object -/
  movedFrom : α → α
  /-- what move assignment leaves in the moved-from object -/
  moveAssignedFrom : α → α
  defaultThrows : Bool
  copyThrows : Bool
  moveThrows : Bool
  copyAssignThrows : Bool
  moveAssignThrows : Bool
  /-- `is_assignable_v<T&, const T&>` -/
  copyAssignable : Bool
  /-- `is_assignable_v<T&, T>` -/
  moveAssignable : Bool
  /-- `use_memmove_copy_construct_v`: trivially copyable -/
  byteCopy : Bool
  /-- `use_memset_value_construct_v`: a character type or `bool` -/
  byteFill : Bool
  byteCopy_movedFrom : byteCopy = true → movedFrom = id
  byteCopy_moveAssignedFrom : byteCopy = true → moveAssignedFrom = id

namespace Element

variable {α : Type}

/-- `noexcept(uninitialized_move(..))` -/
def nothrowMove (E : Element α) : Bool := E.byteCopy || !E.moveThrows

/-- `noexcept(uninitialized_copy(..))` -/
def nothrowCopy (E : Element α) : Bool := E.byteCopy || !E.copyThrows

/-- `noexcept(uninitialized_fill_n(..))` -/
def nothrowFill (E : Element α) : Bool := E.byteFill || !E.copyThrows

/-- `noexcept(uninitialized_default_construct_n(..))` -/
def nothrowDefault (E : Element α) : Bool := E.byteFill || !E.defaultThrows

/-- Assigning a copy may throw on the element-wise path. -/
def nothrowCopyAssign (E : Element α) : Bool := E.byteCopy || !E.copyAssignThrows

/-- No operation of the type throws. -/
structure Nothrow (E : Element α) : Prop where
  default : E.defaultThrows = false
  copy : E.copyThrows = false
  move : E.moveThrows = false
  copyAssign : E.copyAssignThrows = false
  moveAssign : E.moveAssignThrows = false

/-- A type whose operations never throw, whose moves leave `left` behind. -/
def plain (init : α) (left : α → α) : Element α where
  init := init
  movedFrom := left
  moveAssignedFrom := left
  defaultThrows := false
  copyThrows := false
  moveThrows := false
  copyAssignThrows := false
  moveAssignThrows := false
  copyAssignable := true
  moveAssignable := true
  byteCopy := false
  byteFill := false
  byteCopy_movedFrom h := by cases h
  byteCopy_moveAssignedFrom h := by cases h

lemma plain_nothrow (init : α) (left : α → α) : (plain init left).Nothrow :=
  ⟨rfl, rfl, rfl, rfl, rfl⟩

end Element

section Definitions

variable {α ρ : Type}

/-! ### Bytes -/

/-- The values of the `n` slots from `src` on. -/
def loadAll (src : Ptr) : ℕ → Code (State α ρ) (List α)
  | 0 => pure []
  | n + 1 => do
    let v ← Cxx.read src
    let vs ← loadAll (src + 1) n
    pure (v :: vs)

def storeAll (dest : Ptr) : List α → Code (State α ρ) Unit
  | [] => pure ()
  | v :: vs => do
    store dest v
    storeAll (dest + 1) vs

/-- `std::memmove` on whole objects: all source bytes are read before any is written. -/
def memmove (dest src : Ptr) (n : ℕ) : Code (State α ρ) Unit := do
  let vs ← loadAll src n
  storeAll dest vs

/-- `std::memset` with the byte that represents `v`. -/
def memset (dest : Ptr) (v : α) (n : ℕ) : Code (State α ρ) Unit :=
  storeAll dest (List.replicate n v)

/-! ### Guards -/

/-- Destroys `n` consecutive objects. -/
def destroyAll (first : Ptr) (n : ℕ) : Code (State α ρ) Unit :=
  Code.loop (fun i => destroy (first + i)) 0 n

/-- `construct_helper` and `assign_helper`: treats `n` slots one after the other; when one
throws, the guard destroys those already treated. -/
def guarded (first : Ptr) (body : ℕ → Code (State α ρ) Unit) (n : ℕ) : Code (State α ρ) Unit :=
  Code.loop (fun i => (body i).onThrow (destroyAll first i)) 0 n

/-- `realloc_guard`: gives the new block back when filling it throws. -/
def reallocGuard {β : Type} (first : Ptr) (size : ℕ) (fill : Code (State α ρ) β) :
    Code (State α ρ) β :=
  fill.onThrow (deallocate first size)

/-! ### One element -/

def copyConstruct (E : Element α) (dest src : Ptr) : Code (State α ρ) Unit := do
  let v ← Cxx.read src
  mayThrow E.copyThrows
  construct dest v

def moveConstruct (E : Element α) (dest src : Ptr) : Code (State α ρ) Unit := do
  let v ← Cxx.read src
  mayThrow E.moveThrows
  construct dest v
  assign src (E.movedFrom v)

def valueConstruct (E : Element α) (dest : Ptr) (v : α) : Code (State α ρ) Unit := do
  mayThrow E.copyThrows
  construct dest v

def defaultConstruct (E : Element α) (dest : Ptr) : Code (State α ρ) Unit := do
  mayThrow E.defaultThrows
  construct dest E.init

def assignCopyOne (E : Element α) (dest src : Ptr) : Code (State α ρ) Unit := do
  let v ← Cxx.read src
  mayThrow E.copyAssignThrows
  assign dest v

def assignMoveOne (E : Element α) (dest src : Ptr) : Code (State α ρ) Unit := do
  let v ← Cxx.read src
  mayThrow E.moveAssignThrows
  assign dest v
  assign src (E.moveAssignedFrom v)

/-! ### The algorithms -/

def uninitializedMoveN (E : Element α) (first : Ptr) (count : ℕ) (dest : Ptr) :
    Code (State α ρ) Ptr :=
  Code.noexcept E.nothrowMove <| do
    (if E.byteCopy then memmove dest first count
      else guarded dest (fun i => moveConstruct E (dest + i) (first + i)) count)
    pure (dest + count)

def uninitializedCopyN (E : Element α) (first : Ptr) (count : ℕ) (dest : Ptr) :
    Code (State α ρ) Ptr :=
  Code.noexcept E.nothrowCopy <| do
    (if E.byteCopy then memmove dest first count
      else guarded dest (fun i => copyConstruct E (dest + i) (first + i)) count)
    pure (dest + count)

/-- A range whose end lies before its start is never walked to its end. -/
def uninitializedMove (E : Element α) (first last dest : Ptr) : Code (State α ρ) Ptr :=
  if first ≤ last then uninitializedMoveN E first (last - first) dest
  else Code.undefined .outside

def uninitializedCopy (E : Element α) (first last dest : Ptr) : Code (State α ρ) Ptr :=
  if first ≤ last then uninitializedCopyN E first (last - first) dest
  else Code.undefined .outside

def uninitializedFillN (E : Element α) (first : Ptr) (count : ℕ) (val : α) :
    Code (State α ρ) Ptr :=
  Code.noexcept E.nothrowFill <| do
    (if E.byteFill then memset first val count
      else guarded first (fun i => valueConstruct E (first + i) val) count)
    pure (first + count)

def uninitializedDefaultConstructN (E : Element α) (first : Ptr) (count : ℕ) :
    Code (State α ρ) Ptr :=
  Code.noexcept E.nothrowDefault <| do
    (if E.byteFill then memset first E.init count
      else guarded first (fun i => defaultConstruct E (first + i)) count)
    pure (first + count)

def uninitializedDefaultConstruct (E : Element α) (first last : Ptr) : Code (State α ρ) Ptr :=
  if first ≤ last then uninitializedDefaultConstructN E first (last - first)
  else Code.undefined .outside

/-- `copy_assign_n`, which is `noexcept` where copy construction is. -/
def copyAssignN (E : Element α) (first : Ptr) (count : ℕ) (dest : Ptr) :
    Code (State α ρ) Ptr :=
  Code.noexcept E.nothrowCopy <| do
    (if E.byteCopy then memmove dest first count
      else guarded dest (fun i => assignCopyOne E (dest + i) (first + i)) count)
    pure (dest + count)

/-- `move_assign_n`, which is `noexcept` where copy construction is. -/
def moveAssignN (E : Element α) (first : Ptr) (count : ℕ) (dest : Ptr) :
    Code (State α ρ) Ptr :=
  Code.noexcept E.nothrowCopy <| do
    (if E.byteCopy then memmove dest first count
      else guarded dest (fun i => assignMoveOne E (dest + i) (first + i)) count)
    pure (dest + count)

/-- `construct_at`, by a constructor that may throw or not; returns the slot after it. -/
def constructAt (throws : Bool) (p : Ptr) (v : α) : Code (State α ρ) Ptr :=
  Code.noexcept (!throws) <| do
    mayThrow throws
    construct p v
    pure (p + 1)

def destroyAt (p : Ptr) : Code (State α ρ) Ptr := do
  destroy p
  pure (p + 1)

end Definitions

/-! ### What the algorithms do -/

section Effects

variable {α ρ : Type} {s : State α ρ} {E : Element α}

lemma loadAll_run {src : Ptr} {n : ℕ} {vs : List α} (hw : s.mem.Wf) (hn : vs.length = n)
    (hsrc : ∀ i, i < n → s.mem.object (src + i) = vs[i]?) :
    loadAll src n s = .returned vs s := by
  induction n generalizing src vs with
  | zero =>
    rw [List.length_eq_zero_iff] at hn
    subst hn
    rfl
  | succ n ih =>
    cases vs with
    | nil => simp at hn
    | cons v vs =>
      have h0 : s.mem.object src = some v := by simpa [Ptr.add_zero] using hsrc 0 (by omega)
      have hrest : loadAll (src + 1) n s = .returned vs s := by
        refine ih (by simpa using hn) (fun i hi => ?_)
        rw [Ptr.add_add, Nat.add_comm 1 i, hsrc (i + 1) (by omega), List.getElem?_cons_succ]
      rw [loadAll, Code.bind_returned (read_run hw h0), Code.bind_returned hrest, Code.pure_run]

lemma storeAll_returns {dest : Ptr} (vs : List α)
    (hb : ∀ i, i < vs.length → s.mem.inBounds (dest + i) = true) :
    (storeAll dest vs).Returns s (fun _ s' =>
      s.Becomes 0 (overlay s.mem.object dest vs.length (fun i => vs[i]?)) s') := by
  induction vs generalizing s dest with
  | nil =>
    refine Code.Returns.pure ?_
    rw [List.length_nil, overlay_zero]
    exact State.Becomes.refl s
  | cons v vs ih =>
    refine (store_returns v (by simpa [Ptr.add_zero] using hb 0 (by simp))).bind ?_
    intro _ t ht
    refine (ih (fun i hi => ?_)).mono ?_
    · rw [ht.inBounds, Ptr.add_add, Nat.add_comm 1 i]
      exact hb (i + 1) (by simpa using hi)
    · intro _ t' ht'
      have hobj : overlay t.mem.object (dest + 1) vs.length (fun i => vs[i]?) =
          overlay s.mem.object dest (v :: vs).length (fun i => (v :: vs)[i]?) := by
        have hsplit := overlay_append s.mem.object dest 1 (fun i => (v :: vs)[i]?) vs.length
        rw [List.length_cons, Nat.add_comm vs.length 1, ← hsplit, ht.object]
        congr 1
        · rw [overlay_succ, overlay_zero]
          rfl
        · funext i
          rw [Nat.add_comm 1 i, List.getElem?_cons_succ]
      rw [hobj] at ht'
      exact ht.trans ht'

lemma memmove_returns {dest src : Ptr} {n : ℕ} (hw : s.mem.Wf)
    (hsrc : ∀ i, i < n → (s.mem.object (src + i)).isSome)
    (hb : ∀ i, i < n → s.mem.inBounds (dest + i) = true) :
    (memmove dest src n).Returns s (fun _ s' =>
      s.Becomes 0 (overlay s.mem.object dest n (fun i => s.mem.object (src + i))) s') := by
  let vs : List α := List.ofFn (fun i : Fin n => (s.mem.object (src + i.val)).get (hsrc i i.isLt))
  have hlen : vs.length = n := by simp [vs]
  have hvs : ∀ i, i < n → s.mem.object (src + i) = vs[i]? := by
    intro i hi
    simp [vs, hi]
  refine Code.Returns.step (loadAll_run hw hlen hvs) ?_
  refine (storeAll_returns vs (fun i hi => hb i (by omega))).mono ?_
  intro _ s' hs'
  rwa [hlen, ← overlay_congr _ _ hvs] at hs'

lemma memset_returns {dest : Ptr} {n : ℕ} (v : α)
    (hb : ∀ i, i < n → s.mem.inBounds (dest + i) = true) :
    (memset dest v n).Returns s (fun _ s' =>
      s.Becomes 0 (overlay s.mem.object dest n (fun _ => some v)) s') := by
  refine (storeAll_returns _ (by simpa using hb)).mono ?_
  intro _ s' hs'
  rw [List.length_replicate] at hs'
  rwa [overlay_congr (k := fun _ => some v) _ _ (fun i hi => by simp [hi])] at hs'

variable {first dest : Ptr} {n : ℕ}

lemma destroyAll_returns (hw : s.mem.Wf)
    (hlive : ∀ i, i < n → (s.mem.object (first + i)).isSome) :
    (destroyAll first n).Returns s (fun _ s' =>
      s.Becomes 0 (overlay s.mem.object first n (fun _ => none)) s') := by
  have hloop := Code.Returns.loop (fun i => destroy (α := α) (ρ := ρ) (first + i)) 0 n
    (fun k t => s.Becomes 0 (overlay s.mem.object first k (fun _ => none)) t)
    (by simpa using State.Becomes.refl s) (fun k t _ hk ht => ?_)
  · rwa [Nat.zero_add] at hloop
  · obtain ⟨v, hv⟩ := Option.isSome_iff_exists.mp (hlive k (by omega))
    have htv : t.mem.object (first + k) = some v := by
      rw [ht.object, overlay_outside (by simp), hv]
    refine (destroy_returns (ht.wf hw) htv).mono ?_
    intro _ t' ht'
    rw [overlay_succ, ← ht.object]
    exact ht.trans ht'

/-- A guarded loop whose objects are `F k` after `k` iterations. An exception in iteration `k`
costs the `k` objects treated so far. -/
lemma guarded_ends {body : ℕ → Code (State α ρ) Unit} {b : Bool} (F : ℕ → Ptr → Option α)
    (hw : s.mem.Wf) (hF : F 0 = s.mem.object)
    (hlive : ∀ k i, k < n → i < k → (F k (dest + i)).isSome)
    (hbody : ∀ k t, k < n → s.Alters (F k) t → t.mem.Wf → (body k).Ends t
      (fun _ t' => t.Becomes b.toNat (F (k + 1)) t')
      (fun t' => b = true ∧ t.Breaks 0 t.mem.object t')) :
    (guarded dest body n).Ends s (fun _ s' => s.Becomes (n * b.toNat) (F n) s')
      (fun s' => b = true ∧ ∃ k, k < n ∧ s.Breaks k (overlay (F k) dest k (fun _ => none)) s') := by
  have hloop := Code.Ends.loop (s := s) (fun i => (body i).onThrow (destroyAll dest i)) 0 n
    (R := fun s' => b = true ∧ ∃ k, k < n ∧
      s.Breaks k (overlay (F k) dest k (fun _ => none)) s')
    (fun k t => s.Becomes (k * b.toNat) (F k) t) ?_ ?_
  · rwa [Nat.zero_add] at hloop
  · rw [Nat.zero_mul, hF]
    exact State.Becomes.refl s
  · intro k t _ hk ht
    have hkn : k < n := by omega
    have hbo := hbody k t hkn ht.toAlters (ht.wf hw)
    refine Code.Ends.mono (hbo.onThrow (T := fun s' => b = true ∧ ∃ k, k < n ∧
      s.Breaks k (overlay (F k) dest k (fun _ => none)) s') ?_) ?_ (fun _ h => h)
    · rintro t' ⟨rfl, ht'⟩
      have hbreak := ht.breaks ht'
      simp only [Bool.toNat_true, Nat.mul_one, Nat.add_zero] at hbreak
      refine (destroyAll_returns (ht'.wf (ht.wf hw)) (fun i hi => ?_)).mono ?_
      · rw [ht'.object, ht.object]
        exact hlive k i hkn hi
      · intro _ t'' ht''
        rw [ht'.object, ht.object] at ht''
        exact ⟨rfl, k, hkn, hbreak.trans ht''⟩
    · intro _ t' ht'
      rw [Nat.add_mul, Nat.one_mul]
      exact ht.trans ht'

lemma fallible_ends {b : Bool} {x : Code (State α ρ) Unit} {g : Ptr → Option α}
    (h : ∀ t, s.Alters s.mem.object t → x.Returns t (fun _ t' => t.Becomes 0 g t')) :
    (mayThrow b >>= fun _ => x).Ends s (fun _ s' => s.Becomes b.toNat g s')
      (fun s' => b = true ∧ s.Breaks 0 s.mem.object s') := by
  refine (mayThrow_ends b s).bind (fun _ t ht => ?_)
  refine .of_returns ((h t ht.toAlters).mono ?_)
  intro _ t' ht'
  exact ht.trans ht'

lemma valueConstruct_ends {p : Ptr} (v : α) (hb : s.mem.inBounds p = true)
    (hraw : s.mem.object p = none) : (valueConstruct E p v).Ends s
      (fun _ s' => s.Becomes E.copyThrows.toNat (Function.update s.mem.object p (some v)) s')
      (fun s' => E.copyThrows = true ∧ s.Breaks 0 s.mem.object s') := by
  refine fallible_ends (fun t ht => ?_)
  rw [← ht.object]
  exact construct_returns v (by rw [ht.inBounds, hb]) (by rw [ht.object, hraw])

/-- The shape the algorithms share: one path copies bytes and cannot throw, the other treats
element after element. -/
lemma bulk_ends {c byte b : Bool} {x y : Code (State α ρ) Unit} {q : Ptr} {g : Ptr → Option α}
    {R : State α ρ → Prop}
    (hx : byte = true → x.Returns s (fun _ s' => s.Becomes 0 g s'))
    (hy : byte = false → y.Ends s (fun _ s' => s.Becomes (n * b.toNat) g s')
      (fun s' => b = true ∧ R s')) :
    (Code.noexcept c (do (if byte then x else y); pure q)).Ends s
      (fun r s' => r = q ∧ s.Becomes (n * (!(byte || !b)).toNat) g s')
      (fun s' => (byte || !b) = false ∧ R s') := by
  refine Code.Ends.noexcept ?_
  refine Code.Ends.bind (Q := fun _ s' => s.Becomes (n * (!(byte || !b)).toNat) g s') ?_
    (fun _ s' hs' => Code.Ends.pure ⟨rfl, hs'⟩)
  cases byte with
  | true => simpa using Code.Ends.of_returns (hx rfl)
  | false => simpa using hy rfl

lemma guardedFill_ends (v : α) (hw : s.mem.Wf)
    (hb : ∀ i, i < n → s.mem.inBounds (first + i) = true)
    (hraw : ∀ i, i < n → s.mem.object (first + i) = none) :
    (guarded first (fun i => valueConstruct E (first + i) v) n).Ends s
      (fun _ s' => s.Becomes (n * E.copyThrows.toNat)
        (overlay s.mem.object first n (fun _ => some v)) s')
      (fun s' => E.copyThrows = true ∧ ∃ k, k < n ∧ s.Breaks k s.mem.object s') := by
  refine (guarded_ends (fun k => overlay s.mem.object first k (fun _ => some v)) hw
    (overlay_zero _ _ _) (fun k i _ hi => ?_) (fun k t hk ht _ => ?_)).mono (fun _ _ h => h) ?_
  · rw [overlay_inside _ _ _ hi]
    rfl
  · rw [overlay_succ, ← ht.object]
    refine valueConstruct_ends v (by rw [ht.inBounds, hb k hk]) ?_
    rw [ht.object, overlay_outside (by simp), hraw k hk]
  · rintro s' ⟨hthrow, k, hk, hs'⟩
    rw [overlay_overlay, overlay_eq_self (fun i hi => hraw i (by omega))] at hs'
    exact ⟨hthrow, k, hk, hs'⟩

lemma uninitializedFillN_ends (v : α) (hw : s.mem.Wf)
    (hb : ∀ i, i < n → s.mem.inBounds (first + i) = true)
    (hraw : ∀ i, i < n → s.mem.object (first + i) = none) :
    (uninitializedFillN E first n v).Ends s
      (fun q s' => q = first + n ∧ s.Becomes (n * (!E.nothrowFill).toNat)
        (overlay s.mem.object first n (fun _ => some v)) s')
      (fun s' => E.nothrowFill = false ∧ ∃ k, k < n ∧ s.Breaks k s.mem.object s') :=
  bulk_ends (fun _ => memset_returns v hb) (fun _ => guardedFill_ends v hw hb hraw)

lemma guardedDefault_ends (hw : s.mem.Wf) (hb : ∀ i, i < n → s.mem.inBounds (first + i) = true)
    (hraw : ∀ i, i < n → s.mem.object (first + i) = none) :
    (guarded first (fun i => defaultConstruct E (first + i)) n).Ends s
      (fun _ s' => s.Becomes (n * E.defaultThrows.toNat)
        (overlay s.mem.object first n (fun _ => some E.init)) s')
      (fun s' => E.defaultThrows = true ∧ ∃ k, k < n ∧ s.Breaks k s.mem.object s') := by
  refine (guarded_ends (fun k => overlay s.mem.object first k (fun _ => some E.init)) hw
    (overlay_zero _ _ _) (fun k i _ hi => ?_) (fun k t hk ht _ => ?_)).mono (fun _ _ h => h) ?_
  · rw [overlay_inside _ _ _ hi]
    rfl
  · rw [overlay_succ, ← ht.object]
    refine fallible_ends (fun u hu => ?_)
    rw [← hu.object]
    refine construct_returns E.init (by rw [hu.inBounds, ht.inBounds, hb k hk]) ?_
    rw [hu.object, ht.object, overlay_outside (by simp), hraw k hk]
  · rintro s' ⟨hthrow, k, hk, hs'⟩
    rw [overlay_overlay, overlay_eq_self (fun i hi => hraw i (by omega))] at hs'
    exact ⟨hthrow, k, hk, hs'⟩

lemma uninitializedDefaultConstructN_ends (hw : s.mem.Wf)
    (hb : ∀ i, i < n → s.mem.inBounds (first + i) = true)
    (hraw : ∀ i, i < n → s.mem.object (first + i) = none) :
    (uninitializedDefaultConstructN E first n).Ends s
      (fun q s' => q = first + n ∧ s.Becomes (n * (!E.nothrowDefault).toNat)
        (overlay s.mem.object first n (fun _ => some E.init)) s')
      (fun s' => E.nothrowDefault = false ∧ ∃ k, k < n ∧ s.Breaks k s.mem.object s') :=
  bulk_ends (fun _ => memset_returns E.init hb) (fun _ => guardedDefault_ends hw hb hraw)

/-- The `n` slots from `first` on and those from `dest` on are different slots. -/
def Apart (first dest : Ptr) (n : ℕ) : Prop := ∀ i j, i < n → j < n → first + i ≠ dest + j

lemma Apart.of_block (h : first.block ≠ dest.block) : Apart first dest n :=
  fun _ _ _ _ he => h ((Ptr.ext_iff' _ _).mp he).1

lemma Apart.of_raw {f : Ptr → Option α} (hsrc : ∀ i, i < n → (f (first + i)).isSome)
    (hraw : ∀ i, i < n → f (dest + i) = none) : Apart first dest n := by
  intro i j hi hj he
  have hlive := hsrc i hi
  rw [he, hraw j hj] at hlive
  cases hlive

lemma guardedCopy_ends (hw : s.mem.Wf)
    (hsrc : ∀ i, i < n → (s.mem.object (first + i)).isSome)
    (hb : ∀ i, i < n → s.mem.inBounds (dest + i) = true)
    (hraw : ∀ i, i < n → s.mem.object (dest + i) = none) :
    (guarded dest (fun i => copyConstruct E (dest + i) (first + i)) n).Ends s
      (fun _ s' => s.Becomes (n * E.copyThrows.toNat)
        (overlay s.mem.object dest n (fun i => s.mem.object (first + i))) s')
      (fun s' => E.copyThrows = true ∧ ∃ k, k < n ∧ s.Breaks k s.mem.object s') := by
  refine (guarded_ends
    (fun k => overlay s.mem.object dest k (fun i => s.mem.object (first + i))) hw
    (overlay_zero _ _ _) (fun k i hk hi => ?_) (fun k t hk ht htw => ?_)).mono (fun _ _ h => h) ?_
  · rw [overlay_inside _ _ _ hi]
    exact hsrc i (by omega)
  · obtain ⟨v, hv⟩ := Option.isSome_iff_exists.mp (hsrc k hk)
    have htv : t.mem.object (first + k) = some v := by
      rw [ht.object, overlay_of_ne (fun j hj => Apart.of_raw hsrc hraw k j hk (by omega)), hv]
    refine Code.Ends.step (read_run htw htv) ?_
    rw [overlay_succ, ← ht.object, hv]
    refine valueConstruct_ends v (by rw [ht.inBounds, hb k hk]) ?_
    rw [ht.object, overlay_outside (by simp), hraw k hk]
  · rintro s' ⟨hthrow, k, hk, hs'⟩
    rw [overlay_overlay, overlay_eq_self (fun i hi => hraw i (by omega))] at hs'
    exact ⟨hthrow, k, hk, hs'⟩

lemma uninitializedCopyN_ends (hw : s.mem.Wf)
    (hsrc : ∀ i, i < n → (s.mem.object (first + i)).isSome)
    (hb : ∀ i, i < n → s.mem.inBounds (dest + i) = true)
    (hraw : ∀ i, i < n → s.mem.object (dest + i) = none) :
    (uninitializedCopyN E first n dest).Ends s
      (fun q s' => q = dest + n ∧ s.Becomes (n * (!E.nothrowCopy).toNat)
        (overlay s.mem.object dest n (fun i => s.mem.object (first + i))) s')
      (fun s' => E.nothrowCopy = false ∧ ∃ k, k < n ∧ s.Breaks k s.mem.object s') :=
  bulk_ends (fun _ => memmove_returns hw hsrc hb) (fun _ => guardedCopy_ends hw hsrc hb hraw)

lemma assignCopyOne_ends {t : State α ρ} {k : ℕ} (hdiff : first.block ≠ dest.block)
    (hsrc : (s.mem.object (first + k)).isSome) (hlive : (s.mem.object (dest + k)).isSome)
    (ht : s.Alters (overlay s.mem.object dest k (fun i => s.mem.object (first + i))) t)
    (htw : t.mem.Wf) :
    (assignCopyOne E (dest + k) (first + k)).Ends t
      (fun _ t' => t.Becomes E.copyAssignThrows.toNat
        (overlay s.mem.object dest (k + 1) (fun i => s.mem.object (first + i))) t')
      (fun t' => E.copyAssignThrows = true ∧ t.Breaks 0 t.mem.object t') := by
  obtain ⟨v, hv⟩ := Option.isSome_iff_exists.mp hsrc
  obtain ⟨w, hdw⟩ := Option.isSome_iff_exists.mp hlive
  have htv : t.mem.object (first + k) = some v := by
    rw [ht.object, overlay_other (by simpa using hdiff), hv]
  refine Code.Ends.step (read_run htw htv) ?_
  rw [overlay_succ, ← ht.object, hv]
  refine fallible_ends (fun u hu => ?_)
  rw [← hu.object]
  refine assign_returns v (hu.wf htw) (v := w) ?_
  rw [hu.object, ht.object, overlay_outside (by simp), hdw]

/-- An exception in the middle leaves the elements assigned before it destroyed. -/
lemma copyAssignN_ends (hw : s.mem.Wf) (hdiff : first.block ≠ dest.block)
    (hsrc : ∀ i, i < n → (s.mem.object (first + i)).isSome)
    (hlive : ∀ i, i < n → (s.mem.object (dest + i)).isSome) :
    (copyAssignN E first n dest).Ends s
      (fun q s' => q = dest + n ∧ s.Becomes (n * (!E.nothrowCopyAssign).toNat)
        (overlay s.mem.object dest n (fun i => s.mem.object (first + i))) s')
      (fun s' => E.nothrowCopyAssign = false ∧ ∃ k, k < n ∧
        s.Breaks k (overlay s.mem.object dest k (fun _ => none)) s') := by
  refine bulk_ends (fun _ => memmove_returns hw hsrc (fun i hi => hw.bounds _ (hlive i hi)))
    (fun _ => ?_)
  refine (guarded_ends
    (fun k => overlay s.mem.object dest k (fun i => s.mem.object (first + i))) hw
    (overlay_zero _ _ _) (fun k i hk hi => ?_) (fun k t hk ht htw =>
      assignCopyOne_ends hdiff (hsrc k hk) (hlive k hk) ht htw)).mono (fun _ _ h => h) ?_
  · rw [overlay_inside _ _ _ hi]
    exact hsrc i (by omega)
  · rintro s' ⟨hthrow, k, hk, hs'⟩
    rw [overlay_overlay] at hs'
    exact ⟨hthrow, k, hk, hs'⟩

/-- The objects after the range from `first` on was moved to `dest`. -/
def moveOverlay (E : Element α) (f : Ptr → Option α) (first dest : Ptr) (n : ℕ) : Ptr → Option α :=
  overlay (overlay f dest n (fun i => f (first + i))) first n
    (fun i => (f (first + i)).map E.movedFrom)

lemma moveOverlay_byteCopy (hbyte : E.byteCopy = true) {f : Ptr → Option α}
    (hapart : Apart first dest n) :
    moveOverlay E f first dest n = overlay f dest n (fun i => f (first + i)) := by
  refine overlay_eq_self (fun i hi => ?_)
  rw [overlay_of_ne (fun j hj => hapart i j hi hj), E.byteCopy_movedFrom hbyte, Option.map_id, id]

lemma moveOverlay_succ {f : Ptr → Option α} (hapart : Apart first dest (n + 1)) {v : α}
    (hv : f (first + n) = some v) :
    moveOverlay E f first dest (n + 1) =
      Function.update (Function.update (moveOverlay E f first dest n) (dest + n) (some v))
        (first + n) (some (E.movedFrom v)) := by
  have hcomm : Function.update (moveOverlay E f first dest n) (dest + n) (some v) =
      overlay (overlay f dest (n + 1) (fun i => f (first + i))) first n
        (fun i => (f (first + i)).map E.movedFrom) := by
    funext q
    rw [overlay_succ]
    by_cases hq : q = dest + n
    · subst hq
      rw [Function.update_self,
        overlay_of_ne (fun j hj => (hapart j n (by omega) (by omega)).symm), Function.update_self, hv]
    · simp only [moveOverlay, overlay, Function.update_of_ne hq]
  rw [hcomm, moveOverlay, overlay_succ, hv]
  rfl

/-- From the objects `f` to `g` the `n` elements from `first` on were moved to `dest`. What they
left behind is alive. -/
structure Moved (f g : Ptr → Option α) (first dest : Ptr) (n : ℕ) : Prop where
  moved : ∀ i, i < n → g (dest + i) = f (first + i)
  rest : ∀ i, n ≤ i → g (first + i) = f (first + i)
  live : ∀ p, p.block = first.block → (g p).isSome = (f p).isSome
  far : ∀ p, p.block ≠ first.block →
    ¬(p.block = dest.block ∧ dest.off ≤ p.off ∧ p.off < dest.off + n) → g p = f p

lemma moveOverlay_moved {f : Ptr → Option α} (hdiff : first.block ≠ dest.block) :
    Moved f (moveOverlay E f first dest n) first dest n where
  moved i hi := by
    rw [moveOverlay, overlay_other (by simpa using hdiff.symm), overlay_inside _ _ _ hi]
  rest i hi := by
    rw [moveOverlay, overlay_outside (by simp only [Ptr.add_off]; omega),
      overlay_other (by simpa using hdiff)]
  live p hp := by
    have hcopy : ∀ i : ℕ, (f (first + i)).map E.movedFrom =
        (overlay f dest n (fun i => f (first + i)) (first + i)).map E.movedFrom :=
      fun i => by rw [overlay_other (by simpa using hdiff)]
    rw [moveOverlay, overlay_congr _ _ (fun i _ => hcopy i), overlay_map_isSome,
      overlay_other (by rwa [hp])]
  far p hp hout := by
    rw [moveOverlay, overlay_other hp, overlay_outside hout]

lemma Moved.trans {f g h : Ptr → Option α} {m : ℕ} (hdiff : first.block ≠ dest.block)
    (hf : Moved f g first dest m)
    (hg : Moved g h (first + m) (dest + m) n) : Moved f h first dest (m + n) where
  moved i hi := by
    by_cases him : i < m
    · rw [hg.far _ (by simpa using hdiff.symm) (by simp only [Ptr.add_off]; omega), hf.moved i him]
    · have hlast := hg.moved (i - m) (by omega)
      rw [Ptr.add_add, Ptr.add_add, Nat.add_sub_cancel' (by omega)] at hlast
      rw [hlast, hf.rest i (by omega)]
  rest i hi := by
    have hlast := hg.rest (i - m) (by omega)
    rw [Ptr.add_add, Nat.add_sub_cancel' (by omega)] at hlast
    rw [hlast, hf.rest i (by omega)]
  live p hp := (hg.live p hp).trans (hf.live p hp)
  far p hp hout := by
    have hoff : (dest + m).off = dest.off + m := rfl
    rw [hg.far p hp (fun hin => hout ⟨hin.1, by omega, by omega⟩),
      hf.far p hp (fun hin => hout ⟨hin.1, by omega, by omega⟩)]

lemma moveOverlay_destroyed {f : Ptr → Option α} {k : ℕ} (hapart : Apart first dest k)
    (hraw : ∀ i, i < k → f (dest + i) = none) :
    overlay (moveOverlay E f first dest k) dest k (fun _ => none) =
      overlay f first k (fun i => (f (first + i)).map E.movedFrom) := by
  funext q
  by_cases hq : ∃ i, i < k ∧ q = dest + i
  · obtain ⟨i, hi, rfl⟩ := hq
    rw [overlay_inside _ _ _ hi, overlay_of_ne (fun j hj => (hapart j i hj hi).symm), hraw i hi]
  · have hout : ∀ i, i < k → q ≠ dest + i := fun i hi he => hq ⟨i, hi, he⟩
    rw [overlay_of_ne hout, moveOverlay]
    by_cases hin : q.block = first.block ∧ first.off ≤ q.off ∧ q.off < first.off + k
    · simp only [overlay, if_pos hin]
    · rw [overlay_outside hin, overlay_outside hin, overlay_of_ne hout]

lemma guardedMove_ends (hw : s.mem.Wf)
    (hsrc : ∀ i, i < n → (s.mem.object (first + i)).isSome)
    (hb : ∀ i, i < n → s.mem.inBounds (dest + i) = true)
    (hraw : ∀ i, i < n → s.mem.object (dest + i) = none) :
    (guarded dest (fun i => moveConstruct E (dest + i) (first + i)) n).Ends s
      (fun _ s' => s.Becomes (n * E.moveThrows.toNat)
        (moveOverlay E s.mem.object first dest n) s')
      (fun s' => E.moveThrows = true ∧ ∃ k, k < n ∧ s.Breaks k
        (overlay s.mem.object first k (fun i => (s.mem.object (first + i)).map E.movedFrom)) s') := by
  have hapart : Apart first dest n := .of_raw hsrc hraw
  refine (guarded_ends (fun k => moveOverlay E s.mem.object first dest k) hw ?_
    (fun k i hk hi => ?_) (fun k t hk ht htw => ?_)).mono (fun _ _ h => h) ?_
  · simp only [moveOverlay, overlay_zero]
  · rw [moveOverlay, overlay_of_ne (fun j hj => (hapart j i (by omega) (by omega)).symm),
      overlay_inside _ _ _ hi]
    exact hsrc i (by omega)
  · obtain ⟨v, hv⟩ := Option.isSome_iff_exists.mp (hsrc k hk)
    have htv : t.mem.object (first + k) = some v := by
      rw [ht.object, moveOverlay, overlay_outside (by simp),
        overlay_of_ne (fun j hj => hapart k j hk (by omega)), hv]
    have htraw : t.mem.object (dest + k) = none := by
      rw [ht.object, moveOverlay, overlay_of_ne (fun j hj => (hapart j k (by omega) hk).symm),
        overlay_outside (by simp), hraw k hk]
    refine Code.Ends.step (read_run htw htv) ?_
    rw [moveOverlay_succ (fun i j hi hj => hapart i j (by omega) (by omega)) hv, ← ht.object]
    refine fallible_ends (fun u hu => ?_)
    rw [← hu.object]
    refine (construct_returns v (by rw [hu.inBounds, ht.inBounds, hb k hk])
      (by rw [hu.object, htraw])).bind ?_
    intro _ u' hu'
    have huv : u'.mem.object (first + k) = some v := by
      rw [hu'.object, Function.update_of_ne (hapart k k hk hk), hu.object, htv]
    refine (assign_returns (E.movedFrom v) (hu'.wf (hu.wf htw)) huv).mono ?_
    intro _ u'' hu''
    rw [hu'.object] at hu''
    exact hu'.trans hu''
  · rintro s' ⟨hthrow, k, hk, hs'⟩
    refine ⟨hthrow, k, hk, ?_⟩
    rwa [moveOverlay_destroyed (fun i j hi hj => hapart i j (by omega) (by omega))
      (fun i hi => hraw i (by omega))] at hs'

lemma uninitializedMoveN_ends (hw : s.mem.Wf)
    (hsrc : ∀ i, i < n → (s.mem.object (first + i)).isSome)
    (hb : ∀ i, i < n → s.mem.inBounds (dest + i) = true)
    (hraw : ∀ i, i < n → s.mem.object (dest + i) = none) :
    (uninitializedMoveN E first n dest).Ends s
      (fun q s' => q = dest + n ∧ s.Becomes (n * (!E.nothrowMove).toNat)
        (moveOverlay E s.mem.object first dest n) s')
      (fun s' => E.nothrowMove = false ∧ ∃ k, k < n ∧ s.Breaks k
        (overlay s.mem.object first k (fun i => (s.mem.object (first + i)).map E.movedFrom)) s') := by
  refine bulk_ends (fun hbyte => ?_) (fun _ => guardedMove_ends hw hsrc hb hraw)
  rw [moveOverlay_byteCopy hbyte (.of_raw hsrc hraw)]
  exact memmove_returns hw hsrc hb

/-- The type, with its moves replaced by move assignments. -/
def Element.assigning (E : Element α) : Element α :=
  { E with
    movedFrom := E.moveAssignedFrom
    byteCopy_movedFrom := E.byteCopy_moveAssignedFrom }

lemma assignMoveOne_ends {t : State α ρ} {k : ℕ} (hdiff : first.block ≠ dest.block)
    (hsrc : (s.mem.object (first + k)).isSome) (hlive : (s.mem.object (dest + k)).isSome)
    (ht : s.Alters (moveOverlay E.assigning s.mem.object first dest k) t) (htw : t.mem.Wf) :
    (assignMoveOne E (dest + k) (first + k)).Ends t
      (fun _ t' => t.Becomes E.moveAssignThrows.toNat
        (moveOverlay E.assigning s.mem.object first dest (k + 1)) t')
      (fun t' => E.moveAssignThrows = true ∧ t.Breaks 0 t.mem.object t') := by
  obtain ⟨v, hv⟩ := Option.isSome_iff_exists.mp hsrc
  obtain ⟨w, hdw⟩ := Option.isSome_iff_exists.mp hlive
  have htv : t.mem.object (first + k) = some v := by
    rw [ht.object, moveOverlay, overlay_outside (by simp), overlay_other (by simpa using hdiff), hv]
  have htw' : t.mem.object (dest + k) = some w := by
    rw [ht.object, moveOverlay, overlay_other (by simpa using hdiff.symm),
      overlay_outside (by simp), hdw]
  refine Code.Ends.step (read_run htw htv) ?_
  rw [moveOverlay_succ (.of_block hdiff) hv, ← ht.object]
  refine fallible_ends (fun u hu => ?_)
  rw [← hu.object]
  refine (assign_returns v (hu.wf htw) (v := w) (by rw [hu.object, htw'])).bind ?_
  intro _ u' hu'
  have huv : u'.mem.object (first + k) = some v := by
    rw [hu'.object, Function.update_of_ne, hu.object, htv]
    exact fun he => hdiff (by simpa using congrArg Ptr.block he)
  refine (assign_returns (E.moveAssignedFrom v) (hu'.wf (hu.wf htw)) huv).mono ?_
  intro _ u'' hu''
  rw [hu'.object] at hu''
  exact hu'.trans hu''

/-- An exception in the middle leaves the elements assigned before it destroyed. -/
lemma moveAssignN_ends (hw : s.mem.Wf) (hdiff : first.block ≠ dest.block)
    (hsrc : ∀ i, i < n → (s.mem.object (first + i)).isSome)
    (hlive : ∀ i, i < n → (s.mem.object (dest + i)).isSome) :
    (moveAssignN E first n dest).Ends s
      (fun q s' => q = dest + n ∧ s.Becomes (n * (!(E.byteCopy || !E.moveAssignThrows)).toNat)
        (moveOverlay E.assigning s.mem.object first dest n) s')
      (fun s' => (E.byteCopy || !E.moveAssignThrows) = false ∧ ∃ k, k < n ∧ s.Breaks k
        (overlay (moveOverlay E.assigning s.mem.object first dest k) dest k (fun _ => none)) s') := by
  refine bulk_ends (fun hbyte => ?_) (fun _ => ?_)
  · rw [moveOverlay_byteCopy (E := E.assigning) hbyte (.of_block hdiff)]
    exact memmove_returns hw hsrc (fun i hi => hw.bounds _ (hlive i hi))
  refine guarded_ends (fun k => moveOverlay E.assigning s.mem.object first dest k) hw ?_
    (fun k i hk hi => ?_) (fun k t hk ht htw =>
      assignMoveOne_ends hdiff (hsrc k hk) (hlive k hk) ht htw)
  · simp only [moveOverlay, overlay_zero]
  · rw [moveOverlay, overlay_other (by simpa using hdiff.symm), overlay_inside _ _ _ hi]
    exact hsrc i (by omega)

end Effects

end Voxory
