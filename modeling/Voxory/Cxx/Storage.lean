import Voxory.Cxx.Code
import Voxory.Cxx.Trace

/-!
# Raw storage and object lifetimes

A memory hands out blocks of slots. A slot of an allocated block is raw or holds a live
object; reading, assigning and destroying need a live object, and every access needs an
allocated block. Constructing over a live object and releasing a block with live objects in
it are not undefined behaviour: they lose objects, which the trace shows.

The environment decides which fallible operation fails: `fuse = some k` lets `k` of them
succeed before one throws, `none` lets none throw. `nullOnZero` says whether the allocator
answers a request for no slots with the null pointer or with a block of its own.
-/

namespace Cxx

structure Memory (α : Type) where
  fresh : ℕ
  extent : ℕ → Option ℕ
  object : Ptr → Option α
  trace : List Event
  fuse : Option ℕ
  nullOnZero : Bool

/-- The state a member function runs on: the memory and the fields of its own object. -/
structure State (α ρ : Type) where
  mem : Memory α
  self : ρ

namespace Memory

variable {α : Type}

/-- No block is allocated and nothing has happened. -/
def empty (fuse : Option ℕ) (nullOnZero : Bool) : Memory α where
  fresh := 0
  extent _ := none
  object _ := none
  trace := []
  fuse := fuse
  nullOnZero := nullOnZero

def inBounds (m : Memory α) (p : Ptr) : Bool :=
  match p.block.bind m.extent with
  | some n => decide (p.off < n)
  | none => false

def put (m : Memory α) (p : Ptr) (c : Option α) : Memory α :=
  { m with object := Function.update m.object p c }

def log (m : Memory α) (e : Event) : Memory α :=
  { m with trace := e :: m.trace }

/-- The block of `p` is gone, with every object that was still in it. -/
def release (m : Memory α) (p : Ptr) (n : ℕ) : Memory α :=
  { m with
    extent := fun b => if p.block = some b then none else m.extent b
    object := fun q => if q.block = p.block then none else m.object q
    trace := .deallocate p n :: m.trace }

/-- Objects live in allocated blocks, and unused block numbers are not allocated. -/
structure Wf (m : Memory α) : Prop where
  fresh : ∀ b, m.fresh ≤ b → m.extent b = none
  bounds : ∀ p, (m.object p).isSome → m.inBounds p = true

/-- The trace so far is in order: the objects alive are those constructed and not yet
destroyed, and the allocated blocks are outstanding allocations of their size. -/
structure Tidy (m : Memory α) : Prop where
  lifetimes : ∀ p, lifetime p m.trace = some (m.object p).isSome
  blocks : ∃ l, outstanding m.trace = some l ∧
    ∀ b n, m.extent b = some n → ((⟨some b, 0⟩ : Ptr), n) ∈ l

lemma inBounds_iff {m : Memory α} {p : Ptr} :
    m.inBounds p = true ↔ ∃ b n, p.block = some b ∧ m.extent b = some n ∧ p.off < n := by
  unfold inBounds
  cases hb : p.block with
  | none => simp
  | some b => cases he : m.extent b <;> simp [he]

lemma Wf.object_none {m : Memory α} (h : m.Wf) {p : Ptr} (hp : ¬m.inBounds p = true) :
    m.object p = none := by
  by_contra hn
  exact hp (h.bounds p (Option.isSome_iff_ne_none.mpr hn))

lemma empty_wf (fuse : Option ℕ) (z : Bool) : (empty fuse z : Memory α).Wf :=
  ⟨fun _ _ => rfl, fun _ h => by simp [empty] at h⟩

lemma empty_tidy (fuse : Option ℕ) (z : Bool) : (empty fuse z : Memory α).Tidy :=
  ⟨fun _ => rfl, [], rfl, fun _ _ h => by simp [empty] at h⟩

end Memory

/-! ### The primitive operations -/

section Primitives

variable {α ρ : Type}

/-- The fields of the object whose member function runs. -/
def self : Code (State α ρ) ρ := fun s => .returned s.self s

def setSelf (r : ρ) : Code (State α ρ) Unit := fun s => .returned () { s with self := r }

/-- A point where an operation that is not `noexcept` may throw. -/
def mayThrow (fallible : Bool) : Code (State α ρ) Unit := fun s =>
  if fallible then
    match s.mem.fuse with
    | none => .returned () s
    | some 0 => .threw { s with mem := { s.mem with fuse := none } }
    | some (k + 1) => .returned () { s with mem := { s.mem with fuse := some k } }
  else .returned () s

/-- Hands out a new block of `n` raw slots. -/
def takeBlock (n : ℕ) : Code (State α ρ) Ptr := fun s =>
  if n = 0 ∧ s.mem.nullOnZero = true then
    .returned .null { s with mem := s.mem.log (.allocate .null 0) }
  else
    .returned ⟨some s.mem.fresh, 0⟩ { s with mem := { s.mem with
      fresh := s.mem.fresh + 1
      extent := Function.update s.mem.extent s.mem.fresh (some n)
      trace := .allocate ⟨some s.mem.fresh, 0⟩ n :: s.mem.trace } }

def allocate (n : ℕ) : Code (State α ρ) Ptr := do
  mayThrow true
  takeBlock n

def deallocate (p : Ptr) (n : ℕ) : Code (State α ρ) Unit := fun s =>
  .returned () { s with mem := s.mem.release p n }

/-- Begins the lifetime of an object with value `v`. -/
def construct (p : Ptr) (v : α) : Code (State α ρ) Unit := fun s =>
  if s.mem.inBounds p then
    .returned () { s with mem := (s.mem.put p (some v)).log (.construct p) }
  else .fault .outside

def read (p : Ptr) : Code (State α ρ) α := fun s =>
  if s.mem.inBounds p then
    match s.mem.object p with
    | some v => .returned v s
    | none => .fault .dead
  else .fault .outside

/-- Gives a live object a new value. -/
def assign (p : Ptr) (v : α) : Code (State α ρ) Unit := fun s =>
  if s.mem.inBounds p then
    match s.mem.object p with
    | some _ => .returned () { s with mem := s.mem.put p (some v) }
    | none => .fault .dead
  else .fault .outside

def destroy (p : Ptr) : Code (State α ρ) Unit := fun s =>
  if s.mem.inBounds p then
    match s.mem.object p with
    | some _ => .returned () { s with mem := (s.mem.put p none).log (.destroy p) }
    | none => .fault .dead
  else .fault .outside

/-- Copies the bytes of an object of value `v` into a slot; in a raw slot this begins a lifetime. -/
def store (p : Ptr) (v : α) : Code (State α ρ) Unit := fun s =>
  if s.mem.inBounds p then
    match s.mem.object p with
    | some _ => .returned () { s with mem := s.mem.put p (some v) }
    | none => .returned () { s with mem := (s.mem.put p (some v)).log (.construct p) }
  else .fault .outside

lemma mayThrow_mild (b : Bool) : (mayThrow b : Code (State α ρ) Unit).Mild := by
  intro s
  cases b with
  | false => exact fun h => nomatch h
  | true =>
    rw [mayThrow, if_pos rfl]
    cases s.mem.fuse with
    | none => exact fun h => nomatch h
    | some k => cases k <;> exact fun h => nomatch h

lemma allocate_mild (n : ℕ) : (allocate n : Code (State α ρ) Ptr).Mild := by
  refine (mayThrow_mild true).bind (fun _ s => ?_)
  rw [takeBlock]
  split_ifs <;> exact fun h => nomatch h

lemma construct_mild (p : Ptr) (v : α) : (construct p v : Code (State α ρ) Unit).Mild := by
  intro s
  rw [construct]
  split_ifs <;> exact fun h => nomatch h

lemma read_mild (p : Ptr) : (read p : Code (State α ρ) α).Mild := by
  intro s
  rw [read]
  split_ifs
  · cases s.mem.object p <;> exact fun h => nomatch h
  · exact fun h => nomatch h

lemma assign_mild (p : Ptr) (v : α) : (assign p v : Code (State α ρ) Unit).Mild := by
  intro s
  rw [assign]
  split_ifs
  · cases s.mem.object p <;> exact fun h => nomatch h
  · exact fun h => nomatch h

lemma self_mild : (self : Code (State α ρ) ρ).Mild := fun _ h => nomatch h

lemma setSelf_mild (r : ρ) : (setSelf r : Code (State α ρ) Unit).Mild := fun _ h => nomatch h

lemma self_nothrow : (self : Code (State α ρ) ρ).Nothrow := fun _ _ h => by cases h

lemma setSelf_nothrow (r : ρ) : (setSelf r : Code (State α ρ) Unit).Nothrow :=
  fun _ _ h => by cases h

lemma deallocate_nothrow (p : Ptr) (n : ℕ) : (deallocate p n : Code (State α ρ) Unit).Nothrow :=
  fun _ _ h => by cases h

lemma read_nothrow (p : Ptr) : (read p : Code (State α ρ) α).Nothrow := by
  intro s s' h
  rw [read] at h
  split_ifs at h
  cases hp : s.mem.object p <;> simp only [hp] at h <;> cases h

lemma assign_nothrow (p : Ptr) (v : α) : (assign p v : Code (State α ρ) Unit).Nothrow := by
  intro s s' h
  rw [assign] at h
  split_ifs at h
  cases hp : s.mem.object p <;> simp only [hp] at h <;> cases h

lemma destroy_nothrow (p : Ptr) : (destroy p : Code (State α ρ) Unit).Nothrow := by
  intro s s' h
  rw [destroy] at h
  split_ifs at h
  cases hp : s.mem.object p <;> simp only [hp] at h <;> cases h

end Primitives

/-! ### Ranges of slots -/

section Ranges

variable {α : Type}

/-- The objects `f`, with the `n` slots from `p` on replaced by `g 0`, `g 1`, … -/
def overlay (f : Ptr → Option α) (p : Ptr) (n : ℕ) (g : ℕ → Option α) : Ptr → Option α := fun q =>
  if q.block = p.block ∧ p.off ≤ q.off ∧ q.off < p.off + n then g (q.off - p.off) else f q

variable (f : Ptr → Option α) (p : Ptr) (n : ℕ) (g : ℕ → Option α)

@[simp] lemma overlay_zero : overlay f p 0 g = f := by
  funext q
  simp only [overlay]
  rw [if_neg (by omega)]

lemma overlay_succ : overlay f p (n + 1) g = Function.update (overlay f p n g) (p + n) (g n) := by
  funext q
  by_cases hq : q = p + n
  · subst hq
    simp [overlay]
  · rw [Function.update_of_ne hq]
    have hne : ¬(q.block = p.block ∧ q.off = p.off + n) := fun h =>
      hq ((Ptr.ext_iff' q (p + n)).mpr h)
    simp only [overlay]
    by_cases hin : q.block = p.block ∧ p.off ≤ q.off ∧ q.off < p.off + n
    · rw [if_pos hin, if_pos ⟨hin.1, hin.2.1, by omega⟩]
    · rw [if_neg hin, if_neg (fun h => hin ⟨h.1, h.2.1, by
        have : q.off ≠ p.off + n := fun he => hne ⟨h.1, he⟩
        omega⟩)]

variable {n} in
lemma overlay_inside {i : ℕ} (hi : i < n) : overlay f p n g (p + i) = g i := by
  simp [overlay, hi]

variable {f p n g} in
lemma overlay_outside {q : Ptr} (h : ¬(q.block = p.block ∧ p.off ≤ q.off ∧ q.off < p.off + n)) :
    overlay f p n g q = f q := by
  simp only [overlay, if_neg h]

variable {f p n g} in
lemma overlay_other {q : Ptr} (h : q.block ≠ p.block) : overlay f p n g q = f q :=
  overlay_outside (fun hq => h hq.1)

variable {f p n g} in
lemma overlay_of_ne {q : Ptr} (h : ∀ i, i < n → q ≠ p + i) : overlay f p n g q = f q := by
  refine overlay_outside (fun hq => h (q.off - p.off) (by omega) ?_)
  rw [Ptr.ext_iff']
  exact ⟨hq.1, by simp only [Ptr.add_off]; omega⟩

lemma overlay_append (m : ℕ) :
    overlay (overlay f p n g) (p + n) m (fun i => g (n + i)) = overlay f p (n + m) g := by
  induction m with
  | zero => rw [overlay_zero, Nat.add_zero]
  | succ m ih => rw [overlay_succ, ih, ← Nat.add_assoc, overlay_succ, Ptr.add_add]

lemma overlay_overlay (g' : ℕ → Option α) : overlay (overlay f p n g) p n g' = overlay f p n g' := by
  funext q
  by_cases hq : q.block = p.block ∧ p.off ≤ q.off ∧ q.off < p.off + n
  · simp only [overlay, if_pos hq]
  · rw [overlay_outside hq, overlay_outside hq, overlay_outside hq]

variable {f p n g} in
lemma overlay_eq_self (h : ∀ i, i < n → f (p + i) = g i) : overlay f p n g = f := by
  funext q
  by_cases hq : q.block = p.block ∧ p.off ≤ q.off ∧ q.off < p.off + n
  · simp only [overlay, if_pos hq]
    rw [← h _ (by omega)]
    congr 1
    rw [Ptr.ext_iff']
    exact ⟨hq.1.symm, by simp only [Ptr.add_off]; omega⟩
  · exact overlay_outside hq

variable {n g} in
lemma overlay_congr {k : ℕ → Option α} (h : ∀ i, i < n → g i = k i) :
    overlay f p n g = overlay f p n k := by
  funext q
  simp only [overlay]
  split_ifs with hq
  · exact h _ (by omega)
  · rfl

lemma overlay_map_isSome (φ : α → α) (q : Ptr) :
    (overlay f p n (fun i => (f (p + i)).map φ) q).isSome = (f q).isSome := by
  by_cases hin : q.block = p.block ∧ p.off ≤ q.off ∧ q.off < p.off + n
  · have hq : q = p + (q.off - p.off) := by
      rw [Ptr.ext_iff']
      exact ⟨hin.1, by simp only [Ptr.add_off]; omega⟩
    rw [hq, overlay_inside _ _ _ (by omega), Option.isSome_map]
  · rw [overlay_outside hin]

end Ranges

/-! ### What the primitive operations do -/

/-- `c` fallible operations succeeded between the fuses `f` and `f'`. -/
def Spent (c : ℕ) (f f' : Option ℕ) : Prop := (∀ k, f = some k → c ≤ k) ∧ f' = f.map (· - c)

namespace Spent

variable {c d : ℕ} {f f' f'' : Option ℕ}

lemma refl (f : Option ℕ) : Spent 0 f f := by
  cases f <;> simp [Spent]

lemma trans (h : Spent c f f') (h' : Spent d f' f'') : Spent (c + d) f f'' := by
  obtain ⟨hc, rfl⟩ := h
  obtain ⟨hd, rfl⟩ := h'
  cases f with
  | none => simp [Spent]
  | some k =>
    have hck := hc k rfl
    have hdk := hd (k - c) rfl
    refine ⟨fun j hj => ?_, ?_⟩
    · cases hj
      omega
    · simp only [Option.map_some, Option.some.injEq]
      omega

lemma blown {k : ℕ} (h : Spent c f f') (hk : f' = some k) : f = some (c + k) := by
  obtain ⟨hc, rfl⟩ := h
  cases f with
  | none => cases hk
  | some j =>
    have hcj := hc j rfl
    simp only [Option.map_some, Option.some.injEq] at hk ⊢
    omega

end Spent

section Effects

variable {α ρ : Type}

/-- Between `s` and `s'` the fields and the blocks stayed, and the objects are now `f`. -/
structure State.Alters (s : State α ρ) (f : Ptr → Option α) (s' : State α ρ) : Prop where
  self : s'.self = s.self
  object : s'.mem.object = f
  extent : s'.mem.extent = s.mem.extent
  fresh : s.mem.fresh ≤ s'.mem.fresh
  nullOnZero : s'.mem.nullOnZero = s.mem.nullOnZero
  wf : s.mem.Wf → s'.mem.Wf

/-- Between `s` and `s'` the objects became `f`, in order and after `c` fallible operations. -/
structure State.Becomes (s : State α ρ) (c : ℕ) (f : Ptr → Option α) (s' : State α ρ) : Prop
    extends s.Alters f s' where
  spent : Spent c s.mem.fuse s'.mem.fuse
  tidy : s.mem.Tidy → s'.mem.Tidy

/-- Between `s` and `s'` the `k`-th fallible operation threw, and the objects are now `f`. -/
structure State.Breaks (s : State α ρ) (k : ℕ) (f : Ptr → Option α) (s' : State α ρ) : Prop
    extends s.Alters f s' where
  blown : s.mem.fuse = some k
  tidy : s.mem.Tidy → s'.mem.Tidy

/-- Between `s` and `s'` a request for `n` slots was answered with `p`, after `c` fallible
operations. -/
structure State.Allocates (s : State α ρ) (c n : ℕ) (p : Ptr) (s' : State α ρ) : Prop where
  self : s'.self = s.self
  object : s'.mem.object = s.mem.object
  answer : (p = .null ∧ n = 0 ∧ s.mem.nullOnZero = true ∧ s'.mem.extent = s.mem.extent) ∨
    ∃ b, s.mem.fresh ≤ b ∧ p = ⟨some b, 0⟩ ∧ ¬(n = 0 ∧ s.mem.nullOnZero = true) ∧
      s'.mem.extent = Function.update s.mem.extent b (some n)
  fresh : s.mem.fresh ≤ s'.mem.fresh
  nullOnZero : s'.mem.nullOnZero = s.mem.nullOnZero
  wf : s.mem.Wf → s'.mem.Wf
  spent : Spent c s.mem.fuse s'.mem.fuse
  tidy : s.mem.Tidy → s'.mem.Tidy

/-- Between `s` and `s'` the block `b`, without a live object in it, was released. -/
structure State.Releases (s : State α ρ) (b : ℕ) (s' : State α ρ) : Prop where
  self : s'.self = s.self
  object : s'.mem.object = s.mem.object
  extent : s'.mem.extent = Function.update s.mem.extent b none
  fresh : s'.mem.fresh = s.mem.fresh
  fuse : s'.mem.fuse = s.mem.fuse
  nullOnZero : s'.mem.nullOnZero = s.mem.nullOnZero
  wf : s.mem.Wf → s'.mem.Wf
  tidy : s.mem.Tidy → s'.mem.Tidy

variable {s s' s'' : State α ρ} {f g : Ptr → Option α} {c d k : ℕ}

lemma State.Alters.refl (s : State α ρ) : s.Alters s.mem.object s :=
  ⟨rfl, rfl, rfl, le_rfl, rfl, id⟩

lemma State.Alters.trans (h : s.Alters f s') (h' : s'.Alters g s'') : s.Alters g s'' where
  self := h'.self.trans h.self
  object := h'.object
  extent := h'.extent.trans h.extent
  fresh := h.fresh.trans h'.fresh
  nullOnZero := h'.nullOnZero.trans h.nullOnZero
  wf hw := h'.wf (h.wf hw)

lemma State.Alters.inBounds (h : s.Alters f s') (p : Ptr) :
    s'.mem.inBounds p = s.mem.inBounds p := by
  simp only [Memory.inBounds, h.extent]

namespace State.Becomes

lemma refl (s : State α ρ) : s.Becomes 0 s.mem.object s :=
  ⟨.refl s, .refl _, id⟩

lemma trans (h : s.Becomes c f s') (h' : s'.Becomes d g s'') : s.Becomes (c + d) g s'' :=
  ⟨h.toAlters.trans h'.toAlters, h.spent.trans h'.spent, fun ht => h'.tidy (h.tidy ht)⟩

lemma breaks (h : s.Becomes c f s') (h' : s'.Breaks k g s'') : s.Breaks (c + k) g s'' :=
  ⟨h.toAlters.trans h'.toAlters, h.spent.blown h'.blown, fun ht => h'.tidy (h.tidy ht)⟩

end State.Becomes

lemma State.Breaks.trans (h : s.Breaks k f s') (h' : s'.Becomes c g s'') : s.Breaks k g s'' :=
  ⟨h.toAlters.trans h'.toAlters, h.blown, fun ht => h'.tidy (h.tidy ht)⟩

lemma setSelf_returns {r : ρ} {Q : Unit → State α ρ → Prop} (h : Q () { s with self := r }) :
    (setSelf r).Returns s Q :=
  ⟨(), _, rfl, h⟩

lemma mayThrow_ends (b : Bool) (s : State α ρ) : (mayThrow b).Ends s
    (fun _ s' => s.Becomes b.toNat s.mem.object s')
    (fun s' => b = true ∧ s.Breaks 0 s.mem.object s') := by
  cases b with
  | false => exact State.Becomes.refl s
  | true =>
    rw [Code.Ends, mayThrow, if_pos rfl]
    cases hf : s.mem.fuse with
    | none => exact ⟨.refl s, by simp [Spent, hf], id⟩
    | some k =>
      cases k with
      | zero => exact ⟨rfl, ⟨rfl, rfl, rfl, le_rfl, rfl, fun hw => ⟨hw.fresh, hw.bounds⟩⟩, hf,
          fun ht => ⟨ht.lifetimes, ht.blocks⟩⟩
      | succ k =>
        refine ⟨⟨rfl, rfl, rfl, le_rfl, rfl, fun hw => ⟨hw.fresh, hw.bounds⟩⟩, ?_,
          fun ht => ⟨ht.lifetimes, ht.blocks⟩⟩
        rw [hf]
        exact ⟨fun j hj => by cases hj; simp, by simp⟩

lemma put_alters {p : Ptr} (v : Option α) (t : List Event) (hb : s.mem.inBounds p = true) :
    s.Alters (Function.update s.mem.object p v)
      { s with mem := { s.mem with object := Function.update s.mem.object p v, trace := t } } where
  self := rfl
  object := rfl
  extent := rfl
  fresh := le_rfl
  nullOnZero := rfl
  wf hw := by
    refine ⟨hw.fresh, fun q hq => ?_⟩
    by_cases hqp : q = p
    · subst hqp
      exact hb
    · simp only [Function.update_of_ne hqp] at hq
      exact hw.bounds q hq

lemma put_becomes {p : Ptr} {v : Option α} {t : List Event} (hb : s.mem.inBounds p = true)
    (ht : s.mem.Tidy → ∀ q, lifetime q t = some (Function.update s.mem.object p v q).isSome)
    (ho : outstanding t = outstanding s.mem.trace) :
    s.Becomes 0 (Function.update s.mem.object p v)
      { s with mem := { s.mem with object := Function.update s.mem.object p v, trace := t } } where
  toAlters := put_alters v t hb
  spent := .refl _
  tidy hti := by
    obtain ⟨l, hl, hmem⟩ := hti.blocks
    exact ⟨ht hti, l, ho.trans hl, hmem⟩

lemma construct_returns {p : Ptr} (v : α) (hb : s.mem.inBounds p = true)
    (hd : s.mem.object p = none) : (construct p v).Returns s
      (fun _ s' => s.Becomes 0 (Function.update s.mem.object p (some v)) s') := by
  refine ⟨(), _, by rw [construct, if_pos hb]; rfl,
    put_becomes (t := .construct p :: s.mem.trace) hb (fun ht q => ?_) rfl⟩
  by_cases hqp : q = p
  · subst hqp
    rw [lifetime_construct (by rw [ht.lifetimes, hd]; rfl), Function.update_self]
    rfl
  · rw [lifetime_other (by simpa using Ne.symm hqp) (by simp), ht.lifetimes,
      Function.update_of_ne hqp]

lemma read_run {p : Ptr} {v : α} (hw : s.mem.Wf) (h : s.mem.object p = some v) :
    read p s = .returned v s := by
  rw [read, if_pos (hw.bounds p (by simp [h]))]
  simp only [h]

lemma assign_returns {p : Ptr} {v : α} (w : α) (hw : s.mem.Wf) (h : s.mem.object p = some v) :
    (assign p w).Returns s
      (fun _ s' => s.Becomes 0 (Function.update s.mem.object p (some w)) s') := by
  have hb := hw.bounds p (by simp [h])
  refine ⟨(), _, by rw [assign, if_pos hb, h]; rfl,
    put_becomes (t := s.mem.trace) hb (fun ht q => ?_) rfl⟩
  rw [ht.lifetimes]
  by_cases hqp : q = p
  · subst hqp
    rw [Function.update_self, h]
    rfl
  · rw [Function.update_of_ne hqp]

lemma destroy_returns {p : Ptr} {v : α} (hw : s.mem.Wf) (h : s.mem.object p = some v) :
    (destroy p).Returns s
      (fun _ s' => s.Becomes 0 (Function.update s.mem.object p none) s') := by
  have hb := hw.bounds p (by simp [h])
  refine ⟨(), _, by rw [destroy, if_pos hb, h]; rfl,
    put_becomes (t := .destroy p :: s.mem.trace) hb (fun ht q => ?_) rfl⟩
  by_cases hqp : q = p
  · subst hqp
    rw [lifetime_destroy (by rw [ht.lifetimes, h]; rfl), Function.update_self]
    rfl
  · rw [lifetime_other (by simp) (by simpa using Ne.symm hqp), ht.lifetimes,
      Function.update_of_ne hqp]

lemma store_returns {p : Ptr} (w : α) (hb : s.mem.inBounds p = true) : (store p w).Returns s
      (fun _ s' => s.Becomes 0 (Function.update s.mem.object p (some w)) s') := by
  cases h : s.mem.object p with
  | none =>
    obtain ⟨_, s', hrun, hbe⟩ := construct_returns w hb h
    refine ⟨(), s', ?_, hbe⟩
    rw [← hrun, store, construct, if_pos hb, if_pos hb, h]
  | some v =>
    refine ⟨(), _, by rw [store, if_pos hb, h]; rfl,
      put_becomes (t := s.mem.trace) hb (fun ht q => ?_) rfl⟩
    rw [ht.lifetimes]
    by_cases hqp : q = p
    · subst hqp
      rw [Function.update_self, h]
      rfl
    · rw [Function.update_of_ne hqp]

lemma takeBlock_returns (n : ℕ) (hw : s.mem.Wf) :
    (takeBlock n).Returns s (fun p s' => s.Allocates 0 n p s') := by
  by_cases hz : n = 0 ∧ s.mem.nullOnZero = true
  · refine ⟨.null, _, if_pos hz, rfl, rfl, Or.inl ⟨rfl, hz.1, hz.2, rfl⟩, le_rfl, rfl,
      fun _ => ⟨hw.fresh, hw.bounds⟩, .refl _, fun ht => ?_⟩
    obtain ⟨l, hl, hmem⟩ := ht.blocks
    refine ⟨fun p => ?_, (.null, 0) :: l, ?_, fun b k hk => List.mem_cons_of_mem _ (hmem b k hk)⟩
    · exact (lifetime_other (by simp) (by simp)).trans (ht.lifetimes p)
    · simp only [Memory.log, outstanding, hl, Option.map_some]
  · have hnone : s.mem.extent s.mem.fresh = none := hw.fresh _ le_rfl
    refine ⟨⟨some s.mem.fresh, 0⟩, _, if_neg hz, rfl, rfl, Or.inr ⟨_, le_rfl, rfl, hz, rfl⟩,
      Nat.le_succ _, rfl, fun _ => ⟨fun b hb => ?_, fun p hp => ?_⟩, .refl _, fun ht => ?_⟩
    · change Function.update s.mem.extent s.mem.fresh (some n) b = none
      rw [Function.update_of_ne (by simp only at hb; omega)]
      exact hw.fresh b (by simp only at hb; omega)
    · obtain ⟨b, k, hpb, hk, hlt⟩ := Memory.inBounds_iff.mp (hw.bounds p hp)
      refine Memory.inBounds_iff.mpr ⟨b, k, hpb, ?_, hlt⟩
      change Function.update s.mem.extent s.mem.fresh (some n) b = some k
      rwa [Function.update_of_ne (fun h => by rw [h, hnone] at hk; cases hk)]
    · obtain ⟨l, hl, hmem⟩ := ht.blocks
      refine ⟨fun p => (lifetime_other (by simp) (by simp)).trans (ht.lifetimes p),
        (⟨some s.mem.fresh, 0⟩, n) :: l, by simp only [outstanding, hl, Option.map_some],
        fun b k hk => ?_⟩
      change Function.update s.mem.extent s.mem.fresh (some n) b = some k at hk
      by_cases hb : b = s.mem.fresh
      · subst hb
        rw [Function.update_self] at hk
        cases hk
        exact List.mem_cons_self
      · rw [Function.update_of_ne hb] at hk
        exact List.mem_cons_of_mem _ (hmem b k hk)

lemma allocate_ends (n : ℕ) (hw : s.mem.Wf) : (allocate n).Ends s
    (fun p s' => s.Allocates 1 n p s') (fun s' => s.Breaks 0 s.mem.object s') := by
  refine ((mayThrow_ends true s).mono (fun _ _ h => h) (fun _ h => h.2)).bind ?_
  intro _ t ht
  refine .of_returns ((takeBlock_returns n (ht.wf hw)).mono ?_)
  intro p u hu
  refine ⟨hu.self.trans ht.self, hu.object.trans ht.object, ?_, ht.fresh.trans hu.fresh,
    hu.nullOnZero.trans ht.nullOnZero, fun hs => hu.wf (ht.wf hs), ht.spent.trans hu.spent,
    fun hs => hu.tidy (ht.tidy hs)⟩
  have hanswer := hu.answer
  rw [ht.nullOnZero, ht.extent] at hanswer
  refine hanswer.imp_right ?_
  rintro ⟨b, hb, hrest⟩
  exact ⟨b, ht.fresh.trans hb, hrest⟩

lemma Memory.release_wf {m : Memory α} (h : m.Wf) (p : Ptr) (n : ℕ) : (m.release p n).Wf := by
  refine ⟨fun b hb => ?_, fun q hq => ?_⟩
  · simp only [release]
    split_ifs
    · rfl
    · exact h.fresh b hb
  · simp only [release] at hq
    by_cases hqp : q.block = p.block
    · simp [hqp] at hq
    · rw [if_neg hqp] at hq
      obtain ⟨b, k, hqb, hk, hlt⟩ := inBounds_iff.mp (h.bounds q hq)
      refine inBounds_iff.mpr ⟨b, k, hqb, ?_, hlt⟩
      simp only [release]
      rwa [if_neg (fun hpb => hqp (hqb.trans hpb.symm))]

lemma Memory.release_tidy {m : Memory α} (ht : m.Tidy) {p : Ptr} {n : ℕ}
    (hraw : ∀ q, q.block = p.block → m.object q = none)
    (hmem : ∀ l, outstanding m.trace = some l → (p, n) ∈ l) : (m.release p n).Tidy := by
  obtain ⟨l, hl, hblocks⟩ := ht.blocks
  refine ⟨fun q => ?_, l.erase (p, n), ?_, fun c k hk => ?_⟩
  · rw [release, lifetime_other (by simp) (by simp), ht.lifetimes]
    simp only
    split_ifs with hq
    · rw [hraw q hq]
    · rfl
  · simp only [release, outstanding, hl, Option.bind_some]
    rw [if_pos (hmem l hl)]
  · simp only [release] at hk
    split_ifs at hk with hpc
    refine (List.mem_erase_of_ne ?_).mpr (hblocks c k hk)
    rintro he
    exact hpc (by rw [← (Prod.mk.inj he).1])

lemma deallocate_returns {b n : ℕ} (hn : s.mem.extent b = some n)
    (hd : ∀ i, s.mem.object ⟨some b, i⟩ = none) :
    (deallocate ⟨some b, 0⟩ n).Returns s (fun _ s' => s.Releases b s') := by
  have hraw : ∀ q : Ptr, q.block = some b → s.mem.object q = none := by
    intro q hq
    rw [← hd q.off, ← hq]
  refine ⟨(), _, rfl, rfl, ?_, ?_, rfl, rfl, rfl, fun hw => Memory.release_wf hw _ _,
    fun ht => Memory.release_tidy ht hraw (fun l hl => ?_)⟩
  · funext q
    simp only [Memory.release]
    split_ifs with hq
    · exact (hraw q hq).symm
    · rfl
  · funext c
    simp only [Memory.release]
    by_cases hcb : c = b
    · subst hcb
      simp
    · rw [Function.update_of_ne hcb, if_neg (by simpa using Ne.symm hcb)]
  · obtain ⟨l', hl', hmem⟩ := ht.blocks
    rw [hl] at hl'
    cases hl'
    exact hmem b n hn

end Effects

end Cxx
