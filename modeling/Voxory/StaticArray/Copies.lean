import Voxory.Cxx.Objects
import Voxory.StaticArray.Access

/-!
# Copies of static arrays

Between arrays of one type overload resolution prefers the implicitly generated copy operations,
which need no conversion to the base class. They copy member by member: the bytes of the elements
and the two pointers, which go on leading into the storage of the original.
-/

namespace Voxory
open Cxx

namespace StaticArray

variable {α : Type} {N : ℕ}

/-- The bytes of `N` slots are copied, and with them what is in the slots. -/
def copyBytes (N : ℕ) (dest src : Ptr) (m : Memory α) : Memory α :=
  { m with object := overlay m.object dest N (fun i => m.object (src + i)) }

/-- The inline storage of one more object, in the block `fresh`. -/
def withStorage (N : ℕ) (m : Memory α) : Memory α :=
  { m with fresh := m.fresh + 1, extent := Function.update m.extent m.fresh (some N) }

/-- Storage ends with its object. -/
def withoutStorage (storage : Ptr) (m : Memory α) : Memory α :=
  { m with
    extent := fun b => if storage.block = some b then none else m.extent b
    object := fun q => if q.block = storage.block then none else m.object q }

/-- The implicit copy constructor and the implicit copy assignment. -/
def copyMembers (N : ℕ) (o : StaticArray) : Method α Unit := fun s =>
  .returned () ⟨copyBytes N s.self.storage o.storage s.mem,
    { s.self with first := o.first, last := o.last }⟩

end StaticArray

namespace StaticArrays

/-- The arrays of one type `static_array<T, N>`, under names. -/
abbrev Arrays (α : Type) : Type := Objects α StaticArray

variable {α : Type}

open Objects StaticArray

def inlineStorage (N : ℕ) : Code (Arrays α) Ptr := fun p =>
  .returned ⟨some p.mem.fresh, 0⟩ { p with mem := withStorage N p.mem }

def dropStorage (storage : Ptr) : Code (Arrays α) Unit := fun p =>
  .returned () { p with mem := withoutStorage storage p.mem }

/-- `static_array<T, N> y(x)` -/
def construct (N x y : ℕ) : Code (Arrays α) Unit := do
  let a ← fields x
  let storage ← inlineStorage N
  create (unset storage) y (copyMembers N a)

/-- `y = x` -/
def assign (N x y : ℕ) : Code (Arrays α) Unit := do
  let a ← fields x
  member y (copyMembers N a)

/-- `std::swap(x, y)` -/
def swap (T : StoredType α) (N x y : ℕ) : Code (Arrays α) Unit := do
  let a ← fields x
  let storage ← inlineStorage N
  let (_, tmp) ← temporary (unset storage) (copyMembers N a)
  let b ← fields y
  member x (copyMembers N b)
  member y (copyMembers N tmp)
  let _ ← temporary tmp (destruct T)
  dropStorage storage

/-- The operations that copy an array as a whole. -/
inductive Copying where
  | construct
  | assign
  | swap
  deriving DecidableEq

namespace Copying

def code (T : StoredType α) (N x y : ℕ) : Copying → Code (Arrays α) Unit
  | .construct => StaticArrays.construct N x y
  | .assign => StaticArrays.assign N x y
  | .swap => StaticArrays.swap T N x y

/-- What the first array should hold afterwards, if the two held `us` and `vs`. -/
def kept (us vs : List α) : Copying → List α
  | .construct | .assign => us
  | .swap => vs

end Copying

/-- The array `a` with the elements `vs`, wherever its pointers lead. -/
structure Shows (N : ℕ) (m : Memory α) (a : StaticArray) (vs : List α) : Prop where
  block : ∃ b, a.storage = ⟨some b, 0⟩ ∧ m.extent b = some N
  last : a.last = a.first + N
  length : vs.length = N
  object : ∀ i, i < N → m.object (a.first + i) = vs[i]?

/-- Writes through `x` find its elements and leave those of `y` as they are. -/
def Spares (N : ℕ) (p : Arrays α) (x y : ℕ) (vs : List α) : Prop :=
  ∀ debug (ws : List (ℕ × α)), (∀ w ∈ ws, w.1 < N) → (member x (writeAll debug N ws)).Returns p
    (fun _ q => ∃ b, q.obj y = some b ∧ Shows N q.mem b vs)

/-- The arrays `x` and `y` hold `us` and `vs` in storage of their own. -/
structure Independent (N : ℕ) (p : Arrays α) (x y : ℕ) (us vs : List α) : Prop where
  first : ∃ a, p.obj x = some a ∧ a.first = a.storage ∧ Shows N p.mem a us
  second : ∃ b, p.obj y = some b ∧ b.first = b.storage ∧ Shows N p.mem b vs
  writes : Spares N p x y vs ∧ Spares N p y x us

/-- The operation leaves `us` in the second array and both arrays independent. -/
def Copies (T : StoredType α) (N x y : ℕ) (us vs : List α) (p : Arrays α) (op : Copying) : Prop :=
  (op.code T N x y).Returns p (fun _ q => Independent N q x y (op.kept us vs) us)

variable {T : StoredType α} {N x y : ℕ} {p : Arrays α} {a b : StaticArray} {us vs : List α}
  {m : Memory α}

lemma Shows.holds (h : Shows N m a vs) (hown : a.first = a.storage) : Holds N m a vs where
  own := hown
  last := by rw [h.last, hown]
  block := h.block
  length := h.length
  object i hi := by rw [← hown, h.object i hi]

lemma Shows.spares (hw : p.mem.Wf) (hxy : x ≠ y) (ha : p.obj x = some a) (hb : p.obj y = some b)
    (hblock : a.storage.block ≠ b.storage.block) (hus : Shows N p.mem a us)
    (hvs : Shows N p.mem b vs) (hown : a.first = a.storage) (hown' : b.first = b.storage) :
    Spares N p x y vs := by
  intro debug ws hws
  have hreturns : (writeAll debug N ws).Returns ⟨p.mem, a⟩ _ :=
    writeAll_returns (hus.holds hown) hw ws hws
  obtain ⟨_, s', hwrote, hrun⟩ := member_returns ha hreturns
  refine ⟨(), _, hrun, b, ?_, ?_, hvs.last, hvs.length, fun i hi => ?_⟩
  · exact (Function.update_of_ne hxy.symm _ _).trans hb
  · obtain ⟨c, hc, hext⟩ := hvs.block
    exact ⟨c, hc, hwrote.extent ▸ hext⟩
  · apply (hwrote.far _ _).trans (hvs.object i hi)
    rw [hown', Ptr.add_block]
    exact hblock.symm

/-! ### Copy construction and copy assignment -/

lemma Shows.ne_fresh (h : Shows N m a vs) (hw : m.Wf) : a.storage.block ≠ some m.fresh := by
  obtain ⟨c, hc, hext⟩ := h.block
  intro he
  rw [hc] at he
  cases he
  rw [hw.fresh _ le_rfl] at hext
  cases hext

lemma construct_run (ha : p.obj x = some a) : ∃ q : Arrays α, construct N x y p = .returned () q ∧
    q.obj = Function.update p.obj y (some ⟨⟨some p.mem.fresh, 0⟩, a.first, a.last⟩) := by
  unfold construct
  rw [Code.bind_returned (fields_run ha)]
  exact ⟨_, rfl, rfl⟩

lemma copyMembers_run (hb : p.obj y = some b) (o : StaticArray) :
    member y (copyMembers N o) p = .returned () ⟨copyBytes N b.storage o.storage p.mem,
      Function.update p.obj y (some ⟨b.storage, o.first, o.last⟩)⟩ := by
  simp only [member, hb, copyMembers]

lemma assign_run (ha : p.obj x = some a) (hb : p.obj y = some b) : ∃ q : Arrays α,
    assign N x y p = .returned () q ∧
    q.obj = Function.update p.obj y (some ⟨b.storage, a.first, a.last⟩) := by
  unfold assign
  rw [Code.bind_returned (fields_run ha)]
  exact ⟨_, copyMembers_run hb a, rfl⟩

/-- One pair of pointers does not lead into two storages. -/
lemma shared_not_independent {q : Arrays α} {storage : Ptr} (hxy : x ≠ y) (ha : p.obj x = some a)
    (hq : q.obj = Function.update p.obj y (some ⟨storage, a.first, a.last⟩))
    (hstorage : a.storage ≠ storage) : ¬Independent N q x y us vs := by
  intro h
  obtain ⟨a', ha', hown, _⟩ := h.first
  obtain ⟨b', hb', hown', _⟩ := h.second
  rw [hq, Function.update_of_ne hxy, ha] at ha'
  rw [hq, Function.update_self] at hb'
  cases ha'
  cases hb'
  exact hstorage (hown.symm.trans hown')

lemma construct_not_copies (hw : p.mem.Wf) (hxy : x ≠ y) (ha : p.obj x = some a)
    (hus : Shows N p.mem a us) : ¬Copies T N x y us vs p .construct := by
  rintro ⟨_, q, hrun, hind⟩
  obtain ⟨q', hrun', hobj⟩ := construct_run (N := N) (y := y) ha
  cases hrun'.symm.trans hrun
  apply shared_not_independent hxy ha hobj _ hind
  intro he
  exact hus.ne_fresh hw (by rw [he])

lemma assign_not_copies (hxy : x ≠ y) (ha : p.obj x = some a) (hb : p.obj y = some b)
    (hblock : a.storage.block ≠ b.storage.block) : ¬Copies T N x y us vs p .assign := by
  rintro ⟨_, q, hrun, hind⟩
  obtain ⟨q', hrun', hobj⟩ := assign_run (N := N) ha hb
  cases hrun'.symm.trans hrun
  apply shared_not_independent hxy ha hobj _ hind
  intro he
  exact hblock (by rw [he])

/-! ### Swapping -/

/-- The memory after the three copies of `std::swap`. -/
def exchanged (N : ℕ) (m : Memory α) (a b : StaticArray) : Memory α :=
  copyBytes N b.storage ⟨some m.fresh, 0⟩ (copyBytes N a.storage b.storage
    (copyBytes N ⟨some m.fresh, 0⟩ a.storage (withStorage N m)))

/-- Every array has kept its storage and has the pointers of the other. -/
def repointed (obj : ℕ → Option StaticArray) (x y : ℕ) (a b : StaticArray) :
    ℕ → Option StaticArray :=
  Function.update (Function.update obj x (some ⟨a.storage, b.first, b.last⟩)) y
    (some ⟨b.storage, a.first, a.last⟩)

lemma repointed_first {obj : ℕ → Option StaticArray} (hxy : x ≠ y) :
    repointed obj x y a b x = some ⟨a.storage, b.first, b.last⟩ :=
  (Function.update_of_ne hxy _ _).trans (Function.update_self _ _ _)

lemma repointed_second {obj : ℕ → Option StaticArray} :
    repointed obj x y a b y = some ⟨b.storage, a.first, a.last⟩ :=
  Function.update_self _ _ _

lemma copyBytes_inside {dest src : Ptr} {i : ℕ} (hi : i < N) :
    (copyBytes N dest src m).object (dest + i) = m.object (src + i) :=
  overlay_inside m.object dest (fun i => m.object (src + i)) hi

lemma copyBytes_outside {dest src q : Ptr}
    (h : ¬(q.block = dest.block ∧ dest.off ≤ q.off ∧ q.off < dest.off + N)) :
    (copyBytes N dest src m).object q = m.object q := by
  have hout : overlay m.object dest N (fun i => m.object (src + i)) q = m.object q :=
    overlay_outside h
  exact hout

lemma copyBytes_other {dest src q : Ptr} (h : q.block ≠ dest.block) :
    (copyBytes N dest src m).object q = m.object q :=
  copyBytes_outside (fun hq => h hq.1)

lemma exchanged_first (hw : m.Wf) (hvs : Shows N m b vs) (hblock : a.storage.block ≠ b.storage.block)
    {i : ℕ} (hi : i < N) :
    (exchanged N m a b).object (a.storage + i) = m.object (b.storage + i) := by
  unfold exchanged
  rw [copyBytes_other (by simpa using hblock), copyBytes_inside hi,
    copyBytes_other (by simpa using hvs.ne_fresh hw)]
  rfl

lemma exchanged_second (hw : m.Wf) (hus : Shows N m a us) {i : ℕ} (hi : i < N) :
    (exchanged N m a b).object (b.storage + i) = m.object (a.storage + i) := by
  unfold exchanged
  rw [copyBytes_inside hi, copyBytes_other (by simpa using (hus.ne_fresh hw).symm),
    copyBytes_inside hi]
  rfl

lemma Shows.extent (h : Shows N m a us) (hw : m.Wf) (b b' : StaticArray) :
    ∃ c, a.storage = ⟨some c, 0⟩ ∧ (exchanged N m b b').extent c = some N := by
  obtain ⟨c, hc, hext⟩ := h.block
  have hne : c ≠ m.fresh := fun he => h.ne_fresh hw (by rw [hc, he])
  exact ⟨c, hc, (Function.update_of_ne hne _ _).trans hext⟩

lemma Shows.kept (h : Shows N m a us) (hw : m.Wf) {b b' : StaticArray} : ∃ c, a.storage = ⟨some c, 0⟩ ∧
    (withoutStorage ⟨some m.fresh, 0⟩ (exchanged N m b b')).extent c = some N := by
  obtain ⟨c, hc, hext⟩ := h.extent hw b b'
  have hne : ¬some m.fresh = some c := fun he => h.ne_fresh hw (by rw [hc, he])
  exact ⟨c, hc, (if_neg hne).trans hext⟩

lemma copyBytes_wf {dest src : Ptr} (hw : m.Wf)
    (hdest : ∃ c, dest = ⟨some c, 0⟩ ∧ m.extent c = some N) : (copyBytes N dest src m).Wf where
  fresh := hw.fresh
  bounds q hq := by
    obtain ⟨c, rfl, hext⟩ := hdest
    by_cases hin : q.block = some c ∧ 0 ≤ q.off ∧ q.off < 0 + N
    · exact Memory.inBounds_iff.mpr ⟨c, N, hin.1, hext, by omega⟩
    · rw [copyBytes_outside hin] at hq
      exact hw.bounds q hq

lemma withStorage_wf (hw : m.Wf) : (withStorage N m).Wf where
  fresh c hc := by
    have hlt : m.fresh < c := hc
    exact (Function.update_of_ne hlt.ne' _ _).trans (hw.fresh c hlt.le)
  bounds q hq := by
    obtain ⟨c, n, hc, hn, hlt⟩ := Memory.inBounds_iff.mp (hw.bounds q hq)
    refine Memory.inBounds_iff.mpr ⟨c, n, hc, (Function.update_of_ne ?_ _ _).trans hn, hlt⟩
    intro he
    rw [he, hw.fresh _ le_rfl] at hn
    cases hn

lemma withoutStorage_wf (hw : m.Wf) (storage : Ptr) : (withoutStorage storage m).Wf :=
  ⟨(Memory.release_wf hw storage 0).fresh, (Memory.release_wf hw storage 0).bounds⟩

lemma exchanged_wf (hw : m.Wf) (hus : Shows N m a us) (hvs : Shows N m b vs) :
    (exchanged N m a b).Wf := by
  have htmp : (copyBytes N ⟨some m.fresh, 0⟩ a.storage (withStorage N m)).Wf :=
    copyBytes_wf (withStorage_wf hw) ⟨m.fresh, rfl, Function.update_self _ _ _⟩
  exact copyBytes_wf (copyBytes_wf htmp (hus.extent hw a a)) (hvs.extent hw a a)

/-- The arrays have each other's pointers, and the temporary with the pointers of the first one is
yet to be destroyed. -/
lemma swap_eq (hxy : x ≠ y) (ha : p.obj x = some a) (hb : p.obj y = some b) : swap T N x y p =
    (do
      let _ ← temporary ⟨⟨some p.mem.fresh, 0⟩, a.first, a.last⟩ (destruct T)
      dropStorage ⟨some p.mem.fresh, 0⟩ : Code (Arrays α) Unit)
      ⟨exchanged N p.mem a b, repointed p.obj x y a b⟩ := by
  have hstorage : inlineStorage N p =
      .returned ⟨some p.mem.fresh, 0⟩ ⟨withStorage N p.mem, p.obj⟩ := rfl
  have htmp : temporary (unset ⟨some p.mem.fresh, 0⟩) (copyMembers N a)
      ⟨withStorage N p.mem, p.obj⟩ = .returned ((), ⟨⟨some p.mem.fresh, 0⟩, a.first, a.last⟩)
        ⟨copyBytes N ⟨some p.mem.fresh, 0⟩ a.storage (withStorage N p.mem), p.obj⟩ := rfl
  have hfields : ∀ m : Memory α, fields y (⟨m, p.obj⟩ : Arrays α) = .returned b ⟨m, p.obj⟩ :=
    fun m => fields_run hb
  have hx : ∀ m : Memory α, (⟨m, p.obj⟩ : Arrays α).obj x = some a := fun _ => ha
  have hy : ∀ (m : Memory α) (c : StaticArray),
      (⟨m, Function.update p.obj x (some c)⟩ : Arrays α).obj y = some b :=
    fun _ _ => (Function.update_of_ne hxy.symm _ _).trans hb
  unfold swap
  rw [Code.bind_returned (fields_run ha), Code.bind_returned hstorage, Code.bind_returned htmp]
  dsimp only
  rw [Code.bind_returned (hfields _), Code.bind_returned (copyMembers_run (hx _) _),
    Code.bind_returned (copyMembers_run (hy _ _) _)]
  rfl

lemma destruct_idle {s : State α StaticArray}
    (h : T.isTriviallyDestructible = true ∨ s.self.last = s.self.first) :
    destruct T s = .returned () ⟨s.mem, { s.self with last := s.self.first }⟩ := by
  have hself : (self : Method α StaticArray) s = .returned s.self s := rfl
  have hdestroy : destroyRange T s.self.first s.self.last s = .returned () s := by
    unfold destroyRange
    split_ifs with htriv hle
    · rfl
    · rw [h.resolve_left htriv, Ptr.sub_eq, Nat.sub_self]
      rfl
    · rw [h.resolve_left htriv] at hle
      exact absurd (Nat.le_refl s.self.first.off) hle
  unfold destruct cleanup
  rw [Code.bind_returned hself, Code.bind_returned hdestroy]
  rfl

lemma destruct_clears {s : State α StaticArray} (hw : s.mem.Wf)
    (htriv : ¬T.isTriviallyDestructible = true) (hlast : s.self.last = s.self.first + N)
    (hlive : ∀ i, i < N → (s.mem.object (s.self.first + i)).isSome) :
    (destruct T).Returns s (fun _ s' => ∀ i, i < N → s'.mem.object (s.self.first + i) = none) := by
  have hcount : s.self.last - s.self.first = N := by
    rw [hlast, Ptr.sub_eq, Ptr.add_off, Nat.add_sub_cancel_left]
  have hle : s.self.first ≤ s.self.last := by
    rw [hlast]
    exact Nat.le_add_right s.self.first.off N
  unfold destruct cleanup destroyRange
  refine Code.Returns.step (b := s.self) (t := s) rfl ?_
  rw [if_neg htriv, if_pos hle, hcount]
  apply (destroyAll_returns hw hlive).bind
  intro _ t ht
  apply setSelf_returns
  intro i hi
  change t.mem.object (s.self.first + i) = none
  rw [ht.object, overlay_inside _ _ _ hi]

lemma swap_run {s' : State α StaticArray} (hxy : x ≠ y) (ha : p.obj x = some a)
    (hb : p.obj y = some b) (h : destruct T
      ⟨exchanged N p.mem a b, ⟨⟨some p.mem.fresh, 0⟩, a.first, a.last⟩⟩ = .returned () s') :
    swap T N x y p =
      .returned () ⟨withoutStorage ⟨some p.mem.fresh, 0⟩ s'.mem, repointed p.obj x y a b⟩ := by
  have htmp : temporary ⟨⟨some p.mem.fresh, 0⟩, a.first, a.last⟩ (destruct T)
      (⟨exchanged N p.mem a b, repointed p.obj x y a b⟩ : Arrays α) =
        .returned ((), s'.self) ⟨s'.mem, repointed p.obj x y a b⟩ :=
    temporary_run h
  rw [swap_eq hxy ha hb, Code.bind_returned htmp]
  rfl

lemma swap_returned {q : Arrays α} (hxy : x ≠ y) (ha : p.obj x = some a) (hb : p.obj y = some b)
    (h : swap T N x y p = .returned () q) : ∃ s',
      destruct T ⟨exchanged N p.mem a b, ⟨⟨some p.mem.fresh, 0⟩, a.first, a.last⟩⟩ =
        .returned () s' ∧
      q = ⟨withoutStorage ⟨some p.mem.fresh, 0⟩ s'.mem, repointed p.obj x y a b⟩ := by
  rw [swap_eq hxy ha hb] at h
  obtain ⟨r, u, hu, hdrop⟩ := Code.bind_eq_returned.mp h
  obtain ⟨s', hs', rfl⟩ := temporary_eq_returned hu
  cases hdrop
  exact ⟨s', hs', rfl⟩

/-- What `std::swap` has to find in order to leave the arrays exchanged and independent: pointers
that lead into the storage of the other array, elements that are equal to begin with, and nothing
for the destructor of the temporary to destroy. -/
def Crossed (T : StoredType α) (N : ℕ) (a b : StaticArray) (us vs : List α) : Prop :=
  a.first = b.storage ∧ b.first = a.storage ∧ us = vs ∧ (T.isTriviallyDestructible = true ∨ N = 0)

lemma withoutStorage_object {storage q : Ptr} (h : q.block ≠ storage.block) :
    (withoutStorage storage m).object q = m.object q :=
  if_neg h

lemma swap_crossed (hw : p.mem.Wf) (hxy : x ≠ y) (ha : p.obj x = some a) (hb : p.obj y = some b)
    (hus : Shows N p.mem a us) (hvs : Shows N p.mem b vs)
    (hblock : a.storage.block ≠ b.storage.block) (h : Copies T N x y us vs p .swap) :
    Crossed T N a b us vs := by
  obtain ⟨_, q, hrun, hind⟩ := h
  obtain ⟨s', hs', rfl⟩ := swap_returned hxy ha hb hrun
  obtain ⟨a', ha', hown, hshows⟩ := hind.first
  obtain ⟨b', hb', hown', hshows'⟩ := hind.second
  cases (repointed_first hxy).symm.trans ha'
  cases repointed_second.symm.trans hb'
  have hfirst : a.first = b.storage := hown'
  have hsecond : b.first = a.storage := hown
  refine ⟨hfirst, hsecond, ?_⟩
  by_cases htriv : T.isTriviallyDestructible = true
  · rw [destruct_idle (Or.inl htriv)] at hs'
    cases hs'
    refine ⟨?_, Or.inl htriv⟩
    apply List.ext_getElem?
    intro i
    by_cases hi : i < N
    · have hvalue : (withoutStorage ⟨some p.mem.fresh, 0⟩ (exchanged N p.mem a b)).object
          (b.first + i) = vs[i]? := hshows.object i hi
      rwa [hsecond, withoutStorage_object (hus.ne_fresh hw), exchanged_first hw hvs hblock hi,
        ← hfirst, hus.object i hi] at hvalue
    · rw [List.getElem?_eq_none (by rw [hus.length]; omega),
        List.getElem?_eq_none (by rw [hvs.length]; omega)]
  · have hN : N = 0 := by
      by_contra hpos
      obtain ⟨_, t, ht, hnone⟩ := destruct_clears (N := N)
        (s := ⟨exchanged N p.mem a b, ⟨⟨some p.mem.fresh, 0⟩, a.first, a.last⟩⟩)
        (exchanged_wf hw hus hvs) htriv hus.last (fun i hi => by
          rw [hfirst, exchanged_second hw hus hi, ← hsecond, hvs.object i hi,
            List.getElem?_eq_getElem (by rw [hvs.length]; exact hi)]
          rfl)
      rw [hs'] at ht
      cases ht
      -- the temporary destroyed the elements that the second array has now
      have hdead := hnone 0 (by omega)
      have hlive := hshows'.object 0 (by omega)
      rw [withoutStorage_object (by rw [hfirst]; exact hvs.ne_fresh hw), hdead,
        List.getElem?_eq_getElem (by rw [hus.length]; omega)] at hlive
      cases hlive
    subst hN
    exact ⟨(List.length_eq_zero_iff.mp hus.length).trans
      (List.length_eq_zero_iff.mp hvs.length).symm, Or.inr rfl⟩

lemma Crossed.copies (hw : p.mem.Wf) (hxy : x ≠ y) (ha : p.obj x = some a) (hb : p.obj y = some b)
    (hus : Shows N p.mem a us) (hvs : Shows N p.mem b vs)
    (hblock : a.storage.block ≠ b.storage.block) (h : Crossed T N a b us vs) :
    Copies T N x y us vs p .swap := by
  obtain ⟨hfirst, hsecond, rfl, htriv⟩ := h
  have hidle : T.isTriviallyDestructible = true ∨ a.last = a.first := by
    apply htriv.imp_right
    intro hN
    rw [hus.last, hN, Ptr.add_zero]
  have hdestruct : destruct T ⟨exchanged N p.mem a b, ⟨⟨some p.mem.fresh, 0⟩, a.first, a.last⟩⟩ =
      .returned () ⟨exchanged N p.mem a b, ⟨⟨some p.mem.fresh, 0⟩, a.first, a.first⟩⟩ :=
    destruct_idle hidle
  have hrun := swap_run hxy ha hb hdestruct
  have hshows : Shows N (withoutStorage ⟨some p.mem.fresh, 0⟩ (exchanged N p.mem a b))
      ⟨a.storage, b.first, b.last⟩ us := by
    refine ⟨hus.kept hw, hvs.last, hus.length, fun i hi => ?_⟩
    dsimp only
    rw [hsecond, withoutStorage_object (hus.ne_fresh hw), exchanged_first hw hvs hblock hi,
      ← hfirst, hus.object i hi]
  have hshows' : Shows N (withoutStorage ⟨some p.mem.fresh, 0⟩ (exchanged N p.mem a b))
      ⟨b.storage, a.first, a.last⟩ us := by
    refine ⟨hvs.kept hw, hus.last, hus.length, fun i hi => ?_⟩
    dsimp only
    rw [hfirst, withoutStorage_object (hvs.ne_fresh hw), exchanged_second hw hus hi,
      ← hsecond, hvs.object i hi]
  have hwf := withoutStorage_wf (exchanged_wf hw hus hvs) ⟨some p.mem.fresh, 0⟩
  refine ⟨(), _, hrun, ⟨_, repointed_first hxy, hsecond, hshows⟩,
    ⟨_, repointed_second, hfirst, hshows'⟩, ?_, ?_⟩
  · exact hshows.spares hwf hxy (repointed_first hxy) repointed_second hblock hshows' hsecond hfirst
  · exact hshows'.spares hwf hxy.symm repointed_second (repointed_first hxy) hblock.symm hshows
      hfirst hsecond

/-- Copying an array as a whole makes the two arrays independent only where `std::swap` undoes
what an earlier one did to them and has nothing to exchange. -/
theorem copies_iff {op : Copying} (hw : p.mem.Wf) (hxy : x ≠ y) (ha : p.obj x = some a)
    (hus : Shows N p.mem a us) (hb : op ≠ .construct → p.obj y = some b ∧ Shows N p.mem b vs ∧
      a.storage.block ≠ b.storage.block) :
    Copies T N x y us vs p op ↔ op = .swap ∧ Crossed T N a b us vs := by
  cases op with
  | construct =>
    apply iff_of_false (construct_not_copies hw hxy ha hus)
    intro h
    cases h.1
  | assign =>
    obtain ⟨hb, _, hblock⟩ := hb (by decide)
    apply iff_of_false (assign_not_copies hxy ha hb hblock)
    intro h
    cases h.1
  | swap =>
    obtain ⟨hb, hvs, hblock⟩ := hb (by decide)
    constructor
    · intro h
      exact ⟨rfl, swap_crossed hw hxy ha hb hus hvs hblock h⟩
    · intro h
      exact h.2.copies hw hxy ha hb hus hvs hblock

/-- Two arrays of one element, with the given places that their pointers lead to. -/
def pair (m : Memory ℕ) (first second : Ptr) : Arrays ℕ :=
  ⟨m, fun x => match x with
    | 0 => some ⟨⟨some 0, 0⟩, first, first + 1⟩
    | 1 => some ⟨⟨some 1, 0⟩, second, second + 1⟩
    | _ => none⟩

lemma shows_one {m : Memory α} {c : ℕ} {first : Ptr} {v : α} (hext : m.extent c = some 1)
    (hobj : m.object first = some v) : Shows 1 m ⟨⟨some c, 0⟩, first, first + 1⟩ [v] where
  block := ⟨c, rfl, hext⟩
  last := rfl
  length := rfl
  object i hi := by
    cases i with
    | zero => exact hobj
    | succ i => omega

theorem crossed_copies : Copies ⟨Element.plain 0 id, true⟩ 1 0 1 [7] [7]
    (pair (laid [[some 7], [some 7]]) ⟨some 1, 0⟩ ⟨some 0, 0⟩) .swap :=
  (copies_iff (p := pair (laid [[some 7], [some 7]]) ⟨some 1, 0⟩ ⟨some 0, 0⟩) (laid_wf _)
    (by decide) rfl (shows_one rfl rfl)
    (fun _ => ⟨rfl, shows_one rfl rfl, by decide⟩)).mpr ⟨rfl, rfl, rfl, rfl, Or.inl rfl⟩

/-- Two fresh arrays of one element. -/
def freshPair : Arrays ℕ := pair (laid [[some 7], [some 8]]) ⟨some 0, 0⟩ ⟨some 1, 0⟩

/-- No operation makes independent copies of fresh arrays. -/
theorem fresh_not_copies :
    ¬Copies ⟨Element.plain 0 id, true⟩ 1 0 1 [7] [8] freshPair .construct ∧
    ¬Copies ⟨Element.plain 0 id, true⟩ 1 0 1 [7] [8] freshPair .assign ∧
    ¬Copies ⟨Element.plain 0 id, true⟩ 1 0 1 [7] [8] freshPair .swap := by
  have hfirst : Shows 1 freshPair.mem ⟨⟨some 0, 0⟩, ⟨some 0, 0⟩, ⟨some 0, 1⟩⟩ [7] := shows_one rfl rfl
  have hsecond : Shows 1 freshPair.mem ⟨⟨some 1, 0⟩, ⟨some 1, 0⟩, ⟨some 1, 1⟩⟩ [8] :=
    shows_one rfl rfl
  refine ⟨construct_not_copies (laid_wf _) (by decide) rfl hfirst,
    assign_not_copies (by decide) rfl rfl (by decide), fun h => ?_⟩
  have hcrossed := swap_crossed (laid_wf _) (by decide) rfl rfl hfirst hsecond (by decide) h
  exact absurd hcrossed.1 (by decide)

end StaticArrays

end Voxory
