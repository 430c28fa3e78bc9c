import Voxory.RingBuffer.Queue
import Voxory.RingBuffer.Safety

/-!
# Moves between ring buffers

A move hands over the storage and leaves the capacity where it was, so that afterwards the
fields of the source, and those of the target of an assignment, agree only if there was no
capacity to hand over. The target of an assignment is cleaned up first, which has to find the
elements that it destroys alive.
-/

namespace Voxory
open Cxx

namespace RingBuffer

variable {α : Type}

/-- The slots from `first` on to `last`, around the end of the block: those that `_cleanup`
destroys. -/
def Spans (r : RingBuffer) (j : ℕ) : Prop :=
  if r.first < r.last then r.first - r.data ≤ j ∧ j < r.last - r.data
  else (r.first - r.data ≤ j ∧ j < r.capacity) ∨ j < r.last - r.data

/-- What `_cleanup` takes for the elements is alive. -/
def Destructible (m : Memory α) (r : RingBuffer) : Prop :=
  r.size = 0 ∨ ∀ j, r.Spans j → (m.object (r.data + j)).isSome

variable {s : State α RingBuffer} {b i j : ℕ}

/-- The slots from `i` on to `n` further ones were alive, and no other ones have changed. -/
def Razed (s : State α RingBuffer) (b i n : ℕ) (t : State α RingBuffer) : Prop :=
  (∀ k, i ≤ k → k < i + n → (s.mem.object ⟨some b, k⟩).isSome) ∧
    ∀ k, ¬(i ≤ k ∧ k < i + n) → t.mem.object ⟨some b, k⟩ = s.mem.object ⟨some b, k⟩

variable {t : State α RingBuffer} {n : ℕ}

lemma Razed.destroy (h : Razed s b i n t) :
    (destroy ((⟨some b, i⟩ : Ptr) + n) : Method α Unit).Within (fun _ => True) t
      (fun _ t' => Razed s b i (n + 1) t') (fun _ => False) := by
  obtain ⟨hlive, hother⟩ := h
  rw [Code.Within, Cxx.destroy, Ptr.mk_add]
  have hsame := hother (i + n) (by omega)
  split_ifs
  · cases hv : t.mem.object ⟨some b, i + n⟩ with
    | none => trivial
    | some v =>
      rw [hv] at hsame
      refine ⟨fun k hik hkn => ?_, fun k hk => ?_⟩
      · by_cases hkn' : k = i + n
        · rw [hkn', ← hsame]
          rfl
        · exact hlive k hik (by omega)
      · have hne : (⟨some b, k⟩ : Ptr) ≠ ⟨some b, i + n⟩ := by
          intro he
          cases he
          omega
        exact (Function.update_of_ne hne _ _).trans (hother k (by omega))
  · trivial

lemma destroySeq_live (hij : i ≤ j) : (destroySeq ⟨some b, i⟩ ⟨some b, j⟩ : Method α Unit).Within
    (fun _ => True) s (fun _ t => (∀ k, i ≤ k → k < j → (s.mem.object ⟨some b, k⟩).isSome) ∧
      ∀ k, ¬(i ≤ k ∧ k < j) → t.mem.object ⟨some b, k⟩ = s.mem.object ⟨some b, k⟩)
      (fun _ => False) := by
  rw [destroySeq, if_pos ((Ptr.le_iff _ _).mpr hij), Ptr.sub_eq]
  have hstart : Razed s b i 0 s := ⟨fun k _ _ => by omega, fun _ _ => rfl⟩
  refine (Code.Within.loop (fun k => destroy ((⟨some b, i⟩ : Ptr) + k)) 0 (j - i)
    (fun n t => Razed s b i n t) hstart (fun _ _ _ _ ht => ht.destroy)).mono ?_ (fun _ hf => hf)
  intro _ t ht
  rw [Razed, Nat.zero_add, Nat.add_sub_cancel' hij] at ht
  exact ht

lemma destroyRange_returns_iff (h : Shape s.mem s.self) (hw : s.mem.Wf) :
    (destroyRange s.self.first s.self.last : Method α Unit).Returns s (fun _ _ => True) ↔
      Destructible s.mem s.self := by
  unfold Destructible destroyRange
  rw [Code.Returns.step_iff (show self s = .returned s.self s from rfl)]
  by_cases hz : s.self.size = 0
  · rw [if_pos hz]
    exact iff_of_true (Code.Returns.pure trivial) (Or.inl hz)
  rw [if_neg hz, or_iff_right hz]
  have hsize := h.size_le
  generalize s.self = r at h hz hsize ⊢
  cases h with
  | nil => exact absurd rfl hz
  | block b f l size capacity allow hext hf hl hle =>
    have hfc : f ≤ capacity := by omega
    simp only [Spans, Ptr.mk_add, Nat.zero_add, Ptr.sub_eq, Nat.sub_zero, gt_iff_lt, Ptr.lt_iff]
    by_cases hfl : f < l
    · simp only [if_pos hfl]
      constructor
      · rintro ⟨_, t, ht, -⟩ k ⟨hfk, hkl⟩
        exact ((destroySeq_live hfl.le).returned ht).1 k hfk hkl
      · intro hlive
        exact (destroySeq_empties hw hfl.le (fun k hfk hkl => hlive k ⟨hfk, hkl⟩)).mono
          (fun _ _ _ => trivial)
    · simp only [if_neg hfl]
      constructor
      · rintro ⟨_, u, hu, -⟩ k hk
        obtain ⟨_, t, ht, hrest⟩ := Code.bind_eq_returned.mp hu
        obtain ⟨hlive, hother⟩ := (destroySeq_live hfc).returned ht
        rcases hk with ⟨hfk, hkc⟩ | hkl
        · exact hlive k hfk hkc
        · rw [← hother k (by omega)]
          exact ((destroySeq_live (Nat.zero_le l)).returned hrest).1 k (Nat.zero_le k) hkl
      · intro hlive
        refine (destroySeq_empties hw hfc (fun k hfk hkc => hlive k (Or.inl ⟨hfk, hkc⟩))).bind ?_
        intro _ t ht
        refine (destroySeq_empties (ht.becomes.wf hw) (Nat.zero_le l) (fun k _ hkl => ?_)).mono
          (fun _ _ _ => trivial)
        rw [ht.kept k (by omega)]
        exact hlive k (Or.inr hkl)

lemma cleanup_returns_iff (h : Shape s.mem s.self) (hw : s.mem.Wf) :
    (cleanup : Method α Unit).Returns s (fun _ _ => True) ↔ Destructible s.mem s.self := by
  unfold cleanup
  rw [Code.Returns.step_iff (show self s = .returned s.self s from rfl)]
  by_cases hnull : s.self.first = Ptr.null
  · rw [if_neg (fun hne => hne hnull)]
    refine iff_of_true (Code.Returns.pure trivial) (Or.inl ?_)
    generalize s.self = r at h hnull
    cases h with
    | nil => rfl
    | block => cases hnull
  · rw [if_pos hnull, ← destroyRange_returns_iff h hw]
    constructor
    · rintro ⟨_, u, hu, -⟩
      obtain ⟨_, t, ht, -⟩ := Code.bind_eq_returned.mp hu
      exact ⟨_, t, ht, trivial⟩
    · intro hrange
      refine hrange.bind (fun _ t _ => Code.Returns.step rfl ?_)
      split_ifs
      · exact Code.Returns.step rfl (setSelf_returns trivial)
      · exact Code.Returns.pure trivial

end RingBuffer

/-- The calls that may follow a move; `index` stands for reading `operator[]`. -/
inductive Later (α : Type) where
  | pushBack (val : Arg α)
  | tryPopFront
  | index (idx : ℕ)
  | reserve (n : ℕ)

namespace Later

variable {α : Type}

def code (E : Element α) : Later α → RingBuffer.Method α Unit
  | .pushBack val => RingBuffer.pushBack E val
  | .tryPopFront => do
    let _ ← RingBuffer.tryPopFront E
  | .index idx => do
    let _ ← (do
      let p ← RingBuffer.index idx
      Cxx.read p)
  | .reserve n => RingBuffer.reserve E n

/-- `operator[]` is used below `size()`. -/
def Legal (r : RingBuffer) : Later α → Prop
  | .index idx => idx < r.size
  | _ => True

end Later

namespace RingPool

variable {α : Type}

open Objects RingBuffer

/-- The environment chooses the fallible operation that throws next, if any. -/
def armed (k : Option ℕ) (s : State α RingBuffer) : State α RingBuffer :=
  ⟨{ s.mem with fuse := k }, s.self⟩

/-- Whatever calls follow on the buffer, and whatever throws in them, none accesses memory
outside a block or divides by zero. -/
def Inside (E : Element α) : List (Option ℕ × Later α) → State α RingBuffer → Prop
  | [], _ => True
  | (k, call) :: calls, s => call.Legal s.self →
    (call.code E).Within OnlyDead (armed k s)
      (fun _ s' => Inside E calls s') (fun s' => Inside E calls s')

/-- The step from `p` to `p'` hands the buffer `o` over from `y` to `x`, where overwriting is
enabled or not: `x` has its fields and its slots are untouched; `y` is a buffer of size 0 whose
fields agree; and both can be used from here on, in their own storage. -/
structure HandsOver (E : Element α) (p p' : RingPool α) (x y : ℕ) (o : RingBuffer)
    (allow : Bool) : Prop where
  target : p'.obj x = some { o with allowOverwrite := allow }
  slots : ∀ q : Ptr, q.block = o.data.block → p'.mem.object q = p.mem.object q
  source : ∃ r, p'.obj y = some r ∧ r.size = 0 ∧ Shape p'.mem r
  inside : ∀ z, z = x ∨ z = y → ∀ r, p'.obj z = some r → ∀ m, Around p'.mem r m →
    ∀ calls, Inside E calls ⟨m, r⟩

variable {E : Element α} {p p' : RingPool α} {x y : ℕ} {o a : RingBuffer}
  {s : State α RingBuffer} {allow : Bool}

lemma inside_of_refuses (calls : List (Option ℕ × Later α)) (h : Shape s.mem s.self)
    (hw : s.mem.Wf) (hallow : s.self.allowOverwrite = false) : Inside E calls s := by
  induction calls generalizing s with
  | nil => trivial
  | cons c calls ih =>
    obtain ⟨k, call⟩ := c
    intro hlegal
    have hdead : OnlyDead .dead := rfl
    have hw' : (armed k s).mem.Wf := ⟨hw.fresh, hw.bounds⟩
    have h' : Shape (armed k s).mem (armed k s).self := h.frame (fun _ _ => rfl)
    have hrest : ∀ s', Remains (armed k s) s' → Inside E calls s' :=
      fun s' hs' => ih hs'.shape hs'.wf (hs'.allowOverwrite.trans hallow)
    cases call with
    | pushBack val =>
      exact (pushBack_within val hdead h' hw' (Or.inr (Or.inr hallow))).mono
        (fun _ s' hs' => hrest s' hs'.1) hrest
    | tryPopFront =>
      exact Code.Within.bind ((tryPopFront_within hdead h' hw').mono
        (fun _ s' hs' => hrest s' hs'.1) hrest) (fun _ _ hs' => Code.Within.pure hs')
    | index idx =>
      refine Code.Within.bind (index_within (R := Inside E calls) hdead h' hw' hlegal) ?_
      rintro _ _ rfl
      exact Code.Within.pure (hrest _ (.refl h' hw'))
    | reserve n =>
      exact (reserve_within n hdead h' hw').mono (fun _ s' hs' => hrest s' hs') hrest

lemma not_inside (hsize : s.self.size = 0) (hcap : s.self.capacity = 0)
    (hout : s.mem.inBounds s.self.first = false)
    (h : ∀ calls, Inside E calls s) : s.self.allowOverwrite = false := by
  by_contra hallow
  have hpush := h [(none, .pushBack ⟨E.init, false⟩)] trivial
  have hnull : pushBack E ⟨E.init, false⟩ (armed none s) = .fault .outside :=
    pushBack_null _ hsize hcap (show s.self.allowOverwrite = true by simpa using hallow) rfl hout
  rw [Code.Within, Later.code, hnull] at hpush
  cases hpush

lemma handsOver_iff (hp : Sound p) (hxy : x ≠ y) (hy : p.obj y = some o) {c : ℕ}
    (hw : p'.mem.Wf) (hext : ∀ b, o.data.block = some b → p'.mem.extent b = p.mem.extent b)
    (hx' : p'.obj x = some { o with capacity := c, allowOverwrite := allow })
    (hc : c = 0 ∨ c = o.capacity) (hy' : p'.obj y = some o.movedFrom) :
    HandsOver E p p' x y o allow ↔
      o.capacity = 0 ∧ o.allowOverwrite = false ∧ allow = false := by
  have hshape := hp.shape y o hy
  have hsize : o.capacity = 0 → o.size = 0 := fun hcap => Nat.le_zero.mp (hcap ▸ hshape.size_le)
  have hshape' : Shape p'.mem o := hshape.frame hext
  constructor
  · intro h
    obtain ⟨r, hr, -, hagrees⟩ := h.source
    rw [hy'] at hr
    cases hr
    have hcap : o.capacity = 0 := by
      have hleft : o.movedFrom.capacity = 0 := by
        cases hm : o.movedFrom with
        | mk d f l s c' al =>
          rw [hm] at hagrees
          have hd : d = Ptr.null := (congrArg RingBuffer.data hm).symm
          subst hd
          generalize hnull : Ptr.null = null at hagrees
          cases hagrees with
          | nil => rfl
          | block => cases hnull
      exact hleft
    refine ⟨hcap, ?_, ?_⟩
    · exact not_inside (s := ⟨p'.mem, o.movedFrom⟩) rfl hcap (by
        rw [Bool.eq_false_iff]
        intro hin
        obtain ⟨b, _, hb, -⟩ := Memory.inBounds_iff.mp hin
        cases hb) (h.inside y (Or.inr rfl) _ hy' _ (.refl hw p'.mem.fuse))
    · exact not_inside (s := ⟨p'.mem, { o with capacity := c, allowOverwrite := allow }⟩)
        (hsize hcap) (show c = 0 from hc.elim id (fun hc => hc.trans hcap))
        (hshape'.outside hcap hshape.first_block)
        (h.inside x (Or.inl rfl) _ hx' _ (.refl hw p'.mem.fuse))
  · rintro ⟨hcap, hpol, rfl⟩
    have hczero : c = o.capacity := by rcases hc with hc | hc <;> omega
    have hleft : o.movedFrom = nil false := by
      rw [movedFrom, hcap, hpol]
      rfl
    subst hczero
    refine ⟨hx', fun q hq => ?_, ⟨_, hy', rfl, by rw [hleft]; exact .nil false⟩, ?_⟩
    · rw [hw.object_none (by rw [hshape'.outside hcap hq]; simp),
        hp.wf.object_none (by rw [hshape.outside hcap hq]; simp)]
    · rintro z (rfl | rfl) r hr m hm calls
      · rw [hx'] at hr
        cases hr
        exact inside_of_refuses calls (hm.shape (hshape'.policy false)) hm.wf rfl
      · rw [hy'] at hr
        cases hr
        refine inside_of_refuses calls ?_ hm.wf hpol
        rw [hleft]
        exact .nil false

lemma moveAssign_handsOver (hp : Sound p) (hx : p.obj x = some a) (hy : p.obj y = some o)
    (hxy : x ≠ y) (k : Option ℕ) : ((RingAction.moveAssign x y).code E).Within (fun _ => True)
      (p.arm k) (fun _ p' => HandsOver E p p' x y o a.allowOverwrite ↔
        o.capacity = 0 ∧ o.allowOverwrite = false ∧ a.allowOverwrite = false)
      (fun _ => False) := by
  rw [RingAction.code, if_neg hxy]
  have hpk := hp.arm k
  refine Code.Within.step (fields_run (show (p.arm k).obj y = some o from hy)) (Code.Within.bind
    ((member_within (show (p.arm k).obj x = some a from hx) (assignMove_within
      (R := fun _ => False) trivial (hpk.shape x a hx) hpk.wf)).mono (fun _ _ h => h)
        (fun _ hf => hf.elim (fun _ hf => hf.1.elim))) ?_)
  rintro _ _ ⟨s', ⟨rfl, t, ht, rfl⟩, rfl⟩
  refine Code.Within.of_ends (.of_returns ⟨(), _, rfl, ?_⟩)
  refine handsOver_iff hp hxy hy (c := 0) ht.wf (fun b hb => ?_) ?_ (Or.inl rfl)
    (Function.update_self ..)
  · exact ht.extent b (fun hab => hxy (hp.apart x y a o b hx hy hab hb))
  · exact (Function.update_of_ne hxy ..).trans (Function.update_self ..)

/-- A move assignment comes to its end exactly when the target can be cleaned up. -/
lemma moveAssign_returns_iff (hp : Sound p) (hx : p.obj x = some a) (hy : p.obj y = some o)
    (hxy : x ≠ y) : ((RingAction.moveAssign x y).code E).Returns p (fun _ _ => True) ↔
      Destructible p.mem a := by
  rw [← cleanup_returns_iff (s := ⟨p.mem, a⟩) (hp.shape x a hx) hp.wf, RingAction.code, if_neg hxy,
    Code.Returns.step_iff (fields_run hy)]
  constructor
  · rintro ⟨_, p', hp', -⟩
    obtain ⟨left, q, hq, -⟩ := Code.bind_eq_returned.mp hp'
    obtain ⟨s', hs'⟩ := member_eq_returned hx hq
    obtain ⟨_, t, ht, -⟩ := Code.bind_eq_returned.mp hs'
    exact ⟨_, t, ht, trivial⟩
  · intro hclean
    have hassign : (assignMove o).Returns ⟨p.mem, a⟩ (fun _ _ => True) :=
      hclean.bind (fun _ t _ => Code.Returns.step rfl (Code.Returns.step rfl
        (Code.Returns.pure trivial)))
    obtain ⟨left, s', -, hrun⟩ := member_returns hx hassign
    exact Code.Returns.step hrun ⟨(), _, rfl, trivial⟩

/-- Two buffers without capacity that refuse to overwrite. -/
def refusingRun : List (Option ℕ × RingAction ℕ) :=
  [(none, .default 0), (none, .setOverwrite 0 false), (none, .default 2),
    (none, .setOverwrite 2 false)]

end RingPool

end Voxory
