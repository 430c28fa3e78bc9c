import Voxory.HeapArray.Model

/-!
# What the member functions of a heap array do

`Holds m a vs` says that the fields of an array fit the memory and that it holds the values
`vs`. Each member function is described by what it leaves in its own array and by the frame:
what it leaves everywhere else.
-/

namespace Voxory
open Cxx

namespace HeapArray

variable {α : Type}

/-- The fields of an array fit the memory, and its elements are `vs`: either it owns no block
and both pointers are null, or it owns a block of `capacity` slots of which exactly the first
`size` are live. -/
inductive Holds (m : Memory α) : HeapArray → List α → Prop
  | nil : Holds m nil []
  | block (b cap : ℕ) (vs : List α) (extent : m.extent b = some cap) (fits : vs.length ≤ cap)
      (object : ∀ i, m.object ⟨some b, i⟩ = vs[i]?) :
      Holds m ⟨⟨some b, 0⟩, ⟨some b, vs.length⟩, cap⟩ vs

namespace Holds

variable {m m' : Memory α} {a : HeapArray} {vs : List α}

lemma size_eq (h : Holds m a vs) : a.size = vs.length := by
  cases h with
  | nil => rfl
  | block => simp [size, Ptr.sub_eq]

lemma size_le (h : Holds m a vs) : vs.length ≤ a.capacity := by
  cases h with
  | nil => exact le_rfl
  | block b cap vs hext hle hobj => exact hle

lemma last_eq (h : Holds m a vs) : a.last = a.first + vs.length := by
  cases h with
  | nil => rfl
  | block b cap vs hext hle hobj => rw [Ptr.mk_add, Nat.zero_add]

lemma extent_eq {b : ℕ} (h : Holds m a vs) (hb : a.first.block = some b) :
    m.extent b = some a.capacity := by
  cases h with
  | nil => cases hb
  | block c cap vs hext hle hobj =>
    cases hb
    exact hext

lemma object_eq {b : ℕ} (h : Holds m a vs) (hb : a.first.block = some b) (i : ℕ) :
    m.object ⟨some b, i⟩ = vs[i]? := by
  cases h with
  | nil => cases hb
  | block c cap vs hext hle hobj =>
    cases hb
    exact hobj i

lemma first_off (h : Holds m a vs) : a.first.off = 0 := by
  cases h <;> rfl

lemma first_eq {b : ℕ} (h : Holds m a vs) (hb : a.first.block = some b) :
    a.first = ⟨some b, 0⟩ :=
  (Ptr.ext_iff' _ _).mpr ⟨hb, h.first_off⟩

lemma first_add {b : ℕ} (h : Holds m a vs) (hb : a.first.block = some b) (i : ℕ) :
    a.first + i = ⟨some b, i⟩ := by
  rw [h.first_eq hb, Ptr.mk_add, Nat.zero_add]

lemma block_lt {b : ℕ} (h : Holds m a vs) (hw : m.Wf) (hb : a.first.block = some b) :
    b < m.fresh := by
  by_contra hle
  have hnone := hw.fresh b (by omega)
  rw [h.extent_eq hb] at hnone
  cases hnone

lemma eq_nil (h : Holds m a vs) (hb : a.first.block = none) : a = HeapArray.nil ∧ vs = [] := by
  cases h with
  | nil => exact ⟨rfl, rfl⟩
  | block => cases hb

lemma owns (h : Holds m a vs) (hvs : vs ≠ []) : ∃ b, a.first.block = some b := by
  cases hb : a.first.block with
  | none => exact absurd (h.eq_nil hb).2 hvs
  | some b => exact ⟨b, rfl⟩

lemma object_at (h : Holds m a vs) (hvs : vs ≠ []) (i : ℕ) :
    m.object (a.first + i) = vs[i]? := by
  obtain ⟨b, hb⟩ := h.owns hvs
  rw [h.first_add hb, h.object_eq hb]

lemma live_at {i : ℕ} (h : Holds m a vs) (hi : i < vs.length) :
    (m.object (a.first + i)).isSome := by
  rw [h.object_at (List.ne_nil_of_length_pos (by omega)), List.getElem?_eq_getElem hi]
  rfl

lemma unique {us : List α} (h : Holds m a vs) (h' : Holds m a us) : vs = us := by
  cases hb : a.first.block with
  | none => rw [(h.eq_nil hb).2, (h'.eq_nil hb).2]
  | some b =>
    apply List.ext_getElem?
    intro i
    rw [← h.object_eq hb, ← h'.object_eq hb]

lemma frame (h : Holds m a vs)
    (hext : ∀ b, a.first.block = some b → m'.extent b = m.extent b)
    (hobj : ∀ b i, a.first.block = some b → m'.object ⟨some b, i⟩ = m.object ⟨some b, i⟩) :
    Holds m' a vs := by
  cases h with
  | nil => exact .nil
  | block b cap vs hext' hle hobj' =>
    exact .block b cap vs ((hext b rfl).trans hext') hle
      (fun i => (hobj b i rfl).trans (hobj' i))

end Holds

/-- `cleanup` from `s` to `s'`: the fields are null and the block is released, its elements
having been destroyed. -/
structure Cleared (s s' : State α HeapArray) : Prop where
  self : s'.self = nil
  object : ∀ p, s'.mem.object p = if p.block = s.self.first.block then none else s.mem.object p
  extent : ∀ b, s'.mem.extent b = if s.self.first.block = some b then none else s.mem.extent b
  fresh : s.mem.fresh ≤ s'.mem.fresh
  nullOnZero : s'.mem.nullOnZero = s.mem.nullOnZero
  wf : s'.mem.Wf
  tidy : s.mem.Tidy → s'.mem.Tidy

/-- A member function that ran from `s` to `s'`, leaving `vs` and the capacity `cap` in its
array. The array owns its old block or a new one; the objects of all other blocks are those
of `f`. -/
structure Leaves (s : State α HeapArray) (f : Ptr → Option α) (vs : List α) (cap : ℕ)
    (s' : State α HeapArray) : Prop where
  holds : Holds s'.mem s'.self vs
  capacity : s'.self.capacity = cap
  wf : s'.mem.Wf
  nullOnZero : s'.mem.nullOnZero = s.mem.nullOnZero
  fresh : s.mem.fresh ≤ s'.mem.fresh
  block : ∀ b, s'.self.first.block = some b → s.self.first.block = some b ∨ s.mem.fresh ≤ b
  extent : ∀ b, b < s.mem.fresh → s.self.first.block ≠ some b →
    s'.mem.extent b = s.mem.extent b
  object : ∀ p, p.block ≠ s'.self.first.block →
    s'.mem.object p = if p.block = s.self.first.block then none else f p

/-- An array of capacity 0 owns no block. -/
def Solid (a : HeapArray) : Prop := a.capacity = 0 → a.first = Ptr.null

/-- `Leaves`, with a trace that is still in order if it was, and no block of length 0. -/
structure Updates (s : State α HeapArray) (f : Ptr → Option α) (vs : List α) (cap : ℕ)
    (s' : State α HeapArray) : Prop extends Leaves s f vs cap s' where
  solid : Solid s.self → Solid s'.self
  tidy : s.mem.Tidy → s'.mem.Tidy

/-- Filling the new block `b` threw at the `k`-th fallible operation, in the state `t`; the
block was given back with whatever was in it. -/
structure Aborts (s : State α HeapArray) (k b : ℕ) (t s' : State α HeapArray) : Prop where
  self : s'.self = s.self
  object : ∀ q, s'.mem.object q = if q.block = some b then none else t.mem.object q
  extent : s'.mem.extent = s.mem.extent
  before : ∀ c, c ≠ b → t.mem.extent c = s.mem.extent c
  new : s.mem.fresh ≤ b
  fresh : s.mem.fresh ≤ s'.mem.fresh
  nullOnZero : s'.mem.nullOnZero = s.mem.nullOnZero
  wf : s'.mem.Wf
  blown : s.mem.fuse = some k
  tidy : (∀ i, t.mem.object ⟨some b, i⟩ = none) → s.mem.Tidy → s'.mem.Tidy

lemma object_none_block {m : Memory α} (hw : m.Wf) {p : Ptr} (hp : p.block = none) :
    m.object p = none := by
  apply hw.object_none
  simp [Memory.inBounds, hp]

lemma object_none_fresh {m : Memory α} (hw : m.Wf) {b : ℕ} (hb : m.fresh ≤ b) (i : ℕ) :
    m.object ⟨some b, i⟩ = none := by
  apply hw.object_none
  simp [Memory.inBounds, hw.fresh b hb]

lemma Aborts.breaks {s t s' : State α HeapArray} {k b : ℕ} {f : Ptr → Option α}
    (h : Aborts s k b t s') (hf : t.mem.object = f) (hraw : ∀ i, f ⟨some b, i⟩ = none) :
    s.Breaks k f s' where
  self := h.self
  object := by
    funext q
    rw [h.object, hf]
    split_ifs with hq
    · have hqe : q = ⟨some b, q.off⟩ := (Ptr.ext_iff' _ _).mpr ⟨hq, rfl⟩
      rw [hqe, hraw]
    · rfl
  extent := h.extent
  fresh := h.fresh
  nullOnZero := h.nullOnZero
  wf _ := h.wf
  blown := h.blown
  tidy := h.tidy (by rwa [hf])

lemma Aborts.holds {s t s' : State α HeapArray} {k b : ℕ} {a : HeapArray} {vs : List α}
    (h : Aborts s k b t s') (ha : Holds t.mem a vs) (hne : a.first.block ≠ some b) :
    Holds s'.mem a vs := by
  refine ha.frame (fun c hc => ?_) (fun c i hc => ?_)
  · rw [h.extent, h.before c (by rintro rfl; exact hne hc)]
  · rw [h.object, if_neg (by rw [← hc]; exact hne)]

section Methods

variable {s : State α HeapArray} {E : Element α} {vs : List α}

lemma Holds.allocated {a : HeapArray} {c n : ℕ} {p : Ptr} {t : State α HeapArray}
    (h : Holds s.mem a vs) (hw : s.mem.Wf) (ht : s.Allocates c n p t) : Holds t.mem a vs := by
  refine h.frame (fun b hb => ?_) (fun b i _ => by rw [ht.object])
  have hlt := h.block_lt hw hb
  rcases ht.answer with ⟨_, _, _, hext⟩ | ⟨b', hb', _, _, hext⟩
  · rw [hext]
  · rw [hext, Function.update_of_ne (by omega)]

lemma Holds.not_fresh {a : HeapArray} {b : ℕ} (h : Holds s.mem a vs) (hw : s.mem.Wf)
    (hb : s.mem.fresh ≤ b) : a.first.block ≠ some b :=
  fun hab => absurd (h.block_lt hw hab) (by omega)

lemma cleanup_returns (hw : s.mem.Wf) (h : Holds s.mem s.self vs) :
    cleanup.Returns s (fun _ s' => Cleared s s') := by
  obtain ⟨m, a⟩ := s
  change m.Wf at hw
  change Holds m a vs at h
  refine Code.Returns.step (b := a) rfl ?_
  cases h with
  | nil =>
    rw [if_neg (by simp [nil])]
    refine Code.Returns.pure ⟨rfl, fun p => ?_, fun b => ?_, le_rfl, rfl, hw, id⟩
    · split_ifs with hp
      · exact object_none_block hw hp
      · rfl
    · rw [if_neg (by simp [nil, Ptr.null])]
  | block b cap vs hext hle hobj =>
    rw [if_pos (by simp [Ptr.null])]
    have hlen : (⟨some b, vs.length⟩ : Ptr) - (⟨some b, 0⟩ : Ptr) = vs.length := by
      simp [Ptr.sub_eq]
    refine Code.Returns.bind (Q := fun _ t =>
      State.Becomes ⟨m, ⟨⟨some b, 0⟩, ⟨some b, vs.length⟩, cap⟩⟩ 0
        (overlay m.object ⟨some b, 0⟩ vs.length (fun _ => none)) t) ?_ ?_
    · rw [destroyRange, hlen]
      refine destroyAll_returns hw (fun i hi => ?_)
      rw [Ptr.mk_add, Nat.zero_add, hobj, List.getElem?_eq_getElem hi]
      rfl
    · intro _ t ht
      have hnone : ∀ i, t.mem.object ⟨some b, i⟩ = none := by
        intro i
        rw [ht.object]
        by_cases hi : i < vs.length
        · have hin := overlay_inside m.object ⟨some b, 0⟩ (fun _ => none) hi
          rwa [Ptr.mk_add, Nat.zero_add] at hin
        · rw [overlay_outside (by simp [hi]), hobj, List.getElem?_eq_none (by omega)]
      have hfar : ∀ p : Ptr, p.block ≠ some b → t.mem.object p = m.object p := by
        intro p hp
        rw [ht.object, overlay_other hp]
      have htself : t.self = ⟨⟨some b, 0⟩, ⟨some b, vs.length⟩, cap⟩ := ht.self
      refine Code.Returns.step (b := t.self) rfl ?_
      rw [htself]
      refine (deallocate_returns (by rw [ht.extent, hext]) hnone).bind ?_
      intro _ t' ht'
      refine ⟨(), _, rfl, rfl, fun p => ?_, fun c => ?_, ?_, ?_, ?_, fun hti => ?_⟩
      · change t'.mem.object p = _
        rw [ht'.object]
        split_ifs with hp
        · have hpe : p = ⟨some b, p.off⟩ := by rw [Ptr.ext_iff']; exact ⟨hp, rfl⟩
          rw [hpe, hnone]
        · exact hfar p hp
      · change t'.mem.extent c = _
        rw [ht'.extent, ht.extent]
        by_cases hcb : c = b
        · subst hcb
          simp
        · rw [Function.update_of_ne hcb, if_neg (by simpa using Ne.symm hcb)]
      · exact ht.fresh.trans ht'.fresh.ge
      · exact ht'.nullOnZero.trans ht.nullOnZero
      · exact ht'.wf (ht.wf hw)
      · exact ht'.tidy (ht.tidy hti)

lemma deallocate_aborts {cap k b : ℕ} {t t' : State α HeapArray} (hw : s.mem.Wf)
    (hb : s.mem.fresh ≤ b) (ht : s.Allocates 1 cap ⟨some b, 0⟩ t)
    (htext : t.mem.extent = Function.update s.mem.extent b (some cap))
    (hg : t.Alters t'.mem.object t') (hk : t.mem.fuse = some k)
    (htidy : (∀ i, t'.mem.object ⟨some b, i⟩ = none) → t.mem.Tidy → t'.mem.Tidy) :
    (deallocate ⟨some b, 0⟩ cap).Returns t' (fun _ s' => Aborts s (1 + k) b t' s') := by
  refine ⟨(), _, rfl, hg.self.trans ht.self, fun q => rfl, ?_, fun c hc => ?_, hb,
    ht.fresh.trans hg.fresh, hg.nullOnZero.trans ht.nullOnZero,
    Memory.release_wf (hg.wf (ht.wf hw)) _ _, ht.spent.blown hk, fun hraw hti => ?_⟩
  · funext c
    simp only [Memory.release, hg.extent, htext]
    by_cases hcb : c = b
    · subst hcb
      rw [if_pos rfl, hw.fresh c hb]
    · rw [if_neg (by simpa using Ne.symm hcb), Function.update_of_ne hcb]
  · rw [hg.extent, htext, Function.update_of_ne hc]
  · obtain ⟨_, s', hrun, hs'⟩ := deallocate_returns (s := t') (b := b) (n := cap)
      (by rw [hg.extent, htext, Function.update_self]) hraw
    cases hrun
    exact hs'.tidy (htidy hraw (ht.tidy hti))

/-- Filling a new block and replacing the old one by it, where filling leaves the old elements
alive (moved from or not) and turns the objects of the other blocks into those of `f`. -/
lemma replaceBuffer_ends {cap : ℕ} {fill : Ptr → Method α Ptr} {us : List α}
    {f : Ptr → Option α} {P : ℕ → ℕ → State α HeapArray → Prop} (hw : s.mem.Wf)
    (h : Holds s.mem s.self vs) (hcap : cap ≠ 0) (hle : us.length ≤ cap)
    (hfill : ∀ t b, s.mem.fresh ≤ b → s.Allocates 1 cap ⟨some b, 0⟩ t → t.mem.Wf →
      t.mem.extent b = some cap → (fill ⟨some b, 0⟩).Ends t
        (fun q t' => q = ⟨some b, us.length⟩ ∧ ∃ c ws, t.Becomes c t'.mem.object t' ∧
          (∀ i, t'.mem.object ⟨some b, i⟩ = us[i]?) ∧ Holds t'.mem s.self ws ∧
          ∀ p, p.block ≠ some b → p.block ≠ s.self.first.block → t'.mem.object p = f p)
        (fun t' => ∃ k, P k b t' ∧ t.Alters t'.mem.object t' ∧ t.mem.fuse = some k ∧
          ((∀ i, t'.mem.object ⟨some b, i⟩ = none) → t.mem.Tidy → t'.mem.Tidy))) :
    (replaceBuffer cap fill).Ends s (fun _ s' => Updates s f us cap s')
      (fun s' => s.Breaks 0 s.mem.object s' ∨ ∃ k b t, P k b t ∧ Aborts s (1 + k) b t s') := by
  refine ((allocate_ends cap hw).mono (fun _ _ h => h) (fun _ h => Or.inl h)).bind ?_
  intro p t ht
  rcases ht.answer with ⟨_, hz, _⟩ | ⟨b, hb, rfl, _, htext⟩
  · exact absurd hz hcap
  refine Code.Ends.bind (Code.Ends.onThrow
    (hfill t b hb ht (ht.wf hw) (by rw [htext, Function.update_self])) ?_) ?_
  · rintro t' ⟨k, hP, hg, hk, htidy⟩
    exact (deallocate_aborts hw hb ht htext hg hk htidy).mono
      (fun _ s' hs' => Or.inr ⟨k, b, t', hP, hs'⟩)
  rintro _ t' ⟨rfl, c, ws, hg, hnew, hold, hfar⟩
  have hself : t'.self = s.self := hg.self.trans ht.self
  have hne : t'.self.first.block ≠ some b := by
    rw [hself]
    exact h.not_fresh hw hb
  refine Code.Ends.of_returns ?_
  refine (cleanup_returns (hg.wf (ht.wf hw)) (hself.symm ▸ hold)).bind ?_
  intro _ u hu
  have hobj : ∀ i, u.mem.object ⟨some b, i⟩ = us[i]? := by
    intro i
    rw [hu.object, if_neg (Ne.symm hne), hnew]
  have hext : u.mem.extent b = some cap := by
    rw [hu.extent, if_neg hne, hg.extent, htext, Function.update_self]
  refine ⟨(), _, rfl, ⟨.block _ _ us hext hle hobj, rfl, hu.wf, ?_, ?_, fun c hc => ?_,
    fun c hc hco => ?_, fun p hp => ?_⟩, fun _ hz => absurd hz hcap, fun hti => ?_⟩
  · exact hu.nullOnZero.trans (hg.nullOnZero.trans ht.nullOnZero)
  · exact ht.fresh.trans (hg.fresh.trans hu.fresh)
  · cases hc
    exact Or.inr hb
  · change u.mem.extent c = _
    rw [hu.extent, hself, if_neg hco, hg.extent, htext, Function.update_of_ne (by omega)]
  · change u.mem.object p = _
    rw [hu.object, hself]
    split_ifs with hpb
    · rfl
    · exact hfar p hp hpb
  · exact hu.tidy (hg.tidy (ht.tidy hti))

/-- Moving or copying `vs` from one block into the raw start of another, as `relocate` and the
assignments do it. -/
structure Transfers (s : State α HeapArray) (b nb : ℕ) (vs : List α) (g : Ptr → Option α) :
    Prop where
  new : ∀ i, g ⟨some nb, i⟩ = vs[i]?
  old : ∃ ws : List α, ws.length = vs.length ∧ ∀ i, g ⟨some b, i⟩ = ws[i]?
  far : ∀ p, p.block ≠ some nb → p.block ≠ some b → g p = s.mem.object p

lemma copy_transfers {b nb : ℕ} (hne : b ≠ nb) (hobj : ∀ i, s.mem.object ⟨some b, i⟩ = vs[i]?)
    (hraw : ∀ i, s.mem.object ⟨some nb, i⟩ = none) :
    Transfers s b nb vs (overlay s.mem.object ⟨some nb, 0⟩ vs.length
      (fun i => s.mem.object ((⟨some b, 0⟩ : Ptr) + i))) where
  new i := by
    simp only [overlay, Ptr.mk_add, hobj, hraw]
    split_ifs with hi
    · simp
    · exact (List.getElem?_eq_none (by simp only [true_and, not_and] at hi; omega)).symm
  old := ⟨vs, rfl, fun i => by rw [overlay_other (by simpa using hne), hobj]⟩
  far p hp _ := overlay_other hp

lemma move_transfers {b nb : ℕ} (hne : b ≠ nb) (hobj : ∀ i, s.mem.object ⟨some b, i⟩ = vs[i]?)
    (hraw : ∀ i, s.mem.object ⟨some nb, i⟩ = none) :
    Transfers s b nb vs (moveOverlay E s.mem.object ⟨some b, 0⟩ ⟨some nb, 0⟩ vs.length) where
  new i := by
    rw [moveOverlay, overlay_other (by simpa using Ne.symm hne)]
    exact (copy_transfers hne hobj hraw).new i
  old := by
    refine ⟨vs.map E.movedFrom, by simp, fun i => ?_⟩
    rw [moveOverlay, List.getElem?_map, ← hobj]
    by_cases hi : i < vs.length
    · simp [overlay, Ptr.mk_add, hi]
    · rw [overlay_outside (by simp [hi]), overlay_other (by simpa using hne), hobj,
        List.getElem?_eq_none (by omega)]
      rfl
  far p hp hpb := by rw [moveOverlay, overlay_other hpb, overlay_other hp]

lemma Transfers.holds {a : HeapArray} {b nb : ℕ} {g : Ptr → Option α} {t : State α HeapArray}
    (ht : Transfers s b nb vs g) (h : Holds s.mem a vs) (hb : a.first.block = some b)
    (hg : s.Alters g t) : ∃ ws, Holds t.mem a ws := by
  obtain ⟨ws, hlen, hws⟩ := ht.old
  cases h with
  | nil => cases hb
  | block b' cap vs hext hle hobj =>
    cases hb
    refine ⟨ws, ?_⟩
    rw [← hlen]
    exact .block b cap ws (by rw [hg.extent, hext]) (by omega) (fun i => by rw [hg.object, hws])

/-- How many operations that may throw the relocation of `n` elements takes. -/
def relocationCost (E : Element α) (n : ℕ) : ℕ := n * (!(E.nothrowMove || E.nothrowCopy)).toNat

/-- Relocation moves where moving cannot throw, so an exception leaves everything as it was. -/
lemma relocate_ends {nb cap : ℕ} (hw : s.mem.Wf) (h : Holds s.mem s.self vs)
    (hne : s.self.first.block ≠ some nb) (hle : vs.length ≤ cap)
    (hext : s.mem.extent nb = some cap) (hraw : ∀ i, s.mem.object ⟨some nb, i⟩ = none) :
    (relocate E ⟨some nb, 0⟩).Ends s
      (fun q t => q = ⟨some nb, vs.length⟩ ∧ ∃ ws,
        s.Becomes (relocationCost E vs.length) t.mem.object t ∧
        (∀ i, t.mem.object ⟨some nb, i⟩ = vs[i]?) ∧ Holds t.mem s.self ws ∧
        ∀ p, p.block ≠ some nb → p.block ≠ s.self.first.block →
          t.mem.object p = s.mem.object p)
      (fun t => ∃ k, k < relocationCost E vs.length ∧ s.Breaks k s.mem.object t) := by
  refine Code.Ends.step (b := s.self) rfl ?_
  cases hb : s.self.first.block with
  | none =>
    obtain ⟨ha, rfl⟩ := h.eq_nil hb
    rw [if_neg (by simp [ha, nil])]
    refine Code.Ends.pure ⟨rfl, [], ?_, fun i => ?_, ?_, ?_⟩
    · simpa [relocationCost] using State.Becomes.refl s
    · rw [hraw, List.getElem?_nil]
    · rw [ha]
      exact .nil
    · exact fun p _ _ => rfl
  | some b =>
    rw [hb] at hne
    have hbn : b ≠ nb := fun he => hne (he ▸ rfl)
    have hfirst := h.first_eq hb
    have hcount : s.self.last - s.self.first = vs.length := h.size_eq
    have hsrc : ∀ i, i < vs.length → (s.mem.object ((⟨some b, 0⟩ : Ptr) + i)).isSome := by
      intro i hi
      rw [Ptr.mk_add, Nat.zero_add, h.object_eq hb, List.getElem?_eq_getElem hi]
      rfl
    have hin : ∀ i, i < vs.length → s.mem.inBounds ((⟨some nb, 0⟩ : Ptr) + i) = true :=
      fun i hi => Memory.inBounds_iff.mpr ⟨nb, cap, rfl, hext, by simp only [Ptr.add_off]; omega⟩
    have hempty : ∀ i, i < vs.length → s.mem.object ((⟨some nb, 0⟩ : Ptr) + i) = none :=
      fun i _ => hraw _
    have hend : (⟨some nb, 0⟩ : Ptr) + vs.length = ⟨some nb, vs.length⟩ := by
      rw [Ptr.mk_add, Nat.zero_add]
    have hdone : ∀ g t, Transfers s b nb vs g → s.Alters g t → ∃ ws,
        (∀ i, t.mem.object ⟨some nb, i⟩ = vs[i]?) ∧ Holds t.mem s.self ws ∧
        ∀ p, p.block ≠ some nb → p.block ≠ some b → t.mem.object p = s.mem.object p := by
      intro g t hT hg
      obtain ⟨ws, hws⟩ := hT.holds h hb hg
      refine ⟨ws, fun i => ?_, hws, fun p hp hpb => ?_⟩
      · rw [hg.object, hT.new]
      · rw [hg.object, hT.far p hp hpb]
    rw [if_pos (by simp [hfirst, Ptr.null])]
    split_ifs with hmove
    · rw [uninitializedMove, hcount, hfirst]
      refine (uninitializedMoveN_ends hw hsrc hin hempty).mono ?_ ?_
      · rintro _ t ⟨rfl, hg⟩
        obtain ⟨ws, hws⟩ := hdone _ _ (move_transfers hbn (h.object_eq hb) hraw) hg.toAlters
        refine ⟨hend, ws, ?_, hws⟩
        rw [hg.object]
        simpa [relocationCost, hmove] using hg
      · rintro t ⟨hthrow, _⟩
        rw [hmove] at hthrow
        cases hthrow
    · rw [uninitializedCopy, hcount, hfirst]
      refine (uninitializedCopyN_ends hw hsrc hin hempty).mono ?_ ?_
      · rintro _ t ⟨rfl, hg⟩
        obtain ⟨ws, hws⟩ := hdone _ _ (copy_transfers hbn (h.object_eq hb) hraw) hg.toAlters
        refine ⟨hend, ws, ?_, hws⟩
        rw [hg.object]
        simpa [relocationCost, hmove] using hg
      · rintro t ⟨hthrow, k, hk, ht⟩
        exact ⟨k, by simpa [relocationCost, hmove, hthrow] using hk, ht⟩

lemma reallocate_ends {n : ℕ} (hw : s.mem.Wf) (h : Holds s.mem s.self vs) (hn : n ≠ 0)
    (hle : vs.length ≤ n) :
    (reallocate E n).Ends s (fun _ s' => Updates s s.mem.object vs n s')
      (fun s' => ∃ k, s.Breaks k s.mem.object s') := by
  refine (replaceBuffer_ends (P := fun _ _ t => t.mem.object = s.mem.object) hw h hn hle
    (fun t b hb ht htw htext => ?_)).mono (fun _ _ h => h) ?_
  · have hself : t.self = s.self := ht.self
    refine (relocate_ends (E := E) htw (hself.symm ▸ h.allocated hw ht)
      (hself.symm ▸ h.not_fresh hw hb) hle htext (fun i => ?_)).mono ?_ ?_
    · rw [ht.object]
      exact object_none_fresh hw hb i
    · rw [hself, ht.object]
      rintro q t' ⟨hq, ws, hg, hrest⟩
      exact ⟨hq, _, ws, hg, hrest⟩
    · rintro t' ⟨k, _, hbr⟩
      exact ⟨k, hbr.object.trans ht.object, by simpa only [hbr.object] using hbr.toAlters,
        hbr.blown, fun _ => hbr.tidy⟩
  · rintro s' (hbr | ⟨k, b, t, ht, hab⟩)
    · exact ⟨0, hbr⟩
    · exact ⟨1 + k, hab.breaks ht (object_none_fresh hw hab.new)⟩

/-- The values after `resize(n)`. -/
def resized (E : Element α) (vs : List α) (n : ℕ) : List α :=
  vs.take n ++ List.replicate (n - vs.length) E.init

lemma resized_length (E : Element α) (vs : List α) (n : ℕ) : (resized E vs n).length = n := by
  simp only [resized, List.length_append, List.length_take, List.length_replicate]
  omega

lemma resized_self (E : Element α) (vs : List α) : resized E vs vs.length = vs := by
  simp [resized]

lemma extend_object {g : Ptr → Option α} {b n : ℕ} (hg : ∀ i, g ⟨some b, i⟩ = vs[i]?)
    (hn : vs.length ≤ n) (i : ℕ) :
    overlay g ⟨some b, vs.length⟩ (n - vs.length) (fun _ => some E.init) ⟨some b, i⟩ =
      (resized E vs n)[i]? := by
  rw [resized, List.take_of_length_le hn]
  by_cases hi : i < vs.length
  · rw [overlay_outside (by simp only [true_and, not_and]; omega), hg, List.getElem?_append_left hi]
  · rw [List.getElem?_append_right (by omega), List.getElem?_replicate]
    by_cases hin : i < n
    · have hinside := overlay_inside g ⟨some b, vs.length⟩ (fun _ => some E.init)
        (show i - vs.length < n - vs.length by omega)
      rw [Ptr.mk_add, show vs.length + (i - vs.length) = i by omega] at hinside
      rw [hinside, if_pos (by omega)]
    · rw [overlay_outside (by simp only [true_and, not_and]; omega), if_neg (by omega), hg,
        List.getElem?_eq_none (by omega)]

/-- A member function that an exception interrupted: the array still has its fields and its
elements, though not necessarily their values, and the objects of the other blocks are those
of `f`. -/
structure Survives (s : State α HeapArray) (f : Ptr → Option α) (s' : State α HeapArray) :
    Prop where
  self : s'.self = s.self
  holds : ∃ ws, Holds s'.mem s.self ws
  object : ∀ p, p.block ≠ s.self.first.block → s'.mem.object p = f p
  extent : s'.mem.extent = s.mem.extent
  fresh : s.mem.fresh ≤ s'.mem.fresh
  nullOnZero : s'.mem.nullOnZero = s.mem.nullOnZero
  wf : s'.mem.Wf

/-- An exception while `n - vs.length` elements are appended in a new block: what was
relocated to it is lost. -/
structure LosesRelocated (E : Element α) (s : State α HeapArray) (vs : List α) (n : ℕ)
    (s' : State α HeapArray) : Prop extends Survives s s.mem.object s' where
  throws : E.nothrowDefault = false
  position : ∃ k, s.mem.fuse = some k ∧ 1 + relocationCost E vs.length ≤ k ∧
    k < 1 + relocationCost E vs.length + (n - vs.length)
  tidy : vs = [] → s.mem.Tidy → s'.mem.Tidy

lemma resizeReallocate_ends {n : ℕ} (hw : s.mem.Wf) (h : Holds s.mem s.self vs)
    (hle : vs.length < n) : (resizeReallocate E n).Ends s
      (fun _ s' => Updates s s.mem.object (resized E vs n) n s')
      (fun s' => (∃ k, s.Breaks k s.mem.object s') ∨ LosesRelocated E s vs n s') := by
  refine (replaceBuffer_ends (P := fun k b t => t.mem.object = s.mem.object ∨
    (E.nothrowDefault = false ∧ relocationCost E vs.length ≤ k ∧
      k < relocationCost E vs.length + (n - vs.length) ∧ (∃ ws, Holds t.mem s.self ws) ∧
      (∀ i, t.mem.object ⟨some b, i⟩ = vs[i]?) ∧ ∀ p, p.block ≠ some b →
        p.block ≠ s.self.first.block → t.mem.object p = s.mem.object p)) hw h (by omega)
    (resized_length E vs n).le (fun t b hb ht htw htext => ?_)).mono (fun _ _ h => h) ?_
  · have hself : t.self = s.self := ht.self
    refine Code.Ends.bind ((relocate_ends (E := E) htw
      (hself.symm ▸ h.allocated hw ht) (hself.symm ▸ h.not_fresh hw hb) hle.le htext
      (fun i => by rw [ht.object, object_none_fresh hw hb])).mono (fun _ _ h => h) ?_) ?_
    · rintro t' ⟨k, _, hbr⟩
      exact ⟨k, Or.inl (hbr.object.trans ht.object), by simpa only [hbr.object] using hbr.toAlters,
        hbr.blown, fun _ => hbr.tidy⟩
    rw [hself, ht.object]
    rintro _ u ⟨rfl, ws, hu, hnew, hold, hfar⟩
    refine Code.Ends.step (b := u.self) rfl ?_
    have hcount : (if n > u.self.size then n - u.self.size else 0) = n - vs.length := by
      rw [hu.self, hself, h.size_eq, if_pos hle]
    rw [hcount]
    refine (uninitializedDefaultConstructN_ends (E := E) (hu.wf htw)
      (fun i hi => ?_) (fun i hi => ?_)).mono ?_ ?_
    · exact Memory.inBounds_iff.mpr ⟨b, n, rfl, by rw [hu.extent, htext],
        by simp only [Ptr.add_off]; omega⟩
    · rw [Ptr.mk_add, hnew, List.getElem?_eq_none (by omega)]
    · rintro _ u' ⟨rfl, hu'⟩
      have hnb := h.not_fresh hw hb
      refine ⟨?_, relocationCost E vs.length + (n - vs.length) * (!E.nothrowDefault).toNat, ws, ?_,
        fun i => ?_, hold.frame (fun c _ => by rw [hu'.extent]) (fun c i hc => ?_),
        fun p hp hps => ?_⟩
      · rw [Ptr.mk_add, resized_length]
        congr 1
        omega
      · have htrans := hu.trans hu'
        rw [← hu'.object] at htrans
        exact htrans
      · rw [hu'.object]
        exact extend_object hnew hle.le i
      · rw [hu'.object, overlay_other (by rw [← hc]; exact hnb)]
      · rw [hu'.object, overlay_other hp, hfar p hp hps]
    · rintro u' ⟨hthrow, k, hk, hbr⟩
      have hbreak := hu.breaks hbr
      refine ⟨relocationCost E vs.length + k, Or.inr ⟨hthrow, by omega, by omega,
        ⟨ws, hold.frame (fun c _ => by rw [hbr.extent]) (fun c i _ => by rw [hbr.object])⟩,
        fun i => by rw [hbr.object, hnew], fun p hp hps => by rw [hbr.object, hfar p hp hps]⟩,
        ?_, hbreak.blown, fun _ => hbreak.tidy⟩
      rw [hbr.object]
      exact hbreak.toAlters
  · rintro s' (hbr | ⟨k, b, t, ht, hab⟩)
    · exact Or.inl ⟨0, hbr⟩
    rcases ht with ht | ⟨hthrow, hk, hkn, ⟨ws, hold⟩, hnew, hfar⟩
    · exact Or.inl ⟨1 + k, hab.breaks ht (object_none_fresh hw hab.new)⟩
    · refine Or.inr ⟨⟨hab.self, ⟨ws, hab.holds hold (h.not_fresh hw hab.new)⟩, fun p hp => ?_,
        hab.extent, hab.fresh, hab.nullOnZero, hab.wf⟩, hthrow,
        ⟨1 + k, hab.blown, by omega, by omega⟩, ?_⟩
      · rw [hab.object]
        split_ifs with hpb
        · have hpe : p = ⟨some b, p.off⟩ := (Ptr.ext_iff' _ _).mpr ⟨hpb, rfl⟩
          rw [hpe, object_none_fresh hw hab.new]
        · exact hfar p hpb hp
      · rintro rfl
        exact hab.tidy (fun i => by rw [hnew, List.getElem?_nil])

lemma Updates.refl (hw : s.mem.Wf) (h : Holds s.mem s.self vs) :
    Updates s s.mem.object vs s.self.capacity s :=
  ⟨⟨h, rfl, hw, rfl, le_rfl, fun _ hb => Or.inl hb, fun _ _ _ => rfl,
    fun p hp => by rw [if_neg hp]⟩, id, id⟩

lemma Updates.inPlace (us : List α) {f g : Ptr → Option α} {t : State α HeapArray} {b c : ℕ}
    (hw : s.mem.Wf) (h : Holds s.mem s.self vs) (hg : s.Becomes c g t)
    (hb : s.self.first.block = some b) (hle : us.length ≤ s.self.capacity)
    (hobj : ∀ i, g ⟨some b, i⟩ = us[i]?) (hfar : ∀ p, p.block ≠ some b → g p = f p) :
    Updates s f us s.self.capacity
      { t with self := { s.self with last := s.self.first + us.length } } := by
  refine ⟨⟨?_, rfl, hg.wf hw, hg.nullOnZero, hg.fresh, fun c hcb => Or.inl hcb,
    fun c _ _ => by rw [hg.extent], fun p hp => ?_⟩, id, hg.tidy⟩
  · change Holds t.mem ⟨s.self.first, s.self.first + us.length, s.self.capacity⟩ us
    rw [h.first_add hb, h.first_eq hb]
    exact .block b _ us (by rw [hg.extent, h.extent_eq hb]) hle (fun i => by rw [hg.object, hobj])
  · change p.block ≠ s.self.first.block at hp
    rw [if_neg hp, hg.object, hfar p (hb ▸ hp)]

lemma trim_returns (us : List α) {f : Ptr → Option α} {t : State α HeapArray} {b c : ℕ}
    (hw : s.mem.Wf) (h : Holds s.mem s.self vs) (ht : s.Becomes c t.mem.object t)
    (hb : s.self.first.block = some b) (hle : us.length ≤ vs.length)
    (hnew : ∀ i, i < us.length → t.mem.object (s.self.first + i) = us[i]?)
    (hold : ∀ i, us.length ≤ i → t.mem.object (s.self.first + i) = vs[i]?)
    (hfar : ∀ p, p.block ≠ some b → t.mem.object p = f p) :
    (do
      destroyRange (s.self.first + us.length) (s.self.first + vs.length)
      setSelf { s.self with last := s.self.first + us.length }).Returns t
      (fun _ s' => Updates s f us s.self.capacity s') := by
  have hcap := h.size_le
  have hcount : s.self.first + vs.length - (s.self.first + us.length) = vs.length - us.length := by
    simp only [Ptr.sub_eq, Ptr.add_off]
    omega
  rw [destroyRange, hcount]
  refine (destroyAll_returns (ht.wf hw) (fun i hi => ?_)).bind ?_
  · rw [Ptr.add_add, hold _ (by omega), List.getElem?_eq_getElem (by omega)]
    rfl
  · intro _ u hu
    have hself : u.self = s.self := hu.self.trans ht.self
    refine setSelf_returns (Updates.inPlace us hw h (ht.trans hu) hb (by omega) (fun i => ?_)
      (fun p hp => ?_))
    · rw [← h.first_add hb]
      by_cases hi : i < us.length
      · rw [overlay_outside (by simp [hi]), hnew i hi]
      · rw [List.getElem?_eq_none (l := us) (by omega)]
        by_cases hin : i < vs.length
        · have hinside := overlay_inside t.mem.object (s.self.first + us.length) (fun _ => none)
            (show i - us.length < vs.length - us.length by omega)
          rwa [Ptr.add_add, show us.length + (i - us.length) = i by omega] at hinside
        · rw [overlay_outside (by simp only [Ptr.add_off]; omega), hold i (by omega),
            List.getElem?_eq_none (by omega)]
    · rw [overlay_other (by simpa [hb] using hp), hfar p hp]

/-- The capacity after `resize(n)` or `reserve(n)`. -/
def raised (cap n : ℕ) : ℕ := if n > cap then n else cap

lemma resizeBuffer_ends (n : ℕ) (hw : s.mem.Wf) (h : Holds s.mem s.self vs) :
    (resizeBuffer E n).Ends s
      (fun _ s' => Updates s s.mem.object (resized E vs n) (raised s.self.capacity n) s')
      (fun s' => (∃ k, s.Breaks k s.mem.object s') ∨
        (s.self.capacity < n ∧ LosesRelocated E s vs n s')) := by
  have hsize := h.size_eq
  have hcap := h.size_le
  refine Code.Ends.step (b := s.self) rfl ?_
  by_cases hsame : n = s.self.size
  · rw [if_pos hsame, raised, if_neg (by omega), hsame, hsize, resized_self]
    exact Code.Ends.pure (Updates.refl hw h)
  rw [if_neg hsame]
  by_cases hgrow : n > s.self.capacity
  · rw [if_pos hgrow, raised, if_pos hgrow]
    exact (resizeReallocate_ends hw h (by omega)).mono (fun _ _ h => h)
      (fun _ h => h.imp_right (fun h => ⟨hgrow, h⟩))
  rw [if_neg hgrow, raised, if_neg hgrow]
  cases hb : s.self.first.block with
  | none =>
    obtain ⟨ha, rfl⟩ := h.eq_nil hb
    rw [ha] at hgrow hsize hsame
    simp only [nil] at hgrow
    simp only [hsize, List.length_nil] at hsame
    omega
  | some b =>
    have hfirst := h.first_eq hb
    have hlast : s.self.last = ⟨some b, vs.length⟩ := by rw [h.last_eq, h.first_add hb]
    have hlen := resized_length E vs n
    by_cases hless : n < s.self.size
    · have hnew : s.self.last - (s.self.size - n) = s.self.first + n := by
        rw [hlast, h.first_add hb, Ptr.mk_sub, show vs.length - (s.self.size - n) = n by omega]
      have htrim := trim_returns (resized E vs n) (f := s.mem.object) hw h (.refl s) hb
        (by omega) (fun i hi => ?_) (fun i _ => ?_) (fun _ _ => rfl)
      · rw [if_pos hless, hnew, h.last_eq]
        rw [hlen] at htrim
        exact Code.Ends.of_returns htrim
      · rw [h.first_add hb, h.object_eq hb, resized,
          List.getElem?_append_left (by simp only [List.length_take]; omega),
          List.getElem?_take_of_lt (by omega)]
      · rw [h.first_add hb, h.object_eq hb]
    · rw [if_neg hless, uninitializedDefaultConstruct, hlast, Ptr.mk_add,
        if_pos ((Ptr.le_iff _ _).mpr (Nat.le_add_right _ _))]
      have hcount : (⟨some b, vs.length + (n - s.self.size)⟩ : Ptr) -
          (⟨some b, vs.length⟩ : Ptr) = n - vs.length := by
        simp only [Ptr.sub_eq]
        omega
      rw [hcount]
      refine Code.Ends.bind ((uninitializedDefaultConstructN_ends (E := E) hw (fun i hi => ?_)
        (fun i hi => ?_)).mono (fun _ _ h => h) ?_) ?_
      · exact Memory.inBounds_iff.mpr ⟨b, s.self.capacity, rfl, h.extent_eq hb,
          by simp only [Ptr.add_off]; omega⟩
      · rw [Ptr.mk_add, h.object_eq hb, List.getElem?_eq_none (by omega)]
      · rintro s' ⟨_, k, _, hbr⟩
        exact Or.inl ⟨k, hbr⟩
      · rintro _ t ⟨rfl, ht⟩
        refine Code.Ends.of_returns (setSelf_returns ?_)
        have hup := Updates.inPlace (resized E vs n) (f := s.mem.object) hw h ht hb
          (by omega) (extend_object (h.object_eq hb) (by omega)) (fun p hp => overlay_other hp)
        rw [hlen, hfirst, Ptr.mk_add, Nat.zero_add] at hup
        rw [Ptr.mk_add, show vs.length + (n - vs.length) = n by omega]
        exact hup

lemma reserve_ends (n : ℕ) (hw : s.mem.Wf) (h : Holds s.mem s.self vs) : (reserve E n).Ends s
    (fun _ s' => Updates s s.mem.object vs (raised s.self.capacity n) s')
    (fun s' => ∃ k, s.Breaks k s.mem.object s') := by
  have hcap := h.size_le
  refine Code.Ends.step (b := s.self) rfl ?_
  by_cases hgrow : n > s.self.capacity
  · rw [if_pos hgrow, raised, if_pos hgrow]
    exact reallocate_ends hw h (by omega) (by omega)
  · rw [if_neg hgrow, raised, if_neg hgrow]
    exact Code.Ends.pure (Updates.refl hw h)

lemma Cleared.updates {s' : State α HeapArray} (h : Cleared s s') :
    Updates s s.mem.object [] 0 s' := by
  refine ⟨⟨by rw [h.self]; exact .nil, by rw [h.self]; rfl, h.wf, h.nullOnZero, h.fresh,
    fun b hb => ?_, fun b _ hb => ?_, fun p _ => h.object p⟩, fun _ _ => by rw [h.self]; rfl,
    h.tidy⟩
  · rw [h.self] at hb
    cases hb
  · rw [h.extent, if_neg hb]

lemma shrinkToFit_ends (hw : s.mem.Wf) (h : Holds s.mem s.self vs) : (shrinkToFit E).Ends s
    (fun _ s' => Updates s s.mem.object vs vs.length s')
    (fun s' => ∃ k, s.Breaks k s.mem.object s') := by
  have hcap := h.size_le
  have hsize := h.size_eq
  refine Code.Ends.step (b := s.self) rfl ?_
  by_cases hless : s.self.size < s.self.capacity
  · rw [if_pos hless]
    by_cases hzero : s.self.size = 0
    · have hnil : vs = [] := List.length_eq_zero_iff.mp (by omega)
      subst hnil
      rw [if_pos hzero]
      exact Code.Ends.of_returns ((cleanup_returns hw h).mono (fun _ _ hs' => hs'.updates))
    · rw [if_neg hzero, hsize]
      exact reallocate_ends hw h (by omega) le_rfl
  · rw [if_neg hless, show vs.length = s.self.capacity by omega]
    exact Code.Ends.pure (Updates.refl hw h)

lemma clear_returns (hw : s.mem.Wf) (h : Holds s.mem s.self vs) :
    clear.Returns s (fun _ s' => Updates s s.mem.object [] 0 s') :=
  (cleanup_returns hw h).mono (fun _ _ hs' => hs'.updates)

lemma write_ends {i : ℕ} (v : α) (hw : s.mem.Wf) (h : Holds s.mem s.self vs)
    (hi : i < vs.length) : (write E i v).Ends s
      (fun _ s' => Updates s s.mem.object (vs.set i v) s.self.capacity s')
      (fun s' => ∃ k, s.Breaks k s.mem.object s') := by
  refine Code.Ends.step (b := s.self) rfl ?_
  cases hb : s.self.first.block with
  | none =>
    obtain ⟨_, rfl⟩ := h.eq_nil hb
    simp at hi
  | some b =>
    have hlen : (vs.set i v).length = vs.length := List.length_set
    rw [h.first_add hb]
    refine Code.Ends.mono (fallible_ends
      (g := Function.update s.mem.object ⟨some b, i⟩ (some v)) (fun t ht => ?_)) ?_
      (fun s' hs' => ⟨0, hs'.2⟩)
    · rw [← ht.object]
      refine assign_returns v (ht.wf hw) (v := vs[i]) ?_
      rw [ht.object, h.object_eq hb, List.getElem?_eq_getElem hi]
    · intro _ t ht
      have hup := Updates.inPlace (vs.set i v) (f := s.mem.object) hw h ht hb
        (by have := h.size_le; omega) (fun j => ?_) (fun p hp => ?_)
      · rw [hlen, ← h.last_eq] at hup
        obtain ⟨m, a⟩ := t
        have hself : a = s.self := ht.self
        rw [hself]
        exact hup
      · by_cases hj : j = i
        · subst hj
          rw [Function.update_self, List.getElem?_set_self hi]
        · rw [Function.update_of_ne (by simpa using hj), h.object_eq hb,
            List.getElem?_set_ne (Ne.symm hj)]
      · rw [Function.update_of_ne]
        rintro rfl
        exact hp rfl

end Methods

end HeapArray

end Voxory
