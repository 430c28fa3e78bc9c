import Voxory.HeapArray.Construction

/-!
# Copy assignment of heap arrays

`_assign` has four ways to go: it keeps the target, it discards what the target has for an
empty block of the source's capacity, it rebuilds the target in a new block, or it works in
the target's own block. Its tag is an lvalue by the time it reaches
`_clean_and_create_buffer_src`, so rebuilding moves the elements out of the source.
-/

namespace Voxory
open Cxx

namespace HeapArray

/-- The source has no elements and the capacities agree. -/
def Keeps (a o : HeapArray) : Prop := o.size = 0 ∧ o.capacity = a.capacity

/-- The source has no elements and the capacities differ. -/
def Discards (a o : HeapArray) : Prop := o.size = 0 ∧ o.capacity ≠ a.capacity

/-- The source has elements, and the target has none or too little room. -/
def Rebuilds (a o : HeapArray) : Prop := o.size ≠ 0 ∧ (a.size = 0 ∨ o.size > a.capacity)

instance (a o : HeapArray) : Decidable (Keeps a o) := inferInstanceAs (Decidable (_ ∧ _))

instance (a o : HeapArray) : Decidable (Discards a o) := inferInstanceAs (Decidable (_ ∧ _))

instance (a o : HeapArray) : Decidable (Rebuilds a o) := inferInstanceAs (Decidable (_ ∧ _))

variable {α : Type} {s : State α HeapArray} {E : Element α} {vs us : List α} {o : HeapArray}

/-- The objects after the first `k` elements of `o` were moved from. -/
def movedOut (E : Element α) (f : Ptr → Option α) (o : HeapArray) (k : ℕ) : Ptr → Option α :=
  overlay f o.first k (fun i => (f (o.first + i)).map E.movedFrom)

@[simp] lemma movedOut_zero (f : Ptr → Option α) : movedOut E f o 0 = f :=
  overlay_zero _ _ _

lemma movedOut_other {f : Ptr → Option α} {k : ℕ} {p : Ptr} (hp : p.block ≠ o.first.block) :
    movedOut E f o k p = f p := overlay_other hp

/-- Between the objects `f` and `g` elements of `o` were moved from. -/
structure Spends (f g : Ptr → Option α) (o : HeapArray) : Prop where
  live : ∀ p, (g p).isSome = (f p).isSome
  other : ∀ p, p.block ≠ o.first.block → g p = f p

lemma Spends.refl (f : Ptr → Option α) (o : HeapArray) : Spends f f o :=
  ⟨fun _ => rfl, fun _ _ => rfl⟩

lemma spends_movedOut {f : Ptr → Option α} (k : ℕ) : Spends f (movedOut E f o k) o :=
  ⟨fun p => overlay_map_isSome f o.first k E.movedFrom p, fun _ hp => movedOut_other hp⟩

lemma Spends.left {m : Memory α} {g : Ptr → Option α} (h : Spends m.object g o) (ho : Holds m o us) :
    ∃ ws : List α, ws.length = us.length ∧
      ∀ b, o.first.block = some b → ∀ i, g ⟨some b, i⟩ = ws[i]? := by
  cases ho with
  | nil => exact ⟨[], rfl, fun b hb => nomatch hb⟩
  | block b cap us hext hle hobj =>
    have hsome : ∀ i, i < us.length → (g ⟨some b, i⟩).isSome := by
      intro i hi
      rw [h.live, hobj, List.getElem?_eq_getElem hi]
      rfl
    refine ⟨List.ofFn (fun i : Fin us.length => (g ⟨some b, i⟩).get (hsome i i.isLt)), by simp, ?_⟩
    intro c hc i
    cases hc
    by_cases hi : i < us.length
    · simp [hi]
    · have hnone := h.live ⟨some b, i⟩
      rw [hobj, List.getElem?_eq_none (by omega)] at hnone
      rw [List.getElem?_eq_none (by simpa using hi)]
      simpa using hnone

/-- The objects `f`, with those of `o` replaced by what they are in `g`. -/
def spent (f g : Ptr → Option α) (o : HeapArray) : Ptr → Option α := fun p =>
  if p.block = o.first.block then g p else f p

lemma spends_spent {f g : Ptr → Option α}
    (h : ∀ p, p.block = o.first.block → (g p).isSome = (f p).isSome) :
    Spends f (spent f g o) o where
  live p := by
    rw [spent]
    split_ifs with hp
    · exact h p hp
    · rfl
  other p hp := if_neg hp

/-- Rebuilding moves from the source. -/
lemma rebuild_ends {c : ℕ} (hw : s.mem.Wf) (h : Holds s.mem s.self vs) (ho : Holds s.mem o us)
    (hc : o.first.block = some c) (hne : s.self.first.block ≠ some c) (hus : us ≠ []) :
    (cleanAndCreateBufferSrc E o.capacity o.first us.length Tag.copyTag.named).Ends s
      (fun _ s' => Updates s (movedOut E s.mem.object o us.length) us o.capacity s')
      (fun s' => ∃ k j, j ≤ us.length ∧ s.Breaks k (movedOut E s.mem.object o j) s') := by
  have hpos : 0 < us.length := List.length_pos_of_ne_nil hus
  have hsize := ho.size_le
  refine (replaceBuffer_ends (P := fun _ _ t => ∃ j, j ≤ us.length ∧
    t.mem.object = movedOut E s.mem.object o j) hw h (by omega) hsize
    (fun t b hb ht htw htext => ?_)).mono (fun _ _ h => h) ?_
  · have hcb : c ≠ b := fun he => ho.not_fresh hw hb (he ▸ hc)
    have hsb : s.self.first.block ≠ some b := h.not_fresh hw hb
    have hdiff : o.first.block ≠ (⟨some b, 0⟩ : Ptr).block := by rw [hc]; simpa using hcb
    have hcount : o.first + us.length - o.first = us.length := by simp [Ptr.sub_eq]
    rw [if_neg (by decide), uninitializedMove,
      if_pos ((Ptr.le_iff _ _).mpr (Nat.le_add_right _ _)), hcount]
    refine (uninitializedMoveN_ends (E := E) htw (fun i hi => ?_) (fun i hi => ?_)
      (fun i hi => ?_)).mono ?_ ?_
    · rw [ht.object]
      exact ho.live_at hi
    · exact Memory.inBounds_iff.mpr ⟨b, o.capacity, rfl, htext, by simp only [Ptr.add_off]; omega⟩
    · rw [ht.object, Ptr.mk_add, object_none_fresh hw hb]
    · rintro _ t' ⟨rfl, ht'⟩
      rw [ht.object] at ht'
      have hobj : ∀ p, p.block ≠ some b →
          t'.mem.object p = movedOut E s.mem.object o us.length p := by
        intro p hp
        rw [ht'.object, moveOverlay, movedOut]
        by_cases hin : p.block = o.first.block ∧ o.first.off ≤ p.off ∧
            p.off < o.first.off + us.length
        · simp only [overlay, if_pos hin]
        · rw [overlay_outside hin, overlay_outside hin, overlay_other hp]
      refine ⟨by rw [Ptr.mk_add, Nat.zero_add], _, vs, by rw [← ht'.object] at ht'; exact ht',
        fun i => ?_, ?_, fun p hp _ => hobj p hp⟩
      · rw [ht'.object, moveOverlay, overlay_other (by simpa using hdiff.symm)]
        by_cases hi : i < us.length
        · have hinside := overlay_inside s.mem.object ⟨some b, 0⟩
            (fun i => s.mem.object (o.first + i)) hi
          rw [Ptr.mk_add, Nat.zero_add, ho.object_at hus] at hinside
          exact hinside
        · rw [overlay_outside (by simp [hi]), object_none_fresh hw hb,
            List.getElem?_eq_none (by omega)]
      · refine (h.allocated hw ht).frame (fun d _ => by rw [ht'.extent]) (fun d i hd => ?_)
        rw [hobj _ (by rw [← hd]; exact hsb), movedOut_other, ht.object]
        rw [← hd, hc]
        exact hne
    · rintro t' ⟨_, k, hk, hbr⟩
      rw [ht.object] at hbr
      exact ⟨k, ⟨k, hk.le, hbr.object⟩, by simpa only [hbr.object] using hbr.toAlters, hbr.blown,
        fun _ => hbr.tidy⟩
  · rintro s' (hbr | ⟨k, b, t, ⟨j, hj, ht⟩, hab⟩)
    · exact ⟨0, 0, Nat.zero_le _, by rwa [movedOut_zero]⟩
    · refine ⟨1 + k, j, hj, hab.breaks ht (fun i => ?_)⟩
      have hcb : c ≠ b := fun he => ho.not_fresh hw hab.new (he ▸ hc)
      rw [movedOut_other (by rw [hc]; simpa using Ne.symm hcb), object_none_fresh hw hab.new]

/-- An exception inside a copy assignment that works in the target's own block, after a first
element was assigned: the guard destroys elements that the target still counts. -/
def Torn (E : Element α) (a o : HeapArray) (fuse : Option ℕ) : Prop :=
  E.nothrowCopyAssign = false ∧ o.size ≠ 0 ∧ ¬Rebuilds a o ∧
    ∃ k ∈ fuse, 0 < k ∧ k < min a.size o.size

instance (E : Element α) (a o : HeapArray) (fuse : Option ℕ) : Decidable (Torn E a o fuse) :=
  inferInstanceAs (Decidable (_ ∧ _ ∧ _ ∧ _))

lemma Survives.of_breaks {b k : ℕ} {f g : Ptr → Option α} (ws : List α) {s' : State α HeapArray}
    (hw : s.mem.Wf) (h : Holds s.mem s.self vs) (hbr : s.Breaks k f s')
    (hb : s.self.first.block = some b) (hlen : ws.length = vs.length)
    (hobj : ∀ i, f ⟨some b, i⟩ = ws[i]?) (hfar : ∀ p, p.block ≠ some b → f p = g p) :
    Survives s g s' where
  self := hbr.self
  holds := by
    have hfirst := h.first_eq hb
    have hlast : s.self.last = ⟨some b, ws.length⟩ := by rw [h.last_eq, h.first_add hb, hlen]
    refine ⟨ws, ?_⟩
    have hblock : Holds s'.mem ⟨⟨some b, 0⟩, ⟨some b, ws.length⟩, s.self.capacity⟩ ws :=
      .block b _ ws (by rw [hbr.extent, h.extent_eq hb]) (by have := h.size_le; omega)
        (fun i => by rw [hbr.object, hobj])
    rwa [← hfirst, ← hlast] at hblock
  object p hp := by rw [hbr.object, hfar p (by rwa [← hb])]
  extent := hbr.extent
  fresh := hbr.fresh
  nullOnZero := hbr.nullOnZero
  wf := hbr.wf hw

/-- An exception out of an assignment in the target's own block: either it tore the target, which
still counts a dead slot, or it did not. -/
def Stopped (E : Element α) (s : State α HeapArray) (o : HeapArray) (s' : State α HeapArray) : Prop :=
  (Torn E s.self o s.mem.fuse ∧ s'.self = s.self ∧ s'.mem.object s.self.first = none) ∨
    (¬Torn E s.self o s.mem.fuse ∧ s.mem.fuse ≠ none ∧ Survives s s.mem.object s' ∧
      (s.mem.Tidy → s'.mem.Tidy))

/-- The guard of `copy_assign_n` has destroyed what was assigned before the exception. -/
lemma Stopped.of_assign {b k : ℕ} {s' : State α HeapArray} (hw : s.mem.Wf)
    (h : Holds s.mem s.self vs) (hb : s.self.first.block = some b) (hfits : o.size ≤ s.self.capacity)
    (hthrow : E.nothrowCopyAssign = false) (hk : k < min s.self.size o.size)
    (hbr : s.Breaks k (overlay s.mem.object s.self.first k (fun _ => none)) s') :
    Stopped E s o s' := by
  by_cases hzero : k = 0
  · subst hzero
    rw [overlay_zero] at hbr
    refine Or.inr ⟨?_, by simp [hbr.blown],
      .of_breaks vs hw h hbr hb rfl (h.object_eq hb) (fun _ _ => rfl), hbr.tidy⟩
    rintro ⟨-, -, -, j, hj, hpos, -⟩
    rw [hbr.blown] at hj
    cases hj
    exact Nat.lt_irrefl 0 hpos
  · refine Or.inl ⟨⟨hthrow, by omega, by simp only [Rebuilds]; omega, k, hbr.blown, by omega,
      hk⟩, hbr.self, ?_⟩
    rw [hbr.object]
    exact overlay_inside s.mem.object s.self.first (fun _ => none) (Nat.pos_of_ne_zero hzero)

/-- Every old element was assigned before a construction past them threw. -/
lemma Stopped.of_create {b c k : ℕ} {t s' : State α HeapArray} (hw : s.mem.Wf)
    (h : Holds s.mem s.self vs) (hb : s.self.first.block = some b) (hle : vs.length ≤ us.length)
    (ht : s.Becomes c (overlay s.mem.object s.self.first vs.length (fun i => us[i]?)) t)
    (hc : E.nothrowCopyAssign = false → c = vs.length) (hbr : t.Breaks k t.mem.object s') :
    Stopped E s o s' := by
  have hbreak := ht.breaks hbr
  have hsize := h.size_eq
  rw [ht.object] at hbreak
  refine Or.inr ⟨?_, by simp [hbreak.blown], .of_breaks (us.take vs.length) hw h hbreak hb
    (by rw [List.length_take]; omega) (fun i => ?_) (fun p hp => overlay_other (by rwa [hb])),
    hbreak.tidy⟩
  · rintro ⟨hthrow, -, -, j, hj, -, hlt⟩
    rw [hbreak.blown, hc hthrow, Option.mem_def, Option.some.injEq] at hj
    omega
  rw [← h.first_add hb]
  by_cases hi : i < vs.length
  · rw [overlay_inside _ _ _ hi, List.getElem?_take_of_lt hi]
  · rw [overlay_outside (by simp [hi]), h.first_add hb, h.object_eq hb,
      List.getElem?_eq_none (by omega), List.getElem?_eq_none (by rw [List.length_take]; omega)]

lemma inPlace_ends {b : ℕ} (hw : s.mem.Wf) (h : Holds s.mem s.self vs) (ho : Holds s.mem o us)
    (hb : s.self.first.block = some b) (hne : o.first.block ≠ some b)
    (hus : us.length ≤ s.self.capacity) (hvs : vs ≠ []) (hous : us ≠ []) :
    (assignFrom E o Tag.copyTag).Ends s (fun _ s' => Updates s s.mem.object us s.self.capacity s')
      (Stopped E s o) := by
  have hsize := h.size_eq
  have hosize := ho.size_eq
  have hcap := h.size_le
  have hvpos : 0 < vs.length := List.length_pos_of_ne_nil hvs
  have hupos : 0 < us.length := List.length_pos_of_ne_nil hous
  have hdiff : o.first.block ≠ s.self.first.block := by rw [hb]; exact hne
  refine Code.Ends.step (b := s.self) rfl ?_
  rw [if_neg (by omega), if_neg (by omega)]
  by_cases hmore : o.size > s.self.size
  · rw [if_pos hmore, hsize, if_pos (by decide)]
    refine Code.Ends.bind ((copyAssignN_ends (E := E) hw hdiff (fun i hi => ho.live_at (by omega))
      (fun i hi => h.live_at hi)).mono (fun _ _ h => h) ?_) ?_
    · rintro s' ⟨hthrow, k, hk, hbr⟩
      exact .of_assign hw h hb (by omega) hthrow (by omega) hbr
    rintro _ t ⟨rfl, ht⟩
    rw [if_pos (by decide)]
    have hold : t.mem.object = overlay s.mem.object s.self.first vs.length (fun i => us[i]?) := by
      rw [ht.object]
      exact overlay_congr _ _ (fun i _ => by rw [ho.object_at hous])
    have htobj : ∀ p, p.block ≠ some b → t.mem.object p = s.mem.object p := by
      intro p hp
      rw [ht.object, overlay_other (by rwa [hb])]
    refine Code.Ends.bind ((uninitializedCopyN_ends (E := E) (ht.wf hw)
      (fun i hi => ?_) (fun i hi => ?_) (fun i hi => ?_)).mono (fun _ _ h => h) ?_) ?_
    · rw [Ptr.add_add, htobj _ (by simpa using hne)]
      exact ho.live_at (by omega)
    · rw [ht.inBounds, Ptr.add_add, h.first_add hb]
      exact Memory.inBounds_iff.mpr ⟨b, _, rfl, h.extent_eq hb, by simp only; omega⟩
    · rw [Ptr.add_add, ht.object, overlay_outside (by simp), h.object_at hvs,
        List.getElem?_eq_none (by omega)]
    · rintro s' ⟨_, k, _, hbr⟩
      rw [← ht.object, hold] at ht
      exact .of_create hw h hb (by omega) ht (fun hthrow => by simp [hthrow]) hbr
    · rintro _ u ⟨rfl, hu⟩
      have hglue : overlay t.mem.object (s.self.first + vs.length) (o.size - vs.length)
          (fun i => t.mem.object (o.first + vs.length + i)) =
          overlay s.mem.object s.self.first us.length (fun i => us[i]?) := by
        have hnew : ∀ i, i < o.size - vs.length →
            t.mem.object (o.first + vs.length + i) = us[vs.length + i]? := by
          intro i _
          rw [Ptr.add_add, htobj _ (by simpa using hne), ho.object_at hous]
        rw [overlay_congr _ _ hnew, hold, overlay_append,
          show vs.length + (o.size - vs.length) = us.length by omega]
      rw [hglue] at hu
      have hself : u.self = s.self := hu.self.trans ht.self
      refine Code.Ends.of_returns (setSelf_returns ?_)
      have hup := Updates.inPlace us (f := s.mem.object) hw h (ht.trans hu) hb hus
        (fun i => ?_) (fun p hp => overlay_other (by rwa [hb]))
      · rwa [Ptr.add_add, show vs.length + (o.size - vs.length) = us.length by omega]
      · rw [← h.first_add hb]
        by_cases hi : i < us.length
        · rw [overlay_inside _ _ _ hi]
        · rw [overlay_outside (by simp [hi]), h.object_at hvs, List.getElem?_eq_none (by omega),
            List.getElem?_eq_none (by omega)]
  · rw [if_neg hmore, if_pos (by decide)]
    refine Code.Ends.bind ((copyAssignN_ends (E := E) hw hdiff (fun i hi => ho.live_at (by omega))
      (fun i hi => h.live_at (by omega))).mono (fun _ _ h => h) ?_) ?_
    · rintro s' ⟨hthrow, k, hk, hbr⟩
      exact .of_assign hw h hb (by omega) hthrow (by omega) hbr
    rintro _ t ⟨rfl, ht⟩
    have htrim := trim_returns us (f := s.mem.object) hw h (t := t) (by rwa [ht.object]) hb
      (by omega) (fun i hi => ?_) (fun i hi => ?_) (fun p hp => ?_)
    · rw [Ptr.add_add, show o.size + (s.self.size - o.size) = vs.length by omega, hosize]
      exact Code.Ends.of_returns htrim
    · rw [ht.object, overlay_inside _ _ _ (by omega), ho.object_at hous]
    · rw [ht.object, overlay_outside (by simp only [Ptr.add_off]; omega), h.object_at hvs]
    · rw [ht.object, overlay_other (by rwa [hb])]

/-- `_deallocate_buffer` before an assignment has destroyed the target's elements, or with
nothing to deallocate. -/
def Leaky (a o : HeapArray) (m : Memory α) : Prop :=
  Discards a o ∧ (a.size ≠ 0 ∨
    (a.first = Ptr.null ∧ ∀ l ∈ outstanding m.trace, (Ptr.null, 0) ∉ l))

instance (a o : HeapArray) (m : Memory α) : Decidable (Leaky a o m) :=
  inferInstanceAs (Decidable (_ ∧ _))

lemma discard_tidy (hw : s.mem.Wf) (h : Holds s.mem s.self vs) (hd : Discards s.self o)
    (hleak : ¬Leaky s.self o s.mem) (ht : s.mem.Tidy) :
    (s.mem.release s.self.first s.self.capacity).Tidy := by
  simp only [Leaky, hd, true_and, not_or, not_not, not_and, not_forall] at hleak
  obtain ⟨hzero, hnull⟩ := hleak
  obtain ⟨m, a⟩ := s
  change Holds m a vs at h
  change a.size = 0 at hzero
  rw [h.size_eq, List.length_eq_zero_iff] at hzero
  subst hzero
  refine Memory.release_tidy ht (fun q hq => ?_) (fun l hl => ?_)
  · cases hb : a.first.block with
    | none => exact object_none_block hw (by rw [hq, hb])
    | some b =>
      have hqe : q = ⟨some b, q.off⟩ := (Ptr.ext_iff' _ _).mpr ⟨hq.trans hb, rfl⟩
      rw [hqe, h.object_eq hb, List.getElem?_nil]
  · cases hb : a.first.block with
    | none =>
      obtain ⟨rfl, -⟩ := h.eq_nil hb
      obtain ⟨l', hl', hmem⟩ := hnull rfl
      change outstanding m.trace = some l at hl
      rw [hl] at hl'
      cases hl'
      exact hmem
    | some b =>
      obtain ⟨l', hl', hmem⟩ := ht.blocks
      change outstanding m.trace = some l at hl
      change outstanding m.trace = some l' at hl'
      rw [hl] at hl'
      cases hl'
      rw [h.first_eq hb]
      exact hmem b _ (h.extent_eq hb)

lemma discard_ends (hw : s.mem.Wf) (h : Holds s.mem s.self vs) (hd : Discards s.self o) :
    (do deallocateBuffer; allocateBuffer o.capacity : Method α Unit).Ends s
      (fun _ s' => Leaves s s.mem.object [] o.capacity s' ∧
        (¬Leaky s.self o s.mem → s.mem.Tidy → s'.mem.Tidy))
      (fun s' => s.mem.fuse ≠ none ∧ Leaves s s.mem.object [] 0 s' ∧
        (¬Leaky s.self o s.mem → s.mem.Tidy → s'.mem.Tidy)) := by
  -- what is left after `_deallocate_buffer`
  let t : State α HeapArray := ⟨s.mem.release s.self.first s.self.capacity, nil⟩
  have htw : t.mem.Wf := Memory.release_wf hw _ _
  have htobj : ∀ p, t.mem.object p = if p.block = s.self.first.block then none else s.mem.object p :=
    fun p => rfl
  have htext : ∀ b, s.self.first.block ≠ some b → t.mem.extent b = s.mem.extent b :=
    fun b hb => if_neg hb
  refine Code.Ends.step (b := ()) (t := t) rfl ?_
  refine Code.Ends.bind ((allocate_ends o.capacity htw).mono (fun _ _ h => h) ?_) ?_
  · intro s' hbr
    have hself : s'.self = nil := hbr.self
    have hblown : s.mem.fuse = some 0 := hbr.blown
    refine ⟨by simp [hblown], ⟨by rw [hself]; exact .nil, by rw [hself]; rfl, hbr.wf htw,
      hbr.nullOnZero, hbr.fresh, fun b hb => ?_, fun b _ hb => ?_, fun p _ => ?_⟩,
      fun hleak ht => hbr.tidy (discard_tidy hw h hd hleak ht)⟩
    · rw [hself] at hb
      cases hb
    · rw [hbr.extent, htext b hb]
    · rw [hbr.object, htobj]
  · intro p u hu
    refine Code.Ends.of_returns (setSelf_returns
      ⟨?_, fun hleak ht => hu.tidy (discard_tidy hw h hd hleak ht)⟩)
    rcases hu.answer with ⟨rfl, hz, _, hext⟩ | ⟨b, hb, rfl, _, hext⟩
    · rw [hz]
      refine ⟨.nil, rfl, hu.wf htw, hu.nullOnZero, hu.fresh, fun b hb => ?_, fun b _ hb => ?_,
        fun p _ => ?_⟩
      · cases hb
      · change u.mem.extent b = _
        rw [hext, htext b hb]
      · change u.mem.object p = _
        rw [hu.object, htobj]
    · have hfresh : s.mem.fresh ≤ b := hb
      refine ⟨.block b _ [] (by rw [hext, Function.update_self]) (Nat.zero_le _) (fun i => ?_), rfl,
        hu.wf htw, hu.nullOnZero, hu.fresh, fun c hc => ?_, fun c hc hcs => ?_, fun p _ => ?_⟩
      · rw [hu.object, object_none_fresh htw hb, List.getElem?_nil]
      · cases hc
        exact Or.inr hfresh
      · change u.mem.extent c = _
        rw [hext, Function.update_of_ne (by omega), htext c hcs]
      · change u.mem.object p = _
        rw [hu.object, htobj]

/-- The objects of the other arrays after `*this = o`. -/
def leftover (E : Element α) (f : Ptr → Option α) (a o : HeapArray) : Ptr → Option α :=
  if Rebuilds a o then movedOut E f o o.size else f

/-- The values after `*this = o`. -/
def assigned (a o : HeapArray) (vs us : List α) : List α := if Keeps a o then vs else us

/-- The capacity after `*this = o`. -/
def assignedCapacity (a o : HeapArray) : ℕ :=
  if Rebuilds a o ∨ Discards a o then o.capacity else a.capacity

/-- An exception out of a copy assignment that is not torn: every array still has its elements,
save that the target may have lost its own and the source may have been moved from. -/
def Interrupted (E : Element α) (s : State α HeapArray) (o : HeapArray) (s' : State α HeapArray) :
    Prop :=
  s.mem.fuse ≠ none ∧
    ((Discards s.self o ∧ Leaves s s.mem.object [] 0 s' ∧
      (¬Leaky s.self o s.mem → s.mem.Tidy → s'.mem.Tidy)) ∨
    (∃ j, j ≤ o.size ∧ Survives s (movedOut E s.mem.object o j) s' ∧
      (s.mem.Tidy → s'.mem.Tidy)))

lemma assignCopy_ends (hw : s.mem.Wf) (h : Holds s.mem s.self vs) (ho : Holds s.mem o us)
    (hdiff : ∀ b, o.first.block = some b → s.self.first.block ≠ some b) :
    (assignCopy E o).Ends s
      (fun _ s' => Leaves s (leftover E s.mem.object s.self o) (assigned s.self o vs us)
          (assignedCapacity s.self o) s' ∧
        (¬Leaky s.self o s.mem → s.mem.Tidy → s'.mem.Tidy))
      (fun s' => Torn E s.self o s.mem.fuse ∨ Interrupted E s o s') := by
  have hsize := h.size_eq
  have hosize := ho.size_eq
  by_cases hzero : o.size = 0
  · have hnil : us = [] := List.length_eq_zero_iff.mp (by omega)
    subst hnil
    have hrebuild : ¬Rebuilds s.self o := fun hr => hr.1 hzero
    rw [assignCopy, assignFrom]
    refine Code.Ends.step (b := s.self) rfl ?_
    rw [if_pos (Or.inr hzero), if_neg (by simp [hzero])]
    by_cases hcap : o.capacity = s.self.capacity
    · have hdiscard : ¬Discards s.self o := fun hd => hd.2 hcap
      rw [if_neg (by simp [hcap]), leftover, if_neg hrebuild, assigned, if_pos ⟨hzero, hcap⟩,
        assignedCapacity, if_neg (by tauto)]
      exact Code.Ends.pure ⟨(Updates.refl hw h).toLeaves, fun _ ht => ht⟩
    · have hdiscard : Discards s.self o := ⟨hzero, hcap⟩
      rw [if_pos hcap, leftover, if_neg hrebuild, assigned, if_neg (fun hk => hcap hk.2),
        assignedCapacity, if_pos (Or.inr hdiscard)]
      exact (discard_ends hw h hdiscard).mono (fun _ _ hs' => hs')
        (fun s' hs' => Or.inr ⟨hs'.1, Or.inl ⟨hdiscard, hs'.2⟩⟩)
  have hous : us ≠ [] := by
    rintro rfl
    exact hzero hosize
  obtain ⟨c, hc⟩ := ho.owns hous
  have hne := hdiff c hc
  have hkeep : ¬Keeps s.self o := fun hk => hzero hk.1
  have hdiscard : ¬Discards s.self o := fun hd => hzero hd.1
  rw [assigned, if_neg hkeep, assignedCapacity, leftover]
  by_cases hrebuild : Rebuilds s.self o
  · rw [if_pos hrebuild, if_pos (Or.inl hrebuild)]
    have hrun : (cleanAndCreateBufferSrc E o.capacity o.first o.size Tag.copyTag.named).Ends s
        (fun _ s' => Leaves s (movedOut E s.mem.object o o.size) us o.capacity s' ∧
          (¬Leaky s.self o s.mem → s.mem.Tidy → s'.mem.Tidy))
        (fun s' => Torn E s.self o s.mem.fuse ∨ Interrupted E s o s') := by
      rw [hosize]
      refine (rebuild_ends hw h ho hc hne hous).mono
        (fun _ s' hs' => ⟨hs'.toLeaves, fun _ => hs'.tidy⟩) ?_
      rintro s' ⟨k, j, hj, hbr⟩
      refine Or.inr ⟨by simp [hbr.blown], Or.inr ⟨j, by omega, ⟨hbr.self, ⟨vs, ?_⟩,
        fun p _ => by rw [hbr.object], hbr.extent, hbr.fresh, hbr.nullOnZero, hbr.wf hw⟩,
        hbr.tidy⟩⟩
      refine h.frame (fun b _ => by rw [hbr.extent]) (fun b i hb => ?_)
      rw [hbr.object, movedOut_other]
      rw [hc, ← hb]
      exact hne
    rw [assignCopy, assignFrom]
    refine Code.Ends.step (b := s.self) rfl ?_
    by_cases hempty : s.self.size = 0
    · rw [if_pos (Or.inl hempty), if_pos hzero]
      exact hrun
    · rw [if_neg (by tauto), if_pos (by have := hrebuild.2; omega)]
      exact hrun
  · rw [if_neg hrebuild, if_neg (by tauto)]
    have hfit : ¬(s.self.size = 0 ∨ o.size > s.self.capacity) := fun hr => hrebuild ⟨hzero, hr⟩
    have hvs : vs ≠ [] := by
      rintro rfl
      exact hfit (Or.inl hsize)
    obtain ⟨b, hb⟩ := h.owns hvs
    refine (inPlace_ends hw h ho hb (fun ho' => hdiff b ho' hb) (by omega) hvs hous).mono
      (fun _ s' hs' => ⟨hs'.toLeaves, fun _ => hs'.tidy⟩) ?_
    rintro s' (⟨htorn, -⟩ | ⟨-, hfuse, hsurv, htidy⟩)
    · exact Or.inl htorn
    · exact Or.inr ⟨hfuse, Or.inr ⟨0, Nat.zero_le _, by rwa [movedOut_zero], htidy⟩⟩

end HeapArray

end Voxory
