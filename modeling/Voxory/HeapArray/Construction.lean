import Voxory.HeapArray.Methods

/-!
# Constructing and moving heap arrays

A constructor starts from null fields. One that throws gives back what it allocated, so the
memory is as before and there is no array.
-/

namespace Voxory
open Cxx

namespace HeapArray

variable {α : Type} {s : State α HeapArray} {E : Element α} {vs : List α} {o : HeapArray}

/-- A constructor that threw: no object and no block was left behind. -/
def Fails (s s' : State α HeapArray) : Prop := ∃ k, s.Breaks k s.mem.object ⟨s'.mem, s.self⟩

/-- The construction step puts `us` into the new block, or throws with nothing in it. -/
def Builds (E : Element α) (s : State α HeapArray) (count : ℕ) (args : RangeArgs α)
    (us : List α) : Prop :=
  ∀ t b, s.mem.fresh ≤ b → t.mem.Wf → t.mem.object = s.mem.object → t.mem.extent b = some count →
    (buildRange E ⟨some b, 0⟩ count args).Ends t
      (fun q t' => q = ⟨some b, us.length⟩ ∧ ∃ c, t.Becomes c
        (overlay s.mem.object ⟨some b, 0⟩ us.length (fun i => us[i]?)) t')
      (fun t' => ∃ k, t.Breaks k s.mem.object t')

lemma default_builds (hw : s.mem.Wf) (n : ℕ) :
    Builds E s n .default (List.replicate n E.init) := by
  intro t b hb htw hobj hext
  refine (uninitializedDefaultConstructN_ends (E := E) htw (fun i hi => ?_) (fun i hi => ?_)).mono
    ?_ ?_
  · exact Memory.inBounds_iff.mpr ⟨b, n, rfl, hext, by simp only [Ptr.add_off]; omega⟩
  · rw [hobj, Ptr.mk_add, object_none_fresh hw hb]
  · rintro _ t' ⟨rfl, ht'⟩
    rw [overlay_congr (k := fun i => (List.replicate n E.init)[i]?) _ _
      (fun i hi => by simp [hi]), hobj] at ht'
    rw [List.length_replicate]
    exact ⟨by rw [Ptr.mk_add, Nat.zero_add], _, ht'⟩
  · rintro t' ⟨_, k, _, hbr⟩
    rw [hobj] at hbr
    exact ⟨k, hbr⟩

lemma fill_builds (hw : s.mem.Wf) (n : ℕ) (v : α) :
    Builds E s n (.fill v) (List.replicate n v) := by
  intro t b hb htw hobj hext
  refine (uninitializedFillN_ends (E := E) v htw (fun i hi => ?_) (fun i hi => ?_)).mono ?_ ?_
  · exact Memory.inBounds_iff.mpr ⟨b, n, rfl, hext, by simp only [Ptr.add_off]; omega⟩
  · rw [hobj, Ptr.mk_add, object_none_fresh hw hb]
  · rintro _ t' ⟨rfl, ht'⟩
    rw [overlay_congr (k := fun i => (List.replicate n v)[i]?) _ _
      (fun i hi => by simp [hi]), hobj] at ht'
    rw [List.length_replicate]
    exact ⟨by rw [Ptr.mk_add, Nat.zero_add], _, ht'⟩
  · rintro t' ⟨_, k, _, hbr⟩
    rw [hobj] at hbr
    exact ⟨k, hbr⟩

lemma copy_builds {c : ℕ} (hw : s.mem.Wf) (ho : Holds s.mem o vs) (hc : o.first.block = some c) :
    Builds E s o.capacity (.copy o.first o.last) vs := by
  intro t b hb htw hobj hext
  have hfirst := ho.first_eq hc
  have hcount : o.last - o.first = vs.length := ho.size_eq
  rw [buildRange, uninitializedCopy, hcount, hfirst]
  have hsize := ho.size_le
  have hsrc : ∀ i, (⟨some c, 0⟩ : Ptr) + i = ⟨some c, i⟩ := fun i => by rw [Ptr.mk_add, Nat.zero_add]
  refine (uninitializedCopyN_ends (E := E) htw (fun i hi => ?_)
    (fun i hi => ?_) (fun i hi => ?_)).mono ?_ ?_
  · rw [hsrc, hobj, ho.object_eq hc, List.getElem?_eq_getElem hi]
    rfl
  · exact Memory.inBounds_iff.mpr ⟨b, o.capacity, rfl, hext, by simp only [Ptr.add_off]; omega⟩
  · rw [hobj, Ptr.mk_add, object_none_fresh hw hb]
  · rintro _ t' ⟨rfl, ht'⟩
    rw [overlay_congr (k := fun i => vs[i]?) _ _
      (fun i _ => by rw [hsrc, hobj, ho.object_eq hc]), hobj] at ht'
    exact ⟨by rw [Ptr.mk_add, Nat.zero_add], _, ht'⟩
  · rintro t' ⟨_, k, _, hbr⟩
    rw [hobj] at hbr
    exact ⟨k, hbr⟩

/-- The array owns a new block, in which nothing is constructed yet. -/
structure Reserved (m : Memory α) (n b : ℕ) (t : State α HeapArray) : Prop where
  self : t.self = ⟨⟨some b, 0⟩, ⟨some b, 0⟩, n⟩
  new : m.fresh ≤ b
  extent : t.mem.extent = Function.update m.extent b (some n)
  allocates : State.Allocates (ρ := HeapArray) ⟨m, nil⟩ 1 n ⟨some b, 0⟩ ⟨t.mem, nil⟩

variable {m : Memory α} {n b : ℕ} {t : State α HeapArray}

lemma allocateBuffer_ends {a : HeapArray} (hw : m.Wf) (hn : n ≠ 0) :
    (allocateBuffer n : Method α Unit).Ends ⟨m, a⟩ (fun _ t => ∃ b, Reserved m n b t)
      (Fails ⟨m, nil⟩) := by
  refine Code.Ends.bind ((allocate_ends (s := ⟨m, a⟩) n hw).mono (fun _ _ h => h) ?_) ?_
  · intro s' hbr
    exact ⟨0, ⟨⟨rfl, hbr.object, hbr.extent, hbr.fresh, hbr.nullOnZero, hbr.wf⟩, hbr.blown,
      hbr.tidy⟩⟩
  · intro p t ht
    refine Code.Ends.of_returns (setSelf_returns ?_)
    rcases ht.answer with ⟨_, hz, _⟩ | ⟨b, hb, rfl, hz, hext⟩
    · exact absurd hz hn
    · exact ⟨b, rfl, hb, hext, ⟨rfl, ht.object, Or.inr ⟨b, hb, rfl, hz, hext⟩, ht.fresh,
        ht.nullOnZero, ht.wf, ht.spent, ht.tidy⟩⟩

lemma Reserved.undo {t' : State α HeapArray} {k : ℕ} (h : Reserved m n b t) (hw : m.Wf)
    (hbr : t.Breaks k m.object t') :
    (cleanup : Method α Unit).Returns t' (fun _ u => Fails ⟨m, nil⟩ u) := by
  have hraw : ∀ i, m.object ⟨some b, i⟩ = none := object_none_fresh hw h.new
  have hobj : t'.mem.object = m.object := hbr.object
  have hself : t'.self = ⟨⟨some b, 0⟩, ⟨some b, 0⟩, n⟩ := hbr.self.trans h.self
  have hempty : Holds t'.mem t'.self [] := by
    rw [hself]
    exact .block b n [] (by rw [hbr.extent, h.extent, Function.update_self]) (Nat.zero_le n)
      (fun i => by rw [hobj, hraw]; rfl)
  refine (cleanup_returns (hbr.wf (h.allocates.wf hw)) hempty).mono (fun _ u hu => ?_)
  refine ⟨1 + k, ⟨⟨rfl, ?_, ?_, h.allocates.fresh.trans (hbr.fresh.trans hu.fresh),
    hu.nullOnZero.trans (hbr.nullOnZero.trans h.allocates.nullOnZero), fun _ => hu.wf⟩,
    h.allocates.spent.blown hbr.blown, fun hti => hu.tidy (hbr.tidy (h.allocates.tidy hti))⟩⟩
  · funext p
    change u.mem.object p = m.object p
    rw [hu.object, hself, hobj]
    split_ifs with hp
    · have hpe : p = ⟨some b, p.off⟩ := (Ptr.ext_iff' _ _).mpr ⟨hp, rfl⟩
      rw [hpe, hraw]
    · rfl
  · funext c
    change u.mem.extent c = m.extent c
    rw [hu.extent, hself, hbr.extent, h.extent]
    by_cases hcb : c = b
    · subst hcb
      rw [if_pos rfl, hw.fresh c h.new]
    · rw [if_neg (by simpa using Ne.symm hcb), Function.update_of_ne hcb]

lemma Reserved.filled {u : State α HeapArray} {c : ℕ} (h : Reserved m n b t) (hw : m.Wf)
    (hn : n ≠ 0) (hle : vs.length ≤ n)
    (hu : t.Becomes c (overlay m.object ⟨some b, 0⟩ vs.length (fun i => vs[i]?)) u) :
    Updates ⟨m, nil⟩ m.object vs n ⟨u.mem, ⟨⟨some b, 0⟩, ⟨some b, vs.length⟩, n⟩⟩ := by
  refine ⟨⟨?_, rfl, hu.wf (h.allocates.wf hw), hu.nullOnZero.trans h.allocates.nullOnZero,
    h.allocates.fresh.trans hu.fresh, fun c hc => ?_, fun c hc _ => ?_, fun p hp => ?_⟩,
    fun _ hz => absurd hz hn, fun hti => hu.tidy (h.allocates.tidy hti)⟩
  · refine .block b n vs (by rw [hu.extent, h.extent, Function.update_self]) hle (fun i => ?_)
    rw [hu.object]
    by_cases hi : i < vs.length
    · have hinside := overlay_inside m.object ⟨some b, 0⟩ (fun i => vs[i]?) hi
      rwa [Ptr.mk_add, Nat.zero_add] at hinside
    · rw [overlay_outside (by simp [hi]), object_none_fresh hw h.new,
        List.getElem?_eq_none (by omega)]
  · cases hc
    exact Or.inr h.new
  · have hcb : c ≠ b := Nat.ne_of_lt (Nat.lt_of_lt_of_le hc h.new)
    change u.mem.extent c = m.extent c
    rw [hu.extent, h.extent, Function.update_of_ne hcb]
  · change u.mem.object p = _
    rw [hu.object, overlay_other hp]
    split_ifs with hpn
    · exact object_none_block hw hpn
    · rfl

lemma constructRange_ends {n : ℕ} {args : RangeArgs α} {a : HeapArray} (hw : s.mem.Wf)
    (hs : s.self = nil) (ha : a = ⟨.null, .null, n⟩) (hle : vs.length ≤ n)
    (hbuild : n ≠ 0 → Builds E s n args vs) :
    (constructRange E n args).Ends { s with self := a }
      (fun _ s' => Updates s s.mem.object vs n s') (Fails s) := by
  obtain ⟨m, a₀⟩ := s
  change a₀ = nil at hs
  subst hs
  refine Code.Ends.noexcept ?_
  by_cases hn : n = 0
  · subst hn
    have hvs : vs = [] := List.length_eq_zero_iff.mp (by omega)
    subst hvs
    rw [if_neg (by simp), ha]
    exact Code.Ends.pure (Updates.refl (s := ⟨m, nil⟩) hw .nil)
  rw [if_pos hn]
  refine (allocateBuffer_ends hw hn).bind ?_
  rintro _ t ⟨b, ht⟩
  refine Code.Ends.onThrow (R := fun t' => ∃ k, t.Breaks k m.object t') ?_ ?_
  · refine Code.Ends.step (b := t.self) rfl ?_
    rw [ht.self]
    refine Code.Ends.bind ((hbuild hn t b ht.new (ht.allocates.wf hw) ht.allocates.object
      (by rw [ht.extent, Function.update_self])).mono (fun _ _ h => h) (fun _ h => h)) ?_
    rintro _ u ⟨rfl, c, hu⟩
    exact Code.Ends.of_returns (setSelf_returns (ht.filled hw hn hle hu))
  · rintro t' ⟨k, hbr⟩
    exact ht.undo hw hbr

lemma construct_returns (hw : s.mem.Wf) (hs : s.self = nil) :
    construct.Returns s (fun _ s' => Updates s s.mem.object [] 0 s') := by
  obtain ⟨m, a⟩ := s
  cases hs
  exact setSelf_returns (Updates.refl (s := ⟨m, nil⟩) hw .nil)

lemma constructSized_ends (n : ℕ) (hw : s.mem.Wf) (hs : s.self = nil) :
    (constructSized E n).Ends s
      (fun _ s' => Updates s s.mem.object (List.replicate n E.init) n s') (Fails s) :=
  Code.Ends.noexcept (Code.Ends.step rfl
    (constructRange_ends hw hs rfl (by simp) (fun _ => default_builds hw n)))

lemma constructFill_ends (n : ℕ) (v : α) (hw : s.mem.Wf) (hs : s.self = nil) :
    (constructFill E n v).Ends s
      (fun _ s' => Updates s s.mem.object (List.replicate n v) n s') (Fails s) :=
  Code.Ends.noexcept (Code.Ends.step rfl
    (constructRange_ends hw hs rfl (by simp) (fun _ => fill_builds hw n v)))

lemma constructCopy_ends (hw : s.mem.Wf) (hs : s.self = nil) (ho : Holds s.mem o vs) :
    (constructCopy E o).Ends s (fun _ s' => Updates s s.mem.object vs o.capacity s') (Fails s) := by
  refine Code.Ends.noexcept (Code.Ends.step rfl
    (constructRange_ends hw hs rfl ho.size_le (fun hn => ?_)))
  cases hc : o.first.block with
  | none => exact absurd (by rw [(ho.eq_nil hc).1]; rfl) hn
  | some c => exact copy_builds hw ho hc

lemma assignMove_returns (hw : s.mem.Wf) (h : Holds s.mem s.self vs) :
    (assignMove o).Returns s (fun left s' =>
      left = nil ∧ s'.self = o ∧ Cleared s ⟨s'.mem, nil⟩) := by
  refine (cleanup_returns hw h).bind (fun _ t ht => ?_)
  exact ⟨nil, _, rfl, rfl, rfl, ⟨rfl, ht.object, ht.extent, ht.fresh, ht.nullOnZero, ht.wf, ht.tidy⟩⟩

end HeapArray

end Voxory
