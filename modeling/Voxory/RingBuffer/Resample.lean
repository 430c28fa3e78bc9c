import Voxory.RingBuffer.Replacement
import Voxory.RingBuffer.Session
import Mathlib.Algebra.Order.Floor.Semiring
import Mathlib.Data.List.GetD
import Mathlib.Data.Rat.Floor

/-!
# Linear resampling

`resample_linear` of `audio/audio_internal.h`, over exact rationals. It writes the samples of its
result through `operator[]`, into a buffer that was constructed with a capacity: they are all in
their slots, but the buffer does not count them.
-/

namespace Voxory
open Cxx Cyclic

namespace RingBuffer

/-- `float` -/
def float : Element ℚ where
  init := 0
  movedFrom := id
  moveAssignedFrom := id
  defaultThrows := false
  copyThrows := false
  moveThrows := false
  copyAssignThrows := false
  moveAssignThrows := false
  copyAssignable := true
  moveAssignable := true
  byteCopy := true
  byteFill := false
  byteCopy_movedFrom _ := rfl
  byteCopy_moveAssignedFrom _ := rfl

/-- `operator[]` of the buffer `o`. -/
def indexOf {α : Type} (o : RingBuffer) (idx : ℕ) : Method α Ptr :=
  if o.capacity = 0 then Code.undefined .modZero else pure (o.place idx)

/-- `(idx < src.size()) ? src[idx] : 0.0f`, with the indices at which `src` was read. -/
def sampleAt (src : RingBuffer) (idx : ℕ) : Method ℚ (ℚ × List ℕ) :=
  if idx < src.size then do
    let p ← indexOf src idx
    let v ← Cxx.read p
    pure (v, [idx])
  else pure (0, [])

/-- The body of the loop, for `dst[i]`. A `float` comes to life where it is assigned. -/
def resampleOne (src : RingBuffer) (ratio : ℚ) (i : ℕ) : Method ℚ (List ℕ) := do
  let srcPos := i * ratio
  let i0 := ⌊srcPos⌋₊
  let i1 := i0 + 1
  let frac := srcPos - i0
  let (s0, reads0) ← sampleAt src i0
  let (s1, reads1) ← sampleAt src i1
  let p ← index i
  store p (s0 * (1 - frac) + s1 * frac)
  pure (reads0 ++ reads1)

/-- The `n` rounds of the loop from `i` on. -/
def resampleFrom (src : RingBuffer) (ratio : ℚ) : ℕ → ℕ → Method ℚ (List ℕ)
  | 0, _ => pure []
  | n + 1, i => do
    let reads ← resampleOne src ratio i
    let rest ← resampleFrom src ratio n (i + 1)
    pure (reads ++ rest)

/-- `resample_linear`, with the indices at which the source is read. `copy` stands for the copy
constructor, which is needed where the rates are the same; as it is, it calls a helper that is not
declared. -/
def resampleLinear (copy : RingBuffer → Method ℚ (List ℕ)) (src : RingBuffer)
    (srcRate dstRate : ℕ) : Method ℚ (List ℕ) :=
  if srcRate = dstRate then copy src
  else do
    let ratio : ℚ := srcRate / dstRate
    let dstLen := ⌈src.size / ratio⌉₊
    constructSized dstLen
    resampleFrom src ratio dstLen 0

/-! ### What it should do -/

/-- The samples as a function of the position: linear from each to the next, and zero beyond the
end. -/
def interpolation (q : List ℚ) (x : ℚ) : ℚ :=
  q.getD ⌊x⌋₊ 0 + Int.fract x * (q.getD (⌊x⌋₊ + 1) 0 - q.getD ⌊x⌋₊ 0)

/-- How many samples there are at the other rate. -/
def resampledLength (n srcRate dstRate : ℕ) : ℕ := ⌈(n * dstRate / srcRate : ℚ)⌉₊

/-- `try_pop_front`, `n` times. -/
def popEach : ℕ → Method ℚ (List (Option ℚ))
  | 0 => pure []
  | n + 1 => do
    let v ← tryPopFront float
    let vs ← popEach n
    pure (v :: vs)

/-- The buffer holds the samples `q` at the other rate, to be counted, indexed and popped; its
source was only read where it has samples. -/
structure Resampled (q : List ℚ) (srcRate dstRate : ℕ) (reads : List ℕ) (s : State ℚ RingBuffer) :
    Prop where
  size : s.self.size = resampledLength q.length srcRate dstRate
  indexed : ∀ i, i < resampledLength q.length srcRate dstRate →
    (do let p ← index i
        Cxx.read p) s = .returned (interpolation q (i * (srcRate / dstRate))) s
  popped : (popEach (resampledLength q.length srcRate dstRate)).Returns s (fun vs _ =>
    vs = (List.range (resampledLength q.length srcRate dstRate)).map
      (fun i => some (interpolation q (i * (srcRate / dstRate)))))
  read : ∀ j ∈ reads, j < q.length

/-! ### The loop -/

variable {s t u : State ℚ RingBuffer} {src : RingBuffer} {q : List ℚ} {ratio : ℚ}
  {bo fo lo c i n idx srcRate dstRate : ℕ}

lemma interpolation_eq (hratio : 0 ≤ ratio) (i : ℕ) : interpolation q (i * ratio) =
    q.getD ⌊i * ratio⌋₊ 0 * (1 - (i * ratio - ⌊i * ratio⌋₊)) +
      q.getD (⌊i * ratio⌋₊ + 1) 0 * (i * ratio - ⌊i * ratio⌋₊) := by
  have hfract : Int.fract (i * ratio) = i * ratio - ⌊i * ratio⌋₊ := by
    rw [Int.fract, natCast_floor_eq_intCast_floor (by positivity)]
  unfold interpolation
  rw [hfract]
  ring

lemma sampleAt_run (h : Holds s.mem src bo fo lo q) (hw : s.mem.Wf) (idx : ℕ) :
    sampleAt src idx s = .returned (q.getD idx 0, if idx < q.length then [idx] else []) s := by
  unfold sampleAt
  by_cases hidx : idx < q.length
  · have hread := Holds.object_slot (s := ⟨s.mem, src⟩) h hidx
    have hplace := Holds.place_eq (s := ⟨s.mem, src⟩) h idx
    change s.mem.object ⟨some bo, slot src.capacity fo idx⟩ = q[idx]? at hread
    change src.place idx = ⟨some bo, slot src.capacity fo idx⟩ at hplace
    have hcap := Holds.capacity_pos (s := ⟨s.mem, src⟩) h
    rw [List.getElem?_eq_getElem hidx] at hread
    rw [h.size, if_pos hidx, if_pos hidx, indexOf, if_neg hcap, hplace,
      Code.bind_returned (Code.pure_run _ _), Code.bind_returned (read_run hw hread),
      List.getD_eq_getElem _ _ hidx]
    rfl
  · rw [h.size, if_neg hidx, if_neg hidx, List.getD_eq_default _ _ (by omega)]
    rfl

/-- The source holds the samples `q` apart from the target, an empty buffer in the block `c` whose
first `i` slots have been written in `u`. -/
structure Writing (src : RingBuffer) (q : List ℚ) (ratio : ℚ) (t : State ℚ RingBuffer) (c i : ℕ)
    (u : State ℚ RingBuffer) : Prop where
  target : Holds t.mem t.self c 0 0 []
  source : ∃ bo fo lo, bo ≠ c ∧ Holds t.mem src bo fo lo q
  wf : t.mem.Wf
  written : t.Becomes 0 (overlay t.mem.object ⟨some c, 0⟩ i
    (fun j => some (interpolation q (j * ratio)))) u

lemma Writing.index_run (h : Writing src q ratio t c n u) (hi : i < t.self.capacity) :
    index i u = .returned ⟨some c, i⟩ u := by
  have hslot : slot t.self.capacity 0 i = i := by
    rw [slot, Nat.zero_add, Nat.mod_eq_of_lt hi]
  unfold index
  rw [Code.bind_returned (show self u = .returned u.self u from rfl), h.written.self,
    append_run h.target h.written.self, hslot]

lemma resampleOne_returns (h : Writing src q ratio t c i u) (hratio : 0 ≤ ratio)
    (hi : i < t.self.capacity) : (resampleOne src ratio i).Returns u (fun reads v =>
      (∀ j ∈ reads, j < q.length) ∧ Writing src q ratio t c (i + 1) v) := by
  obtain ⟨bo, fo, lo, hbo, hsrc⟩ := h.source
  have hu := h.written
  have hsource : Holds u.mem src bo fo lo q :=
    { hsrc with
      extent := by rw [hu.extent, hsrc.extent]
      object := fun j hj => by rw [hu.object, overlay_other (by simpa using hbo), hsrc.object j hj] }
  have hwf := hu.wf h.wf
  have hbelow : ∀ idx, ∀ j ∈ (if idx < q.length then [idx] else []), j < q.length := by
    intro idx j hj
    split_ifs at hj with hidx
    · rw [List.mem_singleton.mp hj]
      exact hidx
    · cases hj
  unfold resampleOne
  apply Code.Returns.step (sampleAt_run hsource hwf _)
  apply Code.Returns.step (sampleAt_run hsource hwf _)
  apply Code.Returns.step (h.index_run hi)
  apply (store_returns _ (by rw [hu.inBounds]; exact h.target.inBounds hi)).bind
  intro _ v hv
  apply Code.Returns.pure
  constructor
  · intro j hj
    rcases List.mem_append.mp hj with hj | hj
    · exact hbelow _ j hj
    · exact hbelow _ j hj
  · refine ⟨h.target, h.source, h.wf, ?_⟩
    rw [hu.object, ← interpolation_eq hratio] at hv
    rw [overlay_succ, Ptr.mk_add, Nat.zero_add]
    exact hu.trans hv

lemma resampleFrom_returns (h : Writing src q ratio t c i u) (hratio : 0 ≤ ratio)
    (hn : i + n ≤ t.self.capacity) : (resampleFrom src ratio n i).Returns u (fun reads v =>
      (∀ j ∈ reads, j < q.length) ∧ Writing src q ratio t c (i + n) v) := by
  induction n generalizing i u with
  | zero => exact Code.Returns.pure ⟨fun j hj => absurd hj List.not_mem_nil, h⟩
  | succ n ih =>
    apply (resampleOne_returns h hratio (by omega)).bind
    intro reads v ⟨hreads, hv⟩
    apply (ih hv (by omega)).bind
    intro rest w ⟨hrest, hw⟩
    apply Code.Returns.pure
    constructor
    · intro j hj
      rcases List.mem_append.mp hj with hj | hj
      · exact hreads j hj
      · exact hrest j hj
    · rwa [Nat.add_assoc, Nat.add_comm 1 n] at hw

/-! ### The result -/

lemma resampledLength_eq (n srcRate dstRate : ℕ) :
    ⌈n / (srcRate / dstRate : ℚ)⌉₊ = resampledLength n srcRate dstRate := by
  unfold resampledLength
  rw [div_div_eq_mul_div]

lemma resampledLength_pos (hsrc : 1 ≤ srcRate) (hdst : 1 ≤ dstRate) (hn : 1 ≤ n) :
    1 ≤ resampledLength n srcRate dstRate := by
  have hs : (0 : ℚ) < srcRate := by exact_mod_cast hsrc
  have hd : (0 : ℚ) < dstRate := by exact_mod_cast hdst
  have hq : (0 : ℚ) < n := by exact_mod_cast hn
  unfold resampledLength
  exact Nat.ceil_pos.mpr (by positivity)

/-- What the loop leaves: the samples in their slots, read where the source has samples, and a size
of zero. -/
structure Uncounted (q : List ℚ) (srcRate dstRate : ℕ) (reads : List ℕ) (s : State ℚ RingBuffer) :
    Prop where
  size : s.self.size = 0
  indexed : ∀ i, i < resampledLength q.length srcRate dstRate →
    (do let p ← index i
        Cxx.read p) s = .returned (interpolation q (i * (srcRate / dstRate))) s
  read : ∀ j ∈ reads, j < q.length

lemma constructSized_writing (ratio : ℚ) (h : Holds s.mem src bo fo lo q) (hw : s.mem.Wf) (hn : 1 ≤ n) :
    (constructSized n).Ends s
      (fun _ t => t.self.capacity = n ∧ t.self.size = 0 ∧ ∃ c, Writing src q ratio t c 0 t)
      (fun _ => s.mem.fuse ≠ none) := by
  unfold constructSized allocateBuffer
  apply Code.Ends.step rfl
  apply Code.Ends.step rfl
  rw [if_neg (by omega)]
  apply (allocate_calm n (s := ⟨s.mem, nil true⟩) hw).bind
  intro p t ht
  apply Code.Ends.of_returns
  apply setSelf_returns
  refine ⟨rfl, rfl, ?_⟩
  obtain ⟨c, hc⟩ := holds_of_allocates (s := ⟨s.mem, nil true⟩) hn hw ht true
  have hnew : s.mem.fresh ≤ c := by
    rcases ht.answer with ⟨-, hzero, -⟩ | ⟨b, hb, hp, -, -⟩
    · omega
    · cases hp.symm.trans hc.data
      exact hb
  have hbo : bo < s.mem.fresh := by
    by_contra hge
    have hnone := hw.fresh bo (by omega)
    rw [h.extent] at hnone
    cases hnone
  have hext : t.mem.extent bo = some src.capacity := by
    rcases ht.answer with ⟨-, hzero, -⟩ | ⟨b, hb, -, -, hext⟩
    · omega
    · change s.mem.fresh ≤ b at hb
      rw [hext, Function.update_of_ne (by omega)]
      exact h.extent
  refine ⟨c, hc, ⟨bo, fo, lo, by omega, { h with extent := hext, object := fun j hj => ?_ }⟩,
    ht.wf hw, ?_⟩
  · rw [ht.object]
    exact h.object j hj
  · rw [overlay_zero]
    exact .refl _

lemma Writing.uncounted {reads : List ℕ} (h : Writing src q (srcRate / dstRate) t c n u)
    (hn : n = resampledLength q.length srcRate dstRate) (hcap : t.self.capacity = n)
    (hsize : t.self.size = 0) (hreads : ∀ j ∈ reads, j < q.length) :
    Uncounted q srcRate dstRate reads u where
  size := by rw [h.written.self, hsize]
  indexed i hi := by
    have hu := h.written
    rw [← hn] at hi
    have hobject := overlay_inside t.mem.object ⟨some c, 0⟩
      (fun j => some (interpolation q (j * (srcRate / dstRate)))) hi
    rw [← hu.object, Ptr.mk_add, Nat.zero_add] at hobject
    rw [Code.bind_returned (h.index_run (by omega))]
    exact read_run (hu.wf h.wf) hobject
  read := hreads

lemma resampleLinear_uncounted (copy : RingBuffer → Method ℚ (List ℕ)) (h : Stores s.mem src q)
    (hw : s.mem.Wf) (hsrc : 1 ≤ srcRate) (hdst : 1 ≤ dstRate) (hne : srcRate ≠ dstRate) :
    (resampleLinear copy src srcRate dstRate).Ends s
      (fun reads s' => Uncounted q srcRate dstRate reads s') (fun _ => s.mem.fuse ≠ none) := by
  unfold resampleLinear
  rw [if_neg hne]
  dsimp only
  rw [resampledLength_eq, h.size_eq]
  generalize hn : resampledLength q.length srcRate dstRate = n
  by_cases hq : q.length = 0
  · have hzero : n = 0 := by
      rw [← hn, hq, resampledLength, Nat.cast_zero, zero_mul, zero_div, Nat.ceil_zero]
    subst hzero
    refine ⟨rfl, fun i hi => ?_, fun j hj => absurd hj List.not_mem_nil⟩
    rw [hn] at hi
    exact absurd hi (Nat.not_lt_zero i)
  · obtain ⟨bo, fo, lo, hsource⟩ := h.holds_of_ne hq
    have hpos : 1 ≤ n := by
      rw [← hn]
      exact resampledLength_pos hsrc hdst (by omega)
    apply (constructSized_writing (srcRate / dstRate) hsource hw hpos).bind
    intro _ t ⟨hcap, hsize, c, ht⟩
    apply Code.Ends.of_returns
    apply (resampleFrom_returns ht (by positivity) (by omega)).mono
    intro reads u ⟨hreads, hu⟩
    rw [Nat.zero_add] at hu
    exact hu.uncounted hn.symm hcap hsize hreads

lemma Uncounted.resampled_iff {reads : List ℕ} (h : Uncounted q srcRate dstRate reads s)
    (hsrc : 1 ≤ srcRate) (hdst : 1 ≤ dstRate) :
    Resampled q srcRate dstRate reads s ↔ q = [] := by
  constructor
  · intro hr
    by_contra hq
    have hpos := resampledLength_pos hsrc hdst (List.length_pos_of_ne_nil hq)
    have hsize := hr.size
    rw [h.size] at hsize
    omega
  · intro hq
    have hzero : resampledLength q.length srcRate dstRate = 0 := by
      rw [hq, List.length_nil, resampledLength, Nat.cast_zero, zero_mul, zero_div, Nat.ceil_zero]
    refine ⟨h.size.trans hzero.symm, h.indexed, ?_, h.read⟩
    rw [hzero]
    exact Code.Returns.pure rfl

/-- Resampling to another rate returns, if there is memory, a buffer in which the samples can be
indexed, counted and popped exactly when there are none. -/
theorem resampleLinear_iff (copy : RingBuffer → Method ℚ (List ℕ)) (h : Stores s.mem src q)
    (hw : s.mem.Wf) (hsrc : 1 ≤ srcRate) (hdst : 1 ≤ dstRate) (hne : srcRate ≠ dstRate) :
    (resampleLinear copy src srcRate dstRate).Ends s
      (fun reads s' => Resampled q srcRate dstRate reads s' ↔ q = [])
      (fun _ => s.mem.fuse ≠ none) :=
  (resampleLinear_uncounted copy h hw hsrc hdst hne).mono
    (fun _ _ hs' => hs'.resampled_iff hsrc hdst) (fun _ hfuse => hfuse)

lemma sample_stored :
    Stores (laid 1 0 [8] true).mem (laid 1 0 [8] true).self ([8] : List ℚ) :=
  .holds 0 0 _ [8] (laid_holds (by decide) (by decide) true)

/-- No samples at 8 kHz are no samples at 16 kHz, and one sample at 8 kHz is not resampled. -/
theorem silence_resampled :
    (∃ reads s', resampleLinear (fun _ => pure []) (nil true) 8000 16000 (start (nil true)) =
      .returned reads s' ∧ Resampled [] 8000 16000 reads s') ∧
    ∃ reads s', resampleLinear (fun _ => pure []) (laid 1 0 [8] true).self 8000 16000
      (laid 1 0 [8] true) = .returned reads s' ∧ ¬Resampled [8] 8000 16000 reads s' := by
  constructor
  · have hsource : Stores (start (nil true)).mem (nil true) ([] : List ℚ) :=
      .blockless rfl rfl rfl rfl
    have hends := resampleLinear_iff (s := start (nil true)) (fun _ => pure []) hsource
      (Memory.empty_wf none true) (by decide : 1 ≤ 8000) (by decide : 1 ≤ 16000) (by decide)
    obtain ⟨reads, s', hrun, hiff⟩ := hends.returns (fun _ hfuse => hfuse rfl)
    exact ⟨reads, s', hrun, hiff.mpr rfl⟩
  · have hends := resampleLinear_iff (fun _ => pure []) sample_stored (laid_wf 1 0 [8] true)
      (by decide : 1 ≤ 8000) (by decide : 1 ≤ 16000) (by decide)
    obtain ⟨reads, s', hrun, hiff⟩ := hends.returns (fun _ hfuse => hfuse rfl)
    exact ⟨reads, s', hrun, fun hr => List.cons_ne_nil 8 [] (hiff.mp hr)⟩

/-- One sample at 8 kHz becomes two at 16 kHz, and the buffer with both of them is empty. -/
theorem upsampled_empty : ∃ reads s',
    resampleLinear (fun _ => pure []) (laid 1 0 [8] true).self 8000 16000 (laid 1 0 [8] true) =
      .returned reads s' ∧
    (do let p ← index 0
        Cxx.read p) s' = .returned 8 s' ∧
    resampledLength 1 8000 16000 = 2 ∧ s'.self.size = 0 ∧
    tryPopFront float s' = .returned none s' ∧ ¬Resampled [8] 8000 16000 reads s' := by
  have hends := resampleLinear_uncounted (fun _ => pure []) sample_stored (laid_wf 1 0 [8] true)
    (by decide : 1 ≤ 8000) (by decide : 1 ≤ 16000) (by decide)
  obtain ⟨reads, s', hrun, hs'⟩ := hends.returns (fun _ hfuse => hfuse rfl)
  have hlength : resampledLength 1 8000 16000 = 2 := by
    unfold resampledLength
    norm_num
  have hfirst := hs'.indexed 0 (by rw [List.length_singleton, hlength]; decide)
  rw [Nat.cast_zero, zero_mul, show interpolation [8] 0 = 8 by norm_num [interpolation]] at hfirst
  refine ⟨reads, s', hrun, hfirst, hlength, hs'.size, ?_, fun hr => ?_⟩
  · unfold tryPopFront
    rw [Code.bind_returned (show self s' = .returned s'.self s' from rfl), if_pos hs'.size]
    rfl
  · have hnil := (hs'.resampled_iff (by decide) (by decide)).mp hr
    cases hnil

end RingBuffer

end Voxory
