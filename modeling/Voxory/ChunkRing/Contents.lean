import Voxory.ChunkRing.Order

/-!
# What a popped chunk holds

The slot of chunk `r` is the slot of chunk `r + slots`, too. The pointer that a pop returns is to
the chunk it claimed as long as the producer has not copied that later chunk.
-/

namespace Voxory
open Cxx

namespace ChunkRing

variable {α : Type}

namespace Threads

/-- How many chunks the producer has copied into the ring. -/
def copies (s : Threads α) : ℕ :=
  match s.pushing with
  | .copied _ => s.pushed + 1
  | .idle | .starting | .gotWrite _ | .gotRead _ _ | .dropped _ => s.pushed

/-- A pop that returns a pointer, having loaded `r`, returns it to the samples of chunk `r`. -/
def Intact (src : ℕ → List α) (s : Threads α) (l : Atomic) : Prop :=
  l = .popReturn → ∀ r ptr, s.popping = .claimed r ptr → s.ring.samples ptr = src r

/-- A pop that has loaded `r` returns before chunk `r + slots` is copied. -/
def InTime (s : Threads α) (l : Atomic) : Prop :=
  l = .popReturn → ∀ r ptr, s.popping = .claimed r ptr → s.copies ≤ r + s.ring.slots

instance (s : Threads α) (l : Atomic) : Decidable (s.InTime l) :=
  match hp : s.popping with
  | .claimed r _ => decidable_of_iff (l = .popReturn → s.copies ≤ r + s.ring.slots)
    ⟨fun h hl r' ptr' hp' => by rw [hp] at hp'; cases hp'; exact h hl, fun h hl => h hl _ _ hp⟩
  | .idle | .gotRead _ | .nonempty _ => .isTrue (fun _ r ptr hp' => by rw [hp] at hp'; cases hp')

/-- The invariant of all runs: the last chunks copied are in their slots. -/
structure Filled (src : ℕ → List α) (s : Threads α) : Prop extends Sane s where
  fits : s.ring.Fits
  stocked : s.ring.Stocked s.copies src
  pointer : ∀ r ptr, s.popping = .claimed r ptr → ptr = r % s.ring.slots * s.ring.chunkSz

variable {src : ℕ → List α} {s s' : Threads α} {l : Atomic}

lemma Filled.step (h : Filled src s) (hlen : ∀ n, (src n).length = s.ring.chunkSz)
    (hc : s.Counted l) (hs : Step src s l s') :
    Filled src s' ∧ s'.ring.chunkSz = s.ring.chunkSz := by
  have hsane := h.toSane.step h.fits.slots_pos hc hs
  have hfits := h.fits
  have hstocked := h.stocked
  have hpointer := h.pointer
  have hloaded := h.pushing
  rw [copies] at hstocked
  cases hs with
  | stop => exact ⟨h, rfl⟩
  | begin hp =>
    rw [hp] at hstocked
    exact ⟨⟨hsane, hfits, hstocked, hpointer⟩, rfl⟩
  | loadWrite hp =>
    rw [hp] at hstocked
    exact ⟨⟨hsane, hfits, hstocked, hpointer⟩, rfl⟩
  | loadRead hp =>
    rw [hp] at hstocked
    exact ⟨⟨hsane, hfits, hstocked, hpointer⟩, rfl⟩
  | drop hp =>
    rw [hp] at hstocked
    exact ⟨⟨hsane, ⟨hfits.slots_pos, hfits.bytes_lt, hfits.length⟩, hstocked, hpointer⟩, rfl⟩
  | @copy w ring hp hcopy =>
    have hw : w = s.pushed ∧ s.ring.Stocked s.pushed src := by
      rcases hp with ⟨r, hp, -⟩ | hp <;> rw [hp] at hloaded hstocked
      · exact ⟨hloaded.1, hstocked⟩
      · exact ⟨hloaded, hstocked⟩
    obtain ⟨rfl, hbefore⟩ := hw
    rw [hfits.copyChunk_run (hlen _)] at hcopy
    cases hcopy
    have hroom := hfits.slot_le s.pushed
    refine ⟨⟨hsane, ⟨hfits.slots_pos, hfits.bytes_lt, ?_⟩, hbefore.copy hfits (hlen _), hpointer⟩, rfl⟩
    have hbuffer := hfits.length
    exact hbuffer.trans (length_splice (by rw [hlen]; exact hroom.trans hbuffer)).ge
  | publish hp =>
    rw [hp] at hstocked
    exact ⟨⟨hsane, ⟨hfits.slots_pos, hfits.bytes_lt, hfits.length⟩, hstocked, hpointer⟩, rfl⟩
  | popLoadRead => exact ⟨⟨hsane, hfits, hstocked, fun _ _ hq => by cases hq⟩, rfl⟩
  | empty => exact ⟨⟨hsane, hfits, hstocked, fun _ _ hq => by cases hq⟩, rfl⟩
  | nonempty => exact ⟨⟨hsane, hfits, hstocked, fun _ _ hq => by cases hq⟩, rfl⟩
  | @claim r ptr hp hptr =>
    rw [hfits.position_run] at hptr
    cases hptr
    refine ⟨⟨hsane, ⟨hfits.slots_pos, hfits.bytes_lt, hfits.length⟩, hstocked, fun _ _ hq => ?_⟩, rfl⟩
    cases hq
    rfl
  | done => exact ⟨⟨hsane, hfits, hstocked, fun _ _ hq => by cases hq⟩, rfl⟩

lemma Stocked.last {ring : ChunkRing α} {n r : ℕ} (h : ring.Stocked n src)
    (hslots : 1 ≤ ring.slots) (hr : r < n) : ∃ c, r ≤ c ∧ n ≤ c + ring.slots ∧
      ring.samples (r % ring.slots * ring.chunkSz) = src c := by
  have hlt := Nat.mod_lt (n - 1 - r) hslots
  have hdiv := Nat.div_add_mod (n - 1 - r) ring.slots
  have hslot : (r + ring.slots * ((n - 1 - r) / ring.slots)) % ring.slots = r % ring.slots :=
    Nat.add_mul_mod_self_left ..
  refine ⟨r + ring.slots * ((n - 1 - r) / ring.slots), Nat.le_add_right _ _, by omega, ?_⟩
  rw [← hslot]
  exact h _ (by omega) (by omega)

lemma Filled.copies_gt (h : Filled src s) {r ptr : ℕ} (hp : s.popping = .claimed r ptr) :
    r < s.copies := by
  have hr := h.popping
  rw [hp] at hr
  have hlt : r < s.pushed := hr
  rw [copies]
  split
  · exact Nat.lt_succ_of_lt hlt
  all_goals exact hlt

lemma Filled.intact (h : Filled src s) (hin : s.InTime l) : Intact src s l := by
  intro hl r ptr hp
  rw [h.pointer r ptr hp]
  exact h.stocked r (h.copies_gt hp) (hin hl r ptr hp)

lemma Filled.inTime (h : Filled src s) (hinj : Function.Injective src) (hin : Intact src s l) :
    s.InTime l := by
  intro hl r ptr hp
  obtain ⟨c, hrc, hc, hsamples⟩ := Stocked.last h.stocked h.fits.slots_pos (h.copies_gt hp)
  have hsrc := hin hl r ptr hp
  rw [h.pointer r ptr hp, hsamples] at hsrc
  rw [hinj hsrc] at hc
  exact hc

lemma Filled.start {virtualAlloc : ℕ → Option ℕ} {slots chunkSz : ℕ} {zero : α}
    {raw ring : ChunkRing α}
    (hring : construct virtualAlloc slots chunkSz zero raw = .returned () ring) (hslots : 1 ≤ slots)
    (hbytes : slots * chunkSz * sizeofFloat < word) : Filled src (start ring) ∧
      ring.chunkSz = chunkSz := by
  obtain ⟨n, -, hfill, rfl⟩ := construct_eq_returned hring
  have htotal : slots * chunkSz % word = slots * chunkSz := Nat.mod_eq_of_lt (by
    rw [sizeofFloat] at hbytes
    omega)
  refine ⟨⟨.start rfl rfl, ⟨hslots, hbytes, ?_⟩, fun c hc => absurd hc (Nat.not_lt_zero c),
    fun _ _ hq => by cases hq⟩, rfl⟩
  rw [htotal] at hfill
  exact hfill.trans List.length_replicate.ge

/-- In every run of fewer pushes than a word can count, over a ring whose buffer has a size that
a word can count: where each pop returns in time, each returns the samples of its chunk; and
only there, if the chunks pushed are all different. -/
theorem intact_iff_inTime {virtualAlloc : ℕ → Option ℕ} {slots chunkSz : ℕ} {zero : α}
    {raw ring : ChunkRing α}
    (hring : construct virtualAlloc slots chunkSz zero raw = .returned () ring)
    (hslots : 1 ≤ slots) (hbytes : slots * chunkSz * sizeofFloat < word) (src : ℕ → List α)
    (hlen : ∀ n, (src n).length = chunkSz) (ls : List Atomic)
    (hcount : Machine.Along (next src) Counted (start ring) ls) :
    (Machine.Along (next src) InTime (start ring) ls →
      Machine.Along (next src) (Intact src) (start ring) ls) ∧
    (Function.Injective src →
      (Machine.Along (next src) (Intact src) (start ring) ls ↔
        Machine.Along (next src) InTime (start ring) ls)) := by
  have hstart : Filled src (start ring) ∧ (start ring).ring.chunkSz = chunkSz :=
    Filled.start hring hslots hbytes
  have hstep : ∀ s l s', Filled src s ∧ s.ring.chunkSz = chunkSz → s.Counted l →
      next src s l = some s' → Filled src s' ∧ s'.ring.chunkSz = chunkSz := by
    rintro s l s' ⟨hs, hsz⟩ hc hn
    have hnext := hs.step (fun n => (hlen n).trans hsz.symm) hc (step_of_next hn)
    exact ⟨hnext.1, hnext.2.trans hsz⟩
  constructor
  · intro hin
    have hboth : Machine.Along (next src) (fun s l => s.InTime l ∧ Intact src s l) (start ring) ls :=
      (Machine.along_congr (fun s => Filled src s ∧ s.ring.chunkSz = chunkSz)
        (fun s l hs _ => ⟨And.left, fun h => ⟨h, hs.1.intact h⟩⟩)
        (fun s l s' hs hc _ hn => hstep s l s' hs hc hn) hstart hcount).mpr hin
    exact Machine.along_mono (fun _ _ h => h.2) hboth
  · intro hinj
    exact Machine.along_congr (fun s => Filled src s ∧ s.ring.chunkSz = chunkSz)
      (fun s l hs _ => ⟨hs.1.inTime hinj, hs.1.intact⟩)
      (fun s l s' hs hc _ hn => hstep s l s' hs hc hn) hstart hcount

/-- A push into two full slots that drops a chunk while it is being popped, but copies its own
after the pop has returned. -/
def politePush : List Atomic :=
  pushSteps false ++ pushSteps false ++ [.popLoadRead, .popLoadWrite, .pushLoadStop false,
    .pushLoadWrite, .pushLoadRead, .pushDrop, .popClaim, .popReturn, .pushCopy, .pushPublish] ++
    popSteps

theorem politePush_intact :
    (Machine.run (next (fun n => [n])) (start (smallRing [0, 0] 0 0)) politePush).map taken =
      some [0, 1] ∧
    Machine.Along (next (fun n => [n])) (Intact (fun n => [n])) (start (smallRing [0, 0] 0 0))
      politePush := by
  have hbytes : 2 * 1 * sizeofFloat < word := by
    rw [word]
    decide
  have hcount : Machine.Along (next (fun n => [n])) Counted (start (smallRing [0, 0] 0 0))
      politePush := by decide +kernel
  have hin : Machine.Along (next (fun n => [n])) InTime (start (smallRing [0, 0] 0 0))
      politePush := by decide +kernel
  exact ⟨by decide +kernel, (intact_iff_inTime construct_smallRing (by decide) hbytes _
    (fun _ => rfl) _ hcount).1 hin⟩

/-- Two slots: chunk 2 is copied over chunk 0 between the store of a pop and its return. -/
theorem claimed_overwritten : ∃ s t : Threads ℕ,
    construct wholePages 2 1 0 ⟨0, 0, 0, [], 0, 0⟩ = .returned () (smallRing [0, 0] 0 0) ∧
    Machine.run (next (fun n => [n])) (start (smallRing [0, 0] 0 0)) (pushSteps false ++
      pushSteps false ++ [.popLoadRead, .popLoadWrite, .popClaim] ++ pushSteps false) = some s ∧
    next (fun n => [n]) s .popReturn = some t ∧ s.popping = .claimed 0 0 ∧
    s.ring.samples 0 = [2] ∧ ¬Intact (fun n => [n]) s .popReturn :=
  ⟨⟨smallRing [2, 1] 3 1, .idle, .claimed 0 0, 3, []⟩, ⟨smallRing [2, 1] 3 1, .idle, .idle, 3, [0]⟩,
    construct_smallRing, by decide +kernel, by decide +kernel, rfl, rfl,
    fun h => absurd (h rfl 0 0 rfl) (by decide)⟩

end Threads

end ChunkRing

end Voxory
