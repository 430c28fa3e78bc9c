import Voxory.Cxx.Code

/-!
# The chunk ring

The member functions of `containers/impl/chunk_buffer.h`. A pointer into the buffer is an offset
in samples, and the indices are unsigned integers of one word. Each function is put together
from its loads, stores and its copy, which are the steps that two threads interleave.
-/

namespace Voxory
open Cxx

structure ChunkRing (α : Type) where
  slots : ℕ
  chunkSz : ℕ
  totalSamples : ℕ
  buffer : List α
  writeIndex : ℕ
  readIndex : ℕ
  deriving DecidableEq

namespace ChunkRing

/-- One more than the largest value of `uint64_t` and of `size_t`. -/
@[irreducible] def word : ℕ := 2 ^ 64

def sizeofFloat : ℕ := 4

/-- Subtraction of unsigned words. -/
@[irreducible] def minus (a b : ℕ) : ℕ := (a + (word - b)) % word

variable {α : Type}

abbrev Method (α β : Type) : Type := Code (ChunkRing α) β

/-- The buffer with the samples `cs` in place of those from `off` on. -/
def splice (buffer : List α) (off : ℕ) (cs : List α) : List α :=
  buffer.take off ++ cs ++ buffer.drop (off + cs.length)

/-- The samples of a chunk behind a pointer. -/
def samples (ring : ChunkRing α) (p : ℕ) : List α := (ring.buffer.drop p).take ring.chunkSz

/-- `std::memcpy` into the buffer, of so many bytes. -/
def memcpy (dst : ℕ) (src : List α) (bytes : ℕ) : Method α Unit := fun ring =>
  if bytes / sizeofFloat ≤ src.length ∧ dst + bytes / sizeofFloat ≤ ring.buffer.length then
    .returned () { ring with buffer := splice ring.buffer dst (src.take (bytes / sizeofFloat)) }
  else .fault .outside

/-- The constructor. `virtualAlloc` stands for `VirtualAlloc` and `TryVirtualLock`: how many bytes
there are in the zeroed pages that they provide for a request, if they do. -/
def construct (virtualAlloc : ℕ → Option ℕ) (slots chunkSz : ℕ) (zero : α) : Method α Unit :=
  let totalSamples := slots * chunkSz % word
  let bytes := totalSamples * sizeofFloat % word
  match virtualAlloc bytes with
  | none => Code.raise
  | some n =>
    if totalSamples ≤ n / sizeofFloat then
      Code.set ⟨slots, chunkSz, totalSamples, List.replicate (n / sizeofFloat) zero, 0, 0⟩
    else Code.undefined .outside

/-- `buffer + slot * chunk_sz` for the slot of the chunk with the index `idx`. -/
def position (idx : ℕ) : Method α ℕ := do
  let ring ← Code.get
  if ring.slots = 0 then Code.undefined .modZero
  else pure (idx % ring.slots * ring.chunkSz % word)

/-! ### The steps of `push_chunk` -/

/-- The test for a ring without a free slot. -/
def Overdue (ring : ChunkRing α) (w r : ℕ) : Prop := ring.slots ≤ minus w r

instance (ring : ChunkRing α) (w r : ℕ) : Decidable (ring.Overdue w r) :=
  inferInstanceAs (Decidable (_ ≤ _))

def dropOldest (w : ℕ) : Method α Unit := do
  let ring ← Code.get
  Code.set { ring with readIndex := minus w (minus ring.slots 1) }

def makeRoom (w r : ℕ) : Method α Unit := do
  let ring ← Code.get
  if ring.Overdue w r then dropOldest w else pure ()

def copyChunk (w : ℕ) (src : List α) : Method α Unit := do
  let ring ← Code.get
  let dst ← position w
  memcpy dst src (ring.chunkSz * sizeofFloat % word)

def publish (w : ℕ) : Method α Unit := do
  let ring ← Code.get
  Code.set { ring with writeIndex := (w + 1) % word }

def pushChunk (src : List α) (stopFlag : Bool) : Method α Bool := do
  if stopFlag then pure false
  else do
    let ring ← Code.get
    let w := ring.writeIndex
    let r := ring.readIndex
    makeRoom w r
    copyChunk w src
    publish w
    pure true

/-! ### The steps of `try_pop_chunk` -/

def claim (r : ℕ) : Method α Unit := do
  let ring ← Code.get
  Code.set { ring with readIndex := (r + 1) % word }

/-- Returns the pointer, if any, and `out_count`. -/
def tryPopChunk : Method α (Option ℕ × ℕ) := do
  let ring ← Code.get
  let r := ring.readIndex
  let w := ring.writeIndex
  if w ≤ r then pure (none, 0)
  else do
    let ptr ← position r
    claim r
    pure (some ptr, ring.chunkSz)

/-! ### Slots -/

lemma word_pos : 0 < word := by
  rw [word]
  exact Nat.two_pow_pos 64

lemma minus_eq {a b : ℕ} (hb : b ≤ a) (ha : a < word) : minus a b = a - b := by
  rw [minus, show a + (word - b) = a - b + word by omega, Nat.add_mod_right,
    Nat.mod_eq_of_lt (by omega)]

section Splice

variable {buffer cs : List α} {off p n : ℕ}

lemma length_splice (h : off + cs.length ≤ buffer.length) :
    (splice buffer off cs).length = buffer.length := by
  simp only [splice, List.length_append, List.length_take, List.length_drop]
  omega

lemma splice_inside (h : off ≤ buffer.length) :
    ((splice buffer off cs).drop off).take cs.length = cs := by
  have hlen : (buffer.take off).length = off := by
    rw [List.length_take]
    omega
  rw [splice, List.append_assoc, List.drop_append_of_le_length hlen.ge,
    List.drop_of_length_le hlen.le, List.nil_append, List.take_left]

lemma splice_outside (h : off + cs.length ≤ buffer.length)
    (hp : p + n ≤ off ∨ off + cs.length ≤ p) :
    ((splice buffer off cs).drop p).take n = (buffer.drop p).take n := by
  apply List.ext_getElem?
  intro i
  by_cases hi : i < n
  · rw [List.getElem?_take_of_lt hi, List.getElem?_take_of_lt hi, List.getElem?_drop,
      List.getElem?_drop, splice]
    rcases hp with hp | hp
    · rw [List.append_assoc, List.getElem?_append_left (by rw [List.length_take]; omega),
        List.getElem?_take_of_lt (by omega)]
    · have hlen : (buffer.take off ++ cs).length = off + cs.length := by
        rw [List.length_append, List.length_take]
        omega
      rw [List.getElem?_append_right (by omega), hlen, List.getElem?_drop]
      congr 1
      omega
  · rw [List.getElem?_take_eq_none (by omega), List.getElem?_take_eq_none (by omega)]

end Splice

lemma construct_eq_returned {virtualAlloc : ℕ → Option ℕ} {slots chunkSz : ℕ} {zero : α}
    {raw ring : ChunkRing α}
    (h : construct virtualAlloc slots chunkSz zero raw = .returned () ring) :
    ∃ n, virtualAlloc (slots * chunkSz % word * sizeofFloat % word) = some n ∧
      slots * chunkSz % word ≤ n / sizeofFloat ∧
      ring = ⟨slots, chunkSz, slots * chunkSz % word, List.replicate (n / sizeofFloat) zero, 0, 0⟩ := by
  rw [construct] at h
  cases hn : virtualAlloc (slots * chunkSz % word * sizeofFloat % word) with
  | none =>
    simp only [hn] at h
    cases h
  | some n =>
    simp only [hn] at h
    split_ifs at h with hfill
    · cases h
      exact ⟨n, rfl, hfill, rfl⟩
    · cases h

lemma copyChunk_eq_returned {ring ring' : ChunkRing α} {w : ℕ} {src : List α}
    (h : copyChunk w src ring = .returned () ring') :
    ∃ buffer, buffer.length = ring.buffer.length ∧ ring' = { ring with buffer := buffer } := by
  by_cases hslots : ring.slots = 0
  · have hfault : copyChunk w src ring = .fault .modZero := by
      simp only [copyChunk, Code.bind_run, Code.get, position, if_pos hslots, Code.undefined]
    rw [hfault] at h
    cases h
  · simp only [copyChunk, Code.bind_run, Code.get, position, if_neg hslots, Code.pure_run, memcpy] at h
    split_ifs at h with hroom
    cases h
    refine ⟨_, length_splice ?_, rfl⟩
    rw [List.length_take]
    omega

/-- The sizes of a ring that has room for its slots. -/
structure Fits (ring : ChunkRing α) : Prop where
  slots_pos : 1 ≤ ring.slots
  bytes_lt : ring.slots * ring.chunkSz * sizeofFloat < word
  length : ring.slots * ring.chunkSz ≤ ring.buffer.length

/-- Of the chunks `src 0`, …, `src (n - 1)`, the last ones are in their slots. -/
def Stocked (ring : ChunkRing α) (n : ℕ) (src : ℕ → List α) : Prop :=
  ∀ c, c < n → n ≤ c + ring.slots → ring.samples (c % ring.slots * ring.chunkSz) = src c

variable {ring ring' : ChunkRing α} {src src' : ℕ → List α} {n w : ℕ}

lemma Fits.slot_le (h : ring.Fits) (idx : ℕ) :
    idx % ring.slots * ring.chunkSz + ring.chunkSz ≤ ring.slots * ring.chunkSz := by
  have hlt : idx % ring.slots < ring.slots := Nat.mod_lt _ h.slots_pos
  calc idx % ring.slots * ring.chunkSz + ring.chunkSz
      = (idx % ring.slots + 1) * ring.chunkSz := by ring
    _ ≤ ring.slots * ring.chunkSz := Nat.mul_le_mul_right _ hlt

lemma Fits.position_run (h : ring.Fits) (idx : ℕ) :
    (position idx : Method α ℕ) ring =
      .returned (idx % ring.slots * ring.chunkSz) ring := by
  have hslots := h.slots_pos
  have hle := h.slot_le idx
  have hbytes := h.bytes_lt
  rw [sizeofFloat] at hbytes
  rw [position, Code.bind_returned (show Code.get ring = .returned ring ring from rfl),
    if_neg (by omega), Nat.mod_eq_of_lt (by omega)]
  rfl

lemma Fits.copyChunk_run (h : ring.Fits) {chunk : List α} (hlen : chunk.length = ring.chunkSz)
    (w : ℕ) : copyChunk w chunk ring = .returned ()
      { ring with buffer := splice ring.buffer (w % ring.slots * ring.chunkSz) chunk } := by
  have hle := h.slot_le w
  have hbytes := h.bytes_lt
  have hslots := h.slots_pos
  have hcount : ring.chunkSz * sizeofFloat % word / sizeofFloat = ring.chunkSz := by
    rw [Nat.mod_eq_of_lt ?_, Nat.mul_div_cancel _ (by decide)]
    calc ring.chunkSz * sizeofFloat = 1 * ring.chunkSz * sizeofFloat := by ring
      _ ≤ ring.slots * ring.chunkSz * sizeofFloat :=
        Nat.mul_le_mul_right _ (Nat.mul_le_mul_right _ hslots)
      _ < word := hbytes
  rw [copyChunk, Code.bind_returned (show Code.get ring = .returned ring ring from rfl),
    Code.bind_returned (h.position_run w), memcpy, hcount, if_pos ⟨hlen.ge, hle.trans h.length⟩,
    List.take_of_length_le hlen.le]

lemma Stocked.congr (h : ring.Stocked n src) (hsrc : ∀ c, c < n → src c = src' c) :
    ring.Stocked n src' :=
  fun c hc hn => (h c hc hn).trans (hsrc c hc)

lemma slot_ne {s c : ℕ} (hc : c < n) (hn : n < c + s) : c % s ≠ n % s := by
  intro heq
  have hdvd := (Nat.modEq_iff_dvd' hc.le).mp heq
  have := Nat.le_of_dvd (by omega) hdvd
  omega

lemma Stocked.copy (h : ring.Stocked n src) (hfits : ring.Fits) (hlen : (src n).length = ring.chunkSz) :
    ({ ring with buffer := splice ring.buffer (n % ring.slots * ring.chunkSz) (src n) } :
      ChunkRing α).Stocked (n + 1) src := by
  intro c hc hn
  have hroom := hfits.slot_le n
  have hbuffer := hfits.length
  change c < n + 1 at hc
  change n + 1 ≤ c + ring.slots at hn
  change ((splice ring.buffer (n % ring.slots * ring.chunkSz) (src n)).drop
    (c % ring.slots * ring.chunkSz)).take ring.chunkSz = src c
  rcases Nat.lt_or_ge c n with hlt | hge
  · have hne := slot_ne hlt (by omega : n < c + ring.slots)
    rw [splice_outside (by omega) ?_]
    · exact h c hlt (by omega)
    · rcases Nat.lt_or_gt_of_ne hne with hj | hj
      · have := Nat.mul_le_mul_right ring.chunkSz hj
        rw [Nat.succ_mul] at this
        exact Or.inl this
      · have := Nat.mul_le_mul_right ring.chunkSz hj
        rw [Nat.succ_mul] at this
        exact Or.inr (by omega)
  · obtain rfl : c = n := by omega
    have hin : ((splice ring.buffer (c % ring.slots * ring.chunkSz) (src c)).drop
        (c % ring.slots * ring.chunkSz)).take (src c).length = src c := splice_inside (by omega)
    rwa [hlen] at hin

/-- Memory in pages of 4096 bytes, of which there are enough. -/
def wholePages (bytes : ℕ) : Option ℕ :=
  if bytes = 0 then none else some ((bytes + 4095) / 4096 * 4096)

/-- A ring of two slots of one sample, in one page. -/
def smallRing (buffer : List ℕ) (w r : ℕ) : ChunkRing ℕ :=
  ⟨2, 1, 2, buffer ++ List.replicate 1022 0, w, r⟩

lemma wholePages_le (bytes n : ℕ) (h : wholePages bytes = some n) :
    bytes ≤ n ∧ n < bytes + 4096 := by
  rw [wholePages] at h
  split_ifs at h
  cases h
  omega

lemma construct_smallRing : construct wholePages 2 1 0 ⟨0, 0, 0, [], 0, 0⟩ =
    .returned () (smallRing [0, 0] 0 0) := by
  rw [construct, word]
  rfl

end ChunkRing

end Voxory
