import Voxory.ChunkRing.Model

/-!
# The bytes of a chunk ring

The buffer is allocated for the product of the sizes as a word counts it, and the slots are
addressed by the sizes themselves. Where the memory is exactly what was requested, all slots lie
in it if the product did not wrap, and only then.
-/

namespace Voxory
open Cxx

namespace ChunkRing

variable {α : Type}

/-- The bytes of the buffer. -/
def bytes (ring : ChunkRing α) : ℕ := ring.buffer.length * sizeofFloat

/-- The ring `t` is the same one, at whatever indices and with whatever samples. -/
structure Same (ring t : ChunkRing α) : Prop where
  slots : t.slots = ring.slots
  chunkSz : t.chunkSz = ring.chunkSz
  length : t.buffer.length = ring.buffer.length

/-- Every slot lies in the allocated bytes, and so does, at any indices, what `push_chunk` copies
and what `try_pop_chunk` hands out. -/
structure Contained (ring : ChunkRing α) : Prop where
  slots : ∀ slot, slot < ring.slots →
    (slot * ring.chunkSz + ring.chunkSz) * sizeofFloat ≤ ring.bytes
  pushes : ∀ t src, ring.Same t → src.length = ring.chunkSz →
    (pushChunk src false).Returns t (fun ok _ => ok = true)
  copies : ∀ t dst, ring.Same t → (position t.writeIndex : Method α ℕ) t = .returned dst t →
    dst * sizeofFloat + ring.chunkSz * sizeofFloat % word ≤ ring.bytes
  pops : ∀ t ptr outCount t', ring.Same t →
    (tryPopChunk : Method α (Option ℕ × ℕ)) t = .returned (some ptr, outCount) t' →
    ptr * sizeofFloat + outCount * sizeofFloat ≤ ring.bytes

variable {ring raw t t' : ChunkRing α} {src : List α} {slots chunkSz ptr outCount : ℕ} {zero : α}
  {virtualAlloc : ℕ → Option ℕ}

lemma Fits.same (h : ring.Fits) (ht : ring.Same t) : t.Fits where
  slots_pos := by
    rw [ht.slots]
    exact h.slots_pos
  bytes_lt := by
    rw [ht.slots, ht.chunkSz]
    exact h.bytes_lt
  length := by
    rw [ht.slots, ht.chunkSz, ht.length]
    exact h.length

lemma Fits.pushChunk_returns (h : ring.Fits) (hsrc : src.length = ring.chunkSz) :
    (pushChunk src false).Returns ring (fun ok _ => ok = true) := by
  have hroom : (makeRoom ring.writeIndex ring.readIndex).Returns ring
      (fun _ t => t.Fits ∧ src.length = t.chunkSz) := by
    unfold makeRoom
    apply Code.Returns.step rfl
    split_ifs
    · exact ⟨(), _, rfl, ⟨h.slots_pos, h.bytes_lt, h.length⟩, hsrc⟩
    · exact Code.Returns.pure ⟨h, hsrc⟩
  unfold pushChunk
  apply Code.Returns.step rfl
  apply hroom.bind
  intro _ t ⟨ht, htsrc⟩
  apply Code.Returns.step (ht.copyChunk_run htsrc ring.writeIndex)
  apply Code.Returns.step rfl
  exact Code.Returns.pure rfl

lemma Fits.tryPopChunk_ptr (h : ring.Fits)
    (hpop : tryPopChunk ring = .returned (some ptr, outCount) t') :
    ptr = ring.readIndex % ring.slots * ring.chunkSz ∧ outCount = ring.chunkSz := by
  unfold tryPopChunk at hpop
  rw [Code.bind_returned (show Code.get ring = .returned ring ring from rfl)] at hpop
  by_cases hidle : ring.writeIndex ≤ ring.readIndex
  · rw [if_pos hidle] at hpop
    cases hpop
  · rw [if_neg hidle, Code.bind_returned (h.position_run _)] at hpop
    cases hpop
    exact ⟨rfl, rfl⟩

lemma Fits.contained (h : ring.Fits) : ring.Contained where
  slots slot hslot := by
    have hle := h.slot_le slot
    rw [Nat.mod_eq_of_lt hslot] at hle
    exact Nat.mul_le_mul_right _ (hle.trans h.length)
  pushes t src ht hsrc := (h.same ht).pushChunk_returns (hsrc.trans ht.chunkSz.symm)
  copies t dst ht hdst := by
    rw [(h.same ht).position_run, ht.slots, ht.chunkSz] at hdst
    cases hdst
    calc t.writeIndex % ring.slots * ring.chunkSz * sizeofFloat +
          ring.chunkSz * sizeofFloat % word
        ≤ t.writeIndex % ring.slots * ring.chunkSz * sizeofFloat + ring.chunkSz * sizeofFloat :=
          Nat.add_le_add_left (Nat.mod_le _ _) _
      _ = (t.writeIndex % ring.slots * ring.chunkSz + ring.chunkSz) * sizeofFloat :=
          (Nat.add_mul _ _ _).symm
      _ ≤ ring.buffer.length * sizeofFloat :=
          Nat.mul_le_mul_right _ ((h.slot_le _).trans h.length)
  pops t ptr outCount t' ht hpop := by
    obtain ⟨rfl, rfl⟩ := (h.same ht).tryPopChunk_ptr hpop
    rw [ht.slots, ht.chunkSz, ← Nat.add_mul]
    exact Nat.mul_le_mul_right _ ((h.slot_le _).trans h.length)

/-- A ring that was constructed in exactly the memory it requested has all its slots there exactly
when a word can count the bytes of its slots. -/
theorem slots_contained_iff (hslots : 2 ≤ slots)
    (hexact : ∀ bytes n, virtualAlloc bytes = some n → n = bytes)
    (hring : construct virtualAlloc slots chunkSz zero raw = .returned () ring) :
    ring.Contained ↔ slots * chunkSz * sizeofFloat < word := by
  obtain ⟨n, hn, hfill, rfl⟩ := construct_eq_returned hring
  constructor
  · intro h
    have hlast := h.slots (slots - 1) (by change slots - 1 < slots; omega)
    have hslot : (slots - 1) * chunkSz + chunkSz = slots * chunkSz := by
      rw [← Nat.succ_mul, Nat.succ_eq_add_one, Nat.sub_add_cancel (by omega)]
    change ((slots - 1) * chunkSz + chunkSz) * sizeofFloat ≤ _ at hlast
    rw [hslot] at hlast
    calc slots * chunkSz * sizeofFloat
        ≤ (List.replicate (n / sizeofFloat) zero).length * sizeofFloat := hlast
      _ = n / sizeofFloat * sizeofFloat := by rw [List.length_replicate]
      _ ≤ n := Nat.div_mul_le_self n sizeofFloat
      _ = slots * chunkSz % word * sizeofFloat % word := hexact _ _ hn
      _ < word := Nat.mod_lt _ word_pos
  · intro hbytes
    have htotal : slots * chunkSz % word = slots * chunkSz := Nat.mod_eq_of_lt (by
      rw [sizeofFloat] at hbytes
      omega)
    have hbuffer : slots * chunkSz ≤ n / sizeofFloat := htotal ▸ hfill
    apply Fits.contained
    exact ⟨by change 1 ≤ slots; omega, hbytes, hbuffer.trans List.length_replicate.ge⟩

/-- Memory for exactly the bytes that are requested. -/
def exactly (bytes : ℕ) : Option ℕ := if bytes = 0 then none else some bytes

lemma exactly_eq (bytes n : ℕ) (h : exactly bytes = some n) : n = bytes := by
  unfold exactly at h
  split_ifs at h
  cases h
  rfl

theorem twoSlots_contained : ∃ ring : ChunkRing ℕ,
    construct exactly 2 1 0 ⟨0, 0, 0, [], 0, 0⟩ = .returned () ring ∧ ring.Contained := by
  have hring : construct exactly 2 1 0 ⟨0, 0, 0, [], 0, 0⟩ =
      .returned () (⟨2, 1, 2, [0, 0], 0, 0⟩ : ChunkRing ℕ) := by
    rw [construct, word]
    rfl
  exact ⟨_, hring, (slots_contained_iff (by decide) exactly_eq hring).mpr (by rw [word]; decide)⟩

/-- Three samples for each of so many slots that the product is two: eight bytes are requested. -/
theorem wrapped_not_contained : ∃ ring : ChunkRing ℕ,
    construct exactly 6148914691236517206 3 0 ⟨0, 0, 0, [], 0, 0⟩ = .returned () ring ∧
    ring.bytes = 8 ∧ ¬ring.Contained := by
  have hring : construct exactly 6148914691236517206 3 0 ⟨0, 0, 0, [], 0, 0⟩ =
      .returned () (⟨6148914691236517206, 3, 2, [0, 0], 0, 0⟩ : ChunkRing ℕ) := by
    rw [construct, word]
    rfl
  refine ⟨_, hring, rfl, fun h => ?_⟩
  have hslot := h.slots 0 (by decide)
  revert hslot
  decide

end ChunkRing

end Voxory
