import Voxory.ChunkRing.Model
import Voxory.Cyclic

/-!
# One call after another

Without interleaving, a chunk ring is a queue of the last chunks, bounded by its slots, and a
chunk that was popped stays behind its pointer until its slot is used again. All that takes is
room for the slots: the constructor multiplies their number by their size without looking at the
product.
-/

namespace Voxory
open Cxx Cyclic

/-- A queue of chunks with their numbers. -/
structure Fifo (α : Type) where
  pushed : ℕ
  pending : List (List α × ℕ)

namespace Fifo

variable {α : Type}

def empty : Fifo α := ⟨0, []⟩

/-- The oldest chunk makes way where `slots` chunks are pending. -/
def push (slots : ℕ) (q : Fifo α) (chunk : List α) : Fifo α :=
  ⟨q.pushed + 1, enqueue slots q.pending (chunk, q.pushed)⟩

def pop (q : Fifo α) : Fifo α := ⟨q.pushed, q.pending.tail⟩

end Fifo

namespace ChunkRing

variable {α : Type}

inductive Call (α : Type) where
  | push (chunk : List α)
  | pop

/-- What a call returns; of a popped chunk, the pointer and the samples behind it. -/
inductive Reply (α : Type) where
  | pushed (ok : Bool)
  | popped (chunk : Option (ℕ × List α)) (outCount : ℕ)
  deriving DecidableEq

/-- The chunks that the calls push. -/
def pushes : List (Call α) → List (List α)
  | [] => []
  | .push chunk :: calls => chunk :: pushes calls
  | .pop :: calls => pushes calls

def perform : Call α → Method α (Reply α)
  | .push chunk => do
    let ok ← pushChunk chunk false
    pure (.pushed ok)
  | .pop => do
    let (ptr, outCount) ← tryPopChunk
    let ring ← Code.get
    pure (.popped (ptr.map fun p => (p, ring.samples p)) outCount)

def session : List (Call α) → Method α (List (Reply α))
  | [] => pure []
  | call :: calls => do
    let reply ← perform call
    let replies ← session calls
    pure (reply :: replies)

/-- What the calls return from a queue whose chunk number `r` is in slot `r % slots`. -/
def serve (slots chunkSz : ℕ) : List (Call α) → Fifo α → List (Reply α) × Fifo α
  | [], q => ([], q)
  | .push chunk :: calls, q =>
    let rest := serve slots chunkSz calls (q.push slots chunk)
    (.pushed true :: rest.1, rest.2)
  | .pop :: calls, q =>
    let rest := serve slots chunkSz calls q.pop
    (.popped (q.pending.head?.map fun c => (c.2 % slots * chunkSz, c.1))
      (if q.pending = [] then 0 else chunkSz) :: rest.1, rest.2)

/-- The ring that is left after the calls: a pop changes nothing where nothing is pending, and
every chunk is in its slot until the chunk `slots` numbers later is pushed. -/
structure Left (slots chunkSz : ℕ) (q : Fifo α) (all : List (List α)) (ring : ChunkRing α) : Prop
    where
  idle : q.pending = [] → tryPopChunk ring = .returned (none, 0) ring
  retained : ∀ r chunk, all[r]? = some chunk → all.length ≤ r + slots →
    ring.samples (r % slots * chunkSz) = chunk

/-- The ring constructed for these sizes behaves as the bounded queue of chunks. -/
def Behaves (virtualAlloc : ℕ → Option ℕ) (slots chunkSz : ℕ) (zero : α) : Prop :=
  ∀ raw (calls : List (Call α)), (∀ chunk ∈ pushes calls, chunk.length = chunkSz) →
    (pushes calls).length < word →
    (do construct virtualAlloc slots chunkSz zero
        session calls).Returns raw (fun replies ring =>
      replies = (serve slots chunkSz calls Fifo.empty).1 ∧
      Left slots chunkSz (serve slots chunkSz calls Fifo.empty).2 (pushes calls) ring)

/-- The chunk with the number `c`. -/
def chunk (all : List (List α)) (c : ℕ) : List α := all[c]?.getD []

/-- The ring after the pushes of `all`, in the state of the queue `q`. -/
structure Serving (ring : ChunkRing α) (q : Fifo α) (all : List (List α)) : Prop where
  fits : ring.Fits
  written : ring.writeIndex = all.length
  lt_word : all.length < word
  read_le : ring.readIndex ≤ all.length
  room : all.length ≤ ring.readIndex + ring.slots
  stocked : ring.Stocked all.length (chunk all)
  pushed : q.pushed = all.length
  pending : q.pending = all.zipIdx.drop ring.readIndex

variable {ring ring' : ChunkRing α} {q : Fifo α} {all : List (List α)}
  {virtualAlloc : ℕ → Option ℕ} {slots chunkSz page : ℕ} {zero : α}

lemma chunk_append_lt {c : ℕ} {last : List α} (hc : c < all.length) :
    chunk (all ++ [last]) c = chunk all c := by
  rw [chunk, chunk, List.getElem?_append_left hc]

lemma chunk_append_length (last : List α) : chunk (all ++ [last]) all.length = last := by
  rw [chunk, List.getElem?_concat_length, Option.getD_some]

namespace Serving

lemma length_pending (h : Serving ring q all) : q.pending.length = all.length - ring.readIndex := by
  rw [h.pending, List.length_drop, List.length_zipIdx]

lemma pending_eq_nil (h : Serving ring q all) : q.pending = [] ↔ all.length ≤ ring.readIndex := by
  rw [← List.length_eq_zero_iff, h.length_pending]
  omega

/-- The queue after a push drops its oldest chunk exactly when the slots are full. -/
lemma pending_push (h : Serving ring q all) (last : List α) {r : ℕ}
    (hr : r = if all.length < ring.readIndex + ring.slots then ring.readIndex
      else ring.readIndex + 1) (hslots : 1 ≤ ring.slots) :
    (q.push ring.slots last).pending = (all ++ [last]).zipIdx.drop r := by
  have hlen := h.length_pending
  have hle := h.read_le
  have hroom := h.room
  rw [Fifo.push, enqueue, hlen, h.pushed, h.pending, List.drop_drop, List.zipIdx_append, Nat.zero_add,
    List.drop_append_of_le_length (by rw [List.length_zipIdx]; split_ifs at hr <;> omega), hr]
  split_ifs with hfull hfree hfree
  · rfl
  · omega
  · omega
  · rfl

lemma push (h : Serving ring q all) {last : List α} (hlen : last.length = ring.chunkSz)
    (hlt : all.length + 1 < word) : (pushChunk last false).Returns ring (fun ok ring' => ok = true ∧
      Serving ring' (q.push ring.slots last) (all ++ [last]) ∧ ring'.slots = ring.slots ∧
      ring'.chunkSz = ring.chunkSz) := by
  have hslots := h.fits.slots_pos
  have hle := h.read_le
  have hroom := h.room
  have hword := h.lt_word
  obtain ⟨r, hr⟩ : ∃ r, r = if all.length < ring.readIndex + ring.slots then ring.readIndex
    else ring.readIndex + 1 := ⟨_, rfl⟩
  have hover : ring.Overdue all.length ring.readIndex ↔
      ¬all.length < ring.readIndex + ring.slots := by
    rw [Overdue, minus_eq hle hword]
    omega
  have hdrop : makeRoom all.length ring.readIndex ring =
      .returned () { ring with readIndex := r } := by
    rw [makeRoom, Code.bind_returned (show Code.get ring = .returned ring ring from rfl)]
    by_cases hfree : all.length < ring.readIndex + ring.slots
    · rw [if_neg (by rw [hover]; exact not_not.mpr hfree), hr, if_pos hfree]
      rfl
    · have hnew : minus all.length (minus ring.slots 1) = r := by
        rw [minus_eq hslots (by omega), minus_eq (by omega) hword, hr, if_neg hfree]
        omega
      rw [if_pos (hover.mpr hfree), ← hnew]
      rfl
  have hrange : r ≤ all.length ∧ all.length < r + ring.slots := by
    split_ifs at hr <;> omega
  have hfits : ({ ring with readIndex := r } : ChunkRing α).Fits :=
    ⟨hslots, h.fits.bytes_lt, h.fits.length⟩
  have hcopy := hfits.copyChunk_run hlen all.length
  have hplace := h.fits.slot_le all.length
  have hbuffer := h.fits.length
  have hstocked : ring.Stocked all.length (chunk (all ++ [last])) :=
    h.stocked.congr (fun c hc => (chunk_append_lt hc).symm)
  rw [pushChunk, if_neg (by decide)]
  refine Code.Returns.step rfl ?_
  rw [h.written]
  refine Code.Returns.step hdrop (Code.Returns.step hcopy (Code.Returns.step rfl (.pure ?_)))
  refine ⟨rfl, ⟨⟨hslots, h.fits.bytes_lt, ?_⟩, ?_, ?_, ?_, ?_, ?_, ?_, ?_⟩, rfl, rfl⟩
  · exact hbuffer.trans (length_splice (by rw [hlen]; exact hplace.trans hbuffer)).ge
  · rw [List.length_append, List.length_singleton]
    exact Nat.mod_eq_of_lt hlt
  · rw [List.length_append, List.length_singleton]
    exact hlt
  · rw [List.length_append, List.length_singleton]
    exact hrange.1.trans (Nat.le_succ _)
  · rw [List.length_append, List.length_singleton]
    exact hrange.2
  · have hlast : (chunk (all ++ [last]) all.length).length = ring.chunkSz := by
      rw [chunk_append_length, hlen]
    have hnext := hstocked.copy h.fits hlast
    rw [chunk_append_length] at hnext
    rw [List.length_append, List.length_singleton]
    exact hnext
  · rw [List.length_append, List.length_singleton, Fifo.push, h.pushed]
  · exact h.pending_push last hr hslots

lemma pop_empty (h : Serving ring q all) (hempty : q.pending = []) :
    tryPopChunk ring = .returned (none, 0) ring := by
  have hle := h.pending_eq_nil.mp hempty
  rw [tryPopChunk, Code.bind_returned (show Code.get ring = .returned ring ring from rfl), h.written,
    if_pos hle, Code.pure_run]

lemma pop (h : Serving ring q all) : (tryPopChunk : Method α (Option ℕ × ℕ)).Returns ring
    (fun out ring' => out.1 = (q.pending.head?.map fun c => c.2 % ring.slots * ring.chunkSz) ∧
      out.2 = (if q.pending = [] then 0 else ring.chunkSz) ∧
      Serving ring' q.pop all ∧ ring'.buffer = ring.buffer ∧ ring'.slots = ring.slots ∧
      ring'.chunkSz = ring.chunkSz) := by
  by_cases hempty : q.pending = []
  · refine ⟨(none, 0), ring, h.pop_empty hempty, by rw [hempty]; rfl, by rw [if_pos hempty],
      ⟨h.fits, h.written, h.lt_word, h.read_le, h.room, h.stocked, h.pushed, ?_⟩, rfl, rfl, rfl⟩
    rw [Fifo.pop, ← h.pending, hempty, List.tail_nil]
  · have hlt : ring.readIndex < all.length := by
      have hne := h.pending_eq_nil.not.mp hempty
      omega
    have hread : (ring.readIndex + 1) % word = ring.readIndex + 1 :=
      Nat.mod_eq_of_lt (Nat.lt_of_le_of_lt hlt h.lt_word)
    have hroom := h.room
    refine Code.Returns.step rfl ?_
    rw [h.written, if_neg (by omega)]
    refine Code.Returns.step (h.fits.position_run ring.readIndex) (Code.Returns.step (b := ())
      (t := { ring with readIndex := ring.readIndex + 1 }) ?_ (.pure ⟨?_, by rw [if_neg hempty],
        ⟨⟨h.fits.slots_pos, h.fits.bytes_lt, h.fits.length⟩, h.written, h.lt_word, hlt, ?_, h.stocked,
          h.pushed, ?_⟩, rfl, rfl, rfl⟩))
    · rw [claim, Code.bind_returned (show Code.get ring = .returned ring ring from rfl), hread]
      rfl
    · rw [h.pending, List.head?_drop, List.getElem?_zipIdx, List.getElem?_eq_getElem hlt,
        Nat.zero_add]
      rfl
    · change all.length ≤ ring.readIndex + 1 + ring.slots
      omega
    · rw [Fifo.pop, h.pending, List.tail_drop]

lemma head (h : Serving ring q all) {c : List α × ℕ} (hc : q.pending.head? = some c) :
    ring.samples (c.2 % ring.slots * ring.chunkSz) = c.1 := by
  rw [h.pending, List.head?_drop, List.getElem?_zipIdx, Nat.zero_add] at hc
  obtain ⟨last, hlast, rfl⟩ := Option.map_eq_some_iff.mp hc
  obtain ⟨hlt, -⟩ := List.getElem?_eq_some_iff.mp hlast
  rw [h.stocked _ hlt h.room, chunk, hlast, Option.getD_some]

lemma left (h : Serving ring q all) : Left ring.slots ring.chunkSz q all ring := by
  refine ⟨h.pop_empty, fun r last hr hroom => ?_⟩
  obtain ⟨hlt, -⟩ := List.getElem?_eq_some_iff.mp hr
  rw [h.stocked r hlt hroom, chunk, hr, Option.getD_some]

lemma session (calls : List (Call α)) (h : Serving ring q all)
    (hlen : ∀ chunk ∈ pushes calls, chunk.length = ring.chunkSz)
    (hlt : all.length + (pushes calls).length < word) :
    (session calls).Returns ring (fun replies ring' =>
      replies = (serve ring.slots ring.chunkSz calls q).1 ∧
      Left ring.slots ring.chunkSz (serve ring.slots ring.chunkSz calls q).2 (all ++ pushes calls)
        ring') := by
  induction calls generalizing ring q all with
  | nil =>
    rw [pushes, List.append_nil]
    exact .pure ⟨rfl, h.left⟩
  | cons call calls ih =>
    cases call with
    | push last =>
      rw [pushes, List.length_cons] at hlt
      have hpush := h.push (hlen last List.mem_cons_self) (by omega)
      refine Code.Returns.bind (Q := fun reply ring' => reply = Reply.pushed true ∧
        Serving ring' (q.push ring.slots last) (all ++ [last]) ∧ ring'.slots = ring.slots ∧
        ring'.chunkSz = ring.chunkSz) (hpush.bind ?_) ?_
      · rintro _ ring' ⟨rfl, hring'⟩
        exact .pure ⟨rfl, hring'⟩
      · rintro _ ring' ⟨rfl, hring', hs, hc⟩
        have hrest := ih hring' (fun chunk hchunk => (hlen chunk (List.mem_cons_of_mem _ hchunk)).trans
          hc.symm) (by rw [List.length_append, List.length_singleton]; omega)
        rw [hs, hc, List.append_assoc] at hrest
        refine hrest.bind ?_
        rintro _ ring'' ⟨rfl, hleft⟩
        exact .pure ⟨rfl, hleft⟩
    | pop =>
      refine Code.Returns.bind (Q := fun reply ring' => reply =
          .popped (q.pending.head?.map fun c => (c.2 % ring.slots * ring.chunkSz, c.1))
            (if q.pending = [] then 0 else ring.chunkSz) ∧
          Serving ring' q.pop all ∧ ring'.slots = ring.slots ∧ ring'.chunkSz = ring.chunkSz)
        (h.pop.bind ?_) ?_
      · rintro ⟨ptr, outCount⟩ ring' ⟨rfl, rfl, hring', hbuffer, hs, hc⟩
        refine Code.Returns.step rfl (.pure ⟨?_, hring', hs, hc⟩)
        rw [Option.map_map]
        congr 1
        refine Option.map_congr (fun c hhead => ?_)
        have hsamples := h.head hhead
        rw [samples] at hsamples
        simp only [Function.comp, samples, hbuffer, hc, hsamples]
      · rintro _ ring' ⟨rfl, hring', hs, hc⟩
        have hrest := ih hring' (fun chunk hchunk => (hlen chunk hchunk).trans hc.symm) hlt
        rw [hs, hc] at hrest
        refine hrest.bind ?_
        rintro _ ring'' ⟨rfl, hleft⟩
        exact .pure ⟨rfl, hleft⟩

end Serving

/-! ### Sizes that a word cannot count -/

lemma pushChunk_sizes (last : List α) : (pushChunk last false).Within (fun _ => True) ring
    (fun _ ring' => ring'.buffer.length = ring.buffer.length ∧ ring'.chunkSz = ring.chunkSz)
    (fun _ => True) := by
  rw [pushChunk, if_neg (by decide)]
  refine Code.Within.step rfl (Code.Within.bind
    (Q := fun _ t => t.buffer = ring.buffer ∧ t.chunkSz = ring.chunkSz) ?_ ?_)
  · refine Code.Within.step rfl ?_
    split_ifs
    · exact Code.Within.of_returned (fun _ _ hrun => by cases hrun; exact ⟨rfl, rfl⟩)
    · exact Code.Within.pure ⟨rfl, rfl⟩
  · rintro _ t ⟨hbuffer, hsz⟩
    refine Code.Within.bind (Q := fun _ u => u.buffer.length = ring.buffer.length ∧
      u.chunkSz = ring.chunkSz) (Code.Within.of_returned fun _ u hrun => ?_) (fun _ u hu => ?_)
    · obtain ⟨buffer, hlen, rfl⟩ := copyChunk_eq_returned hrun
      exact ⟨hlen.trans (congrArg List.length hbuffer), hsz⟩
    · exact Code.Within.bind (Code.Within.of_returned
        (Q := fun _ v => v.buffer.length = ring.buffer.length ∧ v.chunkSz = ring.chunkSz)
        (fun _ _ hrun => by cases hrun; exact hu)) (fun _ _ hv => Code.Within.pure hv)

lemma session_sizes (chunks : List (List α)) :
    (session (chunks.map Call.push)).Within (fun _ => True) ring
      (fun _ ring' => ring'.buffer.length = ring.buffer.length ∧ ring'.chunkSz = ring.chunkSz)
      (fun _ => True) := by
  induction chunks generalizing ring with
  | nil => exact Code.Within.pure ⟨rfl, rfl⟩
  | cons last chunks ih =>
    refine Code.Within.bind (Q := fun _ t => t.buffer.length = ring.buffer.length ∧
      t.chunkSz = ring.chunkSz) ?_ ?_
    · exact (pushChunk_sizes last).bind (fun _ _ ht => Code.Within.pure ht)
    · rintro _ t ⟨hlen, hsz⟩
      exact ih.bind (fun _ u hu => Code.Within.pure ⟨hu.1.trans hlen, hu.2.trans hsz⟩)

lemma pushes_map (chunks : List (List α)) : pushes (chunks.map Call.push) = chunks := by
  induction chunks with
  | nil => rfl
  | cons last chunks ih => rw [List.map_cons, pushes, ih]

lemma construct_fits {raw : ChunkRing α} (hslots : 1 ≤ slots)
    (hpages : ∀ bytes n, virtualAlloc bytes = some n → bytes ≤ n ∧ n < bytes + page)
    (hgrants : (virtualAlloc (slots * chunkSz % word * sizeofFloat % word)).isSome)
    (hbytes : slots * chunkSz * sizeofFloat < word) :
    (construct virtualAlloc slots chunkSz zero).Returns raw (fun _ ring =>
      Serving ring Fifo.empty [] ∧ ring.slots = slots ∧ ring.chunkSz = chunkSz) := by
  have htotal : slots * chunkSz % word = slots * chunkSz := Nat.mod_eq_of_lt (by
    rw [sizeofFloat] at hbytes
    omega)
  obtain ⟨n, hn⟩ := Option.isSome_iff_exists.mp hgrants
  have hfill : slots * chunkSz ≤ n / sizeofFloat := by
    have hle := (hpages _ n hn).1
    rw [htotal, Nat.mod_eq_of_lt hbytes] at hle
    rw [Nat.le_div_iff_mul_le (by decide)]
    exact hle
  refine ⟨(), ⟨slots, chunkSz, slots * chunkSz, List.replicate (n / sizeofFloat) zero, 0, 0⟩, ?_,
    ⟨⟨hslots, hbytes, hfill.trans List.length_replicate.ge⟩, rfl, word_pos, le_rfl, Nat.zero_le _,
      fun c hc => absurd hc (Nat.not_lt_zero c), rfl, rfl⟩, rfl, rfl⟩
  rw [htotal] at hn
  simp only [construct, htotal, hn, if_pos hfill]
  rfl

lemma short_of_word {total product n : ℕ} (htotal : total = product % word)
    (hbytes : word ≤ product * sizeofFloat) (hfill : total ≤ n / sizeofFloat)
    (hn : n < total * sizeofFloat % word + page) (hpage : page ≤ word) :
    n / sizeofFloat < product := by
  have hdiv := Nat.div_add_mod (total * sizeofFloat) word
  have hmod := Nat.mod_lt (total * sizeofFloat) word_pos
  have hlt : total * sizeofFloat / word = 0 := by
    by_contra hne
    have hmul := Nat.mul_le_mul_left word (Nat.one_le_iff_ne_zero.mpr hne)
    rw [sizeofFloat] at *
    omega
  have hproduct : word ≤ product := by
    by_contra hgt
    rw [Nat.mod_eq_of_lt (by omega)] at htotal
    rw [hlt, htotal] at hdiv
    rw [htotal] at hmod
    omega
  rw [sizeofFloat] at *
  omega

/-- A buffer that is too small: after some pushes a slot reaches past its end. -/
lemma not_behaves (hw : slots < word) (hsz : 1 ≤ chunkSz)
    (hpages : ∀ bytes n, virtualAlloc bytes = some n → bytes ≤ n ∧ n < bytes + page)
    (hpage : page ≤ word) (hbytes : word ≤ slots * chunkSz * sizeofFloat) :
    ¬Behaves virtualAlloc slots chunkSz zero := by
  intro h
  obtain ⟨_, _, hrun, -⟩ := h ⟨0, 0, 0, [], 0, 0⟩ [] (fun _ hc => nomatch hc) word_pos
  obtain ⟨_, _, hring, -⟩ := Code.bind_eq_returned.mp hrun
  obtain ⟨n, hn, hfill, -⟩ := construct_eq_returned hring
  obtain ⟨total, htotal⟩ : ∃ total, total = n / sizeofFloat := ⟨_, rfl⟩
  have hshort : total < chunkSz * slots := by
    rw [Nat.mul_comm, htotal]
    exact short_of_word rfl hbytes hfill (hpages _ n hn).2 hpage
  -- the first slot that the buffer has no room for
  have hk : total / chunkSz < slots := Nat.div_lt_of_lt_mul hshort
  let chunks := List.replicate (total / chunkSz + 1) (List.replicate chunkSz zero)
  have hchunks : chunks.length = total / chunkSz + 1 := List.length_replicate
  obtain ⟨replies, ring, hrun, -, hleft⟩ := h ⟨0, 0, 0, [], 0, 0⟩ (chunks.map Call.push)
    (by
      rw [pushes_map]
      intro chunk hchunk
      rw [List.eq_of_mem_replicate hchunk, List.length_replicate])
    (by rw [pushes_map, hchunks]; exact lt_of_le_of_lt hk hw)
  obtain ⟨_, start, hring, hrun⟩ := Code.bind_eq_returned.mp hrun
  obtain ⟨n', hn', -, rfl⟩ := construct_eq_returned hring
  rw [hn] at hn'
  cases hn'
  obtain ⟨hlen, hsize⟩ := (session_sizes chunks).returned hrun
  have hlast : (pushes (chunks.map Call.push))[total / chunkSz]? =
      some (List.replicate chunkSz zero) := by
    rw [pushes_map]
    exact List.getElem?_replicate_of_lt (Nat.lt_succ_self _)
  have hsamples := hleft.retained _ _ hlast (by
    rw [pushes_map, hchunks]
    exact Nat.add_le_add_left (Nat.one_le_of_lt hk) _)
  have hcount := congrArg List.length hsamples
  rw [samples, hsize, List.length_take, List.length_drop, hlen, List.length_replicate,
    List.length_replicate, ← htotal, Nat.mod_eq_of_lt hk] at hcount
  have hdiv := Nat.div_add_mod total chunkSz
  have hrem := Nat.mod_lt total hsz
  have hcomm := Nat.mul_comm chunkSz (total / chunkSz)
  change min chunkSz _ = chunkSz at hcount
  omega

/-- The ring behaves as a bounded queue exactly when the size of its buffer in bytes is a number
that a word can count. The pages it gets hold what it asks for, and less than one page more. -/
theorem behaves_iff (hslots : 1 ≤ slots) (hw : slots < word) (hsz : 1 ≤ chunkSz)
    (hpages : ∀ bytes n, virtualAlloc bytes = some n → bytes ≤ n ∧ n < bytes + page)
    (hpage : page ≤ word)
    (hgrants : (virtualAlloc (slots * chunkSz % word * sizeofFloat % word)).isSome) :
    Behaves virtualAlloc slots chunkSz zero ↔ slots * chunkSz * sizeofFloat < word := by
  constructor
  · intro h
    by_contra hbytes
    exact not_behaves hw hsz hpages hpage (by omega) h
  · intro hbytes raw calls hlen hlt
    refine (construct_fits hslots hpages hgrants hbytes).bind ?_
    rintro _ ring ⟨hring, rfl, rfl⟩
    refine (hring.session calls hlen (by rw [List.length_nil]; omega)).mono ?_
    intro replies ring' hring'
    rwa [List.nil_append] at hring'

theorem smallRing_behaves : Behaves wholePages 2 1 (0 : ℕ) := by
  have hword : 2 * 1 % word * sizeofFloat % word = 8 := by
    rw [word]
    rfl
  refine (behaves_iff (by decide) (by rw [word]; decide) (by decide) wholePages_le
    (by rw [word]; decide) (by rw [hword]; rfl)).mpr ?_
  rw [word]
  decide

/-- Three samples for each of so many slots that the product is two: the ring is constructed in
one page. -/
theorem hugeRing_not_behaves :
    ((construct wholePages 6148914691236517206 3 0 ⟨0, 0, 0, [], 0, 0⟩).state?.map
      fun ring : ChunkRing ℕ => (ring.slots, ring.totalSamples, ring.buffer.length)) =
        some (6148914691236517206, 2, 1024) ∧
    ¬Behaves wholePages 6148914691236517206 3 (0 : ℕ) := by
  refine ⟨by decide +kernel, not_behaves ?_ (by decide) wholePages_le ?_ ?_⟩ <;> rw [word]
  · decide
  · decide
  · decide

end ChunkRing

end Voxory
