import Mathlib.Data.List.Range
import Mathlib.Data.List.Count
import Mathlib.Data.List.Perm.Basic
import Voxory.ChunkRing.Order

/-!
# What becomes of the chunks

Every chunk that was pushed has been taken, is in the consumer's hands, is pending or was missed.
As long as no store of the read index comes late a chunk is missed only where the producer dropped
one, and where it drops none, no store does come late.
-/

namespace Voxory
open Cxx Machine

lemma perm_append_filter_notMem {l : List ℕ} {n : ℕ} (hnodup : l.Nodup) (hlt : ∀ i ∈ l, i < n) :
    (l ++ (List.range n).filter (· ∉ l)).Perm (List.range n) := by
  have hin : ((List.range n).filter (· ∈ l)).Perm l := by
    refine (List.perm_ext_iff_of_nodup (List.nodup_range.filter _) hnodup).mpr fun i => ?_
    rw [List.mem_filter, List.mem_range, decide_eq_true_iff]
    exact and_iff_right_of_imp (hlt i)
  have hsplit := List.filter_append_perm (fun i => decide (i ∈ l)) (List.range n)
  simp only [← decide_not] at hsplit
  exact (hin.symm.append_right _).trans hsplit

namespace ChunkRing

variable {α : Type}

namespace Threads

/-- The chunk that the consumer has claimed and not yet returned. -/
def inHand (s : Threads α) : List ℕ :=
  match s.popping with
  | .claimed r _ => [r]
  | .idle | .gotRead _ | .nonempty _ => []

/-- The chunks that wait for a pop. -/
def pending (s : Threads α) : List ℕ :=
  List.range' s.ring.readIndex (s.ring.writeIndex - s.ring.readIndex)

/-- The chunks that no pop has claimed and none will. -/
def missed (s : Threads α) : List ℕ :=
  (List.range s.ring.readIndex).filter (· ∉ s.taken ++ s.inHand)

variable {src : ℕ → List α} {s s' : Threads α} {l : Atomic} {ls : List Atomic}

lemma Tight.claimed_lt (h : Tight s) : ∀ t ∈ s.taken ++ s.inHand, t < s.ring.readIndex := by
  have hpop := h.pop
  intro t ht
  rw [inHand] at ht
  cases hp : s.popping with
  | idle =>
    rw [hp] at hpop ht
    rw [List.append_nil] at ht
    exact hpop t ht
  | gotRead r | nonempty r =>
    rw [hp] at hpop ht
    rw [List.append_nil] at ht
    exact (hpop.2 t ht).trans_le hpop.1
  | claimed r ptr =>
    rw [hp] at hpop ht
    rcases List.mem_append.mp ht with ht | ht
    · exact (hpop.2 t ht).trans hpop.1
    · rw [List.mem_singleton.mp ht]
      exact hpop.1

lemma Tight.claimed_sorted (h : Tight s) : (s.taken ++ s.inHand).Pairwise (· < ·) := by
  have hpop := h.pop
  rw [inHand]
  cases hp : s.popping with
  | idle | gotRead r | nonempty r =>
    rw [List.append_nil]
    exact h.sorted
  | claimed r ptr =>
    rw [hp] at hpop
    refine List.pairwise_append.mpr ⟨h.sorted, List.pairwise_singleton _ _, fun t ht u hu => ?_⟩
    rw [List.mem_singleton.mp hu]
    exact hpop.2 t ht

lemma Tight.missed_perm (h : Tight s) :
    (s.taken ++ s.inHand ++ s.missed).Perm (List.range s.ring.readIndex) :=
  perm_append_filter_notMem (h.claimed_sorted.imp Nat.ne_of_lt) h.claimed_lt

lemma Tight.length_missed (h : Tight s) :
    s.missed.length + (s.taken.length + s.inHand.length) = s.ring.readIndex := by
  have hlength := h.missed_perm.length_eq
  rw [List.length_append, List.length_append, List.length_range] at hlength
  omega

lemma Sane.range_append_pending (h : Sane s) :
    List.range s.ring.readIndex ++ s.pending = List.range s.pushed := by
  have hle := h.read_le
  rw [pending, h.written, List.range_eq_range', List.range_eq_range']
  have happend :=
    List.range'_append_1 (s := 0) (m := s.ring.readIndex) (n := s.pushed - s.ring.readIndex)
  rw [Nat.zero_add] at happend
  rw [happend, Nat.add_sub_cancel' hle]

/-- Only a drop can make the consumer miss a chunk, and no more than one. -/
lemma Tight.missed_step (h : Tight s) (hc : s.Counted l) (hfresh : s.Fresh l)
    (hs : Step src s l s') :
    s'.missed.length ≤ s.missed.length + if l == .pushDrop then 1 else 0 := by
  have hlength := h.length_missed
  have hlength' := (h.step hc hfresh hs).1.length_missed
  cases hs with
  | stop | begin | loadWrite | loadRead | publish => exact Nat.le_add_right _ _
  | copy hp hcopy =>
    obtain ⟨buffer, -, rfl⟩ := copyChunk_eq_returned hcopy
    exact Nat.le_add_right _ _
  | @drop w r newR hp hover hnew =>
    have hpush := h.push
    rw [hp] at hpush
    obtain ⟨rfl, -⟩ := h.dropped hp hover hnew
    have hread : r ≤ s.ring.readIndex := hpush.1
    rw [if_pos (beq_self_eq_true _)]
    change _ + (s.taken.length + s.inHand.length) = r + 1 at hlength'
    omega
  | popLoadRead hp | empty hp | nonempty hp =>
    rw [inHand, hp] at hlength
    change _ + (s.taken.length + 0) = s.ring.readIndex at hlength hlength'
    omega
  | @claim r ptr hp =>
    have hpop := h.pop
    rw [hp] at hpop
    rw [inHand, hp] at hlength
    have hread : r ≤ s.ring.readIndex := hpop.1
    have hmod := Nat.mod_le (r + 1) word
    change _ + (s.taken.length + 0) = s.ring.readIndex at hlength
    change _ + (s.taken.length + 1) = (r + 1) % word at hlength'
    omega
  | done hp =>
    rw [inHand, hp] at hlength
    change _ + (s.taken.length + 1) = s.ring.readIndex at hlength
    change _ + ((s.taken ++ [_]).length + 0) = s.ring.readIndex at hlength'
    rw [List.length_append, List.length_singleton] at hlength'
    omega

lemma Tight.missed_le (h : Tight s) (hcount : Along (next src) Counted s ls)
    (hfresh : Along (next src) Fresh s ls) (hrun : run (next src) s ls = some s') :
    Tight s' ∧ s'.missed.length ≤ s.missed.length + ls.count .pushDrop :=
  run_countP Tight (fun s => s.missed.length) (· == Atomic.pushDrop)
    (fun _ _ _ hs hl hn =>
      have hstep := step_of_next hn
      ⟨(hs.step hl.1 hl.2 hstep).1, hs.missed_step hl.1 hl.2 hstep⟩) h (hcount.and hfresh) hrun

/-- In every run of fewer pushes than a word can count in which no store of the read index comes
late, each chunk that was pushed has been taken once, is in the consumer's hands, was missed or is
pending, and no more are missed than the producer has dropped. -/
theorem custody {virtualAlloc : ℕ → Option ℕ} {slots chunkSz : ℕ} {zero : α}
    {raw ring : ChunkRing α}
    (hring : construct virtualAlloc slots chunkSz zero raw = .returned () ring)
    (hslots : 1 ≤ slots) (src : ℕ → List α) {ls : List Atomic}
    (hcount : Along (next src) Counted (start ring) ls)
    (hfresh : Along (next src) Fresh (start ring) ls)
    (hrun : run (next src) (start ring) ls = some s) :
    (s.taken ++ s.inHand ++ s.missed ++ s.pending).Perm (List.range s.pushed) ∧
    s.missed.length ≤ ls.count .pushDrop := by
  obtain ⟨n, -, -, rfl⟩ := construct_eq_returned hring
  obtain ⟨h, hmissed⟩ := (Tight.start rfl rfl hslots).missed_le hcount hfresh hrun
  rw [← h.range_append_pending]
  exact ⟨h.missed_perm.append_right _, hmissed.trans_eq (Nat.zero_add _)⟩

/-- Three pushes into two slots, the last of which drops chunk 0, and then a pop. -/
def overrun : List Atomic := pushSteps false ++ pushSteps false ++ pushSteps true ++ popSteps

theorem overrun_custody : ∃ s : Threads ℕ,
    run (next fun n => [n]) (start (smallRing [0, 0] 0 0)) overrun = some s ∧
    s.taken = [1] ∧ s.inHand = [] ∧ s.missed = [0] ∧ s.pending = [2] ∧
    (s.taken ++ s.inHand ++ s.missed ++ s.pending).Perm (List.range s.pushed) ∧
    s.missed.length ≤ overrun.count .pushDrop := by
  have hrun : run (next fun n => [n]) (start (smallRing [0, 0] 0 0)) overrun =
      some ⟨smallRing [2, 1] 3 2, .idle, .idle, 3, [1]⟩ := by decide +kernel
  exact ⟨_, hrun, rfl, rfl, by decide, by decide, custody construct_smallRing (by decide) _
    (by decide +kernel) (by decide +kernel) hrun⟩

/-! ### Without drops -/

/-- What the consumer has loaded while it alone stores the read index. -/
def Current (read : ℕ) : Popping → Prop
  | .idle | .claimed _ _ => True
  | .gotRead r | .nonempty r => r = read

lemma Current.step (h : Current s.ring.readIndex s.popping) (hdrop : l ≠ .pushDrop)
    (hs : Step src s l s') : Current s'.ring.readIndex s'.popping := by
  cases hs with
  | stop | begin | loadWrite | loadRead | publish => exact h
  | drop => exact absurd rfl hdrop
  | copy hp hcopy =>
    obtain ⟨buffer, -, rfl⟩ := copyChunk_eq_returned hcopy
    exact h
  | popLoadRead hp => exact rfl
  | nonempty hp =>
    rw [hp] at h
    exact h
  | empty | claim | done => trivial

lemma Current.fresh (h : Current s.ring.readIndex s.popping) (hdrop : l ≠ .pushDrop) :
    s.Fresh l := by
  cases l with
  | pushDrop => exact absurd rfl hdrop
  | popClaim =>
    intro r hp
    rw [hp] at h
    obtain rfl : r = s.ring.readIndex := h
    exact Nat.le_succ _
  | _ => trivial

lemma fresh_of_no_drop (h : Current s.ring.readIndex s.popping) (hdrop : .pushDrop ∉ ls) :
    Along (next src) Fresh s ls := by
  have hbase : Along (next src) (fun _ l => l ≠ .pushDrop) s ls :=
    along_of_forall fun l hl hl' => hdrop (hl' ▸ hl)
  refine (along_congr (fun s : Threads α => Current s.ring.readIndex s.popping)
    (fun s l hs hl => iff_true_intro (hs.fresh hl)) (fun s l s' hs hl _ hn =>
      hs.step hl (step_of_next hn)) h hbase).mpr ?_
  exact along_of_forall fun _ _ => trivial

/-- However the two threads interleave, as long as the producer has dropped no chunk those that the
consumer has taken, has in its hands and has yet to pop are all the chunks pushed, in order. -/
theorem delivered_of_no_drop {virtualAlloc : ℕ → Option ℕ} {slots chunkSz : ℕ} {zero : α}
    {raw ring : ChunkRing α}
    (hring : construct virtualAlloc slots chunkSz zero raw = .returned () ring)
    (hslots : 1 ≤ slots) (src : ℕ → List α) {ls : List Atomic}
    (hcount : Along (next src) Counted (start ring) ls) (hdrop : .pushDrop ∉ ls)
    (hrun : run (next src) (start ring) ls = some s) :
    s.taken ++ s.inHand ++ s.pending = List.range s.pushed := by
  obtain ⟨n, -, -, rfl⟩ := construct_eq_returned hring
  obtain ⟨h, hmissed⟩ := (Tight.start rfl rfl hslots).missed_le hcount
    (fresh_of_no_drop trivial hdrop) hrun
  have hnone : s.missed = [] := by
    rw [List.count_eq_zero.mpr hdrop] at hmissed
    exact List.eq_nil_of_length_eq_zero (Nat.le_zero.mp hmissed)
  have hperm := h.missed_perm
  rw [hnone, List.append_nil] at hperm
  have hall : s.taken ++ s.inHand = List.range s.ring.readIndex :=
    hperm.eq_of_pairwise (fun a b _ _ hab hba => absurd hab hba.asymm) h.claimed_sorted
      List.pairwise_lt_range
  rw [hall]
  exact h.range_append_pending

/-- A push and a pop, then a push and a pop whose steps alternate. -/
def alternating : List Atomic := pushSteps false ++ popSteps ++ pushSteps false ++
  [.pushLoadStop false, .popLoadRead, .pushLoadWrite, .popLoadWrite, .pushLoadRead, .popClaim,
    .pushCopy, .pushPublish]

theorem alternating_delivered : ∃ s : Threads ℕ,
    run (next fun n => [n]) (start (smallRing [0, 0] 0 0)) alternating = some s ∧
    s.taken = [0] ∧ s.inHand = [1] ∧ s.pending = [2] ∧
    s.taken ++ s.inHand ++ s.pending = List.range s.pushed := by
  have hrun : run (next fun n => [n]) (start (smallRing [0, 0] 0 0)) alternating =
      some ⟨smallRing [2, 1] 3 2, .idle, .claimed 1 1, 3, [0]⟩ := by decide +kernel
  exact ⟨_, hrun, rfl, rfl, by decide, delivered_of_no_drop construct_smallRing (by decide) _
    (by decide +kernel) (by decide) hrun⟩

end Threads

end ChunkRing

end Voxory
