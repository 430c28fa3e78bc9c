import Voxory.ChunkRing.Interleaving

/-!
# The order of the chunks

Both threads load the read index and store it again, so that a store may set it back when the
other thread has stored it in between. If no store comes that late, the read index only grows,
the producer keeps the ring within its slots and no chunk is taken twice.
-/

namespace Voxory
open Cxx

namespace ChunkRing

variable {α : Type}

namespace Threads

/-- A store of the read index comes when the index is at most one past what the call loaded. -/
def Fresh (s : Threads α) : Atomic → Prop
  | .pushDrop => ∀ w r, s.pushing = .gotRead w r → s.ring.Overdue w r → s.ring.readIndex ≤ r + 1
  | .popClaim => ∀ r, s.popping = .nonempty r → s.ring.readIndex ≤ r + 1
  | _ => True

instance (s : Threads α) (l : Atomic) : Decidable (s.Fresh l) :=
  match l with
  | .pushDrop =>
    match hp : s.pushing with
    | .gotRead w r => decidable_of_iff (s.ring.Overdue w r → s.ring.readIndex ≤ r + 1)
      ⟨fun h w' r' hp' => by rw [hp] at hp'; cases hp'; exact h, fun h => h w r hp⟩
    | .idle | .starting | .gotWrite _ | .dropped _ | .copied _ =>
      .isTrue (fun w r hp' => by rw [hp] at hp'; cases hp')
  | .popClaim =>
    match hp : s.popping with
    | .nonempty r => decidable_of_iff (s.ring.readIndex ≤ r + 1)
      ⟨fun h r' hp' => by rw [hp] at hp'; cases hp'; exact h, fun h => h r hp⟩
    | .idle | .gotRead _ | .claimed _ _ => .isTrue (fun r hp' => by rw [hp] at hp'; cases hp')
  | .pushLoadStop _ | .pushLoadWrite | .pushLoadRead | .pushCopy | .pushPublish | .popLoadRead
  | .popLoadWrite | .popReturn => .isTrue trivial

/-- After a step the read index has not decreased, at most `slots` chunks are pending unless a
push is in progress, and the chunks taken are in order. -/
structure Orderly (s s' : Threads α) : Prop where
  read_le : s.ring.readIndex ≤ s'.ring.readIndex
  pending : s'.pushing = .idle → minus s'.ring.writeIndex s'.ring.readIndex ≤ s'.ring.slots
  taken : s'.taken.Pairwise (· < ·)

/-- What the producer knows of the read index: it may only have grown since. -/
def PushTight (slots write read : ℕ) : Pushing → Prop
  | .idle | .starting | .gotWrite _ => write ≤ read + slots
  | .gotRead w r => r ≤ read ∧ w ≤ r + slots
  | .dropped w | .copied w => w < read + slots

/-- What the consumer knows of the read index. -/
def PopTight (read : ℕ) (taken : List ℕ) : Popping → Prop
  | .idle => ∀ t ∈ taken, t < read
  | .gotRead r | .nonempty r => r ≤ read ∧ ∀ t ∈ taken, t < r
  | .claimed r _ => r < read ∧ ∀ t ∈ taken, t < r

/-- The invariant of the runs in which no store comes late. -/
structure Tight (s : Threads α) : Prop extends Sane s where
  slots_pos : 1 ≤ s.ring.slots
  push : PushTight s.ring.slots s.ring.writeIndex s.ring.readIndex s.pushing
  pop : PopTight s.ring.readIndex s.taken s.popping
  sorted : s.taken.Pairwise (· < ·)

variable {src : ℕ → List α} {s s' : Threads α} {l : Atomic}

lemma PushTight.mono {slots write read read' : ℕ} {p : Pushing} (h : PushTight slots write read p)
    (hread : read ≤ read') : PushTight slots write read' p := by
  cases p <;> simp only [PushTight] at h ⊢ <;> omega

lemma PopTight.mono {read read' : ℕ} {taken : List ℕ} {p : Popping} (h : PopTight read taken p)
    (hread : read ≤ read') : PopTight read' taken p := by
  cases p with
  | idle => exact fun t ht => (h t ht).trans_le hread
  | gotRead r => exact ⟨h.1.trans hread, h.2⟩
  | nonempty r => exact ⟨h.1.trans hread, h.2⟩
  | claimed r ptr => exact ⟨h.1.trans_le hread, h.2⟩

lemma Tight.start {ring : ChunkRing α} (hw : ring.writeIndex = 0) (hr : ring.readIndex = 0)
    (hslots : 1 ≤ ring.slots) : Tight (start ring) :=
  ⟨.start hw hr, hslots, by
    change ring.writeIndex ≤ ring.readIndex + ring.slots
    omega, fun _ ht => (nomatch ht), .nil⟩

lemma Tight.dropped {w r newR : ℕ} (h : Tight s) (hp : s.pushing = .gotRead w r)
    (hover : s.ring.Overdue w r) (hnew : newR = minus w (minus s.ring.slots 1)) :
    newR = r + 1 ∧ w = r + s.ring.slots := by
  have hloaded := h.pushing
  have htight := h.push
  have hlt := h.lt_word
  have hslots := h.slots_pos
  rw [hp] at hloaded htight
  obtain ⟨hw, hr⟩ := hloaded
  obtain ⟨-, hle⟩ := htight
  have hdrop := minus_dropped hover hr (by omega) hslots
  omega

lemma Tight.step (h : Tight s) (hc : s.Counted l) (hfresh : s.Fresh l) (hs : Step src s l s') :
    Tight s' ∧ s.ring.readIndex ≤ s'.ring.readIndex := by
  have hslots := h.slots_pos
  have hsane := h.toSane.step hslots hc hs
  have hlt := h.lt_word
  have hwritten := h.written
  have hloaded := h.pushing
  have hpush := h.push
  have hpop := h.pop
  cases hs with
  | stop => exact ⟨h, le_rfl⟩
  | begin hp =>
    rw [hp] at hpush
    exact ⟨⟨hsane, hslots, hpush, hpop, h.sorted⟩, le_rfl⟩
  | loadWrite hp =>
    rw [hp] at hpush
    exact ⟨⟨hsane, hslots, hpush, hpop, h.sorted⟩, le_rfl⟩
  | loadRead hp =>
    rw [hp] at hpush hloaded
    have hw : _ = s.pushed := hloaded
    refine ⟨⟨hsane, hslots, ⟨le_rfl, ?_⟩, hpop, h.sorted⟩, le_rfl⟩
    rw [hw, ← hwritten]
    exact hpush
  | drop hp hover hnew =>
    obtain ⟨rfl, hw⟩ := h.dropped hp hover hnew
    have hread := hfresh _ _ hp hover
    refine ⟨⟨hsane, hslots, ?_, hpop.mono hread, h.sorted⟩, hread⟩
    change _ < _ + 1 + s.ring.slots
    omega
  | copy hp hcopy =>
    obtain ⟨buffer, -, rfl⟩ := copyChunk_eq_returned hcopy
    refine ⟨⟨hsane, hslots, ?_, hpop, h.sorted⟩, le_rfl⟩
    rcases hp with ⟨r, hp, hover⟩ | hp <;> rw [hp] at hpush hloaded
    · obtain ⟨hw, hr⟩ := hloaded
      rw [Overdue, minus_eq hr (by omega)] at hover
      have hle := hpush.1
      change _ < s.ring.readIndex + s.ring.slots
      omega
    · exact hpush
  | publish hp =>
    rw [hp] at hpush hloaded
    have hw : _ = s.pushed := hloaded
    have hlast : _ < s.ring.readIndex + s.ring.slots := hpush
    refine ⟨⟨hsane, hslots, ?_, hpop, h.sorted⟩, le_rfl⟩
    have hnext := hsane.written
    change (_ + 1) % word = s.pushed + 1 at hnext
    change (_ + 1) % word ≤ s.ring.readIndex + s.ring.slots
    omega
  | popLoadRead hp =>
    rw [hp] at hpop
    exact ⟨⟨hsane, hslots, hpush, ⟨le_rfl, hpop⟩, h.sorted⟩, le_rfl⟩
  | empty hp =>
    rw [hp] at hpop
    exact ⟨⟨hsane, hslots, hpush, fun t ht => (hpop.2 t ht).trans_le hpop.1, h.sorted⟩, le_rfl⟩
  | nonempty hp =>
    rw [hp] at hpop
    exact ⟨⟨hsane, hslots, hpush, hpop, h.sorted⟩, le_rfl⟩
  | @claim r ptr hp =>
    rw [hp] at hpop
    have hr := h.popping
    rw [hp] at hr
    have hlast : r < s.pushed := hr
    have hmod := Nat.mod_eq_of_lt (show r + 1 < word by omega)
    have hread : s.ring.readIndex ≤ (r + 1) % word := (hfresh r hp).trans hmod.ge
    refine ⟨⟨hsane, hslots, hpush.mono hread, ⟨?_, hpop.2⟩, h.sorted⟩, hread⟩
    exact (Nat.lt_succ_self r).trans_le hmod.ge
  | done hp =>
    rw [hp] at hpop
    refine ⟨⟨hsane, hslots, hpush, fun t ht => ?_, ?_⟩, le_rfl⟩
    · rcases List.mem_append.mp ht with ht | ht
      · exact (hpop.2 t ht).trans hpop.1
      · rw [List.mem_singleton.mp ht]
        exact hpop.1
    · refine List.pairwise_append.mpr ⟨h.sorted, List.pairwise_singleton _ _, fun t ht u hu => ?_⟩
      rw [List.mem_singleton.mp hu]
      exact hpop.2 t ht

lemma Tight.orderly (h : Tight s') (hread : s.ring.readIndex ≤ s'.ring.readIndex) :
    Orderly s s' := by
  refine ⟨hread, fun hp => ?_, h.sorted⟩
  have hpush := h.push
  have hwritten := h.written
  have hle := h.read_le
  have hlt := h.lt_word
  rw [hp] at hpush
  have hpending : s'.ring.writeIndex ≤ s'.ring.readIndex + s'.ring.slots := hpush
  rw [minus_eq (by omega) (by omega)]
  omega

/-- A late store sets the read index back. -/
lemma Tight.fresh (h : Tight s) (horderly : ∀ s', next src s l = some s' → Orderly s s') :
    s.Fresh l := by
  have hslots := h.slots_pos
  have hlt := h.lt_word
  cases l with
  | pushDrop =>
    intro w r hp hover
    have hrun : next src s .pushDrop = some { s with
        ring := { s.ring with readIndex := minus w (minus s.ring.slots 1) },
        pushing := .dropped w } := by
      simp only [next, hp, if_pos hover]
      rfl
    have hread := (horderly _ hrun).read_le
    exact hread.trans (h.dropped hp hover rfl).1.le
  | popClaim =>
    intro r hp
    have hr := h.popping
    rw [hp] at hr
    have hlast : r < s.pushed := hr
    have hrun : next src s .popClaim = some { s with
        ring := { s.ring with readIndex := (r + 1) % word },
        popping := .claimed r (r % s.ring.slots * s.ring.chunkSz % word) } := by
      have hz : ¬s.ring.slots = 0 := by omega
      simp only [next, hp, claimed, Code.bind_run, position, Code.get, if_neg hz, Code.pure_run,
        ChunkRing.claim, Code.set]
    have hread := (horderly _ hrun).read_le
    exact hread.trans (Nat.mod_le _ _)
  | _ => trivial

/-- In every run of fewer pushes than a word can count, every step is orderly exactly when no
store of the read index comes late. -/
theorem orderly_iff_fresh {virtualAlloc : ℕ → Option ℕ} {slots chunkSz : ℕ} {zero : α}
    {raw ring : ChunkRing α}
    (hring : construct virtualAlloc slots chunkSz zero raw = .returned () ring)
    (hslots : 1 ≤ slots) (src : ℕ → List α) (ls : List Atomic)
    (hcount : Machine.Along (next src) Counted (start ring) ls) :
    Machine.Along (next src) (fun s l => ∀ s', next src s l = some s' → Orderly s s')
      (start ring) ls ↔ Machine.Along (next src) Fresh (start ring) ls := by
  obtain ⟨n, -, -, rfl⟩ := construct_eq_returned hring
  refine Machine.along_congr Tight (fun s l hs hc => ⟨hs.fresh, fun hfresh s' hn => ?_⟩)
    (fun s l s' hs hc hfresh hn => (hs.step hc hfresh (step_of_next hn)).1)
    (.start rfl rfl hslots) hcount
  have hstep := hs.step hc hfresh (step_of_next hn)
  exact hstep.1.orderly hstep.2

/-- Three pushes into two slots, the last of which drops a chunk between the loads of a pop and
its store. -/
def overlapping : List Atomic :=
  pushSteps false ++ pushSteps false ++ [.popLoadRead, .popLoadWrite] ++ pushSteps true ++
    [.popClaim, .popReturn] ++ popSteps

theorem overlapping_orderly :
    (Machine.run (next (fun n => [n])) (start (smallRing [0, 0] 0 0)) overlapping).map taken =
      some [0, 1] ∧
    Machine.Along (next (fun n => [n])) (fun s l => ∀ s', next (fun n => [n]) s l = some s' →
      Orderly s s') (start (smallRing [0, 0] 0 0)) overlapping := by
  have hcount : Machine.Along (next (fun n => [n])) Counted (start (smallRing [0, 0] 0 0))
      overlapping := by decide +kernel
  have hfresh : Machine.Along (next (fun n => [n])) Fresh (start (smallRing [0, 0] 0 0))
      overlapping := by decide +kernel
  exact ⟨by decide +kernel,
    (orderly_iff_fresh construct_smallRing (by decide) _ _ hcount).mpr hfresh⟩

/-- Two slots: the producer has loaded the read index before two pops that store it. -/
def latePush : List Atomic :=
  pushSteps false ++ pushSteps false ++ [.pushLoadStop false, .pushLoadWrite, .pushLoadRead] ++
    popSteps ++ popSteps

/-- The drop that follows sets the read index back from 2 to 1, and chunk 1 is taken twice. -/
theorem latePush_takes_twice : ∃ s t u : Threads ℕ,
    construct wholePages 2 1 0 ⟨0, 0, 0, [], 0, 0⟩ = .returned () (smallRing [0, 0] 0 0) ∧
    Machine.run (next (fun n => [n])) (start (smallRing [0, 0] 0 0)) latePush = some s ∧
    next (fun n => [n]) s .pushDrop = some t ∧
    Machine.run (next (fun n => [n])) t ([.pushCopy, .pushPublish] ++ popSteps) = some u ∧
    s.ring.readIndex = 2 ∧ t.ring.readIndex = 1 ∧ u.taken = [0, 1, 1] ∧ ¬Orderly s t :=
  ⟨⟨smallRing [0, 1] 2 2, .gotRead 2 0, .idle, 2, [0, 1]⟩,
    ⟨smallRing [0, 1] 2 1, .dropped 2, .idle, 2, [0, 1]⟩,
    ⟨smallRing [2, 1] 3 2, .idle, .idle, 3, [0, 1, 1]⟩, construct_smallRing, by decide +kernel,
    by decide +kernel, by decide +kernel, rfl, rfl, rfl, fun h => absurd h.read_le (by decide)⟩

end Threads

end ChunkRing

end Voxory
