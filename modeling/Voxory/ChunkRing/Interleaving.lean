import Voxory.ChunkRing.Model
import Voxory.Machine

/-!
# A producer and a consumer

One thread pushes chunks and another pops them. A step of the machine is one load, one store or
one copy of the functions `pushChunk` and `tryPopChunk`, or the return of the latter; every
sequence of steps is an interleaving.
-/

namespace Voxory
open Cxx

namespace ChunkRing

variable {α : Type}

/-- How far the producer is in `push_chunk`, with the values it has loaded. -/
inductive Pushing where
  | idle
  | starting
  | gotWrite (w : ℕ)
  | gotRead (w r : ℕ)
  | dropped (w : ℕ)
  | copied (w : ℕ)
  deriving DecidableEq

/-- How far the consumer is in `try_pop_chunk`. -/
inductive Popping where
  | idle
  | gotRead (r : ℕ)
  | nonempty (r : ℕ)
  | claimed (r ptr : ℕ)
  deriving DecidableEq

inductive Atomic where
  | pushLoadStop (stopFlag : Bool)
  | pushLoadWrite
  | pushLoadRead
  | pushDrop
  | pushCopy
  | pushPublish
  | popLoadRead
  | popLoadWrite
  | popClaim
  | popReturn
  deriving DecidableEq

/-- The ring and its two threads, with the number of complete pushes and the indices that the
complete pops returned a chunk for. -/
structure Threads (α : Type) where
  ring : ChunkRing α
  pushing : Pushing
  popping : Popping
  pushed : ℕ
  taken : List ℕ
  deriving DecidableEq

namespace Threads

/-- Before the first call. -/
def start (ring : ChunkRing α) : Threads α := ⟨ring, .idle, .idle, 0, []⟩

/-- A step of the producer that changes the ring. -/
def push (s : Threads α) (code : Method α Unit) (after : Pushing) : Option (Threads α) :=
  (code s.ring).state?.map fun ring => { s with ring := ring, pushing := after }

def claimed (s : Threads α) (r : ℕ) : Option (Threads α) :=
  match (do
    let ptr ← position r
    claim r
    pure ptr : Method α ℕ) s.ring with
  | .returned ptr ring => some { s with ring := ring, popping := .claimed r ptr }
  | _ => none

/-- One step; the `n`-th chunk to be pushed is `src n`. -/
def next (src : ℕ → List α) (s : Threads α) : Atomic → Option (Threads α)
  | .pushLoadStop stopFlag =>
    match s.pushing with
    | .idle => some (if stopFlag then s else { s with pushing := .starting })
    | _ => none
  | .pushLoadWrite =>
    match s.pushing with
    | .starting => some { s with pushing := .gotWrite s.ring.writeIndex }
    | _ => none
  | .pushLoadRead =>
    match s.pushing with
    | .gotWrite w => some { s with pushing := .gotRead w s.ring.readIndex }
    | _ => none
  | .pushDrop =>
    match s.pushing with
    | .gotRead w r => if s.ring.Overdue w r then s.push (dropOldest w) (.dropped w) else none
    | _ => none
  | .pushCopy =>
    match s.pushing with
    | .gotRead w r =>
      if s.ring.Overdue w r then none else s.push (copyChunk w (src s.pushed)) (.copied w)
    | .dropped w => s.push (copyChunk w (src s.pushed)) (.copied w)
    | _ => none
  | .pushPublish =>
    match s.pushing with
    | .copied w => (s.push (publish w) .idle).map fun t => { t with pushed := s.pushed + 1 }
    | _ => none
  | .popLoadRead =>
    match s.popping with
    | .idle => some { s with popping := .gotRead s.ring.readIndex }
    | _ => none
  | .popLoadWrite =>
    match s.popping with
    | .gotRead r => some { s with popping := if s.ring.writeIndex ≤ r then .idle else .nonempty r }
    | _ => none
  | .popClaim =>
    match s.popping with
    | .nonempty r => s.claimed r
    | _ => none
  | .popReturn =>
    match s.popping with
    | .claimed r _ => some { s with popping := .idle, taken := s.taken ++ [r] }
    | _ => none

variable {src : ℕ → List α} {s s' : Threads α} {l : Atomic}

/-- What a step can do. -/
inductive Step (src : ℕ → List α) (s : Threads α) : Atomic → Threads α → Prop
  | stop (hp : s.pushing = .idle) : Step src s (.pushLoadStop true) s
  | begin (hp : s.pushing = .idle) :
      Step src s (.pushLoadStop false) { s with pushing := .starting }
  | loadWrite (hp : s.pushing = .starting) :
      Step src s .pushLoadWrite { s with pushing := .gotWrite s.ring.writeIndex }
  | loadRead {w : ℕ} (hp : s.pushing = .gotWrite w) :
      Step src s .pushLoadRead { s with pushing := .gotRead w s.ring.readIndex }
  | drop {w r newR : ℕ} (hp : s.pushing = .gotRead w r) (hover : s.ring.Overdue w r)
      (hnew : newR = minus w (minus s.ring.slots 1)) :
      Step src s .pushDrop { s with ring := { s.ring with readIndex := newR }, pushing := .dropped w }
  | copy {w : ℕ} {ring : ChunkRing α}
      (hp : (∃ r, s.pushing = .gotRead w r ∧ ¬s.ring.Overdue w r) ∨ s.pushing = .dropped w)
      (hcopy : copyChunk w (src s.pushed) s.ring = .returned () ring) :
      Step src s .pushCopy { s with ring := ring, pushing := .copied w }
  | publish {w : ℕ} (hp : s.pushing = .copied w) :
      Step src s .pushPublish { s with
        ring := { s.ring with writeIndex := (w + 1) % word }, pushing := .idle,
        pushed := s.pushed + 1 }
  | popLoadRead (hp : s.popping = .idle) :
      Step src s .popLoadRead { s with popping := .gotRead s.ring.readIndex }
  | empty {r : ℕ} (hp : s.popping = .gotRead r) (hle : s.ring.writeIndex ≤ r) :
      Step src s .popLoadWrite { s with popping := .idle }
  | nonempty {r : ℕ} (hp : s.popping = .gotRead r) (hlt : r < s.ring.writeIndex) :
      Step src s .popLoadWrite { s with popping := .nonempty r }
  | claim {r ptr : ℕ} (hp : s.popping = .nonempty r)
      (hptr : (position r : Method α ℕ) s.ring = .returned ptr s.ring) :
      Step src s .popClaim { s with
        ring := { s.ring with readIndex := (r + 1) % word }, popping := .claimed r ptr }
  | done {r ptr : ℕ} (hp : s.popping = .claimed r ptr) :
      Step src s .popReturn { s with popping := .idle, taken := s.taken ++ [r] }

lemma push_eq_some {code : Method α Unit} {after : Pushing} (h : s.push code after = some s') :
    ∃ ring, code s.ring = .returned () ring ∧ s' = { s with ring := ring, pushing := after } := by
  obtain ⟨ring, hring, rfl⟩ := Option.map_eq_some_iff.mp h
  obtain ⟨⟨⟩, hrun⟩ := Outcome.state?_eq_some.mp hring
  exact ⟨ring, hrun, rfl⟩

lemma claimed_eq_some {r : ℕ} (h : s.claimed r = some s') : ∃ ptr,
    (position r : Method α ℕ) s.ring = .returned ptr s.ring ∧
    s' = { s with ring := { s.ring with readIndex := (r + 1) % word }, popping := .claimed r ptr } := by
  by_cases hslots : s.ring.slots = 0
  · have hnone : s.claimed r = none := by
      simp only [claimed, Code.bind_run, position, Code.get, if_pos hslots, Code.undefined]
    rw [hnone] at h
    cases h
  · have hptr : (position r : Method α ℕ) s.ring =
        .returned (r % s.ring.slots * s.ring.chunkSz % word) s.ring := by
      simp only [Code.bind_run, position, Code.get, if_neg hslots, Code.pure_run]
    have hsome : s.claimed r = some { s with
        ring := { s.ring with readIndex := (r + 1) % word },
        popping := .claimed r (r % s.ring.slots * s.ring.chunkSz % word) } := by
      simp only [claimed, Code.bind_run, hptr, ChunkRing.claim, Code.get, Code.set, Code.pure_run]
    rw [hsome] at h
    cases h
    exact ⟨_, hptr, rfl⟩

lemma step_of_next (h : next src s l = some s') : Step src s l s' := by
  cases l with
  | pushLoadStop stopFlag =>
    cases hp : s.pushing <;> simp only [next, hp, reduceCtorEq] at h
    cases stopFlag <;> cases h
    · exact .begin hp
    · exact .stop hp
  | pushLoadWrite =>
    cases hp : s.pushing <;> simp only [next, hp, reduceCtorEq] at h
    cases h
    exact .loadWrite hp
  | pushLoadRead =>
    cases hp : s.pushing <;> simp only [next, hp, reduceCtorEq] at h
    cases h
    exact .loadRead hp
  | pushDrop =>
    cases hp : s.pushing <;> simp only [next, hp, reduceCtorEq] at h
    split_ifs at h with hover
    obtain ⟨ring, hrun, rfl⟩ := push_eq_some h
    cases hrun
    exact .drop hp hover rfl
  | pushCopy =>
    cases hp : s.pushing <;> simp only [next, hp, reduceCtorEq] at h
    · split_ifs at h with hover
      obtain ⟨ring, hrun, rfl⟩ := push_eq_some h
      exact .copy (Or.inl ⟨_, hp, hover⟩) hrun
    · obtain ⟨ring, hrun, rfl⟩ := push_eq_some h
      exact .copy (Or.inr hp) hrun
  | pushPublish =>
    cases hp : s.pushing <;> simp only [next, hp, reduceCtorEq] at h
    obtain ⟨t, ht, rfl⟩ := Option.map_eq_some_iff.mp h
    obtain ⟨ring, hrun, rfl⟩ := push_eq_some ht
    cases hrun
    exact .publish hp
  | popLoadRead =>
    cases hp : s.popping <;> simp only [next, hp, reduceCtorEq] at h
    cases h
    exact .popLoadRead hp
  | popLoadWrite =>
    cases hp : s.popping <;> simp only [next, hp, reduceCtorEq] at h
    split_ifs at h with hle <;> cases h
    · exact .empty hp hle
    · exact .nonempty hp (by omega)
  | popClaim =>
    cases hp : s.popping <;> simp only [next, hp, reduceCtorEq] at h
    obtain ⟨ptr, hptr, rfl⟩ := claimed_eq_some h
    exact .claim hp hptr
  | popReturn =>
    cases hp : s.popping <;> simp only [next, hp, reduceCtorEq] at h
    cases h
    exact .done hp

/-! ### Calls without interruption -/

/-- The steps of a push, with or without a drop. -/
def pushSteps (drop : Bool) : List Atomic :=
  [.pushLoadStop false, .pushLoadWrite, .pushLoadRead] ++
    (if drop then [.pushDrop] else []) ++ [.pushCopy, .pushPublish]

def popSteps : List Atomic := [.popLoadRead, .popLoadWrite, .popClaim, .popReturn]

/-- A push that the consumer does not interrupt does what `pushChunk` does. -/
theorem run_pushSteps {ring : ChunkRing α} (hp : s.pushing = .idle)
    (h : pushChunk (src s.pushed) false s.ring = .returned true ring) :
    Machine.run (next src) s (pushSteps (s.ring.Overdue s.ring.writeIndex s.ring.readIndex)) =
      some { s with ring := ring, pushed := s.pushed + 1 } := by
  rw [pushChunk, if_neg (by decide), Code.bind_returned (show Code.get s.ring = _ from rfl)] at h
  obtain ⟨⟨⟩, roomy, hroom, h⟩ := Code.bind_eq_returned.mp h
  obtain ⟨⟨⟩, copied, hcopy, h⟩ := Code.bind_eq_returned.mp h
  obtain ⟨⟨⟩, published, hpublish, h⟩ := Code.bind_eq_returned.mp h
  cases h
  rw [makeRoom, Code.bind_returned (show Code.get s.ring = _ from rfl)] at hroom
  by_cases hover : s.ring.Overdue s.ring.writeIndex s.ring.readIndex
  · rw [if_pos hover] at hroom
    simp only [pushSteps, hover, decide_true, if_true, List.cons_append, List.nil_append,
      Machine.run, next, push, hp, hroom, hcopy, hpublish, Outcome.state?, Option.map_some,
      Option.bind_some, if_neg Bool.false_ne_true]
  · rw [if_neg hover] at hroom
    cases hroom
    simp only [pushSteps, hover, decide_false, List.cons_append, List.nil_append,
      Machine.run, next, push, hp, hcopy, hpublish, Outcome.state?, Option.map_some,
      Option.bind_some, if_neg Bool.false_ne_true, if_false]

/-- A pop that the producer does not interrupt does what `tryPopChunk` does. -/
theorem run_popSteps {ring : ChunkRing α} {ptr outCount : ℕ} (hp : s.popping = .idle)
    (h : tryPopChunk s.ring = .returned (some ptr, outCount) ring) :
    Machine.run (next src) s popSteps =
      some { s with ring := ring, taken := s.taken ++ [s.ring.readIndex] } := by
  rw [tryPopChunk, Code.bind_returned (show Code.get s.ring = _ from rfl)] at h
  by_cases hle : s.ring.writeIndex ≤ s.ring.readIndex
  · rw [if_pos hle] at h
    cases h
  · rw [if_neg hle] at h
    obtain ⟨p, located, hptr, h⟩ := Code.bind_eq_returned.mp h
    obtain ⟨⟨⟩, claimed, hclaim, h⟩ := Code.bind_eq_returned.mp h
    cases h
    simp only [popSteps, Machine.run, next, Threads.claimed, hp, hle, if_false, Code.bind_run, hptr,
      hclaim, Code.pure_run, Option.bind_some]

/-! ### The indices -/

/-- Fewer chunks are pushed than a word can count. -/
def Counted (s : Threads α) (l : Atomic) : Prop :=
  l = .pushPublish → s.ring.writeIndex + 1 < word

instance (s : Threads α) (l : Atomic) : Decidable (s.Counted l) :=
  inferInstanceAs (Decidable (_ → _))

/-- What the producer has loaded when it has pushed `n` chunks. -/
def PushLoaded (n : ℕ) : Pushing → Prop
  | .idle | .starting => True
  | .gotRead w r => w = n ∧ r ≤ w
  | .gotWrite w | .dropped w | .copied w => w = n

/-- What the consumer has loaded when `n` chunks have been pushed. -/
def PopLoaded (n : ℕ) : Popping → Prop
  | .idle => True
  | .gotRead r => r ≤ n
  | .nonempty r | .claimed r _ => r < n

/-- The indices and what the threads know of them, whatever the other thread did since. -/
structure Sane (s : Threads α) : Prop where
  written : s.ring.writeIndex = s.pushed
  lt_word : s.pushed < word
  read_le : s.ring.readIndex ≤ s.pushed
  pushing : PushLoaded s.pushed s.pushing
  popping : PopLoaded s.pushed s.popping

lemma minus_dropped {w r slots : ℕ} (hover : slots ≤ minus w r) (hr : r ≤ w) (hw : w < word)
    (hslots : 1 ≤ slots) : minus w (minus slots 1) = w - (slots - 1) ∧ slots ≤ w - r := by
  rw [minus_eq hr hw] at hover
  rw [minus_eq hslots (by omega), minus_eq (by omega) hw]
  exact ⟨rfl, hover⟩

lemma Sane.start {ring : ChunkRing α} (hw : ring.writeIndex = 0) (hr : ring.readIndex = 0) :
    Sane (start ring) :=
  ⟨hw, word_pos, hr.le, trivial, trivial⟩

lemma Sane.step (h : Sane s) (hslots : 1 ≤ s.ring.slots) (hc : s.Counted l) (hs : Step src s l s') :
    Sane s' := by
  obtain ⟨hwritten, hlt, hle, hpushing, hpopping⟩ := h
  cases hs with
  | stop => exact ⟨hwritten, hlt, hle, hpushing, hpopping⟩
  | begin => exact ⟨hwritten, hlt, hle, trivial, hpopping⟩
  | loadWrite => exact ⟨hwritten, hlt, hle, hwritten, hpopping⟩
  | loadRead hp =>
    rw [hp] at hpushing
    obtain rfl : _ = s.pushed := hpushing
    exact ⟨hwritten, hlt, hle, ⟨rfl, hle⟩, hpopping⟩
  | drop hp hover hnew =>
    rw [hp] at hpushing
    obtain ⟨rfl, hr⟩ := hpushing
    rw [(minus_dropped hover hr hlt hslots).1] at hnew
    exact ⟨hwritten, hlt, hnew.trans_le (Nat.sub_le _ _), rfl, hpopping⟩
  | copy hp hcopy =>
    obtain ⟨buffer, -, rfl⟩ := copyChunk_eq_returned hcopy
    refine ⟨hwritten, hlt, hle, ?_, hpopping⟩
    rcases hp with ⟨r, hp, -⟩ | hp <;> rw [hp] at hpushing
    · exact hpushing.1
    · exact hpushing
  | publish hp =>
    rw [hp] at hpushing
    obtain rfl : _ = s.pushed := hpushing
    have hnext := hc rfl
    rw [hwritten] at hnext
    refine ⟨Nat.mod_eq_of_lt hnext, hnext, hle.trans (Nat.le_succ _), trivial, ?_⟩
    change PopLoaded (s.pushed + 1) s.popping
    cases hq : s.popping <;> rw [hq] at hpopping
    · trivial
    · exact Nat.le_succ_of_le hpopping
    · exact Nat.lt_succ_of_lt hpopping
    · exact Nat.lt_succ_of_lt hpopping
  | popLoadRead => exact ⟨hwritten, hlt, hle, hpushing, hle⟩
  | empty => exact ⟨hwritten, hlt, hle, hpushing, trivial⟩
  | nonempty hp hr =>
    rw [hwritten] at hr
    exact ⟨hwritten, hlt, hle, hpushing, hr⟩
  | claim hp =>
    rw [hp] at hpopping
    have hr : _ < s.pushed := hpopping
    refine ⟨hwritten, hlt, ?_, hpushing, hr⟩
    change _ % word ≤ _
    rw [Nat.mod_eq_of_lt (by omega)]
    exact hr
  | done => exact ⟨hwritten, hlt, hle, hpushing, trivial⟩

end Threads

end ChunkRing

end Voxory
