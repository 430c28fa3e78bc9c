import Voxory.RingBuffer.Session
import Voxory.RingBuffer.Shape

/-!
# A ring buffer that grows

With overwriting disabled a full buffer grows instead of dropping elements. As long as it does
not have to, it is a queue without a bound. Growing a buffer that holds elements loses count of
them: the clean-up of the old block resets the size, and nothing restores it.
-/

namespace Voxory
open Cxx Cyclic

/-- The calls of a program that only pushes and pops. -/
inductive Turn (α : Type) where
  | push (val : Arg α)
  | pop

namespace Turn

variable {α : Type}

/-- The values pushed, in order. -/
def pushed : List (Turn α) → List α
  | [] => []
  | .push val :: turns => val.value :: pushed turns
  | .pop :: turns => pushed turns

/-- How many elements are pending after the calls, if `k` were before. -/
def backlog (k : ℕ) : List (Turn α) → ℕ
  | [] => k
  | .push _ :: turns => backlog (k + 1) turns
  | .pop :: turns => backlog (k - 1) turns

/-- After no part of the calls more than `limit` elements are pending. -/
def Fits (limit k : ℕ) (turns : List (Turn α)) : Prop :=
  ∀ ts, ts <+: turns → backlog k ts ≤ limit

variable {limit k : ℕ} {turns : List (Turn α)}

lemma fits_nil : Fits limit k ([] : List (Turn α)) ↔ k ≤ limit := by
  simp [Fits, backlog]

lemma fits_push {val : Arg α} :
    Fits limit k (.push val :: turns) ↔ k ≤ limit ∧ Fits limit (k + 1) turns := by
  constructor
  · intro h
    exact ⟨h [] List.nil_prefix, fun ts hts => h (.push val :: ts) (List.cons_prefix_cons.mpr ⟨rfl, hts⟩)⟩
  · rintro ⟨hk, h⟩ ts hts
    cases ts with
    | nil => exact hk
    | cons t ts =>
      obtain ⟨rfl, htail⟩ := List.cons_prefix_cons.mp hts
      exact h ts htail

lemma fits_pop : Fits limit k (.pop :: turns) ↔ k ≤ limit ∧ Fits limit (k - 1) turns := by
  constructor
  · intro h
    exact ⟨h [] List.nil_prefix, fun ts hts => h (.pop :: ts) (List.cons_prefix_cons.mpr ⟨rfl, hts⟩)⟩
  · rintro ⟨hk, h⟩ ts hts
    cases ts with
    | nil => exact hk
    | cons t ts =>
      obtain ⟨rfl, htail⟩ := List.cons_prefix_cons.mp hts
      exact h ts htail

lemma Fits.le (h : Fits limit k turns) : k ≤ limit := h [] List.nil_prefix

end Turn

namespace RingBuffer

variable {α : Type}

/-- Makes the calls; returns the values popped. -/
def feed (E : Element α) : List (Turn α) → Method α (List α)
  | [] => pure []
  | .push val :: turns => do
    pushBack E val
    feed E turns
  | .pop :: turns => do
    let v ← tryPopFront E
    let vs ← feed E turns
    pure (v.toList ++ vs)

/-- Reads `operator[]` at `count` indices from `i` on. -/
def readAll : ℕ → ℕ → Method α (List α)
  | _, 0 => pure []
  | i, count + 1 => do
    let p ← index i
    let v ← Cxx.read p
    let vs ← readAll (i + 1) count
    pure (v :: vs)

/-- The values popped, those `operator[]` still shows, and `size()`. -/
structure Account (α : Type) where
  popped : List α
  rest : List α
  size : ℕ
  deriving DecidableEq, Repr

/-- `ring_buffer rb(capacity); rb.set_overwrite(false);` and the calls. -/
def growing (E : Element α) (capacity : ℕ) (turns : List (Turn α)) : Method α (Account α) := do
  constructSized capacity
  setOverwrite false
  let popped ← feed E turns
  let r ← self
  let rest ← readAll 0 r.size
  pure ⟨popped, rest, r.size⟩

/-- Nothing that was pushed is lost or doubled. -/
def Lossless (turns : List (Turn α)) (out : Account α) : Prop :=
  out.popped ++ out.rest = Turn.pushed turns ∧
    out.size + out.popped.length = (Turn.pushed turns).length

/-- How many elements fit before a buffer that holds elements has to grow. -/
def startLimit (capacity : ℕ) : ℕ := if capacity = 0 then calculateGrow 0 else capacity

/-- A buffer that refuses to overwrite and holds `q` in a block of `limit` slots, or will take
such a block for its first element. -/
structure Stored (s : State α RingBuffer) (limit : ℕ) (q : List α) : Prop where
  wf : s.mem.Wf
  allowOverwrite : s.self.allowOverwrite = false
  holds : ((∃ b f l, Holds s.mem s.self b f l q) ∧ s.self.capacity = limit) ∨
    (s.self = nil false ∧ q = [] ∧ limit = calculateGrow 0)

variable {E : Element α} {s s' t : State α RingBuffer} {b f l limit n : ℕ} {q : List α}

namespace Stored

lemma size_eq (h : Stored s limit q) : s.self.size = q.length := by
  rcases h.holds with ⟨⟨b, f, l, hh⟩, -⟩ | ⟨hself, rfl, -⟩
  · exact hh.size
  · rw [hself]
    rfl

lemma of_serves (h : Serves s q s') (hallow : s.self.allowOverwrite = false) :
    Stored s' s.self.capacity q :=
  ⟨h.wf, h.allowOverwrite.trans hallow, Or.inl ⟨h.holds, h.capacity⟩⟩

end Stored

lemma reallocate_nil_ends (hw : s.mem.Wf) (hself : s.self = nil false) (hn : 1 ≤ n) :
    (reallocate E n).Ends s (fun _ s' => (∃ b, Holds s'.mem s'.self b 0 0 []) ∧
      s'.self.capacity = n ∧ s'.self.allowOverwrite = false ∧ s'.mem.Wf ∧
      (s.mem.fuse = none → s'.mem.fuse = none)) (fun _ => s.mem.fuse ≠ none) := by
  refine (allocate_calm n hw).bind (fun p t ht => ?_)
  obtain ⟨b, hh⟩ := holds_of_allocates hn hw ht false
  have htself : t.self = nil false := ht.self.trans hself
  refine Code.Ends.step (b := p) (t := t) ?_ ?_
  · rw [relocate, Code.bind_returned (show self t = .returned t.self t from rfl), htself,
      if_pos (show (nil false).size = 0 from rfl), Code.pure_run]
  refine Code.Ends.step (b := ()) (t := t) ?_ (Code.Ends.step rfl ?_)
  · rw [cleanup, Code.bind_returned (show self t = .returned t.self t from rfl), htself,
      if_neg (fun hne => hne rfl), Code.pure_run]
  rw [htself]
  exact .of_returns (setSelf_returns ⟨⟨b, hh⟩, rfl, rfl, ht.wf hw, calm_of_spent ht.spent⟩)

lemma pushBack_stored (val : Arg α) (h : Stored s limit q) (hlt : q.length < limit) :
    (pushBack E val).Ends s (fun _ s' => Stored s' limit (q ++ [val.value]) ∧
      (s.mem.fuse = none → s'.mem.fuse = none)) (fun _ => s.mem.fuse ≠ none) := by
  refine Code.Ends.step rfl ?_
  rcases h.holds with ⟨⟨b, f, l, hh⟩, rfl⟩ | ⟨hself, rfl, rfl⟩
  · rw [if_pos (by rw [hh.size]; exact hlt)]
    exact (emplaceBackWithUnusedCapacity_ends val hh h.wf hlt).mono
      (fun _ _ hs' => ⟨.of_serves hs'.toServes h.allowOverwrite, hs'.calm⟩) (fun _ hs' => hs')
  · rw [hself, if_neg (by simp [nil]), if_neg (by simp [nil])]
    refine (reallocate_nil_ends h.wf hself (by decide : 1 ≤ calculateGrow 0)).bind ?_
    rintro _ t ⟨⟨b, hh⟩, hcap, hallow, htw, hcalm⟩
    refine (emplaceBackWithUnusedCapacity_ends val hh htw
      (by rw [hcap]; exact (by decide : 0 < calculateGrow 0))).mono ?_
      (fun _ hfuse hc => hfuse (hcalm hc))
    intro _ s' hs'
    have hstored := Stored.of_serves hs'.toServes hallow
    rw [hcap] at hstored
    exact ⟨hstored, fun hc => hs'.calm (hcalm hc)⟩

lemma tryPopFront_stored (h : Stored s limit q) : (tryPopFront E).Ends s
    (fun r s' => r = q.head? ∧ Stored s' limit (q.drop 1) ∧
      (s.mem.fuse = none → s'.mem.fuse = none)) (fun _ => s.mem.fuse ≠ none) := by
  rcases h.holds with ⟨⟨b, f, l, hh⟩, rfl⟩ | ⟨hself, rfl, hlim⟩
  · exact (tryPopFront_ends hh h.wf).mono
      (fun _ _ hs' => ⟨hs'.1, .of_serves hs'.2 h.allowOverwrite, hs'.2.calm⟩) (fun _ hs' => hs')
  · refine Code.Ends.step rfl ?_
    rw [if_pos (by rw [hself]; rfl)]
    exact Code.Ends.pure ⟨rfl, h, id⟩

lemma feed_stored (turns : List (Turn α)) (h : Stored s limit q)
    (hfits : Turn.Fits limit q.length turns) : (feed E turns).Ends s
      (fun popped s' => ∃ q', Stored s' limit q' ∧ popped ++ q' = q ++ Turn.pushed turns)
      (fun _ => s.mem.fuse ≠ none) := by
  induction turns generalizing s q with
  | nil => exact Code.Ends.pure ⟨q, h, by rw [Turn.pushed, List.append_nil, List.nil_append]⟩
  | cons turn turns ih =>
    cases turn with
    | push val =>
      have hrest := (Turn.fits_push.mp hfits).2
      refine (pushBack_stored val h hrest.le).bind ?_
      rintro _ t ⟨ht, hcalm⟩
      refine (ih ht (by rwa [List.length_append, List.length_singleton])).mono ?_
        (fun _ hfuse hc => hfuse (hcalm hc))
      rintro popped s' ⟨q', hq', heq⟩
      exact ⟨q', hq', by rw [heq, Turn.pushed, List.append_assoc, List.singleton_append]⟩
    | pop =>
      have hrest := (Turn.fits_pop.mp hfits).2
      refine (tryPopFront_stored h).bind ?_
      rintro _ t ⟨rfl, ht, hcalm⟩
      refine ((ih ht (by rwa [List.length_drop])).mono (fun _ _ hs' => hs')
        (fun _ hfuse hc => hfuse (hcalm hc))).bind ?_
      rintro popped s' ⟨q', hq', heq⟩
      refine Code.Ends.pure ⟨q', hq', ?_⟩
      rw [List.append_assoc, heq, Turn.pushed, ← List.append_assoc]
      congr 1
      cases q <;> rfl

lemma readAll_run (h : Holds s.mem s.self b f l q) (hw : s.mem.Wf) (count i : ℕ)
    (hi : i + count = q.length) : readAll i count s = .returned (q.drop i) s := by
  induction count generalizing i with
  | zero => rw [readAll, Code.pure_run, List.drop_eq_nil_of_le (by omega)]
  | succ count ih =>
    have hlt : i < q.length := by omega
    have hread := h.object_slot hlt
    rw [List.getElem?_eq_getElem hlt] at hread
    rw [readAll, Code.bind_returned (index_run h i), Code.bind_returned (read_run hw hread),
      Code.bind_returned (ih (i + 1) (by omega)), Code.pure_run, List.drop_eq_getElem_cons hlt]

lemma Stored.readAll_run (h : Stored s limit q) :
    readAll 0 s.self.size s = .returned q s := by
  rcases h.holds with ⟨⟨b, f, l, hh⟩, -⟩ | ⟨hself, rfl, -⟩
  · rw [RingBuffer.readAll_run hh h.wf _ 0 (by rw [hh.size, Nat.zero_add]), List.drop_zero]
  · rw [hself]
    rfl

/-! ### Losing count -/

lemma Holds.shape (h : Holds s.mem s.self b f l q) : Shape s.mem s.self := by
  have hself : s.self = ⟨⟨some b, 0⟩, ⟨some b, f⟩, ⟨some b, l⟩, s.self.size, s.self.capacity,
      s.self.allowOverwrite⟩ := by
    rw [← h.data, ← h.first, ← h.last]
  rw [hself]
  exact .block b f l _ _ _ h.extent (Or.inl h.first_lt) h.behind.le (h.size.trans_le h.size_le)

/-- A push that makes a buffer with elements grow: it counts one element afterwards. -/
lemma pushBack_full (val : Arg α) (h : Stored s limit q) (hpos : 0 < limit)
    (hfull : q.length = limit) : (pushBack E val).Within (fun _ => True) s
      (fun _ s' => Remains s s' ∧ s'.self.size ≤ q.length) (fun _ => True) := by
  rcases h.holds with ⟨⟨b, f, l, hh⟩, rfl⟩ | ⟨-, rfl, -⟩
  swap
  · exact absurd hfull hpos.ne
  refine Code.Within.step rfl ?_
  rw [if_neg (by rw [hh.size]; omega), if_neg (by rw [h.allowOverwrite]; simp)]
  have hgrow := calculateGrow_gt s.self.capacity
  refine ((reallocate_within trivial hh.shape h.wf (Or.inl trivial) (by omega)).mono
    (fun _ _ ht => ht) (fun _ _ => trivial)).bind ?_
  rintro _ t ⟨ht, hsize, hcap⟩
  refine (emplaceBackWithUnusedCapacity_within val ht.shape ht.wf (by omega)).mono ?_
    (fun _ _ => trivial)
  rintro _ s' ⟨hs', hsz⟩
  exact ⟨ht.trans hs', by omega⟩

/-- Once too few elements are counted, too few are until the end. -/
lemma feed_short (turns : List (Turn α)) (h : Shape s.mem s.self) (hw : s.mem.Wf)
    (hallow : s.self.allowOverwrite = false) : (feed E turns).Within (fun _ => True) s
      (fun popped s' => s'.self.size + popped.length ≤ s.self.size + (Turn.pushed turns).length)
      (fun _ => True) := by
  induction turns generalizing s with
  | nil => exact Code.Within.pure le_rfl
  | cons turn turns ih =>
    cases turn with
    | push val =>
      refine ((pushBack_within val trivial h hw (Or.inl trivial)).mono (fun _ _ ht => ht)
        (fun _ _ => trivial)).bind ?_
      rintro _ t ⟨ht, hsize⟩
      refine (ih ht.shape ht.wf (ht.allowOverwrite.trans hallow)).mono ?_ (fun _ _ => trivial)
      intro popped s' hs'
      rw [Turn.pushed, List.length_cons]
      omega
    | pop =>
      refine ((tryPopFront_within trivial h hw).mono (fun _ _ ht => ht)
        (fun _ _ => trivial)).bind ?_
      rintro v t ⟨ht, hsize⟩
      refine (ih ht.shape ht.wf (ht.allowOverwrite.trans hallow)).bind ?_
      intro popped s' hs'
      refine Code.Within.pure ?_
      rw [Turn.pushed, List.length_append]
      omega

/-- Where the pending elements outgrow the first block, elements get out of the count. -/
lemma feed_exceeds (turns : List (Turn α)) (h : Stored s limit q) (hpos : 0 < limit)
    (hle : q.length ≤ limit) (hnot : ¬Turn.Fits limit q.length turns) :
    (feed E turns).Within (fun _ => True) s
      (fun popped s' => s'.self.size + popped.length < q.length + (Turn.pushed turns).length)
      (fun _ => True) := by
  induction turns generalizing s q with
  | nil => exact absurd (Turn.fits_nil.mpr hle) hnot
  | cons turn turns ih =>
    cases turn with
    | push val =>
      have hrest : ¬Turn.Fits limit (q.length + 1) turns :=
        fun hf => hnot (Turn.fits_push.mpr ⟨hle, hf⟩)
      rcases Nat.lt_or_eq_of_le hle with hlt | hfull
      · refine ((Code.Within.of_ends (pushBack_stored val h hlt)).mono (fun _ _ ht => ht)
          (fun _ _ => trivial)).bind ?_
        rintro _ t ⟨ht, -⟩
        have hlen : (q ++ [val.value]).length = q.length + 1 := by
          rw [List.length_append, List.length_singleton]
        refine (ih ht (by omega) (by rwa [hlen])).mono ?_ (fun _ _ => trivial)
        intro popped s' hs'
        rw [Turn.pushed, List.length_cons]
        omega
      · refine ((pushBack_full val h hpos hfull)).bind ?_
        rintro _ t ⟨ht, hsize⟩
        refine (feed_short turns ht.shape ht.wf (ht.allowOverwrite.trans h.allowOverwrite)).mono ?_
          (fun _ _ => trivial)
        intro popped s' hs'
        rw [Turn.pushed, List.length_cons]
        omega
    | pop =>
      have hrest : ¬Turn.Fits limit (q.length - 1) turns :=
        fun hf => hnot (Turn.fits_pop.mpr ⟨hle, hf⟩)
      refine ((Code.Within.of_ends (tryPopFront_stored h)).mono (fun _ _ ht => ht)
        (fun _ _ => trivial)).bind ?_
      rintro _ t ⟨rfl, ht, -⟩
      have hlen : (q.drop 1).length = q.length - 1 := List.length_drop
      refine (ih ht (by omega) (by rwa [hlen])).bind ?_
      intro popped s' hs'
      refine Code.Within.pure ?_
      have hhead : q.head?.toList.length + (q.drop 1).length = q.length := by
        cases q <;> simp [Nat.add_comm]
      rw [Turn.pushed, List.length_append]
      omega

/-! ### The whole program -/

lemma growing_start (n : ℕ) (hw : s.mem.Wf) : (do
      constructSized n
      setOverwrite false : Method α Unit).Ends s
      (fun _ s' => Stored s' (startLimit n) [] ∧ (s.mem.fuse = none → s'.mem.fuse = none))
      (fun _ => s.mem.fuse ≠ none) := by
  by_cases hn : n = 0
  · subst hn
    refine Code.Ends.of_returns ⟨(), _, rfl, ⟨hw, rfl, Or.inr ⟨rfl, rfl, rfl⟩⟩, id⟩
  · refine (constructSized_ends hw (Nat.one_le_iff_ne_zero.mpr hn)).bind ?_
    rintro _ t ⟨⟨b, hh⟩, hcap, -, htw, -, hcalm⟩
    refine Code.Ends.of_returns ⟨(), _, rfl, ⟨htw, rfl, Or.inl ⟨⟨b, 0, 0, ?_⟩, ?_⟩⟩, hcalm⟩
    · exact ⟨hh.data, hh.first, hh.last, hh.size, hh.extent, hh.first_lt, hh.size_le, hh.behind,
        hh.object⟩
    · rw [startLimit, if_neg hn]
      exact hcap

lemma startLimit_pos (n : ℕ) : 0 < startLimit n := by
  rw [startLimit]
  split_ifs
  · decide
  · omega

lemma growing_eq (E : Element α) (n : ℕ) (turns : List (Turn α)) :
    growing E n turns = (do
      constructSized n
      setOverwrite false) >>= fun _ => (do
      let popped ← feed E turns
      let r ← self
      let rest ← readAll 0 r.size
      pure ⟨popped, rest, r.size⟩) := by
  funext s
  rw [growing, Code.bind_run, Code.bind_run, Code.bind_run]
  cases constructSized n s <;> rfl

/-- A program of pushes and pops that nothing interrupts gets through and loses no element
exactly when its buffer never has to grow while it holds elements. -/
theorem growing_lossless_iff (E : Element α) (hw : s.mem.Wf) (n : ℕ) (turns : List (Turn α))
    (hwhole : ¬(growing E n turns s).Interrupted) :
    (growing E n turns).Returns s (fun out _ => Lossless turns out) ↔
      ∀ ts, ts <+: turns → Turn.backlog 0 ts ≤ startLimit n := by
  constructor
  · rintro ⟨out, s', hrun, -, hsize⟩
    by_contra hnot
    have hwithin : (growing E n turns).Within (fun _ => True) s
        (fun out _ => out.size + out.popped.length < (Turn.pushed turns).length)
        (fun _ => True) := by
      rw [growing_eq]
      refine ((Code.Within.of_ends (growing_start n hw)).mono (fun _ _ ht => ht)
        (fun _ _ => trivial)).bind ?_
      rintro _ t ⟨ht, -⟩
      refine (feed_exceeds turns ht (startLimit_pos n) (Nat.zero_le _) hnot).bind ?_
      intro popped u hu
      rw [List.length_nil, Nat.zero_add] at hu
      refine Code.Within.step rfl ((Code.Within.trivial _ _).bind (fun rest _ _ => ?_))
      exact Code.Within.pure hu
    have := hwithin.returned hrun
    omega
  · intro hfits
    refine Code.Ends.returns_of_whole (R := fun _ => s.mem.fuse ≠ none) ?_ hwhole
    rw [growing_eq]
    refine (growing_start n hw).bind ?_
    rintro _ t ⟨ht, hcalm⟩
    refine ((feed_stored turns ht hfits).mono (fun _ _ hu => hu)
      (fun _ hfuse hc => hfuse (hcalm hc))).bind ?_
    rintro popped u ⟨q', hu, heq⟩
    refine Code.Ends.step rfl (Code.Ends.step hu.readAll_run (Code.Ends.pure ⟨heq, ?_⟩))
    rw [← List.nil_append (Turn.pushed turns), ← heq, List.length_append, hu.size_eq]
    exact Nat.add_comm _ _

/-- Pushing twice into a buffer of capacity 1 leaves a buffer of size 1. -/
theorem growing_forgets : ∃ out s',
    growing (Element.plain 0 id) 1 [.push ⟨7, false⟩, .push ⟨8, false⟩] (start (nil true)) =
      .returned out s' ∧
    out = ⟨[], [7], 1⟩ ∧ ¬Lossless [.push ⟨7, false⟩, .push ⟨8, false⟩] out := by
  obtain ⟨s', hrun⟩ := Outcome.value?_eq_some.mp
    (show (growing (Element.plain 0 id) 1 [.push ⟨7, false⟩, .push ⟨8, false⟩]
      (start (nil true))).value? = some (⟨[], [7], 1⟩ : Account ℕ) by decide +kernel)
  exact ⟨_, s', hrun, rfl, fun h => absurd h.2 (by decide)⟩

/-- Calls that fit into the first block of a buffer constructed without one. -/
def fittingTurns : List (Turn ℕ) :=
  [.push ⟨1, false⟩, .push ⟨2, true⟩, .pop, .push ⟨3, false⟩, .push ⟨4, false⟩, .push ⟨5, false⟩]

theorem fittingTurns_lossless_iff :
    ¬(growing (Element.plain 0 id) 0 fittingTurns (start (nil true))).Interrupted ∧
    ((growing (Element.plain 0 id) 0 fittingTurns).Returns (start (nil true))
        (fun out _ => Lossless fittingTurns out) ↔
      ∀ ts, ts <+: fittingTurns → Turn.backlog 0 ts ≤ startLimit 0) := by
  have hwhole : ¬(growing (Element.plain 0 id) 0 fittingTurns (start (nil true))).Interrupted := by
    obtain ⟨s', hrun⟩ := Outcome.value?_eq_some.mp
      (show (growing (Element.plain 0 id) 0 fittingTurns (start (nil true))).value? =
        some (⟨[1], [2, 3, 4, 5], 4⟩ : Account ℕ) by decide +kernel)
    rw [hrun]
    exact id
  exact ⟨hwhole, growing_lossless_iff _ (Memory.empty_wf none true) 0 fittingTurns hwhole⟩

end RingBuffer

end Voxory
