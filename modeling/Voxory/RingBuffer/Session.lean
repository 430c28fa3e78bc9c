import Voxory.RingBuffer.Queue

/-!
# A ring buffer that overwrites is a bounded queue

A session constructs a buffer of some capacity and makes calls on it, one after the other. With
overwriting enabled, the replies are those of a queue bounded by the capacity that drops its
oldest element, and the buffer is in order after every session.
-/

namespace Voxory
open Cxx Cyclic

/-- The calls a session makes; `index` stands for reading `operator[]`. -/
inductive Call (α : Type) where
  | pushBack (val : Arg α)
  | tryPopFront
  | peekFront
  | index (idx : ℕ)
  | clear
  | commitRead (n : ℕ)
  | size

/-- What a call reports. -/
inductive Reply (α : Type) where
  | done
  | value (v : Option α)
  | count (n : ℕ)
  deriving DecidableEq, Repr

namespace Call

variable {α : Type}

/-- The call on a buffer; a pointer or reference that it returns is read at once. -/
def code (E : Element α) : Call α → RingBuffer.Method α (Reply α)
  | .pushBack val => do
    RingBuffer.pushBack E val
    pure .done
  | .tryPopFront => do
    let v ← RingBuffer.tryPopFront E
    pure (.value v)
  | .peekFront => do
    let p ← RingBuffer.peekFront
    if p = Ptr.null then pure (.value none)
    else do
      let v ← Cxx.read p
      pure (.value (some v))
  | .index idx => do
    let p ← RingBuffer.index idx
    let v ← Cxx.read p
    pure (.value (some v))
  | .clear => do
    RingBuffer.clear
    pure .done
  | .commitRead n => do
    RingBuffer.commitRead n
    pure .done
  | .size => do
    let r ← self
    pure (.count r.size)

/-- The call on a queue bounded by `n`. -/
def onQueue (n : ℕ) : Call α → List α → List α
  | .pushBack val, q => enqueue n q val.value
  | .tryPopFront, q => q.drop 1
  | .clear, _ => []
  | .commitRead k, q => q.drop k
  | .peekFront, q | .index _, q | .size, q => q

/-- What a queue reports. -/
def reply : Call α → List α → Reply α
  | .tryPopFront, q | .peekFront, q => .value q.head?
  | .index idx, q => .value q[idx]?
  | .size, q => .count q.length
  | .pushBack _, _ | .clear, _ | .commitRead _, _ => .done

/-- `operator[]` is used below `size()`, and `commit_read` for at most `size()` elements. -/
def Legal (q : List α) : Call α → Prop
  | .index idx => idx < q.length
  | .commitRead n => n ≤ q.length
  | _ => True

instance (q : List α) (call : Call α) : Decidable (call.Legal q) := by
  cases call <;> unfold Legal <;> infer_instance

/-- The queue after the calls, with its replies. -/
def serve (n : ℕ) : List (Call α) → List α → List α × List (Reply α)
  | [], q => (q, [])
  | call :: calls, q =>
    let (q', replies) := serve n calls (call.onQueue n q)
    (q', call.reply q :: replies)

/-- Every call is legal where it is made. -/
def AllLegal (n : ℕ) : List (Call α) → List α → Prop
  | [], _ => True
  | call :: calls, q => call.Legal q ∧ AllLegal n calls (call.onQueue n q)

instance decidableAllLegal (n : ℕ) : ∀ (calls : List (Call α)) (q : List α),
    Decidable (AllLegal n calls q)
  | [], _ => .isTrue trivial
  | call :: calls, q =>
    have := decidableAllLegal n calls (call.onQueue n q)
    inferInstanceAs (Decidable (call.Legal q ∧ _))

end Call

namespace RingBuffer

variable {α : Type}

/-- The calls of a session on a buffer that exists. -/
def calls (E : Element α) : List (Call α) → Method α (List (Reply α))
  | [] => pure []
  | call :: rest => do
    let r ← call.code E
    let rs ← calls E rest
    pure (r :: rs)

/-- `ring_buffer rb(capacity);` and calls on it. -/
def session (E : Element α) (capacity : ℕ) (l : List (Call α)) : Method α (List (Reply α)) := do
  constructSized capacity
  calls E l

/-- A buffer of capacity `n` in order: where `first` and `last` are, and which slots hold live
elements. -/
structure InOrder (m : Memory α) (r : RingBuffer) (n : ℕ) : Prop where
  owned : ∃ b, r.data = ⟨some b, 0⟩ ∧ m.extent b = some n
  first_lt : r.first - r.data < n
  last_le : r.last - r.data ≤ n
  last_congr : r.last - r.data ≡ (r.first - r.data) + r.size [MOD n]
  size_le : r.size ≤ n
  live : ∀ j, (m.object (r.data + j)).isSome ↔ ∃ i < r.size, j = ((r.first - r.data) + i) % n

variable {E : Element α} {s : State α RingBuffer} {b f l n : ℕ} {q : List α}

lemma Holds.inOrder (h : Holds s.mem s.self b f l q) (hw : s.mem.Wf) :
    InOrder s.mem s.self s.self.capacity := by
  have hsize := h.size_le
  refine ⟨⟨b, h.data, h.extent⟩, ?_, ?_, ?_, h.size.trans_le hsize, fun j => ?_⟩
  · rw [h.first, h.data]
    exact h.first_lt
  · rw [h.last, h.data]
    exact h.behind.le
  · rw [h.first, h.last, h.data, h.size]
    exact h.behind.congr
  · rw [h.data, h.first, Ptr.mk_add, Nat.zero_add, h.size]
    constructor
    · intro hj
      have hjn := h.lt_capacity hw hj
      exact ⟨_, (h.isSome_iff hjn).mp hj, (slot_place h.first_lt hjn).symm⟩
    · rintro ⟨i, hi, rfl⟩
      change (s.mem.object ⟨some b, slot s.self.capacity f i⟩).isSome
      rw [h.object_slot hi, List.getElem?_eq_getElem hi]
      rfl

lemma pushBack_ends (val : Arg α) (h : Holds s.mem s.self b f l q) (hw : s.mem.Wf)
    (hallow : s.self.allowOverwrite = true) : (pushBack E val).Ends s
      (fun _ s' => Serves s (enqueue s.self.capacity q val.value) s')
      (fun _ => s.mem.fuse ≠ none) := by
  have hsize := h.size_le
  refine Code.Ends.step rfl ?_
  rw [enqueue, h.size]
  split_ifs with hlt
  · exact (emplaceBackWithUnusedCapacity_ends val h hw hlt).mono (fun _ _ hs' => hs'.toServes)
      (fun _ hs' => hs')
  · exact emplaceBackOverwrite_ends val h hw (by omega)

lemma constructSized_ends (hw : s.mem.Wf) (hn : 1 ≤ n) : (constructSized n).Ends s
    (fun _ s' => (∃ b, Holds s'.mem s'.self b 0 0 []) ∧ s'.self.capacity = n ∧
      s'.self.allowOverwrite = true ∧ s'.mem.Wf ∧ (s.mem.Tidy → s'.mem.Tidy) ∧
      (s.mem.fuse = none → s'.mem.fuse = none))
    (fun _ => s.mem.fuse ≠ none) := by
  refine Code.Ends.step rfl (Code.Ends.step rfl ?_)
  rw [if_neg (by omega)]
  refine (allocate_calm n (s := ⟨s.mem, nil true⟩) hw).bind (fun p t ht => ?_)
  obtain ⟨b, hh⟩ := holds_of_allocates (s := ⟨s.mem, nil true⟩) hn hw ht true
  exact .of_returns (setSelf_returns ⟨⟨b, hh⟩, rfl, rfl, ht.wf hw, ht.tidy, calm_of_spent ht.spent⟩)

lemma call_ends (call : Call α) (h : Holds s.mem s.self b f l q) (hw : s.mem.Wf)
    (hallow : s.self.allowOverwrite = true) (hlegal : call.Legal q) :
    (call.code E).Ends s
      (fun r s' => r = call.reply q ∧ Serves s (call.onQueue s.self.capacity q) s')
      (fun _ => s.mem.fuse ≠ none) := by
  cases call with
  | pushBack val =>
    exact (pushBack_ends val h hw hallow).bind (fun _ _ hs' => Code.Ends.pure ⟨rfl, hs'⟩)
  | tryPopFront =>
    refine (tryPopFront_ends h hw).bind ?_
    rintro _ s' ⟨rfl, hs'⟩
    exact Code.Ends.pure ⟨rfl, hs'⟩
  | peekFront =>
    refine Code.Ends.step (peekFront_run h) ?_
    by_cases hq : q = []
    · rw [if_pos hq, if_pos rfl]
      exact Code.Ends.pure ⟨by rw [hq]; rfl, serves_refl h hw⟩
    · have hfirst := h.object_first hq
      rw [List.head?_eq_some_head hq] at hfirst
      rw [if_neg hq, if_neg (by rw [h.first]; simp [Ptr.null])]
      refine Code.Ends.step (read_run hw hfirst) (Code.Ends.pure ⟨?_, serves_refl h hw⟩)
      rw [Call.reply, List.head?_eq_some_head hq]
  | index idx =>
    have hidx : idx < q.length := hlegal
    have hread := h.object_slot hidx
    rw [List.getElem?_eq_getElem hidx] at hread
    refine Code.Ends.step (index_run h idx) (Code.Ends.step (read_run hw hread) ?_)
    refine Code.Ends.pure ⟨?_, serves_refl h hw⟩
    rw [Call.reply, List.getElem?_eq_getElem hidx]
  | clear =>
    exact .of_returns ((clear_returns h hw).bind (fun _ _ hs' => Code.Returns.pure ⟨rfl, hs'⟩))
  | commitRead n =>
    exact .of_returns ((commitRead_returns h hw hlegal).bind
      (fun _ _ hs' => Code.Returns.pure ⟨rfl, hs'.toServes⟩))
  | size =>
    refine Code.Ends.step rfl (Code.Ends.pure ⟨?_, serves_refl h hw⟩)
    rw [h.size]
    rfl

lemma calls_ends (cs : List (Call α)) (h : Holds s.mem s.self b f l q) (hw : s.mem.Wf)
    (hallow : s.self.allowOverwrite = true)
    (hlegal : Call.AllLegal s.self.capacity cs q) :
    (calls E cs).Ends s
      (fun rs s' => rs = (Call.serve s.self.capacity cs q).2 ∧
        Serves s (Call.serve s.self.capacity cs q).1 s')
      (fun _ => s.mem.fuse ≠ none) := by
  induction cs generalizing s b f l q with
  | nil => exact Code.Ends.pure ⟨rfl, serves_refl h hw⟩
  | cons call cs ih =>
    refine (call_ends call h hw hallow hlegal.1).bind ?_
    rintro _ t ⟨rfl, ht⟩
    obtain ⟨b', f', l', hh⟩ := ht.holds
    have hrest := ih hh ht.wf (by rw [ht.allowOverwrite, hallow])
      (by rw [ht.capacity]; exact hlegal.2)
    rw [ht.capacity] at hrest
    refine (hrest.mono (fun _ _ hs' => hs') (fun _ hfuse hcalm => hfuse (ht.calm hcalm))).bind ?_
    rintro _ s' ⟨rfl, hs'⟩
    refine Code.Ends.pure ⟨rfl, hs'.holds, hs'.capacity.trans ht.capacity,
      hs'.allowOverwrite.trans ht.allowOverwrite, hs'.wf, fun htidy => hs'.tidy (ht.tidy htidy),
      fun hcalm => hs'.calm (ht.calm hcalm)⟩

/-- Every session on a buffer that overwrites, of whatever capacity but 0, gets the replies of a
bounded queue, unless an element operation throws. It leaves the buffer in order, and constructs
and destroys no object out of turn. -/
theorem session_bounded (E : Element α) {s : State α RingBuffer} (hw : s.mem.Wf)
    (htidy : s.mem.Tidy) (hn : 1 ≤ n) (cs : List (Call α)) (hlegal : Call.AllLegal n cs []) :
    (session E n cs).Ends s
      (fun rs s' => rs = (Call.serve n cs []).2 ∧
        s'.self.size = (Call.serve n cs []).1.length ∧ InOrder s'.mem s'.self n ∧ s'.mem.Tidy)
      (fun _ => s.mem.fuse ≠ none) := by
  refine (constructSized_ends hw hn).bind ?_
  rintro _ t ⟨⟨b, h⟩, rfl, hallow, htw, htt, hcalm⟩
  refine (calls_ends cs h htw hallow hlegal).mono ?_ (fun _ hfuse hc => hfuse (hcalm hc))
  rintro rs s' ⟨hrs, hs'⟩
  obtain ⟨b', f', l', hh⟩ := hs'.holds
  exact ⟨hrs, hh.size, hs'.capacity ▸ hh.inOrder hs'.wf, hs'.tidy (htt htidy)⟩

/-- A memory without blocks, in which nothing throws. -/
def start (r : RingBuffer) : State α RingBuffer := ⟨Memory.empty none true, r⟩

/-- A buffer alone in its memory that holds the elements `q` from slot `f` on. -/
def laid (n f : ℕ) (q : List α) (allow : Bool) : State α RingBuffer where
  mem := {
    fresh := 1
    extent := fun b => if b = 0 then some n else none
    object := fun p => if p.block = some 0 ∧ p.off < n then lay n f q p.off else none
    trace := []
    fuse := none
    nullOnZero := true }
  self := ⟨⟨some 0, 0⟩, ⟨some 0, f⟩, ⟨some 0, slot n f q.length⟩, q.length, n, allow⟩

lemma laid_holds (hf : f < n) (hq : q.length ≤ n) (allow : Bool) :
    Holds (laid n f q allow).mem (laid n f q allow).self 0 f (slot n f q.length) q :=
  ⟨rfl, rfl, rfl, rfl, rfl, hf, hq, ⟨(slot_lt hf).le, Nat.mod_modEq _ _⟩,
    fun _ hj => if_pos ⟨rfl, hj⟩⟩

lemma laid_wf (n f : ℕ) (q : List α) (allow : Bool) : (laid n f q allow).mem.Wf := by
  refine ⟨fun b hb => if_neg (Nat.ne_of_gt hb), fun p hp => Memory.inBounds_iff.mpr ?_⟩
  by_cases hin : p.block = some 0 ∧ p.off < n
  · exact ⟨0, n, hin.1, rfl, hin.2⟩
  · simp [laid, hin] at hp

/-- A session on a buffer of two elements that wraps around, overwrites and is emptied. -/
def sampleCalls : List (Call ℕ) :=
  [.pushBack ⟨1, false⟩, .pushBack ⟨2, true⟩, .pushBack ⟨3, false⟩, .peekFront, .index 1,
    .tryPopFront, .pushBack ⟨4, false⟩, .commitRead 2, .tryPopFront, .size]

-- a session on concrete values would be run whenever its outcome is looked at
attribute [local irreducible] Code.Ends

theorem sampleCalls_bounded : ∃ rs s',
    session (Element.plain 0 id) 2 sampleCalls (start (nil true)) = .returned rs s' ∧
    rs = [.done, .done, .done, .value (some 2), .value (some 3), .value (some 2), .done, .done,
      .value none, .count 0] ∧
    s'.self.size = 0 ∧ InOrder s'.mem s'.self 2 ∧ s'.mem.Tidy := by
  have hends := session_bounded (Element.plain 0 id) (s := start (nil true))
    (Memory.empty_wf none true) (Memory.empty_tidy none true) (by decide : 1 ≤ 2) sampleCalls
    (by decide)
  obtain ⟨rs, s', hrun, hrs, hsize, horder, htidy⟩ := hends.returns (fun _ hfuse => hfuse rfl)
  exact ⟨rs, s', hrun, hrs.trans (by decide), hsize.trans (by decide), horder, htidy⟩

end RingBuffer

end Voxory
