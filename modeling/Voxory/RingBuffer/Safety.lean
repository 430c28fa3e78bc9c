import Voxory.RingBuffer.Pool

/-!
# Accesses of a ring buffer

Which slots a member function touches is told by running it in a memory that has the buffer's
block and nothing else it could touch. A buffer without capacity that overwrites writes through
its first pointer all the same, and `_append` divides by the capacity without looking at it.
-/

namespace Voxory
open Cxx

namespace RingBuffer

variable {α : Type}

/-- The only undefined behaviour is an access to a slot without an element. -/
def OnlyDead (why : Fault) : Prop := why = .dead

/-- The memory `m'` has the block of `r` as `m` has it, and any other blocks or none. -/
structure Around (m : Memory α) (r : RingBuffer) (m' : Memory α) : Prop where
  wf : m'.Wf
  extent : ∀ b, r.data.block = some b → m'.extent b = m.extent b

/-- Whatever else is allocated and whatever throws, the call on the buffer `r` accesses only
slots of its block, or of a new one, and takes no remainder modulo zero. -/
def Contained {β : Type} (m : Memory α) (r : RingBuffer) (call : Method α β) : Prop :=
  ∀ m', Around m r m' → call.Within OnlyDead ⟨m', r⟩ (fun _ _ => True) (fun _ => True)

/-- The calls that use a buffer, `commit_read` and `commit_write` within what there is. -/
inductive Use (α : Type) where
  | pushBack (val : Arg α)
  | tryPopFront
  | peekFront
  | clear
  | commitRead (n : ℕ)
  | commitWrite (n : ℕ)

namespace Use

def code (E : Element α) : Use α → Method α Unit
  | .pushBack val => RingBuffer.pushBack E val
  | .tryPopFront => do
    let _ ← RingBuffer.tryPopFront E
  | .peekFront => do
    let _ ← RingBuffer.peekFront
  | .clear => RingBuffer.clear
  | .commitRead n => RingBuffer.commitRead n
  | .commitWrite n => RingBuffer.commitWrite n

def Legal (r : RingBuffer) : Use α → Prop
  | .commitRead n => n ≤ r.size
  | .commitWrite n => n ≤ r.capacity - r.size
  | _ => True

/-- A capacity of 0 stands in the way of the calls that do not look at it. -/
def Covered (r : RingBuffer) : Use α → Prop
  | .pushBack _ => r.capacity ≠ 0 ∨ r.allowOverwrite = false
  | .commitRead _ | .commitWrite _ => r.capacity ≠ 0
  | .tryPopFront | .peekFront | .clear => True

end Use

variable {E : Element α} {s : State α RingBuffer} {m m' : Memory α} {r : RingBuffer}

lemma Around.refl (hw : m.Wf) (k : Option ℕ) : Around m r { m with fuse := k } :=
  ⟨⟨hw.fresh, hw.bounds⟩, fun _ _ => rfl⟩

lemma Around.shape (h : Around m r m') (hr : Shape m r) : Shape m' r := hr.frame h.extent

lemma Shape.outside (h : Shape m r) (hcap : r.capacity = 0) {p : Ptr}
    (hp : p.block = r.data.block) : m.inBounds p = false := by
  rw [Bool.eq_false_iff]
  intro hin
  obtain ⟨b, n, hb, hn, hlt⟩ := Memory.inBounds_iff.mp hin
  rw [hp] at hb
  cases h with
  | nil => cases hb
  | block d f l size capacity allow hd =>
    cases hb
    rw [hd] at hn
    have hzero : capacity = 0 := hcap
    have hcapn := Option.some.inj hn
    omega

lemma Shape.first_block (h : Shape m r) : r.first.block = r.data.block := by
  cases h <;> rfl

/-- A buffer without capacity that overwrites: the first push writes to no slot of its own. -/
lemma pushBack_null (val : Arg α) (hsize : s.self.size = 0) (hcap : s.self.capacity = 0)
    (hallow : s.self.allowOverwrite = true) (hfuse : s.mem.fuse = none)
    (hout : s.mem.inBounds s.self.first = false) : pushBack E val s = .fault .outside := by
  have hself : (self : Method α RingBuffer) s = .returned s.self s := rfl
  have hthrow : ∀ b, (mayThrow b : Method α Unit) s = .returned () s := by
    intro b
    cases b
    · rfl
    · rw [mayThrow, if_pos rfl, hfuse]
  have hfirst : overwriteFirst E val s.self.first s = .fault .outside := by
    rw [overwriteFirst]
    split_ifs
    · rw [Code.bind_returned (hthrow _), Cxx.assign, if_neg (by rw [hout]; simp)]
    · rw [Code.bind_run, destroyAt, Code.bind_run, destroy, if_neg (by rw [hout]; simp)]
  rw [pushBack, emplaceBack, Code.bind_returned hself, if_neg (by omega), if_pos hallow,
    emplaceBackOverwrite, Code.noexcept, Code.bind_returned hself,
    if_neg (fun hne => hne (hsize.trans hcap.symm)), Code.bind_run, hfirst]

lemma append_modZero {p : Ptr} {n : ℕ} (hcap : s.self.capacity = 0) :
    (append p n : Method α Ptr) s = .fault .modZero := by
  rw [append, Code.bind_returned (show self s = .returned s.self s from rfl), if_pos hcap]
  rfl

lemma commitRead_modZero (hcap : s.self.capacity = 0) :
    (commitRead 0 : Method α Unit) s = .fault .modZero := by
  have hself : (self : Method α RingBuffer) s = .returned s.self s := rfl
  have hnone : (destroyN s.self.first 0 : Method α Unit) s = .returned () s := by
    rw [destroyN, Code.bind_returned hself, if_pos rfl, Code.pure_run]
  rw [commitRead, Code.bind_returned hself, Code.bind_returned hnone, Code.bind_run,
    append_modZero hcap]

lemma commitWrite_modZero {n : ℕ} (hcap : s.self.capacity = 0) :
    (commitWrite n : Method α Unit) s = .fault .modZero := by
  rw [commitWrite, Code.bind_returned (show self s = .returned s.self s from rfl), Code.bind_run,
    append_modZero hcap]

lemma not_contained {call : Method α Unit} {why : Fault} (hw : m.Wf) (hwhy : why ≠ .dead)
    (hfault : call ⟨{ m with fuse := none }, r⟩ = .fault why) : ¬Contained m r call := by
  intro h
  have hdead := h _ (.refl hw none)
  rw [Code.Within, hfault] at hdead
  exact hwhy hdead

lemma contained_iff (hr : Shape m r) (hw : m.Wf) (use : Use α) (hlegal : use.Legal r) :
    Contained m r (use.code E) ↔ use.Covered r := by
  have hdead : OnlyDead .dead := rfl
  have hle := hr.size_le
  constructor
  · intro h
    cases use with
    | pushBack val =>
      by_contra hnot
      obtain ⟨hcap, hallow⟩ := not_or.mp hnot
      have hzero : r.capacity = 0 := not_not.mp hcap
      exact not_contained hw (by decide) (pushBack_null (E := E) val (Nat.le_zero.mp (hzero ▸ hle))
        hzero (by simpa using hallow) rfl (hr.outside hzero hr.first_block)) h
    | tryPopFront => trivial
    | peekFront => trivial
    | clear => trivial
    | commitRead n =>
      intro hzero
      have hn : n ≤ r.size := hlegal
      obtain rfl : n = 0 := by omega
      exact not_contained hw (by decide) (commitRead_modZero hzero) h
    | commitWrite n =>
      intro hzero
      exact not_contained hw (by decide) (commitWrite_modZero hzero) h
  · intro h m' hm'
    have hr' := hm'.shape hr
    cases use with
    | pushBack val =>
      exact (pushBack_within (s := ⟨m', r⟩) val hdead hr' hm'.wf (Or.inr h)).mono (fun _ _ _ => trivial)
        (fun _ _ => trivial)
    | tryPopFront =>
      exact ((tryPopFront_within hdead hr' hm'.wf).mono (fun _ _ _ => trivial)
        (fun _ _ => trivial)).bind (fun _ _ _ => Code.Within.pure trivial)
    | peekFront =>
      refine Code.Within.step (b := if r.size = 0 then .null else r.first) (t := ⟨m', r⟩) ?_
        (Code.Within.pure trivial)
      rw [peekFront, Code.bind_returned (show self _ = .returned r _ from rfl)]
      split_ifs <;> rfl
    | clear =>
      exact (clear_within hdead hr' hm'.wf).mono (fun _ _ _ => trivial) (fun _ hs' => hs')
    | commitRead n =>
      exact (commitRead_within (s := ⟨m', r⟩) hdead hr' hm'.wf hlegal (Or.inr h)).mono (fun _ _ _ => trivial)
        (fun _ hs' => hs')
    | commitWrite n =>
      exact (commitWrite_within (s := ⟨m', r⟩) hr' hm'.wf hlegal (Or.inr h)).mono (fun _ _ _ => trivial)
        (fun _ hs' => hs')

end RingBuffer

namespace RingPool

variable {α : Type} {E : Element α} {p : RingPool α} {x : ℕ} {r : RingBuffer}

open Objects RingBuffer

/-- In every pool reached without a move from a buffer with a capacity, the calls that stay within the
storage of a buffer are those that a capacity of 0 does not stand in the way of. -/
theorem uses_contained_iff (h : Reachable E p) (hx : p.obj x = some r) (use : Use α)
    (hlegal : use.Legal r) : Contained p.mem r (use.code E) ↔ use.Covered r :=
  contained_iff (h.sound.shape x r hx) h.sound.wf use hlegal

/-- A buffer of capacity 2 that has wrapped around. -/
def wrappedRun : List (Option ℕ × RingAction ℕ) :=
  [(none, .sized 0 2), (none, .pushBack 0 ⟨7, false⟩), (none, .pushBack 0 ⟨8, false⟩),
    (none, .pushBack 0 ⟨9, false⟩)]

theorem wrappedRun_contained : ∃ p r,
    Machine.run (next (Element.plain 0 id)) (start true) wrappedRun = some p ∧
    p.obj 0 = some r ∧ Contained p.mem r ((Use.commitRead 1 : Use ℕ).code (Element.plain 0 id)) := by
  obtain ⟨p, hrun, hx⟩ : ∃ p : RingPool ℕ,
      Machine.run (next (Element.plain 0 id)) (start true) wrappedRun = some p ∧
      p.obj 0 = some ⟨⟨some 0, 0⟩, ⟨some 0, 1⟩, ⟨some 0, 1⟩, 2, 2, true⟩ := ⟨_, rfl, by decide⟩
  have hgood : Machine.Along (next (Element.plain 0 id)) (fun p l => l.2.Frugal p)
      (start true) wrappedRun :=
    ⟨trivial, fun _ _ => ⟨trivial, fun _ _ => ⟨trivial, fun _ _ => ⟨trivial, fun _ _ => trivial⟩⟩⟩⟩
  exact ⟨p, _, hrun, hx, (uses_contained_iff ⟨true, _, hgood, hrun⟩ hx (.commitRead 1)
    (by decide : 1 ≤ 2)).mpr (by decide : 2 ≠ 0)⟩

/-- The first push into a buffer constructed without a capacity writes through a null pointer. -/
theorem pushBack_writes_null : ∃ p : RingPool ℕ,
    Machine.run (next (Element.plain 0 id)) (start true) [(none, .default 0)] = some p ∧
    p.obj 0 = some (nil true) ∧
    pushBack (Element.plain 0 id) ⟨7, false⟩ ⟨p.mem, nil true⟩ = .fault .outside ∧
    ¬Contained p.mem (nil true) ((Use.pushBack ⟨7, false⟩ : Use ℕ).code (Element.plain 0 id)) := by
  refine ⟨_, rfl, rfl, rfl, fun h => ?_⟩
  have hdead : OnlyDead .outside := h _ (.refl (Memory.empty_wf none true) none)
  cases hdead

end RingPool

end Voxory
