import Voxory.RingBuffer.Growth
import Voxory.Cxx.Agree

/-!
# The bulk calls agree with the one-element calls

`commit_read` is as good as popping and `commit_write` as good as pushing what the caller
constructed. The buffers they leave may show the same place in two ways, at the start of the
block and at its end; no later call can tell these two apart.
-/

namespace Voxory
open Cxx Cyclic

namespace RingBuffer

variable {α : Type}

/-- Constructs values in the slots that follow the last element, from the `i`-th such slot on, as
the caller of `commit_write` does. -/
def writeAfter : ℕ → List α → Method α Unit
  | _, [] => pure ()
  | i, v :: vs => do
    let r ← self
    let p ← append r.last i
    Cxx.construct p v
    writeAfter (i + 1) vs

/-- A call, or values written behind the last element and committed. -/
inductive Access (α : Type) where
  | call (c : Call α)
  | commitWrite (vs : List α)

namespace Access

def code (E : Element α) : Access α → Method α (Reply α)
  | .call c => c.code E
  | .commitWrite vs => do
    writeAfter 0 vs
    RingBuffer.commitWrite vs.length
    pure .done

/-- A push overwrites or has room; `operator[]`, `commit_read` and `commit_write` stay within what
there is. -/
def allowed (r : RingBuffer) : Access α → Bool
  | .call (.pushBack _) => r.allowOverwrite || decide (r.size < r.capacity)
  | .call (.index idx) => decide (idx < r.size)
  | .call (.commitRead n) => decide (n ≤ r.size)
  | .call _ => true
  | .commitWrite vs => decide (vs.length ≤ r.capacity - r.size)

/-- The access, with the fallible operation that throws in it. -/
def armed (E : Element α) (a : Option ℕ × Access α) : Method α (Reply α) := fun s =>
  a.2.code E { s with mem := { s.mem with fuse := a.1 } }

/-- What a series of accesses shows. -/
def seen (E : Element α) : List (Option ℕ × Access α) → State α RingBuffer → List (Seen (Reply α)) :=
  observe (armed E) (fun s a => a.2.allowed s.self)

end Access

/-- The same in the block `b`, and the same operation is going to throw. -/
structure SameBlock (b : ℕ) (m m' : Memory α) : Prop where
  extent : m'.extent b = m.extent b
  object : ∀ j, m'.object ⟨some b, j⟩ = m.object ⟨some b, j⟩
  fuse : m'.fuse = m.fuse

/-- The same fields, up to the two ways to show where the elements end. -/
structure SameRing (b : ℕ) (r r' : RingBuffer) : Prop where
  data : r.data = ⟨some b, 0⟩
  first : ∃ f < r.capacity, r.first = ⟨some b, f⟩
  last : ∃ l l', r.last = ⟨some b, l⟩ ∧ r'.last = ⟨some b, l'⟩ ∧ l ≤ r.capacity ∧
    l' ≤ r.capacity ∧ l ≡ l' [MOD r.capacity]
  rest : r' = { r with last := r'.last }

/-- Two buffers no call can tell apart. -/
structure Alike (b : ℕ) (s t : State α RingBuffer) : Prop where
  ring : SameRing b s.self t.self
  block : SameBlock b s.mem t.mem

/-- In the middle of a member function, before it sets its fields. -/
structure Amid (b : ℕ) (r r' : RingBuffer) (s t : State α RingBuffer) : Prop where
  left : s.self = r
  right : t.self = r'
  block : SameBlock b s.mem t.mem

variable {E : Element α} {s t : State α RingBuffer} {b f l n : ℕ} {q : List α} {r r' : RingBuffer}

namespace SameRing

lemma capacity_pos (h : SameRing b r r') : 0 < r.capacity := by
  obtain ⟨f, hf, -⟩ := h.first
  omega

lemma last_cases (h : SameRing b r r') : ∃ l l', r.last = ⟨some b, l⟩ ∧
    r'.last = ⟨some b, l'⟩ ∧ l ≤ r.capacity ∧
    (l = l' ∨ (l = 0 ∧ l' = r.capacity) ∨ (l = r.capacity ∧ l' = 0)) := by
  obtain ⟨l, l', hs, ht, hl, hl', hmod⟩ := h.last
  refine ⟨l, l', hs, ht, hl, ?_⟩
  have hmod' : l % r.capacity = l' % r.capacity := hmod
  rcases Nat.lt_or_ge l r.capacity with hlt | hge <;>
    rcases Nat.lt_or_ge l' r.capacity with hlt' | hge'
  · rw [Nat.mod_eq_of_lt hlt, Nat.mod_eq_of_lt hlt'] at hmod'
    exact Or.inl hmod'
  · obtain rfl : l' = r.capacity := by omega
    rw [Nat.mod_eq_of_lt hlt, Nat.mod_self] at hmod'
    exact Or.inr (Or.inl ⟨hmod', rfl⟩)
  · obtain rfl : l = r.capacity := by omega
    rw [Nat.mod_eq_of_lt hlt', Nat.mod_self] at hmod'
    exact Or.inr (Or.inr ⟨rfl, hmod'.symm⟩)
  · exact Or.inl (by omega)

lemma of_ends {o : RingBuffer} {data first last : Ptr} {size f l : ℕ}
    (hdata : data = ⟨some b, 0⟩) (hf : f < o.capacity) (hfirst : first = ⟨some b, f⟩)
    (hl : l ≤ o.capacity) (hlast : last = ⟨some b, l⟩) :
    SameRing b { o with data := data, first := first, last := last, size := size }
      { o with data := data, first := first, last := last, size := size } :=
  ⟨hdata, ⟨f, hf, hfirst⟩, ⟨l, l, hlast, hlast, hl, hl, rfl⟩, rfl⟩

lemma front (h : SameRing b r r') (n : ℕ) {j : ℕ} (hj : j < r.capacity) :
    SameRing b { r with first := ⟨some b, j⟩, size := r.size - n }
      { r' with first := ⟨some b, j⟩, size := r'.size - n } := by
  refine ⟨h.data, ⟨j, hj, rfl⟩, h.last, ?_⟩
  rw [h.rest]

end SameRing

lemma SameBlock.inBounds {m m' : Memory α} (h : SameBlock b m m') (j : ℕ) :
    m'.inBounds ⟨some b, j⟩ = m.inBounds ⟨some b, j⟩ := by
  simp only [Memory.inBounds, Option.bind_some, h.extent]

namespace Amid

lemma alike (h : Amid b r r' s t) (hr : SameRing b r r') : Alike b s t :=
  ⟨by rw [h.left, h.right]; exact hr, h.block⟩

lemma put (h : Amid b r r' s t) (j : ℕ) (v : Option α) (ls lt : List Event) : Amid b r r'
      { s with mem := { s.mem with object := Function.update s.mem.object ⟨some b, j⟩ v, trace := ls } }
      { t with mem := { t.mem with object := Function.update t.mem.object ⟨some b, j⟩ v, trace := lt } } := by
  refine ⟨h.left, h.right, h.block.extent, fun i => ?_, h.block.fuse⟩
  by_cases hij : i = j
  · subst hij
    simp only [Function.update_self]
  · have hne : (⟨some b, i⟩ : Ptr) ≠ ⟨some b, j⟩ := by simpa using hij
    simp only [Function.update_of_ne hne, h.block.object i]

end Amid

namespace Alike

lemma amid (h : Alike b s t) : Amid b s.self t.self s t := ⟨rfl, rfl, h.block⟩

lemma first_eq (h : Alike b s t) : t.self.first = s.self.first := by rw [h.ring.rest]

lemma size_eq (h : Alike b s t) : t.self.size = s.self.size := by rw [h.ring.rest]

end Alike

/-! ### The calls cannot tell such buffers apart -/

section Agree

open Code

lemma mayThrow_agree (c : Bool) (h : Amid b r r' s t) :
    AgreeAt (Amid b r r') (mayThrow c) (mayThrow c) s t := by
  cases c with
  | false => exact AgreeAt.pure h
  | true =>
    rw [AgreeAt, mayThrow, mayThrow, if_pos rfl, if_pos rfl, h.block.fuse]
    have hfuse : ∀ k, Amid b r r' { s with mem := { s.mem with fuse := k } }
        { t with mem := { t.mem with fuse := k } } := fun k =>
      ⟨h.left, h.right, h.block.extent, h.block.object, rfl⟩
    cases s.mem.fuse with
    | none => exact .returned () h
    | some k =>
      cases k with
      | zero => exact .threw (hfuse none)
      | succ k => exact .returned () (hfuse (some k))

lemma construct_agree (j : ℕ) (v : α) (h : Amid b r r' s t) :
    AgreeAt (Amid b r r') (Cxx.construct ⟨some b, j⟩ v) (Cxx.construct ⟨some b, j⟩ v) s t := by
  rw [AgreeAt, Cxx.construct, Cxx.construct, h.block.inBounds]
  split_ifs
  · exact .returned () (h.put j (some v) _ _)
  · exact .fault _

lemma read_agree (j : ℕ) (h : Amid b r r' s t) :
    AgreeAt (Amid b r r') (Cxx.read ⟨some b, j⟩) (Cxx.read ⟨some b, j⟩) s t := by
  rw [AgreeAt, Cxx.read, Cxx.read, h.block.inBounds, h.block.object]
  split_ifs
  · cases s.mem.object ⟨some b, j⟩ with
    | none => exact .fault _
    | some v => exact .returned v h
  · exact .fault _

lemma assign_agree (j : ℕ) (v : α) (h : Amid b r r' s t) :
    AgreeAt (Amid b r r') (Cxx.assign ⟨some b, j⟩ v) (Cxx.assign ⟨some b, j⟩ v) s t := by
  rw [AgreeAt, Cxx.assign, Cxx.assign, h.block.inBounds, h.block.object]
  split_ifs
  · cases s.mem.object ⟨some b, j⟩ with
    | none => exact .fault _
    | some _ => exact .returned () (h.put j (some v) _ _)
  · exact .fault _

lemma destroy_agree (j : ℕ) (h : Amid b r r' s t) :
    AgreeAt (Amid b r r') (destroy ⟨some b, j⟩) (destroy ⟨some b, j⟩) s t := by
  rw [AgreeAt, destroy, destroy, h.block.inBounds, h.block.object]
  split_ifs
  · cases s.mem.object ⟨some b, j⟩ with
    | none => exact .fault _
    | some _ => exact .returned () (h.put j none _ _)
  · exact .fault _

lemma constructAt_agree (throws : Bool) (j : ℕ) (v : α) (h : Amid b r r' s t) :
    AgreeAt (Amid b r r') (constructAt throws ⟨some b, j⟩ v) (constructAt throws ⟨some b, j⟩ v)
      s t := by
  refine AgreeAt.noexcept ((mayThrow_agree throws h).bind (fun _ s' t' h' => ?_))
  exact (construct_agree j v h').bind (fun _ _ _ h'' => AgreeAt.pure h'')

lemma constructAt_value {throws : Bool} {p p' : Ptr} {v : α} {u : State α RingBuffer}
    (hrun : constructAt throws p v s = .returned p' u) : p' = p + 1 := by
  have hwithin : (constructAt throws p v).Within (fun _ => True) s (fun p' _ => p' = p + 1)
      (fun _ => True) := by
    refine Code.Within.noexcept ((Code.Within.trivial _ _).bind (fun _ _ _ => ?_))
    exact (Code.Within.trivial _ _).bind (fun _ _ _ => Code.Within.pure rfl)
  exact hwithin.returned hrun

lemma destroySeq_agree (i j : ℕ) (h : Amid b r r' s t) : AgreeAt (Amid b r r')
    (destroySeq ⟨some b, i⟩ ⟨some b, j⟩) (destroySeq ⟨some b, i⟩ ⟨some b, j⟩) s t := by
  rw [destroySeq]
  split_ifs
  · exact AgreeAt.loop 0 _ h (fun k s' t' h' => destroy_agree (i + k) h')
  · exact AgreeAt.undefined .outside

lemma append_from (hs : s.self = r) (hdata : r.data = ⟨some b, 0⟩) (hpos : 0 < r.capacity)
    (j n : ℕ) : append ⟨some b, j⟩ n s = .returned ⟨some b, (j + n) % r.capacity⟩ s := by
  rw [append, Code.bind_returned (show self s = .returned s.self s from rfl), hs,
    if_neg (by omega), Code.pure_run, hdata]
  simp only [Ptr.sub_eq, Ptr.mk_add, Nat.zero_add, Nat.sub_zero]

lemma append_first (h : Amid b r r' s t) (hr : SameRing b r r') (n : ℕ) : ∃ j < r.capacity,
    append r.first n s = .returned ⟨some b, j⟩ s ∧ append r'.first n t = .returned ⟨some b, j⟩ t := by
  obtain ⟨f, -, hfirst⟩ := hr.first
  have hright : t.self = { r with last := r'.last } := by rw [h.right, ← hr.rest]
  have hfirst' : r'.first = ⟨some b, f⟩ := by rw [hr.rest, hfirst]
  refine ⟨(f + n) % r.capacity, Nat.mod_lt _ hr.capacity_pos, ?_, ?_⟩
  · rw [hfirst]
    exact append_from h.left hr.data hr.capacity_pos f n
  · rw [hfirst']
    exact append_from hright hr.data hr.capacity_pos f n

lemma append_last (h : Amid b r r' s t) (hr : SameRing b r r') (n : ℕ) : ∃ j < r.capacity,
    append r.last n s = .returned ⟨some b, j⟩ s ∧ append r'.last n t = .returned ⟨some b, j⟩ t := by
  obtain ⟨l, l', hl, hl', -, -, hmod⟩ := hr.last
  have hright : t.self = { r with last := r'.last } := by rw [h.right, ← hr.rest]
  have hsame : (l + n) % r.capacity = (l' + n) % r.capacity := hmod.add_right n
  refine ⟨(l + n) % r.capacity, Nat.mod_lt _ hr.capacity_pos, ?_, ?_⟩
  · rw [hl]
    exact append_from h.left hr.data hr.capacity_pos l n
  · rw [hsame, hl']
    exact append_from hright hr.data hr.capacity_pos l' n

lemma destroySeq_seam (p e d : Ptr) :
    (do destroySeq p e; destroySeq d d : Method α Unit) = destroySeq p e := by
  have hnone : (destroySeq d d : Method α Unit) = pure () := by
    rw [destroySeq, if_pos ((Ptr.le_iff d d).mpr le_rfl), Ptr.sub_eq, Nat.sub_self]
    rfl
  funext u
  rw [Code.bind_run, hnone]
  cases destroySeq p e u <;> rfl

/-- Whether the elements end at the end of the block or at its start, the same are destroyed. -/
lemma destroyRange_agree (h : Alike b s t) : AgreeAt (Amid b s.self t.self)
    (destroyRange s.self.first s.self.last) (destroyRange t.self.first t.self.last) s t := by
  have hr := h.ring
  have ha := h.amid
  obtain ⟨f, hf, hfirst⟩ := hr.first
  obtain ⟨l, l', hl, hl', hle, hcases⟩ := hr.last_cases
  have hdata' : t.self.data = s.self.data := by rw [hr.rest]
  have hcap' : t.self.capacity = s.self.capacity := by rw [hr.rest]
  refine AgreeAt.step rfl rfl ?_
  rw [hl, hl', h.size_eq, h.first_eq, hdata', hcap', hfirst, hr.data, Ptr.mk_add, Nat.zero_add]
  by_cases hz : s.self.size = 0
  · rw [if_pos hz, if_pos hz]
    exact AgreeAt.pure ha
  rw [if_neg hz, if_neg hz]
  have hend : (⟨some b, s.self.capacity⟩ : Ptr) > ⟨some b, f⟩ := (Ptr.lt_iff _ _).mpr hf
  have hstart : ¬(⟨some b, 0⟩ : Ptr) > ⟨some b, f⟩ := fun hlt =>
    absurd ((Ptr.lt_iff _ _).mp hlt) (Nat.not_lt_zero f)
  rcases hcases with rfl | ⟨rfl, rfl⟩ | ⟨rfl, rfl⟩
  · split_ifs
    · exact destroySeq_agree f l ha
    · exact (destroySeq_agree f _ ha).bind (fun _ _ _ h' => destroySeq_agree 0 l h')
  · rw [if_neg hstart, if_pos hend, destroySeq_seam]
    exact destroySeq_agree f _ ha
  · rw [if_pos hend, if_neg hstart, destroySeq_seam]
    exact destroySeq_agree f _ ha

lemma destroyN_agree (n : ℕ) (h : Alike b s t) : AgreeAt (Amid b s.self t.self)
    (destroyN s.self.first n) (destroyN t.self.first n) s t := by
  have ha := h.amid
  obtain ⟨f, -, hfirst⟩ := h.ring.first
  have hdata' : t.self.data = s.self.data := by rw [h.ring.rest]
  have hcap' : t.self.capacity = s.self.capacity := by rw [h.ring.rest]
  refine AgreeAt.step rfl rfl ?_
  rw [h.first_eq, hdata', hcap', hfirst, h.ring.data]
  simp only [Ptr.mk_add, Nat.zero_add]
  split_ifs
  · exact AgreeAt.pure ha
  · exact destroySeq_agree f _ ha
  · exact (destroySeq_agree f _ ha).bind (fun _ _ _ h' => destroySeq_agree 0 _ h')

lemma setSelf_agree {p p' : RingBuffer} (h : Amid b r r' s t) (hp : SameRing b p p') :
    AgreeAt (Alike b) (setSelf p) (setSelf p') s t := .returned () ⟨hp, h.block⟩

lemma emplaceBackWithUnusedCapacity_agree (val : Arg α) (h : Alike b s t) :
    AgreeAt (Alike b) (emplaceBackWithUnusedCapacity E val) (emplaceBackWithUnusedCapacity E val)
      s t := by
  have hr := h.ring
  have hpos := hr.capacity_pos
  obtain ⟨l, l', hl, hl', hle, hcases⟩ := hr.last_cases
  have hdata' : t.self.data = s.self.data := by rw [hr.rest]
  have hcap' : t.self.capacity = s.self.capacity := by rw [hr.rest]
  refine AgreeAt.noexcept (AgreeAt.step rfl rfl ?_)
  have hwhere : ∃ j < s.self.capacity,
      (if s.self.last + 1 ≤ s.self.data + s.self.capacity
        then constructAt (val.constructThrows E) s.self.last val.value
        else constructAt (val.constructThrows E) s.self.data val.value : Method α Ptr) =
          constructAt (val.constructThrows E) ⟨some b, j⟩ val.value ∧
      (if t.self.last + 1 ≤ t.self.data + t.self.capacity
        then constructAt (val.constructThrows E) t.self.last val.value
        else constructAt (val.constructThrows E) t.self.data val.value : Method α Ptr) =
          constructAt (val.constructThrows E) ⟨some b, j⟩ val.value := by
    rw [hdata', hcap', hl, hl', hr.data]
    simp only [Ptr.mk_add, Nat.zero_add, Ptr.le_iff]
    rcases hcases with rfl | ⟨rfl, rfl⟩ | ⟨rfl, rfl⟩
    · rcases Nat.lt_or_ge l s.self.capacity with hlt | hge
      · exact ⟨l, hlt, by rw [if_pos (by omega)], by rw [if_pos (by omega)]⟩
      · exact ⟨0, hpos, by rw [if_neg (by omega)], by rw [if_neg (by omega)]⟩
    · exact ⟨0, hpos, by rw [if_pos (by omega)], by rw [if_neg (by omega)]⟩
    · exact ⟨0, hpos, by rw [if_neg (by omega)], by rw [if_pos (by omega)]⟩
  obtain ⟨j, hj, hs, ht⟩ := hwhere
  rw [hs, ht]
  refine (constructAt_agree _ j val.value h.amid).bind_into (fun _ _ h' => h'.alike hr)
    (fun p s' t' hrun h' => ?_)
  obtain ⟨f, hf, hfirst⟩ := hr.first
  rw [constructAt_value hrun, hr.rest]
  exact setSelf_agree h' (.of_ends hr.data hf hfirst hj rfl)

lemma overwriteFirst_agree (val : Arg α) (j : ℕ) (h : Amid b r r' s t) : AgreeAt (Amid b r r')
    (overwriteFirst E val ⟨some b, j⟩) (overwriteFirst E val ⟨some b, j⟩) s t := by
  rw [overwriteFirst]
  split_ifs
  · exact (mayThrow_agree _ h).bind (fun _ _ _ h' => assign_agree j val.value h')
  · refine ((destroy_agree j h).bind (fun _ _ _ h' => AgreeAt.pure h')).bind (fun _ _ _ h' => ?_)
    exact (constructAt_agree _ j val.value h').bind (fun _ _ _ h'' => AgreeAt.pure h'')

lemma emplaceBackOverwrite_agree (val : Arg α) (h : Alike b s t) :
    AgreeAt (Alike b) (emplaceBackOverwrite E val) (emplaceBackOverwrite E val) s t := by
  have hr := h.ring
  obtain ⟨f, hf, hfirst⟩ := hr.first
  refine AgreeAt.noexcept (AgreeAt.step rfl rfl ?_)
  rw [hr.rest]
  by_cases hfull : s.self.size ≠ s.self.capacity
  · rw [if_pos hfull]
    exact AgreeAt.pure h
  rw [if_neg hfull, hfirst]
  refine (overwriteFirst_agree val f h.amid).bind_into (fun _ _ h' => h'.alike hr)
    (fun _ s' t' _ h' => setSelf_agree h' ?_)
  rw [hr.data, Ptr.mk_add, Ptr.mk_add, Nat.zero_add]
  by_cases hend : f + 1 = s.self.capacity
  · rw [if_pos (by rw [hend])]
    exact .of_ends rfl hr.capacity_pos rfl hf rfl
  · rw [if_neg (by simpa using hend)]
    exact .of_ends (o := s.self) rfl (Nat.lt_of_le_of_ne hf hend) rfl hf rfl

lemma tryPopFront_agree (h : Alike b s t) :
    AgreeAt (Alike b) (tryPopFront E) (tryPopFront E) s t := by
  have hr := h.ring
  obtain ⟨f, hf, hfirst⟩ := hr.first
  refine AgreeAt.step rfl rfl ?_
  have hfirst' : t.self.first = ⟨some b, f⟩ := by rw [h.first_eq, hfirst]
  by_cases hz : s.self.size = 0
  · rw [if_pos hz, if_pos (h.size_eq.trans hz)]
    exact AgreeAt.pure h
  rw [if_neg hz, if_neg (fun hz' => hz (h.size_eq.symm.trans hz')), hfirst, hfirst']
  have hout : ∀ s' t' : State α RingBuffer, Amid b s.self t.self s' t' → Alike b s' t' :=
    fun _ _ h' => h'.alike hr
  refine (read_agree f h.amid).bind_into hout (fun v s₁ t₁ _ h₁ => ?_)
  refine (mayThrow_agree _ h₁).bind_into hout (fun _ s₂ t₂ _ h₂ => ?_)
  refine (assign_agree f _ h₂).bind_into hout (fun _ s₃ t₃ _ h₃ => ?_)
  refine ((destroy_agree f h₃).bind (fun _ _ _ h' => AgreeAt.pure h')).bind_into hout
    (fun _ s₄ t₄ _ h₄ => ?_)
  obtain ⟨j, hj, hs, ht⟩ := append_first h₄ hr 1
  rw [hfirst] at hs
  rw [hfirst'] at ht
  refine AgreeAt.step hs ht ((setSelf_agree h₄ (hr.front 1 hj)).bind (fun _ s₅ t₅ h₅ => ?_))
  exact (mayThrow_agree _ h₅.amid).bind_into (fun _ _ h' => h'.alike h₅.ring)
    (fun _ _ _ _ h' => AgreeAt.pure (h'.alike h₅.ring))

lemma clear_agree (h : Alike b s t) : AgreeAt (Alike b) clear clear s t := by
  have hr := h.ring
  refine AgreeAt.step rfl rfl ((destroyRange_agree h).bind_into (fun _ _ h' => h'.alike hr)
    (fun _ s' t' _ h' => setSelf_agree h' ?_))
  rw [hr.rest]
  exact .of_ends hr.data hr.capacity_pos hr.data (Nat.zero_le _) hr.data

lemma commitRead_agree (n : ℕ) (h : Alike b s t) :
    AgreeAt (Alike b) (commitRead n) (commitRead n) s t := by
  have hr := h.ring
  refine AgreeAt.step rfl rfl ((destroyN_agree n h).bind_into (fun _ _ h' => h'.alike hr)
    (fun _ s' t' _ h' => ?_))
  obtain ⟨j, hj, hs, ht⟩ := append_first h' hr n
  exact AgreeAt.step hs ht (setSelf_agree h' (hr.front n hj))

lemma commitWrite_agree (n : ℕ) (h : Alike b s t) :
    AgreeAt (Alike b) (commitWrite n) (commitWrite n) s t := by
  have hr := h.ring
  obtain ⟨f, hf, hfirst⟩ := hr.first
  obtain ⟨j, hj, hs, ht⟩ := append_last h.amid hr n
  refine AgreeAt.step rfl rfl (AgreeAt.step hs ht ?_)
  have hsame : SameRing b { s.self with last := ⟨some b, j⟩, size := s.self.size + n }
      { t.self with last := ⟨some b, j⟩, size := t.self.size + n } := by
    rw [hr.rest]
    exact .of_ends hr.data hf hfirst hj.le rfl
  exact setSelf_agree h.amid hsame

lemma writeAfter_agree (i : ℕ) (vs : List α) (h : Alike b s t) :
    AgreeAt (Alike b) (writeAfter i vs) (writeAfter i vs) s t := by
  induction vs generalizing i s t with
  | nil => exact AgreeAt.pure h
  | cons v vs ih =>
    obtain ⟨j, -, hs, ht⟩ := append_last h.amid h.ring i
    refine AgreeAt.step rfl rfl (AgreeAt.step hs ht ?_)
    exact (construct_agree j v h.amid).bind_into (fun _ _ h' => h'.alike h.ring)
      (fun _ _ _ _ h' => ih (i + 1) (h'.alike h.ring))

lemma call_agree (c : Call α) (h : Alike b s t)
    (hallowed : (Access.call c).allowed s.self = true) :
    AgreeAt (Alike b) (c.code E) (c.code E) s t := by
  have hr := h.ring
  obtain ⟨f, hf, hfirst⟩ := hr.first
  have hfirst' : t.self.first = ⟨some b, f⟩ := by rw [h.first_eq, hfirst]
  cases c with
  | pushBack val =>
    refine AgreeAt.bind ?_ (fun _ _ _ h' => AgreeAt.pure h')
    refine AgreeAt.step rfl rfl ?_
    rw [hr.rest]
    simp only [Access.allowed, Bool.or_eq_true, decide_eq_true_eq] at hallowed
    by_cases hlt : s.self.size < s.self.capacity
    · rw [if_pos hlt]
      exact emplaceBackWithUnusedCapacity_agree val h
    · rw [if_neg hlt, if_pos (hallowed.resolve_right hlt)]
      exact emplaceBackOverwrite_agree val h
  | tryPopFront => exact (tryPopFront_agree h).bind (fun _ _ _ h' => AgreeAt.pure h')
  | peekFront =>
    have hpeek : ∀ u : State α RingBuffer, peekFront u =
        .returned (if u.self.size = 0 then Ptr.null else u.self.first) u := by
      intro u
      rw [peekFront, Code.bind_returned (show self u = .returned u.self u from rfl)]
      split_ifs <;> rfl
    refine AgreeAt.step (hpeek s) (hpeek t) ?_
    rw [h.size_eq, hfirst, hfirst']
    by_cases hz : s.self.size = 0
    · rw [if_pos hz, if_pos rfl]
      exact AgreeAt.pure h
    · rw [if_neg hz, if_neg (fun hnull => by cases hnull)]
      exact (read_agree f h.amid).bind_into (fun _ _ h' => h'.alike hr)
        (fun _ _ _ _ h' => AgreeAt.pure (h'.alike hr))
  | index idx =>
    obtain ⟨j, -, hs, ht⟩ := append_first h.amid hr idx
    refine AgreeAt.step (Code.bind_returned rfl |>.trans hs) (Code.bind_returned rfl |>.trans ht) ?_
    exact (read_agree j h.amid).bind_into (fun _ _ h' => h'.alike hr)
      (fun _ _ _ _ h' => AgreeAt.pure (h'.alike hr))
  | clear => exact (clear_agree h).bind (fun _ _ _ h' => AgreeAt.pure h')
  | commitRead n => exact (commitRead_agree n h).bind (fun _ _ _ h' => AgreeAt.pure h')
  | size =>
    refine AgreeAt.step rfl rfl ?_
    rw [h.size_eq]
    exact AgreeAt.pure h

lemma armed_agree (a : Option ℕ × Access α) (h : Alike b s t)
    (hallowed : a.2.allowed s.self = true) :
    AgreeAt (Alike b) (Access.armed E a) (Access.armed E a) s t := by
  obtain ⟨k, a⟩ := a
  have harmed : Alike b { s with mem := { s.mem with fuse := k } }
      { t with mem := { t.mem with fuse := k } } := ⟨h.ring, h.block.extent, h.block.object, rfl⟩
  cases a with
  | call c => exact call_agree c harmed hallowed
  | commitWrite vs =>
    refine AgreeAt.bind (writeAfter_agree 0 vs harmed) (fun _ _ _ h' => ?_)
    exact (commitWrite_agree vs.length h').bind (fun _ _ _ h'' => AgreeAt.pure h'')

end Agree

lemma seen_congr (h : Alike b s t) (l : List (Option ℕ × Access α)) :
    Access.seen E l s = Access.seen E l t := by
  refine observe_congr (Alike b) (fun a s t h => ?_) (fun a s t h => armed_agree a h) l h
  obtain ⟨k, a⟩ := a
  rw [h.ring.rest]
  cases a with
  | call c => cases c <;> rfl
  | commitWrite vs => rfl

/-! ### The two ways to serve a queue -/

/-- The buffers of `s` and `t` hold the elements `q` in the same slots, and nothing tells them
apart. -/
structure SameQueue (E : Element α) (q : List α) (s t : State α RingBuffer) : Prop where
  left : ∃ b f l, Holds s.mem s.self b f l q
  right : ∃ b f l, Holds t.mem t.self b f l q
  size : s.self.size = t.self.size
  live : ∀ p, p.block = s.self.data.block → ((s.mem.object p).isSome ↔ (t.mem.object p).isSome)
  seen : ∀ l, Access.seen E l s = Access.seen E l t

/-- From `s`, the caller constructed the values `vs` in the slots after the last element, in
whatever order. -/
structure Filled (s : State α RingBuffer) (vs : List α) (t : State α RingBuffer) : Prop where
  self : t.self = s.self
  wf : t.mem.Wf
  extent : ∀ b, s.self.data.block = some b → t.mem.extent b = s.mem.extent b
  written : ∀ i, i < vs.length → t.mem.object (s.self.data +
    ((s.self.last - s.self.data) + i) % s.self.capacity) = vs[i]?
  kept : ∀ j, j < s.self.capacity →
    (∀ i, i < vs.length → j ≠ ((s.self.last - s.self.data) + i) % s.self.capacity) →
      t.mem.object (s.self.data + j) = s.mem.object (s.self.data + j)

lemma seen_disarm (l : List (Option ℕ × Access α)) (k : Option ℕ) :
    Access.seen E l { s with mem := { s.mem with fuse := k } } = Access.seen E l s := by
  cases l <;> rfl

lemma sameQueue_of_holds {l' : ℕ} (hs : Holds s.mem s.self b f l q)
    (ht : Holds t.mem t.self b f l' q) (hsw : s.mem.Wf) (htw : t.mem.Wf)
    (hcap : t.self.capacity = s.self.capacity)
    (hallow : t.self.allowOverwrite = s.self.allowOverwrite) : SameQueue E q s t := by
  have hobject : ∀ j, t.mem.object ⟨some b, j⟩ = s.mem.object ⟨some b, j⟩ := by
    intro j
    by_cases hj : j < s.self.capacity
    · rw [ht.object j (by omega), hs.object j hj, hcap]
    · have hdead : ∀ {u : State α RingBuffer} {m : ℕ}, Holds u.mem u.self b f m q → u.mem.Wf →
          ¬j < u.self.capacity → u.mem.object ⟨some b, j⟩ = none := fun h hw hn => by
        by_contra hne
        exact hn (h.lt_capacity hw (Option.isSome_iff_ne_none.mpr hne))
      rw [hdead hs hsw hj, hdead ht htw (by omega)]
  have hmod : l ≡ l' [MOD s.self.capacity] := hs.behind.congr.trans (hcap ▸ ht.behind.congr).symm
  have hrest : t.self = { s.self with last := t.self.last } := by
    have hdata := ht.data.trans hs.data.symm
    have hfirst := ht.first.trans hs.first.symm
    have hsize := ht.size.trans hs.size.symm
    generalize t.self = r' at hcap hallow hdata hfirst hsize ⊢
    cases r'
    simp only at hcap hallow hdata hfirst hsize ⊢
    rw [hcap, hallow, hdata, hfirst, hsize]
  refine ⟨⟨b, f, l, hs⟩, ⟨b, f, l', ht⟩, hs.size.trans ht.size.symm, fun p hp => ?_, fun ls => ?_⟩
  · have hpb : p = ⟨some b, p.off⟩ := by
      rw [Ptr.ext_iff']
      exact ⟨by rw [hp, hs.data], rfl⟩
    rw [hpb, hobject]
  · have halike : Alike b { s with mem := { s.mem with fuse := none } }
        { t with mem := { t.mem with fuse := none } } := by
      refine ⟨⟨hs.data, ⟨f, hs.first_lt, hs.first⟩, ⟨l, l', hs.last, ht.last, hs.behind.le, ?_,
        hmod⟩, hrest⟩, ?_, hobject, rfl⟩
      · exact hcap ▸ ht.behind.le
      · change t.mem.extent b = s.mem.extent b
        rw [hs.extent, ht.extent, hcap]
    rw [← seen_disarm (s := s) ls none, ← seen_disarm (s := t) ls none]
    exact seen_congr halike ls

lemma feed_pops (h : Holds s.mem s.self b f l q) (hw : s.mem.Wf) (hn : n ≤ q.length) :
    (feed E (List.replicate n .pop)).Ends s
      (fun vs s' => vs = q.take n ∧ ServesAt s b (slot s.self.capacity f n) (q.drop n) s')
      (fun _ => s.mem.fuse ≠ none) := by
  induction n generalizing s f l q with
  | zero =>
    refine Code.Ends.pure ⟨rfl, ?_⟩
    have hslot : slot s.self.capacity f 0 = f := Nat.mod_eq_of_lt h.first_lt
    rw [hslot]
    exact servesAt_refl h hw
  | succ n ih =>
    have hq : q ≠ [] := fun hq => by rw [hq] at hn; exact absurd hn (by simp)
    rw [List.replicate_succ]
    refine (tryPopFront_first h hw hq).bind ?_
    rintro _ t ⟨rfl, ht⟩
    obtain ⟨l', hl'⟩ := ht.located
    refine ((ih hl' ht.wf (by rw [List.length_drop]; omega)).mono (fun _ _ hs' => hs')
      (fun _ hfuse hcalm => hfuse (ht.calm hcalm))).bind ?_
    rintro _ s' ⟨rfl, hs'⟩
    refine Code.Ends.pure ⟨?_, ?_⟩
    · cases q with
      | nil => exact absurd rfl hq
      | cons v q => simp
    · have hslot : slot t.self.capacity (slot s.self.capacity f 1) n =
          slot s.self.capacity f (n + 1) := by
        rw [ht.capacity, slot, slot, slot, Nat.mod_add_mod, Nat.add_assoc, Nat.add_comm 1 n]
      rw [hslot, List.drop_drop, Nat.add_comm 1 n] at hs'
      exact ht.trans hs'

lemma feed_pushes (vals : List (Arg α)) (h : Holds s.mem s.self b f l q) (hw : s.mem.Wf)
    (hroom : q.length + vals.length ≤ s.self.capacity) :
    (feed E (vals.map .push)).Ends s (fun _ s' => ServesAt s b f (q ++ vals.map Arg.value) s')
      (fun _ => s.mem.fuse ≠ none) := by
  induction vals generalizing s l q with
  | nil =>
    simp only [List.map_nil, List.append_nil]
    exact Code.Ends.pure (servesAt_refl h hw)
  | cons val vals ih =>
    rw [List.length_cons] at hroom
    have hlt : q.length < s.self.capacity := by omega
    refine Code.Ends.bind (Q := fun _ t => ServesAt s b f (q ++ [val.value]) t) ?_ ?_
    · refine Code.Ends.step rfl ?_
      rw [if_pos (h.size.trans_lt hlt)]
      exact emplaceBackWithUnusedCapacity_ends val h hw hlt
    · intro _ t ht
      obtain ⟨l', hl'⟩ := ht.located
      refine (ih hl' ht.wf ?_).mono (fun _ s' hs' => ?_) (fun _ hfuse hcalm => hfuse (ht.calm hcalm))
      · rw [List.length_append, List.length_singleton, ht.capacity]
        omega
      · have htrans := ht.trans hs'
        rwa [List.append_assoc, List.singleton_append] at htrans

lemma Holds.after_last (h : Holds s.mem s.self b f l q) (i : ℕ) :
    s.self.data + ((s.self.last - s.self.data) + i) % s.self.capacity =
      ⟨some b, slot s.self.capacity f (q.length + i)⟩ := by
  have hmod := h.behind.congr.add_right i
  rw [h.data, h.last, Ptr.mk_add, Ptr.sub_eq, Nat.zero_add, Nat.sub_zero, hmod, slot, Nat.add_assoc]

lemma Holds.fill {vs : List α} (h : Holds s.mem s.self b f l q) (ht : Filled s vs t)
    (hroom : q.length + vs.length ≤ s.self.capacity) :
    Holds t.mem { s.self with last := ⟨some b, slot s.self.capacity f (q.length + vs.length)⟩,
                              size := s.self.size + vs.length }
      b f (slot s.self.capacity f (q.length + vs.length)) (q ++ vs) := by
  have hf := h.first_lt
  have hlen : (q ++ vs).length = q.length + vs.length := List.length_append
  refine ⟨h.data, h.first, rfl, ?_, ?_, hf, hlen.trans_le hroom, ?_, fun j hj => ?_⟩
  · rw [hlen, ← h.size]
  · rw [ht.extent b (by rw [h.data]), h.extent]
  · rw [hlen]
    exact ⟨(slot_lt hf).le, Nat.mod_modEq _ _⟩
  · change t.mem.object ⟨some b, j⟩ = lay s.self.capacity f (q ++ vs) j
    have hplace : slot s.self.capacity f (place s.self.capacity f j) = j := slot_place hf hj
    by_cases hin : q.length ≤ place s.self.capacity f j ∧
        place s.self.capacity f j < q.length + vs.length
    · have hwritten := ht.written (place s.self.capacity f j - q.length) (by omega)
      rw [h.after_last, Nat.add_sub_cancel' hin.1, hplace] at hwritten
      rw [hwritten, lay, List.getElem?_append_right hin.1]
    · have hkept := ht.kept j hj (fun i hi hji => ?_)
      · rw [h.data, Ptr.mk_add, Nat.zero_add, h.object j hj] at hkept
        rw [hkept, lay, lay]
        by_cases hlt : place s.self.capacity f j < q.length
        · rw [List.getElem?_append_left hlt]
        · rw [List.getElem?_eq_none (by omega), List.getElem?_eq_none (by omega)]
      · have hafter := h.after_last i
        rw [h.data, Ptr.mk_add, Nat.zero_add, ← h.data, ← hji] at hafter
        have hslot : j = slot s.self.capacity f (q.length + i) := by simpa using hafter
        rw [hslot, place_slot hf (by omega)] at hin
        omega

lemma commitWrite_run (h : Holds s.mem s.self b f l q) (hself : t.self = s.self) (n : ℕ) :
    commitWrite n t = .returned () ⟨t.mem, { s.self with
      last := ⟨some b, slot s.self.capacity f (q.length + n)⟩, size := s.self.size + n }⟩ := by
  have happend : append t.self.last n t =
      .returned ⟨some b, slot s.self.capacity f (q.length + n)⟩ t := by
    rw [append, Code.bind_returned (show self t = .returned t.self t from rfl), hself,
      if_neg h.capacity_pos, Code.pure_run, h.after_last]
  rw [commitWrite, Code.bind_returned (show self t = .returned t.self t from rfl),
    Code.bind_returned happend, hself]
  rfl

/-- In any layout, `commit_read` leaves what as many calls of `try_pop_front` leave, and
`commit_write` what as many calls of `push_back` leave, unless an element operation of theirs
throws; no later call tells the two apart. -/
theorem commits_agree (E : Element α) (h : Holds s.mem s.self b f l q) (hw : s.mem.Wf) :
    (∀ n, n ≤ q.length → (feed E (List.replicate n .pop)).Ends s
      (fun vs s₁ => vs = q.take n ∧
        ∃ s₂, commitRead n s = .returned () s₂ ∧ SameQueue E (q.drop n) s₁ s₂)
      (fun _ => s.mem.fuse ≠ none)) ∧
    ∀ (vals : List (Arg α)) (t : State α RingBuffer),
      vals.length ≤ s.self.capacity - s.self.size → Filled s (vals.map Arg.value) t →
      (feed E (vals.map .push)).Ends s
        (fun _ s₁ => ∃ s₂, commitWrite vals.length t = .returned () s₂ ∧
          SameQueue E (q ++ vals.map Arg.value) s₁ s₂)
        (fun _ => s.mem.fuse ≠ none) := by
  have hsize := h.size
  have hle := h.size_le
  constructor
  · intro n hn
    refine (feed_pops h hw hn).mono ?_ (fun _ hfuse => hfuse)
    rintro vs s₁ ⟨rfl, hs₁⟩
    obtain ⟨_, s₂, hrun, hs₂⟩ := commitRead_returns h hw hn
    obtain ⟨l₁, h₁⟩ := hs₁.located
    obtain ⟨l₂, h₂⟩ := hs₂.located
    refine ⟨rfl, s₂, hrun, sameQueue_of_holds h₁ h₂ hs₁.wf hs₂.wf ?_ ?_⟩
    · rw [hs₂.capacity, hs₁.capacity]
    · rw [hs₂.allowOverwrite, hs₁.allowOverwrite]
  · intro vals t hroom ht
    have hlen : (vals.map Arg.value).length = vals.length := List.length_map _
    refine (feed_pushes vals h hw (by omega)).mono ?_ (fun _ hfuse => hfuse)
    intro _ s₁ hs₁
    obtain ⟨l₁, h₁⟩ := hs₁.located
    refine ⟨_, commitWrite_run h ht.self vals.length, ?_⟩
    have h₂ := h.fill ht (by omega)
    rw [hlen] at h₂
    exact sameQueue_of_holds h₁ h₂ hs₁.wf ht.wf hs₁.capacity.symm hs₁.allowOverwrite.symm

/-- A buffer whose caller wrote 20 into the last slot of the block. -/
def sampleFilled : State ℕ RingBuffer :=
  ⟨(laid 3 1 [10, 20] true).mem, (laid 3 1 [10] true).self⟩

lemma sampleFilled_filled : Filled (laid 3 1 [10] true) [20] sampleFilled where
  self := rfl
  wf := laid_wf 3 1 [10, 20] true
  extent _ _ := rfl
  written i hi := by
    obtain rfl : i = 0 := Nat.lt_one_iff.mp hi
    rfl
  kept j hj hne := by
    have hj2 : j ≠ 2 := hne 0 Nat.one_pos
    have hcases : j = 0 ∨ j = 1 := by
      change j < 3 at hj
      omega
    rcases hcases with rfl | rfl <;> rfl

theorem sampleRing_agrees :
    (∃ s₁ s₂, feed (Element.plain 0 id) [.pop] (laid 3 1 [10] true) = .returned [10] s₁ ∧
      commitRead 1 (laid 3 1 [10] true) = .returned () s₂ ∧
      SameQueue (Element.plain 0 id) [] s₁ s₂) ∧
    ∃ vs s₁ s₂, feed (Element.plain 0 id) [.push ⟨20, false⟩] (laid 3 1 [10] true) =
        .returned vs s₁ ∧ commitWrite 1 sampleFilled = .returned () s₂ ∧
      SameQueue (Element.plain 0 id) [10, 20] s₁ s₂ := by
  obtain ⟨hread, hwrite⟩ := commits_agree (Element.plain 0 id)
    (laid_holds (by decide : 1 < 3) (by decide : [10].length ≤ 3) true) (laid_wf 3 1 [10] true)
  obtain ⟨vs, s₁, hrun, rfl, s₂, hrun₂, hsame⟩ :=
    (hread 1 (by decide)).returns (fun _ hfuse => hfuse rfl)
  obtain ⟨ws, t₁, hrun', t₂, hrun₂', hsame'⟩ := (hwrite [⟨20, false⟩] sampleFilled
    (by decide : 1 ≤ 3 - 1) sampleFilled_filled).returns (fun _ hfuse => hfuse rfl)
  exact ⟨⟨s₁, s₂, hrun, hrun₂, hsame⟩, ws, t₁, t₂, hrun', hrun₂', hsame'⟩

end RingBuffer

end Voxory
