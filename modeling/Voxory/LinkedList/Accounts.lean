import Voxory.LinkedList.IteratorPool

/-!
# The blocks of linked lists

What becomes of every block that the allocator hands out. Only `emplace_back` asks for one, and it
loses the block where the value of the new node throws when it is copied: then the block is no
node and is never given back. No other block is lost.
-/

namespace Cxx

/-- The addresses of the blocks handed out, newest first. -/
def allocated : List Event → List Ptr
  | [] => []
  | .allocate p _ :: t => p :: allocated t
  | .deallocate _ _ :: t | .construct _ :: t | .destroy _ :: t => allocated t

variable {α ρ σ β γ : Type}

/-- No block was handed out between `m` and `m'`. -/
structure SameBlocks (m m' : Memory α) : Prop where
  fresh : m'.fresh = m.fresh
  allocated : allocated m'.trace = Cxx.allocated m.trace

/-- One block was handed out between `m` and `m'`. -/
structure OneMore (m m' : Memory α) : Prop where
  fresh : m'.fresh = m.fresh + 1
  allocated : allocated m'.trace = ⟨some m.fresh, 0⟩ :: Cxx.allocated m.trace

lemma SameBlocks.refl (m : Memory α) : SameBlocks m m := ⟨rfl, rfl⟩

lemma SameBlocks.trans {m m' m'' : Memory α} (h : SameBlocks m m') (h' : SameBlocks m' m'') :
    SameBlocks m m'' :=
  ⟨h'.fresh.trans h.fresh, h'.allocated.trans h.allocated⟩

lemma OneMore.then {m m' m'' : Memory α} (h : OneMore m m') (h' : SameBlocks m' m'') :
    OneMore m m'' :=
  ⟨h'.fresh.trans h.fresh, h'.allocated.trans h.allocated⟩

lemma OneMore.after {m m' m'' : Memory α} (h : SameBlocks m m') (h' : OneMore m' m'') :
    OneMore m m'' :=
  ⟨h'.fresh.trans (by rw [h.fresh]), h'.allocated.trans (by rw [h.fresh, h.allocated])⟩

/-- Code that asks for no block and does not throw. -/
def Silent (mem : σ → Memory α) (x : Code σ β) : Prop :=
  ∀ s, x.Within (fun _ => True) s (fun _ s' => SameBlocks (mem s) (mem s')) (fun _ => False)

namespace Silent

variable {mem : σ → Memory α} {x : Code σ β}

lemma pure (b : β) : Silent mem (Pure.pure b) := fun s => SameBlocks.refl (mem s)

lemma bind {f : β → Code σ γ} (h : Silent mem x) (hf : ∀ b, Silent mem (f b)) :
    Silent mem (x >>= f) := by
  intro s
  refine (h s).bind (fun b t ht => (hf b t).mono (fun _ _ hs' => ht.trans hs') (fun _ hs' => hs'))

lemma next {f : β → Code σ γ} {s : σ} {Q : γ → σ → Prop} {R : σ → Prop} (h : Silent mem x)
    (hf : ∀ b t, SameBlocks (mem s) (mem t) → (f b).Within (fun _ => True) t Q R) :
    (x >>= f).Within (fun _ => True) s Q R :=
  ((h s).mono (fun _ _ ht => ht) (fun _ hs' => hs'.elim)).bind hf

lemma undefined (why : Fault) : Silent mem (Code.undefined why : Code σ β) := fun _ => trivial

end Silent

lemma self_silent : Silent State.mem (self : Code (State α ρ) ρ) := fun s => SameBlocks.refl s.mem

lemma setSelf_silent (r : ρ) : Silent State.mem (setSelf r : Code (State α ρ) Unit) :=
  fun s => SameBlocks.refl s.mem

lemma read_silent (p : Ptr) : Silent State.mem (read p : Code (State α ρ) α) := by
  intro s
  unfold Code.Within read
  split_ifs
  · cases s.mem.object p with
    | none => trivial
    | some v => exact SameBlocks.refl s.mem
  · trivial

lemma assign_silent (p : Ptr) (v : α) : Silent State.mem (assign p v : Code (State α ρ) Unit) := by
  intro s
  unfold Code.Within assign
  split_ifs
  · cases s.mem.object p with
    | none => trivial
    | some w => exact ⟨rfl, rfl⟩
  · trivial

lemma construct_silent (p : Ptr) (v : α) :
    Silent State.mem (construct p v : Code (State α ρ) Unit) := by
  intro s
  unfold Code.Within construct
  split_ifs
  · exact ⟨rfl, rfl⟩
  · trivial

lemma destroy_silent (p : Ptr) : Silent State.mem (destroy p : Code (State α ρ) Unit) := by
  intro s
  unfold Code.Within destroy
  split_ifs
  · cases s.mem.object p with
    | none => trivial
    | some w => exact ⟨rfl, rfl⟩
  · trivial

lemma deallocate_silent (p : Ptr) (n : ℕ) :
    Silent State.mem (deallocate p n : Code (State α ρ) Unit) := fun _ => ⟨rfl, rfl⟩

lemma mayThrow_blocks (b : Bool) (s : State α ρ) : (mayThrow b).Within (fun _ => True) s
    (fun _ s' => SameBlocks s.mem s'.mem ∧ s'.mem.fuse = s.mem.fuse.map (· - b.toNat) ∧
      (b = true → s.mem.fuse ≠ some 0))
    (fun s' => SameBlocks s.mem s'.mem ∧ b = true ∧ s.mem.fuse = some 0) := by
  unfold Code.Within mayThrow
  cases b with
  | false =>
    refine ⟨SameBlocks.refl s.mem, ?_, fun h => nomatch h⟩
    cases s.mem.fuse <;> rfl
  | true =>
    rw [if_pos rfl]
    cases hf : s.mem.fuse with
    | none => exact ⟨SameBlocks.refl s.mem, hf, by simp⟩
    | some k =>
      cases k with
      | zero => exact ⟨⟨rfl, rfl⟩, rfl, rfl⟩
      | succ k => exact ⟨⟨rfl, rfl⟩, rfl, by simp⟩

lemma takeBlock_blocks (s : State α ρ) : (takeBlock 1).Within (fun _ => True) s
    (fun p s' => p = ⟨some s.mem.fresh, 0⟩ ∧ OneMore s.mem s'.mem ∧ s'.mem.fuse = s.mem.fuse)
    (fun _ => False) := by
  unfold Code.Within takeBlock
  rw [if_neg (by omega)]
  exact ⟨rfl, ⟨rfl, rfl⟩, rfl⟩

/-- Of `n` fallible operations after the first one, the fuse makes one throw. -/
def late (fuse : Option ℕ) (n : ℕ) : Bool :=
  match fuse with
  | some (k + 1) => k < n
  | _ => false

lemma late_iff {fuse : Option ℕ} {n : ℕ} :
    late fuse n = true ↔ ∃ k, fuse = some (k + 1) ∧ k < n := by
  rcases fuse with - | - | k
  · simp [late]
  · simp [late]
  · simp [late]

lemma late_of_burnt {fuse : Option ℕ} {k n : ℕ} (hne : fuse ≠ some 0)
    (hburnt : fuse.map (· - k) = some 0) (hk : k ≤ n) : late fuse n = true := by
  obtain ⟨j, rfl, hj⟩ := Option.map_eq_some_iff.mp hburnt
  have hpos : j ≠ 0 := fun h => hne (by rw [h])
  refine late_iff.mpr ⟨j - 1, ?_, by omega⟩
  rw [Nat.sub_add_cancel (Nat.pos_of_ne_zero hpos)]

lemma allocate_blocks (s : State α ρ) : (allocate 1).Within (fun _ => True) s
    (fun p s' => p = ⟨some s.mem.fresh, 0⟩ ∧ OneMore s.mem s'.mem ∧
      s'.mem.fuse = s.mem.fuse.map (· - 1) ∧ s.mem.fuse ≠ some 0)
    (fun s' => SameBlocks s.mem s'.mem ∧ s.mem.fuse = some 0) := by
  refine ((mayThrow_blocks true s).mono (fun _ _ h => h) (fun _ h => ⟨h.1, h.2.2⟩)).bind ?_
  rintro _ t ⟨hsame, hfuse, hne⟩
  refine (takeBlock_blocks t).mono ?_ (fun _ h => h.elim)
  rintro p u ⟨rfl, hmore, hsteady⟩
  exact ⟨by rw [hsame.fresh], .after hsame hmore, hsteady.trans hfuse, hne rfl⟩

end Cxx

namespace Voxory
open Cxx Chain Machine

namespace LinkedList

variable {α : Type}

lemma setNext_silent (p q : Ptr) : Silent State.mem (setNext p q : Method α Unit) :=
  (read_silent p).bind (fun n => assign_silent p { n with next := q })

lemma setLast_silent (p q : Ptr) : Silent State.mem (setLast p q : Method α Unit) :=
  (read_silent p).bind (fun n => assign_silent p { n with last := q })

lemma destroyNode_silent (p : Ptr) : Silent State.mem (destroyNode p : Method α Unit) :=
  (destroy_silent p).bind (fun _ => deallocate_silent p 1)

lemma linkBack_silent (p : Ptr) : Silent State.mem (linkBack p : Method α Unit) := by
  refine self_silent.bind (fun l => ?_)
  split_ifs
  · exact setSelf_silent _
  · exact (setNext_silent _ _).bind (fun _ => (setLast_silent _ _).bind (fun _ =>
      setSelf_silent _))

lemma popBack_silent : Silent State.mem (popBack : Method α Unit) := by
  refine self_silent.bind (fun l => ?_)
  split_ifs
  · exact Silent.pure ()
  · exact (destroyNode_silent _).bind (fun _ => setSelf_silent _)
  · exact (read_silent _).bind (fun tail => (destroyNode_silent _).bind (fun _ =>
      (setNext_silent _ _).bind (fun _ => setSelf_silent _)))

lemma unlinkFront_silent (loc : Ptr) : Silent State.mem (unlinkFront loc : Method α Unit) := by
  refine (read_silent loc).bind (fun n => ?_)
  split_ifs
  · exact setNext_silent _ _
  · exact self_silent.bind (fun l => (setSelf_silent _).bind (fun _ => setLast_silent _ _))
  · exact self_silent.bind (fun l => (setSelf_silent _).bind (fun _ => Silent.pure ()))

lemma unlinkBack_silent (loc : Ptr) : Silent State.mem (unlinkBack loc : Method α Unit) := by
  refine (read_silent loc).bind (fun n => ?_)
  split_ifs
  · exact setLast_silent _ _
  · exact self_silent.bind (fun l => (setSelf_silent _).bind (fun _ => setNext_silent _ _))
  · exact self_silent.bind (fun l => (setSelf_silent _).bind (fun _ => Silent.pure ()))

lemma popAt_silent (loc : Ptr) : Silent State.mem (popAt loc : Method α Unit) := by
  unfold popAt
  split_ifs
  · exact Silent.pure ()
  · exact (unlinkFront_silent loc).bind (fun _ => (unlinkBack_silent loc).bind (fun _ =>
      (destroyNode_silent loc).bind (fun _ => self_silent.bind (fun l => setSelf_silent _))))

lemma clearFrom_silent (rounds : ℕ) (cur : Ptr) :
    Silent State.mem (clearFrom rounds cur : Method α Unit) := by
  induction rounds generalizing cur with
  | zero =>
    unfold clearFrom
    split_ifs
    · exact Silent.pure ()
    · exact Silent.undefined _
  | succ rounds ih =>
    unfold clearFrom
    split_ifs
    · exact Silent.pure ()
    · exact (read_silent cur).bind (fun n => (destroyNode_silent cur).bind (fun _ => ih n.next))

lemma clear_silent : Silent State.mem (clear : Method α Unit) :=
  self_silent.bind (fun l => Silent.bind (fun s => SameBlocks.refl s.mem) (fun rounds =>
    (clearFrom_silent rounds l.first).bind (fun _ => setSelf_silent nil)))

lemma assignMove_silent (o : LinkedList) :
    Silent State.mem (assignMove o : Method α LinkedList) :=
  clear_silent.bind (fun _ => (setSelf_silent o).bind (fun _ => Silent.pure nil))

/-- The fallible operations of `emplace_back` after its allocation. -/
def fallible (E : Element α) (b : Bool) : ℕ := b.toNat + E.copyThrows.toNat

lemma late_eq_false {E : Element α} {b : Bool} {fuse : Option ℕ} (hfirst : b = true → fuse ≠ some 1)
    (hsecond : E.copyThrows = true → fuse.map (· - (1 + b.toNat)) ≠ some 0) :
    late fuse (fallible E b) = false := by
  refine Bool.eq_false_iff.mpr (fun hlate => ?_)
  obtain ⟨k, rfl, hk⟩ := late_iff.mp hlate
  unfold fallible at hk
  cases hc : E.copyThrows with
  | true =>
    refine hsecond hc ?_
    rw [hc, Bool.toNat_true] at hk
    rw [Option.map_some, Nat.sub_eq_zero_of_le (by omega)]
  | false =>
    rw [hc, Bool.toNat_false, Nat.add_zero] at hk
    cases b with
    | true => exact hfirst rfl (by rw [Nat.lt_one_iff.mp hk])
    | false => exact Nat.not_lt_zero k hk

/-- `emplace_back` takes a block unless its allocation throws, and loses the block where it throws
later. -/
lemma emplaceBack_blocks (E : Element α) (b : Bool) (val : α) (s : State (Node α) LinkedList) :
    (emplaceBack E (do
      mayThrow b
      pure val)).Within (fun _ => True) s
      (fun p s' => p = ⟨some s.mem.fresh, 0⟩ ∧ OneMore s.mem s'.mem ∧
        late s.mem.fuse (fallible E b) = false)
      (fun s' => (SameBlocks s.mem s'.mem ∧ late s.mem.fuse (fallible E b) = false) ∨
        (OneMore s.mem s'.mem ∧ late s.mem.fuse (fallible E b) = true)) := by
  refine ((allocate_blocks s).mono (fun _ _ h => h) ?_).bind ?_
  · rintro t ⟨hsame, hburnt⟩
    exact Or.inl ⟨hsame, by rw [hburnt]; rfl⟩
  rintro p t ⟨rfl, hmore, hfuse, hne⟩
  -- the parameter is copied or moved
  refine Code.Within.bind (Q := fun _ u => OneMore s.mem u.mem ∧
    u.mem.fuse = s.mem.fuse.map (· - (1 + b.toNat)) ∧ (b = true → s.mem.fuse ≠ some 1)) ?_ ?_
  · refine ((mayThrow_blocks b t).mono (fun _ _ h => h) ?_).bind ?_
    · rintro u ⟨hsame, rfl, hburnt⟩
      rw [hfuse] at hburnt
      refine Or.inr ⟨hmore.then hsame, late_of_burnt hne hburnt ?_⟩
      exact Nat.le_add_right 1 E.copyThrows.toNat
    · rintro _ u ⟨hsame, hspent, hlive⟩
      refine ⟨hmore.then hsame, ?_, fun hb hone => hlive hb (by rw [hfuse, hone]; rfl)⟩
      rw [hspent, hfuse, Option.map_map]
      congr 1
      funext k
      exact Nat.sub_sub k 1 b.toNat
  -- the node copies it
  rintro v u ⟨hmoreu, hspent, hfirst⟩
  refine ((mayThrow_blocks E.copyThrows u).mono (fun _ _ h => h) ?_).bind ?_
  · rintro w ⟨hsame, hcopy, hburnt⟩
    rw [hspent] at hburnt
    refine Or.inr ⟨hmoreu.then hsame, late_of_burnt hne hburnt ?_⟩
    rw [fallible, hcopy, Bool.toNat_true, Nat.add_comm]
  rintro _ w ⟨hsame, -, hsecond⟩
  rw [hspent] at hsecond
  refine self_silent.next (fun l t₁ h₁ => ?_)
  refine (construct_silent _ _).next (fun _ t₂ h₂ => ?_)
  refine (linkBack_silent _).next (fun _ t₃ h₃ => ?_)
  refine self_silent.next (fun l' t₄ h₄ => ?_)
  refine (setSelf_silent _).next (fun _ t₅ h₅ => ?_)
  exact .pure ⟨rfl, hmoreu.then (((((hsame.trans h₁).trans h₂).trans h₃).trans h₄).trans h₅),
    late_eq_false hfirst hsecond⟩

end LinkedList

namespace Reference

variable {α : Type} {a a' : Reference α} {q : Ptr} {x : ℕ}

lemma Known.of_update {c : Option (List (Ptr × α))} {gone : List Ptr}
    (h : (a.update x c gone).Known q) (hc : ∀ ys, c = some ys → q ∈ keys ys → a.Known q)
    (hgone : q ∈ gone → a.Known q) : a.Known q := by
  rcases h with hnull | ⟨y, ys, hy, hq⟩ | hq
  · exact Or.inl hnull
  · rcases ListPool.Sound.of_update hy with ⟨-, hys⟩ | ⟨-, hys⟩
    · exact hc ys hys hq
    · exact Or.inr (Or.inl ⟨y, ys, hys, hq⟩)
  · exact (List.mem_append.mp hq).elim hgone (fun hq => Or.inr (Or.inr hq))

lemma known_node {xs : List (Ptr × α)} (hx : a.nodes x = some xs) (hq : q ∈ keys xs) :
    a.Known q := Or.inr (Or.inl ⟨x, xs, hx, hq⟩)

lemma Step.known_of {l : Option ℕ × ListAction α} (h : a.Step l a')
    (hback : ∀ x val, l.2 ≠ .pushBack x val) (hmove : ∀ x val, l.2 ≠ .pushBackMove x val)
    (hq : a'.Known q) : a.Known q := by
  obtain ⟨k, act⟩ := l
  cases act with
  | default x =>
    obtain rfl : a' = _ := h
    refine hq.of_update (fun ys hys hmem => ?_) (fun hmem => absurd hmem List.not_mem_nil)
    cases hys
    cases hmem
  | pushBack x val => exact absurd rfl (hback x val)
  | pushBackMove x val => exact absurd rfl (hmove x val)
  | popBack x =>
    obtain ⟨xs, hx, rfl⟩ := h
    refine hq.of_update (fun ys hys hmem => ?_) (fun hmem => known_node hx ?_)
    · cases hys
      exact known_node hx (List.map_subset _ (List.dropLast_subset xs) hmem)
    · obtain ⟨v, hv, rfl⟩ := List.mem_map.mp hmem
      exact List.mem_map_of_mem (List.mem_of_getLast? (Option.mem_toList.mp hv))
  | popAt x loc =>
    obtain ⟨xs, val, ys, hx, rfl⟩ := h
    refine hq.of_update (fun zs hzs hmem => known_node hx ?_) (fun hmem => known_node hx ?_)
    · cases hzs
      rw [keys_append, List.mem_append] at hmem
      rw [keys_append, keys_cons, List.mem_append, List.mem_cons]
      exact hmem.imp_right Or.inr
    · rw [List.mem_singleton.mp hmem, keys_append, keys_cons]
      exact List.mem_append_right _ List.mem_cons_self
  | clear x =>
    obtain ⟨xs, hx, rfl⟩ := h
    refine hq.of_update (fun ys hys hmem => ?_) (fun hmem => known_node hx ?_)
    · cases hys
      cases hmem
    · exact List.mem_reverse.mp hmem
  | moveAssign x y =>
    by_cases hxy : x = y
    · obtain rfl : a' = a := (if_pos hxy).mp h
      exact hq
    · obtain ⟨xs, ys, hx, hy, rfl⟩ := (if_neg hxy).mp h
      have hfirst : (a.update x (some ys) (keys xs).reverse).Known q := by
        refine hq.of_update (fun zs hzs hmem => ?_) (fun hmem => absurd hmem List.not_mem_nil)
        cases hzs
        cases hmem
      refine hfirst.of_update (fun zs hzs hmem => ?_) (fun hmem => known_node hx ?_)
      · cases hzs
        exact known_node hy hmem
      · exact List.mem_reverse.mp hmem
  | destroy x =>
    obtain ⟨xs, hx, rfl⟩ := h
    refine hq.of_update (fun ys hys => ?_) (fun hmem => known_node hx ?_)
    · cases hys
    · exact List.mem_reverse.mp hmem

end Reference

namespace ListAction

variable {α : Type}

open Objects

/-- A `push_back` that loses a block: the value throws after the node was allocated. -/
def leaks (E : Element α) (l : Option ℕ × ListAction α) : Bool :=
  match l.2 with
  | .pushBack _ _ => late l.1 (LinkedList.fallible E E.copyThrows)
  | .pushBackMove _ _ => late l.1 (LinkedList.fallible E E.moveThrows)
  | _ => false

lemma member_silent {β : Type} (x : ℕ) {m : LinkedList.Method α β} (h : Silent State.mem m) :
    Silent Objects.mem (member x m : Code (ListPool α) β) := by
  intro p
  cases hx : p.obj x with
  | none =>
    unfold Code.Within member
    simp only [hx]
  | some l =>
    refine (member_within hx (h ⟨p.mem, l⟩)).mono ?_ (fun _ hs => hs.elim (fun _ hs => hs.1))
    rintro b p' ⟨s', hs', rfl⟩
    exact hs'

lemma fields_silent (x : ℕ) : Silent Objects.mem (fields x : Code (ListPool α) LinkedList) := by
  intro p
  unfold Code.Within fields
  cases p.obj x with
  | none => trivial
  | some l => exact SameBlocks.refl p.mem

lemma put_silent (x : ℕ) (c : Option LinkedList) :
    Silent Objects.mem (put x c : Code (ListPool α) Unit) := fun p => SameBlocks.refl p.mem

lemma code_silent (E : Element α) {act : ListAction α} (hback : ∀ x val, act ≠ .pushBack x val)
    (hmove : ∀ x val, act ≠ .pushBackMove x val) : Silent Objects.mem (act.code E) := by
  cases act with
  | default x => exact fun p => SameBlocks.refl p.mem
  | pushBack x val => exact absurd rfl (hback x val)
  | pushBackMove x val => exact absurd rfl (hmove x val)
  | popBack x => exact member_silent x LinkedList.popBack_silent
  | popAt x loc => exact member_silent x (LinkedList.popAt_silent loc)
  | clear x => exact member_silent x LinkedList.clear_silent
  | moveAssign x y =>
    rw [code]
    split_ifs
    · exact Silent.pure ()
    · exact (fields_silent y).bind (fun o =>
        (member_silent x (LinkedList.assignMove_silent o)).bind (fun left => put_silent y _))
  | destroy x =>
    exact (member_silent x LinkedList.clear_silent).bind (fun _ => put_silent x none)

end ListAction

namespace ListPool

variable {α : Type}

open Objects LinkedList

/-- Every block that was handed out is a node of a list, was given back, or is lost. -/
structure Accounted (p : ListPool α) (a : Reference α) (lost : List Ptr) : Prop where
  handed : ∀ q ∈ allocated p.mem.trace, ∃ b, q = ⟨some b, 0⟩ ∧ b < p.mem.fresh
  once : (allocated p.mem.trace).Nodup
  covers : ∀ q, q ≠ .null → (q ∈ allocated p.mem.trace ↔ a.Known q ∨ q ∈ lost)
  apart : ∀ q ∈ lost, q ≠ .null ∧ ¬a.Known q
  nodup : lost.Nodup

variable {E : Element α} {p p' : ListPool α} {a a' : Reference α} {lost : List Ptr} {q : Ptr}

namespace Accounted

lemma start (z : Bool) : Accounted (start z : ListPool α) Reference.start [] where
  handed _ h := absurd h List.not_mem_nil
  once := List.nodup_nil
  covers q hq := by
    refine iff_of_false List.not_mem_nil ?_
    rintro ((hnull | ⟨x, xs, hx, -⟩ | h) | h)
    · exact hq hnull
    · cases hx
    · cases h
    · cases h
  apart _ h := absurd h List.not_mem_nil
  nodup := List.nodup_nil

lemma same (h : Accounted p a lost) (hm : SameBlocks p.mem p'.mem)
    (hknown : ∀ q, a'.Known q ↔ a.Known q) : Accounted p' a' lost where
  handed q hq := by
    rw [hm.allocated] at hq
    rw [hm.fresh]
    exact h.handed q hq
  once := by
    rw [hm.allocated]
    exact h.once
  covers q hq := by rw [hm.allocated, hknown, h.covers q hq]
  apart q hq := by
    rw [hknown]
    exact h.apart q hq
  nodup := h.nodup

lemma not_handed (h : Accounted p a lost) :
    (⟨some p.mem.fresh, 0⟩ : Ptr) ∉ allocated p.mem.trace := by
  intro hmem
  obtain ⟨b, hb, hlt⟩ := h.handed _ hmem
  cases hb
  exact lt_irrefl _ hlt

lemma more {lost' : List Ptr} (h : Accounted p a lost) (hm : OneMore p.mem p'.mem)
    (hnew : ∀ q, q ≠ .null →
      (a'.Known q ∨ q ∈ lost' ↔ q = ⟨some p.mem.fresh, 0⟩ ∨ a.Known q ∨ q ∈ lost))
    (hapart : ∀ q ∈ lost', q ≠ .null ∧ ¬a'.Known q) (hnodup : lost'.Nodup) :
    Accounted p' a' lost' where
  handed q hq := by
    rw [hm.allocated] at hq
    rw [hm.fresh]
    rcases List.mem_cons.mp hq with rfl | hq
    · exact ⟨p.mem.fresh, rfl, Nat.lt_succ_self _⟩
    · obtain ⟨b, hb, hlt⟩ := h.handed q hq
      exact ⟨b, hb, Nat.lt_succ_of_lt hlt⟩
  once := by
    rw [hm.allocated]
    exact List.nodup_cons.mpr ⟨h.not_handed, h.once⟩
  covers q hq := by rw [hm.allocated, List.mem_cons, h.covers q hq, hnew q hq]
  apart := hapart
  nodup := hnodup

lemma arm (h : Accounted p a lost) (k : Option ℕ) : Accounted (p.arm k) a lost :=
  ⟨h.handed, h.once, h.covers, h.apart, h.nodup⟩

lemma fresh_ne_null (b : ℕ) : (⟨some b, 0⟩ : Ptr) ≠ .null := by
  intro h
  cases h

lemma fresh_unknown (h : Accounted p a lost) : ¬a.Known ⟨some p.mem.fresh, 0⟩ := fun hq =>
  h.not_handed ((h.covers _ (fresh_ne_null _)).mpr (Or.inl hq))

lemma fresh_not_lost (h : Accounted p a lost) : (⟨some p.mem.fresh, 0⟩ : Ptr) ∉ lost := fun hq =>
  h.not_handed ((h.covers _ (fresh_ne_null _)).mpr (Or.inr hq))

lemma appended {x : ℕ} {xs : List (Ptr × α)} {val : α} (h : Accounted p a lost)
    (hx : a.nodes x = some xs) (hm : OneMore p.mem p'.mem) :
    Accounted p' (a.update x (some (xs ++ [(⟨some p.mem.fresh, 0⟩, val)])) []) lost := by
  have hknown : ∀ q, (a.update x (some (xs ++ [(⟨some p.mem.fresh, 0⟩, val)])) []).Known q ↔
      q = ⟨some p.mem.fresh, 0⟩ ∨ a.Known q := by
    intro q
    by_cases hq : q = ⟨some p.mem.fresh, 0⟩
    · refine iff_of_true (Reference.known_kept ?_) (Or.inl hq)
      rw [hq, keys_append]
      exact List.mem_append_right _ List.mem_cons_self
    · have hkeys : q ∈ keys (xs ++ [((⟨some p.mem.fresh, 0⟩ : Ptr), val)]) ↔ q ∈ keys xs := by
        rw [keys_append, List.mem_append]
        exact or_iff_left (fun hmem => hq (List.mem_singleton.mp hmem))
      refine ⟨fun hk => Or.inr ?_, fun hk => (hk.resolve_left hq).update fun xs' hx' hmem => ?_⟩
      · refine hk.of_update (fun ys hys hmem => ?_) (fun hmem => absurd hmem List.not_mem_nil)
        cases hys
        exact Reference.known_node hx (hkeys.mp hmem)
      · cases hx.symm.trans hx'
        exact Reference.known_kept (hkeys.mpr hmem)
  refine h.more hm (fun q _ => by rw [hknown, or_assoc]) (fun q hq => ?_) h.nodup
  refine ⟨(h.apart q hq).1, fun hk => ?_⟩
  rcases (hknown q).mp hk with rfl | hk
  · exact h.fresh_not_lost hq
  · exact (h.apart q hq).2 hk

lemma forgotten (h : Accounted p a lost) (hm : OneMore p.mem p'.mem) :
    Accounted p' a (⟨some p.mem.fresh, 0⟩ :: lost) := by
  have hnodup := List.nodup_cons.mpr ⟨h.fresh_not_lost, h.nodup⟩
  refine h.more hm (fun q _ => ?_) (fun q hq => ?_) hnodup
  · rw [List.mem_cons, or_left_comm]
  · rcases List.mem_cons.mp hq with rfl | hq
    · exact ⟨fresh_ne_null _, h.fresh_unknown⟩
    · exact h.apart q hq

lemma push {b : Bool} {val : α} {k : Option ℕ} {x : ℕ} {xs : List (Ptr × α)} (h : Sound p a)
    (hA : Accounted p a lost) (hx : a.nodes x = some xs)
    (hnext : after ((do
      let _ ← member x (emplaceBack E (do
        mayThrow b
        pure val)) : Code (ListPool α) Unit) (p.arm k)) = some p') :
    ∃ a' lost', a.Appends k x val a' ∧ Sound p' a' ∧ Accounted p' a' lost' ∧
      lost'.length = lost.length + if late k (fallible E b) then 1 else 0 := by
  have ha := h.arm k
  have hobj : (p.arm k).obj x = some (ofNodes xs) := by rw [ha.fields, hx]; rfl
  rw [after_discard] at hnext
  have hpush := (Code.Within.of_ends (push_ends (E := E) (b := b) (ha.holds hx))).and
    (emplaceBack_blocks E b val ⟨(p.arm k).mem, ofNodes xs⟩)
  rcases after_within (member_within hobj hpush) hnext with
    ⟨q, s', ⟨⟨hremoved, hnone, hs'⟩, rfl, hmore, hlate⟩, rfl⟩ | ⟨s', ⟨⟨hs', hfuse⟩, hblocks⟩, rfl⟩
  · refine ⟨_, lost, ⟨xs, hx, Or.inr ⟨_, ?_, ?_, rfl⟩⟩, ha.pushed hx hnone hs',
      (hA.arm k).appended hx hmore, ?_⟩
    · rwa [← h.removed]
    · exact fun y ys hy => ha.not_mem hnone hy
    · rw [show late k (fallible E b) = false from hlate]
      rfl
  · rcases hblocks with ⟨hsame, hlate⟩ | ⟨hmore, hlate⟩
    · refine ⟨a, lost, ⟨xs, hx, Or.inl ⟨hfuse, rfl⟩⟩, ha.unchanged hx hs',
        (hA.arm k).same hsame (fun _ => Iff.rfl), ?_⟩
      rw [show late k (fallible E b) = false from hlate]
      rfl
    · refine ⟨a, _, ⟨xs, hx, Or.inl ⟨hfuse, rfl⟩⟩, ha.unchanged hx hs',
        (hA.arm k).forgotten hmore, ?_⟩
      rw [show late k (fallible E b) = true from hlate]
      rfl

end Accounted

/-- A step of a list program and of its accounts. -/
def Booked (E : Element α) (c : Reference α × List Ptr) (l : Option ℕ × ListAction α)
    (c' : Reference α × List Ptr) : Prop :=
  c.1.Step l c'.1 ∧ c'.2.length = c.2.length + if ListAction.leaks E l then 1 else 0

lemma step_accounted (h : Sound p a) (hA : Accounted p a lost) {l : Option ℕ × ListAction α}
    (hlegal : l.2.Legal p) : ∃ p' c', next E p l = some p' ∧ Booked E (a, lost) l c' ∧
      Sound p' c'.1 ∧ Accounted p' c'.1 c'.2 := by
  obtain ⟨p', a', hnext, hstep, hsound⟩ := step (E := E) h hlegal
  obtain ⟨k, act⟩ := l
  have hrun : after (act.code E (p.arm k)) = some p' := by
    rwa [next, if_pos hlegal] at hnext
  have hpush : ∀ x, (p.obj x).isSome → ∃ xs, a.nodes x = some xs := by
    intro x hx
    obtain ⟨l, hl⟩ := Option.isSome_iff_exists.mp hx
    obtain ⟨xs, hxs, -⟩ := h.nodes hl
    exact ⟨xs, hxs⟩
  by_cases hback : ∃ x val, act = .pushBack x val
  · obtain ⟨x, val, rfl⟩ := hback
    obtain ⟨xs, hx⟩ := hpush x hlegal
    obtain ⟨b, lost', happends, hb, haccounts, hlength⟩ := hA.push h hx hrun
    exact ⟨p', (b, lost'), hnext, ⟨happends, hlength⟩, hb, haccounts⟩
  · by_cases hmove : ∃ x val, act = .pushBackMove x val
    · obtain ⟨x, val, rfl⟩ := hmove
      obtain ⟨xs, hx⟩ := hpush x hlegal
      obtain ⟨b, lost', happends, hb, haccounts, hlength⟩ := hA.push h hx hrun
      exact ⟨p', (b, lost'), hnext, ⟨happends, hlength⟩, hb, haccounts⟩
    · have hback' : ∀ x val, act ≠ .pushBack x val := fun x val he => hback ⟨x, val, he⟩
      have hmove' : ∀ x val, act ≠ .pushBackMove x val := fun x val he => hmove ⟨x, val, he⟩
      have hsame : SameBlocks p.mem p'.mem :=
        (after_within (ListAction.code_silent E hback' hmove' (p.arm k)) hrun).elim
          (fun hs => hs.elim (fun _ hs => ⟨hs.fresh, hs.allocated⟩)) (fun hs => hs.elim)
      have hfree : ∀ x, act = .default x → a.nodes x = none := by
        rintro x rfl
        have hnone : p.obj x = none := hlegal
        rw [h.fields] at hnone
        exact Option.map_eq_none_iff.mp hnone
      have hknown : ∀ q, a'.Known q ↔ a.Known q :=
        fun q => ⟨hstep.known_of hback' hmove', hstep.known hfree⟩
      refine ⟨p', (a', lost), hnext, ⟨hstep, ?_⟩, hsound, hA.same hsame hknown⟩
      have hnot : ListAction.leaks E (k, act) = false := by
        cases act with
        | pushBack x val => exact absurd rfl (hback' x val)
        | pushBackMove x val => exact absurd rfl (hmove' x val)
        | _ => rfl
      rw [hnot]
      rfl

lemma booked_run {c c' : Reference α × List Ptr} {ls : List (Option ℕ × ListAction α)}
    (h : Steps (Booked E) c ls c') : Steps Reference.Step c.1 ls c'.1 ∧
      c'.2.length = c.2.length + ls.countP (ListAction.leaks E) := by
  induction h with
  | nil c => exact ⟨.nil c.1, rfl⟩
  | cons hl _ ih =>
    obtain ⟨hsteps, hlength⟩ := ih
    refine ⟨.cons hl.1 hsteps, ?_⟩
    rw [hlength, hl.2, List.countP_cons]
    omega

/-- The blocks of a program with lists: each was handed out once, and is a node of a list, was given
back once, or is lost. -/
structure Accounts (p : ListPool α) (a : Reference α) (lost : List Ptr) : Prop where
  once : (allocated p.mem.trace).Nodup
  released : released p.mem.trace = a.removed
  releasedOnce : a.removed.Nodup
  nodup : lost.Nodup
  covers : ∀ q, q ∈ allocated p.mem.trace ↔ a.HasNode q ∨ q ∈ a.removed ∨ q ∈ lost
  node : ∀ q, a.HasNode q → q ∉ a.removed ∧ q ∉ lost
  removed : ∀ q ∈ a.removed, q ∉ lost

lemma Accounted.accounts (hA : Accounted p a lost) (h : Sound p a) : Accounts p a lost where
  once := hA.once
  released := h.removed
  releasedOnce := h.once
  nodup := hA.nodup
  covers q := by
    by_cases hq : q = .null
    · subst hq
      refine iff_of_false (fun hmem => ?_) ?_
      · obtain ⟨b, hb, -⟩ := hA.handed _ hmem
        cases hb
      · rintro (hnode | hremoved | hlost)
        · exact h.live hnode h.heap.null
        · rw [← h.removed] at hremoved
          exact h.heap.null_not_released hremoved
        · exact (hA.apart _ hlost).1 rfl
    · rw [hA.covers q hq, Reference.Known, or_assoc, or_assoc]
      exact or_iff_right hq
  node q hq := ⟨fun hremoved => h.live hq (h.removed_dead hremoved),
    fun hlost => (hA.apart q hlost).2 (Or.inr (Or.inl hq))⟩
  removed q hq := fun hlost => (hA.apart q hlost).2 (Or.inr (Or.inr hq))

/-- A run with a copy that throws, into the parameter and then into the node, and an allocation that
fails. -/
def losses : List (Option ℕ × ListAction ℕ) :=
  [(none, .default 0), (none, .pushBack 0 10), (some 1, .pushBack 0 11), (some 2, .pushBack 0 12),
    (some 0, .pushBack 0 13), (some 3, .pushBack 0 14), (none, .popBack 0), (none, .clear 0)]

/-- Values whose copies may throw. -/
def copied : Element ℕ := { Element.plain 0 id with copyThrows := true }

end ListPool

end Voxory
