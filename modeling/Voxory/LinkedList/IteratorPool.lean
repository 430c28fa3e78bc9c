import Voxory.LinkedList.Iterators

/-!
# A program with lists and iterators

Iterators are used between any operations on the lists. An iterator stays at its node while other
nodes come and go and while its list becomes another one by move assignment, and the uses that the
program survives are those of iterators that are at a node.
-/

namespace Voxory
open Cxx Chain Machine

/-- The lists of a program and its iterators, under names of their own. -/
structure IteratorPool (α : Type) where
  lists : ListPool α
  iter : ℕ → Option ListIterator

inductive IteratorAction (α : Type) where
  | list (act : ListAction α)
  | begin (i x : ℕ)
  | past (i x : ℕ)
  | copy (i j : ℕ)
  | increment (i : ℕ)
  | decrement (i : ℕ)
  | addAssign (i : ℕ) (off : ℤ)
  | subAssign (i : ℕ) (off : ℤ)
  | assignValue (i : ℕ) (val : α)

namespace IteratorPool

variable {α β : Type}

def start (nullOnZero : Bool) : IteratorPool α := ⟨Objects.start nullOnZero, fun _ => none⟩

def arm (fuse : Option ℕ) (p : IteratorPool α) : IteratorPool α :=
  { p with lists := p.lists.arm fuse }

/-- Code that concerns the lists. -/
def onLists (m : Code (ListPool α) β) : Code (IteratorPool α) β :=
  m.zoom lists (fun q p => { p with lists := q })

/-- Code that concerns the iterators. -/
def onIterators (m : Code (Objects (Node α) ListIterator) β) : Code (IteratorPool α) β :=
  m.zoom (fun p => ⟨p.lists.mem, p.iter⟩) (fun q p => ⟨⟨q.mem, p.lists.obj⟩, q.obj⟩)

/-- Where a step of the program leads: an exception is caught and the program goes on. -/
def after (o : Outcome (IteratorPool α) β) : Option (IteratorPool α) :=
  match o with
  | .returned _ p => some p
  | .threw p => some p
  | .terminated => none
  | .fault _ => none

/-- `for (auto& e : x)`; returns the values it goes through. -/
def rangeFor (debug : Bool) (x : ℕ) : Code (IteratorPool α) (List α) := do
  let l ← onLists (Objects.fields x)
  let vs ← onIterators (Objects.temporary l.first (do
    let rounds ← handedOut
    ListIterator.values debug rounds l.first))
  pure vs.1

end IteratorPool

namespace IteratorAction

variable {α : Type}

open IteratorPool Objects

def code (E : Element α) (debug : Bool) : IteratorAction α → Code (IteratorPool α) Unit
  | .list act => onLists (act.code E)
  | .begin i x => do
    let l ← onLists (fields x)
    onIterators (put i (some l.first))
  | .past i x => do
    let _ ← onLists (fields x)
    onIterators (put i (some Ptr.null))
  | .copy i j => do
    let q ← onIterators (fields j)
    onIterators (put i (some q))
  | .increment i => onIterators (member i (ListIterator.increment debug))
  | .decrement i => onIterators (member i (ListIterator.decrement debug))
  | .addAssign i off => onIterators (member i (ListIterator.addAssign debug off))
  | .subAssign i off => onIterators (member i (ListIterator.subAssign debug off))
  | .assignValue i val => onIterators (member i (ListIterator.assignValue E debug val))

/-- An action uses lists and iterators that exist, and `-=` an offset that has a negative. -/
def Legal (p : IteratorPool α) : IteratorAction α → Prop
  | .list act => act.Legal p.lists
  | .begin _ x | .past _ x => (p.lists.obj x).isSome
  | .copy _ j => (p.iter j).isSome
  | .increment i | .decrement i | .addAssign i _ | .assignValue i _ => (p.iter i).isSome
  | .subAssign i off => (p.iter i).isSome ∧ -2 ^ 63 < off

instance (p : IteratorPool α) (act : IteratorAction α) : Decidable (act.Legal p) :=
  match act with
  | .list act => inferInstanceAs (Decidable (act.Legal p.lists))
  | .begin _ x => inferInstanceAs (Decidable ((p.lists.obj x).isSome = true))
  | .past _ x => inferInstanceAs (Decidable ((p.lists.obj x).isSome = true))
  | .copy _ j => inferInstanceAs (Decidable ((p.iter j).isSome = true))
  | .increment i => inferInstanceAs (Decidable ((p.iter i).isSome = true))
  | .decrement i => inferInstanceAs (Decidable ((p.iter i).isSome = true))
  | .addAssign i _ => inferInstanceAs (Decidable ((p.iter i).isSome = true))
  | .subAssign i off => inferInstanceAs (Decidable ((p.iter i).isSome = true ∧ -2 ^ 63 < off))
  | .assignValue i _ => inferInstanceAs (Decidable ((p.iter i).isSome = true))

/-- From `q` there is a node of a list, or a place before or after its nodes, `off` places on. -/
def Within (p : IteratorPool α) (q : Ptr) (off : ℤ) : Prop :=
  off = 0 ∨ ∃ x l, p.lists.obj x = some l ∧ ∃ i j : ℕ,
    (ListAction.nodesOf p.lists l)[i]? = some q ∧ (i : ℤ) + 1 + off = j ∧
      j < (ListAction.nodesOf p.lists l).length + 2

/-- An iterator that is used is at a node, from which it gets no further than one place beyond the
nodes of the list. -/
def InPlace (p : IteratorPool α) : IteratorAction α → Prop
  | .list _ | .begin _ _ | .past _ _ | .copy _ _ => True
  | .increment i => ∀ q ∈ p.iter i, Within p q 1
  | .decrement i => ∀ q ∈ p.iter i, Within p q (-1)
  | .addAssign i off => ∀ q ∈ p.iter i, Within p q off
  | .subAssign i off => ∀ q ∈ p.iter i, Within p q (-off)
  | .assignValue i _ => ∀ q ∈ p.iter i, ∃ x l, p.lists.obj x = some l ∧
      q ∈ ListAction.nodesOf p.lists l

end IteratorAction

namespace Reference

variable {α : Type} {a a' : Reference α} {q r : Ptr} {x : ℕ} {off : ℤ}

/-- `q` is a node of a list. -/
def HasNode (a : Reference α) (q : Ptr) : Prop := ∃ x xs, a.nodes x = some xs ∧ q ∈ keys xs

/-- An address that an iterator can have. -/
def Known (a : Reference α) (q : Ptr) : Prop := q = .null ∨ a.HasNode q ∨ q ∈ a.removed

/-- `q` is a node with the value `v`. -/
def Value (a : Reference α) (q : Ptr) (v : α) : Prop := ∃ x xs, a.nodes x = some xs ∧ (q, v) ∈ xs

/-- `r` is `off` places on from `q`, in a list that lies between two null pointers. -/
def Moves (a : Reference α) (q : Ptr) (off : ℤ) (r : Ptr) : Prop :=
  (off = 0 ∧ r = q) ∨ ∃ x xs, a.nodes x = some xs ∧ ∃ i j : ℕ, (keys xs)[i]? = some q ∧
    (i : ℤ) + 1 + off = j ∧ (spots .null (keys xs) .null)[j]? = some r

lemma update_nodes_ne {y : ℕ} (hyx : y ≠ x) (c : Option (List (Ptr × α))) (gone : List Ptr) :
    (a.update x c gone).nodes y = a.nodes y := Function.update_of_ne hyx _ _

lemma Value.hasNode {v : α} (h : a.Value q v) : a.HasNode q := by
  obtain ⟨x, xs, hx, hq⟩ := h
  exact ⟨x, xs, hx, List.mem_map_of_mem hq⟩

lemma Moves.known (h : a.Moves q off r) (hq : a.Known q) : a.Known r := by
  rcases h with ⟨-, rfl⟩ | ⟨x, xs, hx, i, j, -, -, hr⟩
  · exact hq
  · have hmem := List.mem_of_getElem? hr
    simp only [spots, List.cons_append, List.mem_cons, List.mem_append, List.not_mem_nil,
      or_false] at hmem
    rcases hmem with hnull | hmem | hnull
    · exact Or.inl hnull
    · exact Or.inr (Or.inl ⟨x, xs, hx, hmem⟩)
    · exact Or.inl hnull

lemma Known.update {c : Option (List (Ptr × α))} {gone : List Ptr} (h : a.Known q)
    (hx : ∀ xs, a.nodes x = some xs → q ∈ keys xs → (a.update x c gone).Known q) :
    (a.update x c gone).Known q := by
  rcases h with hnull | ⟨y, ys, hy, hq⟩ | hq
  · exact Or.inl hnull
  · by_cases hyx : y = x
    · rw [hyx] at hy
      exact hx ys hy hq
    · refine Or.inr (Or.inl ⟨y, ys, ?_, hq⟩)
      rw [update_nodes_ne hyx, hy]
  · exact Or.inr (Or.inr (List.mem_append_right _ hq))

lemma known_gone {c : Option (List (Ptr × α))} {gone : List Ptr} (hq : q ∈ gone) :
    (a.update x c gone).Known q := Or.inr (Or.inr (List.mem_append_left _ hq))

lemma known_kept {ys : List (Ptr × α)} {gone : List Ptr} (hq : q ∈ keys ys) :
    (a.update x (some ys) gone).Known q :=
  Or.inr (Or.inl ⟨x, ys, Function.update_self _ _ _, hq⟩)

lemma Step.known {l : Option ℕ × ListAction α} (h : a.Step l a')
    (hfree : ∀ x, l.2 = .default x → a.nodes x = none) (hq : a.Known q) : a'.Known q := by
  obtain ⟨k, act⟩ := l
  have hpush : ∀ x val, a.Appends k x val a' → a'.Known q := by
    rintro x val ⟨xs, hx, ⟨-, rfl⟩ | ⟨p, -, -, rfl⟩⟩
    · exact hq
    · refine hq.update (fun xs' hx' hmem => known_kept ?_)
      cases hx.symm.trans hx'
      rw [keys_append]
      exact List.mem_append_left _ hmem
  cases act with
  | default x =>
    obtain rfl : a' = _ := h
    refine hq.update (fun xs hx => ?_)
    rw [hfree x rfl] at hx
    cases hx
  | pushBack x val => exact hpush x val h
  | pushBackMove x val => exact hpush x val h
  | popBack x =>
    obtain ⟨xs, hx, rfl⟩ := h
    refine hq.update (fun xs' hx' hmem => ?_)
    cases hx.symm.trans hx'
    rcases List.eq_nil_or_concat xs with rfl | ⟨ys, y, rfl⟩
    · cases hmem
    · rw [List.concat_eq_append] at hmem ⊢
      rw [keys_append, List.mem_append] at hmem
      rw [List.dropLast_concat, List.getLast?_concat]
      exact hmem.elim known_kept (fun hy => known_gone hy)
  | popAt x loc =>
    obtain ⟨xs, val, ys, hx, rfl⟩ := h
    refine hq.update (fun xs' hx' hmem => ?_)
    cases hx.symm.trans hx'
    rw [keys_append, keys_cons, List.mem_append, List.mem_cons] at hmem
    rcases hmem with hmem | rfl | hmem
    · exact known_kept (by rw [keys_append]; exact List.mem_append_left _ hmem)
    · exact known_gone List.mem_cons_self
    · exact known_kept (by rw [keys_append]; exact List.mem_append_right _ hmem)
  | clear x =>
    obtain ⟨xs, hx, rfl⟩ := h
    refine hq.update (fun xs' hx' hmem => known_gone ?_)
    cases hx.symm.trans hx'
    exact List.mem_reverse.mpr hmem
  | moveAssign x y =>
    by_cases hxy : x = y
    · obtain rfl : a' = a := (if_pos hxy).mp h
      exact hq
    · obtain ⟨xs, ys, hx, hy, rfl⟩ := (if_neg hxy).mp h
      have hfirst : (a.update x (some ys) (keys xs).reverse).Known q := by
        refine hq.update (fun xs' hx' hmem => known_gone ?_)
        cases hx.symm.trans hx'
        exact List.mem_reverse.mpr hmem
      refine hfirst.update (fun ys' hy' hmem => Or.inr (Or.inl ⟨x, ys, ?_, ?_⟩))
      · rw [update_nodes_ne hxy]
        exact Function.update_self _ _ _
      · rw [update_nodes_ne (Ne.symm hxy)] at hy'
        cases hy.symm.trans hy'
        exact hmem
  | destroy x =>
    obtain ⟨xs, hx, rfl⟩ := h
    refine hq.update (fun xs' hx' hmem => known_gone ?_)
    cases hx.symm.trans hx'
    exact List.mem_reverse.mpr hmem

end Reference

namespace ListPool

variable {α : Type} {p : ListPool α} {a : Reference α} {q r : Ptr} {off : ℤ} {x : ℕ}
  {xs : List (Ptr × α)}

open Objects LinkedList

namespace Sound

lemma object_of_value {v : α} (h : Sound p a) (hq : a.Value q v) :
    ∃ n, p.mem.object q = some n ∧ n.data = v := by
  obtain ⟨x, xs, hx, hmem⟩ := hq
  obtain ⟨ys, zs, rfl⟩ := List.append_of_mem hmem
  exact ⟨_, (h.onHeap x _ hx).linked.at, rfl⟩

lemma value_of_object {n : Node α} (h : Sound p a) (hq : a.Known q)
    (hn : p.mem.object q = some n) : a.Value q n.data := by
  rcases hq with rfl | ⟨x, xs, hx, hmem⟩ | hq
  · rw [h.heap.null] at hn
    cases hn
  · obtain ⟨y, hy, rfl⟩ := List.mem_map.mp hmem
    obtain ⟨ys, zs, rfl⟩ := List.append_of_mem hy
    rw [(h.onHeap x _ hx).linked.at] at hn
    cases hn
    exact ⟨x, _, hx, hy⟩
  · rw [← h.removed] at hq
    exact absurd hq (h.heap.not_released (by rw [hn]; rfl))

lemma removed_dead (h : Sound p a) (hq : q ∈ a.removed) : p.mem.object q = none := by
  by_contra hn
  rw [← h.removed] at hq
  exact h.heap.not_released (Option.isSome_iff_ne_none.mpr hn) hq

lemma strideBy_of_moves (h : Sound p a) (hq : a.Moves q off r) :
    strideBy p.mem.object off q = some r := by
  rcases hq with ⟨rfl, rfl⟩ | ⟨x, xs, hx, i, j, hi, hj, hr⟩
  · rfl
  · exact ((h.onHeap x xs hx).linked.strideBy_iff h.heap.null h.heap.null hi).mpr ⟨j, hj, hr⟩

lemma strideBy_iff (h : Sound p a) (hq : a.Known q) :
    strideBy p.mem.object off q = some r ↔ a.Moves q off r := by
  refine ⟨fun hr => ?_, h.strideBy_of_moves⟩
  rcases hq with rfl | ⟨x, xs, hx, hmem⟩ | hq
  · exact Or.inl ((strideBy_dead h.heap.null).mp hr)
  · obtain ⟨i, hi⟩ := List.mem_iff_getElem?.mp hmem
    have hlinked := (h.onHeap x xs hx).linked
    obtain ⟨j, hj, hr⟩ := (hlinked.strideBy_iff h.heap.null h.heap.null hi).mp hr
    exact Or.inr ⟨x, xs, hx, i, j, hi, hj, hr⟩
  · exact Or.inl ((strideBy_dead (h.removed_dead hq)).mp hr)

lemma strideBy_none (h : Sound p a) (hq : a.Known q) (hno : ¬∃ r, a.Moves q off r) :
    strideBy p.mem.object off q = none := by
  by_contra hn
  obtain ⟨r, hr⟩ := Option.ne_none_iff_exists'.mp hn
  exact hno ⟨r, (h.strideBy_iff hq).mp hr⟩

lemma links (h : Sound p a) {n : Node α} (hq : q = .null ∨ a.HasNode q)
    (hn : p.mem.object q = some n) : (n.next = .null ∨ a.HasNode n.next) ∧
      (n.last = .null ∨ a.HasNode n.last) := by
  rcases hq with rfl | ⟨x, xs, hx, hmem⟩
  · rw [h.heap.null] at hn
    cases hn
  · have hlinks := (h.onHeap x xs hx).linked.links hmem hn
    exact ⟨hlinks.1.symm.imp_right (fun hq => ⟨x, xs, hx, hq⟩),
      hlinks.2.symm.imp_right (fun hq => ⟨x, xs, hx, hq⟩)⟩

lemma live (h : Sound p a) (hq : a.HasNode q) : p.mem.object q ≠ none := by
  obtain ⟨x, xs, hx, hmem⟩ := hq
  exact Option.isSome_iff_ne_none.mp ((h.onHeap x xs hx).linked.isSome hmem)

lemma nodesOf_eq (h : Sound p a) (hx : a.nodes x = some xs) :
    ListAction.nodesOf p (ofNodes xs) = keys xs :=
  (h.onHeap x xs hx).linked.follows_next.walk_eq h.heap.null
    (h.heap.length_le (h.onHeap x xs hx).nodup
      (fun _ hq => (h.onHeap x xs hx).linked.isSome hq))

lemma assigned {v w : α} {n : Node α} {ys zs : List (Ptr × α)} {s' : State (Node α) ListIterator}
    {it : ListIterator} (h : Sound p a) (hx : a.nodes x = some (ys ++ (q, v) :: zs))
    (hn : p.mem.object q = some n)
    (hs : Turns ⟨p.mem, it⟩ (Function.update p.mem.object q (some { n with data := w })) [] s') :
    Sound ⟨s'.mem, p.obj⟩ (a.update x (some (ys ++ (q, w) :: zs)) []) := by
  have hlist := h.onHeap x _ hx
  have hkeys : keys (ys ++ (q, w) :: zs) = keys (ys ++ (q, v) :: zs) := by
    simp only [keys_append, keys_cons]
  have hnode : n = ⟨v, front zs .null, back .null ys⟩ :=
    Option.some.inj (hn.symm.trans hlist.linked.at)
  have hnodup := hlist.nodup
  rw [keys_append, keys_cons, List.nodup_middle, List.nodup_cons, List.mem_append, not_or] at hnodup
  have hfields : Function.update p.obj x (some (ofNodes (ys ++ (q, w) :: zs))) = p.obj := by
    have hsame : ofNodes (ys ++ (q, w) :: zs) = ofNodes (ys ++ (q, v) :: zs) := by
      simp only [ofNodes, front_congr hkeys, back_congr hkeys, List.length_append,
        List.length_cons]
    rw [hsame, Function.update_eq_self_iff, h.fields, hx]
    rfl
  rw [← hfields]
  refine h.replace (c := some (ys ++ (q, w) :: zs)) hs.heap ?_ ?_ ?_ hs.released List.nodup_nil
    (fun r hr => absurd hr List.not_mem_nil)
  · intro xs' hxs'
    cases hxs'
    refine ⟨?_, by rw [hkeys]; exact hlist.nodup⟩
    rw [hs.object, hnode]
    exact hlist.linked.setData hnodup.1.1 hnodup.1.2
  · intro y ys' hyx hy r hr
    have hrq : r ≠ q := by
      rintro rfl
      exact h.apart y x ys' _ hyx hy hx hr (by simp)
    rw [hs.object, Function.update_of_ne hrq]
  · intro y ys' xs' hyx hy hxs'
    cases hxs'
    rw [hkeys]
    exact (h.apart y x ys' _ hyx hy hx).symm

end Sound

end ListPool

/-- The lists as sequences, and the places of the iterators. -/
structure Positions (α : Type) where
  lists : Reference α
  iter : ℕ → Option Ptr

namespace Positions

variable {α : Type}

def start : Positions α := ⟨Reference.start, fun _ => none⟩

def place (a : Positions α) (i : ℕ) (q : Ptr) : Positions α :=
  { a with iter := Function.update a.iter i (some q) }

/-- The iterator `i` goes `off` places on. -/
def Goes (a : Positions α) (i : ℕ) (off : ℤ) (a' : Positions α) : Prop :=
  ∃ q r, a.iter i = some q ∧ a.lists.Moves q off r ∧ a' = a.place i r

/-- The same action on sequences and places in them. An assignment that throws changes nothing. -/
def Step (a : Positions α) (l : Option ℕ × IteratorAction α) (a' : Positions α) : Prop :=
  match l.2 with
  | .list act => a.lists.Step (l.1, act) a'.lists ∧ a'.iter = a.iter
  | .begin i x => ∃ xs, a.lists.nodes x = some xs ∧ a' = a.place i (front xs .null)
  | .past i _ => a' = a.place i .null
  | .copy i j => ∃ q, a.iter j = some q ∧ a' = a.place i q
  | .increment i => a.Goes i 1 a'
  | .decrement i => a.Goes i (-1) a'
  | .addAssign i off => a.Goes i off a'
  | .subAssign i off => a.Goes i (-off) a'
  | .assignValue i val => a'.iter = a.iter ∧ ∃ q x ys v zs, a.iter i = some q ∧
      a.lists.nodes x = some (ys ++ (q, v) :: zs) ∧ ((l.1 ≠ none ∧ a'.lists = a.lists) ∨
        a'.lists = a.lists.update x (some (ys ++ (q, val) :: zs)) [])

end Positions

namespace IteratorPool

variable {α : Type}

open Objects

def next (E : Element α) (debug : Bool) (p : IteratorPool α) (l : Option ℕ × IteratorAction α) :
    Option (IteratorPool α) :=
  if l.2.Legal p then after (l.2.code E debug (p.arm l.1)) else none

structure Sound (p : IteratorPool α) (a : Positions α) : Prop where
  lists : ListPool.Sound p.lists a.lists
  iter : p.iter = a.iter
  known : ∀ i q, a.iter i = some q → a.lists.Known q

variable {E : Element α} {debug : Bool} {p p' : IteratorPool α} {a : Positions α} {i x : ℕ}
  {q r : Ptr} {off : ℤ}

lemma after_zoom {β ρ : Type} (part : IteratorPool α → Objects (Node α) ρ)
    (put : Objects (Node α) ρ → IteratorPool α → IteratorPool α) (m : Code (Objects (Node α) ρ) β)
    (p : IteratorPool α) :
    after (m.zoom part put p) = (Objects.after (m (part p))).map (fun q => put q p) := by
  rw [Code.zoom]
  cases m (part p) <;> rfl

lemma member_lost {β : Type} {m : ListIterator.Method α β} {it : ListIterator}
    (hi : p.iter i = some it) (h : ListIterator.Lost debug q (m ⟨p.lists.mem, it⟩)) :
    ListIterator.Lost debug q (onIterators (member i m) p) := by
  unfold ListIterator.Lost at h ⊢
  split_ifs at h ⊢ with hdebug
  · simp only [onIterators, Code.zoom, member, hi, h]
  · obtain ⟨why, hwhy⟩ := h
    exact ⟨why, by simp only [onIterators, Code.zoom, member, hi, hwhy]⟩

lemma onIterators_run {β : Type} {m : Code (Objects (Node α) ListIterator) β} {b : β}
    {o : Objects (Node α) ListIterator} (h : m ⟨p.lists.mem, p.iter⟩ = .returned b o) :
    onIterators m p = .returned b ⟨⟨o.mem, p.lists.obj⟩, o.obj⟩ := by
  simp only [onIterators, Code.zoom, h]

lemma member_reads {β : Type} {m : ListIterator.Method α β} {it : ListIterator} {b : β}
    (hi : p.iter i = some it) (h : m ⟨p.lists.mem, it⟩ = .returned b ⟨p.lists.mem, it⟩) :
    onIterators (member i m) p = .returned b p := by
  have hsame : Function.update p.iter i (some it) = p.iter := by
    rw [← hi, Function.update_eq_self]
  simp only [onIterators, Code.zoom, member, hi, h, hsame]

lemma after_lost {β : Type} {o : Outcome (IteratorPool α) β} (h : ListIterator.Lost debug q o) :
    after o = none := by
  unfold ListIterator.Lost at h
  split_ifs at h
  · rw [h]
    rfl
  · obtain ⟨why, rfl⟩ := h
    rfl

/-- How a use of an iterator ends, where `ok` says that it is a use of a node, and `stale` that the
node of the iterator was removed. -/
structure Checked {σ β : Type} (debug : Bool) (ok stale : Prop) (o : Outcome σ β) : Prop where
  returned : (∃ b s, o = .returned b s) ↔ ok
  stopped : o = .terminated ↔ ¬ok ∧ ¬stale ∧ debug = true
  undefined : (∃ why, o = .fault why) ↔ ¬ok ∧ (stale ∨ debug = false)

lemma Checked.of_returned {σ β : Type} {ok stale : Prop} {o : Outcome σ β} {b : β} {s : σ}
    (hok : ok) (h : o = .returned b s) : Checked debug ok stale o := by
  subst h
  refine ⟨iff_of_true ⟨b, s, rfl⟩ hok, iff_of_false (fun h => ?_) (fun h => h.1 hok),
    iff_of_false (fun h => ?_) (fun h => h.1 hok)⟩
  · cases h
  · obtain ⟨why, hwhy⟩ := h
    cases hwhy

lemma Checked.of_lost {σ β : Type} {ok stale : Prop} {o : Outcome σ β} (hok : ¬ok)
    (hstale : q = .null ↔ ¬stale) (h : ListIterator.Lost debug q o) : Checked debug ok stale o := by
  have hreturned : ¬∃ b s, o = .returned b s := by
    rintro ⟨b, s, hb⟩
    exact h.not_returned hb
  unfold ListIterator.Lost at h
  split_ifs at h with hq
  · have hfresh := hstale.mp hq.2
    subst h
    refine ⟨iff_of_false hreturned hok, iff_of_true rfl ⟨hok, hfresh, hq.1⟩,
      iff_of_false (fun hf => ?_) (fun hf => ?_)⟩
    · obtain ⟨why, hwhy⟩ := hf
      cases hwhy
    · exact hf.2.elim hfresh (fun hdebug => by rw [hq.1] at hdebug; cases hdebug)
  · obtain ⟨why, rfl⟩ := h
    refine ⟨iff_of_false hreturned hok, iff_of_false (fun hf => ?_) (fun hf => ?_),
      iff_of_true ⟨why, rfl⟩ ⟨hok, ?_⟩⟩
    · cases hf
    · exact hq ⟨hf.2.2, hstale.mpr hf.2.1⟩
    · by_cases hs : stale
      · exact Or.inl hs
      · refine Or.inr (Bool.eq_false_iff.mpr (fun hdebug => hq ⟨hdebug, hstale.mpr hs⟩))

namespace Sound

lemma start (z : Bool) : Sound (start z : IteratorPool α) Positions.start :=
  ⟨ListPool.Sound.start z, rfl, fun _ _ h => nomatch h⟩

lemma arm (h : Sound p a) (k : Option ℕ) : Sound (p.arm k) a := ⟨h.lists.arm k, h.iter, h.known⟩

lemma place (h : Sound p a) (hq : a.lists.Known q) :
    Sound { p with iter := Function.update p.iter i (some q) } (a.place i q) := by
  refine ⟨h.lists, ?_, fun j r hr => ?_⟩
  · change Function.update p.iter i (some q) = Function.update a.iter i (some q)
    rw [h.iter]
  · change Function.update a.iter i (some q) j = some r at hr
    by_cases hji : j = i
    · rw [hji, Function.update_self] at hr
      cases hr
      exact hq
    · rw [Function.update_of_ne hji] at hr
      exact h.known j r hr

lemma list_step (h : Sound p a) {k : Option ℕ} {act : ListAction α} (hlegal : act.Legal p.lists) :
    ∃ p' a', after (onLists (act.code E) (p.arm k)) = some p' ∧ a.Step (k, .list act) a' ∧
      Sound p' a' := by
  obtain ⟨q, b, hnext, hstep, hsound⟩ := ListPool.step (E := E) (l := (k, act)) h.lists hlegal
  rw [ListPool.next, if_pos hlegal] at hnext
  refine ⟨⟨q, p.iter⟩, ⟨b, a.iter⟩, ?_, ⟨hstep, rfl⟩, hsound, h.iter, fun i r hr => ?_⟩
  · rw [onLists, after_zoom]
    change (Objects.after (act.code E (p.lists.arm k))).map _ = _
    rw [hnext]
    rfl
  · refine hstep.known (fun x hx => ?_) (h.known i r hr)
    obtain rfl : act = .default x := hx
    have hnone : p.lists.obj x = none := hlegal
    rw [h.lists.fields] at hnone
    exact Option.map_eq_none_iff.mp hnone

lemma addAssign_run (h : Sound p a) (hi : p.iter i = some q) (hq : a.lists.Moves q off r) :
    onIterators (member i (ListIterator.addAssign debug off)) p =
      .returned () { p with iter := Function.update p.iter i (some r) } :=
  onIterators_run (member_run hi
    (ListIterator.addAssign_run h.lists.heap (h.lists.strideBy_of_moves hq)))

/-- An iterator is at null, at a node or at a removed node, and not at two of them. -/
lemma null_iff (h : Sound p a) (hq : a.lists.Known q) (hnode : ¬a.lists.HasNode q) :
    q = .null ↔ q ∉ a.lists.removed := by
  refine ⟨?_, fun hne => hq.resolve_right (fun hr => hr.elim hnode hne)⟩
  rintro rfl
  rw [← h.lists.removed]
  exact h.lists.heap.null_not_released

lemma followBy_lost {s : State (Node α) ListIterator} (h : Sound p a) (debug : Bool)
    (hmem : s.mem = p.lists.mem)
    (hq : a.lists.Known q) (hno : ¬∃ r, a.lists.Moves q off r) :
    ∃ r, (r = .null ↔ q ∉ a.lists.removed) ∧
      ListIterator.Lost debug r (ListIterator.followBy debug off q s) := by
  have hs : Heap s.mem := by rw [hmem]; exact h.lists.heap
  have hnone : strideBy s.mem.object off q = none := by
    rw [hmem]
    exact h.lists.strideBy_none hq hno
  by_cases hr : q ∈ a.lists.removed
  · obtain ⟨r, rfl, -, hlost⟩ := ListIterator.followBy_lost (P := fun r => r = q) debug hs
      (fun r n hrq hn => by
        rw [hmem, hrq, h.lists.removed_dead hr] at hn
        cases hn) rfl hnone
    refine ⟨r, iff_of_false ?_ (not_not_intro hr), hlost⟩
    rintro rfl
    rw [← h.lists.removed] at hr
    exact h.lists.heap.null_not_released hr
  · obtain ⟨r, hnode, hdead, hlost⟩ := ListIterator.followBy_lost
      (P := fun r => r = .null ∨ a.lists.HasNode r) debug hs
      (fun r n hr hn => h.lists.links hr (by rw [← hmem]; exact hn))
      (hq.imp_right (fun hq => hq.resolve_right hr)) hnone
    rw [hmem] at hdead
    exact ⟨r, iff_of_true (hnode.resolve_right (fun hn => h.lists.live hn hdead)) hr, hlost⟩

lemma addAssign_lost (h : Sound p a) (hi : p.iter i = some q) (debug : Bool)
    (hno : ¬∃ r, a.lists.Moves q off r) : ∃ r, (r = .null ↔ q ∉ a.lists.removed) ∧
      ListIterator.Lost debug r (onIterators (member i (ListIterator.addAssign debug off)) p) := by
  have hq : a.lists.Known q := h.known i q (by rw [← h.iter, hi])
  obtain ⟨r, hnull, hlost⟩ := h.followBy_lost debug (s := ⟨p.lists.mem, q⟩) rfl hq hno
  exact ⟨r, hnull, member_lost hi hlost.bind⟩

/-- `+=` returns where there is a place to go to. Where there is none, the assertions stop it,
unless they are not compiled or the node of the iterator was removed. -/
lemma addAssign_checked (h : Sound p a) (hi : p.iter i = some q) (debug : Bool) (off : ℤ) :
    Checked debug (∃ r, a.lists.Moves q off r) (q ∈ a.lists.removed)
      (onIterators (member i (ListIterator.addAssign debug off)) p) := by
  by_cases hr : ∃ r, a.lists.Moves q off r
  · have hok := hr
    obtain ⟨r, hr⟩ := hr
    exact .of_returned hok (h.addAssign_run hi hr)
  · obtain ⟨r, hnull, hlost⟩ := h.addAssign_lost hi debug hr
    exact .of_lost hr hnull hlost

lemma deref_run {v : α} (h : Sound p a) (hi : p.iter i = some q) (hv : a.lists.Value q v) :
    onIterators (member i (ListIterator.deref debug)) p = .returned v p := by
  obtain ⟨n, hn, rfl⟩ := h.lists.object_of_value hv
  exact member_reads hi (ListIterator.deref_run (s := ⟨p.lists.mem, q⟩) h.lists.heap hn)

lemma deref_checked (h : Sound p a) (hi : p.iter i = some q) (debug : Bool) :
    Checked debug (∃ v, a.lists.Value q v) (q ∈ a.lists.removed)
      (onIterators (member i (ListIterator.deref debug)) p) := by
  have hq : a.lists.Known q := h.known i q (by rw [← h.iter, hi])
  by_cases hv : ∃ v, a.lists.Value q v
  · have hok := hv
    obtain ⟨v, hv⟩ := hv
    exact .of_returned hok (h.deref_run hi hv)
  · have hdead : p.lists.mem.object q = none := by
      by_contra hn
      obtain ⟨n, hn⟩ := Option.ne_none_iff_exists'.mp hn
      exact hv ⟨n.data, h.lists.value_of_object hq hn⟩
    have hnull := h.null_iff hq (fun hnode => h.lists.live hnode hdead)
    exact .of_lost hv hnull
      (member_lost hi (ListIterator.deref_lost (s := ⟨p.lists.mem, q⟩) debug hdead))

lemma subscript_iff (h : Sound p a) (hi : p.iter i = some q) (debug : Bool) (off : ℤ) (v : α) :
    onIterators (member i (ListIterator.subscript debug off)) p = .returned v p ↔
      ∃ r, a.lists.Moves q off r ∧ a.lists.Value r v := by
  have hq : a.lists.Known q := h.known i q (by rw [← h.iter, hi])
  constructor
  · intro hrun
    cases hm : ListIterator.subscript debug off ⟨p.lists.mem, q⟩ with
    | returned w t =>
      obtain ⟨r, n, hr, hn, rfl⟩ := ListIterator.subscript_returned h.lists.heap hm
      simp only [onIterators, Code.zoom, member, hi, hm, Outcome.returned.injEq] at hrun
      obtain ⟨rfl, -⟩ := hrun
      have hmoves := (h.lists.strideBy_iff hq).mp hr
      exact ⟨r, hmoves, h.lists.value_of_object (hmoves.known hq) hn⟩
    | threw t => simp [onIterators, Code.zoom, member, hi, hm] at hrun
    | terminated => simp [onIterators, Code.zoom, member, hi, hm] at hrun
    | fault why => simp [onIterators, Code.zoom, member, hi, hm] at hrun
  · rintro ⟨r, hr, hv⟩
    obtain ⟨n, hn, rfl⟩ := h.lists.object_of_value hv
    exact member_reads hi (ListIterator.subscript_run (s := ⟨p.lists.mem, q⟩) h.lists.heap
      (h.lists.strideBy_of_moves hr) hn)

lemma rangeFor_run {xs : List (Ptr × α)} (h : Sound p a) (hx : a.lists.nodes x = some xs)
    (debug : Bool) : rangeFor debug x p = .returned (xs.map Prod.snd) p := by
  have hobj : p.lists.obj x = some (LinkedList.ofNodes xs) := by
    rw [h.lists.fields, hx]
    rfl
  have hheap := h.lists.onHeap x xs hx
  have hlength : xs.length ≤ p.lists.mem.fresh := by
    have hle := h.lists.heap.length_le hheap.nodup (fun _ hq => hheap.linked.isSome hq)
    rwa [keys, List.length_map] at hle
  have hvalues := ListIterator.values_run debug
    (s := ⟨p.lists.mem, front xs .null⟩) h.lists.heap hheap.linked hlength
  have hloop : (do
      let rounds ← handedOut
      ListIterator.values debug rounds (front xs .null) : ListIterator.Method α (List α))
        ⟨p.lists.mem, front xs .null⟩ = .returned (xs.map Prod.snd) ⟨p.lists.mem, front xs .null⟩ :=
    hvalues
  have hfields : onLists (fields x) p = .returned (LinkedList.ofNodes xs) p :=
    Code.zoom_returned (fields_run hobj)
  rw [rangeFor, Code.bind_returned hfields]
  exact Code.bind_returned (onIterators_run (temporary_run (p := ⟨p.lists.mem, p.iter⟩) hloop))

lemma within_iff (h : Sound p a) :
    IteratorAction.Within p q off ↔ ∃ r, a.lists.Moves q off r := by
  constructor
  · rintro (rfl | ⟨x, l, hl, i, j, hi, hj, hlt⟩)
    · exact ⟨q, Or.inl ⟨rfl, rfl⟩⟩
    · obtain ⟨xs, hx, rfl⟩ := h.lists.nodes hl
      rw [h.lists.nodesOf_eq hx] at hi hlt
      rw [← spots_length .null (keys xs) .null] at hlt
      exact ⟨_, Or.inr ⟨x, xs, hx, i, j, hi, hj, List.getElem?_eq_getElem hlt⟩⟩
  · rintro ⟨r, ⟨hoff, -⟩ | ⟨x, xs, hx, i, j, hi, hj, hr⟩⟩
    · exact Or.inl hoff
    · have hl : p.lists.obj x = some (LinkedList.ofNodes xs) := by
        rw [h.lists.fields, hx]
        rfl
      refine Or.inr ⟨x, _, hl, i, j, ?_, hj, ?_⟩
      · rw [h.lists.nodesOf_eq hx, hi]
      · rw [h.lists.nodesOf_eq hx, ← spots_length .null (keys xs) .null]
        exact (List.getElem?_eq_some_iff.mp hr).1

lemma goes (h : Sound p a) (hsome : (p.iter i).isSome)
    (hplace : ∀ q ∈ p.iter i, IteratorAction.Within p q off) :
    ∃ p' a', after (onIterators (member i (ListIterator.addAssign debug off)) p) = some p' ∧
      a.Goes i off a' ∧ Sound p' a' := by
  obtain ⟨q, hi⟩ := Option.isSome_iff_exists.mp hsome
  obtain ⟨r, hr⟩ := h.within_iff.mp (hplace q hi)
  have hia : a.iter i = some q := by rw [← h.iter, hi]
  refine ⟨_, _, congrArg after (h.addAssign_run hi hr), ⟨q, r, hia, hr, rfl⟩, ?_⟩
  exact h.place (hr.known (h.known i q hia))

lemma stuck (h : Sound p a) (hsome : (p.iter i).isSome)
    (hplace : ¬∀ q ∈ p.iter i, IteratorAction.Within p q off) :
    after (onIterators (member i (ListIterator.addAssign debug off)) p) = none := by
  obtain ⟨q, hi⟩ := Option.isSome_iff_exists.mp hsome
  have hno : ¬∃ r, a.lists.Moves q off r := by
    intro hr
    refine hplace (fun q' hq' => ?_)
    cases hi.symm.trans hq'
    exact h.within_iff.mpr hr
  obtain ⟨r, -, hlost⟩ := h.addAssign_lost hi debug hno
  exact after_lost hlost

lemma subscript_past (h : Sound p a) (hi : p.iter i = some q) (debug : Bool)
    (hr : a.lists.Moves q off r) (hv : ¬∃ v, a.lists.Value r v) :
    ∃ why, onIterators (member i (ListIterator.subscript debug off)) p = .fault why := by
  have hq : a.lists.Known q := h.known i q (by rw [← h.iter, hi])
  have hdead : p.lists.mem.object r = none := by
    by_contra hn
    obtain ⟨n, hn⟩ := Option.ne_none_iff_exists'.mp hn
    exact hv ⟨n.data, h.lists.value_of_object (hr.known hq) hn⟩
  obtain ⟨why, hwhy⟩ := ListIterator.subscript_past debug (s := ⟨p.lists.mem, q⟩)
    h.lists.heap (h.lists.strideBy_of_moves hr) hdead
  exact ⟨why, by simp only [onIterators, Code.zoom, member, hi, hwhy]⟩

lemma node_iff (h : Sound p a) : a.lists.HasNode q ↔
    ∃ x l, p.lists.obj x = some l ∧ q ∈ ListAction.nodesOf p.lists l := by
  constructor
  · rintro ⟨x, xs, hx, hq⟩
    refine ⟨x, LinkedList.ofNodes xs, ?_, ?_⟩
    · rw [h.lists.fields, hx]
      rfl
    · rwa [h.lists.nodesOf_eq hx]
  · rintro ⟨x, l, hl, hq⟩
    obtain ⟨xs, hx, rfl⟩ := h.lists.nodes hl
    rw [h.lists.nodesOf_eq hx] at hq
    exact ⟨x, xs, hx, hq⟩

lemma assigns {val : α} (h : Sound p a) (hsome : (p.iter i).isSome)
    (hplace : (IteratorAction.assignValue i val).InPlace p) :
    ∃ p' a', after (onIterators (member i (ListIterator.assignValue E debug val)) p) = some p' ∧
      a.Step (p.lists.mem.fuse, .assignValue i val) a' ∧ Sound p' a' := by
  obtain ⟨q, hi⟩ := Option.isSome_iff_exists.mp hsome
  obtain ⟨x, xs, hx, hq⟩ := h.node_iff.mpr (hplace q hi)
  have hia : a.iter i = some q := by rw [← h.iter, hi]
  obtain ⟨y, hy, rfl⟩ := List.mem_map.mp hq
  obtain ⟨ys, zs, rfl⟩ := List.append_of_mem hy
  have hn := (h.lists.onHeap x _ hx).linked.at
  have hrun : member i (ListIterator.assignValue E debug val) ⟨p.lists.mem, p.iter⟩ =
      member i (do
        mayThrow E.copyAssignThrows
        assign y.1 { (⟨y.2, front zs .null, back .null ys⟩ : Node α) with data := val })
        ⟨p.lists.mem, p.iter⟩ := by
    simp only [member, hi]
    rw [ListIterator.assignValue_eq (s := ⟨p.lists.mem, y.1⟩) E debug val h.lists.heap hn]
  obtain ⟨s', hafter, hends⟩ := member_after
    (p := (⟨p.lists.mem, p.iter⟩ : Objects (Node α) ListIterator)) hi
    (ListIterator.assignValue_ends (s := ⟨p.lists.mem, y.1⟩) E.copyAssignThrows val
      h.lists.heap hn)
    ((mayThrow_mild _).bind (fun _ => assign_mild _ _))
  have hself : s'.self = y.1 :=
    hends.elim (fun hs => hs.elim (fun _ hs => hs.self)) (fun hs => hs.1.self)
  have hsame : Function.update p.iter i (some s'.self) = p.iter := by
    rw [hself, ← hi, Function.update_eq_self]
  rw [onIterators, after_zoom, hrun, hafter]
  rcases hends with ⟨-, hs⟩ | ⟨hs, hfuse⟩
  · refine ⟨_, ⟨a.lists.update x (some (ys ++ (y.1, val) :: zs)) [], a.iter⟩, rfl,
      ⟨rfl, y.1, x, ys, y.2, zs, hia, hx, Or.inr rfl⟩, ?_⟩
    refine ⟨h.lists.assigned hx hn hs, hsame.trans h.iter, fun j r hr => ?_⟩
    refine (h.known j r hr).update (fun xs' hx' hmem => Reference.known_kept ?_)
    cases hx.symm.trans hx'
    simpa only [keys_append, keys_cons] using hmem
  · refine ⟨_, a, rfl, ⟨rfl, y.1, x, ys, y.2, zs, hia, hx, Or.inl ⟨hfuse, rfl⟩⟩, ?_⟩
    have hturns : Turns ⟨p.lists.mem, LinkedList.ofNodes (ys ++ y :: zs)⟩ p.lists.mem.object []
        ⟨s'.mem, LinkedList.ofNodes (ys ++ y :: zs)⟩ := ⟨hs.toReshapes, rfl⟩
    have hlists := h.lists.unchanged hx hturns
    have hobj : p.lists.obj x = some (LinkedList.ofNodes (ys ++ y :: zs)) := by
      rw [h.lists.fields, hx]
      rfl
    rw [← hobj, Function.update_eq_self] at hlists
    exact ⟨hlists, hsame.trans h.iter, h.known⟩

/-- Every action that is legal and in place is taken, as on sequences. -/
theorem step {l : Option ℕ × IteratorAction α} (h : Sound p a) (hlegal : l.2.Legal p)
    (hplace : l.2.InPlace p) :
    ∃ p' a', next E debug p l = some p' ∧ a.Step l a' ∧ Sound p' a' := by
  obtain ⟨k, act⟩ := l
  have ha := h.arm k
  rw [next, if_pos hlegal]
  cases act with
  | list act => exact h.list_step hlegal
  | begin i x =>
    obtain ⟨l, hl⟩ := Option.isSome_iff_exists.mp hlegal
    obtain ⟨xs, hx, rfl⟩ := h.lists.nodes hl
    have hfields : onLists (fields x) (p.arm k) = .returned (LinkedList.ofNodes xs) (p.arm k) :=
      Code.zoom_returned (fields_run hl)
    refine ⟨_, a.place i (front xs .null), ?_, ⟨xs, hx, rfl⟩, ha.place ?_⟩
    · rw [IteratorAction.code, Code.bind_returned hfields]
      rfl
    · cases xs with
      | nil => exact Or.inl rfl
      | cons y ys => exact Or.inr (Or.inl ⟨x, _, hx, List.mem_cons_self⟩)
  | past i x =>
    obtain ⟨l, hl⟩ := Option.isSome_iff_exists.mp hlegal
    have hfields : onLists (fields x) (p.arm k) = .returned l (p.arm k) :=
      Code.zoom_returned (fields_run hl)
    refine ⟨_, a.place i .null, ?_, rfl, ha.place (Or.inl rfl)⟩
    rw [IteratorAction.code, Code.bind_returned hfields]
    rfl
  | copy i j =>
    obtain ⟨q, hq⟩ := Option.isSome_iff_exists.mp hlegal
    have hqa : a.iter j = some q := by rw [← h.iter, hq]
    have hfields : onIterators (fields j) (p.arm k) = .returned q (p.arm k) :=
      onIterators_run (p := p.arm k) (fields_run hq)
    refine ⟨_, a.place i q, ?_, ⟨q, hqa, rfl⟩, ha.place (h.known j q hqa)⟩
    rw [IteratorAction.code, Code.bind_returned hfields]
    rfl
  | increment i =>
    rw [IteratorAction.code, ListIterator.increment_eq]
    exact ha.goes hlegal hplace
  | decrement i =>
    rw [IteratorAction.code, ListIterator.decrement_eq]
    exact ha.goes hlegal hplace
  | addAssign i off => exact ha.goes hlegal hplace
  | subAssign i off => exact ha.goes hlegal.1 hplace
  | assignValue i val => exact ha.assigns hlegal hplace

/-- A use of an iterator that is out of place ends the run. -/
theorem step_none {l : Option ℕ × IteratorAction α} (h : Sound p a) (hlegal : l.2.Legal p)
    (hplace : ¬l.2.InPlace p) : next E debug p l = none := by
  obtain ⟨k, act⟩ := l
  have ha := h.arm k
  rw [next, if_pos hlegal]
  cases act with
  | list act => exact absurd trivial hplace
  | begin i x => exact absurd trivial hplace
  | past i x => exact absurd trivial hplace
  | copy i j => exact absurd trivial hplace
  | increment i =>
    rw [IteratorAction.code, ListIterator.increment_eq]
    exact ha.stuck hlegal hplace
  | decrement i =>
    rw [IteratorAction.code, ListIterator.decrement_eq]
    exact ha.stuck hlegal hplace
  | addAssign i off => exact ha.stuck hlegal hplace
  | subAssign i off => exact ha.stuck hlegal.1 hplace
  | assignValue i val =>
    obtain ⟨q, hi⟩ := Option.isSome_iff_exists.mp hlegal
    have hdead : p.lists.mem.object q = none := by
      by_contra hn
      obtain ⟨n, hn⟩ := Option.ne_none_iff_exists'.mp hn
      refine hplace (fun q' hq' => ?_)
      cases hi.symm.trans hq'
      have hq := h.lists.value_of_object (h.known i q (by rw [← h.iter, hi])) hn
      exact h.node_iff.mp hq.hasNode
    exact after_lost (member_lost (p := p.arm k) hi
      (ListIterator.assignValue_lost (s := ⟨(p.arm k).lists.mem, q⟩) E debug val hdead))

end Sound

lemma sound_of_run {z : Bool} {ls : List (Option ℕ × IteratorAction α)}
    (h : Along (next E debug) (fun p l => l.2.Legal p) (IteratorPool.start z) ls)
    (hrun : run (next E debug) (IteratorPool.start z) ls = some p') :
    ∃ a, Steps Positions.Step Positions.start ls a ∧ Sound p' a := by
  refine run_simulates Sound Positions.Step (fun p a l s' hs hlegal hnext => ?_) (Sound.start z)
    h hrun
  by_cases hplace : l.2.InPlace p
  · obtain ⟨t, a', ht, hstep, ha'⟩ := hs.step hlegal hplace
    cases hnext.symm.trans ht
    exact ⟨a', hstep, ha'⟩
  · rw [hs.step_none hlegal hplace] at hnext
    cases hnext

/-- The lists and iterators are where the sequences say, and so are the values that the iterators
and the loops over the lists give. -/
structure Shows (debug : Bool) (p : IteratorPool α) (a : Positions α) : Prop where
  lists : p.lists.Represents a.lists
  iter : p.iter = a.iter
  deref : ∀ i q v, p.iter i = some q →
    (onIterators (member i (ListIterator.deref debug)) p = .returned v p ↔ a.lists.Value q v)
  subscript : ∀ i q off v, p.iter i = some q →
    (onIterators (member i (ListIterator.subscript debug off)) p = .returned v p ↔
      ∃ r, a.lists.Moves q off r ∧ a.lists.Value r v)
  rangeFor : ∀ x xs, a.lists.nodes x = some xs →
    rangeFor debug x p = .returned (xs.map Prod.snd) p

lemma Sound.shows (h : Sound p a) (debug : Bool) : Shows debug p a where
  lists := h.lists.represents
  iter := h.iter
  deref i q v hi := by
    refine ⟨fun hrun => ?_, h.deref_run hi⟩
    obtain ⟨w, hw⟩ := (h.deref_checked hi debug).returned.mp ⟨v, p, hrun⟩
    cases hrun.symm.trans (h.deref_run hi hw)
    exact hw
  subscript i q off v hi := h.subscript_iff hi debug off v
  rangeFor x xs hx := h.rangeFor_run hx debug

/-- A run of any actions on lists and iterators can be taken to its end if and only if every use of
an iterator is in place; then the lists, the iterators and all that they give are as on
sequences. -/
theorem run_iterates (E : Element α) (debug z : Bool) {ls : List (Option ℕ × IteratorAction α)}
    (h : Along (next E debug) (fun p l => l.2.Legal p) (IteratorPool.start z) ls) :
    ((∃ p', run (next E debug) (IteratorPool.start z) ls = some p') ↔
      Along (next E debug) (fun p l => l.2.InPlace p) (IteratorPool.start z) ls) ∧
    ∀ p', run (next E debug) (IteratorPool.start z) ls = some p' →
      ∃ a, Steps Positions.Step Positions.start ls a ∧ Shows debug p' a := by
  constructor
  · refine run_total_iff (fun p => ∃ a, Sound p a) ?_ ?_ ⟨_, Sound.start z⟩ h
    · rintro p l ⟨a, ha⟩ hlegal hplace
      obtain ⟨p', a', hnext, -, ha'⟩ := ha.step hlegal hplace
      exact ⟨p', hnext, a', ha'⟩
    · rintro p l ⟨a, ha⟩ hlegal hplace
      exact ha.step_none hlegal hplace
  · intro p' hrun
    obtain ⟨a, hsteps, ha⟩ := sound_of_run h hrun
    exact ⟨a, hsteps, ha.shows debug⟩

/-- A run in which the node between two iterators is removed and their list becomes another one. -/
def strolls : List (Option ℕ × IteratorAction ℕ) :=
  [(none, .list (.default 0)), (none, .list (.default 1)), (none, .list (.pushBack 0 10)),
    (none, .list (.pushBack 0 11)), (none, .list (.pushBack 0 12)), (none, .begin 0 0),
    (none, .copy 1 0), (none, .addAssign 1 2), (none, .list (.popAt 0 ⟨some 1, 0⟩)),
    (none, .list (.moveAssign 1 0)), (none, .decrement 1), (none, .assignValue 1 20),
    (none, .past 2 1), (none, .increment 0), (none, .subAssign 0 2)]

theorem strolls_iterate :
    Along (next (Element.plain 0 id) true) (fun p l => l.2.Legal p) (IteratorPool.start false)
      strolls ∧
    ((∃ p', run (next (Element.plain 0 id) true) (IteratorPool.start false) strolls = some p') ↔
      Along (next (Element.plain 0 id) true) (fun p l => l.2.InPlace p)
        (IteratorPool.start false) strolls) ∧
    ∀ p', run (next (Element.plain 0 id) true) (IteratorPool.start false) strolls = some p' →
      ∃ a, Steps Positions.Step Positions.start strolls a ∧ Shows true p' a := by
  have h : Along (next (Element.plain 0 id) true) (fun p l => l.2.Legal p)
      (IteratorPool.start false) strolls := by
    decide +kernel
  exact ⟨h, run_iterates _ _ _ h⟩

/-- How the uses of the iterators end in the states that runs lead to. Off either end of a list
the assertions stop the program, but not at a removed node, nor at the last step of `operator[]`. -/
theorem run_checked (E : Element α) (debug z : Bool) {ls : List (Option ℕ × IteratorAction α)}
    (h : Along (next E debug) (fun p l => l.2.Legal p) (IteratorPool.start z) ls)
    {p' : IteratorPool α} (hrun : run (next E debug) (IteratorPool.start z) ls = some p') :
    ∃ a, Steps Positions.Step Positions.start ls a ∧ ∀ i q, p'.iter i = some q →
      (∀ off, Checked debug (∃ r, a.lists.Moves q off r) (q ∈ a.lists.removed)
        (onIterators (member i (ListIterator.addAssign debug off)) p')) ∧
      Checked debug (∃ v, a.lists.Value q v) (q ∈ a.lists.removed)
        (onIterators (member i (ListIterator.deref debug)) p') ∧
      ∀ off r, a.lists.Moves q off r → (¬∃ v, a.lists.Value r v) →
        ∃ why, onIterators (member i (ListIterator.subscript debug off)) p' = .fault why := by
  obtain ⟨a, hsteps, ha⟩ := sound_of_run h hrun
  exact ⟨a, hsteps, fun i q hi => ⟨fun off => ha.addAssign_checked hi debug off,
    ha.deref_checked hi debug, fun off r hr hv => ha.subscript_past hi debug hr hv⟩⟩

theorem strolls_checked : ∃ p' : IteratorPool ℕ,
    run (next (Element.plain 0 id) true) (IteratorPool.start false) strolls = some p' ∧
    ∃ a, Steps Positions.Step Positions.start strolls a ∧ ∀ i q, p'.iter i = some q →
      (∀ off, Checked true (∃ r, a.lists.Moves q off r) (q ∈ a.lists.removed)
        (onIterators (member i (ListIterator.addAssign true off)) p')) ∧
      Checked true (∃ v, a.lists.Value q v) (q ∈ a.lists.removed)
        (onIterators (member i (ListIterator.deref true)) p') ∧
      ∀ off r, a.lists.Moves q off r → (¬∃ v, a.lists.Value r v) →
        ∃ why, onIterators (member i (ListIterator.subscript true off)) p' = .fault why := by
  have h : Along (next (Element.plain 0 id) true) (fun p l => l.2.Legal p)
      (IteratorPool.start false) strolls := by
    decide +kernel
  have hsome : (run (next (Element.plain 0 id) true) (IteratorPool.start false) strolls).isSome := by
    decide +kernel
  obtain ⟨p', hrun⟩ := Option.isSome_iff_exists.mp hsome
  exact ⟨p', hrun, run_checked _ _ _ h hrun⟩

end IteratorPool

end Voxory
