import Voxory.Cxx.Objects
import Voxory.LinkedList.Operations
import Voxory.Machine

/-!
# A program with many linked lists

The lists of the program and what they refine: a sequence of nodes for each list, and the nodes
that have been removed, newest first. An exception that leaves `push_back` is caught and the
program goes on.
-/

namespace Voxory
open Cxx Chain Machine

abbrev ListPool (α : Type) : Type := Objects (Node α) LinkedList

/-- The operations on lists, under the names of the lists they concern. -/
inductive ListAction (α : Type) where
  | default (x : ℕ)
  | pushBack (x : ℕ) (val : α)
  | pushBackMove (x : ℕ) (val : α)
  | popBack (x : ℕ)
  | popAt (x : ℕ) (loc : Ptr)
  | clear (x : ℕ)
  | moveAssign (x y : ℕ)
  | destroy (x : ℕ)

namespace ListAction

variable {α : Type}

open Objects

def code (E : Element α) : ListAction α → Code (ListPool α) Unit
  | .default x => create LinkedList.nil x LinkedList.construct
  | .pushBack x val => do
    let _ ← member x (LinkedList.pushBack E val)
  | .pushBackMove x val => do
    let _ ← member x (LinkedList.pushBackMove E val)
  | .popBack x => member x LinkedList.popBack
  | .popAt x loc => member x (LinkedList.popAt loc)
  | .clear x => member x LinkedList.clear
  | .moveAssign x y =>
    if x = y then pure ()
    else do
      let o ← fields y
      let left ← member x (LinkedList.assignMove o)
      put y (some left)
  | .destroy x => do
    member x LinkedList.destruct
    put x none

/-- The nodes that `_next` leads to from the head of a list. -/
def nodesOf (p : ListPool α) (l : LinkedList) : List Ptr :=
  walk p.mem.object Node.next .null p.mem.fresh l.first

/-- An action uses lists that exist and constructs one under a free name; `pop_at` is given a node
of its list. -/
def Legal (p : ListPool α) : ListAction α → Prop
  | .default x => p.obj x = none
  | .pushBack x _ | .pushBackMove x _ | .popBack x | .clear x | .destroy x => (p.obj x).isSome
  | .popAt x loc => ∃ l ∈ p.obj x, loc ∈ nodesOf p l
  | .moveAssign x y => (p.obj x).isSome ∧ (p.obj y).isSome

instance (p : ListPool α) (act : ListAction α) : Decidable (act.Legal p) := by
  cases act with
  | popAt x loc =>
    cases h : p.obj x with
    | none => exact .isFalse (fun ⟨l, hl, _⟩ => by rw [h] at hl; cases hl)
    | some l =>
      exact decidable_of_iff (loc ∈ nodesOf p l) ⟨fun hl => ⟨l, h, hl⟩, fun ⟨l', hl', hloc⟩ => by
        rw [h] at hl'
        cases hl'
        exact hloc⟩
  | _ => unfold Legal; infer_instance

end ListAction

/-- What the lists stand for: their nodes with the values, and the nodes removed so far. -/
structure Reference (α : Type) where
  nodes : ℕ → Option (List (Ptr × α))
  removed : List Ptr

namespace Reference

variable {α : Type}

def start : Reference α := ⟨fun _ => none, []⟩

/-- The list `x` has the nodes `xs` from now on, and the nodes `gone` are removed. -/
def update (a : Reference α) (x : ℕ) (xs : Option (List (Ptr × α))) (gone : List Ptr) :
    Reference α :=
  ⟨Function.update a.nodes x xs, gone ++ a.removed⟩

lemma update_update (a : Reference α) (x : ℕ) (c d : Option (List (Ptr × α))) (gone : List Ptr) :
    (a.update x c gone).update x d [] = a.update x d gone := by
  simp only [update, Function.update_idem, List.nil_append]

lemma update_comm (a : Reference α) {x y : ℕ} (hxy : x ≠ y) (c d : Option (List (Ptr × α)))
    (gone : List Ptr) :
    (a.update x c gone).update y d [] = (a.update y d []).update x c gone := by
  simp only [update, List.nil_append, Function.update_comm hxy]

lemma update_self (a : Reference α) {x : ℕ} {xs : List (Ptr × α)} (hx : a.nodes x = some xs) :
    a.update x (some xs) [] = a := by
  rw [update, ← hx, Function.update_eq_self, List.nil_append]

/-- A node is appended, at an address that no list has and that never was a removed node's; unless
there was an operation that might throw. -/
def Appends (a : Reference α) (fuse : Option ℕ) (x : ℕ) (val : α) (a' : Reference α) : Prop :=
  ∃ xs, a.nodes x = some xs ∧ ((fuse ≠ none ∧ a' = a) ∨
    ∃ p, p ∉ a.removed ∧ (∀ y ys, a.nodes y = some ys → p ∉ keys ys) ∧
      a' = a.update x (some (xs ++ [(p, val)])) [])

/-- The same operation on sequences. -/
def Step (a : Reference α) (l : Option ℕ × ListAction α) (a' : Reference α) : Prop :=
  match l.2 with
  | .default x => a' = a.update x (some []) []
  | .pushBack x val | .pushBackMove x val => a.Appends l.1 x val a'
  | .popBack x => ∃ xs, a.nodes x = some xs ∧
      a' = a.update x (some xs.dropLast) (keys xs.getLast?.toList)
  | .popAt x loc => ∃ xs val ys, a.nodes x = some (xs ++ (loc, val) :: ys) ∧
      a' = a.update x (some (xs ++ ys)) [loc]
  | .clear x => ∃ xs, a.nodes x = some xs ∧ a' = a.update x (some []) (keys xs).reverse
  | .moveAssign x y => if x = y then a' = a else ∃ xs ys, a.nodes x = some xs ∧
      a.nodes y = some ys ∧ a' = (a.update x (some ys) (keys xs).reverse).update y (some []) []
  | .destroy x => ∃ xs, a.nodes x = some xs ∧ a' = a.update x none (keys xs).reverse

end Reference

/-- The list `l` is a doubly linked chain of the nodes `xs`. -/
structure Chained {α : Type} (f : Ptr → Option (Node α)) (l : LinkedList) (xs : List (Ptr × α)) :
    Prop where
  forward : Follows f Node.next l.first (keys xs) .null
  backward : Follows f Node.last l.second (keys xs).reverse .null
  distinct : (keys xs).Nodup
  size : l.size = (keys xs).length
  first_null : l.first = .null ↔ l.size = 0
  second_null : l.second = .null ↔ l.size = 0
  data : ∀ x ∈ xs, ∃ n, f x.1 = some n ∧ n.data = x.2

namespace ListPool

variable {α : Type}

open Objects LinkedList

/-- One action of the program, with the fallible operation that throws in it. -/
def next (E : Element α) (p : ListPool α) (l : Option ℕ × ListAction α) : Option (ListPool α) :=
  if l.2.Legal p then after (l.2.code E (p.arm l.1)) else none

/-- Every list is a chain of its reference's nodes; the blocks given back are the removed nodes,
each of them once, and no link of a list leads to one; no two lists share a node. -/
structure Represents (p : ListPool α) (a : Reference α) : Prop where
  lists : ∀ x, (p.obj x).isSome = (a.nodes x).isSome
  chained : ∀ x l xs, p.obj x = some l → a.nodes x = some xs → Chained p.mem.object l xs
  apart : ∀ x y xs ys, x ≠ y → a.nodes x = some xs → a.nodes y = some ys →
    List.Disjoint (keys xs) (keys ys)
  removed : released p.mem.trace = a.removed
  once : a.removed.Nodup
  ends : ∀ x l, p.obj x = some l → l.first ∉ a.removed ∧ l.second ∉ a.removed
  links : ∀ x xs q n, a.nodes x = some xs → q ∈ keys xs → p.mem.object q = some n →
    q ∉ a.removed ∧ n.next ∉ a.removed ∧ n.last ∉ a.removed
  tidy : p.mem.Tidy

/-- The nodes of the lists are on the heap, and the fields of the lists agree with them. -/
structure Sound (p : ListPool α) (a : Reference α) : Prop where
  heap : Heap p.mem
  fields : ∀ x, p.obj x = (a.nodes x).map ofNodes
  onHeap : ∀ x xs, a.nodes x = some xs → OnHeap p.mem xs
  apart : ∀ x y xs ys, x ≠ y → a.nodes x = some xs → a.nodes y = some ys →
    List.Disjoint (keys xs) (keys ys)
  removed : released p.mem.trace = a.removed
  once : a.removed.Nodup

variable {E : Element α} {p p' : ListPool α} {a a' : Reference α} {x y : ℕ}
  {xs xs' ys : List (Ptr × α)} {s s' : State (Node α) LinkedList} {gone : List Ptr}

namespace Sound

lemma start (z : Bool) : Sound (start z : ListPool α) Reference.start :=
  ⟨Heap.empty z, fun _ => rfl, fun _ _ h => (nomatch h), fun _ _ _ _ _ h => (nomatch h), rfl,
    List.nodup_nil⟩

lemma arm (h : Sound p a) (k : Option ℕ) : Sound (p.arm k) a :=
  ⟨h.heap.arm k, h.fields, fun x xs hx => ⟨(h.onHeap x xs hx).linked, (h.onHeap x xs hx).nodup⟩,
    h.apart, h.removed, h.once⟩

lemma nodes (h : Sound p a) {l : LinkedList} (hx : p.obj x = some l) :
    ∃ xs, a.nodes x = some xs ∧ l = ofNodes xs := by
  rw [h.fields] at hx
  obtain ⟨xs, hxs, rfl⟩ := Option.map_eq_some_iff.mp hx
  exact ⟨xs, hxs, rfl⟩

lemma holds (h : Sound p a) (hx : a.nodes x = some xs) :
    Holds (⟨p.mem, ofNodes xs⟩ : State (Node α) LinkedList) xs :=
  ⟨h.heap, rfl, h.onHeap x xs hx⟩

lemma of_update {nodes : ℕ → Option (List (Ptr × α))} {c : Option (List (Ptr × α))}
    (hy : Function.update nodes x c y = some ys) : (y = x ∧ c = some ys) ∨ (y ≠ x ∧ nodes y = some ys) := by
  by_cases hyx : y = x
  · rw [hyx, Function.update_self] at hy
    exact Or.inl ⟨hyx, hy⟩
  · rw [Function.update_of_ne hyx] at hy
    exact Or.inr ⟨hyx, hy⟩

lemma replace (h : Sound p a) {m : Memory (Node α)} {c : Option (List (Ptr × α))} (hm : Heap m)
    (hc : ∀ xs', c = some xs' → OnHeap m xs')
    (hframe : ∀ y ys, y ≠ x → a.nodes y = some ys → ∀ q ∈ keys ys, m.object q = p.mem.object q)
    (hapart : ∀ y ys xs', y ≠ x → a.nodes y = some ys → c = some xs' →
      List.Disjoint (keys xs') (keys ys))
    (hremoved : released m.trace = gone ++ released p.mem.trace)
    (honce : gone.Nodup) (hgone : ∀ q ∈ gone, (p.mem.object q).isSome) :
    Sound ⟨m, Function.update p.obj x (c.map ofNodes)⟩ (a.update x c gone) := by
  refine ⟨hm, fun y => ?_, fun y ys hy => ?_, fun y z ys zs hyz hy hz => ?_, ?_, ?_⟩
  · change Function.update p.obj x _ y = (Function.update a.nodes x c y).map ofNodes
    by_cases hyx : y = x
    · rw [hyx, Function.update_self, Function.update_self]
    · rw [Function.update_of_ne hyx, Function.update_of_ne hyx, h.fields]
  · rcases of_update hy with ⟨-, hys⟩ | ⟨hyx, hys⟩
    · exact hc ys hys
    · exact (h.onHeap y ys hys).frame (hframe y ys hyx hys)
  · rcases of_update hy with ⟨hyx, hys⟩ | ⟨hyx, hys⟩ <;>
      rcases of_update hz with ⟨hzx, hzs⟩ | ⟨hzx, hzs⟩
    · exact absurd (hyx.trans hzx.symm) hyz
    · exact hapart z zs ys hzx hzs hys
    · exact (hapart y ys zs hyx hys hzs).symm
    · exact h.apart y z ys zs hyz hys hzs
  · change released m.trace = gone ++ a.removed
    rw [hremoved, h.removed]
  · refine List.nodup_append.mpr ⟨honce, h.once, fun q hq r hr hqr => ?_⟩
    rw [← h.removed, ← hqr] at hr
    exact h.heap.not_released (hgone q hq) hr

lemma changes (h : Sound p a) (hx : a.nodes x = some xs)
    (hs : Changes ⟨p.mem, ofNodes xs⟩ xs xs' gone s')
    (hnew : ∀ q ∈ keys xs', q ∈ keys xs ∨ p.mem.object q = none) (honce : gone.Nodup)
    (hgone : gone ⊆ keys xs) :
    Sound ⟨s'.mem, Function.update p.obj x (some s'.self)⟩ (a.update x (some xs') gone) := by
  have hother : ∀ y ys, y ≠ x → a.nodes y = some ys → ∀ q ∈ keys ys,
      q ∉ keys xs ∧ q ∉ keys xs' := by
    intro y ys hyx hy q hq
    have hqx : q ∉ keys xs := fun hqx => h.apart y x ys xs hyx hy hx hq hqx
    refine ⟨hqx, fun hqx' => ?_⟩
    exact (h.onHeap y ys hy).linked.not_mem ((hnew q hqx').resolve_left hqx) hq
  rw [hs.holds.self]
  refine h.replace (c := some xs') hs.holds.heap ?_ ?_ ?_ hs.released honce
    (fun q hq => (h.holds hx).isSome (hgone hq))
  · rintro _ ⟨⟩
    exact hs.holds.onHeap
  · intro y ys hyx hy q hq
    obtain ⟨hqx, hqx'⟩ := hother y ys hyx hy q hq
    exact hs.frame q hqx hqx'
  · rintro y ys _ hyx hy ⟨⟩ q hqx hq
    exact (hother y ys hyx hy q hq).2 hqx

lemma vacate (h : Sound p a) (c : Option (List (Ptr × α))) (hc : ∀ xs', c = some xs' → xs' = []) :
    Sound ⟨p.mem, Function.update p.obj x (c.map ofNodes)⟩ (a.update x c []) := by
  refine h.replace h.heap ?_ (fun _ _ _ _ _ _ => rfl) ?_ rfl List.nodup_nil
    (fun q hq => nomatch hq)
  · intro xs' hxs'
    rw [hc xs' hxs']
    exact ⟨trivial, List.nodup_nil⟩
  · intro y ys xs' _ _ hxs' q hq
    rw [hc xs' hxs'] at hq
    cases hq

/-- The nodes of `y` went over to `x`, whose own nodes are gone. -/
lemma moved (h : Sound p a) (hxy : x ≠ y) (hx : a.nodes x = some xs) (hy : a.nodes y = some ys)
    (hs : Holds s' ys) (hframe : ∀ q, q ∉ keys xs → s'.mem.object q = p.mem.object q)
    (hremoved : released s'.mem.trace = (keys xs).reverse ++ released p.mem.trace) :
    Sound ⟨s'.mem, Function.update (Function.update p.obj x (some (ofNodes ys))) y
        (some (ofNodes ([] : List (Ptr × α))))⟩
      ((a.update x (some ys) (keys xs).reverse).update y (some []) []) := by
  have hempty := h.vacate (x := y) (some []) (fun _ h => (Option.some.inj h).symm)
  have hx' : Function.update a.nodes y (some []) x = some xs := by
    rw [Function.update_of_ne hxy, hx]
  have hfields : Function.update (Function.update p.obj x (some (ofNodes ys))) y
      (some (ofNodes ([] : List (Ptr × α)))) =
      Function.update (Function.update p.obj y (some (ofNodes []))) x (some (ofNodes ys)) :=
    Function.update_comm hxy _ _ _
  rw [a.update_comm hxy, hfields]
  refine hempty.replace (c := some ys) hs.heap ?_ ?_ ?_ hremoved ?_ ?_
  · rintro _ ⟨⟩
    exact hs.onHeap
  · intro z zs hzx hz q hq
    exact hframe q (hempty.apart z x zs xs hzx hz hx' hq)
  · rintro z zs _ hzx hz ⟨⟩
    rcases of_update hz with ⟨-, hzs⟩ | ⟨hzy, hzs⟩
    · cases hzs
      exact fun q _ hq => nomatch hq
    · exact h.apart y z ys zs (Ne.symm hzy) hy hzs
  · exact List.nodup_reverse.mpr (h.onHeap x xs hx).nodup
  · exact fun q hq => (h.holds hx).isSome (List.mem_reverse.mp hq)

lemma not_mem (h : Sound p a) {q : Ptr} (hq : p.mem.object q = none) (hx : a.nodes x = some xs) :
    q ∉ keys xs :=
  (h.onHeap x xs hx).linked.not_mem hq

lemma pushed {q : Ptr} {val : α} (h : Sound p a) (hx : a.nodes x = some xs)
    (hq : p.mem.object q = none)
    (hs : Changes ⟨p.mem, ofNodes xs⟩ xs (xs ++ [(q, val)]) [] s') :
    Sound ⟨s'.mem, Function.update p.obj x (some s'.self)⟩
      (a.update x (some (xs ++ [(q, val)])) []) := by
  refine h.changes hx hs ?_ List.nodup_nil (fun r hr => nomatch hr)
  intro r hr
  rw [keys_append, List.mem_append] at hr
  exact hr.imp_right (fun hr => by rw [List.mem_singleton.mp hr]; exact hq)

lemma unchanged (h : Sound p a) (hx : a.nodes x = some xs)
    (hs : Turns ⟨p.mem, ofNodes xs⟩ p.mem.object [] s') :
    Sound ⟨s'.mem, Function.update p.obj x (some s'.self)⟩ a := by
  rw [hs.self]
  have hsame := h.replace (x := x) (c := some xs) hs.heap
    (fun _ hxs' => by
      cases hxs'
      exact (h.onHeap x xs hx).frame (fun r _ => by rw [hs.object]))
    (fun _ _ _ _ r _ => by rw [hs.object])
    (fun y ys _ hyx hy hxs' => by
      cases hxs'
      exact (h.apart y x ys xs hyx hy hx).symm)
    hs.released List.nodup_nil (fun r hr => nomatch hr)
  rwa [a.update_self hx] at hsame

lemma popped {v : Ptr × α} {zs : List (Ptr × α)} (h : Sound p a)
    (hx : a.nodes x = some (ys ++ v :: zs))
    (hs : Changes ⟨p.mem, ofNodes (ys ++ v :: zs)⟩ (ys ++ v :: zs) (ys ++ zs) [v.1] s') :
    Sound ⟨s'.mem, Function.update p.obj x (some s'.self)⟩
      (a.update x (some (ys ++ zs)) [v.1]) := by
  refine h.changes hx hs ?_ (List.nodup_singleton _)
    (fun q hq => by simp [List.mem_singleton.mp hq])
  intro q hq
  rw [keys_append, List.mem_append] at hq
  exact Or.inl (by simpa using hq.imp_right Or.inr)

lemma cleared (h : Sound p a) (hx : a.nodes x = some xs)
    (hs : Changes ⟨p.mem, ofNodes xs⟩ xs [] (keys xs).reverse s') :
    Sound ⟨s'.mem, Function.update p.obj x (some s'.self)⟩
      (a.update x (some []) (keys xs).reverse) :=
  h.changes hx hs (fun _ hq => nomatch hq) (List.nodup_reverse.mpr (h.onHeap x xs hx).nodup)
    (fun _ hq => List.mem_reverse.mp hq)

lemma moveAssign_keeps (h : Sound p a) (hxy : x ≠ y) (hx : a.nodes x = some xs)
    (hy : a.nodes y = some ys) : ((ListAction.moveAssign x y).code E).Returns p (fun _ p' =>
      Sound p' ((a.update x (some ys) (keys xs).reverse).update y (some []) []) ∧
      ∀ q, q ∉ keys xs → p'.mem.object q = p.mem.object q) := by
  have hobj : p.obj x = some (ofNodes xs) := by rw [h.fields, hx]; rfl
  have hobjy : p.obj y = some (ofNodes ys) := by rw [h.fields, hy]; rfl
  obtain ⟨left, s', ⟨rfl, hholds, hframe, hremoved⟩, hrun⟩ := member_returns hobj
    (assignMove_returns (h.holds hx) rfl (h.onHeap y ys hy) (h.apart x y xs ys hxy hx hy))
  refine ⟨(), _, ?_, h.moved hxy hx hy hholds hframe hremoved, hframe⟩
  rw [ListAction.code, if_neg hxy, Code.bind_returned (fields_run hobjy), Code.bind_returned hrun,
    hholds.self]
  rfl

lemma moveAssign_returns (h : Sound p a) (hxy : x ≠ y) (hx : a.nodes x = some xs)
    (hy : a.nodes y = some ys) : ((ListAction.moveAssign x y).code E).Returns p (fun _ p' =>
      Sound p' ((a.update x (some ys) (keys xs).reverse).update y (some []) [])) :=
  (h.moveAssign_keeps hxy hx hy).mono (fun _ _ hp' => hp'.1)

end Sound

lemma push_step {b : Bool} {val : α} {k : Option ℕ} (h : Sound p a) (hx : a.nodes x = some xs) :
    ∃ p' a', after ((do
      let _ ← member x (emplaceBack E (do
        mayThrow b
        pure val)) : Code (ListPool α) Unit) (p.arm k)) = some p' ∧
      a.Appends k x val a' ∧ Sound p' a' := by
  have ha := h.arm k
  have hobj : (p.arm k).obj x = some (ofNodes xs) := by rw [ha.fields, hx]; rfl
  obtain ⟨s', hafter, hends⟩ := member_after hobj (push_ends (E := E) (b := b) (ha.holds hx))
    (emplaceBack_mild ((mayThrow_mild b).bind (fun _ => Code.Mild.pure val)))
  rw [after_discard, hafter]
  rcases hends with ⟨q, hremoved, hnone, hs'⟩ | ⟨hs', hfuse⟩
  · refine ⟨_, a.update x (some (xs ++ [(q, val)])) [], rfl, ⟨xs, hx, Or.inr ⟨q, ?_, ?_, rfl⟩⟩,
      ha.pushed hx hnone hs'⟩
    · rwa [← h.removed]
    · exact fun y ys hy => ha.not_mem hnone hy
  · exact ⟨_, a, rfl, ⟨xs, hx, Or.inl ⟨hfuse, rfl⟩⟩, ha.unchanged hx hs'⟩

/-- Every legal action is taken, and its reference is the same operation on sequences. -/
theorem step (h : Sound p a) {l : Option ℕ × ListAction α} (hlegal : l.2.Legal p) :
    ∃ p' a', next E p l = some p' ∧ a.Step l a' ∧ Sound p' a' := by
  obtain ⟨k, act⟩ := l
  have ha := h.arm k
  rw [next, if_pos hlegal]
  have hsome : ∀ x, (p.obj x).isSome → ∃ xs, a.nodes x = some xs ∧
      (p.arm k).obj x = some (ofNodes xs) := by
    intro x hx
    obtain ⟨l, hl⟩ := Option.isSome_iff_exists.mp hx
    obtain ⟨xs, hxs, rfl⟩ := h.nodes hl
    exact ⟨xs, hxs, hl⟩
  cases act with
  | default x =>
    exact ⟨_, _, rfl, rfl, ha.vacate (some []) (fun _ h => (Option.some.inj h).symm)⟩
  | pushBack x val =>
    obtain ⟨xs, hxs, -⟩ := hsome x hlegal
    exact push_step h hxs
  | pushBackMove x val =>
    obtain ⟨xs, hxs, -⟩ := hsome x hlegal
    exact push_step h hxs
  | popBack x =>
    obtain ⟨xs, hxs, hobj⟩ := hsome x hlegal
    have hholds := ha.holds hxs
    rcases List.eq_nil_or_concat xs with rfl | ⟨ys, y, rfl⟩
    · obtain ⟨_, s', rfl, hrun⟩ := member_returns hobj (popBack_nil hholds)
      refine ⟨_, _, congrArg after hrun, ⟨[], hxs, rfl⟩, ?_⟩
      exact ha.vacate (some []) (fun _ h => (Option.some.inj h).symm)
    · rw [List.concat_eq_append] at *
      obtain ⟨_, s', hs', hrun⟩ := member_returns hobj (popBack_returns hholds)
      refine ⟨_, _, congrArg after hrun, ⟨_, hxs, ?_⟩, ha.changes hxs hs' ?_ ?_ ?_⟩
      · rw [List.dropLast_concat, List.getLast?_concat]
        rfl
      · exact fun q hq => Or.inl (by rw [keys_append]; exact List.mem_append_left _ hq)
      · exact List.nodup_singleton _
      · exact fun q hq => by simpa using Or.inr (List.mem_singleton.mp hq)
  | popAt x loc =>
    obtain ⟨l, hl, hloc⟩ := hlegal
    obtain ⟨xs, hxs, rfl⟩ := h.nodes hl
    have hmem : loc ∈ keys xs := (h.onHeap x xs hxs).linked.follows_next.mem_of_walk hloc
    obtain ⟨v, hv, rfl⟩ := List.mem_map.mp hmem
    obtain ⟨ys, zs, rfl⟩ := List.append_of_mem hv
    obtain ⟨_, s', hs', hrun⟩ := member_returns (p := p.arm k) hl (popAt_returns (ha.holds hxs))
    exact ⟨_, _, congrArg after hrun, ⟨ys, v.2, zs, hxs, rfl⟩, ha.popped hxs hs'⟩
  | clear x =>
    obtain ⟨xs, hxs, hobj⟩ := hsome x hlegal
    obtain ⟨_, s', hs', hrun⟩ := member_returns hobj (clear_returns (ha.holds hxs))
    exact ⟨_, _, congrArg after hrun, ⟨xs, hxs, rfl⟩, ha.cleared hxs hs'⟩
  | moveAssign x y =>
    by_cases hxy : x = y
    · refine ⟨p.arm k, a, ?_, ?_, ha⟩
      · rw [ListAction.code, if_pos hxy]
        rfl
      · exact (if_pos hxy).mpr rfl
    · obtain ⟨xs, hxs, -⟩ := hsome x hlegal.1
      obtain ⟨ys, hys, -⟩ := hsome y hlegal.2
      obtain ⟨_, p', hrun, hp'⟩ := ha.moveAssign_returns (E := E) hxy hxs hys
      exact ⟨p', _, congrArg after hrun, (if_neg hxy).mpr ⟨xs, ys, hxs, hys, rfl⟩, hp'⟩
  | destroy x =>
    obtain ⟨xs, hxs, hobj⟩ := hsome x hlegal
    obtain ⟨_, s', hs', hrun⟩ := member_returns hobj (clear_returns (ha.holds hxs))
    have hclear := (ha.cleared hxs hs').vacate (x := x) none (fun _ h => nomatch h)
    rw [Reference.update_update, Function.update_idem] at hclear
    refine ⟨_, _, ?_, ⟨xs, hxs, rfl⟩, hclear⟩
    rw [ListAction.code, LinkedList.destruct, Code.bind_returned hrun]
    simp only [put, after, Function.update_idem]
    rfl

lemma chained_of_holds {s : State (Node α) LinkedList} (h : Holds s xs) :
    Chained s.mem.object (ofNodes xs) xs where
  forward := h.onHeap.linked.follows_next
  backward := h.onHeap.linked.follows_last
  distinct := h.onHeap.nodup
  size := by
    rw [keys, List.length_map]
    rfl
  first_null := by
    cases xs with
    | nil => exact ⟨fun _ => rfl, fun _ => rfl⟩
    | cons x xs => exact ⟨fun hn => absurd hn (h.first_ne (by simp)), fun hs => by cases hs⟩
  second_null := by
    rcases List.eq_nil_or_concat xs with rfl | ⟨ys, y, rfl⟩
    · exact ⟨fun _ => rfl, fun _ => rfl⟩
    · rw [List.concat_eq_append] at *
      have hne : (ofNodes (ys ++ [y])).second ≠ Ptr.null := h.ne_null (back_mem (by simp))
      refine ⟨fun hn => absurd hn hne, fun hs => ?_⟩
      simp only [ofNodes, List.length_append, List.length_singleton] at hs
      omega
  data x hx := by
    obtain ⟨ys, zs, rfl⟩ := List.append_of_mem hx
    exact ⟨_, h.onHeap.linked.at, rfl⟩

theorem Sound.represents (h : Sound p a) : Represents p a where
  lists x := by rw [h.fields, Option.isSome_map]
  chained x l xs hl hx := by
    rw [h.fields, hx] at hl
    cases hl
    exact chained_of_holds (h.holds hx)
  apart := h.apart
  removed := h.removed
  once := h.once
  ends x l hl := by
    obtain ⟨xs, hx, rfl⟩ := h.nodes hl
    rw [← h.removed]
    refine ⟨?_, ?_⟩
    · cases xs with
      | nil => exact h.heap.null_not_released
      | cons x xs => exact h.heap.not_released ((h.holds hx).isSome List.mem_cons_self)
    · by_cases hxs : xs = []
      · rw [hxs]
        exact h.heap.null_not_released
      · exact h.heap.not_released ((h.holds hx).isSome (back_mem hxs))
  links x xs q n hx hq hn := by
    have hnode : ∀ r, r ∈ keys xs ∨ r = Ptr.null → r ∉ a.removed := by
      rintro r (hr | rfl)
      · rw [← h.removed]
        exact h.heap.not_released ((h.holds hx).isSome hr)
      · rw [← h.removed]
        exact h.heap.null_not_released
    have hlinks := (h.onHeap x xs hx).linked.links hq hn
    exact ⟨hnode q (Or.inl hq), hnode _ hlinks.1, hnode _ hlinks.2⟩
  tidy := h.heap.tidy

/-- Every run of legal actions can be taken to its end, and leaves every list a well-formed chain
that refines its sequence after the same operations; every node that was removed is given back
once, and nothing refers to it. -/
theorem run_represents (E : Element α) (z : Bool) {ls : List (Option ℕ × ListAction α)}
    (h : Along (next E) (fun p l => l.2.Legal p) (start z) ls) :
    ∃ p' a, run (next E) (start z) ls = some p' ∧ Steps Reference.Step Reference.start ls a ∧
      Represents p' a := by
  obtain ⟨p', a, hrun, hsteps, hsound⟩ := run_simulates_total Sound Reference.Step
    (fun p a l hs hlegal => step hs hlegal) (Sound.start z) h
  exact ⟨p', a, hrun, hsteps, hsound.represents⟩

/-- A run that removes nodes in the middle, at the end and at the front. -/
def removals : List (Option ℕ × ListAction ℕ) :=
  [(none, .default 0), (none, .default 1), (none, .pushBack 0 10), (some 0, .pushBack 0 11),
    (none, .pushBack 0 12), (none, .pushBack 0 13), (none, .popAt 0 ⟨some 1, 0⟩),
    (none, .pushBackMove 1 14), (none, .moveAssign 1 0), (none, .popAt 1 ⟨some 0, 0⟩),
    (none, .popBack 1), (none, .clear 0), (none, .destroy 1)]

theorem removals_represent : Along (next (Element.plain 0 id)) (fun p l => l.2.Legal p)
      (start false) removals ∧
    ∃ p' a, run (next (Element.plain 0 id)) (start false) removals = some p' ∧
      Steps Reference.Step Reference.start removals a ∧ Represents p' a := by
  have h : Along (next (Element.plain 0 id)) (fun p l => l.2.Legal p) (start false) removals := by
    decide +kernel
  exact ⟨h, run_represents _ _ h⟩

end ListPool

end Voxory
