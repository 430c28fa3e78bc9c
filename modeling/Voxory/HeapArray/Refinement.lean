import Voxory.HeapArray.PoolSteps

/-!
# Heap arrays refine lists with a capacity

Every run of actions other than copy assignment computes, step by step, what the actions mean
on lists paired with a capacity. Only an exception makes a step do nothing instead.
-/

namespace Voxory
open Cxx

/-- One action on the contents; it does nothing if the environment makes it throw. -/
def Contents.Step {α : Type} (E : Element α) (M : Contents α) (l : Option ℕ × Action α)
    (M' : Contents α) : Prop :=
  M' = l.2.apply E M ∨ (l.1 ≠ none ∧ M' = M)

/-- The values and the capacity of the array `x`. -/
def Contents.view {α : Type} (M : Contents α) (x : ℕ) : Option (List (Option α) × ℕ) :=
  (M x).map fun c => (c.1.map some, c.2)

namespace Pool

variable {α : Type}

open Objects

/-- What `a[0]`, `a[1]`, … read, for the indices below `size()`. -/
def elements (p : Pool α) (a : HeapArray) : List (Option α) :=
  (List.range a.size).map fun i => p.mem.object (a.first + i)

/-- What a program can see of the array `x`: its elements and its capacity. -/
def view (p : Pool α) (x : ℕ) : Option (List (Option α) × ℕ) :=
  (p.obj x).map fun a => (p.elements a, a.capacity)

/-- `a` owns the block `b`: its pointer is the start of the block, which is as long as its
capacity. -/
def Owns (p : Pool α) (a : HeapArray) (b : ℕ) : Prop :=
  a.first = ⟨some b, 0⟩ ∧ p.mem.extent b = some a.capacity

structure InShape (p : Pool α) (a : HeapArray) : Prop where
  size_le : a.size ≤ a.capacity
  live : ∀ b, p.Owns a b → ∀ i, (p.mem.object ⟨some b, i⟩).isSome ↔ i < a.size
  null_iff : a.first = Ptr.null ↔ ¬∃ b, p.Owns a b
  released : a.capacity = 0 → a.first = Ptr.null

variable {p p' : Pool α} {M : Contents α} {E : Element α} {x : ℕ} {a : HeapArray} {vs : List α}

lemma elements_eq (h : HeapArray.Holds p.mem a vs) : p.elements a = vs.map some := by
  apply List.ext_getElem?
  intro i
  rw [elements, List.getElem?_map, List.getElem?_map, h.size_eq]
  cases h with
  | nil => rfl
  | block b cap vs hext hle hobj =>
    by_cases hi : i < vs.length
    · rw [List.getElem?_range hi, Option.map_some, Ptr.mk_add, Nat.zero_add, hobj,
        List.getElem?_eq_getElem hi, Option.map_some]
    · rw [List.getElem?_eq_none (by simpa using hi), List.getElem?_eq_none (by omega)]
      rfl

lemma Models.view_eq (h : p.Models M) (x : ℕ) : p.view x = M.view x := by
  cases ha : p.obj x with
  | none => rw [view, Contents.view, ha, h.none_iff.mp ha, Option.map_none, Option.map_none]
  | some a =>
    obtain ⟨vs, hM, hvs⟩ := h.at_some ha
    rw [view, Contents.view, ha, hM, Option.map_some, Option.map_some, elements_eq hvs]

lemma Models.inShape (h : p.Models M) (hsol : p.Solid) (ha : p.obj x = some a) : p.InShape a := by
  obtain ⟨vs, -, hvs⟩ := h.at_some ha
  refine ⟨hvs.size_eq ▸ hvs.size_le, fun b hb i => ?_, ⟨fun hnull hb => ?_, fun hb => ?_⟩,
    hsol x a ha⟩
  · rw [hvs.object_eq (by rw [hb.1]), hvs.size_eq]
    simp
  · obtain ⟨b, hb, -⟩ := hb
    rw [hnull] at hb
    cases hb
  · cases hn : a.first.block with
    | none => rw [(hvs.eq_nil hn).1]; rfl
    | some b =>
      exact absurd ⟨b, hvs.first_eq hn, hvs.extent_eq hn⟩ hb

lemma next_ends {k : Option ℕ} {act : Action α} (h : Action.Ends E (p.arm k) M act)
    (hn : next E p (k, act) = some p') :
    (p'.Models (act.apply E M) ∧ act.Preserves E (p.arm k) p') ∨
      (k ≠ none ∧ (∃ M', p'.Models M' ∧ (act.Strong E → M' = M)) ∧
        act.Preserves E (p.arm k) p') := by
  rw [next] at hn
  split_ifs at hn
  exact (after_ends h hn).imp (fun ⟨_, hp⟩ => hp) (fun hp => hp)

lemma next_refines {l : Option ℕ × Action α} (hE : E.Nothrow) (h : p.Models M ∧ p.Solid)
    (hno : l.2.NoCopyAssign) (hn : next E p l = some p') :
    ∃ M', Contents.Step E M l M' ∧ p'.Models M' ∧ p'.Solid := by
  obtain ⟨k, act⟩ := l
  have hlegal : act.Legal p := by
    by_contra hnot
    rw [next, if_neg hnot] at hn
    cases hn
  have hends := Action.ends (E := E) (h.1.arm k) hlegal (Action.whole_of_noCopyAssign hno)
  rcases next_ends hends hn with ⟨hM, hkeep⟩ | ⟨hk, ⟨M', hM', hstrong⟩, hkeep⟩
  · exact ⟨_, Or.inl rfl, hM, hkeep.solid hno h.2⟩
  · have hM : M' = M := hstrong (Action.strong_of_noCopyAssign
      (by simp [Element.nothrowDefault, hE.default]) hno)
    exact ⟨M, Or.inr ⟨hk, rfl⟩, hM ▸ hM', hkeep.solid hno h.2⟩

/-- From a pool in shape, a legal action has no undefined behaviour; it returns unless the
environment makes it throw. -/
lemma next_exists {act : Action α} (h : p.Models M) (hno : act.NoCopyAssign)
    (hlegal : act.Legal p) : (∃ p', next E p (none, act) = some p') ∧
      ∀ k why, act.code E (p.arm k) ≠ .fault why := by
  have hends : ∀ k, Action.Ends E (p.arm k) M act :=
    fun k => Action.ends (h.arm k) hlegal (Action.whole_of_noCopyAssign hno)
  constructor
  · have hcalm := hends none
    rw [Action.Ends, Code.Ends] at hcalm
    rw [next, if_pos hlegal]
    cases hc : act.code E (p.arm none) with
    | returned _ p' => exact ⟨p', rfl⟩
    | threw p' => exact ⟨p', rfl⟩
    | terminated =>
      rw [hc] at hcalm
      obtain ⟨_, hfuse, _⟩ := hcalm
      exact absurd rfl hfuse
    | fault why =>
      rw [hc] at hcalm
      exact hcalm.elim
  · intro k why hc
    have hk := hends k
    rw [Action.Ends, Code.Ends, hc] at hk
    exact hk

/-- A run of the operations other than copy assignment, on elements that do not throw, is a run
on lists with a capacity; every array is in shape after it, and every legal action can follow. -/
theorem run_refines (hE : E.Nothrow) (z : Bool) (ls : List (Option ℕ × Action α))
    (hno : ∀ l ∈ ls, l.2.NoCopyAssign) (hrun : Machine.run (next E) (start z) ls = some p) :
    (∃ M : Contents α, Machine.Steps (Contents.Step E) (fun _ => none) ls M ∧
      ∀ x, p.view x = M.view x) ∧
    (∀ x a, p.obj x = some a → p.InShape a) ∧
    ∀ act : Action α, act.NoCopyAssign → act.Legal p →
      (∃ p', next E p (none, act) = some p') ∧ ∀ k why, act.code E (p.arm k) ≠ .fault why := by
  obtain ⟨M, hsteps, hM, hsol⟩ := Machine.run_simulates
    (fun (p : Pool α) M => p.Models M ∧ p.Solid) (Contents.Step E)
    (fun _ _ _ _ hR hgood hn => next_refines hE hR hgood hn)
    ⟨Models.start z, fun _ _ h => nomatch h⟩ (Machine.along_of_forall hno) hrun
  exact ⟨⟨M, hsteps, hM.view_eq⟩, fun x a ha => hM.inShape hsol ha,
    fun act hact hlegal => next_exists hM hact hlegal⟩

/-- A run that fills, copies, swaps, grows and shrinks. -/
def sampleRun : List (Option ℕ × Action ℕ) :=
  [(none, .filled 0 2 7), (none, .copyOf 1 0), (none, .resize 1 3), (none, .default 2),
    (none, .swap 1 2), (some 0, .reserve 2 9), (none, .write 2 1 5), (none, .clear 0),
    (none, .moveAssign 0 2), (none, .shrinkToFit 0), (none, .moveAssign 0 0)]

theorem sampleRun_refines : ∃ p M,
    Machine.run (next (Element.plain 0 id)) (start true) sampleRun = some p ∧
    Machine.Steps (Contents.Step (Element.plain 0 id)) (fun _ => none) sampleRun M ∧
    ∀ x, p.view x = M.view x := by
  obtain ⟨p, hp⟩ := Option.isSome_iff_exists.mp
    (show (Machine.run (next (Element.plain 0 id)) (start true) sampleRun).isSome = true by
      decide +kernel)
  obtain ⟨⟨M, hM, hview⟩, -⟩ := run_refines (Element.plain_nothrow 0 id) true sampleRun
    (by simp [sampleRun, Action.NoCopyAssign]) hp
  exact ⟨p, M, hp, hM, hview⟩

end Pool

end Voxory
