import Voxory.LinkedList.Heap

/-!
# What the member functions do to a chain

A list holds a sequence of nodes when its fields and the nodes' links agree with it. Every member
function turns the sequence that its list holds into another one, and leaves all other nodes alone.
-/

namespace Voxory
open Cxx Chain

namespace LinkedList

variable {α : Type}

/-- The fields of a list that holds the nodes `xs`. -/
def ofNodes (xs : List (Ptr × α)) : LinkedList := ⟨front xs .null, back .null xs, xs.length⟩

/-- The nodes `xs` are on the heap, linked in this order. -/
structure OnHeap (m : Memory (Node α)) (xs : List (Ptr × α)) : Prop where
  linked : Linked m.object .null xs .null
  nodup : (keys xs).Nodup

/-- The list of `s` holds the nodes `xs`. -/
structure Holds (s : State (Node α) LinkedList) (xs : List (Ptr × α)) : Prop where
  heap : Heap s.mem
  self : s.self = ofNodes xs
  onHeap : OnHeap s.mem xs

/-- The list of `s` is a chain of the nodes `xs`, and its counter shows `n`. -/
structure Shows (s : State (Node α) LinkedList) (xs : List (Ptr × α)) (n : ℕ) : Prop where
  heap : Heap s.mem
  self : s.self = { ofNodes xs with size := n }
  onHeap : OnHeap s.mem xs

/-- Between `s` and `s'` the list went over from the nodes `xs` to the nodes `xs'`, and the nodes
`freed` were given back. -/
structure Changes (s : State (Node α) LinkedList) (xs xs' : List (Ptr × α)) (freed : List Ptr)
    (s' : State (Node α) LinkedList) : Prop where
  holds : Holds s' xs'
  frame : ∀ p, p ∉ keys xs → p ∉ keys xs' → s'.mem.object p = s.mem.object p
  released : released s'.mem.trace = freed ++ released s.mem.trace
  calm : s.mem.fuse = none → s'.mem.fuse = none

variable {s s' : State (Node α) LinkedList} {xs ys zs : List (Ptr × α)} {x : Ptr × α} {p q : Ptr}
  {n : Node α} {f : Ptr → Option (Node α)} {k : ℕ}

lemma OnHeap.frame {m m' : Memory (Node α)} (h : OnHeap m xs)
    (hm : ∀ p ∈ keys xs, m'.object p = m.object p) : OnHeap m' xs :=
  ⟨h.linked.congr hm, h.nodup⟩

lemma Holds.shows (h : Holds s xs) : Shows s xs xs.length := ⟨h.heap, h.self, h.onHeap⟩

lemma Shows.holds (h : Shows s xs xs.length) : Holds s xs := ⟨h.heap, h.self, h.onHeap⟩

lemma Holds.isSome (h : Holds s xs) (hp : p ∈ keys xs) : (s.mem.object p).isSome :=
  h.onHeap.linked.isSome hp

lemma Holds.ne_null (h : Holds s xs) (hp : p ∈ keys xs) : p ≠ .null := by
  obtain ⟨n, hn⟩ := Option.isSome_iff_exists.mp (h.isSome hp)
  exact h.heap.ne_null hn

lemma Holds.first_ne (h : Holds s xs) (hxs : xs ≠ []) : (ofNodes xs).first ≠ Ptr.null :=
  h.ne_null (front_mem hxs)

lemma setNext_returns (hs : Heap s.mem) (hp : s.mem.object p = some n) : (setNext p q).Returns s
    (fun _ s' => Turns s (Function.update s.mem.object p (some { n with next := q })) [] s') :=
  .step (read_turns hs hp) (assign_turns _ hs hp)

lemma setLast_returns (hs : Heap s.mem) (hp : s.mem.object p = some n) : (setLast p q).Returns s
    (fun _ s' => Turns s (Function.update s.mem.object p (some { n with last := q })) [] s') :=
  .step (read_turns hs hp) (assign_turns _ hs hp)

lemma destroyNode_returns (hs : Heap s.mem) (hp : s.mem.object p = some n) :
    (destroyNode p).Returns s
      (fun _ s' => Turns s (Function.update s.mem.object p none) [p] s') :=
  destroyBlock_turns hs hp

/-! ### Appending a node -/

lemma linkBack_returns {v : α} (h : Shows s xs k)
    (hp : s.mem.object p = some ⟨v, .null, back .null xs⟩) (hpx : p ∉ keys xs) :
    (linkBack p).Returns s (fun _ s' =>
      s'.self = { ofNodes (xs ++ [(p, v)]) with size := k } ∧
      (∃ f, Reshapes s.mem f [] s'.mem) ∧
      Linked s'.mem.object .null (xs ++ [(p, v)]) .null ∧
      ∀ q, q ∉ keys xs → s'.mem.object q = s.mem.object q) := by
  obtain ⟨hs, hself, hxs, hnodup⟩ := h
  refine .step (b := s.self) rfl ?_
  rw [hself]
  rcases List.eq_nil_or_concat xs with rfl | ⟨ys, y, rfl⟩
  · rw [if_pos (show (ofNodes ([] : List (Ptr × α))).first = Ptr.null from rfl)]
    exact setSelf_returns ⟨rfl, ⟨_, .refl hs⟩, ⟨hp, trivial⟩, fun _ _ => rfl⟩
  · rw [List.concat_eq_append] at hself hxs hnodup hp hpx ⊢
    rw [back_concat] at hp
    have hy : s.mem.object y.1 = some ⟨y.2, .null, back .null ys⟩ := hxs.at
    have hfirst : (ofNodes (ys ++ [y])).first ≠ Ptr.null := by
      obtain ⟨m, hm⟩ := Option.isSome_iff_exists.mp
        (hxs.isSome (front_mem (a := Ptr.null) (by simp)))
      exact hs.ne_null hm
    have hsecond : (ofNodes (ys ++ [y])).second = y.1 := back_concat _ _ _
    have hyys : y.1 ∉ keys ys := (nodup_concat.mp hnodup).2
    have hpy : p ≠ y.1 := fun h => hpx (by rw [h, keys_append]; simp)
    simp only [if_neg hfirst, hsecond]
    refine (setNext_returns hs hy).bind ?_
    intro _ s₁ h₁
    have hp₁ : s₁.mem.object p = some ⟨v, .null, y.1⟩ := by
      rw [h₁.object, Function.update_of_ne hpy, hp]
    refine (setLast_returns h₁.heap hp₁).bind ?_
    intro _ s₂ h₂
    have hsame : s₂.mem.object = s₁.mem.object := by
      rw [h₂.object, ← hp₁, Function.update_eq_self]
    refine setSelf_returns ⟨?_, ⟨_, h₁.toReshapes.trans h₂.toReshapes⟩, ?_, fun q hq => ?_⟩
    · simp only [ofNodes, back_concat, front_append]
      cases ys <;> rfl
    · change Linked s₂.mem.object _ _ _
      rw [hsame]
      refine linked_append.mpr ⟨?_, ?_, trivial⟩
      · rw [h₁.object]
        exact hxs.setNext hyys
      · rw [hp₁, back_concat]
        rfl
    · change s₂.mem.object q = _
      rw [hsame, h₁.object, Function.update_of_ne (fun h => hq (by rw [h, keys_append]; simp))]

/-- Between `s` and `s'` a node of value `val` was appended at `p`, and the other nodes became `f`. -/
structure Appends (s : State (Node α) LinkedList) (xs : List (Ptr × α)) (k : ℕ) (val : α)
    (f : Ptr → Option (Node α)) (p : Ptr) (s' : State (Node α) LinkedList) : Prop where
  shows : Shows s' (xs ++ [(p, val)]) (k + 1)
  fresh : s.mem.object p = none
  never : p ∉ released s.mem.trace
  frame : ∀ q, q ≠ p → q ∉ keys xs → s'.mem.object q = f q
  released : released s'.mem.trace = Cxx.released s.mem.trace
  calm : s.mem.fuse = none → s'.mem.fuse = none

lemma Appends.live {k : ℕ} {val : α} {f : Ptr → Option (Node α)} {q : Ptr}
    (h : Appends s xs k val f p s') (hq : (s.mem.object q).isSome) : q ≠ p := by
  rintro rfl
  rw [h.fresh] at hq
  cases hq

/-- `emplace_back`, where initialising the parameter turns the nodes into `f`; `R` holds after an
exception. -/
lemma emplaceBack_ends {E : Element α} {take : Method α α} (val : α)
    {R : State (Node α) LinkedList → Prop} (h : Shows s xs k)
    (htake : ∀ t, Turns s s.mem.object [] t → take.Ends t (fun v t' => v = val ∧ Turns t f [] t') R)
    (hfirst : ∀ t, Turns s s.mem.object [] t → s.mem.fuse ≠ none → R t)
    (hsecond : ∀ t, Turns s f [] t → s.mem.fuse ≠ none → R t)
    (hf : Linked f .null xs .null) (hnone : ∀ q, s.mem.object q = none → f q = none) :
    (emplaceBack E take).Ends s (fun p s' => Appends s xs k val f p s') R := by
  refine ((allocate_turns h.heap).mono (fun _ _ h => h) (fun t ht => hfirst t ht.1 ht.2)).bind ?_
  rintro p s₁ ⟨h₁, hblank⟩
  have hpnone : s.mem.object p = none := by rw [← h₁.object, hblank.object]
  have hpreleased : p ∉ released s.mem.trace := by
    have hnot := hblank.not_released h₁.heap
    rwa [h₁.released] at hnot
  have hpx : p ∉ keys xs := h.onHeap.linked.not_mem hpnone
  refine (htake s₁ h₁).bind ?_
  rintro _ s₂ ⟨rfl, h₂⟩
  have hblank₂ : Blank s₂.mem p := hblank.turns h₂ (hnone p hpnone) List.not_mem_nil
  refine ((mayThrow_turns E.copyThrows h₂.heap).mono (fun _ _ h => h) (fun t ht => ?_)).bind ?_
  · rw [h₂.object] at ht
    exact hsecond t ((h₁.trans h₂).trans ht.1) (fun hm => ht.2 (h₂.calm (h₁.calm hm)))
  intro _ s₃ h₃
  have hblank₃ : Blank s₃.mem p := hblank₂.turns h₃ hblank₂.object List.not_mem_nil
  have h₀₃ := (h₁.trans h₂).trans h₃
  have hself₃ : s₃.self = { ofNodes xs with size := k } := h₀₃.self.trans h.self
  have hobject₃ : s₃.mem.object = f := h₀₃.object.trans h₂.object
  refine .step (b := s₃.self) rfl (.of_returns ?_)
  rw [hself₃]
  refine (construct_turns _ h₃.heap hblank₃).bind ?_
  intro _ s₄ h₄
  have hobject₄ : ∀ q, q ≠ p → s₄.mem.object q = f q := by
    intro q hq
    rw [h₄.object, Function.update_of_ne hq, hobject₃]
  have hshows₄ : Shows s₄ xs k := ⟨h₄.heap, h₄.self.trans hself₃,
    hf.congr (fun q hq => hobject₄ q (fun he => hpx (he ▸ hq))), h.onHeap.nodup⟩
  refine (linkBack_returns hshows₄ (by rw [h₄.object, Function.update_self]; rfl) hpx).bind ?_
  rintro _ s₅ ⟨hself₅, ⟨f₅, h₅⟩, hlinked₅, hframe₅⟩
  refine .step (b := s₅.self) rfl ?_
  refine .step (t := { s₅ with self := { s₅.self with size := s₅.self.size + 1 } }) rfl ?_
  refine .pure ⟨⟨h₅.heap, ?_, hlinked₅, ?_⟩, hpnone, hpreleased, fun q hq hqx => ?_, ?_,
    fun hm => h₅.calm (h₄.calm (h₀₃.calm hm))⟩
  · simp only [hself₅]
  · exact nodup_concat.mpr ⟨h.onHeap.nodup, hpx⟩
  · exact (hframe₅ q hqx).trans (hobject₄ q hq)
  · exact h₅.released.trans (by rw [h₄.released, h₀₃.released]; rfl)

/-! ### Removing nodes -/

lemma unlinkFront_returns (h : Holds s (ys ++ x :: zs)) : (unlinkFront x.1).Returns s (fun _ s' =>
    s'.self = { ofNodes (ys ++ x :: zs) with first := front (ys ++ zs) .null } ∧
    (∃ f, Reshapes s.mem f [] s'.mem) ∧
    Linked s'.mem.object .null ys (front zs .null) ∧
    s'.mem.object x.1 = some ⟨x.2, front zs .null, back .null ys⟩ ∧
    (∃ b, Linked s'.mem.object b zs .null) ∧
    ∀ p, p ∉ keys (ys ++ zs) → s'.mem.object p = s.mem.object p) := by
  have hx := h.onHeap.linked.at
  obtain ⟨hys, -, hzs⟩ := linked_append.mp h.onHeap.linked
  obtain ⟨hxyz, hnodup⟩ := List.nodup_cons.mp
    (List.nodup_middle.mp (by simpa only [keys_append, keys_cons] using h.onHeap.nodup))
  rw [List.mem_append, not_or] at hxyz
  refine .step (read_turns h.heap hx) ?_
  rcases List.eq_nil_or_concat ys with rfl | ⟨ys, y, rfl⟩
  · rw [if_neg (show ¬back Ptr.null ([] : List (Ptr × α)) ≠ Ptr.null from not_not.mpr rfl)]
    refine .step (b := s.self) rfl ?_
    refine .step (t := { s with self := { s.self with first := front zs .null } }) rfl ?_
    cases zs with
    | nil =>
      rw [if_neg (show ¬front ([] : List (Ptr × α)) Ptr.null ≠ Ptr.null from not_not.mpr rfl)]
      exact .pure ⟨by rw [h.self]; rfl, ⟨_, .refl h.heap⟩, trivial, hx, ⟨.null, trivial⟩,
        fun _ _ => rfl⟩
    | cons z zs =>
      rw [if_pos (show front (z :: zs) Ptr.null ≠ Ptr.null from h.ne_null (by simp [front]))]
      refine (setLast_returns (s := ⟨s.mem, { s.self with first := front (z :: zs) .null }⟩)
        h.heap hzs.1).mono ?_
      intro _ s₁ h₁
      refine ⟨by rw [h₁.self, h.self]; rfl, ⟨_, h₁.toReshapes⟩, trivial, ?_, ⟨.null, ?_⟩, ?_⟩
      · rw [h₁.object, Function.update_of_ne (fun he => hxyz.2 (by rw [he]; exact List.mem_cons_self))]
        exact hx
      · rw [h₁.object]
        exact hzs.setLast (List.nodup_cons.mp hnodup).1
      · intro p hp
        rw [h₁.object, Function.update_of_ne (fun he => hp (by rw [he]; exact List.mem_cons_self))]
  · rw [List.concat_eq_append] at h hx hys hxyz hnodup ⊢
    have hy : s.mem.object y.1 = some ⟨y.2, x.1, back .null ys⟩ := hys.at
    rw [back_concat] at hx ⊢
    rw [if_pos (show y.1 ≠ Ptr.null from h.ne_null (by simp))]
    refine (setNext_returns h.heap hy).mono ?_
    intro _ s₁ h₁
    have hyy : y.1 ∉ keys ys := (nodup_concat.mp (List.nodup_append.mp hnodup).1).2
    have hyz : y.1 ∉ keys zs := fun hmem =>
      (List.nodup_append.mp hnodup).2.2 y.1 (by simp) y.1 hmem rfl
    refine ⟨?_, ⟨_, h₁.toReshapes⟩, ?_, ?_, ⟨x.1, ?_⟩, ?_⟩
    · rw [h₁.self, h.self]
      simp only [ofNodes, front_append]
      cases ys <;> rfl
    · rw [h₁.object]
      exact hys.setNext hyy
    · rw [h₁.object, Function.update_of_ne (fun he => hxyz.1 (by rw [he]; simp)), hx]
    · rw [h₁.object]
      exact hzs.update hyz
    · intro p hp
      rw [h₁.object, Function.update_of_ne (fun he => hp (by rw [he]; simp))]

lemma unlinkBack_returns (hs : Heap s.mem)
    (hself : s.self = { ofNodes (ys ++ x :: zs) with first := front (ys ++ zs) .null })
    (hys : Linked s.mem.object .null ys (front zs .null))
    (hx : s.mem.object x.1 = some ⟨x.2, front zs .null, back .null ys⟩)
    (hzs : ∃ b, Linked s.mem.object b zs .null) (hnodup : (keys (ys ++ x :: zs)).Nodup) :
    (unlinkBack x.1).Returns s (fun _ s' =>
      s'.self = { ofNodes (ys ++ zs) with size := (ys ++ x :: zs).length } ∧
      (∃ f, Reshapes s.mem f [] s'.mem) ∧
      Linked s'.mem.object .null (ys ++ zs) .null ∧
      (s'.mem.object x.1).isSome ∧
      ∀ p, p ∉ keys (ys ++ zs) → s'.mem.object p = s.mem.object p) := by
  obtain ⟨b, hzs⟩ := hzs
  obtain ⟨hxyz, hnodup⟩ := List.nodup_cons.mp
    (List.nodup_middle.mp (by simpa only [keys_append, keys_cons] using hnodup))
  rw [List.mem_append, not_or] at hxyz
  refine .step (read_turns hs hx) ?_
  cases zs with
  | cons z zs =>
    have hz : s.mem.object z.1 = some ⟨z.2, front zs .null, b⟩ := hzs.1
    rw [if_pos (show front (z :: zs) Ptr.null ≠ Ptr.null from hs.ne_null hz)]
    refine (setLast_returns hs hz).mono ?_
    intro _ s₁ h₁
    refine ⟨?_, ⟨_, h₁.toReshapes⟩, linked_append.mpr ⟨?_, ?_⟩, ?_, ?_⟩
    · rw [h₁.self, hself]
      simp only [ofNodes, back_append, back]
    · rw [h₁.object]
      exact hys.update (fun hmem =>
        (List.nodup_append.mp hnodup).2.2 z.1 hmem z.1 List.mem_cons_self rfl)
    · rw [h₁.object]
      exact hzs.setLast (List.nodup_cons.mp (List.nodup_append.mp hnodup).2.1).1
    · rw [h₁.object, Function.update_of_ne (fun he => hxyz.2 (by rw [he]; exact List.mem_cons_self)),
        hx]
      rfl
    · intro p hp
      rw [h₁.object, Function.update_of_ne (fun he => hp (by rw [he]; simp))]
  | nil =>
    rw [if_neg (show ¬front ([] : List (Ptr × α)) Ptr.null ≠ Ptr.null from not_not.mpr rfl)]
    refine .step (b := s.self) rfl ?_
    refine .step (t := { s with self := { s.self with second := back .null ys } }) rfl ?_
    rw [List.append_nil] at *
    rcases List.eq_nil_or_concat ys with rfl | ⟨ys, y, rfl⟩
    · rw [if_neg (show ¬back Ptr.null ([] : List (Ptr × α)) ≠ Ptr.null from not_not.mpr rfl)]
      exact .pure ⟨by rw [hself]; rfl, ⟨_, .refl hs⟩, trivial, by rw [hx]; rfl, fun _ _ => rfl⟩
    · rw [List.concat_eq_append] at *
      have hy : s.mem.object y.1 = some ⟨y.2, .null, back .null ys⟩ := hys.at
      rw [back_concat] at *
      rw [if_pos (show y.1 ≠ Ptr.null from hs.ne_null hy)]
      refine (setNext_returns (s := ⟨s.mem, { s.self with second := y.1 }⟩) hs hy).mono ?_
      intro _ s₁ h₁
      have hsame : s₁.mem.object = s.mem.object := by
        rw [h₁.object]
        change Function.update s.mem.object y.1 (some ⟨y.2, .null, back .null ys⟩) = _
        rw [← hy, Function.update_eq_self]
      refine ⟨?_, ⟨_, h₁.toReshapes⟩, by rw [hsame]; exact hys, by rw [hsame, hx]; rfl,
        fun p _ => by rw [hsame]⟩
      rw [h₁.self, hself]
      simp only [ofNodes, back_concat]

lemma popAt_returns (h : Holds s (ys ++ x :: zs)) : (popAt x.1).Returns s
    (fun _ s' => Changes s (ys ++ x :: zs) (ys ++ zs) [x.1] s') := by
  have hxyz := (List.nodup_cons.mp (List.nodup_middle.mp
    (by simpa only [keys_append, keys_cons] using h.onHeap.nodup))).1
  rw [← keys_append] at hxyz
  rw [popAt, if_neg (h.ne_null (by simp))]
  refine (unlinkFront_returns h).bind ?_
  rintro _ s₁ ⟨hself₁, ⟨f₁, h₁⟩, hys₁, hx₁, hzs₁, hframe₁⟩
  refine (unlinkBack_returns h₁.heap hself₁ hys₁ hx₁ hzs₁ h.onHeap.nodup).bind ?_
  rintro _ s₂ ⟨hself₂, ⟨f₂, h₂⟩, hlinked₂, hx₂, hframe₂⟩
  obtain ⟨n, hn⟩ := Option.isSome_iff_exists.mp hx₂
  refine (destroyNode_returns h₂.heap hn).bind ?_
  intro _ s₃ h₃
  refine .step (b := s₃.self) rfl (setSelf_returns ?_)
  refine ⟨⟨h₃.heap, ?_, ?_, ?_⟩, fun p hp hp' => ?_, ?_,
    fun hm => h₃.calm (h₂.calm (h₁.calm hm))⟩
  · rw [h₃.self, hself₂]
    simp only [ofNodes, decrement, List.length_append, List.length_cons]
    rw [if_neg (by omega)]
    rfl
  · change Linked s₃.mem.object _ _ _
    rw [h₃.object]
    exact hlinked₂.update hxyz
  · rw [keys_append]
    exact (List.nodup_cons.mp (List.nodup_middle.mp
      (by simpa only [keys_append, keys_cons] using h.onHeap.nodup))).2
  · change s₃.mem.object p = _
    rw [h₃.object, Function.update_of_ne (fun he => hp (by rw [he]; simp)), hframe₂ p hp',
      hframe₁ p hp']
  · change released s₃.mem.trace = _
    rw [h₃.released, h₂.released, h₁.released]
    rfl

lemma popBack_nil (h : Holds s ([] : List (Ptr × α))) : popBack.Returns s (fun _ s' => s' = s) := by
  refine .step (b := s.self) rfl ?_
  rw [h.self, if_pos (show (ofNodes ([] : List (Ptr × α))).first = Ptr.null from rfl)]
  exact .pure rfl

lemma popBack_returns (h : Holds s (ys ++ [x])) : popBack.Returns s
    (fun _ s' => Changes s (ys ++ [x]) ys [x.1] s') := by
  have hx := h.onHeap.linked.at
  obtain ⟨hys, -⟩ := linked_append.mp h.onHeap.linked
  obtain ⟨hnodup, hxys⟩ := nodup_concat.mp h.onHeap.nodup
  refine .step (b := s.self) rfl ?_
  have hsecond : (ofNodes (ys ++ [x])).second = x.1 := back_concat _ _ _
  rw [h.self, if_neg (h.first_ne (by simp)), hsecond]
  rcases List.eq_nil_or_concat ys with rfl | ⟨ys, y, rfl⟩
  · rw [if_pos (show (ofNodes ([] ++ [x])).first = x.1 from rfl)]
    refine (destroyNode_returns h.heap hx).bind ?_
    intro _ s₁ h₁
    refine setSelf_returns ⟨⟨h₁.heap, rfl, trivial, List.nodup_nil⟩, fun p hp _ => ?_, h₁.released,
      h₁.calm⟩
    change s₁.mem.object p = _
    rw [h₁.object]
    exact Function.update_of_ne (fun he => hp (by rw [he]; exact List.mem_cons_self)) _ _
  · rw [List.concat_eq_append] at *
    have hfirst : (ofNodes (ys ++ [y] ++ [x])).first ≠ x.1 := by
      intro he
      refine hxys ?_
      rw [← he]
      simp only [ofNodes, front_append]
      cases ys <;> simp [front]
    have hy : s.mem.object y.1 = some ⟨y.2, x.1, back .null ys⟩ := hys.at
    have hyx : y.1 ≠ x.1 := fun he => hxys (by rw [← he]; simp)
    rw [back_concat] at hx
    rw [if_neg hfirst]
    refine .step (read_turns h.heap hx) ?_
    refine (destroyNode_returns h.heap hx).bind ?_
    intro _ s₁ h₁
    have hy₁ : s₁.mem.object y.1 = some ⟨y.2, x.1, back .null ys⟩ := by
      rw [h₁.object, Function.update_of_ne hyx, hy]
    refine (setNext_returns h₁.heap hy₁).bind ?_
    intro _ s₂ h₂
    refine setSelf_returns ⟨⟨h₂.heap, ?_, ?_, hnodup⟩, fun p hp hp' => ?_, ?_,
      fun hm => h₂.calm (h₁.calm hm)⟩
    · simp only [ofNodes, decrement, back_concat, front_append, List.length_append,
        List.length_singleton]
      rw [if_neg (by omega)]
      cases ys <;> rfl
    · change Linked s₂.mem.object _ _ _
      rw [h₂.object, h₁.object]
      exact (hys.update (c := none) hxys).setNext (nodup_concat.mp hnodup).2
    · change s₂.mem.object p = _
      rw [h₂.object, Function.update_of_ne (fun he => hp' (by rw [he]; simp)), h₁.object,
        Function.update_of_ne (fun he => hp (by rw [he]; simp))]
    · change released s₂.mem.trace = _
      rw [h₂.released, h₁.released]
      rfl

lemma clearFrom_returns {b : Ptr} {rounds : ℕ} (hs : Heap s.mem)
    (hxs : Linked s.mem.object b xs .null) (hnodup : (keys xs).Nodup) (hrounds : xs.length ≤ rounds) :
    (clearFrom rounds (front xs .null)).Returns s (fun _ s' => s'.self = s.self ∧ Heap s'.mem ∧
      (∀ p, p ∉ keys xs → s'.mem.object p = s.mem.object p) ∧
      released s'.mem.trace = (keys xs).reverse ++ released s.mem.trace ∧
      (s.mem.fuse = none → s'.mem.fuse = none)) := by
  induction xs generalizing s b rounds with
  | nil =>
    have hend : clearFrom rounds (front ([] : List (Ptr × α)) .null) = (pure () : Method α Unit) := by
      cases rounds <;> exact if_pos rfl
    rw [hend]
    exact .pure ⟨rfl, hs, fun _ _ => rfl, rfl, id⟩
  | cons x xs ih =>
    obtain ⟨rounds, rfl⟩ : ∃ k, rounds = k + 1 := ⟨rounds - 1, by
      rw [List.length_cons] at hrounds
      omega⟩
    obtain ⟨hx, hxs⟩ := hxs
    obtain ⟨hxxs, hnodup⟩ := List.nodup_cons.mp hnodup
    rw [clearFrom, if_neg (show front (x :: xs) Ptr.null ≠ Ptr.null from hs.ne_null hx)]
    refine .step (read_turns hs hx) ?_
    refine (destroyNode_returns hs hx).bind ?_
    intro _ s₁ h₁
    refine (ih h₁.heap (by rw [h₁.object]; exact hxs.update hxxs) hnodup
      (by simpa using hrounds)).mono ?_
    rintro _ s₂ ⟨hself₂, hheap₂, hframe₂, hreleased₂, hcalm₂⟩
    refine ⟨hself₂.trans h₁.self, hheap₂, fun p hp => ?_, ?_, fun hm => hcalm₂ (h₁.calm hm)⟩
    · rw [keys_cons, List.mem_cons, not_or] at hp
      rw [hframe₂ p hp.2, h₁.object, Function.update_of_ne hp.1]
    · rw [hreleased₂, h₁.released, keys_cons, List.reverse_cons, List.append_assoc]

lemma Shows.clear_returns (h : Shows s xs k) : clear.Returns s
    (fun _ s' => Changes s xs [] (keys xs).reverse s') := by
  refine .step (b := s.self) rfl ?_
  refine .step (b := s.mem.fresh) (t := s) rfl ?_
  have hrounds : xs.length ≤ s.mem.fresh := by
    have hle := h.heap.length_le h.onHeap.nodup (fun p hp => h.onHeap.linked.isSome hp)
    rwa [keys, List.length_map] at hle
  rw [h.self]
  refine (clearFrom_returns h.heap h.onHeap.linked h.onHeap.nodup hrounds).bind ?_
  rintro _ s₁ ⟨-, hheap₁, hframe₁, hreleased₁, hcalm₁⟩
  exact setSelf_returns ⟨⟨hheap₁, rfl, trivial, List.nodup_nil⟩, fun p hp _ => hframe₁ p hp,
    hreleased₁, hcalm₁⟩

lemma clear_returns (h : Holds s xs) : clear.Returns s
    (fun _ s' => Changes s xs [] (keys xs).reverse s') := h.shows.clear_returns

lemma assignMove_returns {o : LinkedList} (h : Holds s xs) (ho : o = ofNodes ys)
    (hys : OnHeap s.mem ys) (hapart : List.Disjoint (keys xs) (keys ys)) :
    (assignMove o).Returns s (fun left s' => left = ofNodes ([] : List (Ptr × α)) ∧
      Holds s' ys ∧ (∀ p, p ∉ keys xs → s'.mem.object p = s.mem.object p) ∧
      released s'.mem.trace = (keys xs).reverse ++ released s.mem.trace) := by
  refine (clear_returns h).bind ?_
  intro _ s₁ h₁
  refine .step (t := { s₁ with self := o }) rfl (.pure ⟨rfl, ⟨h₁.holds.heap, ho, ?_, hys.nodup⟩,
    fun p hp => h₁.frame p hp List.not_mem_nil, h₁.released⟩)
  exact hys.linked.congr (fun p hp => h₁.frame p (fun hx => hapart hx hp) List.not_mem_nil)

lemma emplaceBack_mild {E : Element α} {take : Method α α} (htake : take.Mild) :
    (emplaceBack E take).Mild := by
  refine (allocate_mild 1).bind (fun p => htake.bind (fun val => (mayThrow_mild _).bind (fun _ =>
    self_mild.bind (fun l => (construct_mild p _).bind (fun _ => ?_)))))
  have hset : ∀ q : Ptr, ∀ g : Node α → Node α, (do
      let n ← Cxx.read q
      assign q (g n) : Method α Unit).Mild :=
    fun q g => (read_mild q).bind (fun n => assign_mild q (g n))
  refine Code.Mild.bind (self_mild.bind (fun l' => ?_)) (fun _ =>
    self_mild.bind (fun l'' => (setSelf_mild _).bind (fun _ => Code.Mild.pure p)))
  split_ifs
  · exact setSelf_mild _
  · exact (hset _ _).bind (fun _ => (hset _ _).bind (fun _ => setSelf_mild _))

lemma push_ends {E : Element α} {b : Bool} {val : α} (h : Holds s xs) :
    (emplaceBack E (do
      mayThrow b
      pure val)).Ends s
    (fun p s' => p ∉ released s.mem.trace ∧ s.mem.object p = none ∧
      Changes s xs (xs ++ [(p, val)]) [] s')
    (fun s' => Turns s s.mem.object [] s' ∧ s.mem.fuse ≠ none) := by
  refine (emplaceBack_ends (f := s.mem.object) val h.shows (fun t ht => ?_) (fun _ ht hm => ⟨ht, hm⟩)
    (fun _ ht hm => ⟨ht, hm⟩) h.onHeap.linked (fun _ hq => hq)).mono ?_ (fun _ hs' => hs')
  · refine Code.Ends.bind ((mayThrow_turns b ht.heap).mono (fun _ _ h => h) (fun u hu => ?_)) ?_
    · rw [ht.object] at hu
      exact ⟨ht.trans hu.1, fun hm => hu.2 (ht.calm hm)⟩
    · intro _ u hu
      rw [ht.object] at hu
      exact .pure ⟨rfl, hu⟩
  · intro p s' hs'
    have hholds : Shows s' (xs ++ [(p, val)]) (xs ++ [(p, val)]).length := by
      rw [List.length_append, List.length_singleton]
      exact hs'.shows
    refine ⟨hs'.never, hs'.fresh, hholds.holds, fun q hq hq' => hs'.frame q (fun he => hq' ?_) hq,
      hs'.released, hs'.calm⟩
    rw [he, keys_append]
    exact List.mem_append_right _ List.mem_cons_self

/-! ### What no exception leaves -/

lemma setNext_nothrow (p q : Ptr) : (setNext p q : Method α Unit).Nothrow :=
  (read_nothrow p).bind (fun _ => assign_nothrow p _)

lemma setLast_nothrow (p q : Ptr) : (setLast p q : Method α Unit).Nothrow :=
  (read_nothrow p).bind (fun _ => assign_nothrow p _)

lemma destroyNode_nothrow (p : Ptr) : (destroyNode p : Method α Unit).Nothrow :=
  (destroy_nothrow p).bind (fun _ => deallocate_nothrow p 1)

lemma unlinkFront_nothrow (p : Ptr) : (unlinkFront p : Method α Unit).Nothrow :=
  (read_nothrow p).bind (fun _ => .ite (setNext_nothrow _ _) (self_nothrow.bind (fun _ =>
    (setSelf_nothrow _).bind (fun _ => .ite (setLast_nothrow _ _) (.pure ())))))

lemma unlinkBack_nothrow (p : Ptr) : (unlinkBack p : Method α Unit).Nothrow :=
  (read_nothrow p).bind (fun _ => .ite (setLast_nothrow _ _) (self_nothrow.bind (fun _ =>
    (setSelf_nothrow _).bind (fun _ => .ite (setNext_nothrow _ _) (.pure ())))))

lemma popAt_nothrow (p : Ptr) : (popAt p : Method α Unit).Nothrow :=
  .ite (.pure ()) ((unlinkFront_nothrow p).bind (fun _ => (unlinkBack_nothrow p).bind (fun _ =>
    (destroyNode_nothrow p).bind (fun _ => self_nothrow.bind (fun _ => setSelf_nothrow _)))))

lemma clearFrom_nothrow (rounds : ℕ) (cur : Ptr) :
    (clearFrom rounds cur : Method α Unit).Nothrow := by
  induction rounds generalizing cur with
  | zero => exact .ite (.pure ()) (.undefined .dead)
  | succ rounds ih =>
    exact .ite (.pure ()) ((read_nothrow cur).bind (fun node =>
      (destroyNode_nothrow cur).bind (fun _ => ih node.next)))

lemma handedOut_nothrow {ρ : Type} : (handedOut : Code (State α ρ) ℕ).Nothrow :=
  fun _ _ h => by cases h

lemma clear_nothrow : (clear : Method α Unit).Nothrow :=
  self_nothrow.bind (fun _ => handedOut_nothrow.bind (fun rounds =>
    (clearFrom_nothrow rounds _).bind (fun _ => setSelf_nothrow nil)))

end LinkedList

end Voxory
