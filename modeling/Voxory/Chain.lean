import Mathlib.Tactic

/-!
# Doubly linked chains

A partial map holds nodes under addresses. `Linked` says that it holds the nodes of a sequence,
each with the addresses of its two neighbours, and the rules below say what the updates that
linking and unlinking are made of do to it. `Follows` is the walk along one kind of link.
-/

namespace Chain

structure Node (P V : Type) where
  data : V
  next : P
  last : P
  deriving DecidableEq, Repr

variable {P V : Type}

/-- The address of the first node, or what comes after. -/
def front : List (P × V) → P → P
  | [], after => after
  | x :: _, _ => x.1

/-- The address of the last node, or what comes before. -/
def back : P → List (P × V) → P
  | before, [] => before
  | _, x :: xs => back x.1 xs

/-- The nodes `xs` are linked to each other, to `before` and to `after`. -/
def Linked (f : P → Option (Node P V)) : P → List (P × V) → P → Prop
  | _, [], _ => True
  | before, x :: xs, after => f x.1 = some ⟨x.2, front xs after, before⟩ ∧ Linked f x.1 xs after

/-- The addresses of the nodes. -/
def keys (xs : List (P × V)) : List P := xs.map Prod.fst

/-- From `p` the links `step` lead through the nodes `ps` to `stop`. -/
def Follows (f : P → Option (Node P V)) (step : Node P V → P) : P → List P → P → Prop
  | p, [], stop => p = stop
  | p, q :: qs, stop => p = q ∧ ∃ n, f q = some n ∧ Follows f step (step n) qs stop

variable {f g : P → Option (Node P V)} {before after p q : P} {x : P × V} {xs ys : List (P × V)}
  {c : Option (Node P V)}

@[simp] lemma keys_nil : keys ([] : List (P × V)) = [] := rfl

@[simp] lemma keys_cons (x : P × V) (xs : List (P × V)) : keys (x :: xs) = x.1 :: keys xs := rfl

@[simp] lemma keys_append (xs ys : List (P × V)) : keys (xs ++ ys) = keys xs ++ keys ys :=
  List.map_append

lemma nodup_concat {xs : List (P × V)} {x : P × V} :
    (keys (xs ++ [x])).Nodup ↔ (keys xs).Nodup ∧ x.1 ∉ keys xs := by
  rw [keys_append, keys_cons, keys_nil, ← List.concat_eq_append, List.nodup_concat]
  exact and_comm

lemma front_append (xs ys : List (P × V)) (after : P) :
    front (xs ++ ys) after = front xs (front ys after) := by
  cases xs <;> rfl

lemma back_append (before : P) (xs ys : List (P × V)) :
    back before (xs ++ ys) = back (back before xs) ys := by
  induction xs generalizing before with
  | nil => rfl
  | cons x xs ih => exact ih x.1

lemma back_concat (before : P) (xs : List (P × V)) (x : P × V) :
    back before (xs ++ [x]) = x.1 := by
  rw [back_append]
  rfl

lemma front_congr (h : keys xs = keys ys) : front xs after = front ys after := by
  cases xs with
  | nil => rw [List.map_eq_nil_iff.mp h.symm]
  | cons x xs =>
    cases ys with
    | nil => cases h
    | cons y ys => exact (List.cons.inj h).1

lemma back_congr (h : keys xs = keys ys) : back before xs = back before ys := by
  induction xs generalizing before ys with
  | nil => rw [List.map_eq_nil_iff.mp h.symm]
  | cons x xs ih =>
    cases ys with
    | nil => cases h
    | cons y ys =>
      obtain ⟨hxy, hrest⟩ := List.cons.inj h
      rw [back, back, hxy]
      exact ih hrest

lemma front_mem {a : P} : xs ≠ [] → front xs a ∈ keys xs := by
  cases xs with
  | nil => exact fun h => absurd rfl h
  | cons x xs => exact fun _ => List.mem_cons_self

lemma back_mem (h : xs ≠ []) : back before xs ∈ keys xs := by
  obtain ⟨ys, x, rfl⟩ := List.eq_nil_or_concat xs |>.resolve_left h
  rw [List.concat_eq_append, back_concat, keys_append]
  exact List.mem_append_right _ List.mem_cons_self

lemma linked_append : Linked f before (xs ++ ys) after ↔
    Linked f before xs (front ys after) ∧ Linked f (back before xs) ys after := by
  induction xs generalizing before with
  | nil => exact ⟨fun h => ⟨trivial, h⟩, And.right⟩
  | cons x xs ih =>
    simp only [List.cons_append, Linked, front_append, ih, back, and_assoc]

lemma Linked.congr (h : Linked f before xs after) (hfg : ∀ p ∈ keys xs, g p = f p) :
    Linked g before xs after := by
  induction xs generalizing before with
  | nil => trivial
  | cons x xs ih =>
    rw [keys_cons, List.forall_mem_cons] at hfg
    exact ⟨hfg.1.trans h.1, ih h.2 hfg.2⟩

lemma Linked.at (h : Linked f before (xs ++ x :: ys) after) :
    f x.1 = some ⟨x.2, front ys after, back before xs⟩ :=
  (linked_append.mp h).2.1

lemma Linked.isSome (h : Linked f before xs after) (hp : p ∈ keys xs) : (f p).isSome := by
  obtain ⟨x, hx, rfl⟩ := List.mem_map.mp hp
  obtain ⟨ys, zs, rfl⟩ := List.append_of_mem hx
  rw [h.at]
  rfl

lemma Linked.not_mem (h : Linked f before xs after) (hp : f p = none) : p ∉ keys xs := by
  intro hmem
  have hsome := h.isSome hmem
  rw [hp] at hsome
  cases hsome

section Updates

variable [DecidableEq P]

lemma Linked.update (h : Linked f before xs after) (hp : p ∉ keys xs) :
    Linked (Function.update f p c) before xs after :=
  h.congr (fun q hq => Function.update_of_ne (fun he : q = p => hp (he ▸ hq)) c f)

lemma Linked.setNext {a : P} (h : Linked f before (xs ++ [x]) after) (hx : x.1 ∉ keys xs) :
    Linked (Function.update f x.1 (some ⟨x.2, a, back before xs⟩)) before (xs ++ [x]) a := by
  obtain ⟨hxs, -⟩ := linked_append.mp h
  exact linked_append.mpr ⟨hxs.update hx, Function.update_self _ _ _, trivial⟩

lemma Linked.setLast {b : P} (h : Linked f before (x :: xs) after) (hx : x.1 ∉ keys xs) :
    Linked (Function.update f x.1 (some ⟨x.2, front xs after, b⟩)) b (x :: xs) after :=
  ⟨Function.update_self _ _ _, h.2.update hx⟩

end Updates

/-! ### Walks -/

/-- The nodes of a walk that is broken off after some steps. -/
def walk [DecidableEq P] (f : P → Option (Node P V)) (step : Node P V → P) (stop : P) : ℕ → P → List P
  | 0, _ => []
  | k + 1, p =>
    if p = stop then []
    else p :: match f p with
      | some n => walk f step stop k (step n)
      | none => []

lemma Follows.mem_of_walk [DecidableEq P] {step : Node P V → P} {ps : List P} {stop : P} {k : ℕ}
    (h : Follows f step p ps stop) (hq : q ∈ walk f step stop k p) : q ∈ ps := by
  induction k generalizing p ps with
  | zero => exact absurd hq List.not_mem_nil
  | succ k ih =>
    rw [walk] at hq
    split_ifs at hq with hp
    · exact absurd hq List.not_mem_nil
    · cases ps with
      | nil => exact absurd h hp
      | cons r rs =>
        obtain ⟨rfl, n, hn, hrest⟩ := h
        rw [hn] at hq
        rcases List.mem_cons.mp hq with rfl | hq
        · exact List.mem_cons_self
        · exact List.mem_cons_of_mem _ (ih hrest hq)

lemma Linked.follows_next (h : Linked f before xs after) :
    Follows f Node.next (front xs after) (keys xs) after := by
  induction xs generalizing before with
  | nil => rfl
  | cons x xs ih => exact ⟨rfl, _, h.1, ih h.2⟩

lemma Follows.append {step : Node P V → P} {ps qs : List P} {stop : P}
    (h : Follows f step p ps q) (h' : Follows f step q qs stop) :
    Follows f step p (ps ++ qs) stop := by
  induction ps generalizing p with
  | nil =>
    cases h
    exact h'
  | cons r rs ih =>
    obtain ⟨hr, n, hn, hrest⟩ := h
    exact ⟨hr, n, hn, ih hrest⟩

lemma Linked.follows_last (h : Linked f before xs after) :
    Follows f Node.last (back before xs) (keys xs).reverse before := by
  induction xs generalizing before with
  | nil => rfl
  | cons x xs ih =>
    rw [keys_cons, List.reverse_cons]
    exact (ih h.2).append ⟨rfl, _, h.1, rfl⟩

/-- Where a walk ends is not a node, so that there is only one walk to it. -/
lemma Follows.unique {step : Node P V → P} {ps qs : List P} (hq : f q = none)
    (h : Follows f step p ps q) (h' : Follows f step p qs q) : ps = qs := by
  induction ps generalizing p qs with
  | nil =>
    cases h
    cases qs with
    | nil => rfl
    | cons r rs =>
      obtain ⟨rfl, n, hn, -⟩ := h'
      rw [hq] at hn
      cases hn
  | cons r rs ih =>
    obtain ⟨rfl, n, hn, hrest⟩ := h
    cases qs with
    | nil =>
      cases h'
      rw [hq] at hn
      cases hn
    | cons r' rs' =>
      obtain ⟨rfl, n', hn', hrest'⟩ := h'
      rw [hn] at hn'
      cases hn'
      rw [ih hrest hrest']

/-- The links of a chain lead to its own nodes or out of it. -/
lemma Linked.links (h : Linked f before xs after) {n : Node P V} (hp : p ∈ keys xs)
    (hn : f p = some n) : (n.next ∈ keys xs ∨ n.next = after) ∧
      (n.last ∈ keys xs ∨ n.last = before) := by
  obtain ⟨x, hx, rfl⟩ := List.mem_map.mp hp
  obtain ⟨ys, zs, rfl⟩ := List.append_of_mem hx
  rw [h.at] at hn
  cases hn
  refine ⟨?_, ?_⟩
  · cases zs with
    | nil => exact Or.inr rfl
    | cons z zs => exact Or.inl (by simp [front])
  · rcases List.eq_nil_or_concat ys with rfl | ⟨ys', y, rfl⟩
    · exact Or.inr rfl
    · exact Or.inl (by simp [back_concat])

/-! ### Steps along the links -/

/-- The address that `k` links `step` lead to, over nodes that are there. -/
def stride (f : P → Option (Node P V)) (step : Node P V → P) : ℕ → P → Option P
  | 0, p => some p
  | k + 1, p => (f p).bind (fun n => stride f step k (step n))

/-- The address `off` nodes further on. -/
def strideBy (f : P → Option (Node P V)) : ℤ → P → Option P
  | .ofNat k, p => stride f Node.next k p
  | .negSucc k, p => stride f Node.last (k + 1) p

/-- The places that a walk over the nodes can come to. -/
def spots (before : P) (ps : List P) (after : P) : List P := before :: ps ++ [after]

lemma spots_length (before : P) (ps : List P) (after : P) :
    (spots before ps after).length = ps.length + 2 := by
  rw [spots, List.length_append, List.length_cons, List.length_singleton]

lemma Follows.stride {step : Node P V → P} {ps : List P} {stop : P} (hstop : f stop = none)
    (h : Follows f step p ps stop) (k : ℕ) : stride f step k p = (ps ++ [stop])[k]? := by
  induction k generalizing p ps with
  | zero =>
    cases ps with
    | nil =>
      cases h
      rfl
    | cons q qs =>
      obtain ⟨rfl, -⟩ := h
      rfl
  | succ k ih =>
    cases ps with
    | nil =>
      cases h
      rw [Chain.stride, hstop]
      rfl
    | cons q qs =>
      obtain ⟨rfl, n, hn, hrest⟩ := h
      rw [Chain.stride, hn]
      exact ih hrest

lemma exists_split {i : ℕ} (h : (keys xs)[i]? = some p) :
    ∃ ys v zs, xs = ys ++ (p, v) :: zs ∧ ys.length = i := by
  rw [keys, List.getElem?_map] at h
  obtain ⟨x, hx, rfl⟩ := Option.map_eq_some_iff.mp h
  obtain ⟨hi, hget⟩ := List.getElem?_eq_some_iff.mp hx
  refine ⟨xs.take i, x.2, xs.drop (i + 1), ?_, List.length_take_of_le hi.le⟩
  rw [← hget, ← List.drop_eq_getElem_cons hi, List.take_append_drop]

lemma Linked.stride_next {i : ℕ} (hafter : f after = none) (h : Linked f before xs after)
    (hi : (keys xs)[i]? = some p) (k : ℕ) :
    stride f Node.next k p = (spots before (keys xs) after)[i + 1 + k]? := by
  obtain ⟨ys, v, zs, rfl, rfl⟩ := exists_split hi
  have hrest := (linked_append.mp h).2.follows_next.stride hafter k
  have hlength : (before :: keys ys).length = ys.length + 1 := by simp [keys]
  rw [spots, keys_append, ← List.cons_append, List.append_assoc, ← hlength,
    List.getElem?_append_right (Nat.le_add_right _ _), Nat.add_sub_cancel_left, ← hrest]
  rfl

lemma Linked.stride_last {i : ℕ} (hbefore : f before = none) (h : Linked f before xs after)
    (hi : (keys xs)[i]? = some p) (k : ℕ) : stride f Node.last k p =
      if k ≤ i + 1 then (spots before (keys xs) after)[i + 1 - k]? else none := by
  obtain ⟨ys, v, zs, rfl, rfl⟩ := exists_split hi
  have hfront : Linked f before (ys ++ [(p, v)]) (front zs after) := by
    have hchain := linked_append.mp h
    exact linked_append.mpr ⟨hchain.1, hchain.2.1, trivial⟩
  have hrest := hfront.follows_last.stride hbefore k
  rw [back_concat] at hrest
  have hlength : (before :: keys (ys ++ [(p, v)])).length = ys.length + 2 := by simp [keys]
  have hspots : spots before (keys (ys ++ (p, v) :: zs)) after =
      (before :: keys (ys ++ [(p, v)])) ++ (keys zs ++ [after]) := by simp [spots]
  rw [hrest, ← List.reverse_cons, hspots]
  split_ifs with hk
  · rw [List.getElem?_reverse (by omega), List.getElem?_append_left (by omega), hlength]
    congr 1
  · exact List.getElem?_eq_none (by rw [List.length_reverse]; omega)

/-- From a node the links lead to the spot as many places further on. -/
theorem Linked.strideBy_iff {i : ℕ} {off : ℤ} (hbefore : f before = none) (hafter : f after = none)
    (h : Linked f before xs after) (hi : (keys xs)[i]? = some p) : strideBy f off p = some q ↔
      ∃ j : ℕ, (i : ℤ) + 1 + off = j ∧ (spots before (keys xs) after)[j]? = some q := by
  cases off with
  | ofNat k =>
    rw [strideBy, h.stride_next hafter hi k]
    refine ⟨fun hq => ⟨i + 1 + k, by push_cast; rfl, hq⟩, ?_⟩
    rintro ⟨j, hj, hq⟩
    obtain rfl : j = i + 1 + k := by
      rw [Int.ofNat_eq_natCast] at hj
      omega
    exact hq
  | negSucc k =>
    rw [strideBy, h.stride_last hbefore hi (k + 1)]
    split_ifs with hk
    · refine ⟨fun hq => ⟨i + 1 - (k + 1), by omega, hq⟩, ?_⟩
      rintro ⟨j, hj, hq⟩
      obtain rfl : j = i + 1 - (k + 1) := by omega
      exact hq
    · refine iff_of_false (by simp) ?_
      rintro ⟨j, hj, -⟩
      omega

lemma strideBy_dead {off : ℤ} (hp : f p = none) :
    strideBy f off p = some q ↔ off = 0 ∧ q = p := by
  cases off with
  | ofNat k =>
    cases k with
    | zero => exact ⟨fun h => ⟨rfl, (Option.some.inj h).symm⟩, fun h => by rw [h.2]; rfl⟩
    | succ k =>
      rw [strideBy, stride, hp]
      refine iff_of_false (by simp) (fun h => ?_)
      have hzero := h.1
      rw [Int.ofNat_eq_natCast] at hzero
      omega
  | negSucc k =>
    rw [strideBy, stride, hp]
    refine iff_of_false (by simp) (fun h => ?_)
    have hzero := h.1
    omega

lemma Follows.walk_eq [DecidableEq P] {step : Node P V → P} {ps : List P} {stop : P} {k : ℕ}
    (hstop : f stop = none) (h : Follows f step p ps stop) (hk : ps.length ≤ k) :
    walk f step stop k p = ps := by
  induction k generalizing p ps with
  | zero => exact (List.eq_nil_of_length_eq_zero (Nat.le_zero.mp hk)).symm
  | succ k ih =>
    cases ps with
    | nil =>
      cases h
      rw [walk, if_pos rfl]
    | cons q qs =>
      obtain ⟨rfl, n, hn, hrest⟩ := h
      have hne : p ≠ stop := by
        rintro rfl
        rw [hstop] at hn
        cases hn
      rw [walk, if_neg hne, hn]
      exact congrArg (p :: ·) (ih hrest (Nat.le_of_succ_le_succ hk))

lemma Linked.setData [DecidableEq P] {v w : V} (h : Linked f before (xs ++ (p, v) :: ys) after)
    (hxs : p ∉ keys xs) (hys : p ∉ keys ys) :
    Linked (Function.update f p (some ⟨w, front ys after, back before xs⟩)) before
      (xs ++ (p, w) :: ys) after := by
  obtain ⟨hfront, -, hback⟩ := linked_append.mp h
  exact linked_append.mpr ⟨hfront.update hxs, Function.update_self _ _ _, hback.update hys⟩

end Chain
