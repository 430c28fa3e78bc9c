import Mathlib.Data.List.Infix
import Mathlib.Data.List.Flatten
import Mathlib.Tactic

/-!
# Reading a stream that arrives in blocks

A reader that wants `n` items takes whole blocks until they hold that many, keeps the first `n`
items and drops the rest. A sequence of such reads sees a prefix of the stream exactly when no
read that drops items comes before one that keeps some.
-/

namespace Blocks

variable {α : Type}

/-- The items of the blocks taken until there are `n` of them, and the blocks left; `none` if
there are not enough. -/
def draw : ℕ → List (List α) → Option (List α × List (List α))
  | 0, bs => some ([], bs)
  | _ + 1, [] => none
  | n + 1, b :: bs => (draw (n + 1 - b.length) bs).map fun d => (b ++ d.1, d.2)

/-- What successive readers keep. -/
def reads : List ℕ → List (List α) → Option (List (List α))
  | [], _ => some []
  | n :: ns, bs =>
    match draw n bs with
    | none => none
    | some d => (reads ns d.2).map (d.1.take n :: ·)

/-- No reader drops an item before another one keeps an item. -/
def Aligned : List ℕ → List (List α) → Prop
  | [], _ => True
  | n :: ns, bs =>
    match draw n bs with
    | none => True
    | some d => (d.1.length ≤ n ∨ ∀ m ∈ ns, m = 0) ∧ Aligned ns d.2

instance decidableAligned : ∀ (ns : List ℕ) (bs : List (List α)), Decidable (Aligned ns bs)
  | [], _ => .isTrue trivial
  | n :: ns, bs => by
    rw [Aligned]
    cases draw n bs with
    | none => exact .isTrue trivial
    | some d =>
      have := decidableAligned ns d.2
      exact inferInstanceAs (Decidable ((_ ∨ _) ∧ _))

variable {n : ℕ} {ns : List ℕ} {bs rest : List (List α)} {taken : List α} {outs : List (List α)}

@[simp] lemma draw_zero (bs : List (List α)) : draw 0 bs = some ([], bs) := by
  cases bs <;> rfl

lemma draw_length (h : draw n bs = some (taken, rest)) : n ≤ taken.length := by
  induction bs generalizing n taken with
  | nil =>
    cases n with
    | zero => exact Nat.zero_le _
    | succ n => cases h
  | cons b bs ih =>
    cases n with
    | zero => exact Nat.zero_le _
    | succ n =>
      obtain ⟨⟨d, r⟩, hd, heq⟩ := Option.map_eq_some_iff.mp h
      cases heq
      have hlen : n + 1 - b.length ≤ d.length := ih hd
      change n + 1 ≤ (b ++ d).length
      rw [List.length_append]
      omega

lemma draw_flatten (h : draw n bs = some (taken, rest)) : bs.flatten = taken ++ rest.flatten := by
  induction bs generalizing n taken with
  | nil =>
    cases n with
    | zero =>
      cases h
      rfl
    | succ n => cases h
  | cons b bs ih =>
    cases n with
    | zero =>
      cases h
      rfl
    | succ n =>
      obtain ⟨⟨d, r⟩, hd, heq⟩ := Option.map_eq_some_iff.mp h
      cases heq
      rw [List.flatten_cons, ih hd, List.append_assoc]

lemma reads_cons (h : reads (n :: ns) bs = some outs) : ∃ taken rest outs',
    draw n bs = some (taken, rest) ∧ reads ns rest = some outs' ∧
    outs = taken.take n :: outs' := by
  rw [reads] at h
  cases hd : draw n bs with
  | none =>
    rw [hd] at h
    cases h
  | some d =>
    rw [hd] at h
    obtain ⟨outs', houts, rfl⟩ := Option.map_eq_some_iff.mp h
    exact ⟨d.1, d.2, outs', rfl, houts, rfl⟩

lemma reads_nothing (h : reads ns bs = some outs) (hns : ∀ m ∈ ns, m = 0) :
    outs.flatten = [] := by
  induction ns generalizing bs outs with
  | nil =>
    cases h
    rfl
  | cons n ns ih =>
    obtain ⟨taken, rest, outs', -, hrest, rfl⟩ := reads_cons h
    obtain rfl : n = 0 := hns n List.mem_cons_self
    rw [List.flatten_cons, List.take_zero, List.nil_append]
    exact ih hrest (fun m hm => hns m (List.mem_cons_of_mem _ hm))

lemma reads_length (h : reads ns bs = some outs) : outs.flatten.length = ns.sum := by
  induction ns generalizing bs outs with
  | nil =>
    cases h
    rfl
  | cons n ns ih =>
    obtain ⟨taken, rest, outs', hd, hrest, rfl⟩ := reads_cons h
    have hlen := draw_length hd
    rw [List.flatten_cons, List.length_append, List.length_take, ih hrest, List.sum_cons]
    omega

lemma reads_subset (h : reads ns bs = some outs) {v : α} (hv : v ∈ outs.flatten) :
    v ∈ bs.flatten := by
  induction ns generalizing bs outs with
  | nil =>
    cases h
    cases hv
  | cons n ns ih =>
    obtain ⟨taken, rest, outs', hd, hrest, rfl⟩ := reads_cons h
    rw [draw_flatten hd, List.mem_append]
    rw [List.flatten_cons, List.mem_append] at hv
    exact hv.imp List.mem_of_mem_take (ih hrest)

theorem reads_of_aligned (h : reads ns bs = some outs) (halign : Aligned ns bs) :
    outs.flatten <+: bs.flatten := by
  induction ns generalizing bs outs with
  | nil =>
    cases h
    exact List.nil_prefix
  | cons n ns ih =>
    obtain ⟨taken, rest, outs', hd, hrest, rfl⟩ := reads_cons h
    simp only [Aligned, hd] at halign
    rw [List.flatten_cons, draw_flatten hd]
    rcases halign.1 with hlen | hzero
    · rw [List.take_of_length_le hlen]
      exact (List.prefix_append_right_inj taken).mpr (ih hrest halign.2)
    · rw [reads_nothing hrest hzero, List.append_nil]
      exact (List.take_prefix n taken).trans (List.prefix_append taken _)

/-- Where all items are different, a prefix shows that nothing was dropped. -/
theorem aligned_of_reads (h : reads ns bs = some outs) (hnodup : bs.flatten.Nodup)
    (hpre : outs.flatten <+: bs.flatten) : Aligned ns bs := by
  induction ns generalizing bs outs with
  | nil => trivial
  | cons n ns ih =>
    obtain ⟨taken, rest, outs', hd, hrest, rfl⟩ := reads_cons h
    simp only [Aligned, hd]
    rw [draw_flatten hd] at hnodup hpre
    obtain ⟨hnodup_taken, hnodup_rest, hdisjoint⟩ := List.nodup_append.mp hnodup
    rw [List.flatten_cons] at hpre
    by_cases hlen : taken.length ≤ n
    · rw [List.take_of_length_le hlen, List.prefix_append_right_inj] at hpre
      exact ⟨Or.inl hlen, ih hrest hnodup_rest hpre⟩
    · -- the first item that a later reader keeps would be the first one dropped
      have hnone : outs'.flatten = [] := by
        cases hfirst : outs'.flatten with
        | nil => rfl
        | cons v vs =>
          exfalso
          rw [hfirst] at hpre
          have hsplit := List.take_append_drop n taken
          rw [← hsplit, List.append_assoc, hsplit, List.prefix_append_right_inj] at hpre
          have hv : v ∈ rest.flatten := reads_subset hrest (by rw [hfirst]; exact List.mem_cons_self)
          cases hdrop : taken.drop n with
          | nil =>
            have := congrArg List.length hdrop
            rw [List.length_drop, List.length_nil] at this
            omega
          | cons u us =>
            rw [hdrop, List.cons_append, List.cons_prefix_cons] at hpre
            have hu : u ∈ taken := List.mem_of_mem_drop (hdrop ▸ List.mem_cons_self)
            exact hdisjoint u hu v hv hpre.1.symm
      have hzero : ∀ m ∈ ns, m = 0 := by
        have hsum := reads_length hrest
        rw [hnone, List.length_nil] at hsum
        exact fun m hm => Nat.le_zero.mp (hsum ▸ List.single_le_sum (fun _ _ => Nat.zero_le _) m hm)
      refine ⟨Or.inr hzero, ih hrest hnodup_rest ?_⟩
      rw [hnone]
      exact List.nil_prefix

end Blocks
