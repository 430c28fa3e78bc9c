import Mathlib.Data.List.Basic
import Mathlib.Data.Nat.ModEq
import Mathlib.Tactic

/-!
# Lists in a ring of slots

A list is laid out in a ring of `n` slots from slot `f` on, where slot 0 follows slot `n - 1`.
A queue bounded by `n` makes room for a new element by dropping its oldest one.
-/

namespace Cyclic

variable {α : Type}

/-- The slot `i` places after slot `f`. -/
def slot (n f i : ℕ) : ℕ := (f + i) % n

/-- How many places slot `j` comes after slot `f`. -/
def place (n f j : ℕ) : ℕ := if f ≤ j then j - f else j + n - f

/-- What slot `j` holds when the list `q` is laid out from slot `f` on. -/
def lay (n f : ℕ) (q : List α) (j : ℕ) : Option α := q[place n f j]?

/-- The offset `l` lies `k` places after slot `f`; the end of the storage, `n`, is the same place
as slot 0. -/
structure Behind (n f k l : ℕ) : Prop where
  le : l ≤ n
  congr : l ≡ f + k [MOD n]

/-- Appends to a queue that holds at most `n` elements. -/
def enqueue (n : ℕ) (q : List α) (v : α) : List α :=
  if q.length < n then q ++ [v] else q.drop 1 ++ [v]

variable {n f i j k l : ℕ} {q : List α}

lemma slot_eq (hf : f < n) (hi : i ≤ n) : slot n f i = if f + i < n then f + i else f + i - n := by
  rw [slot]
  split_ifs with h
  · exact Nat.mod_eq_of_lt h
  · rw [Nat.mod_eq_sub_mod (by omega), Nat.mod_eq_of_lt (by omega)]

lemma slot_lt (hf : f < n) : slot n f i < n := Nat.mod_lt _ (by omega)

lemma slot_add : slot n f (i + k) = (slot n f i + k) % n := by
  rw [slot, slot, Nat.mod_add_mod, Nat.add_assoc]

lemma slot_add_of_lt (h : slot n f i + k < n) : slot n f (i + k) = slot n f i + k := by
  rw [slot_add, Nat.mod_eq_of_lt h]

lemma slot_slot : slot n (slot n f i) k = slot n f (i + k) := slot_add.symm

lemma place_lt (hf : f < n) (hj : j < n) : place n f j < n := by
  rw [place]
  split_ifs <;> omega

lemma place_slot (hf : f < n) (hi : i < n) : place n f (slot n f i) = i := by
  rw [slot_eq hf hi.le, place]
  split_ifs <;> omega

lemma slot_place (hf : f < n) (hj : j < n) : slot n f (place n f j) = j := by
  rw [slot_eq hf (place_lt hf hj).le, place]
  split_ifs <;> omega

lemma lay_slot (hf : f < n) (hi : i < n) : lay n f q (slot n f i) = q[i]? := by
  rw [lay, place_slot hf hi]

@[simp] lemma lay_nil : lay n f ([] : List α) j = none := rfl

lemma lay_isSome : (lay n f q j).isSome ↔ place n f j < q.length := by
  simp [lay]

lemma lay_append (hf : f < n) (hq : q.length < n) (hj : j < n) (v : α) :
    lay n f (q ++ [v]) j = if j = slot n f q.length then some v else lay n f q j := by
  by_cases h : j = slot n f q.length
  · rw [if_pos h, h, lay_slot hf hq]
    simp
  · rw [if_neg h, lay, lay]
    have hne : place n f j ≠ q.length := by
      intro hp
      exact h (by rw [← hp, slot_place hf hj])
    rcases Nat.lt_or_gt_of_ne hne with hlt | hgt
    · rw [List.getElem?_append_left hlt]
    · rw [List.getElem?_eq_none (by simp; omega), List.getElem?_eq_none (by omega)]

lemma lay_drop (hf : f < n) (hk : k ≤ q.length) (hq : q.length ≤ n) (hj : j < n) :
    lay n (slot n f k) (q.drop k) j = if place n f j < k then none else lay n f q j := by
  rw [lay, List.getElem?_drop, lay]
  have hslot := slot_eq hf (hk.trans hq)
  have hlt : slot n f k < n := slot_lt hf
  have hpj := place_lt hf hj
  have hps : k + place n (slot n f k) j =
      if place n f j < k then place n f j + n else place n f j := by
    simp only [place] at hpj ⊢
    split_ifs at hslot hpj ⊢ <;> omega
  rw [hps]
  split_ifs
  · exact List.getElem?_eq_none (by omega)
  · rfl

lemma lay_overwrite (hf : f < n) (hq : q.length = n) (hj : j < n) (v : α) :
    lay n (slot n f 1) (q.drop 1 ++ [v]) j = if j = f then some v else lay n f q j := by
  have hlen : (q.drop 1).length = n - 1 := by
    rw [List.length_drop, hq]
  have hlast : slot n (slot n f 1) (n - 1) = f := by
    rw [slot_eq (slot_lt hf) (by omega), slot_eq hf (by omega)]
    split_ifs <;> omega
  rw [lay_append (slot_lt hf) (by omega) hj, hlen, hlast, lay_drop hf (by omega) hq.le hj]
  by_cases h : j = f
  · rw [if_pos h, if_pos h]
  · have hplace : ¬place n f j < 1 := by
      simp only [place]
      split_ifs <;> omega
    rw [if_neg h, if_neg h, if_neg hplace]

namespace Behind

/-- There are few ways for two offsets to be the same place. -/
lemma cases (h : Behind n f k l) (hf : f < n) (hk : k ≤ n) :
    l = f + k ∨ l + n = f + k ∨ (f = 0 ∧ k = 0 ∧ l = n) := by
  have hle := h.le
  have hmod : l % n = slot n f k := h.congr
  rw [slot_eq hf hk] at hmod
  rcases Nat.lt_or_ge l n with hl | hl
  · rw [Nat.mod_eq_of_lt hl] at hmod
    split_ifs at hmod <;> omega
  · obtain rfl : l = n := by omega
    rw [Nat.mod_self] at hmod
    split_ifs at hmod <;> omega

lemma of_cases (hle : l ≤ n) (h : l = f + k ∨ l + n = f + k ∨ (f = 0 ∧ k = 0 ∧ l = n)) :
    Behind n f k l := by
  refine ⟨hle, ?_⟩
  rcases h with rfl | h | ⟨rfl, rfl, rfl⟩
  · rfl
  · rw [← h]
    exact (Nat.add_modEq_right (n := n)).symm
  · exact Nat.modEq_zero_iff_dvd.mpr dvd_rfl

lemma next (h : Behind n f k l) (hf : f < n) (hk : k < n) :
    (if l + 1 ≤ n then l else 0) = slot n f k := by
  have hle := h.le
  rw [slot_eq hf hk.le]
  rcases h.cases hf hk.le with h | h | h <;> split_ifs <;> omega

lemma push (hf : f < n) (hk : k < n) : Behind n f (k + 1) (slot n f k + 1) := by
  have hs := slot_eq hf hk.le
  refine of_cases ?_ ?_
  · have := slot_lt (i := k) hf
    omega
  · split_ifs at hs <;> omega

lemma drop (h : Behind n f k l) (hf : f < n) (hi : i ≤ k) (hk : k ≤ n) :
    Behind n (slot n f i) (k - i) l := by
  have hle := h.le
  have hs := slot_eq hf (hi.trans hk)
  refine of_cases hle ?_
  rcases h.cases hf hk with h | h | h <;> split_ifs at hs <;> omega

lemma occupied (h : Behind n f k l) (hf : f < n) (hk : k ≤ n) (hpos : k ≠ 0) (hj : j < n) :
    place n f j < k ↔ if f < l then f ≤ j ∧ j < l else f ≤ j ∨ j < l := by
  have hle := h.le
  rw [place]
  rcases h.cases hf hk with h | h | h <;> split_ifs <;> omega

end Behind

end Cyclic
