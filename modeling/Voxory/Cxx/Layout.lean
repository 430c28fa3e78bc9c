import Mathlib.Tactic

/-!
# Objects as bytes

A layout gives every value of a type the same number of bytes, and the value can be read back from
them. So objects that lie side by side can be copied, or set, byte by byte.
-/

namespace Cxx

section Pieces

variable {α β : Type}

/-- The first `n` pieces of `size` items each. -/
def pieces (size : ℕ) : ℕ → List β → List (List β)
  | 0, _ => []
  | n + 1, bs => bs.take size :: pieces size n (bs.drop size)

lemma pieces_flatMap {size : ℕ} {f : α → List β} (hf : ∀ v, (f v).length = size) (vs : List α) :
    pieces size vs.length (vs.flatMap f) = vs.map f := by
  induction vs with
  | nil => rfl
  | cons v vs ih =>
    rw [List.length_cons, List.flatMap_cons, pieces, List.take_left' (hf v), List.drop_left' (hf v),
      ih, List.map_cons]

lemma length_flatMap_of_length {size : ℕ} {f : α → List β} (hf : ∀ v, (f v).length = size)
    (vs : List α) : (vs.flatMap f).length = vs.length * size := by
  induction vs with
  | nil => rw [List.flatMap_nil, List.length_nil, List.length_nil, Nat.zero_mul]
  | cons v vs ih =>
    rw [List.flatMap_cons, List.length_append, hf, ih, List.length_cons, Nat.succ_mul, Nat.add_comm]

end Pieces

/-- The object representations of the values of a type: `sizeof` bytes each. -/
structure Layout (α : Type) where
  size : ℕ
  bytes : α → List UInt8
  /-- the value that a string of bytes represents, if it represents one -/
  value : List UInt8 → Option α
  size_pos : 0 < size
  length_bytes : ∀ v, (bytes v).length = size
  value_bytes : ∀ v, value (bytes v) = some v

namespace Layout

variable {α : Type} (L : Layout α)

/-- The values of objects that lie side by side. -/
def values (bs : List UInt8) : Option (List α) :=
  (pieces L.size (bs.length / L.size) bs).mapM L.value

lemma values_flatMap (vs : List α) : L.values (vs.flatMap L.bytes) = some vs := by
  rw [values, length_flatMap_of_length L.length_bytes, Nat.mul_div_cancel _ L.size_pos,
    pieces_flatMap L.length_bytes]
  induction vs with
  | nil => rfl
  | cons v vs ih =>
    rw [List.map_cons, List.mapM_cons, L.value_bytes, ih]
    rfl

end Layout

/-- The layout of a character type or of `bool`: its only byte is what `unsigned char` makes of the
value converted to `int`. -/
structure Character (α : Type) extends Layout α where
  toInt : α → ℤ
  bytes_eq : ∀ v, bytes v = [UInt8.ofInt (toInt v)]

namespace Character

variable {α : Type} (c : Character α)

lemma size_eq (v : α) : c.size = 1 := by
  rw [← c.length_bytes v, c.bytes_eq, List.length_singleton]

lemma values_replicate (v : α) (n : ℕ) :
    c.values (List.replicate n (UInt8.ofInt (c.toInt v))) = some (List.replicate n v) := by
  have hbytes : (List.replicate n v).flatMap c.bytes =
      List.replicate n (UInt8.ofInt (c.toInt v)) := by
    induction n with
    | zero => rfl
    | succ n ih =>
      rw [List.replicate_succ, List.flatMap_cons, ih, c.bytes_eq]
      rfl
  rw [← hbytes]
  exact c.values_flatMap _

/-- `signed char` -/
def signed : Character Int8 where
  size := 1
  bytes v := [v.toUInt8]
  value
    | [b] => some b.toInt8
    | _ => none
  size_pos := Nat.one_pos
  length_bytes _ := rfl
  value_bytes _ := rfl
  toInt v := v.toInt
  bytes_eq v := by
    have hbyte : UInt8.ofInt v.toInt = v.toUInt8 := by
      apply UInt8.toBitVec_inj.mp
      apply BitVec.eq_of_toNat_eq
      have hlt := v.toBitVec.isLt
      change (BitVec.ofNat 8 (v.toBitVec.toInt % 2 ^ 8).toNat).toNat = v.toBitVec.toNat
      rw [BitVec.toNat_ofNat, BitVec.toInt_eq_toNat_cond]
      split_ifs <;> omega
    rw [hbyte]

end Character

end Cxx
