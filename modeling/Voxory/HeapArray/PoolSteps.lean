import Voxory.HeapArray.Pool

/-!
# What the actions do to the contents of a pool

The contents of a pool are the lists its arrays hold, with their capacities. `Pool.Models`
ties them to the memory: the arrays own different blocks and no object lives outside them.
Every action that returns computes `Action.apply` on the contents; one that throws leaves
some contents behind, the old ones unless elements were moved or lost.
-/

namespace Voxory
open Cxx

abbrev Contents (α : Type) : Type := ℕ → Option (List α × ℕ)

namespace Pool

variable {α β : Type}

open Objects HeapArray

structure Models (p : Pool α) (M : Contents α) : Prop where
  wf : p.mem.Wf
  obj : ∀ x, Option.Rel (fun a c => Holds p.mem a c.1 ∧ a.capacity = c.2) (p.obj x) (M x)
  apart : ∀ x y a b c, p.obj x = some a → p.obj y = some b → a.first.block = some c →
    b.first.block = some c → x = y
  owned : ∀ q, (p.mem.object q).isSome → ∃ x a, p.obj x = some a ∧ a.first.block = q.block

lemma rel_mono {γ δ : Type} {r r' : γ → δ → Prop} {oc : Option γ} {od : Option δ}
    (h : ∀ c d, oc = some c → r c d → r' c d) (hr : Option.Rel r oc od) : Option.Rel r' oc od := by
  cases hr with
  | some hcd => exact .some (h _ _ rfl hcd)
  | none => exact .none

namespace Models

variable {p : Pool α} {M M' : Contents α} {x y : ℕ} {a o : HeapArray} {E : Element α}

lemma start (z : Bool) : Pool.Models (start z : Pool α) (fun _ => none) :=
  ⟨Memory.empty_wf none z, fun _ => .none, fun _ _ _ _ _ h => (nomatch h), fun _ h => (nomatch h)⟩

lemma arm (h : p.Models M) (fuse : Option ℕ) : Pool.Models (p.arm fuse) M :=
  ⟨⟨h.wf.fresh, h.wf.bounds⟩, fun x => rel_mono (fun _ _ _ hac =>
    ⟨hac.1.frame (fun _ _ => rfl) (fun _ _ _ => rfl), hac.2⟩) (h.obj x), h.apart,
    fun q hq => h.owned q hq⟩

lemma at_some (h : p.Models M) (ha : p.obj x = some a) :
    ∃ vs, M x = some (vs, a.capacity) ∧ Holds p.mem a vs := by
  have hx := h.obj x
  rw [ha] at hx
  cases hM : M x with
  | none =>
    rw [hM] at hx
    cases hx
  | some c =>
    rw [hM] at hx
    cases hx with
    | some hac => exact ⟨c.1, by rw [hac.2], hac.1⟩

lemma none_iff (h : p.Models M) : p.obj x = none ↔ M x = none := by
  have hx := h.obj x
  generalize p.obj x = oa at hx ⊢
  generalize M x = oc at hx ⊢
  cases hx <;> simp

/-- What is known of an array `b` when a member function of another one left the memory `m'`: it
is where it was, with the values that `f` shows in its block. -/
lemma holds_after {m m' : Memory α} {f : Ptr → Option α} {b : HeapArray} {us vs : List α}
    (hb : Holds m b us) (hlen : us.length = vs.length)
    (hval : ∀ d, b.first.block = some d → ∀ i, f ⟨some d, i⟩ = vs[i]?)
    (hext : ∀ d, b.first.block = some d → m'.extent d = m.extent d)
    (hobj : ∀ d, b.first.block = some d → ∀ i, m'.object ⟨some d, i⟩ = f ⟨some d, i⟩) :
    Holds m' b vs := by
  cases hb with
  | nil =>
    have hvs : vs = [] := List.length_eq_zero_iff.mp hlen.symm
    rw [hvs]
    exact .nil
  | block d cap us hsize hle _ =>
    rw [hlen]
    refine .block d cap vs ((hext d rfl).trans hsize) (by omega) (fun i => ?_)
    rw [hobj d rfl i, hval d rfl i]

lemma block_old (h : p.Models M) {b : HeapArray} {c : ℕ} (hb : p.obj y = some b)
    (hbc : b.first.block = some c) : c < p.mem.fresh := by
  obtain ⟨us, _, hus⟩ := h.at_some hb
  exact hus.block_lt h.wf hbc

/-- A member function ran on the array `x`, or a constructor on null fields. The values of the
other arrays are those that `f` shows in their blocks. -/
lemma leaves (h : p.Models M) {s' : State α HeapArray} {f : Ptr → Option α} {vs : List α} {cap : ℕ}
    (ha : p.obj x = some a ∨ (p.obj x = none ∧ a = HeapArray.nil))
    (hl : Leaves ⟨p.mem, a⟩ f vs cap s') (hx : M' x = some (vs, cap))
    (hother : ∀ y, y ≠ x → Option.Rel (fun b c => ∃ us, Holds p.mem b us ∧ b.capacity = c.2 ∧
      us.length = c.1.length ∧
      ∀ d, b.first.block = some d → ∀ i, f ⟨some d, i⟩ = c.1[i]?) (p.obj y) (M' y))
    (hf : ∀ q, (f q).isSome → (p.mem.object q).isSome) :
    Models ⟨s'.mem, Function.update p.obj x (some s'.self)⟩ M' := by
  have happart : ∀ y b c, y ≠ x → p.obj y = some b → b.first.block = some c →
      a.first.block ≠ some c := by
    intro y b c hy hb hbc hac
    rcases ha with ha | ⟨_, rfl⟩
    · exact hy (h.apart y x b a c hb ha hbc hac)
    · cases hac
  have hfar : ∀ y b c, y ≠ x → p.obj y = some b → b.first.block = some c →
      s'.self.first.block ≠ some c := by
    intro y b c hy hb hbc hs
    rcases hl.block c hs with hac | hnew
    · exact happart y b c hy hb hbc hac
    · have hlt := h.block_old hb hbc
      change p.mem.fresh ≤ c at hnew
      omega
  refine ⟨hl.wf, fun y => ?_, fun y z b b' c hy hz hbc hbc' => ?_, fun q hq => ?_⟩
  · by_cases hy : y = x
    · subst hy
      change Option.Rel _ (Function.update p.obj y (some s'.self) y) (M' y)
      rw [Function.update_self, hx]
      exact .some ⟨hl.holds, hl.capacity⟩
    · change Option.Rel _ (Function.update p.obj x (some s'.self) y) (M' y)
      rw [Function.update_of_ne hy]
      refine rel_mono (fun b c hb hrel => ?_) (hother y hy)
      obtain ⟨us, hus, hcap, hlen, hval⟩ := hrel
      refine ⟨holds_after hus hlen hval (fun d hd => ?_) (fun d hd i => ?_), hcap⟩
      · exact hl.extent d (h.block_old hb hd) (happart y b d hy hb hd)
      · rw [hl.object _ (Ne.symm (hfar y b d hy hb hd)),
          if_neg (Ne.symm (happart y b d hy hb hd))]
  · change Function.update p.obj x (some s'.self) y = some b at hy
    change Function.update p.obj x (some s'.self) z = some b' at hz
    by_cases hyx : y = x <;> by_cases hzx : z = x
    · rw [hyx, hzx]
    · subst hyx
      simp only [Function.update_self, Option.some.injEq, Function.update_of_ne hzx] at hy hz
      subst hy
      exact absurd hbc (hfar z b' c hzx hz hbc')
    · subst hzx
      simp only [Function.update_self, Option.some.injEq, Function.update_of_ne hyx] at hy hz
      subst hz
      exact absurd hbc' (hfar y b c hyx hy hbc)
    · rw [Function.update_of_ne hyx] at hy
      rw [Function.update_of_ne hzx] at hz
      exact h.apart y z b b' c hy hz hbc hbc'
  · by_cases hqs : q.block = s'.self.first.block
    · exact ⟨x, s'.self, Function.update_self .., hqs.symm⟩
    · change (s'.mem.object q).isSome at hq
      rw [hl.object q hqs] at hq
      split_ifs at hq with hqa
      · cases hq
      · obtain ⟨y, b, hb, hbq⟩ := h.owned q (hf q hq)
        refine ⟨y, b, ?_, hbq⟩
        change Function.update p.obj x (some s'.self) y = some b
        rwa [Function.update_of_ne]
        rintro rfl
        rcases ha with ha | ⟨ha, _⟩
        · rw [ha] at hb
          cases hb
          exact hqa hbq.symm
        · rw [ha] at hb
          cases hb

lemma updates (h : p.Models M) {s' : State α HeapArray} {vs : List α} {cap : ℕ}
    (ha : p.obj x = some a ∨ (p.obj x = none ∧ a = HeapArray.nil))
    (hl : Leaves ⟨p.mem, a⟩ p.mem.object vs cap s') :
    Models ⟨s'.mem, Function.update p.obj x (some s'.self)⟩
      (Function.update M x (some (vs, cap))) := by
  refine h.leaves ha hl (Function.update_self ..) (fun y hy => ?_) (fun _ hq => hq)
  rw [Function.update_of_ne hy]
  refine rel_mono (fun b c _ hbc => ⟨c.1, hbc.1, hbc.2, rfl, fun d hd i => ?_⟩) (h.obj y)
  exact hbc.1.object_eq hd i

/-- The values after the first `j` were moved from. -/
def movedPrefix (E : Element α) (j : ℕ) (us : List α) : List α :=
  (us.take j).map E.movedFrom ++ us.drop j

lemma movedPrefix_length (E : Element α) (j : ℕ) (us : List α) :
    (movedPrefix E j us).length = us.length := by
  simp only [movedPrefix, List.length_append, List.length_map, List.length_take, List.length_drop]
  omega

lemma movedPrefix_all (E : Element α) (us : List α) :
    movedPrefix E us.length us = us.map E.movedFrom := by
  simp [movedPrefix]

lemma movedOut_object {f : Ptr → Option α} {c j : ℕ} {us : List α} (hj : j ≤ us.length)
    (hfirst : o.first = ⟨some c, 0⟩) (hf : ∀ i, f ⟨some c, i⟩ = us[i]?) (i : ℕ) :
    movedOut E f o j ⟨some c, i⟩ = (movedPrefix E j us)[i]? := by
  rw [movedOut, hfirst, movedPrefix]
  by_cases hi : i < j
  · have hinside := overlay_inside f ⟨some c, 0⟩
      (fun i => (f ((⟨some c, 0⟩ : Ptr) + i)).map E.movedFrom) hi
    rw [Ptr.mk_add, Nat.zero_add] at hinside
    rw [hinside, hf, List.getElem?_append_left (by simp; omega), List.getElem?_map,
      List.getElem?_take_of_lt hi]
  · rw [overlay_outside (by simp [hi]), hf, List.getElem?_append_right (by simp; omega),
      List.getElem?_drop]
    congr 1
    simp only [List.length_map, List.length_take]
    omega

lemma spends (h : p.Models M) {s' : State α HeapArray} {vs us ws : List α} {cap : ℕ}
    {f : Ptr → Option α} (hxy : y ≠ x) (ha : p.obj x = some a) (ho : p.obj y = some o)
    (hM : M y = some (us, o.capacity)) (hf : Spends p.mem.object f o)
    (hlen : ws.length = us.length)
    (hws : ∀ d, o.first.block = some d → ∀ i, f ⟨some d, i⟩ = ws[i]?)
    (hl : Leaves ⟨p.mem, a⟩ f vs cap s') :
    Models ⟨s'.mem, Function.update p.obj x (some s'.self)⟩
      (Function.update (Function.update M y (some (ws, o.capacity))) x (some (vs, cap))) := by
  refine h.leaves (Or.inl ha) hl (Function.update_self ..) (fun z hz => ?_)
    (fun q hq => by rwa [hf.live] at hq)
  rw [Function.update_of_ne hz]
  by_cases hzy : z = y
  · subst hzy
    obtain ⟨us', hM', hus⟩ := h.at_some ho
    rw [hM] at hM'
    cases hM'
    rw [ho, Function.update_self]
    exact .some ⟨us, hus, rfl, hlen.symm, hws⟩
  · rw [Function.update_of_ne hzy]
    cases hb : p.obj z with
    | none =>
      rw [h.none_iff.mp hb]
      exact .none
    | some b =>
      obtain ⟨bs, hbs, hold⟩ := h.at_some hb
      rw [hbs]
      refine .some ⟨bs, hold, rfl, rfl, fun d hd i => ?_⟩
      rw [hf.other, hold.object_eq hd]
      intro hdo
      exact hzy (h.apart z y b o d hb ho hd hdo.symm)

lemma moves (h : p.Models M) {s' : State α HeapArray} {vs us : List α} {cap j : ℕ}
    (hxy : y ≠ x) (ha : p.obj x = some a) (ho : p.obj y = some o)
    (hM : M y = some (us, o.capacity)) (hj : j ≤ us.length)
    (hl : Leaves ⟨p.mem, a⟩ (movedOut E p.mem.object o j) vs cap s') :
    Models ⟨s'.mem, Function.update p.obj x (some s'.self)⟩
      (Function.update (Function.update M y (some (movedPrefix E j us, o.capacity))) x
        (some (vs, cap))) := by
  obtain ⟨us', hM', hus⟩ := h.at_some ho
  rw [hM] at hM'
  cases hM'
  refine h.spends hxy ha ho hM (spends_movedOut j) (movedPrefix_length E j us) (fun d hd i => ?_) hl
  exact movedOut_object hj (hus.first_eq hd) (hus.object_eq hd) i

/-- Fields passed around: every array has the fields of its origin or null ones, and no block
got lost or doubled. -/
lemma rearrange (h : p.Models M) {obj' : ℕ → Option HeapArray} (origin : ℕ → Option ℕ)
    (hsome : ∀ z w, origin z = some w → obj' z = p.obj w ∧ M' z = M w)
    (hnone : ∀ z, origin z = none → obj' z = some HeapArray.nil ∧ M' z = some ([], 0))
    (hinj : ∀ z z' w, origin z = some w → origin z' = some w → z = z')
    (hcover : ∀ w b c, p.obj w = some b → b.first.block = some c → ∃ z, origin z = some w) :
    Models ⟨p.mem, obj'⟩ M' := by
  refine ⟨h.wf, fun z => ?_, fun z z' b b' c hz hz' hb hb' => ?_, fun q hq => ?_⟩
  · cases hz : origin z with
    | none =>
      obtain ⟨harr, hM⟩ := hnone z hz
      simp only [harr, hM]
      exact .some ⟨.nil, rfl⟩
    | some w =>
      obtain ⟨harr, hM⟩ := hsome z w hz
      simp only [harr, hM]
      exact h.obj w
  · have hfrom : ∀ z b, obj' z = some b → b.first.block = some c →
        ∃ w, origin z = some w ∧ p.obj w = some b := by
      intro z b hz hb
      cases ho : origin z with
      | none =>
        rw [(hnone z ho).1] at hz
        cases hz
        cases hb
      | some w => exact ⟨w, rfl, by rw [← (hsome z w ho).1, hz]⟩
    obtain ⟨w, hw, hpw⟩ := hfrom z b hz hb
    obtain ⟨w', hw', hpw'⟩ := hfrom z' b' hz' hb'
    have hww := h.apart w w' b b' c hpw hpw' hb hb'
    subst hww
    exact hinj z z' w hw hw'
  · obtain ⟨w, b, hb, hbq⟩ := h.owned q hq
    cases hq' : q.block with
    | none =>
      rw [object_none_block h.wf hq'] at hq
      cases hq
    | some c =>
      obtain ⟨z, hz⟩ := hcover w b c hb (hbq.trans hq')
      exact ⟨z, b, (hsome z w hz).1.trans hb, hbq.trans hq'⟩

lemma transfer (h : p.Models M) (hxy : x ≠ y)
    (hx : p.obj x = none ∨ p.obj x = some HeapArray.nil) (ho : p.obj y = some o) :
    Models ⟨p.mem, Function.update (Function.update p.obj x (some o)) y (some HeapArray.nil)⟩
      (Function.update (Function.update M x (M y)) y (some ([], 0))) := by
  refine h.rearrange (fun z => if z = y then none else if z = x then some y else some z)
    (fun z w hz => ?_) (fun z hz => ?_) (fun z z' w hz hz' => ?_) (fun w b c hb hbc => ?_)
  · by_cases hzy : z = y
    · simp [hzy] at hz
    · by_cases hzx : z = x
      · subst hzx
        simp only [hzy, if_false, if_true, Option.some.injEq] at hz
        subst hz
        simp [Function.update_of_ne hxy, ho]
      · simp only [hzy, hzx, if_false, Option.some.injEq] at hz
        subst hz
        simp [Function.update_of_ne hzy, Function.update_of_ne hzx]
  · by_cases hzy : z = y
    · subst hzy
      simp
    · split_ifs at hz
  · split_ifs at hz hz' <;> simp_all
  · have hwx : w ≠ x := by
      rintro rfl
      rcases hx with hx | hx
      · rw [hx] at hb
        cases hb
      · rw [hx] at hb
        cases hb
        cases hbc
    by_cases hwy : w = y
    · exact ⟨x, by simp [hxy, hwy]⟩
    · exact ⟨w, by simp [hwy, hwx]⟩

lemma exchange (h : p.Models M) (ha : p.obj x = some a) (ho : p.obj y = some o) :
    Models ⟨p.mem, Function.update (Function.update p.obj x (some o)) y (some a)⟩
      (Function.update (Function.update M x (M y)) y (M x)) := by
  have hswap : ∀ {γ : Type} (f : ℕ → γ) (z : ℕ),
      Function.update (Function.update f x (f y)) y (f x) z = f (Equiv.swap x y z) := by
    intro γ f z
    by_cases hzy : z = y
    · subst hzy
      simp
    · by_cases hzx : z = x
      · subst hzx
        simp [Function.update_of_ne hzy]
      · rw [Function.update_of_ne hzy, Function.update_of_ne hzx,
          Equiv.swap_apply_of_ne_of_ne hzx hzy]
  refine h.rearrange (fun z => some (Equiv.swap x y z)) (fun z w hz => ?_) (fun z hz => nomatch hz)
    (fun z z' w hz hz' => ?_) (fun w b c hb hbc => ⟨Equiv.swap x y w, by simp⟩)
  · cases hz
    rw [← ha, ← ho]
    exact ⟨hswap p.obj z, hswap M z⟩
  · rw [← hz'] at hz
    exact (Equiv.swap x y).injective (Option.some.inj hz)

lemma erase (h : p.Models M) {cap : ℕ} (hM : M x = some ([], cap)) :
    Models ⟨p.mem, Function.update p.obj x none⟩ (Function.update M x none) := by
  refine ⟨h.wf, fun z => ?_, fun z z' b b' c hz hz' hb hb' => ?_, fun q hq => ?_⟩
  · change Option.Rel _ (Function.update p.obj x none z) _
    by_cases hzx : z = x
    · subst hzx
      rw [Function.update_self, Function.update_self]
      exact .none
    · rw [Function.update_of_ne hzx, Function.update_of_ne hzx]
      exact h.obj z
  · have hback : ∀ z b, Function.update p.obj x none z = some b → p.obj z = some b := by
      intro z b hz
      by_cases hzx : z = x
      · subst hzx
        rw [Function.update_self] at hz
        cases hz
      · rwa [Function.update_of_ne hzx] at hz
    exact h.apart z z' b b' c (hback z b hz) (hback z' b' hz') hb hb'
  · obtain ⟨z, b, hb, hbq⟩ := h.owned q hq
    refine ⟨z, b, ?_, hbq⟩
    change Function.update p.obj x none z = some b
    rwa [Function.update_of_ne]
    rintro rfl
    obtain ⟨vs, hM', hvs⟩ := h.at_some hb
    rw [hM] at hM'
    cases hM'
    change (p.mem.object q).isSome at hq
    cases hq' : q.block with
    | none =>
      rw [object_none_block h.wf hq'] at hq
      cases hq
    | some c =>
      have hqe : q = ⟨some c, q.off⟩ := (Ptr.ext_iff' _ _).mpr ⟨hq', rfl⟩
      rw [hqe, hvs.object_eq (hbq.trans hq')] at hq
      cases hq

lemma remember (h : p.Models M) {m : Memory α} (hobj : m.object = p.mem.object)
    (hext : m.extent = p.mem.extent) (hw : m.Wf) : Models ⟨m, p.obj⟩ M :=
  ⟨hw, fun x => rel_mono (fun _ _ _ hac => ⟨hac.1.frame (fun b _ => congrFun hext b)
    (fun b i _ => congrFun hobj ⟨some b, i⟩), hac.2⟩) (h.obj x), h.apart,
    fun q hq => h.owned q (by rwa [← hobj])⟩

end Models

/-! ### Lifting member functions to the pool -/

variable {p : Pool α} {x : ℕ} {a : HeapArray}

/-- No array of the pool owns a block of length 0. -/
def Solid (p : Pool α) : Prop := ∀ x a, p.obj x = some a → HeapArray.Solid a

/-- From `p` to `p'` the trace stayed in order, and no block of length 0 appeared. -/
structure Preserves (p p' : Pool α) : Prop where
  tidy : p.mem.Tidy → p'.mem.Tidy
  solid : p.Solid → p'.Solid

lemma Solid.update {m : Memory α} (h : p.Solid) (ha : HeapArray.Solid a) :
    Solid ⟨m, Function.update p.obj x (some a)⟩ := by
  intro y b hb
  change Function.update p.obj x (some a) y = some b at hb
  by_cases hy : y = x
  · subst hy
    rw [Function.update_self] at hb
    cases hb
    exact ha
  · rw [Function.update_of_ne hy] at hb
    exact h y b hb

lemma Solid.remove {m : Memory α} (h : p.Solid) : Solid ⟨m, Function.update p.obj x none⟩ := by
  intro y b hb
  change Function.update p.obj x none y = some b at hb
  by_cases hy : y = x
  · subst hy
    rw [Function.update_self] at hb
    cases hb
  · rw [Function.update_of_ne hy] at hb
    exact h y b hb

lemma breaks_leaves {s s' : State α HeapArray} {k : ℕ} {vs : List α} (hw : s.mem.Wf)
    (h : Holds s.mem s.self vs) (hbr : s.Breaks k s.mem.object s') :
    Leaves s s.mem.object vs s.self.capacity s' := by
  have hself : s'.self = s.self := hbr.self
  refine ⟨?_, by rw [hself], hbr.wf hw, hbr.nullOnZero, hbr.fresh, fun b hb => Or.inl ?_,
    fun b _ _ => by rw [hbr.extent], fun q hq => ?_⟩
  · rw [hself]
    exact h.frame (fun b _ => by rw [hbr.extent]) (fun b i _ => by rw [hbr.object])
  · rwa [← hself]
  · rw [hself] at hq
    rw [if_neg hq, hbr.object]

lemma survives_leaves {s s' : State α HeapArray} {f : Ptr → Option α} (h : Survives s f s') :
    ∃ ws, Leaves s f ws s.self.capacity s' := by
  obtain ⟨ws, hws⟩ := h.holds
  refine ⟨ws, by rw [h.self]; exact hws, by rw [h.self], h.wf, h.nullOnZero, h.fresh,
    fun b hb => Or.inl (by rwa [← h.self]), fun b _ _ => by rw [h.extent], fun q hq => ?_⟩
  rw [h.self] at hq
  rw [if_neg hq, h.object q hq]

variable {M : Contents α} {vs us : List α} {cap : ℕ}

lemma member_updates {m : Method α Unit} (h : p.Models M) (ha : p.obj x = some a)
    (hm : ∀ vs, M x = some (vs, a.capacity) → Holds p.mem a vs → m.Ends ⟨p.mem, a⟩
      (fun _ s' => Updates ⟨p.mem, a⟩ p.mem.object us cap s')
      (fun s' => ∃ k, State.Breaks ⟨p.mem, a⟩ k p.mem.object s')) :
    (member x m).Ends p
      (fun _ p' => Pool.Models p' (Function.update M x (some (us, cap))) ∧ p.Preserves p')
      (fun p' => p.mem.fuse ≠ none ∧ Pool.Models p' M ∧ p.Preserves p') := by
  obtain ⟨vs, hM, hvs⟩ := h.at_some ha
  refine (member_ends ha (hm vs hM hvs)).mono ?_ ?_
  · rintro _ _ ⟨s', hs', rfl⟩
    exact ⟨h.updates (Or.inl ha) hs'.toLeaves, hs'.tidy,
      fun hsol => hsol.update (hs'.solid (hsol x a ha))⟩
  · rintro _ ⟨s', ⟨k, hs'⟩, rfl⟩
    have hself : s'.self = a := hs'.self
    have hmod := h.updates (Or.inl ha) (breaks_leaves (s := ⟨p.mem, a⟩) h.wf hvs hs')
    rw [← hM, Function.update_eq_self] at hmod
    refine ⟨?_, hmod, hs'.tidy, fun hsol => hsol.update (hself ▸ hsol x a ha)⟩
    rw [show p.mem.fuse = some k from hs'.blown]
    exact Option.some_ne_none k

lemma create_updates {m : Method α Unit} (h : p.Models M) (ha : p.obj x = none)
    (hm : m.Ends ⟨p.mem, HeapArray.nil⟩
      (fun _ s' => Updates ⟨p.mem, HeapArray.nil⟩ p.mem.object us cap s')
      (Fails ⟨p.mem, HeapArray.nil⟩)) :
    (create HeapArray.nil x m).Ends p
      (fun _ p' => Pool.Models p' (Function.update M x (some (us, cap))) ∧ p.Preserves p')
      (fun p' => p.mem.fuse ≠ none ∧ Pool.Models p' M ∧ p.Preserves p') := by
  refine (create_ends hm).mono ?_ ?_
  · rintro _ _ ⟨s', hs', rfl⟩
    exact ⟨h.updates (Or.inr ⟨ha, rfl⟩) hs'.toLeaves, hs'.tidy,
      fun hsol => hsol.update (hs'.solid (fun _ => rfl))⟩
  · rintro _ ⟨s', ⟨k, hs'⟩, rfl⟩
    refine ⟨?_, h.remember hs'.object hs'.extent (hs'.wf h.wf), hs'.tidy, fun hsol => hsol⟩
    rw [show p.mem.fuse = some k from hs'.blown]
    exact Option.some_ne_none k

end Pool

/-! ### The actions -/

namespace Action

variable {α : Type}

open Objects HeapArray Pool

/-- What `x = y` computes on lists of values with capacities. -/
def copyAssigned (E : Element α) (x y : ℕ) (M : Contents α) : Contents α :=
  match M x, M y with
  | some (vs, capacity), some (us, oCapacity) =>
    if us.length = 0 then
      if oCapacity = capacity then M else Function.update M x (some ([], oCapacity))
    else if vs.length = 0 ∨ us.length > capacity then
      Function.update (Function.update M y (some (us.map E.movedFrom, oCapacity))) x
        (some (us, oCapacity))
    else Function.update M x (some (us, capacity))
  | _, _ => M

/-- What an action that returns computes on the contents of the pool. -/
def apply (E : Element α) : Action α → Contents α → Contents α
  | .default x, M => Function.update M x (some ([], 0))
  | .sized x n, M => Function.update M x (some (List.replicate n E.init, n))
  | .filled x n val, M => Function.update M x (some (List.replicate n val, n))
  | .copyOf x y, M => Function.update M x (M y)
  | .moveOf x y, M => Function.update (Function.update M x (M y)) y (some ([], 0))
  | .moveAssign x y, M =>
    if x = y then M else Function.update (Function.update M x (M y)) y (some ([], 0))
  | .copyAssign x y, M => if x = y then M else copyAssigned E x y M
  | .swap x y, M => Function.update (Function.update M x (M y)) y (M x)
  | .resize x n, M => Function.update M x ((M x).map fun c => (resized E c.1 n, raised c.2 n))
  | .reserve x n, M => Function.update M x ((M x).map fun c => (c.1, raised c.2 n))
  | .shrinkToFit x, M => Function.update M x ((M x).map fun c => (c.1, c.1.length))
  | .clear x, M => Function.update M x (some ([], 0))
  | .write x i val, M => Function.update M x ((M x).map fun c => (c.1.set i val, c.2))
  | .destroy x, M => Function.update M x none

/-- No copy assignment is torn by an exception. -/
def Whole (E : Element α) (p : Pool α) : Action α → Prop
  | .copyAssign x y => x ≠ y → ∀ a ∈ p.obj x, ∀ o ∈ p.obj y, ¬Torn E a o p.mem.fuse
  | _ => True

/-- No copy assignment drops what the target owns or releases what it does not own, and no
exception drops what `resize` has relocated. -/
def Orderly (E : Element α) (p : Pool α) : Action α → Prop
  | .copyAssign x y => x ≠ y → ∀ a ∈ p.obj x, ∀ o ∈ p.obj y, ¬Leaky a o p.mem
  | .resize x n => ∀ a ∈ p.obj x, a.capacity < n → a.size ≠ 0 → E.nothrowDefault = false →
      ∀ k ∈ p.mem.fuse, ¬(1 + relocationCost E a.size ≤ k ∧ k < 1 + relocationCost E a.size + (n - a.size))
  | _ => True

instance (E : Element α) (p : Pool α) (act : Action α) : Decidable (act.Whole E p) :=
  match act with
  | .copyAssign x y =>
    inferInstanceAs (Decidable (x ≠ y → ∀ a ∈ p.obj x, ∀ o ∈ p.obj y, ¬Torn E a o p.mem.fuse))
  | .default _ | .sized _ _ | .filled _ _ _ | .copyOf _ _ | .moveOf _ _ | .moveAssign _ _
  | .swap _ _ | .resize _ _ | .reserve _ _ | .shrinkToFit _ | .clear _ | .write _ _ _
  | .destroy _ => .isTrue trivial

instance (E : Element α) (p : Pool α) (act : Action α) : Decidable (act.Orderly E p) :=
  match act with
  | .copyAssign x y =>
    inferInstanceAs (Decidable (x ≠ y → ∀ a ∈ p.obj x, ∀ o ∈ p.obj y, ¬Leaky a o p.mem))
  | .resize x n => inferInstanceAs (Decidable (∀ a ∈ p.obj x, a.capacity < n → a.size ≠ 0 →
      E.nothrowDefault = false → ∀ k ∈ p.mem.fuse, ¬(1 + relocationCost E a.size ≤ k ∧
        k < 1 + relocationCost E a.size + (n - a.size))))
  | .default _ | .sized _ _ | .filled _ _ _ | .copyOf _ _ | .moveOf _ _ | .moveAssign _ _
  | .swap _ _ | .reserve _ _ | .shrinkToFit _ | .clear _ | .write _ _ _
  | .destroy _ => .isTrue trivial

/-- An exception out of the action leaves the contents as they were. -/
def Strong (E : Element α) : Action α → Prop
  | .copyAssign _ _ => False
  | .resize _ _ => E.nothrowDefault = true
  | _ => True

variable {p : Pool α} {M : Contents α} {E : Element α} {x y : ℕ}

/-- Every action but copy assignment, which may leave a block of length 0 in its target. -/
def NoCopyAssign : Action α → Prop
  | .copyAssign _ _ => False
  | _ => True

lemma whole_of_noCopyAssign {act : Action α} (h : act.NoCopyAssign) : act.Whole E p := by
  cases act <;> trivial

lemma strong_of_noCopyAssign {act : Action α} (hE : E.nothrowDefault = true)
    (h : act.NoCopyAssign) : act.Strong E := by
  cases act <;> first | exact hE | trivial

/-- From `p` to `p'`, by the action: the trace stayed in order, and no block of length 0
appeared. -/
structure Preserves (E : Element α) (act : Action α) (p p' : Pool α) : Prop where
  tidy : act.Orderly E p → p.mem.Tidy → p'.mem.Tidy
  solid : act.NoCopyAssign → p.Solid → p'.Solid

/-- How an action ends. -/
def Ends (E : Element α) (p : Pool α) (M : Contents α) (act : Action α) : Prop :=
  (act.code E).Ends p
    (fun _ p' => Pool.Models p' (act.apply E M) ∧ act.Preserves E p p')
    (fun p' => p.mem.fuse ≠ none ∧ (∃ M', Pool.Models p' M' ∧ (act.Strong E → M' = M)) ∧
      act.Preserves E p p')

lemma ends_of_strong {act : Action α}
    (h : (act.code E).Ends p (fun _ p' => Pool.Models p' (act.apply E M) ∧ p.Preserves p')
      (fun p' => p.mem.fuse ≠ none ∧ Pool.Models p' M ∧ p.Preserves p')) : Ends E p M act :=
  Code.Ends.mono h (fun _ _ h => ⟨h.1, fun _ => h.2.tidy, fun _ => h.2.solid⟩)
    (fun _ h => ⟨h.1, ⟨M, h.2.1, fun _ => rfl⟩, fun _ => h.2.2.tidy, fun _ => h.2.2.solid⟩)

lemma default_ends (h : p.Models M) (hx : p.obj x = none) : Ends E p M (.default x) :=
  ends_of_strong (create_updates h hx (.of_returns (construct_returns h.wf rfl)))

lemma sized_ends (n : ℕ) (h : p.Models M) (hx : p.obj x = none) : Ends E p M (.sized x n) :=
  ends_of_strong (create_updates h hx (constructSized_ends n h.wf rfl))

lemma filled_ends (n : ℕ) (v : α) (h : p.Models M) (hx : p.obj x = none) :
    Ends E p M (.filled x n v) :=
  ends_of_strong (create_updates h hx (constructFill_ends n v h.wf rfl))

lemma copyOf_ends (h : p.Models M) (hx : p.obj x = none) (hy : (p.obj y).isSome) :
    Ends E p M (.copyOf x y) := by
  obtain ⟨o, ho⟩ := Option.isSome_iff_exists.mp hy
  obtain ⟨us, hM, hus⟩ := h.at_some ho
  refine ends_of_strong (Code.Ends.step (fields_run ho) ?_)
  rw [apply, hM]
  exact create_updates h hx (constructCopy_ends h.wf rfl hus)

lemma moveOf_ends (h : p.Models M) (hx : p.obj x = none) (hy : (p.obj y).isSome) :
    Ends E p M (.moveOf x y) := by
  obtain ⟨o, ho⟩ := Option.isSome_iff_exists.mp hy
  have hxy : x ≠ y := by
    rintro rfl
    rw [hx] at hy
    cases hy
  refine ends_of_strong (Code.Ends.of_returns (Code.Returns.step (fields_run ho) ?_))
  exact ⟨(), _, rfl, h.transfer hxy (Or.inl hx) ho, id,
    fun hsol => (hsol.update (m := p.mem) (hsol y o ho)).update (fun _ => rfl)⟩

lemma moveAssign_returns {a o : HeapArray} (h : p.Models M) (hxy : x ≠ y) (ha : p.obj x = some a)
    (ho : p.obj y = some o) : (Pool.moveAssign x y).Returns p (fun _ p' =>
      Pool.Models p' (Function.update (Function.update M x (M y)) y (some ([], 0))) ∧
        p.Preserves p') := by
  obtain ⟨vs, hM, hvs⟩ := h.at_some ha
  rw [Pool.moveAssign, if_neg hxy]
  obtain ⟨left, s', ⟨rfl, hself, hs'⟩, hrun⟩ :=
    member_returns ha (assignMove_returns (o := o) h.wf hvs)
  refine Code.Returns.step (fields_run ho) (Code.Returns.step hrun ?_)
  -- the target's block is released before the fields are taken over
  have hcleared := h.updates (Or.inl ha) hs'.updates.toLeaves
  have hmoved := hcleared.transfer (o := o) hxy (Or.inr (Function.update_self ..))
    (show Function.update p.obj x (some HeapArray.nil) y = some o by
      rwa [Function.update_of_ne (Ne.symm hxy)])
  refine ⟨(), _, rfl, ?_, hs'.tidy, fun hsol =>
    (hsol.update (m := s'.mem) (hself ▸ hsol y o ho)).update (fun _ => rfl)⟩
  rw [hself]
  simpa only [Function.update_idem, Function.update_of_ne (Ne.symm hxy)] using hmoved

lemma moveAssign_ends (h : p.Models M) (hx : (p.obj x).isSome) (hy : (p.obj y).isSome) :
    Ends E p M (.moveAssign x y) := by
  obtain ⟨a, ha⟩ := Option.isSome_iff_exists.mp hx
  obtain ⟨o, ho⟩ := Option.isSome_iff_exists.mp hy
  refine ends_of_strong ?_
  by_cases hxy : x = y
  · rw [apply, code, Pool.moveAssign, if_pos hxy, if_pos hxy]
    exact Code.Ends.pure ⟨h, id, id⟩
  · rw [apply, if_neg hxy]
    exact .of_returns (moveAssign_returns h hxy ha ho)

lemma member_assignMove_nil {o : HeapArray} (hx : p.obj x = some HeapArray.nil) :
    member x (assignMove o) p =
      .returned HeapArray.nil ⟨p.mem, Function.update p.obj x (some o)⟩ := by
  simp only [member, hx]
  rfl

lemma swap_ends (h : p.Models M) (hx : (p.obj x).isSome) (hy : (p.obj y).isSome) :
    Ends E p M (.swap x y) := by
  obtain ⟨a, ha⟩ := Option.isSome_iff_exists.mp hx
  obtain ⟨o, ho⟩ := Option.isSome_iff_exists.mp hy
  have hrun : Pool.swap x y p = .returned ()
      ⟨p.mem, Function.update (Function.update p.obj x (some o)) y (some a)⟩ := by
    let p₁ : Pool α := ⟨p.mem, Function.update p.obj x (some HeapArray.nil)⟩
    rw [Pool.swap, Code.bind_returned (fields_run ha),
      Code.bind_returned (show temporary HeapArray.nil (constructMove a) p = _ from rfl)]
    refine (Code.bind_returned (show put x (some HeapArray.nil) p = .returned () p₁ from rfl)).trans ?_
    by_cases hxy : x = y
    · subst hxy
      rw [ha] at ho
      cases ho
      have hself : p₁.obj x = some HeapArray.nil := Function.update_self ..
      rw [Pool.moveAssign, if_pos rfl, Code.bind_returned (Code.pure_run _ _),
        Code.bind_returned (member_assignMove_nil hself)]
      simp only [p₁, Function.update_idem]
      rfl
    · have hx₁ : p₁.obj x = some HeapArray.nil := Function.update_self ..
      have hy₁ : p₁.obj y = some o := by
        change Function.update p.obj x (some HeapArray.nil) y = some o
        rwa [Function.update_of_ne (Ne.symm hxy)]
      have hmove : Pool.moveAssign x y p₁ = .returned ()
          ⟨p.mem, Function.update (Function.update p.obj x (some o)) y (some HeapArray.nil)⟩ := by
        rw [Pool.moveAssign, if_neg hxy, Code.bind_returned (fields_run hy₁),
          Code.bind_returned (member_assignMove_nil hx₁)]
        simp only [p₁, Function.update_idem]
        rfl
      rw [Code.bind_returned hmove,
        Code.bind_returned (member_assignMove_nil (Function.update_self ..))]
      simp only [Function.update_idem]
      rfl
  exact ends_of_strong (Code.Ends.of_returns ⟨(), _, hrun, h.exchange ha ho, id,
    fun hsol => (hsol.update (m := p.mem) (hsol y o ho)).update (hsol x a ha)⟩)

lemma reserve_ends (n : ℕ) (h : p.Models M) (hx : (p.obj x).isSome) :
    Ends E p M (.reserve x n) := by
  obtain ⟨a, ha⟩ := Option.isSome_iff_exists.mp hx
  obtain ⟨vs, hM, -⟩ := h.at_some ha
  refine ends_of_strong ?_
  rw [apply, hM]
  refine member_updates h ha (fun vs' hM' hvs => ?_)
  rw [hM] at hM'
  cases hM'
  exact HeapArray.reserve_ends n h.wf hvs

lemma shrinkToFit_ends (h : p.Models M) (hx : (p.obj x).isSome) :
    Ends E p M (.shrinkToFit x) := by
  obtain ⟨a, ha⟩ := Option.isSome_iff_exists.mp hx
  obtain ⟨vs, hM, -⟩ := h.at_some ha
  refine ends_of_strong ?_
  rw [apply, hM]
  refine member_updates h ha (fun vs' hM' hvs => ?_)
  rw [hM] at hM'
  cases hM'
  exact HeapArray.shrinkToFit_ends h.wf hvs

lemma clear_member {a : HeapArray} (h : p.Models M) (ha : p.obj x = some a) :
    (member x cleanup).Ends p
      (fun _ p' => Pool.Models p' (Function.update M x (some ([], 0))) ∧ p.Preserves p')
      (fun p' => p.mem.fuse ≠ none ∧ Pool.Models p' M ∧ p.Preserves p') :=
  member_updates h ha (fun _ _ hvs => .of_returns (HeapArray.clear_returns h.wf hvs))

lemma clear_ends (h : p.Models M) (hx : (p.obj x).isSome) : Ends E p M (.clear x) := by
  obtain ⟨a, ha⟩ := Option.isSome_iff_exists.mp hx
  exact ends_of_strong (clear_member h ha)

lemma write_ends {i : ℕ} (v : α) (h : p.Models M)
    (hi : ∃ a, p.obj x = some a ∧ i < a.size) : Ends E p M (.write x i v) := by
  obtain ⟨a, ha, hia⟩ := hi
  obtain ⟨vs, hM, -⟩ := h.at_some ha
  refine ends_of_strong ?_
  rw [apply, hM]
  refine member_updates h ha (fun vs' hM' hvs => ?_)
  rw [hM] at hM'
  cases hM'
  exact HeapArray.write_ends v h.wf hvs (by rwa [hvs.size_eq] at hia)

lemma destroy_ends (h : p.Models M) (hx : (p.obj x).isSome) : Ends E p M (.destroy x) := by
  obtain ⟨a, ha⟩ := Option.isSome_iff_exists.mp hx
  refine ends_of_strong (Code.Ends.bind (clear_member h ha) ?_)
  rintro _ p' ⟨hp', hkeep⟩
  refine Code.Ends.of_returns ⟨(), _, rfl, ?_, hkeep.tidy, fun hsol => (hkeep.solid hsol).remove⟩
  have herase := hp'.erase (Function.update_self ..)
  rwa [Function.update_idem] at herase

lemma resize_ends (n : ℕ) (h : p.Models M) (hx : (p.obj x).isSome) :
    Ends E p M (.resize x n) := by
  obtain ⟨a, ha⟩ := Option.isSome_iff_exists.mp hx
  obtain ⟨vs, hM, hvs⟩ := h.at_some ha
  refine Code.Ends.mono (member_ends ha (resizeBuffer_ends (E := E) n h.wf hvs)) ?_ ?_
  · rintro _ _ ⟨s', hs', rfl⟩
    rw [apply, hM]
    exact ⟨h.updates (Or.inl ha) hs'.toLeaves, fun _ => hs'.tidy,
      fun _ hsol => hsol.update (hs'.solid (hsol x a ha))⟩
  rintro _ ⟨s', ⟨k, hs'⟩ | ⟨hcap, hs'⟩, rfl⟩
  · have hself : s'.self = a := hs'.self
    have hmod := h.updates (Or.inl ha) (breaks_leaves (s := ⟨p.mem, a⟩) h.wf hvs hs')
    rw [← hM, Function.update_eq_self] at hmod
    refine ⟨?_, ⟨M, hmod, fun _ => rfl⟩, fun _ => hs'.tidy,
      fun _ hsol => hsol.update (hself ▸ hsol x a ha)⟩
    rw [show p.mem.fuse = some k from hs'.blown]
    exact Option.some_ne_none k
  · have hself : s'.self = a := hs'.self
    obtain ⟨ws, hws⟩ := survives_leaves hs'.toSurvives
    refine ⟨?_, ⟨_, h.updates (Or.inl ha) hws, fun hstrong => ?_⟩, fun hord hti => ?_,
      fun _ hsol => hsol.update (hself ▸ hsol x a ha)⟩
    · obtain ⟨k, hk, -⟩ := hs'.position
      rw [show p.mem.fuse = some k from hk]
      exact Option.some_ne_none k
    · have hthrows := hs'.throws
      rw [show E.nothrowDefault = true from hstrong] at hthrows
      cases hthrows
    · refine hs'.tidy ?_ hti
      by_contra hne
      obtain ⟨k, hk, hlow, hhigh⟩ := hs'.position
      refine hord a ha hcap ?_ hs'.throws k hk (by rw [hvs.size_eq]; exact ⟨hlow, hhigh⟩)
      rw [hvs.size_eq]
      exact fun hz => hne (List.length_eq_zero_iff.mp hz)

lemma copyAssign_ends_or_torn (h : p.Models M) (hx : (p.obj x).isSome) (hy : (p.obj y).isSome) :
    ((copyAssign x y).code E).Ends p
      (fun _ p' => Pool.Models p' ((copyAssign x y).apply E M) ∧ (copyAssign x y).Preserves E p p')
      (fun p' => ¬Whole E p (.copyAssign x y) ∨
        (p.mem.fuse ≠ none ∧ (∃ M', Pool.Models p' M' ∧ ((copyAssign x y).Strong E → M' = M)) ∧
          (copyAssign x y).Preserves E p p')) := by
  obtain ⟨a, ha⟩ := Option.isSome_iff_exists.mp hx
  obtain ⟨o, ho⟩ := Option.isSome_iff_exists.mp hy
  rw [apply, code, Pool.copyAssign]
  by_cases hxy : x = y
  · rw [if_pos hxy, if_pos hxy]
    exact Code.Ends.pure ⟨h, fun _ => id, fun _ => id⟩
  rw [if_neg hxy, if_neg hxy]
  obtain ⟨vs, hM, hvs⟩ := h.at_some ha
  obtain ⟨us, hM', hus⟩ := h.at_some ho
  have hasize : a.size = vs.length := hvs.size_eq
  have hosize : o.size = us.length := hus.size_eq
  have hdiff : ∀ b, o.first.block = some b → a.first.block ≠ some b :=
    fun b hob hab => hxy (h.apart x y a o b ha ho hab hob)
  -- either the source's elements were moved out, or the source is as it was
  have hmod : ∀ s' ws cap j, j ≤ us.length →
      Leaves ⟨p.mem, a⟩ (movedOut E p.mem.object o j) ws cap s' →
      Models ⟨s'.mem, Function.update p.obj x (some s'.self)⟩
        (Function.update (Function.update M y (some (Models.movedPrefix E j us, o.capacity))) x
          (some (ws, cap))) :=
    fun s' ws cap j hj hl => h.moves (Ne.symm hxy) ha ho hM' hj hl
  refine Code.Ends.step (fields_run ho) ((member_ends ha
    (assignCopy_ends (s := ⟨p.mem, a⟩) (E := E) h.wf hvs hus hdiff)).mono ?_ ?_)
  · rintro _ _ ⟨s', ⟨hl, htidy⟩, rfl⟩
    refine ⟨?_, fun hord => htidy (hord hxy a ha o ho), fun hsol => hsol.elim⟩
    change Leaves ⟨p.mem, a⟩ (leftover E p.mem.object a o) (assigned a o vs us)
      (assignedCapacity a o) s' at hl
    simp only [copyAssigned, hM, hM']
    by_cases hzero : us.length = 0
    · have hnil : us = [] := List.length_eq_zero_iff.mp hzero
      have hrebuild : ¬Rebuilds a o := fun hr => hr.1 (by omega)
      rw [leftover, if_neg hrebuild] at hl
      rw [if_pos hzero]
      have hupd := h.updates (Or.inl ha) hl
      by_cases hcap : o.capacity = a.capacity
      · rw [assigned, if_pos ⟨by omega, hcap⟩, assignedCapacity,
          if_neg (by simp [hrebuild, Discards, hcap]), ← hM, Function.update_eq_self] at hupd
        rwa [if_pos hcap]
      · rw [assigned, if_neg (fun hk => hcap hk.2), assignedCapacity,
          if_pos (Or.inr ⟨by omega, hcap⟩), hnil] at hupd
        rwa [if_neg hcap]
    · have hkeep : ¬Keeps a o := fun hk => hzero (by have := hk.1; omega)
      have hdiscard : ¬Discards a o := fun hd => hzero (by have := hd.1; omega)
      rw [assigned, if_neg hkeep] at hl
      rw [if_neg hzero]
      by_cases hrebuild : Rebuilds a o
      · rw [leftover, if_pos hrebuild, assignedCapacity, if_pos (Or.inl hrebuild), hosize] at hl
        rw [if_pos (by have := hrebuild.2; omega), ← Models.movedPrefix_all]
        exact hmod s' us o.capacity us.length le_rfl hl
      · rw [leftover, if_neg hrebuild, assignedCapacity, if_neg (by tauto)] at hl
        rw [if_neg (fun hr => hrebuild ⟨by omega, by omega⟩)]
        exact h.updates (Or.inl ha) hl
  · rintro _ ⟨s', htorn | hint, rfl⟩
    · exact Or.inl (fun hwhole => hwhole hxy a ha o ho htorn)
    rcases hint with ⟨hfuse, ⟨_, hl, htidy⟩ | ⟨j, hj, hs', htidy⟩⟩
    · exact Or.inr ⟨hfuse, ⟨_, h.updates (Or.inl ha) hl, fun hs => hs.elim⟩,
        fun hord => htidy (hord hxy a ha o ho), fun hsol => hsol.elim⟩
    · obtain ⟨ws, hws⟩ := survives_leaves hs'
      exact Or.inr ⟨hfuse, ⟨_, hmod s' ws _ j (by omega) hws, fun hs => hs.elim⟩, fun _ => htidy,
        fun hsol => hsol.elim⟩

lemma copyAssign_ends (h : p.Models M) (hx : (p.obj x).isSome) (hy : (p.obj y).isSome)
    (hwhole : Whole E p (.copyAssign x y)) : Ends E p M (.copyAssign x y) :=
  (copyAssign_ends_or_torn h hx hy).mono (fun _ _ hp => hp)
    (fun _ hp => hp.resolve_left (fun hnot => hnot hwhole))

/-- Every legal action that is not torn computes `apply` or throws, and keeps the pool in shape. -/
theorem ends {act : Action α} (h : p.Models M) (hlegal : act.Legal p) (hwhole : act.Whole E p) :
    Ends E p M act := by
  cases act with
  | default x => exact default_ends h hlegal
  | sized x n => exact sized_ends n h hlegal
  | filled x n val => exact filled_ends n val h hlegal
  | copyOf x y => exact copyOf_ends h hlegal.1 hlegal.2
  | moveOf x y => exact moveOf_ends h hlegal.1 hlegal.2
  | moveAssign x y => exact moveAssign_ends h hlegal.1 hlegal.2
  | copyAssign x y => exact copyAssign_ends h hlegal.1 hlegal.2 hwhole
  | swap x y => exact swap_ends h hlegal.1 hlegal.2
  | resize x n => exact resize_ends n h hlegal
  | reserve x n => exact reserve_ends n h hlegal
  | shrinkToFit x => exact shrinkToFit_ends h hlegal
  | clear x => exact clear_ends h hlegal
  | write x i val => exact write_ends val h hlegal
  | destroy x => exact destroy_ends h hlegal

end Action

end Voxory
