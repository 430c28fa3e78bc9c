import Voxory.Cxx.Storage

/-!
# Calls that an exception undid

While a new block is being filled, the events of the call show which of its slots are alive. The
strong guarantee says that after an exception they show nothing: what was constructed has been
destroyed and what was allocated has been given back, and fields, blocks and objects are as before.
-/

namespace Cxx

section Undo

variable {α ρ : Type}

/-- The call that led from `s` to `s'` left no effect. -/
structure State.Undone (s s' : State α ρ) : Prop where
  self : s'.self = s.self
  object : s'.mem.object = s.mem.object
  extent : s'.mem.extent = s.mem.extent
  events : ∃ ts, s'.mem.trace = ts ++ s.mem.trace ∧ outstanding ts = some [] ∧
    ∀ p, lifetime p ts = some false

/-- Exactly the first `d` slots of the block `c` hold live objects. -/
def State.FilledTo (t : State α ρ) (c d : ℕ) : Prop :=
  ∀ j, (t.mem.object ⟨some c, j⟩).isSome ↔ j < d

/-- Since `s` a new block `c` of `n` slots was allocated, and objects began and ended only in it;
where `keep` holds no other object changed. -/
structure State.Builds (s : State α ρ) (keep : Prop) (c n : ℕ) (t : State α ρ) : Prop where
  self : t.self = s.self
  wf : t.mem.Wf
  new : s.mem.fresh ≤ c
  extent : t.mem.extent = Function.update s.mem.extent c (some n)
  kept : keep → ∀ p, p.block ≠ some c → t.mem.object p = s.mem.object p
  events : ∃ ts, t.mem.trace = ts ++ s.mem.trace ∧ outstanding ts = some [(⟨some c, 0⟩, n)] ∧
    ∀ p, lifetime p ts = some (decide (p.block = some c) && (t.mem.object p).isSome)

variable {s t t' : State α ρ} {keep : Prop} {c d n : ℕ}

namespace State.FilledTo

lemma object_none (h : t.FilledTo c d) {j : ℕ} (hj : d ≤ j) : t.mem.object ⟨some c, j⟩ = none := by
  by_contra hne
  have hlt := (h j).mp (Option.isSome_iff_ne_none.mpr hne)
  omega

lemma push {v : α} (h : t.FilledTo c d)
    (hobj : t'.mem.object = Function.update t.mem.object ⟨some c, d⟩ (some v)) :
    t'.FilledTo c (d + 1) := by
  intro j
  rw [hobj]
  by_cases hj : j = d
  · subst hj
    rw [Function.update_self]
    exact ⟨fun _ => Nat.lt_succ_self j, fun _ => rfl⟩
  · rw [Function.update_of_ne (by simpa using hj), h j]
    omega

lemma cut {k : ℕ} (h : t.FilledTo c (d + k))
    (hobj : t'.mem.object = overlay t.mem.object ⟨some c, d⟩ k (fun _ => none)) :
    t'.FilledTo c d := by
  intro j
  rw [hobj]
  by_cases hj : d ≤ j ∧ j < d + k
  · have hinside := overlay_inside t.mem.object ⟨some c, d⟩ (fun _ => none)
      (show j - d < k by omega)
    rw [Ptr.mk_add, Nat.add_sub_cancel' hj.1] at hinside
    rw [hinside]
    exact ⟨fun hn => (nomatch hn), fun hlt => by omega⟩
  · rw [overlay_outside (by simpa using hj), h j]
    omega

lemma congr (h : t.FilledTo c d) (hobj : ∀ j, t'.mem.object ⟨some c, j⟩ = t.mem.object ⟨some c, j⟩) :
    t'.FilledTo c d :=
  fun j => by rw [hobj, h j]

end State.FilledTo

namespace State.Builds

lemma imp {keep' : Prop} (h : s.Builds keep c n t) (himp : keep' → keep) :
    s.Builds keep' c n t :=
  ⟨h.self, h.wf, h.new, h.extent, fun hk => h.kept (himp hk), h.events⟩

lemma frame (h : s.Builds keep c n t) {m : Memory α} (hw : m.Wf) (hext : m.extent = t.mem.extent)
    (hkept : keep → ∀ p, p.block ≠ some c → m.object p = t.mem.object p)
    (hsome : ∀ p, p.block = some c → (m.object p).isSome = (t.mem.object p).isSome)
    (htrace : m.trace = t.mem.trace) : s.Builds keep c n ⟨m, t.self⟩ := by
  obtain ⟨ts, hts, hout, hlife⟩ := h.events
  refine ⟨h.self, hw, h.new, hext.trans h.extent, fun hk p hp => ?_, ts, htrace.trans hts, hout,
    fun p => ?_⟩
  · rw [← h.kept hk p hp]
    exact hkept hk p hp
  · rw [hlife]
    by_cases hp : p.block = some c
    · rw [← hsome p hp]
    · simp only [hp, decide_false, Bool.false_and]

lemma mayThrow (h : s.Builds keep c n t) (b : Bool) : (Cxx.mayThrow b).Within (fun _ => True) t
    (fun _ t' => s.Builds keep c n t' ∧ t'.mem.object = t.mem.object ∧
      Spent b.toNat t.mem.fuse t'.mem.fuse)
    (fun t' => b = true ∧ s.Builds keep c n t' ∧ t'.mem.object = t.mem.object ∧
      t.mem.fuse = some 0) := by
  have hburn : ∀ k, s.Builds keep c n { t with mem := { t.mem with fuse := k } } := fun k =>
    h.frame ⟨h.wf.fresh, h.wf.bounds⟩ rfl (fun _ _ _ => rfl) (fun _ _ => rfl) rfl
  rw [Code.Within, Cxx.mayThrow]
  cases b with
  | false => exact ⟨h, rfl, .refl _⟩
  | true =>
    rw [if_pos rfl]
    cases hf : t.mem.fuse with
    | none => exact ⟨h, rfl, by simp [Spent, hf]⟩
    | some k =>
      cases k with
      | zero => exact ⟨rfl, hburn none, rfl, rfl⟩
      | succ k => exact ⟨hburn (some k), rfl, by simp [Spent]⟩

lemma event (h : s.Builds keep c n t) {j : ℕ} {v : Option α} {e : Event}
    (hin : t.mem.inBounds ⟨some c, j⟩ = true) (hout : ∀ ts, outstanding (e :: ts) = outstanding ts)
    (hat : ∀ ts, lifetime ⟨some c, j⟩ ts = some (t.mem.object ⟨some c, j⟩).isSome →
      lifetime ⟨some c, j⟩ (e :: ts) = some v.isSome)
    (hoff : ∀ p ts, p ≠ ⟨some c, j⟩ → lifetime p (e :: ts) = lifetime p ts) :
    s.Builds keep c n { t with mem := { t.mem with
      object := Function.update t.mem.object ⟨some c, j⟩ v, trace := e :: t.mem.trace } } := by
  obtain ⟨ts, hts, houts, hlife⟩ := h.events
  refine ⟨h.self, (put_alters v _ hin).wf h.wf, h.new, h.extent, fun hk p hp => ?_, e :: ts, ?_,
    (hout ts).trans houts, fun p => ?_⟩
  · have hne : p ≠ ⟨some c, j⟩ := fun he => hp (by rw [he])
    simp only [Function.update_of_ne hne]
    exact h.kept hk p hp
  · simp only [hts, List.cons_append]
  · by_cases hp : p = ⟨some c, j⟩
    · subst hp
      rw [hat ts (by rw [hlife]; simp)]
      simp
    · simp only [hoff p ts hp, hlife, Function.update_of_ne hp]

lemma construct (h : s.Builds keep c n t) (hd : t.FilledTo c d) (v : α) :
    (Cxx.construct ⟨some c, d⟩ v).Within (fun _ => True) t
      (fun _ t' => s.Builds keep c n t' ∧ t'.FilledTo c (d + 1) ∧ t'.mem.fuse = t.mem.fuse)
      (fun _ => False) := by
  rw [Code.Within, Cxx.construct]
  by_cases hin : t.mem.inBounds ⟨some c, d⟩ = true
  · rw [if_pos hin]
    refine ⟨h.event (v := some v) hin (fun _ => rfl) (fun ts hts => ?_) (fun p ts hp => ?_), ?_, rfl⟩
    · rw [hd.object_none le_rfl] at hts
      exact lifetime_construct hts
    · exact lifetime_other (by simpa using Ne.symm hp) (by simp)
    · exact hd.push rfl
  · rw [if_neg hin]
    trivial

lemma destroy (h : s.Builds keep c n t) (j : ℕ) : (Cxx.destroy ⟨some c, j⟩).Within (fun _ => True) t
    (fun _ t' => s.Builds keep c n t') (fun _ => False) := by
  rw [Code.Within, Cxx.destroy]
  by_cases hin : t.mem.inBounds ⟨some c, j⟩ = true
  · rw [if_pos hin]
    cases hv : t.mem.object ⟨some c, j⟩ with
    | none => trivial
    | some v =>
      refine h.event (v := none) hin (fun _ => rfl) (fun ts hts => ?_) (fun p ts hp => ?_)
      · rw [hv] at hts
        exact lifetime_destroy hts
      · exact lifetime_other (by simp) (by simpa using Ne.symm hp)
  · rw [if_neg hin]
    trivial

/-- Giving the block back undoes the call, if no object is left in it. -/
lemma undone (h : s.Builds True c n t) (hw : s.mem.Wf) (hd : t.FilledTo c 0) :
    s.Undone ⟨t.mem.release ⟨some c, 0⟩ n, t.self⟩ := by
  obtain ⟨ts, hts, hout, hlife⟩ := h.events
  have hnone : s.mem.extent c = none := hw.fresh c h.new
  refine ⟨h.self, ?_, ?_, .deallocate ⟨some c, 0⟩ n :: ts, ?_, ?_, fun p => ?_⟩
  · funext p
    simp only [Memory.release]
    split_ifs with hp
    · refine (hw.object_none (fun hin => ?_)).symm
      obtain ⟨b, k, hb, hk, -⟩ := Memory.inBounds_iff.mp hin
      rw [hp] at hb
      cases hb
      rw [hnone] at hk
      cases hk
    · exact h.kept trivial p hp
  · funext b
    simp only [Memory.release]
    split_ifs with hb
    · cases hb
      exact hnone.symm
    · rw [h.extent, Function.update_of_ne (fun he => hb (by rw [he]))]
  · simp only [Memory.release, hts, List.cons_append]
  · simp [outstanding, hout]
  · rw [lifetime_other (by simp) (by simp), hlife]
    by_cases hp : p.block = some c
    · have hpe : p = ⟨some c, p.off⟩ := (Ptr.ext_iff' _ _).mpr ⟨hp, rfl⟩
      rw [hpe, hd.object_none (Nat.zero_le _)]
      simp
    · simp [hp]

/-- An object that is left in the block is lost with it. -/
lemma not_undone (h : s.Builds keep c n t) (hd : t.FilledTo c d) (hpos : 0 < d) :
    ¬s.Undone ⟨t.mem.release ⟨some c, 0⟩ n, t.self⟩ := by
  rintro ⟨-, -, -, us, hus, -, hdead⟩
  obtain ⟨ts, hts, -, hlife⟩ := h.events
  have heq : us = .deallocate ⟨some c, 0⟩ n :: ts := by
    simp only [Memory.release, hts, ← List.cons_append] at hus
    exact (List.append_cancel_right hus).symm
  have halive := hdead ⟨some c, 0⟩
  rw [heq, lifetime_other (by simp) (by simp), hlife, (hd 0).mpr hpos] at halive
  simp at halive

end State.Builds

lemma allocate_builds (hw : s.mem.Wf) (hn : n ≠ 0) : (allocate n).Ends s
    (fun p t => ∃ c, p = ⟨some c, 0⟩ ∧ s.Builds True c n t ∧ t.FilledTo c 0 ∧
      Spent 1 s.mem.fuse t.mem.fuse)
    (fun t => s.Undone t ∧ s.mem.fuse = some 0) := by
  have hthrow : (mayThrow true : Code (State α ρ) Unit).Ends s
      (fun _ t => Spent 1 s.mem.fuse t.mem.fuse ∧ t.self = s.self ∧
        t.mem = { s.mem with fuse := t.mem.fuse })
      (fun t => s.Undone t ∧ s.mem.fuse = some 0) := by
    rw [Code.Ends, mayThrow, if_pos rfl]
    cases hf : s.mem.fuse with
    | none => exact ⟨by simp [Spent, hf], rfl, rfl⟩
    | some k =>
      cases k with
      | zero => exact ⟨⟨rfl, rfl, rfl, [], rfl, rfl, fun _ => rfl⟩, rfl⟩
      | succ k => exact ⟨by simp [Spent], rfl, rfl⟩
  refine hthrow.bind ?_
  rintro _ ⟨m, r⟩ ⟨hspent, hself, hmem⟩
  obtain ⟨k, rfl⟩ : ∃ k, m = { s.mem with fuse := k } := ⟨_, hmem⟩
  have hzero : ¬(n = 0 ∧ s.mem.nullOnZero = true) := fun h => hn h.1
  obtain ⟨p, u, hrun, hu⟩ := takeBlock_returns (s := ⟨{ s.mem with fuse := k }, r⟩) n
    ⟨hw.fresh, hw.bounds⟩
  have hwf := hu.wf ⟨hw.fresh, hw.bounds⟩
  have hblock : takeBlock n ⟨{ s.mem with fuse := k }, r⟩ = _ := if_neg hzero
  rw [hblock] at hrun
  cases hrun
  rw [Code.Ends, hblock]
  refine ⟨s.mem.fresh, rfl, ⟨hself, hwf, le_rfl, rfl, fun _ _ _ => rfl,
    [.allocate ⟨some s.mem.fresh, 0⟩ n], rfl, rfl, fun p => ?_⟩, fun j => ?_, hspent⟩
  · have hnone : p.block = some s.mem.fresh → s.mem.object p = none := fun hp =>
      hw.object_none (fun hin => by
        obtain ⟨b, l, hb, hl, -⟩ := Memory.inBounds_iff.mp hin
        rw [hp] at hb
        cases hb
        rw [hw.fresh _ le_rfl] at hl
        cases hl)
    by_cases hp : p.block = some s.mem.fresh
    · simp [lifetime, hnone hp]
    · simp [lifetime, hp]
  · have hnone : s.mem.object ⟨some s.mem.fresh, j⟩ = none := hw.object_none (fun hin => by
      obtain ⟨b, l, hb, hl, -⟩ := Memory.inBounds_iff.mp hin
      cases hb
      rw [hw.fresh _ le_rfl] at hl
      cases hl)
    simp [hnone]

end Undo

end Cxx
