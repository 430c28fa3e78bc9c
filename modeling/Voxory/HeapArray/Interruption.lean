import Voxory.HeapArray.Reallocation

/-!
# A copy assignment that its elements interrupt

The helper that rolls an interrupted loop of assignments back destroys the elements that were
assigned to, as if it had constructed them. They are elements of the target, which goes on to
count them.
-/

namespace Voxory
open Cxx

namespace HeapArray

variable {α : Type} {s s' : State α HeapArray} {E : Element α} {vs us : List α} {o : HeapArray}

/-- The live slots of the array's block are those below `size()`, and its destructor destroys each
of them once and nothing else. -/
structure Intact (s : State α HeapArray) : Prop where
  live : ∀ i, (s.mem.object (s.self.first + i)).isSome ↔ i < s.self.size
  destroys : ∃ t, destruct s = .returned () t ∧ ∀ q,
    t.mem.trace.count (.destroy q) = s.mem.trace.count (.destroy q) +
      if q.block = s.self.first.block ∧ q.off < s.self.size then 1 else 0

lemma Holds.intact (h : Holds s.mem s.self vs) (hw : s.mem.Wf) : Intact s := by
  refine ⟨fun i => ?_, ?_⟩
  · rw [h.size_eq]
    cases hb : s.self.first.block with
    | none =>
      obtain ⟨ha, rfl⟩ := h.eq_nil hb
      rw [object_none_block hw (by rw [Ptr.add_block, hb])]
      simp
    | some b =>
      rw [h.first_add hb, h.object_eq hb]
      simp
  · obtain ⟨_, t, hrun, -⟩ := cleanup_returns hw h
    refine ⟨t, hrun, fun q => ?_⟩
    rw [cleanup_emits () t hrun, discarded_destroy h]

lemma assignCopy_stops (hw : s.mem.Wf) (h : Holds s.mem s.self vs) (ho : Holds s.mem o us)
    (hdiff : ∀ b, o.first.block = some b → s.self.first.block ≠ some b) (hsize : 0 < s.self.size)
    (hosize : 0 < o.size) (hfits : o.size ≤ s.self.capacity) (hthrow : assignCopy E o s = .threw s') :
    Stopped E s o s' := by
  have hvs := h.size_eq
  have hus := ho.size_eq
  obtain ⟨b, hb⟩ := h.owns (List.ne_nil_of_length_pos (by omega))
  have hends := inPlace_ends (E := E) hw h ho hb (fun hc => hdiff b hc hb) (by omega)
    (List.ne_nil_of_length_pos (by omega)) (List.ne_nil_of_length_pos (by omega))
  rw [← assignCopy, Code.Ends, hthrow] at hends
  exact hends

lemma Stopped.intact_iff (h : Stopped E s o s') (hsize : 0 < s.self.size) :
    Intact s' ↔ ¬Torn E s.self o s.mem.fuse := by
  rcases h with ⟨htorn, hself, hdead⟩ | ⟨hwhole, -, hsurvives, -⟩
  · refine iff_of_false (fun hintact => ?_) (fun hnot => hnot htorn)
    have hlive := (hintact.live 0).mpr (by rwa [hself])
    rw [hself, Ptr.add_zero, hdead] at hlive
    cases hlive
  · obtain ⟨ws, hws⟩ := hsurvives.holds
    rw [← hsurvives.self] at hws
    exact iff_of_true (hws.intact hsurvives.wf) hwhole

end HeapArray

namespace Pool

variable {α : Type} {E : Element α} {p : Pool α} {x y : ℕ} {a o : HeapArray}

open Objects HeapArray

/-- Elements that are copied and assigned with operations that may throw. -/
def assignable : Element ℕ :=
  { Element.plain 0 id with
    copyThrows := true
    copyAssignThrows := true }

/-- Two arrays, the second with one element and room for three. -/
def roomRun : List (Option ℕ × MixedAction ℕ) :=
  [(none, .equal (.filled 0 3 7)), (none, .equal (.filled 1 1 5)), (none, .equal (.reserve 1 3))]

/-- Two arrays of two elements. -/
def evenRun : List (Option ℕ × MixedAction ℕ) :=
  [(none, .equal (.filled 0 2 7)), (none, .equal (.filled 1 2 5))]

end Pool

end Voxory
