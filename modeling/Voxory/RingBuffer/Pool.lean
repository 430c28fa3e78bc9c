import Voxory.Cxx.Objects
import Voxory.Machine
import Voxory.RingBuffer.Shape

/-!
# A program with many ring buffers

Every action constructs, uses or destroys buffers through the member functions of `RingBuffer`;
an exception that leaves a member function is caught and the program goes on. As long as no
buffer with a capacity is moved from, the fields of every buffer agree with each other and with
the block it owns. `Reachable` is about such runs, and so are all theorems that assume it.
-/

namespace Voxory
open Cxx

abbrev RingPool (α : Type) : Type := Objects α RingBuffer

/-- The operations on ring buffers, under the names of the buffers they concern. -/
inductive RingAction (α : Type) where
  | default (x : ℕ)
  | sized (x n : ℕ)
  | moveOf (x y : ℕ)
  | moveAssign (x y : ℕ)
  | pushBack (x : ℕ) (val : Arg α)
  | tryPopFront (x : ℕ)
  | clear (x : ℕ)
  | commitRead (x n : ℕ)
  | commitWrite (x n : ℕ)
  | reserve (x n : ℕ)
  | shrinkToFit (x : ℕ)
  | setOverwrite (x : ℕ) (allow : Bool)
  | destroy (x : ℕ)

namespace RingAction

variable {α : Type}

open Objects

def code (E : Element α) : RingAction α → Code (RingPool α) Unit
  | .default x => create (RingBuffer.nil true) x RingBuffer.construct
  | .sized x n => create (RingBuffer.nil true) x (RingBuffer.constructSized n)
  | .moveOf x y => do
    let o ← fields y
    let left ← create (RingBuffer.nil true) x (RingBuffer.constructMove o)
    put y (some left)
  | .moveAssign x y =>
    if x = y then pure ()
    else do
      let o ← fields y
      let left ← member x (RingBuffer.assignMove o)
      put y (some left)
  | .pushBack x val => member x (RingBuffer.pushBack E val)
  | .tryPopFront x => do
    let _ ← member x (RingBuffer.tryPopFront E)
  | .clear x => member x RingBuffer.clear
  | .commitRead x n => member x (RingBuffer.commitRead n)
  | .commitWrite x n => member x (RingBuffer.commitWrite n)
  | .reserve x n => member x (RingBuffer.reserve E n)
  | .shrinkToFit x => member x (RingBuffer.shrinkToFit E)
  | .setOverwrite x allow => member x (RingBuffer.setOverwrite allow)
  | .destroy x => do
    member x RingBuffer.destruct
    put x none

/-- An action uses buffers that exist and constructs one under a free name; `commit_read` is
asked for at most `size()` elements and `commit_write` for at most `capacity() - size()`. -/
def Legal (p : RingPool α) : RingAction α → Prop
  | .default x | .sized x _ => p.obj x = none
  | .moveOf x y => p.obj x = none ∧ (p.obj y).isSome
  | .moveAssign x y => (p.obj x).isSome ∧ (p.obj y).isSome
  | .pushBack x _ | .tryPopFront x | .clear x | .reserve x _ | .shrinkToFit x
  | .setOverwrite x _ | .destroy x => (p.obj x).isSome
  | .commitRead x n => ∃ r, p.obj x = some r ∧ n ≤ r.size
  | .commitWrite x n => ∃ r, p.obj x = some r ∧ n ≤ r.capacity - r.size

instance (n : ℕ) (o : Option RingBuffer) (f : RingBuffer → ℕ) :
    Decidable (∃ r, o = some r ∧ n ≤ f r) :=
  match o with
  | none => .isFalse (fun ⟨_, h, _⟩ => nomatch h)
  | some r => decidable_of_iff (n ≤ f r)
    ⟨fun h => ⟨r, rfl, h⟩, fun ⟨_, h, hn⟩ => Option.some.inj h ▸ hn⟩

instance (p : RingPool α) (act : RingAction α) : Decidable (act.Legal p) := by
  cases act with
  | commitRead x n => exact inferInstanceAs (Decidable (∃ r, p.obj x = some r ∧ n ≤ RingBuffer.size r))
  | commitWrite x n =>
    exact inferInstanceAs
      (Decidable (∃ r, p.obj x = some r ∧ n ≤ (fun r : RingBuffer => r.capacity - r.size) r))
  | _ => unfold Legal; infer_instance

/-- No capacity stays behind when a buffer is moved from: the source of a move, if it is another
buffer, has capacity 0. -/
def Frugal (p : RingPool α) : RingAction α → Prop
  | .moveOf _ y => ∀ o ∈ p.obj y, o.capacity = 0
  | .moveAssign x y => x ≠ y → ∀ o ∈ p.obj y, o.capacity = 0
  | _ => True

instance (p : RingPool α) (act : RingAction α) : Decidable (act.Frugal p) := by
  cases act <;> unfold Frugal <;> infer_instance

end RingAction

namespace RingPool

variable {α : Type}

open Objects RingBuffer

/-- One action of the program, with the fallible operation that throws in it. -/
def next (E : Element α) (p : RingPool α) (l : Option ℕ × RingAction α) : Option (RingPool α) :=
  if l.2.Legal p then after (l.2.code E (p.arm l.1)) else none

/-- The buffers' fields agree, and they own different blocks. -/
structure Sound (p : RingPool α) : Prop where
  wf : p.mem.Wf
  shape : ∀ x r, p.obj x = some r → Shape p.mem r
  apart : ∀ x y r r' b, p.obj x = some r → p.obj y = some r' → r.data.block = some b →
    r'.data.block = some b → x = y

variable {E : Element α} {p p' : RingPool α} {x y : ℕ} {r o a : RingBuffer}
  {s s' : State α RingBuffer} {allow : Bool}

namespace Sound

lemma start (z : Bool) : Sound (start z : RingPool α) :=
  ⟨Memory.empty_wf none z, fun _ _ h => (nomatch h), fun _ _ _ _ _ h => (nomatch h)⟩

lemma arm (h : Sound p) (k : Option ℕ) : Sound (p.arm k) :=
  ⟨⟨h.wf.fresh, h.wf.bounds⟩, fun x r hr => (h.shape x r hr).frame (fun _ _ => rfl), h.apart⟩

lemma of_update {obj : ℕ → Option RingBuffer} {z : ℕ} {r' : RingBuffer} {c : Option RingBuffer}
    (hz : Function.update obj x c z = some r') : (z = x ∧ c = some r') ∨ (z ≠ x ∧ obj z = some r') := by
  by_cases hzx : z = x
  · subst hzx
    rw [Function.update_self] at hz
    exact Or.inl ⟨rfl, hz⟩
  · rw [Function.update_of_ne hzx] at hz
    exact Or.inr ⟨hzx, hz⟩

lemma of_fields {m : Memory α} (hw : m.Wf) (hr : Shape m r)
    (hother : ∀ z r', z ≠ x → p.obj z = some r' → Shape m r')
    (hfree : ∀ z r' b, z ≠ x → p.obj z = some r' → r'.data.block = some b →
      r.data.block ≠ some b) (h : Sound p) : Sound ⟨m, Function.update p.obj x (some r)⟩ := by
  refine ⟨hw, fun z r' hz => ?_, fun z w r' r'' b hz hw hb hb' => ?_⟩
  · rcases of_update hz with ⟨-, hzr⟩ | ⟨hzx, hpz⟩
    · cases hzr
      exact hr
    · exact hother z r' hzx hpz
  · rcases of_update hz with ⟨hzx, hzr⟩ | ⟨hzx, hpz⟩ <;>
      rcases of_update hw with ⟨hwx, hwr⟩ | ⟨hwx, hpw⟩
    · rw [hzx, hwx]
    · cases hzr
      exact absurd hb (hfree w r'' b hwx hpw hb')
    · cases hwr
      exact absurd hb' (hfree z r' b hzx hpz hb)
    · exact h.apart z w r' r'' b hpz hpw hb hb'

lemma remains (h : Sound p) (hx : p.obj x = some r ∨ (p.obj x = none ∧ r = nil true))
    (hr : Remains ⟨p.mem, r⟩ s') :
    Sound ⟨s'.mem, Function.update p.obj x (some s'.self)⟩ := by
  have hold : ∀ z r' b, z ≠ x → p.obj z = some r' → r'.data.block = some b →
      b < p.mem.fresh ∧ r.data.block ≠ some b := by
    intro z r' b hz hr' hb
    refine ⟨(h.shape z r' hr').block_lt h.wf hb, fun hrb => ?_⟩
    rcases hx with hx | ⟨-, rfl⟩
    · exact hz (h.apart z x r' r b hr' hx hb hrb)
    · cases hrb
  refine of_fields hr.wf hr.shape (fun z r' hz hr' => ?_) (fun z r' b hz hr' hb hsb => ?_) h
  · exact (h.shape z r' hr').frame (fun b hb => hr.extent b (hold z r' b hz hr' hb).1
      (hold z r' b hz hr' hb).2)
  · obtain ⟨hlt, hne⟩ := hold z r' b hz hr' hb
    rcases hr.block b hsb with hrb | hge
    · exact hne hrb
    · change p.mem.fresh ≤ b at hge
      omega

lemma remember (h : Sound p) (hr : Remains ⟨p.mem, nil true⟩ s') : Sound ⟨s'.mem, p.obj⟩ :=
  ⟨hr.wf, fun z r' hz => (h.shape z r' hz).frame (fun b hb =>
    hr.extent b ((h.shape z r' hz).block_lt h.wf hb) (fun hnil => nomatch hnil)), h.apart⟩

lemma update (h : Sound p) (hr : Shape p.mem r)
    (hfree : ∀ z r' b, z ≠ x → p.obj z = some r' → r'.data.block = some b →
      r.data.block ≠ some b) : Sound ⟨p.mem, Function.update p.obj x (some r)⟩ :=
  of_fields h.wf hr (fun z r' _ hz => h.shape z r' hz) hfree h

lemma remove (h : Sound p) : Sound ⟨p.mem, Function.update p.obj x none⟩ := by
  have hat : ∀ z r', Function.update p.obj x none z = some r' → p.obj z = some r' := by
    intro z r' hz
    rcases of_update hz with ⟨-, hzr⟩ | ⟨-, hpz⟩
    · cases hzr
    · exact hpz
  exact ⟨h.wf, fun z r' hz => h.shape z r' (hat z r' hz),
    fun z w r' r'' b hz hw => h.apart z w r' r'' b (hat z r' hz) (hat w r'' hw)⟩

lemma transfer (h : Sound p) (hxy : x ≠ y) (hy : p.obj y = some o) (hcap : o.capacity = 0)
    (allow : Bool) :
    Sound ⟨p.mem, Function.update (Function.update p.obj x
      (some { o with allowOverwrite := allow })) y (some o.movedFrom)⟩ := by
  have hleft : o.movedFrom = nil o.allowOverwrite := by
    rw [movedFrom, hcap]
    rfl
  have hempty : Sound ⟨p.mem, Function.update p.obj y (some o.movedFrom)⟩ := by
    refine h.update ?_ (fun z r' b _ _ _ hb => ?_)
    · rw [hleft]
      exact .nil _
    · cases hb
  have htarget := hempty.update (x := x) ((h.shape y o hy).policy allow) ?_
  · rwa [Function.update_comm (Ne.symm hxy)] at htarget
  · intro z r' b hzx hz hb hob
    change Function.update p.obj y (some o.movedFrom) z = some r' at hz
    rcases of_update hz with ⟨-, hzr⟩ | ⟨hzy, hpz⟩
    · cases hzr
      cases hb
    · exact hzy (h.apart z y r' o b hpz hy hb hob)

end Sound

/-! ### The actions -/

lemma assignMove_within {ok : Fault → Prop} {R : State α RingBuffer → Prop} (hdead : ok .dead)
    (h : Shape s.mem s.self) (hw : s.mem.Wf) : (assignMove o).Within ok s
      (fun left s' => left = o.movedFrom ∧ ∃ t, Drops s t ∧ s' = ⟨t.mem,
        { o with capacity := 0, allowOverwrite := s.self.allowOverwrite }⟩) R := by
  refine (cleanup_within hdead h hw).bind (fun _ t ht => Code.Within.step rfl ?_)
  refine Code.Within.step rfl (Code.Within.pure ⟨rfl, t, ht, ?_⟩)
  rw [ht.self]
  rfl

lemma member_sound {β : Type} {m : Method α β} (h : Sound p) (hx : (p.obj x).isSome)
    (hm : ∀ r, p.obj x = some r → m.Within (fun _ => True) ⟨p.mem, r⟩
      (fun _ s' => Remains ⟨p.mem, r⟩ s') (Remains ⟨p.mem, r⟩)) :
    (member x m).Within (fun _ => True) p (fun _ p' => Sound p') Sound := by
  obtain ⟨r, hr⟩ := Option.isSome_iff_exists.mp hx
  refine (member_within hr (hm r hr)).mono ?_ ?_
  · rintro _ _ ⟨s', hs', rfl⟩
    exact h.remains (Or.inl hr) hs'
  · rintro _ ⟨s', hs', rfl⟩
    exact h.remains (Or.inl hr) hs'

lemma moveAssign_sound (h : Sound p) (hx : (p.obj x).isSome) (hy : (p.obj y).isSome)
    (hfrugal : (RingAction.moveAssign x y : RingAction α).Frugal p) :
    ((RingAction.moveAssign x y).code E).Within (fun _ => True) p (fun _ p' => Sound p') Sound := by
  obtain ⟨r, hr⟩ := Option.isSome_iff_exists.mp hx
  obtain ⟨o, ho⟩ := Option.isSome_iff_exists.mp hy
  rw [RingAction.code]
  by_cases hxy : x = y
  · rw [if_pos hxy]
    exact Code.Within.pure h
  rw [if_neg hxy]
  have hcap := hfrugal hxy o ho
  refine Code.Within.step (fields_run ho) (Code.Within.bind ((member_within hr
    (assignMove_within (R := fun _ => False) trivial (h.shape x r hr) h.wf)).mono (fun _ _ h => h)
      (fun _ hf => hf.elim (fun _ hf => hf.1.elim))) ?_)
  rintro _ _ ⟨s', ⟨rfl, t, ht, rfl⟩, rfl⟩
  have hnil := h.remains (Or.inl hr) ht.remains
  have hsound := hnil.transfer hxy (o := o) ?_ hcap r.allowOverwrite
  · simp only [Function.update_idem] at hsound
    refine Code.Within.of_ends (.of_returns ⟨(), _, rfl, ?_⟩)
    rw [hcap] at hsound
    exact hsound
  · change Function.update p.obj x (some t.self) y = some o
    rwa [Function.update_of_ne (Ne.symm hxy)]

/-- Every legal action that leaves no capacity behind keeps the pool sound. -/
lemma code_sound {act : RingAction α} (h : Sound p) (hlegal : act.Legal p)
    (hfrugal : act.Frugal p) :
    (act.code E).Within (fun _ => True) p (fun _ p' => Sound p') Sound := by
  cases act with
  | default x =>
    refine (create_within (m := RingBuffer.construct) (R := fun _ => False)
      (Q := fun _ s' => Remains ⟨p.mem, nil true⟩ s') (Code.Within.of_ends (.of_returns
      ⟨(), _, rfl, Remains.refl (s := ⟨p.mem, nil true⟩) (.nil true) h.wf⟩))).mono ?_ ?_
    · rintro _ _ ⟨s', hs', rfl⟩
      exact h.remains (Or.inr ⟨hlegal, rfl⟩) hs'
    · rintro _ ⟨_, hf, -⟩
      exact hf.elim
  | sized x n =>
    refine (create_within (constructSized_within n h.wf)).mono ?_ ?_
    · rintro _ _ ⟨s', hs', rfl⟩
      exact h.remains (Or.inr ⟨hlegal, rfl⟩) hs'
    · rintro _ ⟨s', hs', rfl⟩
      exact h.remember hs'
  | moveOf x y =>
    obtain ⟨o, ho⟩ := Option.isSome_iff_exists.mp hlegal.2
    have hxy : x ≠ y := by
      rintro rfl
      rw [hlegal.1] at ho
      cases ho
    refine Code.Within.step (fields_run ho) (Code.Within.of_ends (.of_returns ⟨(), _, rfl, ?_⟩))
    exact h.transfer hxy ho (hfrugal o ho) o.allowOverwrite
  | moveAssign x y => exact moveAssign_sound h hlegal.1 hlegal.2 hfrugal
  | pushBack x val =>
    exact member_sound h hlegal (fun r hr => (pushBack_within val trivial (h.shape x r hr) h.wf
      (Or.inl trivial)).mono (fun _ _ hs' => hs'.1) (fun _ hs' => hs'))
  | tryPopFront x =>
    exact (member_sound h hlegal (fun r hr => (tryPopFront_within trivial (h.shape x r hr)
      h.wf).mono (fun _ _ hs' => hs'.1) (fun _ hs' => hs'))).bind
      (fun _ _ hp => Code.Within.pure hp)
  | clear x => exact member_sound h hlegal (fun r hr => clear_within trivial (h.shape x r hr) h.wf)
  | commitRead x n =>
    obtain ⟨r, hr, hn⟩ := hlegal
    refine member_sound h (by rw [hr]; rfl) (fun r' hr' => ?_)
    rw [hr] at hr'
    cases hr'
    exact commitRead_within trivial (h.shape x r hr) h.wf hn (Or.inl trivial)
  | commitWrite x n =>
    obtain ⟨r, hr, hn⟩ := hlegal
    refine member_sound h (by rw [hr]; rfl) (fun r' hr' => ?_)
    rw [hr] at hr'
    cases hr'
    exact commitWrite_within (h.shape x r hr) h.wf hn (Or.inl trivial)
  | reserve x n =>
    exact member_sound h hlegal (fun r hr => reserve_within n trivial (h.shape x r hr) h.wf)
  | shrinkToFit x =>
    exact member_sound h hlegal
      (fun r hr => shrinkToFit_within trivial trivial (h.shape x r hr) h.wf)
  | setOverwrite x allow =>
    obtain ⟨r, hr⟩ := Option.isSome_iff_exists.mp hlegal
    refine (member_within hr (m := RingBuffer.setOverwrite allow) (R := fun _ => False)
      (Q := fun _ s' => s' = ⟨p.mem, { r with allowOverwrite := allow }⟩)
      (Code.Within.of_ends (.of_returns ⟨(), _, rfl, rfl⟩))).mono ?_ ?_
    · rintro _ _ ⟨s', rfl, rfl⟩
      exact h.update ((h.shape x r hr).policy allow)
        (fun z r' b hz hpz hb hrb => hz (h.apart z x r' r b hpz hr hb hrb))
    · rintro _ ⟨_, hf, -⟩
      exact hf.elim
  | destroy x =>
    refine (member_sound h hlegal (fun r hr => (cleanup_within trivial (h.shape x r hr) h.wf).mono
      (fun _ _ hs' => hs'.remains) (fun _ hs' => hs'))).bind (fun _ p' hp' => ?_)
    exact Code.Within.of_ends (.of_returns ⟨(), _, rfl, hp'.remove⟩)

lemma next_sound {l : Option ℕ × RingAction α} (h : Sound p) (hfrugal : l.2.Frugal p)
    (hn : next E p l = some p') : Sound p' := by
  rw [next] at hn
  split_ifs at hn with hlegal
  exact (after_within (code_sound (h.arm l.1) hlegal hfrugal) hn).elim (fun ⟨_, hp⟩ => hp) id

/-- The pools that a program reaches without a move from a buffer that has a capacity, a
self-assignment aside. Such a move leaves two buffers whose fields disagree, and runs that go on
from there are left out. -/
def Reachable (E : Element α) (p : RingPool α) : Prop :=
  ∃ z ls, Machine.Along (next E) (fun p l => l.2.Frugal p) (start z) ls ∧
    Machine.run (next E) (start z) ls = some p

theorem Reachable.sound (h : Reachable E p) : Sound p := by
  obtain ⟨z, ls, hgood, hrun⟩ := h
  exact Machine.run_invariant Sound (fun _ _ _ hp hfrugal hn => next_sound hp hfrugal hn)
    (Sound.start z) hgood hrun

end RingPool

end Voxory
