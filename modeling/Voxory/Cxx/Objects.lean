import Voxory.Cxx.Storage

/-!
# A program with many objects

A memory and the objects of one class that live in it, under names. A member function runs on
the memory and the fields of its own object; whatever it throws, the object keeps the fields it
had by then. An object whose constructor throws does not come to exist.
-/

namespace Cxx

structure Objects (α ρ : Type) where
  mem : Memory α
  obj : ℕ → Option ρ

namespace Objects

variable {α ρ β : Type}

/-- No object has been constructed yet. -/
def start (nullOnZero : Bool) : Objects α ρ := ⟨Memory.empty none nullOnZero, fun _ => none⟩

/-- The environment chooses the fallible operation that throws next, if any. -/
def arm (fuse : Option ℕ) (p : Objects α ρ) : Objects α ρ :=
  { p with mem := { p.mem with fuse := fuse } }

def fields (x : ℕ) : Code (Objects α ρ) ρ := fun p =>
  match p.obj x with
  | some a => .returned a p
  | none => .fault .dead

def put (x : ℕ) (a : Option ρ) : Code (Objects α ρ) Unit := fun p =>
  .returned () { p with obj := Function.update p.obj x a }

/-- Calls a member function of the object `x`. -/
def member (x : ℕ) (m : Code (State α ρ) β) : Code (Objects α ρ) β := fun p =>
  match p.obj x with
  | none => .fault .dead
  | some a =>
    match m ⟨p.mem, a⟩ with
    | .returned b s => .returned b ⟨s.mem, Function.update p.obj x (some s.self)⟩
    | .threw s => .threw ⟨s.mem, Function.update p.obj x (some s.self)⟩
    | .terminated => .terminated
    | .fault why => .fault why

/-- Constructs the object `x`, whose fields are `init` before its constructor runs. -/
def create (init : ρ) (x : ℕ) (m : Code (State α ρ) β) : Code (Objects α ρ) β := fun p =>
  match m ⟨p.mem, init⟩ with
  | .returned b s => .returned b ⟨s.mem, Function.update p.obj x (some s.self)⟩
  | .threw s => .threw ⟨s.mem, p.obj⟩
  | .terminated => .terminated
  | .fault why => .fault why

/-- Calls a member function of a temporary with the fields `a`; returns the fields it leaves. -/
def temporary (a : ρ) (m : Code (State α ρ) β) : Code (Objects α ρ) (β × ρ) := fun p =>
  match m ⟨p.mem, a⟩ with
  | .returned b s => .returned (b, s.self) { p with mem := s.mem }
  | .threw s => .threw { p with mem := s.mem }
  | .terminated => .terminated
  | .fault why => .fault why

/-- Where a step of the program leads: an exception is caught and the program goes on. -/
def after (o : Outcome (Objects α ρ) β) : Option (Objects α ρ) :=
  match o with
  | .returned _ p => some p
  | .threw p => some p
  | .terminated => none
  | .fault _ => none

lemma after_discard (m : Code (Objects α ρ) β) (p : Objects α ρ) :
    after ((do
      let _ ← m : Code (Objects α ρ) Unit) p) = after (m p) := by
  rw [Code.bind_run]
  cases m p <;> rfl

variable {p : Objects α ρ} {x : ℕ} {a init : ρ} {m : Code (State α ρ) β}
  {Q : β → State α ρ → Prop} {R : State α ρ → Prop}

lemma fields_run (ha : p.obj x = some a) : fields x p = .returned a p := by
  simp only [fields, ha]

lemma member_run {b : β} {s' : State α ρ} (ha : p.obj x = some a)
    (hm : m ⟨p.mem, a⟩ = .returned b s') :
    member x m p = .returned b ⟨s'.mem, Function.update p.obj x (some s'.self)⟩ := by
  simp only [member, ha, hm]

lemma member_eq_returned {b : β} {p' : Objects α ρ} (ha : p.obj x = some a)
    (hx : member x m p = .returned b p') : ∃ s', m ⟨p.mem, a⟩ = .returned b s' := by
  simp only [member, ha] at hx
  cases hm : m ⟨p.mem, a⟩ <;> rw [hm] at hx <;> cases hx
  exact ⟨_, rfl⟩

lemma temporary_run {b : β} {s' : State α ρ} (hm : m ⟨p.mem, a⟩ = .returned b s') :
    temporary a m p = .returned (b, s'.self) { p with mem := s'.mem } := by
  simp only [temporary, hm]

lemma temporary_eq_returned {r : β × ρ} {q : Objects α ρ} (h : temporary a m p = .returned r q) :
    ∃ s', m ⟨p.mem, a⟩ = .returned r.1 s' ∧ q = { p with mem := s'.mem } := by
  unfold temporary at h
  cases hm : m ⟨p.mem, a⟩ <;> simp only [hm] at h
  · cases h
    exact ⟨_, rfl, rfl⟩
  · cases h
  · cases h
  · cases h

lemma member_ends (ha : p.obj x = some a) (h : m.Ends ⟨p.mem, a⟩ Q R) : (member x m).Ends p
    (fun b p' => ∃ s', Q b s' ∧ p' = ⟨s'.mem, Function.update p.obj x (some s'.self)⟩)
    (fun p' => ∃ s', R s' ∧ p' = ⟨s'.mem, Function.update p.obj x (some s'.self)⟩) := by
  rw [Code.Ends] at h
  simp only [Code.Ends, member, ha]
  cases hm : m ⟨p.mem, a⟩ <;> rw [hm] at h
  · exact ⟨_, h, rfl⟩
  · exact ⟨_, h, rfl⟩
  · exact h.elim (fun s' hs' => ⟨_, s', hs', rfl⟩)
  · exact h

lemma member_returns (ha : p.obj x = some a) (h : m.Returns ⟨p.mem, a⟩ Q) : ∃ b s', Q b s' ∧
    member x m p = .returned b ⟨s'.mem, Function.update p.obj x (some s'.self)⟩ := by
  obtain ⟨b, s', hm, hQ⟩ := h
  exact ⟨b, s', hQ, member_run ha hm⟩

lemma member_after (ha : p.obj x = some a) (h : m.Ends ⟨p.mem, a⟩ Q R) (hmild : m.Mild) :
    ∃ s', after (member x m p) = some ⟨s'.mem, Function.update p.obj x (some s'.self)⟩ ∧
      ((∃ b, Q b s') ∨ R s') := by
  rw [Code.Ends] at h
  simp only [member, ha]
  cases hm : m ⟨p.mem, a⟩ <;> rw [hm] at h
  · exact ⟨_, rfl, Or.inl ⟨_, h⟩⟩
  · exact ⟨_, rfl, Or.inr h⟩
  · exact absurd hm (hmild _)
  · exact h.elim

lemma create_ends (h : m.Ends ⟨p.mem, init⟩ Q R) : (create init x m).Ends p
    (fun b p' => ∃ s', Q b s' ∧ p' = ⟨s'.mem, Function.update p.obj x (some s'.self)⟩)
    (fun p' => ∃ s', R s' ∧ p' = ⟨s'.mem, p.obj⟩) := by
  rw [Code.Ends] at h
  simp only [Code.Ends, create]
  cases hm : m ⟨p.mem, init⟩ <;> rw [hm] at h
  · exact ⟨_, h, rfl⟩
  · exact ⟨_, h, rfl⟩
  · exact h.elim (fun s' hs' => ⟨_, s', hs', rfl⟩)
  · exact h

variable {ok : Fault → Prop}

lemma member_within (ha : p.obj x = some a) (h : m.Within ok ⟨p.mem, a⟩ Q R) :
    (member x m).Within ok p
      (fun b p' => ∃ s', Q b s' ∧ p' = ⟨s'.mem, Function.update p.obj x (some s'.self)⟩)
      (fun p' => ∃ s', R s' ∧ p' = ⟨s'.mem, Function.update p.obj x (some s'.self)⟩) := by
  rw [Code.Within] at h
  simp only [Code.Within, member, ha]
  cases hm : m ⟨p.mem, a⟩ <;> rw [hm] at h
  · exact ⟨_, h, rfl⟩
  · exact ⟨_, h, rfl⟩
  · trivial
  · exact h

lemma create_within (h : m.Within ok ⟨p.mem, init⟩ Q R) : (create init x m).Within ok p
    (fun b p' => ∃ s', Q b s' ∧ p' = ⟨s'.mem, Function.update p.obj x (some s'.self)⟩)
    (fun p' => ∃ s', R s' ∧ p' = ⟨s'.mem, p.obj⟩) := by
  rw [Code.Within] at h
  simp only [Code.Within, create]
  cases hm : m ⟨p.mem, init⟩ <;> rw [hm] at h
  · exact ⟨_, h, rfl⟩
  · exact ⟨_, h, rfl⟩
  · trivial
  · exact h

lemma after_within {x : Code (Objects α ρ) β} {Q : β → Objects α ρ → Prop}
    {R : Objects α ρ → Prop} {p' : Objects α ρ} (h : x.Within ok p Q R)
    (hp : after (x p) = some p') : (∃ b, Q b p') ∨ R p' := by
  rw [Code.Within] at h
  cases hx : x p <;> rw [hx] at h hp
  · cases hp
    exact Or.inl ⟨_, h⟩
  · cases hp
    exact Or.inr h
  · cases hp
  · cases hp

lemma after_ends {x : Code (Objects α ρ) β} {Q : β → Objects α ρ → Prop}
    {R : Objects α ρ → Prop} {p' : Objects α ρ} (h : x.Ends p Q R) (hp : after (x p) = some p') :
    (∃ b, Q b p') ∨ R p' := by
  rw [Code.Ends] at h
  cases hx : x p <;> rw [hx] at h hp
  · cases hp
    exact Or.inl ⟨_, h⟩
  · cases hp
    exact Or.inr h
  · cases hp
  · exact h.elim

lemma fields_nothrow : (fields x : Code (Objects α ρ) ρ).Nothrow := by
  intro p p' h
  rw [fields] at h
  cases hx : p.obj x <;> rw [hx] at h <;> cases h

lemma put_nothrow (a : Option ρ) : (put x a : Code (Objects α ρ) Unit).Nothrow :=
  fun _ _ h => by cases h

lemma member_nothrow (h : m.Nothrow) : (member x m).Nothrow := by
  intro p p' hx
  rw [member] at hx
  cases ha : p.obj x with
  | none =>
    rw [ha] at hx
    cases hx
  | some a =>
    simp only [ha] at hx
    cases hm : m ⟨p.mem, a⟩ with
    | threw s => exact h _ s hm
    | returned | terminated | fault =>
      simp only [hm] at hx
      cases hx

lemma create_nothrow (h : m.Nothrow) : (create init x m).Nothrow := by
  intro p p' hx
  rw [create] at hx
  cases hm : m ⟨p.mem, init⟩ with
  | threw s => exact h _ s hm
  | returned | terminated | fault =>
    simp only [hm] at hx
    cases hx

end Objects

end Cxx
