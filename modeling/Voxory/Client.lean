import Mathlib.Data.List.Basic

/-!
# Clients of a service

A client makes calls and goes on with what is answered to them. A protocol says which calls a
service allows in which of its states, what it may answer and which state that leads to. A client
meets a postcondition if, whatever is answered, it makes allowed calls only and ends in states with
the postcondition; so does every conversation it has.
-/

/-- A program that makes calls, or that is cut off while it still goes on. -/
inductive Client (Call : Type) (Answer : Call → Type) (β : Type) : Type where
  | done (b : β)
  | ask (c : Call) (k : Answer c → Client Call Answer β)
  | cut

namespace Client

variable {Call : Type} {Answer : Call → Type} {β γ S : Type}

def bind : Client Call Answer β → (β → Client Call Answer γ) → Client Call Answer γ
  | .done b, f => f b
  | .ask c k, f => .ask c fun a => (k a).bind f
  | .cut, _ => .cut

instance : Monad (Client Call Answer) where
  pure := .done
  bind := bind

/-- Makes a call and returns the answer. -/
def call (c : Call) : Client Call Answer (Answer c) := .ask c .done

lemma done_bind (b : β) (f : β → Client Call Answer γ) : (.done b >>= f) = f b := rfl

/-- The client has a conversation, and is then where it goes on. -/
inductive Talk : Client Call Answer β → List (Sigma Answer) → Client Call Answer β → Prop
  | nil (p : Client Call Answer β) : Talk p [] p
  | cons {c : Call} {k : Answer c → Client Call Answer β} {a : Answer c} {es : List (Sigma Answer)}
      {p : Client Call Answer β} (rest : Talk (k a) es p) : Talk (.ask c k) (⟨c, a⟩ :: es) p

lemma Talk.bind {p q : Client Call Answer β} {es : List (Sigma Answer)} (h : Talk p es q)
    (f : β → Client Call Answer γ) : Talk (p >>= f) es (q >>= f) := by
  induction h with
  | nil p => exact .nil _
  | cons rest ih => exact .cons ih

lemma Talk.trans {p q r : Client Call Answer β} {es es' : List (Sigma Answer)} (h : Talk p es q)
    (h' : Talk q es' r) : Talk p (es ++ es') r := by
  induction h with
  | nil p => exact h'
  | cons rest ih => exact .cons (ih h')

/-- The state of a service, with what it allows, answers and does. -/
structure Protocol (Call : Type) (Answer : Call → Type) (S : Type) where
  Allows : S → Call → Prop
  Answers : S → (c : Call) → Answer c → Prop
  after : S → (c : Call) → Answer c → S

namespace Protocol

variable (P : Protocol Call Answer S)

/-- The state of the service after a conversation. -/
def run : S → List (Sigma Answer) → S
  | s, [] => s
  | s, e :: es => run (P.after s e.1 e.2) es

/-- The service answers as it may. -/
def Lawful : S → List (Sigma Answer) → Prop
  | _, [] => True
  | s, e :: es => P.Answers s e.1 e.2 ∧ Lawful (P.after s e.1 e.2) es

/-- Every call is made where it is allowed. -/
def Respected : S → List (Sigma Answer) → Prop
  | _, [] => True
  | s, e :: es => P.Allows s e.1 ∧ Respected (P.after s e.1 e.2) es

variable {P}

lemma Respected.allows {s : S} {es es' : List (Sigma Answer)} {e : Sigma Answer}
    (h : P.Respected s (es ++ e :: es')) : P.Allows (P.run s es) e.1 := by
  induction es generalizing s with
  | nil => exact h.1
  | cons e es ih => exact ih h.2

end Protocol

/-- The client makes allowed calls only, and returns results in states as `Q` says. -/
def Meets (P : Protocol Call Answer S) : Client Call Answer β → S → (β → S → Prop) → Prop
  | .done b, s, Q => Q b s
  | .ask c k, s, Q => P.Allows s c ∧ ∀ a, P.Answers s c a → (k a).Meets P (P.after s c a) Q
  | .cut, _, _ => True

namespace Meets

variable {P : Protocol Call Answer S} {p q : Client Call Answer β} {s : S} {Q : β → S → Prop}

lemma done {b : β} (h : Q b s) : (.done b : Client Call Answer β).Meets P s Q := h

lemma ask {c : Call} {k : Answer c → Client Call Answer β} (hallows : P.Allows s c)
    (h : ∀ a, P.Answers s c a → (k a).Meets P (P.after s c a) Q) :
    (.ask c k : Client _ _ _).Meets P s Q :=
  ⟨hallows, h⟩

lemma mono {R : β → S → Prop} (h : p.Meets P s Q) (hQR : ∀ b s', Q b s' → R b s') :
    p.Meets P s R := by
  induction p generalizing s with
  | done b => exact hQR b s h
  | ask c k ih => exact ⟨h.1, fun a ha => ih a (h.2 a ha)⟩
  | cut => trivial

lemma bind {f : β → Client Call Answer γ} {R : γ → S → Prop} (h : p.Meets P s Q)
    (hf : ∀ b s', Q b s' → (f b).Meets P s' R) : (p >>= f).Meets P s R := by
  induction p generalizing s with
  | done b => exact hf b s h
  | ask c k ih => exact ⟨h.1, fun a ha => ih a (h.2 a ha)⟩
  | cut => trivial

lemma call {c : Call} {f : Answer c → Client Call Answer β} (hallows : P.Allows s c)
    (h : ∀ a, P.Answers s c a → (f a).Meets P (P.after s c a) Q) :
    (Client.call c >>= f).Meets P s Q :=
  ⟨hallows, h⟩

/-- A conversation with a service that answers as it may keeps to what the service allows, and the
client goes on as before. -/
theorem talk {es : List (Sigma Answer)} (h : p.Meets P s Q) (htalk : Talk p es q)
    (hlawful : P.Lawful s es) : P.Respected s es ∧ q.Meets P (P.run s es) Q := by
  induction htalk generalizing s with
  | nil p => exact ⟨trivial, h⟩
  | cons rest ih =>
    obtain ⟨hrespected, hq⟩ := ih (h.2 _ hlawful.1) hlawful.2
    exact ⟨⟨h.1, hrespected⟩, hq⟩

end Meets

end Client
