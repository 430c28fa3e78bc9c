import Voxory.DebugIterators.Threads

/-!
# What threads rely on

Which thread has taken which lock is bookkeeping. While no thread has taken the lock of a container,
its list is exact; the thread that has taken it knows how the list differs. An iterator that a thread
has in its hands is changed by another one in one way only: under the lock of its container it may
lose its node.
-/

namespace Voxory
open Cxx Chain Machine

namespace Registry

open Objects ListPool LinkedList

/-- The nodes of the lists, the threads that have taken the locks, and the locks that an exception
has left held. -/
structure Book (n : ℕ) where
  nodes : Reference ℕ
  owner : ℕ → Option (Fin n)
  lost : Set ℕ

/-- These are the nodes of the iterators registered with `c`. -/
def Exactly (its : ℕ → Option Iterator) (c : ℕ) (xs : List (Ptr × ℕ)) : Prop :=
  ∀ q x, (q, x) ∈ xs ↔ Registered its c q x

/-- What holds of the shared state whoever has the turn. -/
structure InOrder {n : ℕ} (g : Book n) (r : Registry) : Prop where
  sound : Sound r.lists g.nodes
  homed : ∀ c q x, Registered r.iterators c q x → (g.nodes.nodes c).isSome
  held : ∀ c, r.held c = true ↔ g.owner c ≠ none ∨ c ∈ g.lost
  whole : ∀ c ∈ g.lost, g.owner c = none
  exact : ∀ c xs, g.owner c = none → g.nodes.nodes c = some xs → Exactly r.iterators c xs

section Views

variable (a : Reference ℕ) (its : ℕ → Option Iterator)

/-- The iterator `x` exists and has no node. -/
def Unregistered (x : ℕ) : Prop := ∃ it, its x = some it ∧ it.proxy = .null

/-- The iterator `x` exists, and so does its container. -/
def Housed (x : ℕ) : Prop := ∃ it, its x = some it ∧ (a.nodes it.container).isSome

def After.Hands : After → Prop
  | .nothing | .endLife => True
  | .copy o => Housed a its o

def Errand.Hands (c : ℕ) : Errand → Prop
  | .release x k => (∃ it, its x = some it ∧ it.container = c) ∧ k.Hands a its
  | .register x _ => ∃ ptr, its x = some ⟨c, .null, ptr⟩
  | .releaseProxy | .invalidateRange _ _ => True

/-- What a thread knows of the iterators in its hands. -/
def Point.Hands : Point → Prop
  | .idle | .drop _ _ | .sweep _ _ _ _ | .above _ _ _ _ _ | .strike _ _ _ _ _
  | .erase _ _ _ _ _ | .leave _ none => True
  | .check x k => (its x).isSome ∧ k.Hands a its
  | .spin c e | .enter c e => (a.nodes c).isSome ∧ e.Hands a its c
  | .pop c x k | .forget c x k =>
    (∃ it, its x = some it ∧ it.container = c ∧ it.proxy ≠ .null) ∧ k.Hands a its
  | .remember c x q => q ≠ .null ∧ ∃ ptr, its x = some ⟨c, .null, ptr⟩
  | .leave _ (some (x, k)) => Unregistered its x ∧ k.Hands a its
  | .endLife x => Unregistered its x
  | .adopt x o => Unregistered its x ∧ Housed a its o

/-- How the list `xs` of the container whose lock a thread has taken differs from an exact one. -/
def Point.Finds (xs : List (Ptr × ℕ)) : Point → Prop
  | .idle | .check _ _ | .spin _ _ | .endLife _ | .adopt _ _ => True
  | .enter c _ | .pop c _ _ | .leave c _ => Exactly its c xs
  | .forget c x _ => ∀ q y, (q, y) ∈ xs ↔ Registered its c q y ∧ y ≠ x
  | .remember c x q => ∃ ys, xs = ys ++ [(q, x)] ∧ Exactly its c ys
  | .drop c cur => ∃ ys zs, xs = ys ++ zs ∧ cur = front zs .null ∧ Exactly its c zs
  | .sweep c _ _ cur => Exactly its c xs ∧ ∃ ys zs, xs = ys ++ zs ∧ cur = front zs .null
  | .above c _ _ cur next | .strike c _ _ cur next =>
    Exactly its c xs ∧ ∃ ys x zs, xs = ys ++ (cur, x) :: zs ∧ next = front zs .null
  | .erase c _ _ cur next =>
    ∃ ys x zs, xs = ys ++ (cur, x) :: zs ∧ next = front zs .null ∧ Exactly its c (ys ++ zs)

end Views

/-- What holds for a thread at a point. -/
structure Fits {n : ℕ} (g : Book n) (r : Registry) (t : Fin n) (p : Point) : Prop where
  owner : ∀ c, g.owner c = some t ↔ p.inside = some c
  hands : p.Hands g.nodes r.iterators
  finds : ∀ c, p.inside = some c → ∃ xs, g.nodes.nodes c = some xs ∧ p.Finds r.iterators xs

/-- What a turn of the thread `t` leaves to the others, when it has the iterators `mine` in its
hands. -/
structure Spares {n : ℕ} (g : Book n) (r : Registry) (t : Fin n) (mine : List ℕ) (g' : Book n)
    (r' : Registry) : Prop where
  owner : ∀ c t', t' ≠ t → (g'.owner c = some t' ↔ g.owner c = some t')
  homes : ∀ c, (g.nodes.nodes c).isSome → (g'.nodes.nodes c).isSome
  lists : ∀ c t', t' ≠ t → g.owner c = some t' → g'.nodes.nodes c = g.nodes.nodes c ∧
    ∀ q x, Registered r'.iterators c q x ↔ Registered r.iterators c q x
  iterators : ∀ x it, r.iterators x = some it → x ∉ mine →
    ∃ it', r'.iterators x = some it' ∧ it'.container = it.container ∧
      (it'.proxy = it.proxy ∨ it'.proxy = .null ∧ g.owner it.container = some t)

variable {n : ℕ} {g g' : Book n} {r r' : Registry} {t t' : Fin n} {p p' : Point} {mine : List ℕ}
  {a a' : Reference ℕ} {its its' : ℕ → Option Iterator} {c x o : ℕ} {q : Ptr}
  {xs ys zs : List (Ptr × ℕ)} {it : Iterator} {k : After} {e : Errand}

/-- The discipline of the registry. -/
def discipline (n : ℕ) : Crowd.Discipline (Fin n) Registry Point (Book n) where
  Inv := InOrder
  Fits := Fits
  Apart p p' := ∀ x ∈ p.uses, x ∉ p'.uses

/-! ### What others do is seen by no thread -/

lemma Exactly.congr (h : Exactly its c xs)
    (hreg : ∀ q x, Registered its' c q x ↔ Registered its c q x) : Exactly its' c xs :=
  fun q x => (h q x).trans (hreg q x).symm

lemma Point.Finds.congr (hp : p.inside = some c) (h : p.Finds its xs)
    (hreg : ∀ q x, Registered its' c q x ↔ Registered its c q x) : p.Finds its' xs := by
  cases p with
  | idle | check | spin | endLife | adopt => trivial
  | enter | pop | leave =>
    cases hp
    exact h.congr hreg
  | forget =>
    cases hp
    exact fun q y => (h q y).trans (and_congr_left' (hreg q y).symm)
  | remember =>
    cases hp
    obtain ⟨ys, hxs, hys⟩ := h
    exact ⟨ys, hxs, hys.congr hreg⟩
  | drop =>
    cases hp
    obtain ⟨ys, zs, hxs, hcur, hzs⟩ := h
    exact ⟨ys, zs, hxs, hcur, hzs.congr hreg⟩
  | sweep | above | strike =>
    cases hp
    exact ⟨h.1.congr hreg, h.2⟩
  | erase =>
    cases hp
    obtain ⟨ys, x, zs, hxs, hnext, hys⟩ := h
    exact ⟨ys, x, zs, hxs, hnext, hys.congr hreg⟩

lemma Housed.mono (h : Housed a its x)
    (hhomes : ∀ c, (a.nodes c).isSome → (a'.nodes c).isSome)
    (hits : ∀ it, its x = some it → ∃ it', its' x = some it' ∧ it'.container = it.container) :
    Housed a' its' x := by
  obtain ⟨it, hit, hc⟩ := h
  obtain ⟨it', hit', hcontainer⟩ := hits it hit
  exact ⟨it', hit', by rw [hcontainer]; exact hhomes _ hc⟩

lemma After.Hands.mono (h : k.Hands a its)
    (hhomes : ∀ c, (a.nodes c).isSome → (a'.nodes c).isSome)
    (hits : ∀ x ∈ k.uses, ∀ it, its x = some it →
      ∃ it', its' x = some it' ∧ it'.container = it.container) : k.Hands a' its' := by
  cases k with
  | nothing | endLife => trivial
  | copy o => exact Housed.mono h hhomes (hits o List.mem_cons_self)

lemma isSome_nodes {gone : List Ptr} {c' : ℕ} (hc' : (a.nodes c').isSome) :
    ((a.update c (some xs) gone).nodes c').isSome := by
  change (Function.update a.nodes c _ c').isSome
  by_cases hcc : c' = c
  · rw [hcc, Function.update_self]
    rfl
  · rwa [Function.update_of_ne hcc]

namespace Spares

lemma refl (g : Book n) (r : Registry) (t : Fin n) (mine : List ℕ) : Spares g r t mine g r :=
  ⟨fun _ _ _ => Iff.rfl, fun _ h => h, fun _ _ _ _ => ⟨rfl, fun _ _ => Iff.rfl⟩,
    fun _ it hit _ => ⟨it, hit, rfl, Or.inl rfl⟩⟩

lemma unregistered (h : Spares g r t mine g' r') (hx : x ∉ mine)
    (hr : Unregistered r.iterators x) : Unregistered r'.iterators x := by
  obtain ⟨it, hit, hproxy⟩ := hr
  obtain ⟨it', hit', -, hor⟩ := h.iterators x it hit hx
  exact ⟨it', hit', hor.elim (fun heq => heq.trans hproxy) And.left⟩

lemma housed (h : Spares g r t mine g' r') (hx : x ∉ mine) (hr : Housed g.nodes r.iterators x) :
    Housed g'.nodes r'.iterators x :=
  hr.mono h.homes (fun it hit =>
    (h.iterators x it hit hx).imp (fun _ hit' => ⟨hit'.1, hit'.2.1⟩))

lemma after (h : Spares g r t mine g' r') (hk : ∀ x ∈ k.uses, x ∉ mine)
    (hr : k.Hands g.nodes r.iterators) : k.Hands g'.nodes r'.iterators :=
  hr.mono h.homes (fun x hx it hit =>
    (h.iterators x it hit (hk x hx)).imp (fun _ hit' => ⟨hit'.1, hit'.2.1⟩))

lemma fresh (h : Spares g r t mine g' r') (hx : x ∉ mine)
    (hr : ∃ ptr, r.iterators x = some ⟨c, .null, ptr⟩) :
    ∃ ptr, r'.iterators x = some ⟨c, .null, ptr⟩ := by
  obtain ⟨ptr, hit⟩ := hr
  obtain ⟨it', hit', hcontainer, hor⟩ := h.iterators x _ hit hx
  have hproxy : it'.proxy = .null := hor.elim id And.left
  have hit : it' = ⟨c, .null, it'.ptr⟩ := by rw [← hproxy, ← show it'.container = c from hcontainer]
  exact ⟨it'.ptr, by rw [hit', ← hit]⟩

lemma errand (h : Spares g r t mine g' r') (he : ∀ x ∈ e.uses, x ∉ mine)
    (hr : e.Hands g.nodes r.iterators c) : e.Hands g'.nodes r'.iterators c := by
  cases e with
  | releaseProxy | invalidateRange => trivial
  | register x who => exact h.fresh (he x List.mem_cons_self) hr
  | release x k =>
    obtain ⟨⟨it, hit, hc⟩, hk⟩ := hr
    obtain ⟨it', hit', hcontainer, -⟩ := h.iterators x it hit (he x List.mem_cons_self)
    exact ⟨⟨it', hit', hcontainer.trans hc⟩,
      h.after (fun y hy => he y (List.mem_cons_of_mem _ hy)) hk⟩

/-- An iterator that is registered stays so while the lock of its container is another thread's. -/
lemma registered (h : Spares g r t mine g' r') (hx : x ∉ mine) (hc : g.owner c = some t')
    (htt : t' ≠ t) (hr : ∃ it, r.iterators x = some it ∧ it.container = c ∧ it.proxy ≠ .null) :
    ∃ it, r'.iterators x = some it ∧ it.container = c ∧ it.proxy ≠ .null := by
  obtain ⟨it, hit, rfl, hproxy⟩ := hr
  obtain ⟨it', hit', hcontainer, hor⟩ := h.iterators x it hit hx
  refine ⟨it', hit', hcontainer, ?_⟩
  rcases hor with heq | ⟨-, howner⟩
  · rwa [heq]
  · rw [hc] at howner
    exact absurd (Option.some.inj howner) htt

end Spares

/-- Where a thread is, it can stay while another one has its turn. -/
lemma Fits.spared (h : Fits g r t' p) (hs : Spares g r t mine g' r') (htt : t' ≠ t)
    (hmine : ∀ x ∈ p.uses, x ∉ mine) : Fits g' r' t' p where
  owner c := (hs.owner c t' htt).trans (h.owner c)
  hands := by
    have hhands := h.hands
    cases p with
    | idle | drop | sweep | above | strike | erase => trivial
    | check x k =>
      obtain ⟨hx, hk⟩ := hhands
      obtain ⟨it, hit⟩ := Option.isSome_iff_exists.mp hx
      obtain ⟨it', hit', -⟩ := hs.iterators x it hit (hmine x List.mem_cons_self)
      exact ⟨by rw [hit']; rfl, hs.after (fun y hy => hmine y (List.mem_cons_of_mem _ hy)) hk⟩
    | spin c e => exact ⟨hs.homes c hhands.1, hs.errand hmine hhands.2⟩
    | enter c e => exact ⟨hs.homes c hhands.1, hs.errand hmine hhands.2⟩
    | pop c x k | forget c x k =>
      exact ⟨hs.registered (hmine x List.mem_cons_self) ((h.owner c).mpr rfl) htt hhands.1,
        hs.after (fun y hy => hmine y (List.mem_cons_of_mem _ hy)) hhands.2⟩
    | remember c x q => exact ⟨hhands.1, hs.fresh (hmine x List.mem_cons_self) hhands.2⟩
    | leave c released =>
      cases released with
      | none => trivial
      | some what =>
        exact ⟨hs.unregistered (hmine _ List.mem_cons_self) hhands.1,
          hs.after (fun y hy => hmine y (List.mem_cons_of_mem _ hy)) hhands.2⟩
    | endLife x => exact hs.unregistered (hmine x List.mem_cons_self) hhands
    | adopt x o =>
      exact ⟨hs.unregistered (hmine x List.mem_cons_self) hhands.1,
        hs.housed (hmine o (by simp [Point.uses])) hhands.2⟩
  finds c hc := by
    obtain ⟨xs, hxs, hfinds⟩ := h.finds c hc
    obtain ⟨hnodes, hreg⟩ := hs.lists c t' htt ((h.owner c).mpr hc)
    exact ⟨xs, by rw [hnodes, hxs], hfinds.congr hc hreg⟩

end Registry

end Voxory
