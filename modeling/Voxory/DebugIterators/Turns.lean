import Voxory.DebugIterators.Interference

/-!
# A turn keeps the registry in order

Every step of a thread is one of three kinds: it looks at its own iterators, it takes or gives back
a lock, or it changes a list and iterators under a lock.
-/

namespace Voxory
open Cxx Chain Machine

namespace Registry

open Objects ListPool LinkedList

variable {n : ℕ} {g g' : Book n} {r r' : Registry} {t t' : Fin n} {p p' : Point} {mine : List ℕ}
  {a a' : Reference ℕ} {its' : ℕ → Option Iterator} {c x o : ℕ} {q cur next : Ptr}
  {xs xs' ys zs gone : List (Ptr × ℕ)} {it : Iterator} {entry : Option Iterator} {k : After}
  {e : Errand}

/-- A turn of the thread `t` from the registry `r`, with the iterators `mine` in its hands, may lead
to `r'` and the point `p'`. -/
structure Kept (g : Book n) (r : Registry) (t : Fin n) (mine : List ℕ) (g' : Book n) (p' : Point)
    (r' : Registry) : Prop where
  inv : InOrder g' r'
  fits : Fits g' r' t p'
  spares : Spares g r t mine g' r'
  uses : ∀ x ∈ p'.uses, x ∈ mine

lemma InOrder.arm (h : InOrder g r) (k : Option ℕ) : InOrder g (r.arm k) :=
  ⟨h.sound.arm k, h.homed, h.held, h.whole, h.exact⟩

lemma Fits.nodes (h : Fits g r t p) (hc : p.inside = some c) :
    ∃ xs, g.nodes.nodes c = some xs :=
  (h.finds c hc).imp (fun _ h => h.1)

/-! ### Who is registered after a change of iterators -/

/-- The iterator `x` is none that is registered elsewhere than with `c`. -/
def Local (its : ℕ → Option Iterator) (c x : ℕ) : Prop :=
  ∀ it, its x = some it → it.container = c ∨ it.proxy = .null

lemma Local.of_loose {its : ℕ → Option Iterator} (h : Loose (its x)) : Local its c x :=
  fun it hit => Or.inr (h it hit)

lemma registered_elsewhere {its : ℕ → Option Iterator} {c' : ℕ} (hx : Local its c x)
    (hentry : ∀ it, entry = some it → it.container = c ∨ it.proxy = .null) (hc : c' ≠ c) (q : Ptr)
    (y : ℕ) : Registered (Function.update its x entry) c' q y ↔ Registered its c' q y := by
  by_cases hyx : y = x
  · rw [hyx]
    refine iff_of_false ?_ ?_
    · rintro ⟨hq, it, hit, hcontainer, hproxy⟩
      rw [Function.update_self] at hit
      rcases hentry it hit with hit' | hit'
      · exact hc (hcontainer.symm.trans hit')
      · exact hq (hproxy.symm.trans hit')
    · rintro ⟨hq, it, hit, hcontainer, hproxy⟩
      rcases hx it hit with hit' | hit'
      · exact hc (hcontainer.symm.trans hit')
      · exact hq (hproxy.symm.trans hit')
  · exact registered_update hyx

lemma registered_loose {its : ℕ → Option Iterator} {c' : ℕ} (hx : Loose (its x))
    (hentry : Loose entry) (q : Ptr) (y : ℕ) :
    Registered (Function.update its x entry) c' q y ↔ Registered its c' q y := by
  by_cases hyx : y = x
  · rw [hyx]
    exact iff_of_false (not_registered (by rwa [Function.update_self])) (not_registered hx)
  · exact registered_update hyx

/-! ### Turns that change no list -/

lemma Kept.same (hinv : InOrder g r) (hfits : Fits g r t p') (huses : ∀ x ∈ p'.uses, x ∈ mine) :
    Kept g r t mine g p' r :=
  ⟨hinv, hfits, .refl g r t mine, huses⟩

lemma Kept.own (hinv : InOrder g r) (hfits : Fits g r t p) (hout : p.inside = none)
    (hout' : p'.inside = none)
    (hreg : ∀ c q y, Registered (Function.update r.iterators x entry) c q y ↔
      Registered r.iterators c q y) (hmine : r.iterators x ≠ none → x ∈ mine)
    (hhands : p'.Hands g.nodes (Function.update r.iterators x entry))
    (huses : ∀ y ∈ p'.uses, y ∈ mine) :
    Kept g r t mine g p' { r with iterators := Function.update r.iterators x entry } := by
  refine ⟨⟨hinv.sound, fun c q y hy => hinv.homed c q y ((hreg c q y).mp hy), hinv.held, hinv.whole,
    fun c xs hc hxs => (hinv.exact c xs hc hxs).congr (hreg c)⟩, ⟨fun c => ?_, hhands, ?_⟩,
    ⟨fun _ _ _ => Iff.rfl, fun _ h => h, fun c _ _ _ => ⟨rfl, hreg c⟩, ?_⟩, huses⟩
  · rw [hfits.owner, hout, hout']
  · intro c hc
    rw [hout'] at hc
    cases hc
  · intro y it hit hy
    have hyx : y ≠ x := fun hyx => hy (by
      rw [hyx] at hit ⊢
      exact hmine (by rw [hit]; simp))
    exact ⟨it, (Function.update_of_ne hyx _ _).trans hit, rfl, Or.inl rfl⟩

/-! ### Locks -/

lemma Kept.taken (hinv : InOrder g r) (hfits : Fits g r t (.spin c e)) (hfree : r.held c = false) :
    Kept g r t e.uses ⟨g.nodes, Function.update g.owner c (some t), g.lost⟩ (.enter c e)
      { r with held := Function.update r.held c true } := by
  have hfree : ¬(g.owner c ≠ none ∨ c ∈ g.lost) := by
    rw [← hinv.held, hfree]
    exact Bool.false_ne_true
  obtain ⟨hnone, hlost⟩ := not_or.mp hfree
  rw [ne_eq, not_not] at hnone
  refine ⟨⟨hinv.sound, hinv.homed, fun c' => ?_, fun c' hc' => ?_, fun c' xs hc' hxs => ?_⟩,
    ⟨fun c' => ?_, hfits.hands, fun c' hc' => ?_⟩,
    ⟨fun c' t' htt => ?_, fun _ h => h, fun _ _ _ _ => ⟨rfl, fun _ _ => Iff.rfl⟩,
      fun _ it hit _ => ⟨it, hit, rfl, Or.inl rfl⟩⟩, fun _ hx => hx⟩
  · change Function.update r.held c true c' = true ↔
      Function.update g.owner c (some t) c' ≠ none ∨ c' ∈ g.lost
    by_cases hcc : c' = c
    · rw [hcc, Function.update_self, Function.update_self]
      exact iff_of_true rfl (Or.inl (Option.some_ne_none t))
    · rw [Function.update_of_ne hcc, Function.update_of_ne hcc]
      exact hinv.held c'
  · have hcc : c' ≠ c := fun hcc => hlost (by rwa [hcc] at hc')
    exact (Function.update_of_ne hcc _ _).trans (hinv.whole c' hc')
  · change Function.update g.owner c (some t) c' = none at hc'
    by_cases hcc : c' = c
    · rw [hcc, Function.update_self] at hc'
      cases hc'
    · rw [Function.update_of_ne hcc] at hc'
      exact hinv.exact c' xs hc' hxs
  · change Function.update g.owner c (some t) c' = some t ↔ some c = some c'
    by_cases hcc : c' = c
    · rw [hcc, Function.update_self]
      exact iff_of_true rfl rfl
    · rw [Function.update_of_ne hcc, hfits.owner]
      exact iff_of_false (Option.some_ne_none c').symm (fun h => hcc (Option.some.inj h).symm)
  · cases hc'
    obtain ⟨xs, hxs⟩ := Option.isSome_iff_exists.mp hfits.hands.1
    exact ⟨xs, hxs, hinv.exact c xs hnone hxs⟩
  · change Function.update g.owner c (some t) c' = some t' ↔ g.owner c' = some t'
    by_cases hcc : c' = c
    · rw [hcc, Function.update_self, hnone]
      exact iff_of_false (fun h => htt (Option.some.inj h).symm) (Option.some_ne_none t').symm
    · rw [Function.update_of_ne hcc]

/-- The thread has left the list of `c` as it found it and goes on outside; the lock is given back,
or it is lost. -/
lemma Kept.left {lists : ListPool ℕ} {held : ℕ → Bool} {lost : Set ℕ} (hinv : InOrder g r)
    (hfits : Fits g r t p) (hin : p.inside = some c) (hout' : p'.inside = none)
    (hs : Sound lists g.nodes)
    (hexact : ∀ xs, g.nodes.nodes c = some xs → Exactly r.iterators c xs)
    (hheld : ∀ c', c' ≠ c → held c' = r.held c') (hlost : ∀ c', c' ≠ c → (c' ∈ lost ↔ c' ∈ g.lost))
    (hc : held c = true ↔ c ∈ lost)
    (hreg : ∀ c q y, Registered its' c q y ↔ Registered r.iterators c q y)
    (hits : ∀ y it, r.iterators y = some it → y ∉ mine → its' y = some it)
    (hhands : p'.Hands g.nodes its') (huses : ∀ y ∈ p'.uses, y ∈ mine) :
    Kept g r t mine ⟨g.nodes, Function.update g.owner c none, lost⟩ p' ⟨lists, held, its'⟩ := by
  have hown : ∀ c', g.owner c' = some t ↔ c' = c := by
    intro c'
    rw [hfits.owner, hin]
    exact ⟨fun h => (Option.some.inj h).symm, fun h => by rw [h]⟩
  refine ⟨⟨hs, fun c' q y hy => hinv.homed c' q y ((hreg c' q y).mp hy), fun c' => ?_,
    fun c' hc' => ?_, fun c' xs hc' hxs => ?_⟩, ⟨fun c' => ?_, hhands, fun c' hc' => ?_⟩,
    ⟨fun c' t' htt => ?_, fun _ h => h, fun c' _ _ _ => ⟨rfl, hreg c'⟩,
      fun y it hit hy => ⟨it, hits y it hit hy, rfl, Or.inl rfl⟩⟩, huses⟩
  · change held c' = true ↔ Function.update g.owner c none c' ≠ none ∨ c' ∈ lost
    by_cases hcc : c' = c
    · rw [hcc, Function.update_self, hc]
      exact (or_iff_right (fun h => h rfl)).symm
    · rw [Function.update_of_ne hcc, hheld c' hcc, hlost c' hcc]
      exact hinv.held c'
  · change Function.update g.owner c none c' = none
    by_cases hcc : c' = c
    · rw [hcc, Function.update_self]
    · rw [Function.update_of_ne hcc]
      exact hinv.whole c' ((hlost c' hcc).mp hc')
  · change Function.update g.owner c none c' = none at hc'
    refine Exactly.congr ?_ (hreg c')
    by_cases hcc : c' = c
    · rw [hcc] at hxs ⊢
      exact hexact xs hxs
    · rw [Function.update_of_ne hcc] at hc'
      exact hinv.exact c' xs hc' hxs
  · rw [hout']
    change Function.update g.owner c none c' = some t ↔ none = some c'
    by_cases hcc : c' = c
    · rw [hcc, Function.update_self]
      exact iff_of_false (Option.some_ne_none t).symm (Option.some_ne_none c).symm
    · rw [Function.update_of_ne hcc, hown]
      exact iff_of_false hcc (Option.some_ne_none c').symm
  · rw [hout'] at hc'
    cases hc'
  · change Function.update g.owner c none c' = some t' ↔ g.owner c' = some t'
    by_cases hcc : c' = c
    · rw [hcc, Function.update_self, (hown c).mpr rfl]
      exact iff_of_false (Option.some_ne_none t').symm (fun h => htt (Option.some.inj h).symm)
    · rw [Function.update_of_ne hcc]

/-! ### Under a lock -/

/-- The thread whose lock it is changes the list of `c`, and iterators of `c`. -/
lemma Kept.inside {lists : ListPool ℕ} {gone : List Ptr} (hinv : InOrder g r) (hfits : Fits g r t p)
    (hin : p.inside = some c) (hin' : p'.inside = some c)
    (hs : Sound lists (g.nodes.update c (some xs') gone))
    (hreg : ∀ c', c' ≠ c → ∀ q y, Registered its' c' q y ↔ Registered r.iterators c' q y)
    (hits : ∀ y it, r.iterators y = some it → y ∉ mine → ∃ it', its' y = some it' ∧
      it'.container = it.container ∧ (it'.proxy = it.proxy ∨ it'.proxy = .null ∧ it.container = c))
    (hhands : p'.Hands (g.nodes.update c (some xs') gone) its')
    (hfinds : p'.Finds its' xs') (huses : ∀ y ∈ p'.uses, y ∈ mine) :
    Kept g r t mine ⟨g.nodes.update c (some xs') gone, g.owner, g.lost⟩ p'
      ⟨lists, r.held, its'⟩ := by
  have hown : g.owner c = some t := (hfits.owner c).mpr hin
  refine ⟨⟨hs, fun c' q y hy => ?_, hinv.held, hinv.whole, ?_⟩,
    ⟨fun c' => by rw [hin', ← hin]; exact hfits.owner c', hhands, ?_⟩,
    ⟨fun _ _ _ => Iff.rfl, fun _ hc' => isSome_nodes hc', ?_, ?_⟩, huses⟩
  · by_cases hcc : c' = c
    · rw [hcc]
      change (Function.update g.nodes.nodes c _ c).isSome
      rw [Function.update_self]
      rfl
    · exact isSome_nodes (hinv.homed c' q y ((hreg c' hcc q y).mp hy))
  · intro c' ws hc' hws
    have hcc : c' ≠ c := fun hcc => by
      rw [hcc] at hc'
      exact absurd (hown.symm.trans hc') (Option.some_ne_none t)
    rcases Sound.of_update hws with ⟨heq, -⟩ | ⟨-, hws⟩
    · exact absurd heq hcc
    · exact (hinv.exact c' ws hc' hws).congr (hreg c' hcc)
  · intro c' hc'
    rw [hin'] at hc'
    cases hc'
    exact ⟨xs', Function.update_self _ _ _, hfinds⟩
  · intro c' t' htt hc'
    have hcc : c' ≠ c := fun hcc => by
      rw [hcc, hown] at hc'
      exact htt (Option.some.inj hc').symm
    exact ⟨Function.update_of_ne hcc _ _, hreg c' hcc⟩
  · intro y it hit hy
    obtain ⟨it', hit', hcontainer, hor⟩ := hits y it hit hy
    refine ⟨it', hit', hcontainer, hor.imp_right (fun h => ⟨h.1, ?_⟩)⟩
    rw [h.2, hown]

lemma Kept.under (hinv : InOrder g r) (hfits : Fits g r t p) (hin : p.inside = some c)
    (hin' : p'.inside = some c) (hxs : g.nodes.nodes c = some xs)
    (hreg : ∀ c', c' ≠ c → ∀ q y, Registered its' c' q y ↔ Registered r.iterators c' q y)
    (hits : ∀ y it, r.iterators y = some it → y ∉ mine → ∃ it', its' y = some it' ∧
      it'.container = it.container ∧ (it'.proxy = it.proxy ∨ it'.proxy = .null ∧ it.container = c))
    (hhands : p'.Hands g.nodes its') (hfinds : p'.Finds its' xs)
    (huses : ∀ y ∈ p'.uses, y ∈ mine) : Kept g r t mine g p' { r with iterators := its' } := by
  have hsame : g.nodes.update c (some xs) [] = g.nodes := g.nodes.update_self hxs
  have hkept : Kept g r t mine ⟨g.nodes.update c (some xs) [], g.owner, g.lost⟩ p'
      { r with iterators := its' } :=
    Kept.inside hinv hfits hin hin' (by rw [hsame]; exact hinv.sound) hreg hits (by rwa [hsame])
      hfinds huses
  rwa [hsame] at hkept

/-! ### What an iterator's step does -/

lemma InOrder.obj (h : InOrder g r) (hc : g.nodes.nodes c = some xs) :
    r.lists.obj c = some (ofNodes xs) := by
  rw [h.sound.fields, hc]
  rfl

lemma InOrder.nodup (h : InOrder g r) (hc : g.nodes.nodes c = some xs) : (keys xs).Nodup :=
  (h.sound.onHeap c xs hc).nodup

lemma Exactly.erase {its : ℕ → Option Iterator} (h : Exactly its c (ys ++ (q, x) :: zs))
    (hnodup : (keys (ys ++ (q, x) :: zs)).Nodup) (q' : Ptr) (y : ℕ) :
    (q', y) ∈ ys ++ zs ↔ Registered its c q' y ∧ y ≠ x := by
  have hkeys : q ∉ keys (ys ++ zs) := by
    rw [keys_append]
    exact (List.nodup_cons.mp (List.nodup_middle.mp
      (by simpa only [keys_append, keys_cons] using hnodup))).1
  obtain ⟨-, it, hit, -, hproxy⟩ := (h q x).mp (by simp)
  have hmem : (q', y) ∈ ys ++ (q, x) :: zs ↔ (q', y) = (q, x) ∨ (q', y) ∈ ys ++ zs := by
    simp only [List.mem_append, List.mem_cons]
    tauto
  rw [← h q' y, hmem]
  constructor
  · intro hy
    refine ⟨Or.inr hy, fun hyx => hkeys ?_⟩
    -- a second node of `x` would have the same address
    obtain ⟨-, it', hit', -, hproxy'⟩ := (h q' y).mp (hmem.mpr (Or.inr hy))
    rw [hyx, hit] at hit'
    cases hit'
    exact List.mem_map.mpr ⟨_, hy, hproxy'.symm.trans hproxy⟩
  · rintro ⟨heq | hy, hyx⟩
    · exact absurd (Prod.mk.inj heq).2 hyx
    · exact hy

lemma registered_struck {its : ℕ → Option Iterator} {c' : ℕ} (q : Ptr) (y : ℕ) :
    Registered (Function.update its x (some { it with proxy := .null })) c' q y ↔
      Registered its c' q y ∧ y ≠ x := by
  by_cases hyx : y = x
  · rw [hyx]
    exact iff_of_false (not_registered (by rw [Function.update_self, loose_some]))
      (fun h => h.2 rfl)
  · rw [registered_update hyx]
    exact (and_iff_left hyx).symm

lemma Kept.struck (hinv : InOrder g r) (hfits : Fits g r t p) (hin : p.inside = some c)
    (hin' : p'.inside = some c) (hxs : g.nodes.nodes c = some xs) (hx : r.iterators x = some it)
    (hcontainer : it.container = c)
    (hhands : p'.Hands g.nodes (Function.update r.iterators x (some { it with proxy := .null })))
    (hfinds : p'.Finds (Function.update r.iterators x (some { it with proxy := .null })) xs)
    (huses : ∀ y ∈ p'.uses, y ∈ mine) :
    Kept g r t mine g p'
      { r with iterators := Function.update r.iterators x (some { it with proxy := .null }) } := by
  refine Kept.under hinv hfits hin hin' hxs (fun c' hcc q y => ?_) (fun y it' hit' _ => ?_) hhands
    hfinds huses
  · rw [registered_struck]
    refine and_iff_left_of_imp (fun hreg hyx => hcc ?_)
    rw [hyx] at hreg
    exact ((registered_iff hx).mp hreg).2.1.symm.trans hcontainer
  · by_cases hyx : y = x
    · rw [hyx, hx] at hit'
      cases hit'
      exact ⟨{ it with proxy := .null }, by rw [hyx, Function.update_self], rfl,
        Or.inr ⟨rfl, hcontainer⟩⟩
    · exact ⟨it', (Function.update_of_ne hyx _ _).trans hit', rfl, Or.inl rfl⟩

end Registry

end Voxory
