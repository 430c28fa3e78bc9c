import Voxory.DebugIterators.Model

/-!
# The registry stays exact

`Tracks` relates the lists of the containers and the fields of the iterators: a node is in a list
exactly when it is the proxy of an iterator with that container. Every operation is followed
through the changes it makes on both sides.
-/

namespace Voxory
open Cxx Chain Machine

namespace Registry

open Objects ListPool LinkedList

/-- The iterator `x` is registered with the container `c` through the node `q`. -/
def Registered (its : ℕ → Option Iterator) (c : ℕ) (q : Ptr) (x : ℕ) : Prop :=
  q ≠ .null ∧ ∃ it, its x = some it ∧ it.container = c ∧ it.proxy = q

/-- Under a name with this entry there is no iterator, or one without a node. -/
def Loose (entry : Option Iterator) : Prop := ∀ it, entry = some it → it.proxy = .null

/-- The iterators that meet `P` lose their node. -/
def dropProxies (P : ℕ → Iterator → Prop) [∀ x it, Decidable (P x it)]
    (its : ℕ → Option Iterator) : ℕ → Option Iterator :=
  fun x => (its x).map (fun it => if P x it then { it with proxy := .null } else it)

/-- The nodes `a` of the lists are those of the registered iterators. -/
structure Tracks (p : ListPool ℕ) (its : ℕ → Option Iterator) (a : Reference ℕ) : Prop where
  sound : Sound p a
  exact : ∀ c xs, a.nodes c = some xs → ∀ q x, (q, x) ∈ xs ↔ Registered its c q x
  homed : ∀ c q x, Registered its c q x → (a.nodes c).isSome

/-- Each container's list is a chain, its nodes are exactly those of its registered iterators, and
each node has the name of its iterator. -/
structure Exact (r : Registry) : Prop where
  chained : ∀ c l, r.lists.obj c = some l → ∃ xs, Chained r.lists.mem.object l xs ∧
    ∀ q x, (q, x) ∈ xs ↔ Registered r.iterators c q x
  homed : ∀ c q x, Registered r.iterators c q x → (r.lists.obj c).isSome

/-- An allocation may fail, or a lock is held: what may keep an action from being taken. -/
def Troubled (r : Registry) : Prop := r.lists.mem.fuse ≠ none ∨ ∃ c, r.held c = true

/-- Between `r` and `r'` no trouble has come up. -/
structure Keeps (r r' : Registry) : Prop where
  held : ∀ c, r'.held c = true → r.held c = true
  calm : r.lists.mem.fuse = none → r'.lists.mem.fuse = none

variable {r r' : Registry} {p p' : ListPool ℕ} {its its' : ℕ → Option Iterator} {a a' : Reference ℕ}
  {c x : ℕ} {q : Ptr} {it : Iterator} {entry : Option Iterator} {xs ys zs : List (Ptr × ℕ)}
  {z : Ptr × ℕ} {β : Type}

lemma Keeps.refl (r : Registry) : Keeps r r := ⟨fun _ hc => hc, id⟩

lemma Keeps.trans {r'' : Registry} (h : Keeps r r') (h' : Keeps r' r'') : Keeps r r'' :=
  ⟨fun c hc => h.held c (h'.held c hc), fun hf => h'.calm (h.calm hf)⟩

lemma Keeps.troubled (h : Keeps r r') (ht : Troubled r') : Troubled r := by
  rcases ht with hf | ⟨c, hc⟩
  · exact Or.inl (fun hn => hf (h.calm hn))
  · exact Or.inr ⟨c, h.held c hc⟩

/-! ### Who is registered -/

lemma registered_update {y c' : ℕ} (hy : y ≠ x) :
    Registered (Function.update its x entry) c' q y ↔ Registered its c' q y := by
  rw [Registered, Function.update_of_ne hy, Registered]

lemma registered_iff (hx : its x = some it) {c' : ℕ} :
    Registered its c' q x ↔ q ≠ .null ∧ it.container = c' ∧ it.proxy = q := by
  refine and_congr_right (fun _ => ⟨fun ⟨it', hit', h⟩ => ?_, fun h => ⟨it, hx, h⟩⟩)
  rw [hx] at hit'
  cases hit'
  exact h

lemma loose_none : Loose none := fun _ h => nomatch h

lemma loose_some : Loose (some it) ↔ it.proxy = .null := by
  refine ⟨fun h => h it rfl, fun h it' hit' => ?_⟩
  cases hit'
  exact h

lemma not_registered (hx : Loose (its x)) {c' : ℕ} :
    ¬Registered its c' q x := by
  rintro ⟨hq, it, hit, -, rfl⟩
  exact hq (hx it hit)

section Drops

variable {P Q : ℕ → Iterator → Prop} [∀ x it, Decidable (P x it)] [∀ x it, Decidable (Q x it)]

lemma registered_drop {c' : ℕ} : Registered (dropProxies P its) c' q x ↔
    Registered its c' q x ∧ ∀ it, its x = some it → ¬P x it := by
  simp only [Registered, dropProxies, Option.map_eq_some_iff]
  constructor
  · rintro ⟨hq, _, ⟨it, hit, rfl⟩, hc, hp⟩
    by_cases hP : P x it
    · rw [if_pos hP] at hp
      exact absurd hp.symm hq
    · rw [if_neg hP] at hc hp
      refine ⟨⟨hq, it, hit, hc, hp⟩, fun it' hit' => ?_⟩
      rw [hit] at hit'
      cases hit'
      exact hP
  · rintro ⟨⟨hq, it, hit, hc, hp⟩, hP⟩
    have hnot := hP it hit
    exact ⟨hq, _, ⟨it, hit, rfl⟩, by rw [if_neg hnot]; exact hc, by rw [if_neg hnot]; exact hp⟩

/-- It does not matter which iterators without a node lose it. -/
lemma drop_congr (h : ∀ x it, its x = some it → it.proxy ≠ .null → (P x it ↔ Q x it)) :
    dropProxies P its = dropProxies Q its := by
  funext x
  refine Option.map_congr (fun it hit => ?_)
  by_cases hproxy : it.proxy = .null
  · have hsame : { it with proxy := Ptr.null } = it := by rw [← hproxy]
    rw [hsame, ite_self, ite_self]
  · exact if_congr (h x it hit hproxy) rfl rfl

lemma drop_nothing (h : ∀ x it, its x = some it → it.proxy ≠ .null → ¬P x it) :
    dropProxies P its = its := by
  rw [drop_congr (Q := fun _ _ => False) (fun x it hit hproxy => iff_false_intro (h x it hit hproxy))]
  funext x
  exact Option.map_id'

lemma drop_drop : dropProxies P (dropProxies Q its) = dropProxies (fun x it => Q x it ∨ P x it) its := by
  funext x
  rw [dropProxies, dropProxies, dropProxies, Option.map_map]
  refine Option.map_congr (fun it _ => ?_)
  by_cases hQ : Q x it
  · rw [Function.comp_apply, if_pos hQ, if_pos (Or.inl hQ)]
    exact ite_self _
  · rw [Function.comp_apply, if_neg hQ]
    exact if_congr (or_iff_right hQ).symm rfl rfl

lemma update_eq_drop (hx : its x = some it) :
    Function.update its x (some { it with proxy := .null }) = dropProxies (fun y _ => y = x) its := by
  funext y
  by_cases hyx : y = x
  · rw [hyx, Function.update_self, dropProxies, hx, Option.map_some, if_pos rfl]
  · rw [Function.update_of_ne hyx, dropProxies]
    simp only [if_neg hyx, Option.map_id']

end Drops

namespace Tracks

lemma obj (h : Tracks p its a) (hc : a.nodes c = some xs) : p.obj c = some (ofNodes xs) := by
  rw [h.sound.fields, hc]
  rfl

lemma nodes (h : Tracks p its a) (hc : (p.obj c).isSome) : ∃ xs, a.nodes c = some xs := by
  obtain ⟨l, hl⟩ := Option.isSome_iff_exists.mp hc
  obtain ⟨xs, hxs, -⟩ := h.sound.nodes hl
  exact ⟨xs, hxs⟩

lemma arm (h : Tracks p its a) (k : Option ℕ) : Tracks (p.arm k) its a :=
  ⟨h.sound.arm k, h.exact, h.homed⟩

lemma node (h : Tracks p its a) (hx : its x = some it) (hproxy : it.proxy ≠ .null) :
    ∃ ys zs, a.nodes it.container = some (ys ++ (it.proxy, x) :: zs) := by
  have hreg : Registered its it.container it.proxy x := ⟨hproxy, it, hx, rfl, rfl⟩
  obtain ⟨xs, hxs⟩ := Option.isSome_iff_exists.mp (h.homed _ _ _ hreg)
  obtain ⟨ys, zs, rfl⟩ := List.append_of_mem ((h.exact _ _ hxs _ _).mpr hreg)
  exact ⟨ys, zs, hxs⟩

lemma iterator (h : Tracks p its a) (hc : a.nodes c = some xs) (hz : z ∈ xs) :
    z.1 ≠ .null ∧ ∃ it, its z.2 = some it ∧ it.container = c ∧ it.proxy = z.1 :=
  (h.exact c xs hc z.1 z.2).mp hz

lemma names (h : Tracks p its a) (hc : a.nodes c = some xs) (hx : its x = some it)
    (hproxy : it.proxy ≠ .null) : x ∈ xs.map Prod.snd ↔ it.container = c := by
  constructor
  · intro hmem
    obtain ⟨z, hz, rfl⟩ := List.mem_map.mp hmem
    obtain ⟨-, it', hit', hcontainer, -⟩ := h.iterator hc hz
    rw [hx] at hit'
    cases hit'
    exact hcontainer
  · intro hcontainer
    exact List.mem_map.mpr ⟨(it.proxy, x),
      (h.exact c xs hc _ _).mpr ⟨hproxy, it, hx, hcontainer, rfl⟩, rfl⟩

lemma unique (h : Tracks p its a) (hc : a.nodes c = some (ys ++ z :: zs)) :
    z.2 ∉ (ys ++ zs).map Prod.snd := by
  intro hmem
  obtain ⟨w, hw, hwz⟩ := List.mem_map.mp hmem
  have hkeys : z.1 ∉ keys (ys ++ zs) := by
    rw [keys_append]
    exact (List.nodup_cons.mp (List.nodup_middle.mp
      (by simpa only [keys_append, keys_cons] using (h.sound.onHeap c _ hc).nodup))).1
  obtain ⟨-, it, hit, -, hproxy⟩ := h.iterator hc (z := z) (by simp)
  obtain ⟨-, it', hit', -, hproxy'⟩ := h.iterator hc (z := w) (by
    rw [List.mem_append] at hw ⊢
    exact hw.imp_right (List.mem_cons_of_mem z))
  rw [hwz, hit] at hit'
  cases hit'
  exact hkeys (List.mem_map.mpr ⟨w, hw, by rw [← hproxy, ← hproxy']⟩)

lemma congr (h : Tracks p its a) (hits : ∀ c q x, Registered its' c q x ↔ Registered its c q x) :
    Tracks p its' a where
  sound := h.sound
  exact c xs hc q x := (h.exact c xs hc q x).trans (hits c q x).symm
  homed c q x hreg := h.homed c q x ((hits c q x).mp hreg)

lemma replace (h : Tracks p its a) (hx : Loose (its x)) (hentry : Loose entry) :
    Tracks p (Function.update its x entry) a := by
  refine h.congr (fun c q y => ?_)
  by_cases hyx : y = x
  · rw [hyx]
    exact iff_of_false (not_registered (by rwa [Function.update_self])) (not_registered hx)
  · exact registered_update hyx

lemma pushed {ptr : ℕ} (h : Tracks p its a) (hx : Loose (its x))
    (hc : a.nodes c = some xs) (hs : Sound p' (a.update c (some (xs ++ [(q, x)])) [])) :
    Tracks p' (Function.update its x (some ⟨c, q, ptr⟩))
      (a.update c (some (xs ++ [(q, x)])) []) := by
  have hnodes : (a.update c (some (xs ++ [(q, x)])) []).nodes c = some (xs ++ [(q, x)]) :=
    Function.update_self _ _ _
  have hq : q ≠ .null := (hs.holds hnodes).ne_null (by simp)
  refine ⟨hs, fun c' xs' hc' q' y => ?_, fun c' q' y hreg => ?_⟩
  · rcases Sound.of_update hc' with ⟨rfl, hxs'⟩ | ⟨hcc, hxs'⟩
    · cases hxs'
      rw [List.mem_append, h.exact c' xs hc, List.mem_singleton, Prod.mk.injEq]
      by_cases hyx : y = x
      · rw [hyx, registered_iff (Function.update_self x _ its)]
        refine ⟨fun hor => ?_, fun hreg => Or.inr ⟨hreg.2.2.symm, rfl⟩⟩
        obtain ⟨rfl, -⟩ := hor.resolve_left (not_registered hx)
        exact ⟨hq, rfl, rfl⟩
      · rw [registered_update hyx]
        exact or_iff_left (fun hy => hyx hy.2)
    · rw [h.exact c' xs' hxs']
      by_cases hyx : y = x
      · rw [hyx, registered_iff (Function.update_self x _ its)]
        exact iff_of_false (not_registered hx) (fun hreg => hcc hreg.2.1.symm)
      · rw [registered_update hyx]
  · by_cases hcc : c' = c
    · rw [hcc, hnodes]
      rfl
    · change (Function.update a.nodes c _ c').isSome
      rw [Function.update_of_ne hcc]
      by_cases hyx : y = x
      · rw [hyx, registered_iff (Function.update_self x _ its)] at hreg
        exact absurd hreg.2.1.symm hcc
      · exact h.homed c' q' y ((registered_update hyx).mp hreg)

lemma popped (h : Tracks p its a) (hc : a.nodes c = some (ys ++ (q, x) :: zs))
    (hs : Sound p' (a.update c (some (ys ++ zs)) [q]))
    (hentry : Loose entry) :
    Tracks p' (Function.update its x entry) (a.update c (some (ys ++ zs)) [q]) := by
  obtain ⟨hq, it, hit, hcontainer, hproxy⟩ := h.iterator hc (z := (q, x)) (by simp)
  have hgone : ∀ c' q', ¬Registered (Function.update its x entry) c' q' x :=
    fun c' q' => not_registered (by rwa [Function.update_self])
  refine ⟨hs, fun c' xs' hc' q' y => ?_, fun c' q' y hreg => ?_⟩
  · rcases Sound.of_update hc' with ⟨rfl, hxs'⟩ | ⟨hcc, hxs'⟩
    · cases hxs'
      by_cases hyx : y = x
      · rw [hyx]
        refine iff_of_false (fun hmem => h.unique hc ?_) (hgone c' q')
        exact List.mem_map.mpr ⟨_, hmem, rfl⟩
      · rw [registered_update hyx, ← h.exact c' _ hc]
        simp [hyx]
    · by_cases hyx : y = x
      · rw [hyx]
        refine iff_of_false (fun hmem => ?_) (hgone c' q')
        obtain ⟨-, it', hit', hcontainer', -⟩ := h.iterator hxs' hmem
        rw [hit] at hit'
        cases hit'
        exact hcc (hcontainer'.symm.trans hcontainer)
      · rw [registered_update hyx, h.exact c' xs' hxs']
  · have hyx : y ≠ x := fun hyx => hgone c' q' (by rwa [hyx] at hreg)
    have hsome := h.homed c' q' y ((registered_update hyx).mp hreg)
    change (Function.update a.nodes c _ c').isSome
    by_cases hcc : c' = c
    · rw [hcc, Function.update_self]
      rfl
    · rwa [Function.update_of_ne hcc]

lemma cleared {gone : List Ptr} (h : Tracks p its a) (hc : a.nodes c = some xs)
    (hs : Sound p' (a.update c (some []) gone)) :
    Tracks p' (dropProxies (fun _ it => it.container = c) its) (a.update c (some []) gone) := by
  have hreg : ∀ c' q y, Registered (dropProxies (fun _ it => it.container = c) its) c' q y ↔
      Registered its c' q y ∧ c' ≠ c := by
    intro c' q y
    rw [registered_drop]
    refine and_congr_right (fun ⟨_, it, hit, hcontainer, _⟩ => ?_)
    rw [← hcontainer]
    refine ⟨fun hP => hP it hit, fun hne it' hit' => ?_⟩
    rw [hit] at hit'
    cases hit'
    exact hne
  refine ⟨hs, fun c' xs' hc' q y => ?_, fun c' q y hy => ?_⟩
  · rw [hreg]
    rcases Sound.of_update hc' with ⟨rfl, hxs'⟩ | ⟨hcc, hxs'⟩
    · cases hxs'
      exact iff_of_false List.not_mem_nil (fun hn => hn.2 rfl)
    · rw [h.exact c' xs' hxs']
      exact (and_iff_left hcc).symm
  · obtain ⟨hy, hcc⟩ := (hreg c' q y).mp hy
    change (Function.update a.nodes c _ c').isSome
    rw [Function.update_of_ne hcc]
    exact h.homed c' q y hy

lemma vacated {entry : Option (List (Ptr × ℕ))} (h : Tracks p its a)
    (hnone : ∀ q x, ¬Registered its c q x) (hs : Sound p' (a.update c entry []))
    (hentry : ∀ xs, entry = some xs → xs = []) : Tracks p' its (a.update c entry []) := by
  refine ⟨hs, fun c' xs hc' q y => ?_, fun c' q y hy => ?_⟩
  · rcases Sound.of_update hc' with ⟨rfl, hxs⟩ | ⟨-, hxs⟩
    · rw [hentry xs hxs]
      exact iff_of_false List.not_mem_nil (hnone q y)
    · exact h.exact c' xs hxs q y
  · have hcc : c' ≠ c := fun hcc => hnone q y (by rwa [hcc] at hy)
    change (Function.update a.nodes c _ c').isSome
    rw [Function.update_of_ne hcc]
    exact h.homed c' q y hy

lemma exact_registry {held : ℕ → Bool} (h : Tracks p its a) : Exact ⟨p, held, its⟩ where
  chained c l hl := by
    obtain ⟨xs, hc, rfl⟩ := h.sound.nodes hl
    exact ⟨xs, chained_of_holds (h.sound.holds hc), h.exact c xs hc⟩
  homed c q x hreg := by
    change (p.obj c).isSome
    rw [h.sound.fields, Option.isSome_map]
    exact h.homed c q x hreg

end Tracks

end Registry

end Voxory
