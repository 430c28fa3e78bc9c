import Voxory.DebugIterators.Registry

/-!
# Runs of the registry

What each operation does to lists and iterators, up to an exception from an allocation or a lock
that stays held, and that runs of them leave the registry exact.
-/

namespace Voxory
open Cxx Chain Machine

namespace Registry

open Objects ListPool LinkedList

variable {r r' : Registry} {p : ListPool ℕ} {a : Reference ℕ} {l : LinkedList} {c o x : ℕ} {q : Ptr}
  {it : Iterator} {xs ys zs : List (Ptr × ℕ)} {z : Ptr × ℕ} {β : Type}

/-! ### Steps that touch one side -/

lemma onLists_returns {m : Code (ListPool ℕ) β} {Q : β → ListPool ℕ → Prop}
    (h : m.Returns r.lists Q) : (onLists m).Returns r
      (fun b r' => ∃ p', Q b p' ∧ r' = { r with lists := p' }) := by
  obtain ⟨b, p', hm, hQ⟩ := h
  exact ⟨b, { r with lists := p' }, by simp only [onLists, hm], p', hQ, rfl⟩

lemma list_ends {m : Method ℕ β} {Q : β → State (Node ℕ) LinkedList → Prop}
    {R : State (Node ℕ) LinkedList → Prop} (hc : r.lists.obj c = some l)
    (h : m.Ends ⟨r.lists.mem, l⟩ Q R) : (list c m).Ends r
      (fun b r' => ∃ s', Q b s' ∧
        r' = { r with lists := ⟨s'.mem, Function.update r.lists.obj c (some s'.self)⟩ })
      (fun r' => ∃ s', R s' ∧
        r' = { r with lists := ⟨s'.mem, Function.update r.lists.obj c (some s'.self)⟩ }) := by
  rw [Code.Ends] at h
  simp only [Code.Ends, list, onLists, member, hc]
  cases hm : m ⟨r.lists.mem, l⟩ <;> rw [hm] at h
  · exact ⟨_, h, rfl⟩
  · exact ⟨_, h, rfl⟩
  · exact h.elim (fun s' hs' => ⟨_, s', hs', rfl⟩)
  · exact h

lemma list_returns {m : Method ℕ β} {Q : β → State (Node ℕ) LinkedList → Prop}
    (hc : r.lists.obj c = some l) (h : m.Returns ⟨r.lists.mem, l⟩ Q) : (list c m).Returns r
      (fun b r' => ∃ s', Q b s' ∧
        r' = { r with lists := ⟨s'.mem, Function.update r.lists.obj c (some s'.self)⟩ }) :=
  (list_ends hc (.of_returns h (R := fun _ => False))).returns (fun _ ⟨_, hs, _⟩ => hs)

lemma list_run {m : Method ℕ β} {b : β} (hc : r.lists.obj c = some l)
    (hm : m ⟨r.lists.mem, l⟩ = .returned b ⟨r.lists.mem, l⟩) : list c m r = .returned b r := by
  simp only [list, onLists, member, hc, hm]
  rw [← hc, Function.update_eq_self]

lemma fields_returned (hc : r.lists.obj c = some l) : onLists (fields c) r = .returned l r := by
  simp only [onLists, fields_run hc]

lemma iterator_run (hx : r.iterators x = some it) : iterator x r = .returned it r := by
  simp only [iterator, hx]

lemma setIterator_run {entry : Option Iterator} : setIterator x entry r =
    .returned () { r with iterators := Function.update r.iterators x entry } := rfl

lemma setProxy_run (hx : r.iterators x = some it) : setProxy x q r =
    .returned () { r with iterators := Function.update r.iterators x (some { it with proxy := q }) } := by
  rw [setProxy, Code.bind_returned (iterator_run hx)]
  rfl

lemma lock_run (hc : r.lists.obj c = some l) (hheld : r.held c = false) :
    lock c r = .returned () { r with held := Function.update r.held c true } := by
  simp only [lock, hc, hheld]
  rfl

lemma lock_ends {R : Registry → Prop} (hc : (r.lists.obj c).isSome)
    (hR : r.held c = true → R r) : (lock c).Ends r
      (fun _ r' => r.held c = false ∧ r' = { r with held := Function.update r.held c true }) R := by
  obtain ⟨l, hl⟩ := Option.isSome_iff_exists.mp hc
  cases hheld : r.held c with
  | true =>
    simp only [Code.Ends, lock, hl, hheld, if_true, Code.endless]
    exact ⟨r, hR hheld⟩
  | false =>
    rw [Code.Ends, lock_run hl hheld]
    exact ⟨rfl, rfl⟩

lemma held_unlock {held : ℕ → Bool} (hc : held c = false) (c' : ℕ)
    (hc' : Function.update (Function.update held c true) c false c' = true) : held c' = true := by
  rwa [Function.update_idem, ← hc, Function.update_eq_self] at hc'

/-- An action that did not come to its end leaves lists and iterators that agree. -/
def Stopped (r r' : Registry) : Prop := Troubled r ∧ ∃ a, Tracks r'.lists r'.iterators a

lemma lock_stops (h : Tracks r.lists r.iterators a) (hc : (r.lists.obj c).isSome) :
    (lock c).Ends r
      (fun _ r' => r.held c = false ∧ r' = { r with held := Function.update r.held c true })
      (Stopped r) :=
  lock_ends hc (fun hheld => ⟨Or.inr ⟨c, hheld⟩, a, h⟩)

lemma isSome_update {obj : ℕ → Option LinkedList} {c' : ℕ} (hc' : (obj c').isSome) :
    (Function.update obj c (some l) c').isSome := by
  by_cases hcc : c' = c
  · rw [hcc, Function.update_self]
    rfl
  · rwa [Function.update_of_ne hcc]

/-! ### `iterator_base_dbg` -/

lemma registerToContainer_ends {ptr : ℕ} (h : Tracks r.lists r.iterators a)
    (hx : r.iterators x = some ⟨c, .null, ptr⟩) (hc : (r.lists.obj c).isSome) :
    (registerToContainer x c).Ends r
      (fun _ r' => Keeps r r' ∧ ∃ q a', Tracks r'.lists r'.iterators a' ∧
        r'.iterators = Function.update r.iterators x (some ⟨c, q, ptr⟩))
      (fun r' => Troubled r ∧ Tracks r'.lists r'.iterators a ∧ r'.iterators = r.iterators) := by
  have hloose : Loose (r.iterators x) := by rw [hx, loose_some]
  obtain ⟨xs, hxs⟩ := h.nodes hc
  refine (lock_ends hc (fun hheld => ⟨Or.inr ⟨c, hheld⟩, h, rfl⟩)).bind ?_
  rintro _ _ ⟨hheld, rfl⟩
  refine ((list_ends (r := { r with held := Function.update r.held c true }) (h.obj hxs)
    (push_ends (h.sound.holds hxs))).mono (fun _ _ h => h) ?_).bind ?_
  · rintro _ ⟨s', ⟨hs', hfuse⟩, rfl⟩
    exact ⟨Or.inl hfuse, ⟨h.sound.unchanged hxs hs', h.exact, h.homed⟩, rfl⟩
  rintro q _ ⟨s', ⟨-, hq, hs'⟩, rfl⟩
  refine .step (setProxy_run hx) ?_
  exact ⟨⟨held_unlock hheld, hs'.calm⟩, q, _, h.pushed hloose hxs (h.sound.pushed hxs hq hs'), rfl⟩

/-- `_release` takes the iterator's node out of the list it is in. -/
lemma release_ends (h : Tracks r.lists r.iterators a) (hx : r.iterators x = some it) :
    (release x).Ends r
      (fun _ r' => Keeps r r' ∧ (∀ c, (r.lists.obj c).isSome → (r'.lists.obj c).isSome) ∧
        (∃ a', Tracks r'.lists r'.iterators a') ∧
        r'.iterators = Function.update r.iterators x (some { it with proxy := .null }))
      (Stopped r) := by
  refine .step (iterator_run hx) ?_
  by_cases hproxy : it.proxy = .null
  · rw [if_pos hproxy]
    refine .pure ⟨.refl r, fun _ hc => hc, ⟨a, h⟩, ?_⟩
    rw [← hproxy, ← hx, Function.update_eq_self]
  rw [if_neg hproxy]
  obtain ⟨ys, zs, hxs⟩ := h.node hx hproxy
  have hobj := h.obj hxs
  refine (lock_stops h (by rw [hobj]; rfl)).bind ?_
  rintro _ _ ⟨hheld, rfl⟩
  refine .step (iterator_run hx) ?_
  rw [if_pos hproxy]
  refine (Code.Ends.of_returns (list_returns
    (r := { r with held := Function.update r.held it.container true }) hobj
    (popAt_returns (h.sound.holds hxs)))).bind ?_
  rintro _ _ ⟨s', hs', rfl⟩
  refine .step (setProxy_run hx) ?_
  exact ⟨⟨held_unlock hheld, hs'.calm⟩, fun _ hc' => isSome_update hc',
    ⟨_, h.popped hxs (h.sound.popped hxs hs') (loose_some.mpr rfl)⟩, rfl⟩

lemma copyProxy_ends (h : Tracks r.lists r.iterators a) (hx : (r.iterators x).isSome)
    (ho : RegistryAction.Homed r o) : (copyProxy x o).Ends r
      (fun _ r' => Keeps r r' ∧ ∃ a', Tracks r'.lists r'.iterators a') (Stopped r) := by
  obtain ⟨it, hit⟩ := Option.isSome_iff_exists.mp hx
  obtain ⟨other, hother, hc⟩ := ho
  refine (release_ends h hit).bind ?_
  rintro _ r₁ ⟨hkeeps₁, hcontainers₁, ⟨a₁, h₁⟩, hits₁⟩
  have hit₁ : r₁.iterators x = some { it with proxy := .null } := by
    rw [hits₁, Function.update_self]
  have hother₁ : ∃ other₁, r₁.iterators o = some other₁ ∧
      other₁.container = other.container := by
    by_cases hox : o = x
    · rw [hox] at hother ⊢
      rw [hit] at hother
      cases hother
      exact ⟨_, hit₁, rfl⟩
    · exact ⟨other, by rw [hits₁, Function.update_of_ne hox, hother], rfl⟩
  obtain ⟨other₁, hother₁, hcontainer⟩ := hother₁
  refine .step (iterator_run hother₁) (.step (iterator_run hit₁) ?_)
  rw [hcontainer]
  refine .step setIterator_run ?_
  have hloose₁ : Loose (r₁.iterators x) := by rw [hit₁, loose_some]
  refine (registerToContainer_ends (r := { r₁ with iterators := Function.update r₁.iterators x _ })
    (h₁.replace hloose₁ (loose_some.mpr rfl)) (Function.update_self _ _ _)
    (hcontainers₁ _ hc)).mono ?_ ?_
  · rintro _ r' ⟨hkeeps, _, a', h', -⟩
    exact ⟨hkeeps₁.trans ⟨hkeeps.held, hkeeps.calm⟩, a', h'⟩
  · rintro r' ⟨htrouble, h', -⟩
    exact ⟨hkeeps₁.troubled htrouble, _, h'⟩

lemma construct_ends {ptr : ℕ} (h : Tracks r.lists r.iterators a) (hx : r.iterators x = none)
    (hc : (r.lists.obj c).isSome) : (construct x c ptr).Ends r
      (fun _ r' => Keeps r r' ∧ ∃ a', Tracks r'.lists r'.iterators a') (Stopped r) := by
  have hloose : Loose (r.iterators x) := by
    rw [hx]
    exact loose_none
  refine .step setIterator_run (Code.Ends.onThrow
    (R := fun r' => Troubled r ∧ Loose (r'.iterators x) ∧ Tracks r'.lists r'.iterators a) ?_ ?_)
  · refine (registerToContainer_ends (r := { r with iterators := Function.update r.iterators x _ })
      (h.replace hloose (loose_some.mpr rfl)) (Function.update_self _ _ _) hc).mono ?_ ?_
    · rintro _ r' ⟨hkeeps, _, a', h', -⟩
      exact ⟨⟨hkeeps.held, hkeeps.calm⟩, a', h'⟩
    · rintro r' ⟨htrouble, h', hits'⟩
      refine ⟨htrouble, ?_, h'⟩
      rw [hits']
      change Loose (Function.update r.iterators x _ x)
      rw [Function.update_self]
      exact loose_some.mpr rfl
  · rintro r' ⟨htrouble, hloose', h'⟩
    exact ⟨(), _, setIterator_run, htrouble, a, h'.replace hloose' loose_none⟩

/-! ### Walks over a list -/

lemma list_read (h : Sound r.lists a) (hc : a.nodes c = some (ys ++ z :: zs)) :
    list c (Cxx.read z.1) r = .returned ⟨z.2, front zs .null, back .null ys⟩ r := by
  have hobj : r.lists.obj c = some (ofNodes (ys ++ z :: zs)) := by
    rw [h.fields, hc]
    rfl
  exact list_run hobj (read_turns h.heap (h.onHeap c _ hc).linked.at)

lemma length_le_fresh (h : Sound p a) (hc : a.nodes c = some xs) : xs.length ≤ p.mem.fresh := by
  have hle := h.heap.length_le (h.onHeap c xs hc).nodup
    (fun q hq => (h.onHeap c xs hc).linked.isSome hq)
  rwa [keys, List.length_map] at hle

lemma dropFrom_returns {rounds : ℕ} (ys zs : List (Ptr × ℕ)) (h : Sound r.lists a) (hc : a.nodes c = some (ys ++ zs))
    (hzs : ∀ z ∈ zs, (r.iterators z.2).isSome) (hrounds : zs.length ≤ rounds) :
    (dropFrom c rounds (front zs .null)).Returns r (fun _ r' => r' =
      { r with iterators := dropProxies (fun y _ => y ∈ zs.map Prod.snd) r.iterators }) := by
  induction zs generalizing r ys rounds with
  | nil =>
    have hend : dropFrom c rounds (front ([] : List (Ptr × ℕ)) .null) = pure () := by
      cases rounds <;> exact if_pos rfl
    rw [hend]
    have hnothing : dropProxies (fun y _ => y ∈ ([] : List (Ptr × ℕ)).map Prod.snd) r.iterators =
        r.iterators := drop_nothing (fun _ _ _ _ => List.not_mem_nil)
    exact .pure (by rw [hnothing])
  | cons z zs ih =>
    obtain ⟨rounds, rfl⟩ : ∃ k, rounds = k + 1 := ⟨rounds - 1, by
      rw [List.length_cons] at hrounds
      omega⟩
    obtain ⟨it, hit⟩ := Option.isSome_iff_exists.mp (hzs z List.mem_cons_self)
    have hcur : front (z :: zs) Ptr.null ≠ Ptr.null := (h.holds hc).ne_null (by simp [front])
    have hits : dropProxies (fun y _ => y ∈ zs.map Prod.snd)
        (Function.update r.iterators z.2 (some { it with proxy := .null })) =
        dropProxies (fun y _ => y ∈ (z :: zs).map Prod.snd) r.iterators := by
      rw [update_eq_drop hit, drop_drop]
      exact drop_congr (fun _ _ _ _ => List.mem_cons.symm)
    rw [dropFrom, if_neg hcur, ← hits]
    refine .step (list_read h hc) (.step (setProxy_run hit) ?_)
    refine ih (r := { r with iterators := Function.update r.iterators z.2 _ }) (ys ++ [z]) h
      (by simpa using hc) (fun w hw => ?_) (by simpa using hrounds)
    change (Function.update r.iterators z.2 _ w.2).isSome
    rw [update_eq_drop hit, dropProxies, Option.isSome_map]
    exact hzs w (List.mem_cons_of_mem z hw)

lemma releaseProxy_ends (h : Tracks r.lists r.iterators a) (hc : (r.lists.obj c).isSome) :
    (releaseProxy c).Ends r
      (fun _ r' => Keeps r r' ∧ (∀ c, (r.lists.obj c).isSome → (r'.lists.obj c).isSome) ∧
        (∃ a', Tracks r'.lists r'.iterators a') ∧
        r'.iterators = dropProxies (fun _ it => it.container = c) r.iterators)
      (Stopped r) := by
  obtain ⟨xs, hxs⟩ := h.nodes hc
  refine (lock_stops h hc).bind ?_
  rintro _ _ ⟨hheld, rfl⟩
  refine .step (fields_returned (h.obj hxs)) (.step (b := r.lists.mem.fresh)
    (list_run (h.obj hxs) rfl) ?_)
  refine (Code.Ends.of_returns (dropFrom_returns [] xs
    (r := { r with held := Function.update r.held c true }) h.sound hxs (fun z hz => ?_)
    (length_le_fresh h.sound hxs))).bind ?_
  · obtain ⟨-, it, hit, -⟩ := h.iterator hxs hz
    exact Option.isSome_iff_exists.mpr ⟨it, hit⟩
  rintro _ _ rfl
  have hdropped : dropProxies (fun y _ => y ∈ xs.map Prod.snd) r.iterators =
      dropProxies (fun _ it => it.container = c) r.iterators :=
    drop_congr (fun y it hit hproxy => h.names hxs hit hproxy)
  rw [hdropped]
  refine (Code.Ends.of_returns (list_returns
    (r := ⟨r.lists, Function.update r.held c true, dropProxies _ r.iterators⟩) (h.obj hxs)
    (clear_returns (h.sound.holds hxs)))).bind ?_
  rintro _ _ ⟨s', hs', rfl⟩
  exact ⟨⟨held_unlock hheld, hs'.calm⟩, fun _ hc' => isSome_update hc',
    ⟨_, h.cleared hxs (h.sound.cleared hxs hs')⟩, rfl⟩

/-- The iterator `it` points below `first` or above `last`. -/
def Outside (first last : ℕ) (it : Iterator) : Prop := it.ptr < first ∨ it.ptr > last

instance (first last : ℕ) (it : Iterator) : Decidable (Outside first last it) := by
  unfold Outside
  infer_instance

/-- The loop of `_invalidate_range` takes out the nodes ahead whose iterators point outside. The
nodes `ys` behind stay, so that what is left is still the list of `c`. -/
lemma invalidateFrom_returns {first last rounds : ℕ} (ys zs : List (Ptr × ℕ))
    (h : Tracks r.lists r.iterators a)
    (hc : a.nodes c = some (ys ++ zs)) (hrounds : zs.length ≤ rounds) :
    (invalidateFrom c first last rounds (front zs .null)).Returns r (fun _ r' => Keeps r r' ∧
      (∃ a', Tracks r'.lists r'.iterators a') ∧ r'.iterators =
        dropProxies (fun y it => y ∈ zs.map Prod.snd ∧ Outside first last it) r.iterators) := by
  induction zs generalizing r a ys rounds with
  | nil =>
    have hend : invalidateFrom c first last rounds (front ([] : List (Ptr × ℕ)) .null) =
        pure () := by
      cases rounds <;> exact if_pos rfl
    rw [hend]
    exact .pure ⟨.refl r, ⟨a, h⟩,
      (drop_nothing (fun _ _ _ _ hn => List.not_mem_nil hn.1)).symm⟩
  | cons z zs ih =>
    obtain ⟨rounds, rfl⟩ : ∃ k, rounds = k + 1 := ⟨rounds - 1, by
      rw [List.length_cons] at hrounds
      omega⟩
    obtain ⟨hcur, it, hit, -⟩ := h.iterator hc (z := z) (by simp)
    rw [invalidateFrom, if_neg (show front (z :: zs) Ptr.null ≠ Ptr.null from hcur)]
    refine .step (list_read h.sound hc) (.step (iterator_run hit) ?_)
    by_cases hout : Outside first last it
    · have hits : dropProxies (fun y it => y ∈ zs.map Prod.snd ∧ Outside first last it)
          (Function.update r.iterators z.2 (some { it with proxy := .null })) = dropProxies
            (fun y it => y ∈ (z :: zs).map Prod.snd ∧ Outside first last it) r.iterators := by
        rw [update_eq_drop hit, drop_drop]
        refine drop_congr (fun y it' hit' _ => ?_)
        rw [List.map_cons, List.mem_cons, or_and_right]
        refine or_congr_left (and_iff_left_of_imp (fun hy => ?_)).symm
        rw [hy, hit] at hit'
        cases hit'
        exact hout
      have hcond : it.ptr < first ∨ it.ptr > last := hout
      simp only [if_pos hcond]
      rw [← hits]
      refine .step (setProxy_run hit) ?_
      refine (list_returns (r := { r with iterators := Function.update r.iterators z.2 _ })
        (h.obj hc) (popAt_returns (h.sound.holds hc))).bind ?_
      rintro _ _ ⟨s', hs', rfl⟩
      have hloose : Loose (some { it with proxy := Ptr.null }) := loose_some.mpr rfl
      have h' := h.popped hc (h.sound.popped hc hs') hloose
      refine (ih (r := ⟨_, r.held, Function.update r.iterators z.2 _⟩) ys h'
        (Function.update_self _ _ _) (by simpa using hrounds)).mono ?_
      rintro _ r' ⟨hkeeps, htracks, hits'⟩
      exact ⟨⟨hkeeps.held, fun hm => hkeeps.calm (hs'.calm hm)⟩, htracks, hits'⟩
    · have hits : dropProxies (fun y it => y ∈ zs.map Prod.snd ∧ Outside first last it)
          r.iterators = dropProxies
            (fun y it => y ∈ (z :: zs).map Prod.snd ∧ Outside first last it) r.iterators := by
        refine drop_congr (fun y it' hit' _ => ?_)
        rw [List.map_cons, List.mem_cons, or_and_right]
        refine (or_iff_right (fun hy => ?_)).symm
        rw [hy.1, hit] at hit'
        cases hit'
        exact hout hy.2
      have hcond : ¬(it.ptr < first ∨ it.ptr > last) := hout
      simp only [if_neg hcond]
      rw [← hits]
      exact ih (ys ++ [z]) h (by simpa using hc) (by simpa using hrounds)

lemma invalidateRange_ends (first last : ℕ) (h : Tracks r.lists r.iterators a)
    (hc : (r.lists.obj c).isSome) : (invalidateRange c first last).Ends r
      (fun _ r' => Keeps r r' ∧ (∃ a', Tracks r'.lists r'.iterators a') ∧ r'.iterators =
        dropProxies (fun _ it => it.container = c ∧ Outside first last it) r.iterators)
      (Stopped r) := by
  obtain ⟨xs, hxs⟩ := h.nodes hc
  refine (lock_stops h hc).bind ?_
  rintro _ _ ⟨hheld, rfl⟩
  refine .step (fields_returned (h.obj hxs)) (.step (b := r.lists.mem.fresh)
    (list_run (h.obj hxs) rfl) ?_)
  refine (Code.Ends.of_returns (invalidateFrom_returns [] xs
    (r := { r with held := Function.update r.held c true }) h hxs
    (length_le_fresh h.sound hxs))).bind ?_
  rintro _ r₁ ⟨hkeeps₁, htracks₁, hits₁⟩
  refine ⟨⟨fun c' hc' => ?_, hkeeps₁.calm⟩, htracks₁, hits₁.trans ?_⟩
  · change Function.update r₁.held c false c' = true at hc'
    by_cases hcc : c' = c
    · rw [hcc, Function.update_self] at hc'
      cases hc'
    · rw [Function.update_of_ne hcc] at hc'
      have hheld₁ := hkeeps₁.held c' hc'
      change Function.update r.held c true c' = true at hheld₁
      rwa [Function.update_of_ne hcc] at hheld₁
  · refine drop_congr (fun y it hit hproxy => and_congr_left (fun _ => ?_))
    exact h.names hxs hit hproxy

/-! ### The other actions -/

lemma container_ends (h : Tracks r.lists r.iterators a) (hc : r.lists.obj c = none) :
    (container c).Ends r (fun _ r' => Keeps r r' ∧ ∃ a', Tracks r'.lists r'.iterators a')
      (Stopped r) := by
  have hnone : ∀ q x, ¬Registered r.iterators c q x := by
    intro q x hreg
    have hsome := h.homed c q x hreg
    rw [← Option.isSome_map (f := ofNodes), ← h.sound.fields, hc] at hsome
    cases hsome
  have hempty : ∀ xs : List (Ptr × ℕ), some [] = some xs → xs = [] :=
    fun _ he => (Option.some.inj he).symm
  refine .step (t := { r with lists := ⟨r.lists.mem, Function.update r.lists.obj c (some nil)⟩ })
    rfl ?_
  refine ⟨⟨fun c' hc' => ?_, id⟩, _, h.vacated hnone (h.sound.vacate (some []) hempty) hempty⟩
  change Function.update r.held c false c' = true at hc'
  by_cases hcc : c' = c
  · rw [hcc, Function.update_self] at hc'
    cases hc'
  · rwa [Function.update_of_ne hcc] at hc'

lemma destroyContainer_ends (h : Tracks r.lists r.iterators a)
    (hc : (r.lists.obj c).map LinkedList.first = some .null) : (destroyContainer c).Ends r
      (fun _ r' => Keeps r r' ∧ ∃ a', Tracks r'.lists r'.iterators a') (Stopped r) := by
  obtain ⟨l, hl, hfirst⟩ := Option.map_eq_some_iff.mp hc
  obtain ⟨xs, hxs, rfl⟩ := h.sound.nodes hl
  have hnil : xs = [] := by
    by_contra hne
    exact (h.sound.holds hxs).first_ne hne hfirst
  rw [hnil] at hxs hl
  have hnone : ∀ q x, ¬Registered r.iterators c q x :=
    fun q x hreg => List.not_mem_nil ((h.exact c [] hxs q x).mpr hreg)
  refine (Code.Ends.of_returns (list_returns hl (clear_returns (h.sound.holds hxs)))).bind ?_
  rintro _ _ ⟨s', hs', rfl⟩
  have hgone := (h.sound.cleared hxs hs').vacate (x := c) none (fun _ he => nomatch he)
  rw [Reference.update_update] at hgone
  exact ⟨⟨fun _ hc' => hc', hs'.calm⟩, _, h.vacated hnone hgone (fun _ he => nomatch he)⟩

lemma seek_ends {ptr : ℕ} (h : Tracks r.lists r.iterators a) (hx : r.iterators x = some it) :
    (seek x ptr).Ends r (fun _ r' => Keeps r r' ∧ ∃ a', Tracks r'.lists r'.iterators a')
      (Stopped r) := by
  refine .step (iterator_run hx) ⟨⟨fun _ hc => hc, id⟩, a, h.congr (fun c q y => ?_)⟩
  by_cases hyx : y = x
  · rw [hyx, registered_iff (Function.update_self x _ r.iterators), registered_iff hx]
  · exact registered_update hyx

/-- Every legal action comes to its end, or is stopped. -/
theorem action_ends (h : Tracks r.lists r.iterators a) (act : RegistryAction)
    (hlegal : act.Legal r) : act.code.Ends r
      (fun _ r' => Keeps r r' ∧ ∃ a', Tracks r'.lists r'.iterators a') (Stopped r) := by
  cases act with
  | container c => exact container_ends h hlegal
  | destroyContainer c => exact destroyContainer_ends h hlegal
  | construct x c ptr => exact (construct_ends h hlegal.1 hlegal.2).noexcept
  | copyConstruct x o =>
    obtain ⟨hx, other, hother, hc⟩ := hlegal
    exact .step (iterator_run hother) (construct_ends h hx hc)
  | moveConstruct x o =>
    obtain ⟨hx, other, hother, hc⟩ := hlegal
    exact .step (iterator_run hother) (construct_ends h hx hc)
  | copyProxy x o => exact copyProxy_ends h hlegal.1 hlegal.2
  | release x =>
    obtain ⟨it, hit⟩ := Option.isSome_iff_exists.mp hlegal
    exact (release_ends h hit).mono (fun _ _ ⟨hkeeps, _, htracks, _⟩ => ⟨hkeeps, htracks⟩)
      (fun _ h' => h')
  | destroy x =>
    obtain ⟨it, hit⟩ := Option.isSome_iff_exists.mp hlegal
    refine (release_ends h hit).bind ?_
    rintro _ r₁ ⟨hkeeps₁, -, ⟨a₁, h₁⟩, hits₁⟩
    have hloose₁ : Loose (r₁.iterators x) := by
      rw [hits₁, Function.update_self]
      exact loose_some.mpr rfl
    exact ⟨⟨hkeeps₁.held, hkeeps₁.calm⟩, a₁, h₁.replace hloose₁ loose_none⟩
  | seek x ptr =>
    obtain ⟨it, hit⟩ := Option.isSome_iff_exists.mp hlegal
    exact seek_ends h hit
  | releaseProxy c =>
    exact (releaseProxy_ends h hlegal).mono (fun _ _ ⟨hkeeps, _, htracks, _⟩ => ⟨hkeeps, htracks⟩)
      (fun _ h' => h')
  | invalidateRange c first last =>
    exact (invalidateRange_ends first last h hlegal).mono (fun _ _ ⟨hkeeps, htracks, _⟩ => ⟨hkeeps, htracks⟩)
      (fun _ h' => h')

lemma start_tracks (z : Bool) : Tracks (start z).lists (start z).iterators Reference.start :=
  ⟨Sound.start z, fun _ _ h => (nomatch h), fun _ _ _ ⟨_, _, hit, _⟩ => (nomatch hit)⟩

lemma next_tracks {l : Option ℕ × RegistryAction} (h : Tracks r.lists r.iterators a)
    (hnext : next r l = some r') : ∃ a', Tracks r'.lists r'.iterators a' := by
  by_cases hlegal : l.2.Legal r
  · have hends := action_ends (r := r.arm l.1) (h.arm l.1) l.2 hlegal
    rw [Code.Ends] at hends
    rw [next, if_pos hlegal] at hnext
    cases hcode : l.2.code (r.arm l.1) <;> rw [hcode] at hends hnext
    · cases hnext
      exact hends.2
    · cases hnext
      exact hends.2
    · cases hnext
    · cases hnext
  · rw [next, if_neg hlegal] at hnext
    cases hnext

/-- Where no allocation fails and no lock is held, a legal action is taken, and no lock stays
held. -/
lemma next_taken {act : RegistryAction} (h : Tracks r.lists r.iterators a) (hlegal : act.Legal r)
    (hheld : ∀ c, r.held c = false) :
    ∃ r', next r (none, act) = some r' ∧ ∀ c, r'.held c = false := by
  have hcalm : ¬Troubled (r.arm none) := by
    rintro (hfuse | ⟨c, hc⟩)
    · exact hfuse rfl
    · rw [show (r.arm none).held c = false from hheld c] at hc
      cases hc
  obtain ⟨_, r', hrun, hkeeps, -⟩ := (action_ends (r := r.arm none) (h.arm none) act hlegal).returns
    (fun r' hr' => hcalm hr'.1)
  refine ⟨r', by rw [next, if_pos hlegal, hrun], fun c => ?_⟩
  cases hc : r'.held c with
  | false => rfl
  | true => exact absurd (hkeeps.held c hc) (by rw [show (r.arm none).held c = false from hheld c]; simp)

lemma run_tracks (z : Bool) {ls : List (Option ℕ × RegistryAction)}
    (hrun : run next (start z) ls = some r) : ∃ a, Tracks r.lists r.iterators a :=
  run_keeps (fun r => ∃ a, Tracks r.lists r.iterators a)
    (fun _ _ _ ⟨_, h⟩ hnext => next_tracks h hnext) ⟨_, start_tracks z⟩ hrun

/-- After every run the registry is exact. A legal action then never faults, and is taken unless an
allocation fails or has failed under a lock. After `_release_proxy` the iterators of the container
have no node, after `_invalidate_range` those that point outside have none and the others keep
theirs. -/
theorem registry_exact (z : Bool) {ls : List (Option ℕ × RegistryAction)}
    (hrun : run next (start z) ls = some r) :
    Exact r ∧
    (∀ l : Option ℕ × RegistryAction, l.2.Legal r →
      (∀ why, l.2.code (r.arm l.1) ≠ .fault why) ∧
      (l.1 = none → (∀ c, r.held c = false) →
        ∃ r', next r l = some r' ∧ ∀ c, r'.held c = false)) ∧
    (∀ c r', (r.lists.obj c).isSome → releaseProxy c r = .returned () r' →
      Exact r' ∧ r'.iterators = dropProxies (fun _ it => it.container = c) r.iterators) ∧
    (∀ c first last r', (r.lists.obj c).isSome → invalidateRange c first last r = .returned () r' →
      Exact r' ∧ r'.iterators =
        dropProxies (fun _ it => it.container = c ∧ Outside first last it) r.iterators) := by
  obtain ⟨a, h⟩ := run_tracks z hrun
  refine ⟨h.exact_registry, fun l hlegal => ⟨fun why hwhy => ?_, fun hl hheld => ?_⟩,
    fun c r' hc hr' => ?_, fun c first last r' hc hr' => ?_⟩
  · have hends := action_ends (r := r.arm l.1) (h.arm l.1) l.2 hlegal
    rwa [Code.Ends, hwhy] at hends
  · obtain ⟨k, act⟩ := l
    cases hl
    exact next_taken h hlegal hheld
  · have hends := releaseProxy_ends h hc
    rw [Code.Ends, hr'] at hends
    obtain ⟨-, -, ⟨a', h'⟩, hits⟩ := hends
    exact ⟨h'.exact_registry, hits⟩
  · have hends := invalidateRange_ends first last h hc
    rw [Code.Ends, hr'] at hends
    obtain ⟨-, ⟨a', h'⟩, hits⟩ := hends
    exact ⟨h'.exact_registry, hits⟩

/-- Iterators of two containers come and go; one allocation fails. -/
def visits : List (Option ℕ × RegistryAction) :=
  [(none, .container 0), (none, .container 1), (none, .construct 0 0 10), (none, .construct 1 0 14),
    (none, .copyConstruct 2 1), (none, .construct 4 1 7), (none, .moveConstruct 5 4),
    (none, .release 5), (none, .copyProxy 4 5), (none, .destroy 5), (none, .seek 1 9),
    (none, .invalidateRange 0 10 12), (none, .releaseProxy 1), (some 0, .copyConstruct 3 0),
    (none, .seek 4 9)]

theorem visits_exact : ∃ r, run next (start false) visits = some r ∧ Exact r := by
  obtain ⟨r, hr⟩ := Option.isSome_iff_exists.mp
    (show (run next (start false) visits).isSome by decide +kernel)
  exact ⟨r, hr, (registry_exact false hr).1⟩

end Registry

end Voxory
