import Mathlib.Tactic

/-!
# The transcription window

The loop of `main`. Every round appends the samples it captures to what is kept of the rounds
before and hands the result to `whisper_full`; after `n_new_line` rounds only the last samples of
the window are kept. A read or a write outside a vector is `none`.
-/

namespace Voxory

/-- The sample counts of `main`, converted from milliseconds without rounding. -/
structure Counts where
  nSamplesStep : ℤ
  nSamplesLen : ℤ
  nSamplesKeep : ℤ

namespace Counts

/-- The counts that the loop is configured with. -/
structure Valid (c : Counts) : Prop where
  keep_nonneg : 0 ≤ c.nSamplesKeep
  keep_le : c.nSamplesKeep ≤ c.nSamplesStep
  step_le : c.nSamplesStep ≤ c.nSamplesLen
  step_pos : 0 < c.nSamplesStep

def useVad (c : Counts) : Bool := decide (c.nSamplesStep ≤ 0)

/-- `length_ms / step_ms` is the quotient of the counts. -/
def nNewLine (c : Counts) : ℕ :=
  if c.useVad then 1 else (max 1 (c.nSamplesLen.tdiv c.nSamplesStep - 1)).toNat

end Counts

/-- The variables that the loop carries from round to round. -/
structure Windows (α : Type) where
  pcmf32 : List α
  pcmf32Old : List α
  nIter : ℕ

/-- What the environment does in a round: `get` fails, or it fills `pcmf32_new` and `whisper_full`
succeeds or not. -/
inductive Round (α : Type) where
  | getFailed
  | heard (pcmf32New : List α) (fullOk : Bool)

namespace Windows

variable {α : Type}

/-- `for (i..n_samples_take) pcmf32[i] = pcmf32_old[pcmf32_old.size() - n_samples_take + i]` -/
def copyTail (old : List α) (nSamplesTake : ℕ) (pcmf32 : List α) : Option (List α) :=
  (List.range nSamplesTake).foldlM (fun v i => do
    let x ← old[old.length - nSamplesTake + i]?
    if i < v.length then some (v.set i x) else none) pcmf32

/-- `memcpy(dst.data() + first, src.data(), src.size() * sizeof(float))` -/
def memcpy (dst : List α) (first : ℕ) (src : List α) : Option (List α) :=
  if first + src.length ≤ dst.length then
    some (dst.take first ++ src ++ dst.drop (first + src.length))
  else none

/-- `std::vector<float>(v.end() - n, v.end())` -/
def lastSamples (v : List α) (n : ℤ) : Option (List α) :=
  if 0 ≤ n ∧ n ≤ v.length then some (v.drop (v.length - n.toNat)) else none

section Loop

variable [Zero α]

def resize (v : List α) (n : ℕ) : List α := v.take n ++ List.replicate (n - v.length) 0

/-- The window of a round. -/
def assemble (c : Counts) (w : Windows α) (pcmf32New : List α) : Option (List α) := do
  let nSamplesNew := pcmf32New.length
  let nSamplesTake := (min (w.pcmf32Old.length : ℤ)
    (max 0 (c.nSamplesKeep + c.nSamplesLen - nSamplesNew))).toNat
  let pcmf32 ← copyTail w.pcmf32Old nSamplesTake (resize w.pcmf32 (nSamplesNew + nSamplesTake))
  memcpy pcmf32 nSamplesTake pcmf32New

/-- The end of a round in which `whisper_full` got the window `pcmf32`. -/
def advance (c : Counts) (w : Windows α) (pcmf32 : List α) : Option (Windows α) :=
  if (w.nIter + 1) % c.nNewLine = 0 then
    (lastSamples pcmf32 c.nSamplesKeep).map (fun old => ⟨pcmf32, old, w.nIter + 1⟩)
  else some ⟨pcmf32, pcmf32, w.nIter + 1⟩

/-- The windows that `whisper_full` gets, up to the first call that fails. -/
def loop (c : Counts) : List (Round α) → Windows α → Option (List (List α))
  | [], _ => some []
  | .getFailed :: _, _ => some []
  | .heard pcmf32New fullOk :: rounds, w => do
    let pcmf32 ← assemble c w pcmf32New
    if fullOk then
      let w' ← advance c w pcmf32
      let rest ← loop c rounds w'
      some (pcmf32 :: rest)
    else some [pcmf32]

/-- `(1e-3 * 30000.0) * WHISPER_SAMPLE_RATE` -/
def nSamples30s : ℕ := 480000

/-- The loop with the vectors as `main` sets them up. Without a step it captures nothing. -/
def main (c : Counts) (rounds : List (Round α)) : Option (List (List α)) :=
  if c.useVad then some []
  else loop c rounds ⟨List.replicate nSamples30s 0, [], 0⟩

end Loop

/-! ### What a round does -/

lemma copyTail_eq {old v : List α} {n : ℕ} (hold : n ≤ old.length) (hv : n ≤ v.length) :
    copyTail old n v = some (old.drop (old.length - n) ++ v.drop n) := by
  have hsteps : ∀ k, k ≤ n → (List.range k).foldlM (fun v i => do
      let x ← old[old.length - n + i]?
      if i < v.length then some (v.set i x) else none) v =
      some ((old.drop (old.length - n)).take k ++ v.drop k) := by
    intro k
    induction k with
    | zero => exact fun _ => rfl
    | succ k ih =>
      intro hk
      have hx : old.length - n + k < old.length := by omega
      have hlen : ((old.drop (old.length - n)).take k).length = k := by
        rw [List.length_take, List.length_drop]
        omega
      rw [List.range_succ, List.foldlM_append, ih (by omega)]
      simp only [Option.bind_eq_bind, Option.bind_some, List.foldlM_cons, List.foldlM_nil,
        List.getElem?_eq_getElem hx]
      rw [if_pos (by rw [List.length_append, hlen, List.length_drop]; omega)]
      have hdrop : k < (old.drop (old.length - n)).length := by
        rw [List.length_drop]
        omega
      rw [List.set_append_right _ _ (by omega), hlen, Nat.sub_self,
        List.drop_eq_getElem_cons (show k < v.length by omega), List.set_cons_zero,
        List.take_succ_eq_append_getElem hdrop, List.getElem_drop, List.append_assoc]
      rfl
  rw [copyTail, hsteps n le_rfl, List.take_of_length_le]
  rw [List.length_drop]
  omega

section Assemble

variable [Zero α]

lemma resize_length (v : List α) (n : ℕ) : (resize v n).length = n := by
  rw [resize, List.length_append, List.length_take, List.length_replicate]
  omega

lemma assemble_eq {c : Counts} {w : Windows α} {new : List α}
    (h : (w.pcmf32Old.length : ℤ) + new.length ≤ c.nSamplesKeep + c.nSamplesLen) :
    assemble c w new = some (w.pcmf32Old ++ new) := by
  have htake : (min (w.pcmf32Old.length : ℤ)
      (max 0 (c.nSamplesKeep + c.nSamplesLen - new.length))).toNat = w.pcmf32Old.length := by
    omega
  simp only [assemble, htake]
  rw [copyTail_eq le_rfl (by rw [resize_length]; omega)]
  have hlen : (List.drop w.pcmf32Old.length
      (resize w.pcmf32 (new.length + w.pcmf32Old.length))).length = new.length := by
    rw [List.length_drop, resize_length]
    omega
  simp only [Option.bind_eq_bind, Option.bind_some, Nat.sub_self, List.drop_zero, memcpy]
  rw [if_pos (by rw [List.length_append, hlen]), List.take_left, List.drop_eq_nil_of_le, List.append_nil]
  rw [List.length_append, hlen]

end Assemble

/-! ### Lines -/

/-- The chunks that are captured before the loop ends. -/
def chunks : List (Round α) → List (List α)
  | [] | .getFailed :: _ => []
  | .heard new fullOk :: rounds => new :: if fullOk then chunks rounds else []

/-- The windows of lines of `period` rounds: what is kept of the line before, and the chunks that
the line has by then. -/
def lines (period keep : ℕ) : List α → List (List α) → List (List α) → List (List α)
  | _, _, [] => []
  | kept, line, new :: rest =>
    let window := kept ++ (line ++ [new]).flatten
    window ::
      if line.length + 1 = period then
        lines period keep (window.drop (window.length - keep)) [] rest
      else lines period keep kept (line ++ [new]) rest

variable {c : Counts} {w : Windows α} {kept new : List α} {line : List (List α)}

/-- The loop is in the middle of a line. -/
structure Line (c : Counts) (w : Windows α) (kept : List α) (line : List (List α)) : Prop where
  old : w.pcmf32Old = kept ++ line.flatten
  count : w.nIter % c.nNewLine = line.length
  kept_le : (kept.length : ℤ) ≤ c.nSamplesKeep
  chunk : ∀ x ∈ line, (x.length : ℤ) = c.nSamplesStep

lemma flatten_length {n : ℤ} {line : List (List α)} (h : ∀ x ∈ line, (x.length : ℤ) = n) :
    (line.flatten.length : ℤ) = line.length * n := by
  induction line with
  | nil => simp
  | cons x xs ih =>
    have hx := h x List.mem_cons_self
    have hxs := ih (fun y hy => h y (List.mem_cons_of_mem x hy))
    rw [List.flatten_cons, List.length_append, List.length_cons]
    push_cast
    rw [hx, hxs]
    ring

lemma nNewLine_spec (hc : c.Valid) :
    0 < c.nNewLine ∧ (c.nNewLine : ℤ) * c.nSamplesStep ≤ c.nSamplesLen := by
  have hquot : c.nSamplesLen.tdiv c.nSamplesStep * c.nSamplesStep ≤ c.nSamplesLen := by
    rw [Int.tdiv_eq_ediv_of_nonneg (by linarith [hc.step_le, hc.step_pos])]
    exact Int.ediv_mul_le _ hc.step_pos.ne'
  have hone : 1 ≤ c.nSamplesLen.tdiv c.nSamplesStep :=
    Int.le_tdiv_of_mul_le hc.step_pos (by linarith [hc.step_le])
  have hvad : c.useVad = false := decide_eq_false (by have := hc.step_pos; omega)
  rw [Counts.nNewLine, if_neg (by rw [hvad]; exact Bool.false_ne_true)]
  refine ⟨by omega, ?_⟩
  calc (((max 1 (c.nSamplesLen.tdiv c.nSamplesStep - 1)).toNat : ℕ) : ℤ) * c.nSamplesStep
      ≤ c.nSamplesLen.tdiv c.nSamplesStep * c.nSamplesStep :=
        mul_le_mul_of_nonneg_right (by omega) hc.step_pos.le
    _ ≤ c.nSamplesLen := hquot

lemma Line.room (hc : c.Valid) (h : Line c w kept line) (hnew : (new.length : ℤ) = c.nSamplesStep) :
    c.nSamplesKeep ≤ (kept ++ (line ++ [new]).flatten).length ∧
    ((kept ++ (line ++ [new]).flatten).length : ℤ) ≤ c.nSamplesKeep + c.nSamplesLen := by
  obtain ⟨hpos, hlen⟩ := nNewLine_spec hc
  have hcount : line.length + 1 ≤ c.nNewLine := by
    rw [← h.count]
    exact Nat.mod_lt _ hpos
  have hflat : ((line ++ [new]).flatten.length : ℤ) = (line ++ [new]).length * c.nSamplesStep :=
    flatten_length (by
    intro x hx
    rcases List.mem_append.mp hx with hx | hx
    · exact h.chunk x hx
    · rw [List.mem_singleton.mp hx, hnew])
  rw [List.length_append]
  push_cast
  rw [hflat, List.length_append, List.length_singleton]
  have hmul : ((line.length + 1 : ℕ) : ℤ) * c.nSamplesStep ≤ c.nNewLine * c.nSamplesStep :=
    mul_le_mul_of_nonneg_right (by exact_mod_cast hcount) hc.step_pos.le
  refine ⟨?_, by linarith [h.kept_le]⟩
  have hone : 1 * c.nSamplesStep ≤ ((line.length + 1 : ℕ) : ℤ) * c.nSamplesStep :=
    mul_le_mul_of_nonneg_right (by push_cast; omega) hc.step_pos.le
  linarith [hc.keep_le, Int.natCast_nonneg kept.length]

lemma Line.assemble [Zero α] (hc : c.Valid) (h : Line c w kept line)
    (hnew : (new.length : ℤ) = c.nSamplesStep) :
    assemble c w new = some (kept ++ (line ++ [new]).flatten) := by
  have hflat : kept ++ (line ++ [new]).flatten = w.pcmf32Old ++ new := by
    rw [h.old, List.flatten_append, List.flatten_singleton, List.append_assoc]
  have hle := (h.room hc hnew).2
  rw [hflat, List.length_append] at hle
  rw [hflat]
  exact assemble_eq (by exact_mod_cast hle)

lemma lastSamples_eq (hc : c.Valid) {v : List α} (h : c.nSamplesKeep ≤ v.length) :
    lastSamples v c.nSamplesKeep = some (v.drop (v.length - c.nSamplesKeep.toNat)) :=
  if_pos ⟨hc.keep_nonneg, h⟩

lemma Line.advance (hc : c.Valid) (h : Line c w kept line)
    (hnew : (new.length : ℤ) = c.nSamplesStep) :
    ∃ w', advance c w (kept ++ (line ++ [new]).flatten) = some w' ∧
      if line.length + 1 = c.nNewLine then
        Line c w' ((kept ++ (line ++ [new]).flatten).drop
          ((kept ++ (line ++ [new]).flatten).length - c.nSamplesKeep.toNat)) []
      else Line c w' kept (line ++ [new]) := by
  have hpos := (nNewLine_spec hc).1
  have hlt : line.length < c.nNewLine := by
    rw [← h.count]
    exact Nat.mod_lt _ hpos
  have hmod : (w.nIter + 1) % c.nNewLine = (line.length + 1) % c.nNewLine := by
    rw [Nat.add_mod, h.count, Nat.add_mod_mod]
  by_cases hend : line.length + 1 = c.nNewLine
  · rw [Windows.advance, hmod, hend, Nat.mod_self, if_pos rfl,
      lastSamples_eq hc (h.room hc hnew).1]
    refine ⟨_, rfl, ?_⟩
    rw [if_pos rfl]
    refine ⟨(List.append_nil _).symm, ?_, ?_, fun x hx => nomatch hx⟩
    · change (w.nIter + 1) % c.nNewLine = 0
      rw [hmod, hend, Nat.mod_self]
    · have hkeep := hc.keep_nonneg
      rw [List.length_drop]
      omega
  · rw [Windows.advance, hmod, Nat.mod_eq_of_lt (by omega), if_neg (by omega)]
    refine ⟨_, rfl, ?_⟩
    rw [if_neg hend]
    refine ⟨rfl, ?_, h.kept_le, fun x hx => ?_⟩
    · change (w.nIter + 1) % c.nNewLine = _
      rw [hmod, Nat.mod_eq_of_lt (by omega), List.length_append, List.length_singleton]
    · rcases List.mem_append.mp hx with hx | hx
      · exact h.chunk x hx
      · rw [List.mem_singleton.mp hx, hnew]

/-- The loop passes the windows of its lines, none of which is too long. -/
lemma loop_lines [Zero α] (hc : c.Valid) {rounds : List (Round α)} (h : Line c w kept line)
    (hstep : ∀ new ok, .heard new ok ∈ rounds → (new.length : ℤ) = c.nSamplesStep) :
    loop c rounds w = some (lines c.nNewLine c.nSamplesKeep.toNat kept line (chunks rounds)) ∧
    ∀ v ∈ lines c.nNewLine c.nSamplesKeep.toNat kept line (chunks rounds),
      c.nSamplesKeep ≤ v.length ∧ (v.length : ℤ) ≤ c.nSamplesKeep + c.nSamplesLen := by
  induction rounds generalizing w kept line with
  | nil => exact ⟨rfl, fun v hv => nomatch hv⟩
  | cons round rounds ih =>
    cases round with
    | getFailed => exact ⟨rfl, fun v hv => nomatch hv⟩
    | heard new ok =>
      have hnew := hstep new ok List.mem_cons_self
      have hroom := h.room hc hnew
      have hassemble := h.assemble hc hnew
      simp only [loop, hassemble, Option.bind_eq_bind, Option.bind_some, chunks]
      cases ok with
      | false =>
        simp only [if_neg Bool.false_ne_true, lines, ite_self]
        refine ⟨trivial, fun v hv => ?_⟩
        rwa [List.mem_singleton.mp hv]
      | true =>
        obtain ⟨w', hadvance, hline⟩ := h.advance hc hnew
        have hrest := fun new ok hr => hstep new ok (List.mem_cons_of_mem _ hr)
        simp only [if_true, hadvance, Option.bind_some, lines]
        split_ifs at hline ⊢ with hend
        · obtain ⟨hloop, hlength⟩ := ih hline hrest
          rw [hloop, Option.bind_some]
          exact ⟨rfl, List.forall_mem_cons.mpr ⟨hroom, hlength⟩⟩
        · obtain ⟨hloop, hlength⟩ := ih hline hrest
          rw [hloop, Option.bind_some]
          exact ⟨rfl, List.forall_mem_cons.mpr ⟨hroom, hlength⟩⟩

lemma mod_add_le {m n : ℕ} (hn : 0 < n) (h : n ≤ m) : m % n + n ≤ m := by
  have hsplit := Nat.mod_add_div m n
  have hmul : n * 1 ≤ n * (m / n) := Nat.mul_le_mul_left n ((Nat.one_le_div_iff hn).mpr h)
  omega

/-- The windows of the lines, one by one: `i % period` chunks come before the last one in a
window's line, and a line after the first begins with the end of the window before it. -/
lemma lines_getElem {period : ℕ} (keep : ℕ) (kept : List α) (line rest : List (List α)) (hline : line.length < period) (i : ℕ)
    (hi : i < rest.length) :
    (line.length + i < period → (lines period keep kept line rest)[i]? =
      some (kept ++ (line ++ rest.take (i + 1)).flatten)) ∧
    (period ≤ line.length + i → ∃ before,
      (lines period keep kept line rest)[i - (line.length + i) % period - 1]? = some before ∧
      (lines period keep kept line rest)[i]? = some (before.drop (before.length - keep) ++
        ((rest.drop (i - (line.length + i) % period)).take
          ((line.length + i) % period + 1)).flatten)) := by
  induction rest generalizing kept line i with
  | nil => exact absurd hi (Nat.not_lt_zero i)
  | cons new rest ih =>
    rw [lines]
    cases i with
    | zero => exact ⟨fun _ => rfl, fun h => absurd h (by omega)⟩
    | succ i =>
      have hi' : i < rest.length := by simpa using hi
      by_cases hend : line.length + 1 = period
      · simp only [if_pos hend, List.getElem?_cons_succ]
        have hmod : (line.length + (i + 1)) % period = i % period := by
          rw [show line.length + (i + 1) = i + period by omega, Nat.add_mod_right]
        obtain ⟨hfirst, hlater⟩ := ih ((kept ++ (line ++ [new]).flatten).drop
          ((kept ++ (line ++ [new]).flatten).length - keep)) []
          (show List.length [] < period by rw [List.length_nil]; omega) i hi'
        rw [List.length_nil, Nat.zero_add] at hfirst hlater
        refine ⟨fun h => absurd h (by omega), fun _ => ?_⟩
        rw [hmod]
        by_cases hlt : i < period
        · refine ⟨kept ++ (line ++ [new]).flatten, ?_, ?_⟩
          · rw [Nat.mod_eq_of_lt hlt, show i + 1 - i - 1 = 0 by omega, List.getElem?_cons_zero]
          · rw [hfirst hlt, Nat.mod_eq_of_lt hlt, show i + 1 - i = 1 by omega]
            rfl
        · have hge : period ≤ i := by omega
          have hle := mod_add_le (by omega) hge
          obtain ⟨before, hbefore, hat⟩ := hlater hge
          refine ⟨before, ?_, ?_⟩
          · rw [show i + 1 - i % period - 1 = (i - i % period - 1) + 1 by omega,
              List.getElem?_cons_succ]
            exact hbefore
          · rw [hat, show i + 1 - i % period = (i - i % period) + 1 by omega, List.drop_succ_cons]
      · simp only [if_neg hend, List.getElem?_cons_succ]
        have hlen : (line ++ [new]).length = line.length + 1 := by
          rw [List.length_append, List.length_singleton]
        obtain ⟨hfirst, hlater⟩ := ih kept (line ++ [new]) (by omega) i hi'
        rw [hlen, show line.length + 1 + i = line.length + (i + 1) by omega] at hfirst hlater
        refine ⟨fun h => ?_, fun h => ?_⟩
        · rw [hfirst h, List.take_succ_cons, List.append_assoc]
          rfl
        · obtain ⟨before, hbefore, hat⟩ := hlater h
          have hle := mod_add_le (by omega) h
          refine ⟨before, ?_, ?_⟩
          · rw [show i + 1 - (line.length + (i + 1)) % period - 1 =
              (i - (line.length + (i + 1)) % period - 1) + 1 by omega, List.getElem?_cons_succ]
            exact hbefore
          · rw [hat, show i + 1 - (line.length + (i + 1)) % period =
              (i - (line.length + (i + 1)) % period) + 1 by omega, List.drop_succ_cons]

lemma lines_length {period keep : ℕ} (rest : List (List α)) :
    (lines period keep kept line rest).length = rest.length := by
  induction rest generalizing kept line with
  | nil => rfl
  | cons new rest ih =>
    rw [lines, List.length_cons, List.length_cons]
    split_ifs
    · rw [ih]
    · rw [ih]

/-- What the line of window `i` begins with: nothing on the first line, and after it the last
samples of the window before the line. -/
def KeptTail (c : Counts) (windows : List (List α)) (i : ℕ) (kept : List α) : Prop :=
  if i < c.nNewLine then kept = []
  else ∃ before, windows[i - i % c.nNewLine - 1]? = some before ∧
    lastSamples before c.nSamplesKeep = some kept

/-- Every window is the kept tail and then all the chunks of its line so far, in order; it is never
longer than what is kept and a full length, and no access is outside a vector. -/
theorem main_windows [Zero α] (hc : c.Valid) {rounds : List (Round α)}
    (hstep : ∀ new ok, .heard new ok ∈ rounds → (new.length : ℤ) = c.nSamplesStep) :
    ∃ windows, main c rounds = some windows ∧ windows.length = (chunks rounds).length ∧
      ∀ i v, windows[i]? = some v →
        (∃ kept, KeptTail c windows i kept ∧
          v = kept ++ (((chunks rounds).drop (i - i % c.nNewLine)).take
            (i % c.nNewLine + 1)).flatten) ∧
        (v.length : ℤ) ≤ c.nSamplesKeep + c.nSamplesLen := by
  have hpos := (nNewLine_spec hc).1
  have hstart : Line c (⟨List.replicate nSamples30s (0 : α), [], 0⟩ : Windows α) [] [] :=
    ⟨rfl, Nat.zero_mod _, hc.keep_nonneg, fun x hx => nomatch hx⟩
  obtain ⟨hloop, hlength⟩ := loop_lines hc hstart hstep
  have hmain : main c rounds =
      some (lines c.nNewLine c.nSamplesKeep.toNat [] [] (chunks rounds)) := by
    have hvad : c.useVad = false := decide_eq_false (by have := hc.step_pos; omega)
    rw [main, if_neg (by rw [hvad]; exact Bool.false_ne_true), hloop]
  refine ⟨_, hmain, lines_length _, fun i v hv => ⟨?_, (hlength v (List.mem_of_getElem? hv)).2⟩⟩
  have hi : i < (chunks rounds).length := by
    obtain ⟨hlt, -⟩ := List.getElem?_eq_some_iff.mp hv
    rwa [lines_length] at hlt
  obtain ⟨hfirst, hlater⟩ := lines_getElem c.nSamplesKeep.toNat [] [] (chunks rounds) hpos i hi
  rw [List.length_nil, Nat.zero_add] at hfirst hlater
  by_cases hlt : i < c.nNewLine
  · refine ⟨[], ?_, ?_⟩
    · rw [KeptTail, if_pos hlt]
    · rw [hfirst hlt] at hv
      rw [← Option.some.inj hv, Nat.mod_eq_of_lt hlt, Nat.sub_self]
      rfl
  · obtain ⟨before, hbefore, hat⟩ := hlater (by omega)
    have hkeep := (hlength before (List.mem_of_getElem? hbefore)).1
    rw [hat] at hv
    refine ⟨before.drop (before.length - c.nSamplesKeep.toNat), ?_, (Option.some.inj hv).symm⟩
    rw [KeptTail, if_neg hlt]
    exact ⟨before, hbefore, lastSamples_eq hc hkeep⟩

/-- A step of 3 and a length of 9 samples, of which 2 are kept: four rounds make two lines. -/
theorem main_two_lines : (⟨3, 9, 2⟩ : Counts).Valid ∧ ∃ windows : List (List ℤ),
    main ⟨3, 9, 2⟩ [.heard [1, 2, 3] true, .heard [4, 5, 6] true, .heard [7, 8, 9] true,
      .heard [10, 11, 12] true, .getFailed] = some windows ∧
    windows[3]? = some [5, 6, 7, 8, 9, 10, 11, 12] := by
  have hc : (⟨3, 9, 2⟩ : Counts).Valid := ⟨by decide, by decide, by decide, by decide⟩
  have hstep : ∀ new ok, .heard new ok ∈ ([.heard [1, 2, 3] true, .heard [4, 5, 6] true,
      .heard [7, 8, 9] true, .heard [10, 11, 12] true, .getFailed] : List (Round ℤ)) →
      (new.length : ℤ) = 3 := by simp
  obtain ⟨windows, hmain, hlength, hall⟩ := main_windows hc hstep
  refine ⟨hc, windows, hmain, ?_⟩
  obtain ⟨v, hv⟩ : ∃ v, windows[3]? = some v :=
    ⟨_, List.getElem?_eq_getElem (by rw [hlength]; decide)⟩
  obtain ⟨⟨kept, hkept, hwindow⟩, -⟩ := hall 3 v hv
  obtain ⟨before, hbefore, hlast⟩ := hkept
  obtain ⟨⟨nothing, hnothing, hfirst⟩, -⟩ := hall 1 before hbefore
  have hnil : nothing = [] := hnothing
  rw [hnil] at hfirst
  rw [hfirst] at hlast
  have hend : lastSamples ([1, 2, 3, 4, 5, 6] : List ℤ) 2 = some kept := hlast
  cases hend
  rw [hv, hwindow]
  rfl

end Windows

end Voxory
