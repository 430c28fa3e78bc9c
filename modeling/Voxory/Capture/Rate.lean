import Voxory.Capture.Stream

/-!
# The rate of the resampler

Every frame adds `16000 / dev_rate` to the accumulator, and a call emits at most one sample. The
samples keep up with the frames as long as no frame is worth more than that.
-/

namespace Voxory

namespace WasapiLoopback

/-- The chunk after the samples `vs` has what they are worth at 16 kHz, in their order, and the
accumulator holds the fraction that is left. -/
structure Paced (rate wanted : ℕ) (vs : List ℚ) (s s' : Collecting) : Prop where
  emits : ∃ emitted : List ℚ, emitted.Sublist vs ∧
    emitted.length = vs.length * whisperSampleRate / rate ∧ s'.out = s.out ++ emitted ∧
    s'.collected = s.collected + emitted.length
  nonneg : 0 ≤ s'.acc
  lt_one : s'.acc < 1

/-- `append_sample_resample` for one sample after the other. -/
def feed (rate wanted : ℕ) (vs : List ℚ) (s : Collecting) : Collecting :=
  vs.foldl (fun s v => appendSampleResample v rate wanted s) s

variable {rate wanted : ℕ} {s : Collecting} {vs : List ℚ} {acc : ℚ}

lemma resample_sublist (rate : ℕ) (vs : List ℚ) (acc : ℚ) :
    (resample rate acc vs).1.Sublist vs := by
  induction vs generalizing acc with
  | nil => exact List.Sublist.refl []
  | cons v vs ih =>
    rw [resample]
    split_ifs
    · exact (ih _).cons_cons v
    · exact (ih _).cons v

lemma step_eq (rate n : ℕ) :
    (n : ℚ) * (1 / ratio rate) = (n * whisperSampleRate : ℕ) / (rate : ℚ) := by
  unfold ratio
  rw [one_div_div, mul_div_assoc', Nat.cast_mul]

lemma resample_le_due (hrate : 1 ≤ rate) (vs : List ℚ) :
    (resample rate 0 vs).1.length ≤ vs.length * whisperSampleRate / rate := by
  rw [Nat.le_div_iff_mul_le hrate]
  by_cases hout : rate = whisperSampleRate
  · rw [hout, resample_same]
  · have hacc := resample_acc hout vs 0
    have hlow := resample_nonneg hout vs 0 (Or.inl le_rfl)
    rw [step_eq, zero_add] at hacc
    rw [hacc, sub_nonneg, le_div_iff₀ (by exact_mod_cast hrate)] at hlow
    exact_mod_cast hlow

/-- An accumulator below 1 has given away all the samples that were due. -/
lemma due_le_resample (hrate : 1 ≤ rate) (h : (resample rate 0 vs).2 < 1) :
    vs.length * whisperSampleRate / rate ≤ (resample rate 0 vs).1.length := by
  rw [← Nat.lt_succ_iff, Nat.div_lt_iff_lt_mul hrate]
  by_cases hout : rate = whisperSampleRate
  · rw [hout, resample_same]
    exact Nat.mul_lt_mul_of_pos_right (Nat.lt_succ_self _) (by decide)
  · have hacc := resample_acc hout vs 0
    rw [step_eq, zero_add] at hacc
    rw [hacc, sub_lt_iff_lt_add', div_lt_iff₀ (by exact_mod_cast hrate)] at h
    exact_mod_cast h

lemma one_le_step (hrate : 1 ≤ rate) (hslow : rate ≤ whisperSampleRate) : 1 ≤ 1 / ratio rate := by
  unfold ratio
  rw [one_div_div, one_le_div (by exact_mod_cast hrate)]
  exact_mod_cast hslow

lemma resample_slow (hrate : 1 ≤ rate) (hslow : rate < whisperSampleRate) (vs : List ℚ)
    (h : 0 ≤ acc) : (resample rate acc vs).1 = vs := by
  induction vs generalizing acc with
  | nil => rfl
  | cons v vs ih =>
    have hstep := one_le_step hrate hslow.le
    have htick : tick rate acc = (true, acc + 1 / ratio rate - 1) := by
      unfold tick
      rw [if_neg hslow.ne, if_pos (by linarith)]
    have hrest : (resample rate (acc + 1 / ratio rate - 1) vs).1 = vs := ih (by linarith)
    rw [resample, htick]
    change v :: (resample rate (acc + 1 / ratio rate - 1) vs).1 = v :: vs
    rw [hrest]

lemma resample_fast (hfast : whisperSampleRate ≤ rate) (vs : List ℚ) (h1 : acc < 1) :
    (resample rate acc vs).2 < 1 := by
  rcases hfast.eq_or_lt with hout | hlt
  · rw [← hout, resample_same]
    exact h1
  · cases vs with
    | nil => exact h1
    | cons v vs => exact (resample_lt hlt v vs acc).trans_le (max_le h1.le le_rfl)

/-- The accumulator ends below 1 exactly when there is no more than one sample due for each
frame. -/
lemma resample_lt_one_iff (hrate : 1 ≤ rate) (vs : List ℚ) :
    (resample rate 0 vs).2 < 1 ↔ vs.length * whisperSampleRate < (vs.length + 1) * rate := by
  rcases Nat.lt_or_ge rate whisperSampleRate with hslow | hfast
  · rw [resample_acc hslow.ne, resample_slow hrate hslow vs le_rfl, step_eq, zero_add,
      sub_lt_iff_lt_add', div_lt_iff₀ (by exact_mod_cast hrate), add_comm (_ : ℚ) 1]
    rw [add_comm vs.length 1]
    exact_mod_cast Iff.rfl
  · apply iff_of_true (resample_fast hfast vs one_pos)
    calc vs.length * whisperSampleRate ≤ vs.length * rate := Nat.mul_le_mul_left _ hfast
      _ < (vs.length + 1) * rate := Nat.mul_lt_mul_of_pos_right (Nat.lt_succ_self _) hrate

/-- The samples come out at 16 kHz exactly when no more than one sample is due for each frame:
always, from a device at 16 kHz or above. -/
theorem paced_iff (hrate : 1 ≤ rate) (hacc : s.acc = 0)
    (hroom : s.collected + min vs.length (vs.length * whisperSampleRate / rate) ≤ wanted) :
    Paced rate wanted vs s (feed rate wanted vs s) ↔
      vs.length * whisperSampleRate < (vs.length + 1) * rate := by
  obtain ⟨hkeeps, hafter⟩ := foldl_keeps rate vs ((Nat.le_add_right _ _).trans hroom)
  rw [hacc] at hkeeps hafter
  have hle := resample_le_due hrate vs
  have hlen := resample_length_le rate vs 0
  constructor
  · intro h
    rw [← resample_lt_one_iff hrate, ← hafter]
    exact h.lt_one
  · intro hdue
    have hlt := (resample_lt_one_iff hrate vs).mpr hdue
    have hge := due_le_resample hrate hlt
    refine ⟨⟨(resample rate 0 vs).1, resample_sublist rate vs 0, hle.antisymm hge, ?_, ?_⟩, ?_, ?_⟩
    · exact hkeeps.out.trans (by rw [List.take_of_length_le (by omega)])
    · exact hkeeps.collected.trans (by omega)
    · unfold feed
      rw [hafter]
      by_cases hout : rate = whisperSampleRate
      · rw [hout, resample_same]
      · exact resample_nonneg hout vs 0 (Or.inl le_rfl)
    · unfold feed
      rw [hafter]
      exact hlt

/-- Three frames at 48 kHz are worth one sample. -/
theorem frames_paced : Paced 48000 16 [1, 2, 3] ⟨0, [], 0⟩ (feed 48000 16 [1, 2, 3] ⟨0, [], 0⟩) :=
  (paced_iff (by decide) rfl (by decide)).mpr (by decide)

/-- At 8 kHz a frame is worth two samples, of which one is emitted. -/
theorem slow_not_paced : (feed 8000 16 [5] ⟨0, [], 0⟩).out = [5] ∧
    (feed 8000 16 [5] ⟨0, [], 0⟩).acc = 1 ∧ 1 * whisperSampleRate / 8000 = 2 ∧
    ¬Paced 8000 16 [5] ⟨0, [], 0⟩ (feed 8000 16 [5] ⟨0, [], 0⟩) := by
  have hout : (feed 8000 16 [5] ⟨0, [], 0⟩).out = [5] := by decide +kernel
  have hacc : (feed 8000 16 [5] ⟨0, [], 0⟩).acc = 1 := by decide +kernel
  refine ⟨hout, hacc, by decide, fun h => ?_⟩
  have hlt := h.lt_one
  rw [hacc] at hlt
  exact lt_irrefl 1 hlt

end WasapiLoopback

end Voxory
