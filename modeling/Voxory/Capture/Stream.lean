import Voxory.Capture.Loopback

/-!
# The captured stream

Over float packets the loop of `get` reads the resampled stream packet by packet. A call that is
full in the middle of a packet releases the whole packet, so that the rest of it is lost to the
calls after it. A packet without float data takes part in the chunk but not in the resampling.
-/

namespace Voxory
open Blocks

namespace WasapiLoopback

/-- The downmixed frames of a float packet. -/
def frames (dev : WasapiLoopback) (p : Packet) : List ℚ :=
  (List.range p.framesAvailable).map (dev.downmix p.floats)

/-- The downmixed frames of all the packets. -/
def allFrames (dev : WasapiLoopback) : List Poll → List ℚ
  | [] => []
  | .packet p _ :: polls => dev.frames p ++ dev.allFrames polls
  | .sizeFailed :: polls | .nothing :: polls | .bufferFailed :: polls => dev.allFrames polls

/-- What the resampler emits for each packet, with one continuing accumulator. -/
def blocks (dev : WasapiLoopback) : ℚ → List Poll → List (List ℚ)
  | _, [] => []
  | acc, .packet p _ :: polls =>
    let emitted := resample dev.deviceSampleRate acc (dev.frames p)
    emitted.1 :: dev.blocks emitted.2 polls
  | acc, .sizeFailed :: polls | acc, .nothing :: polls | acc, .bufferFailed :: polls =>
    dev.blocks acc polls

/-- The device delivers floats, and no packet is flagged silent. -/
structure Floats (dev : WasapiLoopback) (polls : List Poll) : Prop where
  format : dev.formatTag = .ieeeFloat ∨ dev.formatTag = .extensible true
  loud : ∀ p ok, .packet p ok ∈ polls → p.silent = false

variable {dev : WasapiLoopback} {s s' : Collecting} {polls polls' : List Poll} {wanted : ℕ} {acc : ℚ}

lemma blocks_flatten (polls : List Poll) (acc : ℚ) : (dev.blocks acc polls).flatten =
    (resample dev.deviceSampleRate acc (dev.allFrames polls)).1 := by
  induction polls generalizing acc with
  | nil => rfl
  | cons poll polls ih =>
    cases poll with
    | packet p ok =>
      rw [blocks, allFrames, List.flatten_cons, resample_append, ih]
    | sizeFailed => exact ih acc
    | nothing => exact ih acc
    | bufferFailed => exact ih acc

lemma Floats.tail {poll : Poll} (h : Floats dev (poll :: polls)) : Floats dev polls :=
  ⟨h.format, fun p ok hp => h.loud p ok (List.mem_cons_of_mem _ hp)⟩

lemma takePacket_keeps {p : Packet}
    (hformat : dev.formatTag = .ieeeFloat ∨ dev.formatTag = .extensible true)
    (hloud : p.silent = false) (h : s.collected ≤ wanted) :
    Keeps wanted (resample dev.deviceSampleRate s.acc (dev.frames p)).1 s
      (dev.takePacket p wanted s) ∧
    (dev.takePacket p wanted s).acc = (resample dev.deviceSampleRate s.acc (dev.frames p)).2 := by
  have hframes : dev.takePacket p wanted s =
      (dev.frames p).foldl (fun s v => appendSampleResample v dev.deviceSampleRate wanted s) s := by
    rw [takePacket, if_neg (by rw [hloud]; exact Bool.false_ne_true), frames, List.foldl_map]
    rcases hformat with hf | hf <;> rw [hf] <;> rfl
  rw [hframes]
  exact foldl_keeps _ _ h

lemma collect_cons (poll : Poll) (polls : List Poll) (s : Collecting) :
    dev.collect wanted (poll :: polls) s =
      if s.collected < wanted then
        match poll with
        | .sizeFailed => .failed s
        | .nothing => dev.collect wanted polls s
        | .bufferFailed => .failed s
        | .packet p releaseOk =>
          if releaseOk then dev.collect wanted polls (dev.takePacket p wanted s)
          else .failed (dev.takePacket p wanted s)
      else .done (s.pushZeros wanted (wanted - s.collected)) (poll :: polls) := rfl

/-- The loop takes whole packets until they emit what is missing, and keeps what fits. -/
lemma collect_draws (hfloats : Floats dev polls) (hs : s.collected ≤ wanted)
    (h : dev.collect wanted polls s = .done s' polls') :
    Floats dev polls' ∧ ∃ taken, draw (wanted - s.collected) (dev.blocks s.acc polls) =
        some (taken, dev.blocks s'.acc polls') ∧
      s'.out = s.out ++ taken.take (wanted - s.collected) := by
  induction polls generalizing s with
  | nil =>
    rw [collect] at h
    split_ifs at h with hfull
    cases h
    rw [show wanted - s.collected = 0 by omega]
    exact ⟨hfloats, [], rfl, (List.append_nil _).symm⟩
  | cons poll polls ih =>
    rw [collect_cons] at h
    split_ifs at h with hfull
    · cases poll with
      | sizeFailed => cases h
      | bufferFailed => cases h
      | nothing => exact ih hfloats.tail hs h
      | packet p ok =>
        cases ok with
        | false => cases h
        | true =>
          obtain ⟨hkeeps, hacc⟩ := takePacket_keeps hfloats.format
            (hfloats.loud p true List.mem_cons_self) hs
          have hcollected := hkeeps.collected
          obtain ⟨hrest, taken, hdraw, hout⟩ := ih hfloats.tail
            (by rw [hcollected]; exact min_le_left _ _) h
          obtain ⟨n, hn⟩ := Nat.exists_eq_succ_of_ne_zero (show wanted - s.collected ≠ 0 by omega)
          rw [hacc, show wanted - (dev.takePacket p wanted s).collected =
            wanted - s.collected - (resample dev.deviceSampleRate s.acc (dev.frames p)).1.length by
              omega] at hdraw
          refine ⟨hrest, (resample dev.deviceSampleRate s.acc (dev.frames p)).1 ++ taken, ?_, ?_⟩
          · rw [blocks, hn, draw, ← Nat.succ_eq_add_one, ← hn, hdraw]
            rfl
          · rw [hout, hkeeps.out, List.append_assoc, List.take_append]
            congr 3
            omega
    · cases h
      rw [show wanted - s.collected = 0 by omega]
      exact ⟨hfloats, [], draw_zero _, (List.append_nil _).symm⟩

lemma gets_reads {mss : List ℤ} {outs : List (List ℚ)} (hfloats : Floats dev polls)
    (h : dev.gets mss polls acc = some outs) :
    reads (mss.map wantedFrames) (dev.blocks acc polls) = some outs := by
  induction mss generalizing polls acc outs with
  | nil =>
    cases h
    rfl
  | cons ms mss ih =>
    rw [gets] at h
    cases hget : dev.get ms polls acc with
    | failed s =>
      rw [hget] at h
      cases h
    | waiting s =>
      rw [hget] at h
      cases h
    | done s' polls' =>
      rw [hget] at h
      obtain ⟨outs', houts, rfl⟩ := Option.map_eq_some_iff.mp h
      obtain ⟨hfloats', taken, hdraw, hout⟩ := collect_draws hfloats (Nat.zero_le _) hget
      change draw (wantedFrames ms) (dev.blocks acc polls) = _ at hdraw
      rw [List.map_cons, reads, hdraw]
      simp only [ih hfloats' houts, Option.map_some]
      rw [hout]
      rfl

/-- Consecutive successful calls fill their buffers with a prefix of the resampled stream, where
no call is full before the resampler has emitted the last sample of a packet and a call after it
asks for samples; and only there, if the samples of the stream are all different. -/
theorem gets_continuous (hfloats : Floats dev polls) {mss : List ℤ} {outs : List (List ℚ)}
    (h : dev.gets mss polls acc = some outs) :
    (Aligned (mss.map wantedFrames) (dev.blocks acc polls) →
      outs.flatten <+: (resample dev.deviceSampleRate acc (dev.allFrames polls)).1) ∧
    ((resample dev.deviceSampleRate acc (dev.allFrames polls)).1.Nodup →
      (outs.flatten <+: (resample dev.deviceSampleRate acc (dev.allFrames polls)).1 ↔
        Aligned (mss.map wantedFrames) (dev.blocks acc polls))) := by
  have hreads := gets_reads hfloats h
  rw [← blocks_flatten]
  exact ⟨reads_of_aligned hreads, fun hnodup =>
    ⟨aligned_of_reads hreads hnodup, reads_of_aligned hreads⟩⟩

/-- A device with one channel of floats. -/
def mono (rate : ℕ) : WasapiLoopback := ⟨rate, 1, .ieeeFloat, 4⟩

/-- A packet of `n` different samples. -/
def ramp (first n : ℕ) : Poll := .packet ⟨n, false, fun i => first + i, fun _ => 0⟩ true

/-- Two calls for 16 samples, from packets that end where the calls do. -/
theorem ramp_continuous : ∃ outs,
    (mono 32000).gets [1, 1] [ramp 0 20, .nothing, ramp 20 12, ramp 32 32] 0 = some outs ∧
    outs.flatten.length = 32 ∧
    outs.flatten <+: (resample 32000 0
      ((mono 32000).allFrames [ramp 0 20, .nothing, ramp 20 12, ramp 32 32])).1 := by
  have hfloats : Floats (mono 32000) [ramp 0 20, .nothing, ramp 20 12, ramp 32 32] := by
    refine ⟨Or.inl rfl, fun p ok hp => ?_⟩
    simp only [ramp, List.mem_cons, Poll.packet.injEq, reduceCtorEq, List.not_mem_nil, or_false,
      false_or] at hp
    rcases hp with ⟨rfl, -⟩ | ⟨rfl, -⟩ | ⟨rfl, -⟩ <;> rfl
  obtain ⟨outs, houts, hlen⟩ : ∃ outs,
      (mono 32000).gets [1, 1] [ramp 0 20, .nothing, ramp 20 12, ramp 32 32] 0 = some outs ∧
      outs.flatten.length = 32 := by
    have hsome : ((mono 32000).gets [1, 1] [ramp 0 20, .nothing, ramp 20 12, ramp 32 32] 0).map
      (fun outs => outs.flatten.length) = some 32 := by decide +kernel
    exact Option.map_eq_some_iff.mp hsome
  exact ⟨outs, houts, hlen, (gets_continuous hfloats houts).1 (by decide +kernel)⟩

/-- The 17th sample of the first packet is lost between two calls for 16 samples. -/
theorem ramp_loses : ∃ outs,
    (mono 32000).gets [1, 1] [ramp 0 34, ramp 34 34] 0 = some outs ∧
    (resample 32000 0 ((mono 32000).allFrames [ramp 0 34, ramp 34 34])).1[16]? = some 33 ∧
    outs.flatten[16]? = some 35 ∧
    ¬outs.flatten <+: (resample 32000 0 ((mono 32000).allFrames [ramp 0 34, ramp 34 34])).1 := by
  obtain ⟨outs, houts, hat⟩ : ∃ outs,
      (mono 32000).gets [1, 1] [ramp 0 34, ramp 34 34] 0 = some outs ∧
      outs.flatten[16]? = some 35 := by
    have hsome : ((mono 32000).gets [1, 1] [ramp 0 34, ramp 34 34] 0).map
      (fun outs => outs.flatten[16]?) = some (some 35) := by decide +kernel
    exact Option.map_eq_some_iff.mp hsome
  have hstream : (resample 32000 0 ((mono 32000).allFrames [ramp 0 34, ramp 34 34])).1[16]? =
      some 33 := by decide +kernel
  refine ⟨outs, houts, hstream, hat, ?_⟩
  rintro ⟨rest, hrest⟩
  obtain ⟨hlt, -⟩ := List.getElem?_eq_some_iff.mp hat
  rw [← hrest, List.getElem?_append_left hlt, hat] at hstream
  exact absurd hstream (by decide +kernel)

/-! ### Packets of different kinds -/

/-- Every packet of `n` frames contributes the same number of samples to the chunk, and leaves the
same accumulator: silent or not, and whatever the format of the device. -/
def Uniform (rate n wanted : ℕ) (s : Collecting) : Prop :=
  ∀ (dev dev' : WasapiLoopback) (p p' : Packet), dev.deviceSampleRate = rate →
    dev'.deviceSampleRate = rate → p.framesAvailable = n → p'.framesAvailable = n →
    (dev.takePacket p wanted s).out.length = (dev'.takePacket p' wanted s).out.length ∧
    (dev.takePacket p wanted s).acc = (dev'.takePacket p' wanted s).acc

variable {rate n : ℕ}

lemma pushZeros_length (wanted n : ℕ) (s : Collecting) :
    (s.pushZeros wanted n).out.length = s.out.length + min (wanted - s.collected) n ∧
    (s.pushZeros wanted n).acc = s.acc := by
  induction n generalizing s with
  | zero => exact ⟨by rw [Nat.min_zero]; rfl, rfl⟩
  | succ n ih =>
    rw [Collecting.pushZeros]
    split_ifs with hlt
    · have hnext := ih (s.pushBack 0)
      refine ⟨?_, hnext.2⟩
      rw [hnext.1, Collecting.pushBack, List.length_append, List.length_singleton]
      simp only
      omega
    · refine ⟨?_, rfl⟩
      omega

lemma foldl_length (rate : ℕ) (vs : List ℚ) (h : s.collected ≤ wanted) :
    (vs.foldl (fun s v => appendSampleResample v rate wanted s) s).out.length =
      s.out.length + min (wanted - s.collected) (resample rate s.acc vs).1.length ∧
    (vs.foldl (fun s v => appendSampleResample v rate wanted s) s).acc =
      (resample rate s.acc vs).2 := by
  obtain ⟨hkeeps, hacc⟩ := foldl_keeps rate vs h
  refine ⟨?_, hacc⟩
  rw [hkeeps.out, List.length_append, List.length_take]

lemma resample_same (vs : List ℚ) (acc : ℚ) : resample whisperSampleRate acc vs = (vs, acc) := by
  induction vs with
  | nil => rfl
  | cons v vs ih => simp only [resample, tick, if_true, ih]

lemma resample_acc (hrate : rate ≠ whisperSampleRate) (vs : List ℚ) (acc : ℚ) :
    (resample rate acc vs).2 =
      acc + vs.length * (1 / ratio rate) - (resample rate acc vs).1.length := by
  induction vs generalizing acc with
  | nil => simp [resample]
  | cons v vs ih =>
    simp only [resample, tick, if_neg hrate]
    by_cases hacc : 1 ≤ acc + 1 / ratio rate
    · simp only [if_pos hacc, ih, if_true, List.length_cons]
      push_cast
      ring
    · simp only [if_neg hacc, ih, if_neg Bool.false_ne_true, List.length_cons]
      push_cast
      ring

lemma resample_nonneg (hrate : rate ≠ whisperSampleRate) (vs : List ℚ) (acc : ℚ)
    (h : 0 ≤ acc ∨ 0 < (resample rate acc vs).1.length) : 0 ≤ (resample rate acc vs).2 := by
  have hstep : 0 ≤ 1 / ratio rate := by
    rw [ratio]
    positivity
  induction vs generalizing acc with
  | nil => exact h.resolve_right (lt_irrefl 0)
  | cons v vs ih =>
    simp only [resample, tick, if_neg hrate] at h ⊢
    by_cases hacc : 1 ≤ acc + 1 / ratio rate
    · simp only [if_pos hacc]
      exact ih _ (Or.inl (by linarith))
    · simp only [if_neg hacc, if_neg Bool.false_ne_true] at h ⊢
      exact ih _ (h.imp_left (fun h => by linarith))

lemma tick_lt (hrate : whisperSampleRate < rate) (acc : ℚ) : (tick rate acc).2 < max acc 1 := by
  have hstep : 1 / ratio rate < 1 := by
    have hone : 1 < ratio rate := by
      rw [ratio, one_lt_div (by norm_num [whisperSampleRate])]
      exact_mod_cast hrate
    rwa [div_lt_one (by linarith)]
  rw [tick, if_neg (by omega)]
  by_cases hacc : 1 ≤ acc + 1 / ratio rate
  · simp only [if_pos hacc]
    exact lt_max_of_lt_left (by linarith)
  · simp only [if_neg hacc]
    exact lt_max_of_lt_right (by linarith)

lemma resample_lt (hrate : whisperSampleRate < rate) (v : ℚ) (vs : List ℚ) (acc : ℚ) :
    (resample rate acc (v :: vs)).2 < max acc 1 := by
  induction vs generalizing v acc with
  | nil => exact tick_lt hrate acc
  | cons w vs ih =>
    exact (ih w (tick rate acc).2).trans_le (max_le (tick_lt hrate acc).le (le_max_right _ _))

lemma takePacket_cases (dev : WasapiLoopback) (p : Packet) (wanted : ℕ) (s : Collecting) :
    dev.takePacket p wanted s = s.pushZeros wanted p.framesAvailable ∨
    ∃ vs : List ℚ, vs.length = p.framesAvailable ∧ dev.takePacket p wanted s =
      vs.foldl (fun s v => appendSampleResample v dev.deviceSampleRate wanted s) s := by
  have hframes : ∀ src, dev.appendFrames src p.framesAvailable wanted s =
      ((List.range p.framesAvailable).map (dev.downmix src)).foldl
        (fun s v => appendSampleResample v dev.deviceSampleRate wanted s) s := by
    intro src
    rw [List.foldl_map]
    rfl
  have hlen : ∀ src, ((List.range p.framesAvailable).map (dev.downmix src)).length =
      p.framesAvailable := fun src => by rw [List.length_map, List.length_range]
  cases hsilent : p.silent with
  | true => exact Or.inl (by rw [takePacket, if_pos hsilent])
  | false =>
    rw [takePacket, if_neg (by rw [hsilent]; exact Bool.false_ne_true)]
    cases dev.formatTag with
    | ieeeFloat => exact Or.inr ⟨_, hlen _, hframes _⟩
    | extensible subFormatFloat =>
      cases subFormatFloat with
      | true => exact Or.inr ⟨_, hlen _, hframes _⟩
      | false => exact Or.inl rfl
    | pcm =>
      by_cases hbytes : dev.bytesPerSample = 2
      · simp only [if_pos hbytes]
        exact Or.inr ⟨_, hlen _, hframes _⟩
      · simp only [if_neg hbytes]
        exact Or.inl trivial
    | other => exact Or.inl rfl

/-- A packet that is resampled to `k` samples exactly, each of which, like each frame, the chunk has
no more room for: both ways the packet fills the chunk, and the accumulator is back where it was. -/
def Filled (rate n room : ℕ) (acc : ℚ) : Prop :=
  0 ≤ acc ∧ acc < 1 ∧ ∃ k, n * whisperSampleRate = k * rate ∧ room ≤ k ∧ k ≤ n

lemma resample_whole {k : ℕ} {vs : List ℚ} {acc : ℚ} (hrate : whisperSampleRate < rate)
    (h0 : 0 ≤ acc) (h1 : acc < 1) (hk : vs.length * whisperSampleRate = k * rate) :
    (resample rate acc vs).1.length = k ∧ (resample rate acc vs).2 = acc := by
  have hacc := resample_acc hrate.ne' vs acc
  have hlow := resample_nonneg hrate.ne' vs acc (Or.inl h0)
  have hhigh : (resample rate acc vs).2 < 1 := by
    cases vs with
    | nil => exact h1
    | cons v vs => exact (resample_lt hrate v vs acc).trans_le (max_le h1.le le_rfl)
  have hworth : (vs.length : ℚ) * (1 / ratio rate) = k := by
    have hpos : (0 : ℚ) < rate := Nat.cast_pos.mpr (Nat.zero_lt_of_lt hrate)
    rw [ratio, one_div_div, mul_div_assoc', div_eq_iff hpos.ne']
    exact_mod_cast hk
  rw [hworth] at hacc
  have hlen : (resample rate acc vs).1.length = k := by
    have hlt : (k : ℚ) < (resample rate acc vs).1.length + 1 := by linarith
    have hgt : ((resample rate acc vs).1.length : ℚ) < k + 1 := by linarith
    have hlt' : k < (resample rate acc vs).1.length + 1 := by exact_mod_cast hlt
    have hgt' : (resample rate acc vs).1.length < k + 1 := by exact_mod_cast hgt
    omega
  refine ⟨hlen, ?_⟩
  rw [hacc, hlen]
  ring

lemma filled_of_same {room : ℕ} {vs : List ℚ} {acc : ℚ} (hrate : rate ≠ whisperSampleRate)
    (hvs : vs ≠ []) (hroom : 0 < room)
    (hlen : min room vs.length = min room (resample rate acc vs).1.length)
    (hacc : (resample rate acc vs).2 = acc) : Filled rate vs.length room acc := by
  have hle := resample_length_le rate vs acc
  have hpos := List.length_pos_of_ne_nil hvs
  have hemits : 0 < (resample rate acc vs).1.length := by omega
  have hworth : (vs.length : ℚ) * (1 / ratio rate) = (resample rate acc vs).1.length := by
    have hafter := resample_acc hrate vs acc
    linarith
  have hrate0 : (rate : ℚ) ≠ 0 := by
    intro hzero
    rw [ratio, hzero, zero_div, div_zero, mul_zero] at hworth
    exact absurd (Nat.cast_eq_zero.mp hworth.symm) (by omega)
  have hk : vs.length * whisperSampleRate = (resample rate acc vs).1.length * rate := by
    rw [ratio, one_div_div, mul_div_assoc', div_eq_iff hrate0] at hworth
    exact_mod_cast hworth
  have hlt : (resample rate acc vs).1.length < vs.length := by
    refine lt_of_le_of_ne hle (fun heq => hrate ?_)
    rw [heq] at hk
    exact (Nat.eq_of_mul_eq_mul_left hpos hk).symm
  have hhigher : whisperSampleRate < rate := by
    by_contra hnot
    have hless : (resample rate acc vs).1.length * whisperSampleRate <
        vs.length * whisperSampleRate := Nat.mul_lt_mul_of_pos_right hlt (by decide)
    have hmore := Nat.mul_le_mul_left (resample rate acc vs).1.length
      (show rate ≤ whisperSampleRate by omega)
    omega
  refine ⟨?_, ?_, _, hk, by omega, hle⟩
  · rw [← hacc]
    exact resample_nonneg hrate vs acc (Or.inr hemits)
  · obtain ⟨v, ws, rfl⟩ := List.exists_cons_of_ne_nil hvs
    have hless := resample_lt hhigher v ws acc
    rw [hacc] at hless
    exact (lt_max_iff.mp hless).resolve_left (lt_irrefl acc)

/-- While the chunk is not full the kind of a packet makes no difference exactly when the device
has the sample rate of the output, or the packet has no frames, or it fills the chunk both ways. -/
theorem uniform_iff (h : s.collected < wanted) : Uniform rate n wanted s ↔
    rate = whisperSampleRate ∨ n = 0 ∨ Filled rate n (wanted - s.collected) s.acc := by
  constructor
  · intro huniform
    by_contra hnot
    obtain ⟨hrate, hnot⟩ := not_or.mp hnot
    obtain ⟨hn, hfilled⟩ := not_or.mp hnot
    obtain ⟨hlen, hacc⟩ := huniform (mono rate) (mono rate) ⟨n, true, fun _ => 0, fun _ => 0⟩
      ⟨n, false, fun _ => 0, fun _ => 0⟩ rfl rfl rfl rfl
    have hsilent : (mono rate).takePacket ⟨n, true, fun _ => 0, fun _ => 0⟩ wanted s =
        s.pushZeros wanted n := rfl
    obtain ⟨hzeros, hkept⟩ := pushZeros_length wanted n s
    obtain ⟨vs, hvs, hfold⟩ : ∃ vs : List ℚ, vs.length = n ∧
        (mono rate).takePacket ⟨n, false, fun _ => 0, fun _ => 0⟩ wanted s =
          vs.foldl (fun s v => appendSampleResample v rate wanted s) s := by
      refine ⟨(mono rate).frames ⟨n, false, fun _ => 0, fun _ => 0⟩, ?_, ?_⟩
      · rw [frames, List.length_map, List.length_range]
      · rw [frames, List.foldl_map]
        rfl
    obtain ⟨hemitted, hafter⟩ := foldl_length rate vs h.le
    rw [hsilent, hfold, hemitted, hzeros] at hlen
    rw [hsilent, hfold, hafter, hkept] at hacc
    refine hfilled ?_
    rw [← hvs]
    refine filled_of_same hrate (fun hnil => hn ?_) (by omega) (by rw [hvs]; omega) hacc.symm
    rw [← hvs, hnil, List.length_nil]
  · intro hcase dev dev' p p' hd hd' hp hp'
    have hone : ∀ (d : WasapiLoopback) (q : Packet), d.deviceSampleRate = rate →
        q.framesAvailable = n → (d.takePacket q wanted s).out.length =
          s.out.length + min (wanted - s.collected) n ∧ (d.takePacket q wanted s).acc = s.acc := by
      intro d q hdr hq
      rcases takePacket_cases d q wanted s with hz | ⟨vs, hvs, hf⟩
      · rw [hz, hq]
        exact pushZeros_length _ _ _
      · obtain ⟨hlen, hacc⟩ := foldl_length rate vs h.le
        rw [hf, hdr, hlen, hacc]
        by_cases hrate : rate = whisperSampleRate
        · rw [hrate, resample_same, hvs, hq]
          exact ⟨rfl, rfl⟩
        · rcases hcase with hr | hn | ⟨h0, h1, k, hk, hroom, hkn⟩
          · exact absurd hr hrate
          · rw [List.length_eq_zero_iff.mp (hvs.trans (hq.trans hn)), hn]
            exact ⟨rfl, rfl⟩
          · have hhigher : whisperSampleRate < rate ∨ n = 0 := by
              by_contra hnot
              obtain ⟨hle, hn⟩ := not_or.mp hnot
              have hmul := Nat.mul_le_mul_right rate hkn
              have hless := Nat.mul_lt_mul_of_pos_left
                (show rate < whisperSampleRate by omega) (Nat.pos_of_ne_zero hn)
              omega
            rcases hhigher with hhigher | hn
            · obtain ⟨hwhole, hback⟩ := resample_whole hhigher h0 h1
                (show vs.length * whisperSampleRate = k * rate by rw [hvs, hq, hk])
              rw [hwhole, hback]
              exact ⟨by omega, rfl⟩
            · rw [List.length_eq_zero_iff.mp (hvs.trans (hq.trans hn)), hn]
              exact ⟨rfl, rfl⟩
    obtain ⟨hlen, hacc⟩ := hone dev p hd hp
    obtain ⟨hlen', hacc'⟩ := hone dev' p' hd' hp'
    exact ⟨hlen.trans hlen'.symm, hacc.trans hacc'.symm⟩

theorem uniform_at_output_rate : (⟨1 / 2, [], 0⟩ : Collecting).collected < 16 ∧
    Uniform 16000 10 16 ⟨1 / 2, [], 0⟩ :=
  ⟨by decide, (uniform_iff (by decide)).mpr (Or.inl rfl)⟩

/-- At 48 kHz three silent frames take as long as nine frames of sound. -/
theorem silence_takes_longer :
    ((mono 48000).takePacket ⟨3, true, fun _ => 0, fun _ => 0⟩ 16 ⟨0, [], 0⟩).out = [0, 0, 0] ∧
    ((mono 48000).takePacket ⟨3, false, fun _ => 0, fun _ => 0⟩ 16 ⟨0, [], 0⟩).out = [0] ∧
    ¬Uniform 48000 3 16 ⟨0, [], 0⟩ := by
  have hsilent : ((mono 48000).takePacket ⟨3, true, fun _ => 0, fun _ => 0⟩ 16 ⟨0, [], 0⟩).out =
      [0, 0, 0] := by decide +kernel
  have hloud : ((mono 48000).takePacket ⟨3, false, fun _ => 0, fun _ => 0⟩ 16 ⟨0, [], 0⟩).out =
      [0] := by decide +kernel
  refine ⟨hsilent, hloud, fun h => ?_⟩
  have hlen := (h (mono 48000) (mono 48000) ⟨3, true, fun _ => 0, fun _ => 0⟩
    ⟨3, false, fun _ => 0, fun _ => 0⟩ rfl rfl rfl rfl).1
  rw [hsilent, hloud] at hlen
  cases hlen

end WasapiLoopback

end Voxory
