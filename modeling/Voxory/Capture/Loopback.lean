import Voxory.Blocks
import Mathlib.Data.Rat.Defs

/-!
# Loopback capture

`WasapiLoopback::get` of `main.cpp` with its resampler, over exact rationals. The audio client is
a list of what it answers to the polls of the loop; an interleaved frame is read from the packet's
data as floats or as 16-bit integers.
-/

namespace Voxory

/-- `WHISPER_SAMPLE_RATE` -/
def whisperSampleRate : ℕ := 16000

/-- The tag of a `WAVEFORMATEX`, with the subformat where it is extensible. -/
inductive FormatTag where
  | ieeeFloat
  | extensible (subFormatFloat : Bool)
  | pcm
  | other
  deriving DecidableEq

/-- What `init` stores about the device. -/
structure WasapiLoopback where
  deviceSampleRate : ℕ
  channels : ℕ
  formatTag : FormatTag
  bytesPerSample : ℕ

/-- A packet of captured frames, with its data seen through the casts of the two branches. -/
structure Packet where
  framesAvailable : ℕ
  silent : Bool
  floats : ℕ → ℚ
  ints : ℕ → ℤ

/-- What a round of the loop finds: a call that fails, no packet yet, or a packet. -/
inductive Poll where
  | sizeFailed
  | nothing
  | bufferFailed
  | packet (p : Packet) (releaseOk : Bool)

/-- The static accumulator, and the chunk that is being collected. -/
structure Collecting where
  acc : ℚ
  out : List ℚ
  collected : ℕ

/-- How a call of `get` ends; with `waiting` it goes on waiting for packets. -/
inductive Got where
  | done (s : Collecting) (polls : List Poll)
  | failed (s : Collecting)
  | waiting (s : Collecting)

namespace Collecting

def pushBack (s : Collecting) (sample : ℚ) : Collecting :=
  { s with out := s.out ++ [sample], collected := s.collected + 1 }

/-- `if (collected < wanted_frames) { out.push_back(sample); ++collected; }` -/
def pushWanted (s : Collecting) (sample : ℚ) (wantedFrames : ℕ) : Collecting :=
  if s.collected < wantedFrames then s.pushBack sample else s

/-- A loop over `n` frames that pushes zeros while the chunk is not full. -/
def pushZeros (s : Collecting) (wantedFrames : ℕ) : ℕ → Collecting
  | 0 => s
  | n + 1 => if s.collected < wantedFrames then pushZeros (s.pushBack 0) wantedFrames n else s

end Collecting

namespace WasapiLoopback

/-- `dev_rate / WHISPER_SAMPLE_RATE` -/
def ratio (devRate : ℕ) : ℚ := devRate / whisperSampleRate

def appendSampleResample (sample : ℚ) (devRate wantedFrames : ℕ) (s : Collecting) : Collecting :=
  if devRate = whisperSampleRate then s.pushWanted sample wantedFrames
  else
    let acc := s.acc + 1 / ratio devRate
    if 1 ≤ acc then { s.pushWanted sample wantedFrames with acc := acc - 1 }
    else { s with acc := acc }

/-- `(uint32_t)((int64_t)ms * WHISPER_SAMPLE_RATE / 1000)` -/
def wantedFrames (ms : ℤ) : ℕ := ((ms * whisperSampleRate).tdiv 1000 % 2 ^ 32).toNat

/-- The mean of the channels of frame `f`. -/
def downmix (dev : WasapiLoopback) (src : ℕ → ℚ) (f : ℕ) : ℚ :=
  (List.range dev.channels).foldl (fun sample c => sample + src (f * dev.channels + c)) 0 /
    dev.channels

/-- The frame loops of the branches that know the format. -/
def appendFrames (dev : WasapiLoopback) (src : ℕ → ℚ) (framesAvailable wantedFrames : ℕ)
    (s : Collecting) : Collecting :=
  (List.range framesAvailable).foldl
    (fun s f => appendSampleResample (dev.downmix src f) dev.deviceSampleRate wantedFrames s) s

/-- The branches of the loop for one packet. -/
def takePacket (dev : WasapiLoopback) (p : Packet) (wantedFrames : ℕ) (s : Collecting) :
    Collecting :=
  if p.silent then s.pushZeros wantedFrames p.framesAvailable
  else
    match dev.formatTag with
    | .ieeeFloat | .extensible true => dev.appendFrames p.floats p.framesAvailable wantedFrames s
    | .pcm =>
      if dev.bytesPerSample = 2 then
        dev.appendFrames (fun i => (p.ints i : ℚ) / 32768) p.framesAvailable wantedFrames s
      else s.pushZeros wantedFrames p.framesAvailable
    | .extensible false | .other => s.pushZeros wantedFrames p.framesAvailable

/-- The loop of `get`, which looks for packets until the chunk is full. -/
def collect (dev : WasapiLoopback) (wantedFrames : ℕ) : List Poll → Collecting → Got
  | [], s =>
    if s.collected < wantedFrames then .waiting s
    else .done (s.pushZeros wantedFrames (wantedFrames - s.collected)) []
  | poll :: polls, s =>
    if s.collected < wantedFrames then
      match poll with
      | .sizeFailed => .failed s
      | .nothing => collect dev wantedFrames polls s
      | .bufferFailed => .failed s
      | .packet p releaseOk =>
        if releaseOk then collect dev wantedFrames polls (dev.takePacket p wantedFrames s)
        else .failed (dev.takePacket p wantedFrames s)
    else .done (s.pushZeros wantedFrames (wantedFrames - s.collected)) (poll :: polls)

/-- `get`, with the value that the accumulator has kept from the calls before. -/
def get (dev : WasapiLoopback) (ms : ℤ) (polls : List Poll) (acc : ℚ) : Got :=
  collect dev (wantedFrames ms) polls ⟨acc, [], 0⟩

/-- The buffers filled by consecutive calls, if all of them are successful. -/
def gets (dev : WasapiLoopback) : List ℤ → List Poll → ℚ → Option (List (List ℚ))
  | [], _, _ => some []
  | ms :: mss, polls, acc =>
    match dev.get ms polls acc with
    | .done s polls' => (dev.gets mss polls' s.acc).map (s.out :: ·)
    | .failed _ | .waiting _ => none

/-! ### The resampler -/

/-- One frame of the resampler: whether it emits a sample, and its accumulator. -/
def tick (devRate : ℕ) (acc : ℚ) : Bool × ℚ :=
  if devRate = whisperSampleRate then (true, acc)
  else
    let acc := acc + 1 / ratio devRate
    if 1 ≤ acc then (true, acc - 1) else (false, acc)

/-- The samples that the resampler emits for some frames, and its accumulator after them. -/
def resample (devRate : ℕ) : ℚ → List ℚ → List ℚ × ℚ
  | acc, [] => ([], acc)
  | acc, v :: vs =>
    let t := tick devRate acc
    let rest := resample devRate t.2 vs
    (if t.1 then v :: rest.1 else rest.1, rest.2)

variable {dev : WasapiLoopback} {s s' : Collecting} {polls polls' : List Poll} {rate wanted : ℕ}

lemma resample_append (vs ws : List ℚ) (acc : ℚ) : resample rate acc (vs ++ ws) =
    ((resample rate acc vs).1 ++ (resample rate (resample rate acc vs).2 ws).1,
      (resample rate (resample rate acc vs).2 ws).2) := by
  induction vs generalizing acc with
  | nil => rfl
  | cons v vs ih =>
    simp only [List.cons_append, resample, ih]
    split_ifs <;> rfl

lemma resample_length_le (rate : ℕ) (vs : List ℚ) (acc : ℚ) :
    (resample rate acc vs).1.length ≤ vs.length := by
  induction vs generalizing acc with
  | nil => exact le_rfl
  | cons v vs ih =>
    have hrest := ih (tick rate acc).2
    rw [resample, List.length_cons]
    split_ifs
    · exact Nat.succ_le_succ hrest
    · exact Nat.le_succ_of_le hrest

/-- A chunk keeps what fits of the samples `vs`. -/
structure Keeps (wanted : ℕ) (vs : List ℚ) (s s' : Collecting) : Prop where
  out : s'.out = s.out ++ vs.take (wanted - s.collected)
  collected : s'.collected = min wanted (s.collected + vs.length)

lemma Keeps.refl (h : s.collected ≤ wanted) : Keeps wanted [] s s :=
  ⟨by rw [List.take_nil, List.append_nil], by rw [List.length_nil]; omega⟩

lemma Keeps.trans {t : Collecting} {vs ws : List ℚ} (h : Keeps wanted vs s t)
    (h' : Keeps wanted ws t s') : Keeps wanted (vs ++ ws) s s' := by
  refine ⟨?_, ?_⟩
  · rw [h'.out, h.out, h.collected, List.take_append, List.append_assoc]
    congr 3
    omega
  · rw [h'.collected, h.collected, List.length_append]
    omega

lemma pushWanted_keeps (sample : ℚ) (h : s.collected ≤ wanted) :
    Keeps wanted [sample] s (s.pushWanted sample wanted) := by
  rw [Collecting.pushWanted]
  split_ifs with hlt
  · refine ⟨?_, ?_⟩
    · rw [List.take_of_length_le (by rw [List.length_singleton]; omega)]
      rfl
    · change s.collected + 1 = min wanted (s.collected + 1)
      omega
  · refine ⟨?_, ?_⟩
    · rw [show wanted - s.collected = 0 by omega, List.take_zero, List.append_nil]
    · rw [List.length_singleton]
      omega

lemma appendSampleResample_keeps (rate : ℕ) (sample : ℚ) (h : s.collected ≤ wanted) :
    Keeps wanted (if (tick rate s.acc).1 then [sample] else []) s
      (appendSampleResample sample rate wanted s) ∧
    (appendSampleResample sample rate wanted s).acc = (tick rate s.acc).2 := by
  have hpush := pushWanted_keeps sample h
  by_cases hrate : rate = whisperSampleRate
  · simp only [appendSampleResample, tick, if_pos hrate]
    refine ⟨hpush, ?_⟩
    rw [Collecting.pushWanted]
    split_ifs <;> rfl
  by_cases hacc : 1 ≤ s.acc + 1 / ratio rate
  · simp only [appendSampleResample, tick, if_neg hrate, if_pos hacc]
    exact ⟨⟨hpush.out, hpush.collected⟩, trivial⟩
  · have hrefl := Keeps.refl h
    simp only [appendSampleResample, tick, if_neg hrate, if_neg hacc, if_neg Bool.false_ne_true]
    exact ⟨⟨hrefl.out, hrefl.collected⟩, trivial⟩

lemma foldl_keeps (rate : ℕ) (vs : List ℚ) (h : s.collected ≤ wanted) :
    Keeps wanted (resample rate s.acc vs).1 s
      (vs.foldl (fun s v => appendSampleResample v rate wanted s) s) ∧
    (vs.foldl (fun s v => appendSampleResample v rate wanted s) s).acc =
      (resample rate s.acc vs).2 := by
  induction vs generalizing s with
  | nil => exact ⟨.refl h, rfl⟩
  | cons v vs ih =>
    obtain ⟨hkeeps, hacc⟩ := appendSampleResample_keeps rate v h
    obtain ⟨hrest, haccs⟩ := ih (s := appendSampleResample v rate wanted s)
      (by rw [hkeeps.collected]; exact min_le_left _ _)
    rw [hacc] at hrest haccs
    refine ⟨?_, haccs⟩
    have hall := hkeeps.trans hrest
    rw [resample]
    split_ifs at hall ⊢
    · exact hall
    · exact hall

end WasapiLoopback

end Voxory
