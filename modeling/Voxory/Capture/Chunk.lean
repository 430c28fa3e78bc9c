import Voxory.Capture.Loopback

/-!
# The chunk while it is collected

A trail is the list of the states in which the loops of `get` look at their conditions, in order;
the last of them is the one in which the function ends. Every push goes together with an increment
of `collected` and happens below `wanted_frames`, so that the two stay in step in all of them.
-/

namespace Voxory

namespace Collecting

def pushZerosTrail (s : Collecting) (wantedFrames : ℕ) : ℕ → List Collecting
  | 0 => [s]
  | n + 1 => s ::
    if s.collected < wantedFrames then pushZerosTrail (s.pushBack 0) wantedFrames n else []

end Collecting

/-- The state in which a call ends, or waits. -/
def Got.state : Got → Collecting
  | .done s _ | .failed s | .waiting s => s

namespace WasapiLoopback

/-- The chunk has as many samples as `collected` says, and no more than are wanted. -/
structure InStep (wanted : ℕ) (s : Collecting) : Prop where
  length : s.out.length = s.collected
  le : s.collected ≤ wanted

/-- The states of a frame loop over the frames `fs`. -/
def framesTrail (dev : WasapiLoopback) (src : ℕ → ℚ) (wantedFrames : ℕ) :
    List ℕ → Collecting → List Collecting
  | [], s => [s]
  | f :: fs, s => s :: dev.framesTrail src wantedFrames fs
      (appendSampleResample (dev.downmix src f) dev.deviceSampleRate wantedFrames s)

def appendFramesTrail (dev : WasapiLoopback) (src : ℕ → ℚ) (framesAvailable wantedFrames : ℕ)
    (s : Collecting) : List Collecting :=
  dev.framesTrail src wantedFrames (List.range framesAvailable) s

def takePacketTrail (dev : WasapiLoopback) (p : Packet) (wantedFrames : ℕ) (s : Collecting) :
    List Collecting :=
  if p.silent then s.pushZerosTrail wantedFrames p.framesAvailable
  else
    match dev.formatTag with
    | .ieeeFloat | .extensible true =>
      dev.appendFramesTrail p.floats p.framesAvailable wantedFrames s
    | .pcm =>
      if dev.bytesPerSample = 2 then
        dev.appendFramesTrail (fun i => (p.ints i : ℚ) / 32768) p.framesAvailable wantedFrames s
      else s.pushZerosTrail wantedFrames p.framesAvailable
    | .extensible false | .other => s.pushZerosTrail wantedFrames p.framesAvailable

def collectTrail (dev : WasapiLoopback) (wantedFrames : ℕ) :
    List Poll → Collecting → List Collecting
  | [], s => s ::
    if s.collected < wantedFrames then []
    else s.pushZerosTrail wantedFrames (wantedFrames - s.collected)
  | poll :: polls, s => s ::
    if s.collected < wantedFrames then
      match poll with
      | .sizeFailed | .bufferFailed => []
      | .nothing => dev.collectTrail wantedFrames polls s
      | .packet p releaseOk =>
        dev.takePacketTrail p wantedFrames s ++
          if releaseOk then dev.collectTrail wantedFrames polls (dev.takePacket p wantedFrames s)
          else []
    else s.pushZerosTrail wantedFrames (wantedFrames - s.collected)

/-- The states of a whole call. -/
def getTrail (dev : WasapiLoopback) (ms : ℤ) (polls : List Poll) (acc : ℚ) : List Collecting :=
  dev.collectTrail (wantedFrames ms) polls ⟨acc, [], 0⟩

variable {dev : WasapiLoopback} {s s' t : Collecting} {polls polls' : List Poll}
  {wanted n rate : ℕ} {ms : ℤ} {acc : ℚ}

/-! ### Where the trails end -/

lemma pushZerosTrail_last (wanted n : ℕ) (s : Collecting) :
    (s.pushZerosTrail wanted n).getLast? = some (s.pushZeros wanted n) := by
  induction n generalizing s with
  | zero => rfl
  | succ n ih =>
    unfold Collecting.pushZerosTrail Collecting.pushZeros
    split_ifs
    · rw [List.getLast?_cons, ih]
      rfl
    · rfl

lemma framesTrail_last (dev : WasapiLoopback) (src : ℕ → ℚ) (wanted : ℕ) (fs : List ℕ)
    (s : Collecting) : (dev.framesTrail src wanted fs s).getLast? = some (fs.foldl
      (fun s f => appendSampleResample (dev.downmix src f) dev.deviceSampleRate wanted s) s) := by
  induction fs generalizing s with
  | nil => rfl
  | cons f fs ih =>
    unfold framesTrail
    rw [List.getLast?_cons, ih]
    rfl

/-- The branches for one packet come down to two loops. -/
lemma takePacketTrail_cases (dev : WasapiLoopback) (p : Packet) (wanted : ℕ) (s : Collecting) :
    (dev.takePacketTrail p wanted s = s.pushZerosTrail wanted p.framesAvailable ∧
      dev.takePacket p wanted s = s.pushZeros wanted p.framesAvailable) ∨
    ∃ src, dev.takePacketTrail p wanted s = dev.appendFramesTrail src p.framesAvailable wanted s ∧
      dev.takePacket p wanted s = dev.appendFrames src p.framesAvailable wanted s := by
  unfold takePacketTrail takePacket
  by_cases hsilent : p.silent = true
  · rw [if_pos hsilent, if_pos hsilent]
    exact Or.inl ⟨rfl, rfl⟩
  · rw [if_neg hsilent, if_neg hsilent]
    cases dev.formatTag with
    | ieeeFloat => exact Or.inr ⟨_, rfl, rfl⟩
    | extensible subFormatFloat =>
      cases subFormatFloat with
      | true => exact Or.inr ⟨_, rfl, rfl⟩
      | false => exact Or.inl ⟨rfl, rfl⟩
    | pcm =>
      by_cases hbytes : dev.bytesPerSample = 2
      · simp only [if_pos hbytes]
        exact Or.inr ⟨_, rfl, rfl⟩
      · simp only [if_neg hbytes]
        exact Or.inl ⟨trivial, trivial⟩
    | other => exact Or.inl ⟨rfl, rfl⟩

lemma takePacketTrail_last (dev : WasapiLoopback) (p : Packet) (wanted : ℕ) (s : Collecting) :
    (dev.takePacketTrail p wanted s).getLast? = some (dev.takePacket p wanted s) := by
  rcases takePacketTrail_cases dev p wanted s with ⟨htrail, htake⟩ | ⟨src, htrail, htake⟩
  · rw [htrail, htake]
    exact pushZerosTrail_last _ _ _
  · rw [htrail, htake]
    exact framesTrail_last _ _ _ _ _

lemma collectTrail_last (dev : WasapiLoopback) (wanted : ℕ) (polls : List Poll) (s : Collecting) :
    (dev.collectTrail wanted polls s).getLast? = some (dev.collect wanted polls s).state := by
  induction polls generalizing s with
  | nil =>
    unfold collectTrail collect
    split_ifs
    · rfl
    · rw [List.getLast?_cons, pushZerosTrail_last]
      rfl
  | cons poll polls ih =>
    unfold collectTrail collect
    split_ifs
    · cases poll with
      | sizeFailed => rfl
      | bufferFailed => rfl
      | nothing =>
        simp only [List.getLast?_cons, ih, Option.getD_some]
      | packet p ok =>
        cases ok with
        | false =>
          simp only [List.getLast?_cons, Bool.false_eq_true, if_false, List.append_nil,
            takePacketTrail_last, Option.getD_some, Got.state]
        | true =>
          simp only [List.getLast?_cons, if_true, List.getLast?_append, ih, Option.some_or,
            Option.getD_some]
    · rw [List.getLast?_cons, pushZerosTrail_last]
      rfl

/-! ### One step of each loop -/

lemma InStep.pushBack (h : InStep wanted s) (hlt : s.collected < wanted) (sample : ℚ) :
    InStep wanted (s.pushBack sample) where
  length := by
    unfold Collecting.pushBack
    rw [List.length_append, h.length, List.length_singleton]
  le := hlt

lemma InStep.pushWanted (h : InStep wanted s) (sample : ℚ) :
    InStep wanted (s.pushWanted sample wanted) := by
  unfold Collecting.pushWanted
  split_ifs with hlt
  · exact h.pushBack hlt sample
  · exact h

lemma InStep.appendSampleResample (h : InStep wanted s) (sample : ℚ) (rate : ℕ) :
    InStep wanted (appendSampleResample sample rate wanted s) := by
  have hpush := h.pushWanted sample
  dsimp only [WasapiLoopback.appendSampleResample]
  split_ifs
  · exact hpush
  · exact ⟨hpush.length, hpush.le⟩
  · exact ⟨h.length, h.le⟩

/-! ### The loops -/

lemma InStep.pushZerosTrail (h : InStep wanted s) (n : ℕ) :
    ∀ t ∈ s.pushZerosTrail wanted n, InStep wanted t := by
  induction n generalizing s with
  | zero =>
    intro t ht
    rw [List.mem_singleton.mp ht]
    exact h
  | succ n ih =>
    unfold Collecting.pushZerosTrail
    intro t ht
    rcases List.mem_cons.mp ht with rfl | ht
    · exact h
    · split_ifs at ht with hlt
      · exact ih (h.pushBack hlt 0) t ht
      · cases ht

lemma InStep.framesTrail (h : InStep wanted s) (dev : WasapiLoopback) (src : ℕ → ℚ)
    (fs : List ℕ) : ∀ t ∈ dev.framesTrail src wanted fs s, InStep wanted t := by
  induction fs generalizing s with
  | nil =>
    intro t ht
    rw [List.mem_singleton.mp ht]
    exact h
  | cons f fs ih =>
    unfold WasapiLoopback.framesTrail
    intro t ht
    rcases List.mem_cons.mp ht with rfl | ht
    · exact h
    · exact ih (h.appendSampleResample _ _) t ht

lemma InStep.takePacketTrail (h : InStep wanted s) (dev : WasapiLoopback) (p : Packet) :
    ∀ t ∈ dev.takePacketTrail p wanted s, InStep wanted t := by
  rcases takePacketTrail_cases dev p wanted s with ⟨htrail, -⟩ | ⟨src, htrail, -⟩
  · rw [htrail]
    exact h.pushZerosTrail _
  · rw [htrail]
    exact h.framesTrail _ _ _

lemma InStep.takePacket (h : InStep wanted s) (dev : WasapiLoopback) (p : Packet) :
    InStep wanted (dev.takePacket p wanted s) :=
  h.takePacketTrail dev p _ (List.mem_of_getLast? (takePacketTrail_last dev p wanted s))

lemma InStep.collectTrail (h : InStep wanted s) (dev : WasapiLoopback) (polls : List Poll) :
    ∀ t ∈ dev.collectTrail wanted polls s, InStep wanted t := by
  induction polls generalizing s with
  | nil =>
    unfold WasapiLoopback.collectTrail
    intro t ht
    rcases List.mem_cons.mp ht with rfl | ht
    · exact h
    · split_ifs at ht
      · cases ht
      · exact h.pushZerosTrail _ t ht
  | cons poll polls ih =>
    unfold WasapiLoopback.collectTrail
    intro t ht
    rcases List.mem_cons.mp ht with rfl | ht
    · exact h
    · split_ifs at ht
      · cases poll with
        | sizeFailed => cases ht
        | bufferFailed => cases ht
        | nothing => exact ih h t ht
        | packet p ok =>
          rcases List.mem_append.mp ht with ht | ht
          · exact h.takePacketTrail dev p t ht
          · split_ifs at ht
            · exact ih (h.takePacket dev p) t ht
            · cases ht
      · exact h.pushZerosTrail _ t ht

lemma collect_full (h : InStep wanted s) (hdone : dev.collect wanted polls s = .done s' polls') :
    wanted ≤ s'.collected := by
  have hrest : ∀ s : Collecting, ¬s.collected < wanted →
      s.pushZeros wanted (wanted - s.collected) = s := fun s hge => by
    rw [show wanted - s.collected = 0 by omega]
    rfl
  induction polls generalizing s with
  | nil =>
    unfold collect at hdone
    split_ifs at hdone with hlt
    cases hdone
    rw [hrest s hlt]
    omega
  | cons poll polls ih =>
    unfold collect at hdone
    split_ifs at hdone with hlt
    · cases poll with
      | sizeFailed => cases hdone
      | bufferFailed => cases hdone
      | nothing => exact ih h hdone
      | packet p ok =>
        cases ok with
        | false => cases hdone
        | true => exact ih (h.takePacket dev p) hdone
    · cases hdone
      rw [hrest s hlt]
      omega

lemma wantedFrames_eq (hms : 0 ≤ ms) (hfit : ms * whisperSampleRate / 1000 < 2 ^ 32) :
    (wantedFrames ms : ℤ) = ms * whisperSampleRate / 1000 := by
  have hnonneg : 0 ≤ ms * whisperSampleRate := mul_nonneg hms (Int.natCast_nonneg _)
  have hdiv : 0 ≤ ms * whisperSampleRate / 1000 := Int.ediv_nonneg hnonneg (by norm_num)
  unfold wantedFrames
  rw [Int.tdiv_eq_ediv_of_nonneg hnonneg, Int.emod_eq_of_lt hdiv hfit, Int.toNat_of_nonneg hdiv]

/-- At every point of a call `out` has `collected` samples, which are never more than the
milliseconds are worth at 16 kHz; and a call that is successful has exactly these. -/
theorem get_inStep (dev : WasapiLoopback) (polls : List Poll) (acc : ℚ) (hms : 0 ≤ ms)
    (hfit : ms * whisperSampleRate / 1000 < 2 ^ 32) :
    (∀ t ∈ dev.getTrail ms polls acc, t.out.length = t.collected ∧
      (t.out.length : ℤ) ≤ ms * whisperSampleRate / 1000) ∧
    (dev.getTrail ms polls acc).getLast? = some (dev.get ms polls acc).state ∧
    ∀ s' polls', dev.get ms polls acc = .done s' polls' →
      (s'.out.length : ℤ) = ms * whisperSampleRate / 1000 := by
  have hstart : InStep (wantedFrames ms) ⟨acc, [], 0⟩ := ⟨rfl, Nat.zero_le _⟩
  have htrail := hstart.collectTrail dev polls
  have hlast := collectTrail_last dev (wantedFrames ms) polls ⟨acc, [], 0⟩
  rw [← wantedFrames_eq hms hfit]
  refine ⟨fun t ht => ?_, hlast, fun s' polls' hdone => ?_⟩
  · have hstep := htrail t ht
    refine ⟨hstep.length, ?_⟩
    rw [hstep.length]
    exact_mod_cast hstep.le
  · have hfull := collect_full hstart hdone
    have hstep := htrail _ (List.mem_of_getLast? hlast)
    unfold get at hdone
    rw [hdone] at hstep
    change InStep _ s' at hstep
    rw [hstep.length]
    exact_mod_cast hstep.le.antisymm hfull

/-- A packet that overruns a chunk of one millisecond. -/
theorem overrun_inStep : ∃ s' : Collecting,
    (⟨48000, 1, .other, 3⟩ : WasapiLoopback).get 1
      [.nothing, .packet ⟨20, false, fun _ => 0, fun _ => 0⟩ true] 0 = .done s' [] ∧
    (s'.out.length : ℤ) = 1 * whisperSampleRate / 1000 := by
  have hdone : ∃ s', (⟨48000, 1, .other, 3⟩ : WasapiLoopback).get 1
      [.nothing, .packet ⟨20, false, fun _ => 0, fun _ => 0⟩ true] 0 = .done s' [] := ⟨_, rfl⟩
  obtain ⟨s', hs'⟩ := hdone
  exact ⟨s', hs', (get_inStep _ _ 0 (by decide) (by decide)).2.2 s' [] hs'⟩

end WasapiLoopback

end Voxory
