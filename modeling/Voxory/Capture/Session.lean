import Voxory.Capture.Chunk
import Voxory.Capture.Window
import Voxory.Client

/-!
# The program

`main` with the whole of `WasapiLoopback`, as a client of COM, of WASAPI and of Whisper. A pointer
is an address; what `GetMixFormat` stores at an address, which the program only reads, comes along
with it.
-/

namespace Voxory

/-- What the program holds a reference to, or has to give back otherwise. -/
inductive Ref where
  | enumerator (p : ℕ)
  | device (p : ℕ)
  | audioClient (p : ℕ)
  | captureClient (p : ℕ)
  | format (p : ℕ)
  | context (p : ℕ)
  deriving DecidableEq

/-- What is read of a `WAVEFORMATEX`. -/
structure MixFormat where
  nChannels : ℕ
  nSamplesPerSec : ℕ
  wBitsPerSample : ℕ
  formatTag : FormatTag

/-- A call of the program, or an access outside a vector. -/
inductive Api where
  | ggmlBackendLoadAll
  | whisperInitFromFile (path : String)
  | coInitializeEx
  | coCreateInstance
  | getDefaultAudioEndpoint (pEnumerator : ℕ)
  | activate (pDevice : ℕ)
  | getMixFormat (pAudioClient : ℕ)
  | initializeClient (pAudioClient pwfx : ℕ)
  | getService (pAudioClient : ℕ)
  | readFormat (pwfx : ℕ)
  | start (pAudioClient : ℕ)
  | stop (pAudioClient : ℕ)
  | getNextPacketSize (pCaptureClient : ℕ)
  | getBuffer (pCaptureClient : ℕ)
  | releaseBuffer (pCaptureClient frames : ℕ)
  | release (r : Ref)
  | coTaskMemFree (pwfx : ℕ)
  | uninitializeCom
  | sleepFor (ms : ℕ)
  | whisperFull (ctx : ℕ) (samples : List ℚ)
  | whisperFullNSegments (ctx : ℕ)
  | whisperFullGetSegmentText (ctx i : ℕ)
  | whisperFree (ctx : ℕ)
  | fprintf (text : String) (hr : Option ℤ)
  | printf (text : String)
  | wild

/-- An `HRESULT` that is negative means failure. -/
@[reducible]
def Api.Answer : Api → Type
  | .whisperInitFromFile _ => Option ℕ
  | .coCreateInstance | .getDefaultAudioEndpoint _ | .activate _ | .getService _ => ℤ × Option ℕ
  | .getMixFormat _ => ℤ × Option (ℕ × MixFormat)
  | .getNextPacketSize _ => ℤ × ℕ
  | .getBuffer _ => ℤ × Packet
  | .coInitializeEx | .initializeClient _ _ | .start _ | .stop _ | .releaseBuffer _ _ |
    .whisperFull _ _ | .whisperFullNSegments _ => ℤ
  | .whisperFullGetSegmentText _ _ => String
  | .ggmlBackendLoadAll | .readFormat _ | .release _ | .coTaskMemFree _ | .uninitializeCom |
    .sleepFor _ | .whisperFree _ | .fprintf _ _ | .printf _ | .wild => Unit

abbrev Program := Client Api Api.Answer

namespace Program

abbrev call (c : Api) : Program c.Answer := Client.call c

/-- An access that is not to an element stops the program. -/
def inBounds {β : Type} : Option β → Program β
  | some b => pure b
  | none => call .wild >>= fun _ => .cut

end Program

/-- The members of `WasapiLoopback`; what `init` stores of the format is there once it has. -/
structure Wasapi where
  pEnumerator : Option ℕ
  pDevice : Option ℕ
  pAudioClient : Option ℕ
  pCaptureClient : Option ℕ
  pwfx : Option (ℕ × MixFormat)
  stored : Option WasapiLoopback
  running : Bool

namespace Wasapi

open Program

/-- The constructor leaves the format alone. -/
def construct : Program Wasapi := do
  let _ ← call .coInitializeEx
  pure ⟨none, none, none, none, none, none, false⟩

/-- `if (FAILED(hr) || !p) { fprintf(stderr, text, hr); return false; }` -/
def require {β : Type} (w : Wasapi) (text : String) (answer : ℤ × Option β)
    (next : β → Program (Bool × Wasapi)) : Program (Bool × Wasapi) :=
  match answer.2 with
  | some p =>
    if answer.1 < 0 then do
      call (.fprintf text (some answer.1))
      pure (false, w)
    else next p
  | none => do
    call (.fprintf text (some answer.1))
    pure (false, w)

def init (w : Wasapi) : Program (Bool × Wasapi) := do
  let enumerator ← call .coCreateInstance
  let w := { w with pEnumerator := enumerator.2 }
  w.require "WASAPI: failed to create MMDeviceEnumerator: 0x%08x\n" enumerator fun pEnumerator => do
  let device ← call (.getDefaultAudioEndpoint pEnumerator)
  let w := { w with pDevice := device.2 }
  w.require "WASAPI: failed to get default render endpoint: 0x%08x\n" device fun pDevice => do
  let client ← call (.activate pDevice)
  let w := { w with pAudioClient := client.2 }
  w.require "WASAPI: failed to activate IAudioClient: 0x%08x\n" client fun pAudioClient => do
  let format ← call (.getMixFormat pAudioClient)
  let w := { w with pwfx := format.2 }
  w.require "WASAPI: GetMixFormat failed: 0x%08x\n" format fun pwfx => do
  let hr ← call (.initializeClient pAudioClient pwfx.1)
  w.require "WASAPI: IAudioClient::Initialize failed: 0x%08x\n" (hr, some ()) fun _ => do
  let service ← call (.getService pAudioClient)
  let w := { w with pCaptureClient := service.2 }
  w.require "WASAPI: GetService(IAudioCaptureClient) failed: 0x%08x\n" service fun _ => do
  call (.readFormat pwfx.1)
  pure (true, { w with
    stored := some ⟨pwfx.2.nSamplesPerSec, pwfx.2.nChannels, pwfx.2.formatTag,
      pwfx.2.wBitsPerSample / 8⟩ })

def start (w : Wasapi) : Program (Bool × Wasapi) :=
  match w.pAudioClient with
  | none => pure (false, w)
  | some pAudioClient => do
    let hr ← call (.start pAudioClient)
    w.require "WASAPI: Start failed: 0x%08x\n" (hr, some ()) fun _ =>
      pure (true, { w with running := true })

def stop (w : Wasapi) : Program Wasapi :=
  match w.pAudioClient, w.running with
  | some pAudioClient, true => do
    let _ ← call (.stop pAudioClient)
    pure { w with running := false }
  | some _, false | none, _ => pure w

/-- `if (p) p->Release()` -/
def release : Option Ref → Program Unit
  | some r => call (.release r)
  | none => pure ()

/-- `if (pwfx) CoTaskMemFree(pwfx)` -/
def freeFormat (w : Wasapi) : Program Unit :=
  match w.pwfx with
  | some pwfx => call (.coTaskMemFree pwfx.1)
  | none => pure ()

def destroy (w : Wasapi) : Program Unit := do
  let w ← w.stop
  release (w.pCaptureClient.map .captureClient)
  release (w.pAudioClient.map .audioClient)
  release (w.pDevice.map .device)
  release (w.pEnumerator.map .enumerator)
  w.freeFormat
  call .uninitializeCom

/-- The format is looked at unless the packet is silent. -/
def checkFormat (p : Packet) (pwfx : ℕ) : Program Unit :=
  if p.silent then pure () else call (.readFormat pwfx)

/-- The loop of `get`, cut off after `fuel` rounds. -/
def collect (dev : WasapiLoopback) (pCaptureClient pwfx wantedFrames : ℕ) :
    ℕ → Collecting → Program (Bool × Collecting)
  | 0, _ => .cut
  | fuel + 1, s =>
    if s.collected < wantedFrames then do
      let next ← call (.getNextPacketSize pCaptureClient)
      if next.1 < 0 then
        call (.fprintf "WASAPI: GetNextPacketSize failed: 0x%08x\n" (some next.1))
        pure (false, s)
      else if next.2 = 0 then
        call (.sleepFor 5)
        collect dev pCaptureClient pwfx wantedFrames fuel s
      else
        let buffer ← call (.getBuffer pCaptureClient)
        if buffer.1 < 0 then
          call (.fprintf "WASAPI: GetBuffer failed: 0x%08x\n" (some buffer.1))
          pure (false, s)
        else
          checkFormat buffer.2 pwfx
          let s := dev.takePacket buffer.2 wantedFrames s
          let hr ← call (.releaseBuffer pCaptureClient buffer.2.framesAvailable)
          if hr < 0 then
            call (.fprintf "WASAPI: ReleaseBuffer failed: 0x%08x\n" (some hr))
            pure (false, s)
          else collect dev pCaptureClient pwfx wantedFrames fuel s
    else pure (true, s.pushZeros wantedFrames (wantedFrames - s.collected))

/-- `get`, with the accumulator that the resampler has kept and the one it has afterwards. -/
def get (w : Wasapi) (fuel : ℕ) (ms : ℤ) (out : List ℚ) (acc : ℚ) :
    Program (Bool × List ℚ × ℚ) :=
  match w.pCaptureClient, w.pwfx with
  | some pCaptureClient, some pwfx => do
    let dev ← inBounds w.stored
    let got ← collect dev pCaptureClient pwfx.1 (WasapiLoopback.wantedFrames ms) fuel ⟨acc, [], 0⟩
    pure (got.1, got.2.out, got.2.acc)
  | some _, none | none, _ => pure (false, out, acc)

end Wasapi

/-- `step_ms`, `length_ms` and `keep_ms` -/
structure Config where
  stepMs : ℤ
  lengthMs : ℤ
  keepMs : ℤ

namespace Config

/-- `(1e-3 * ms) * WHISPER_SAMPLE_RATE`, without rounding -/
def samples (ms : ℤ) : ℤ := ms * whisperSampleRate / 1000

def counts (c : Config) : Counts := ⟨samples c.stepMs, samples c.lengthMs, samples c.keepMs⟩

/-- A configuration that the loop is made for, and whose steps an `int` counts. -/
structure Valid (c : Config) : Prop where
  counts : c.counts.Valid
  fits : c.counts.nSamplesStep < 2 ^ 31

lemma Valid.wantedFrames_step {c : Config} (hc : c.Valid) :
    (WasapiLoopback.wantedFrames c.stepMs : ℤ) = c.counts.nSamplesStep := by
  have hpos : 0 < c.stepMs * (whisperSampleRate : ℤ) / 1000 := hc.counts.step_pos
  have hfits : c.stepMs * (whisperSampleRate : ℤ) / 1000 < 2 ^ 31 := hc.fits
  refine WasapiLoopback.wantedFrames_eq ?_ (hfits.trans (by norm_num))
  rw [whisperSampleRate] at hpos
  omega

/-- The values in `main.cpp`. -/
def default : Config := ⟨15000, 15000, 0⟩

lemma default_valid : default.Valid := ⟨⟨by decide, by decide, by decide, by decide⟩, by decide⟩

end Config

namespace Program

/-- `for (i < n_segments)`, from segment `i` on with `n` segments left. -/
def segments (ctx : ℕ) : ℕ → ℕ → Program Unit
  | _, 0 => pure ()
  | i, n + 1 => do
    let text ← call (.whisperFullGetSegmentText ctx i)
    call (.printf text)
    segments ctx (i + 1) n

/-- The round after `get` was successful, with `next` for the rounds that follow it. -/
def transcribe (c : Config) (ctx : ℕ) (v : Windows ℚ) (pcmf32New : List ℚ)
    (next : Windows ℚ → Program Unit) : Program Unit := do
  let pcmf32 ← inBounds (Windows.assemble c.counts v pcmf32New)
  let full ← call (.whisperFull ctx pcmf32)
  if full = 0 then
    let nSegments ← call (.whisperFullNSegments ctx)
    segments ctx 0 nSegments.toNat
    call (.printf "\n")
    let v ← inBounds (Windows.advance c.counts v pcmf32)
    next v
  else call (.fprintf "whisper_full() failed\n" none)

/-- `while (is_running)`, cut off after `fuel` rounds. -/
def loop (c : Config) (ctx : ℕ) (w : Wasapi) :
    ℕ → Windows ℚ → List ℚ → ℚ → Program Unit
  | 0, _, _, _ => .cut
  | fuel + 1, v, pcmf32New, acc =>
    if c.counts.useVad then do
      call (.sleepFor 100)
      loop c ctx w fuel v pcmf32New acc
    else do
      let got ← w.get fuel c.stepMs pcmf32New acc
      if got.1 then
        transcribe c ctx v got.2.1 fun v => loop c ctx w fuel v got.2.1 got.2.2
      else call (.fprintf "WASAPI get failed\n" none)

def modelPath : String :=
  "C:\\CPP\\Voxory\\dependencies\\whisper\\models\\ggml-large-v3-turbo.bin"

/-- `main`, whose vectors start with 30 seconds of zeros. -/
def main (c : Config) (fuel : ℕ) : Program ℤ := do
  call .ggmlBackendLoadAll
  match ← call (.whisperInitFromFile modelPath) with
  | none =>
    call (.fprintf "error: failed to initialize whisper context\n" none)
    pure 2
  | some ctx =>
    let zeros := List.replicate Windows.nSamples30s 0
    let w ← Wasapi.construct
    let (ok, w) ← w.init
    if ok then
      let (ok, w) ← w.start
      if ok then
        call (.printf "[Start capturing loopback — what the user hears]\n")
        loop c ctx w fuel ⟨zeros, [], 0⟩ zeros 0
        let w ← w.stop
        call (.whisperFree ctx)
        w.destroy
        pure 0
      else
        call (.fprintf "Failed to start WASAPI capture\n" none)
        w.destroy
        pure 1
    else
      call (.fprintf "Failed to init WASAPI loopback\n" none)
      w.destroy
      pure 1

/-- The calls up to the loop of `main`, with addresses for the references. -/
def opening : List (Sigma Api.Answer) :=
  [⟨.ggmlBackendLoadAll, ()⟩, ⟨.whisperInitFromFile modelPath, some 1⟩, ⟨.coInitializeEx, 0⟩,
    ⟨.coCreateInstance, (0, some 2)⟩, ⟨.getDefaultAudioEndpoint 2, (0, some 3)⟩,
    ⟨.activate 3, (0, some 4)⟩, ⟨.getMixFormat 4, (0, some (5, ⟨1, 16000, 32, .ieeeFloat⟩))⟩,
    ⟨.initializeClient 4 5, 0⟩, ⟨.getService 4, (0, some 6)⟩, ⟨.readFormat 5, ()⟩, ⟨.start 4, 0⟩,
    ⟨.printf "[Start capturing loopback — what the user hears]\n", ()⟩]

end Program

end Voxory
