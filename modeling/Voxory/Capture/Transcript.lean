import Voxory.Capture.Stream
import Voxory.Capture.Session

/-!
# What Whisper hears

The windows that `main` hands to `whisper_full` are those of the lines of the transcription, over
the chunks that consecutive calls of `get` collect of what the capture client answers.
-/

namespace Voxory

/-- What the program has heard: the answers to the polls of the loops, the packet that is taken out
and not given back, the format of the device, and the windows that Whisper got. -/
structure Heard where
  polls : List Poll
  packet : Option Packet
  device : Option WasapiLoopback
  windows : List (List ℚ)

namespace Heard

def start : Heard := ⟨[], none, none, []⟩

def poll (h : Heard) (p : Poll) : Heard := { h with polls := h.polls ++ [p] }

def after (h : Heard) : (c : Api) → c.Answer → Heard
  | .getMixFormat _, a => { h with device := a.2.map fun f =>
      ⟨f.2.nSamplesPerSec, f.2.nChannels, f.2.formatTag, f.2.wBitsPerSample / 8⟩ }
  | .getNextPacketSize _, a =>
    if a.1 < 0 then h.poll .sizeFailed else if a.2 = 0 then h.poll .nothing else h
  | .getBuffer _, a =>
    if a.1 < 0 then h.poll .bufferFailed else { h with packet := some a.2 }
  | .releaseBuffer _ _, hr =>
    match h.packet with
    | some p => { h with packet := none }.poll (.packet p (0 ≤ hr))
    | none => h
  | .whisperFull _ samples, _ => { h with windows := h.windows ++ [samples] }
  | _, _ => h

/-- With one more window the windows are those of the lines, over the chunks that as many calls of
`get` have collected of the polls. -/
def Completes (c : Config) (h : Heard) (samples : List ℚ) : Prop :=
  ∃ dev chunks, h.device = some dev ∧
    dev.gets (List.replicate (h.windows.length + 1) c.stepMs) h.polls 0 = some chunks ∧
    h.windows ++ [samples] =
      Windows.lines c.counts.nNewLine c.counts.nSamplesKeep.toNat [] [] chunks

def Right (c : Config) (h : Heard) : Api → Prop
  | .whisperFull _ samples => Completes c h samples
  | _ => True

def listening (c : Config) : Client.Protocol Api Api.Answer Heard where
  Allows := Right c
  Answers _ _ _ := True
  after := after

end Heard

namespace WasapiLoopback

variable {dev : WasapiLoopback} {s s' : Collecting} {polls polls' : List Poll} {wanted : ℕ}

/-- Packets that come later make no difference to a call that is done. -/
lemma collect_append (h : dev.collect wanted polls s = .done s' polls') (ps : List Poll) :
    dev.collect wanted (polls ++ ps) s = .done s' (polls' ++ ps) := by
  induction polls generalizing s with
  | nil =>
    rw [collect] at h
    split_ifs at h with hfull
    cases h
    cases ps with
    | nil => rw [List.nil_append, collect, if_neg hfull]
    | cons p ps => rw [List.nil_append, collect_cons, if_neg hfull]
  | cons poll polls ih =>
    rw [collect_cons] at h
    rw [List.cons_append, collect_cons]
    split_ifs at h ⊢ with hfull
    · cases poll with
      | sizeFailed | bufferFailed => cases h
      | nothing => exact ih h
      | packet p ok =>
        cases ok with
        | false => cases h
        | true => exact ih h
    · cases h
      rfl

lemma InStep.collect_length (h : InStep wanted s) (hdone : dev.collect wanted polls s = .done s' polls') :
    s'.out.length = wanted := by
  have hstep := h.collectTrail dev polls _ (List.mem_of_getLast? (collectTrail_last dev wanted polls s))
  rw [hdone] at hstep
  change InStep wanted s' at hstep
  rw [hstep.length]
  exact hstep.le.antisymm (collect_full h hdone)

/-- What consecutive calls collect, with the polls and the accumulator that they leave. -/
def getsLeft (dev : WasapiLoopback) :
    List ℤ → List Poll → ℚ → Option (List (List ℚ) × List Poll × ℚ)
  | [], polls, acc => some ([], polls, acc)
  | ms :: mss, polls, acc =>
    match dev.get ms polls acc with
    | .done s polls' => (dev.getsLeft mss polls' s.acc).map fun r => (s.out :: r.1, r.2)
    | .failed _ | .waiting _ => none

lemma getsLeft_gets (mss : List ℤ) (polls : List Poll) (acc : ℚ) :
    dev.gets mss polls acc = (dev.getsLeft mss polls acc).map Prod.fst := by
  induction mss generalizing polls acc with
  | nil => rfl
  | cons ms mss ih =>
    rw [gets, getsLeft]
    cases dev.get ms polls acc with
    | done s polls' =>
      simp only [ih, Option.map_map]
      rfl
    | failed s => rfl
    | waiting s => rfl

lemma getsLeft_snoc {mss : List ℤ} {ms : ℤ} {ps : List Poll} {acc acc' : ℚ}
    {chunks : List (List ℚ)} (h : dev.getsLeft mss polls acc = some (chunks, [], acc'))
    (hget : dev.get ms ps acc' = .done s []) :
    dev.getsLeft (mss ++ [ms]) (polls ++ ps) acc = some (chunks ++ [s.out], [], s.acc) := by
  induction mss generalizing polls acc chunks with
  | nil =>
    cases h
    rw [List.nil_append, List.nil_append, getsLeft, hget]
    rfl
  | cons m mss ih =>
    rw [getsLeft] at h
    cases hm : dev.get m polls acc with
    | failed t | waiting t =>
      rw [hm] at h
      cases h
    | done t polls' =>
      rw [hm] at h
      obtain ⟨⟨outs, rest, last⟩, hr, heq⟩ := Option.map_eq_some_iff.mp h
      cases heq
      rw [List.cons_append, getsLeft, get, collect_append hm]
      dsimp only
      rw [ih hr]
      rfl

end WasapiLoopback

open Heard

variable {c : Config} {h : Heard}

namespace Wasapi

variable {w : Wasapi} {β : Type}

lemma require_hears {text : String} {answer : ℤ × Option β} {next : β → Program (Bool × Wasapi)}
    {Q : Bool × Wasapi → Heard → Prop} (hfail : ∀ w, Q (false, w) h)
    (hnext : ∀ p, answer.2 = some p → (next p).Meets (listening c) h Q) :
    (w.require text answer next).Meets (listening c) h Q := by
  rw [require]
  split
  case h_1 p hp =>
    split_ifs
    · exact .call trivial fun _ _ => hfail w
    · exact hnext p hp
  case h_2 => exact .call trivial fun _ _ => hfail w

lemma init_hears : (init w).Meets (listening c) h fun b h' => h'.windows = h.windows ∧
    h'.polls = h.polls ∧ (b.1 = true → b.2.stored.isSome ∧ h'.device = b.2.stored) := by
  rw [init]
  have hfail : ∀ (h' : Heard) (w : Wasapi), h'.windows = h.windows ∧ h'.polls = h.polls →
      h'.windows = h.windows ∧ h'.polls = h.polls ∧
        ((false, w).1 = true → (false, w).2.stored.isSome ∧ h'.device = (false, w).2.stored) :=
    fun h' w hh => ⟨hh.1, hh.2, fun hok => absurd hok Bool.false_ne_true⟩
  refine .call trivial fun _ _ => require_hears (fun w => hfail h w ⟨rfl, rfl⟩) fun _ _ => ?_
  refine .call trivial fun _ _ => require_hears (fun w => hfail h w ⟨rfl, rfl⟩) fun _ _ => ?_
  refine .call trivial fun _ _ => require_hears (fun w => hfail h w ⟨rfl, rfl⟩) fun _ _ => ?_
  refine .call trivial fun format _ => require_hears (fun w => hfail _ w ⟨rfl, rfl⟩) fun f hf => ?_
  refine .call trivial fun _ _ => require_hears (fun w => hfail _ w ⟨rfl, rfl⟩) fun _ _ => ?_
  refine .call trivial fun _ _ => require_hears (fun w => hfail _ w ⟨rfl, rfl⟩) fun _ _ => ?_
  refine .call trivial fun _ _ => .done ⟨rfl, rfl, fun _ => ⟨rfl, ?_⟩⟩
  change Option.map _ format.2 = some _
  rw [hf]
  rfl

lemma start_hears : (start w).Meets (listening c) h fun b h' => h' = h ∧ b.2.stored = w.stored := by
  rw [start]
  split
  case h_1 => exact .done ⟨rfl, rfl⟩
  case h_2 =>
    refine .call trivial fun hr _ => ?_
    rw [require]
    dsimp only
    split_ifs
    · exact .call trivial fun _ _ => .done ⟨rfl, rfl⟩
    · exact .done ⟨rfl, rfl⟩

lemma checkFormat_hears (p : Packet) (f : ℕ) :
    (checkFormat p f).Meets (listening c) h fun _ h' => h' = h := by
  rw [checkFormat]
  split_ifs
  · exact .done rfl
  · exact .ask trivial fun _ _ => .done rfl

/-- The loop of `get` collects what it hears. -/
lemma collect_hears (dev : WasapiLoopback) (p f wanted fuel : ℕ) (t : Collecting) :
    (collect dev p f wanted fuel t).Meets (listening c) h fun b h' =>
      h'.device = h.device ∧ h'.windows = h.windows ∧ (b.1 = true → ∃ ps,
        h'.polls = h.polls ++ ps ∧ dev.collect wanted ps t = .done b.2 []) := by
  induction fuel generalizing h t with
  | zero => trivial
  | succ fuel ih =>
    rw [collect]
    split_ifs with hfull
    · refine .call trivial fun next _ => ?_
      have hafter : (listening c).after h (.getNextPacketSize p) next =
        if next.1 < 0 then h.poll .sizeFailed else if next.2 = 0 then h.poll .nothing else h := rfl
      rw [hafter]
      split_ifs with hneg hnone
      · exact .call trivial fun _ _ => .done ⟨rfl, rfl, fun hok => absurd hok Bool.false_ne_true⟩
      · refine .call trivial fun _ _ => (ih t).mono fun b h' hb => ⟨hb.1, hb.2.1, fun hok => ?_⟩
        obtain ⟨ps, hps, hcollect⟩ := hb.2.2 hok
        refine ⟨.nothing :: ps, hps.trans (List.append_assoc _ _ _), ?_⟩
        rw [WasapiLoopback.collect_cons, if_pos hfull]
        exact hcollect
      refine .call trivial fun buffer _ => ?_
      have hafter : (listening c).after h (.getBuffer p) buffer =
        if buffer.1 < 0 then h.poll .bufferFailed else { h with packet := some buffer.2 } := rfl
      rw [hafter]
      split_ifs with hbuffer
      · exact .call trivial fun _ _ => .done ⟨rfl, rfl, fun hok => absurd hok Bool.false_ne_true⟩
      refine (checkFormat_hears buffer.2 f).bind fun _ _ hh => ?_
      subst hh
      refine .call trivial fun hr _ => ?_
      split_ifs with hfailed
      · exact .call trivial fun _ _ => .done ⟨rfl, rfl, fun hok => absurd hok Bool.false_ne_true⟩
      refine (ih _).mono fun b h' hb => ⟨hb.1, hb.2.1, fun hok => ?_⟩
      obtain ⟨ps, hps, hcollect⟩ := hb.2.2 hok
      refine ⟨.packet buffer.2 true :: ps, ?_, ?_⟩
      · have hpolls : h'.polls = h.polls ++ [.packet buffer.2 (decide (0 ≤ hr))] ++ ps := hps
        rw [hpolls, decide_eq_true (not_lt.mp hfailed), List.append_assoc]
        rfl
      · rw [WasapiLoopback.collect_cons, if_pos hfull]
        exact hcollect
    · refine .done ⟨rfl, rfl, fun _ => ⟨[], (List.append_nil _).symm, ?_⟩⟩
      rw [WasapiLoopback.collect, if_neg hfull]

lemma get_hears {dev : WasapiLoopback} (hstored : w.stored = some dev) (fuel : ℕ) (ms : ℤ)
    (out : List ℚ) (acc : ℚ) : (w.get fuel ms out acc).Meets (listening c) h fun b h' =>
      h'.device = h.device ∧ h'.windows = h.windows ∧ (b.1 = true → ∃ ps t,
        h'.polls = h.polls ++ ps ∧ dev.get ms ps acc = .done t [] ∧ b.2 = (t.out, t.acc)) := by
  rw [get]
  split
  case h_1 p f _ _ =>
    rw [hstored]
    refine (collect_hears dev p f.1 _ fuel ⟨acc, [], 0⟩).bind fun b h' hb => ?_
    refine .done ⟨hb.1, hb.2.1, fun hok => ?_⟩
    obtain ⟨ps, hps, hcollect⟩ := hb.2.2 hok
    exact ⟨ps, b.2, hps, hcollect, rfl⟩
  all_goals exact .done ⟨rfl, rfl, fun hok => absurd hok Bool.false_ne_true⟩

end Wasapi

namespace Program

open Wasapi

variable {w : Wasapi} {ctx : ℕ}

/-- What was heard so far: chunks that `get` has collected, and the windows of their lines, which go
on after `kept` and `line`. -/
structure Follows (c : Config) (dev : WasapiLoopback) (h : Heard) (acc : ℚ) (kept : List ℚ)
    (line : List (List ℚ)) : Prop where
  device : h.device = some dev
  chunks : ∃ chunks, dev.getsLeft (List.replicate h.windows.length c.stepMs) h.polls 0 =
      some (chunks, [], acc) ∧
    ∀ rest, Windows.lines c.counts.nNewLine c.counts.nSamplesKeep.toNat [] [] (chunks ++ rest) =
      h.windows ++ Windows.lines c.counts.nNewLine c.counts.nSamplesKeep.toNat kept line rest

lemma segments_hears (i n : ℕ) :
    (segments ctx i n).Meets (listening c) h fun _ h' => h' = h := by
  induction n generalizing i with
  | zero => exact .done rfl
  | succ n ih =>
    rw [segments]
    exact .call trivial fun _ _ => .call trivial fun _ _ => ih (i + 1)

lemma inBounds_hears {β : Type} {o : Option β} {b : β} (ho : o = some b) :
    (inBounds o).Meets (listening c) h fun b' h' => b' = b ∧ h' = h := by
  rw [ho]
  exact .done ⟨rfl, rfl⟩

lemma Follows.window {dev : WasapiLoopback} {acc : ℚ} {kept : List ℚ} {line : List (List ℚ)}
    {ps : List Poll} {t : Collecting} {h' : Heard} (hh : Follows c dev h acc kept line)
    (hget : dev.get c.stepMs ps acc = .done t [])
    (hwindows : h'.windows = h.windows) (hpolls : h'.polls = h.polls ++ ps) :
    ∃ chunks, dev.getsLeft (List.replicate (h'.windows.length + 1) c.stepMs) h'.polls 0 =
        some (chunks, [], t.acc) ∧
      ∀ rest, Windows.lines c.counts.nNewLine c.counts.nSamplesKeep.toNat [] [] (chunks ++ rest) =
        h'.windows ++ Windows.lines c.counts.nNewLine c.counts.nSamplesKeep.toNat kept line
          (t.out :: rest) := by
  obtain ⟨chunks, hchunks, hlines⟩ := hh.chunks
  refine ⟨chunks ++ [t.out], ?_, fun rest => ?_⟩
  · rw [hwindows, hpolls, List.replicate_succ']
    exact WasapiLoopback.getsLeft_snoc hchunks hget
  · rw [List.append_assoc, hwindows]
    exact hlines (t.out :: rest)

lemma loop_hears {dev : WasapiLoopback} (hc : c.Valid) (hstored : w.stored = some dev) (fuel : ℕ)
    {v : Windows ℚ} {new : List ℚ} {acc : ℚ} {kept : List ℚ} {line : List (List ℚ)}
    (hline : Windows.Line c.counts v kept line) (hh : Follows c dev h acc kept line) :
    (loop c ctx w fuel v new acc).Meets (listening c) h fun _ _ => True := by
  induction fuel generalizing h v new acc kept line with
  | zero => trivial
  | succ fuel ih =>
    have hvad : c.counts.useVad = false := decide_eq_false (not_le.mpr hc.counts.step_pos)
    rw [loop, hvad, if_neg Bool.false_ne_true]
    refine (get_hears hstored fuel c.stepMs new acc).bind fun got h' hgot => ?_
    obtain ⟨hdevice, hwindows, hgot⟩ := hgot
    split_ifs with hok
    · obtain ⟨ps, t, hpolls, hget, heq⟩ := hgot hok
      have hdev := hdevice.trans hh.device
      obtain ⟨chunks, hchunks, hlines⟩ := hh.window hget hwindows hpolls
      have hnew : (t.out.length : ℤ) = c.counts.nSamplesStep := by
        rw [← hc.wantedFrames_step]
        have hstart : WasapiLoopback.InStep (WasapiLoopback.wantedFrames c.stepMs) ⟨acc, [], 0⟩ :=
          ⟨rfl, Nat.zero_le _⟩
        rw [hstart.collect_length hget]
      rw [heq]
      refine (inBounds_hears (hline.assemble hc.counts hnew)).bind fun pcmf32 u hp => ?_
      obtain ⟨rfl, rfl⟩ := hp
      have hright : Right c u (.whisperFull ctx (kept ++ (line ++ [t.out]).flatten)) := by
        refine ⟨dev, chunks, hdev, ?_, ?_⟩
        · rw [WasapiLoopback.getsLeft_gets, hchunks]
          rfl
        · have hlast := hlines []
          rw [List.append_nil] at hlast
          simp only [hlast, Windows.lines, ite_self]
      refine .call hright fun full _ => ?_
      split_ifs with hfull
      · refine .call trivial fun n _ => (segments_hears 0 _).bind fun _ _ hs => ?_
        subst hs
        obtain ⟨v', hv', hnext⟩ := hline.advance hc.counts hnew
        refine .call trivial fun _ _ => (inBounds_hears hv').bind fun _ _ hp => ?_
        obtain ⟨rfl, rfl⟩ := hp
        have hcount : (List.replicate (u.windows ++ [kept ++ (line ++ [t.out]).flatten]).length
            c.stepMs) = List.replicate (u.windows.length + 1) c.stepMs := by
          rw [List.length_append, List.length_singleton]
        rw [← hcount] at hchunks
        split_ifs at hnext with hend
        · refine ih hnext ⟨hdev, chunks, hchunks, fun rest => ?_⟩
          rw [hlines rest, Windows.lines, if_pos hend]
          exact (List.append_assoc _ [_] _).symm
        · refine ih hnext ⟨hdev, chunks, hchunks, fun rest => ?_⟩
          rw [hlines rest, Windows.lines, if_neg hend]
          exact (List.append_assoc _ [_] _).symm
      · exact .ask trivial fun _ _ => .done trivial
    · exact .ask trivial fun _ _ => .done trivial

lemma stop_hears : (stop w).Meets (listening c) h fun _ h' => h' = h := by
  rw [stop]
  split
  · exact .call trivial fun _ _ => .done rfl
  all_goals exact .done rfl

lemma release_hears (r : Option Ref) : (release r).Meets (listening c) h fun _ _ => True := by
  cases r with
  | none => exact .done trivial
  | some r => exact .ask trivial fun _ _ => .done trivial

lemma freeFormat_hears : (freeFormat w).Meets (listening c) h fun _ _ => True := by
  rw [freeFormat]
  split
  · exact .ask trivial fun _ _ => .done trivial
  · exact .done trivial

lemma destroy_hears : (destroy w).Meets (listening c) h fun _ _ => True := by
  rw [destroy]
  refine stop_hears.bind fun w _ _ => (release_hears _).bind fun _ _ _ => ?_
  refine (release_hears _).bind fun _ _ _ => (release_hears _).bind fun _ _ _ => ?_
  refine (release_hears _).bind fun _ _ _ => freeFormat_hears.bind fun _ _ _ => ?_
  exact .ask trivial fun _ _ => .done trivial

lemma main_hears (hc : c.Valid) (fuel : ℕ) :
    (main c fuel).Meets (listening c) .start fun _ _ => True := by
  rw [main]
  refine .call trivial fun _ _ => .call trivial fun ctx _ => ?_
  cases ctx with
  | none => exact .call trivial fun _ _ => .done trivial
  | some ctx =>
    have hgiveUp : ∀ (w : Wasapi) (h : Heard) (text : String),
        (do call (.fprintf text none); w.destroy; pure 1 : Program ℤ).Meets (listening c) h
          fun _ _ => True :=
      fun w h text => .call trivial fun _ _ => destroy_hears.bind fun _ _ _ => .done trivial
    refine .call trivial fun _ _ => init_hears.bind fun b h hb => ?_
    obtain ⟨ok, w⟩ := b
    obtain ⟨hwindows, hpolls, hstored⟩ := hb
    cases ok with
    | false => exact hgiveUp _ _ _
    | true =>
      obtain ⟨hsome, hdevice⟩ := hstored rfl
      obtain ⟨dev, hdev⟩ := Option.isSome_iff_exists.mp hsome
      refine start_hears.bind fun b u hb => ?_
      obtain ⟨ok, w'⟩ := b
      obtain ⟨rfl, hstored⟩ := hb
      cases ok with
      | false => exact hgiveUp _ _ _
      | true =>
        have hline : Windows.Line c.counts
            ⟨List.replicate Windows.nSamples30s (0 : ℚ), [], 0⟩ [] [] :=
          ⟨rfl, Nat.zero_mod _, hc.counts.keep_nonneg, List.forall_mem_nil _⟩
        have hwindows : u.windows = [] := hwindows
        have hpolls : u.polls = [] := hpolls
        have hfollows : Follows c dev u 0 [] [] :=
          ⟨hdevice.trans hdev, [], by rw [hwindows, hpolls]; rfl, fun rest => by rw [hwindows]; rfl⟩
        refine .call trivial fun _ _ =>
          (loop_hears hc (hstored.trans hdev) fuel hline hfollows).bind fun _ _ _ => ?_
        exact stop_hears.bind fun _ _ _ => .call trivial fun _ _ =>
          destroy_hears.bind fun _ _ _ => .done trivial

lemma lawful (h : Heard) (es : List (Sigma Api.Answer)) : (listening c).Lawful h es := by
  induction es generalizing h with
  | nil => trivial
  | cons e es ih => exact ⟨trivial, ih _⟩

/-- In every run of `main`, whatever is answered to it, every window that Whisper gets is the next
window of the lines, over chunks that `get` has collected of what the capture client answered. -/
theorem whisper_hears (hc : c.Valid) (fuel : ℕ) {es es' : List (Sigma Api.Answer)} {ctx : ℕ}
    {samples : List ℚ} {answer : ℤ} {p : Program ℤ}
    (htalk : Client.Talk (main c fuel) (es ++ ⟨.whisperFull ctx samples, answer⟩ :: es') p) :
    Completes c ((listening c).run .start es) samples :=
  ((main_hears hc fuel).talk htalk (lawful _ _)).1.allows

/-! A run with steps of a millisecond, in which Whisper fails on the first window. -/

def shortSteps : Config := ⟨1, 1, 0⟩

def opened : Wasapi :=
  ⟨some 2, some 3, some 4, some 6, some (5, ⟨1, 16000, 32, .ieeeFloat⟩),
    some ⟨16000, 1, .ieeeFloat, 4⟩, true⟩

def zeros (n : ℕ) : List ℚ := List.replicate n 0

/-- A packet of 16 silent frames. -/
def silence : List (Sigma Api.Answer) :=
  [⟨.getNextPacketSize 6, (0, 16)⟩, ⟨.getBuffer 6, (0, ⟨16, true, fun _ => 0, fun _ => 0⟩)⟩,
    ⟨.releaseBuffer 6 16, 0⟩]

lemma talk_opening : ∃ f, Client.Talk (main shortSteps 3) opening
    (loop shortSteps 1 opened 3 ⟨zeros 480000, [], 0⟩ (zeros 480000) 0 >>= f) := by
  apply Exists.intro
  iterate 12 apply Client.Talk.cons
  exact .nil _

lemma talk_silence : Client.Talk (opened.get 2 shortSteps.stepMs (zeros 480000) 0) silence
    (.done (true, zeros 16, 0)) := by
  iterate 3 refine .cons ?_
  exact .nil _

lemma talk_loop : Client.Talk (loop shortSteps 1 opened 3 ⟨zeros 480000, [], 0⟩ (zeros 480000) 0)
    (silence ++ [⟨.whisperFull 1 (zeros 16), 1⟩, ⟨.fprintf "whisper_full() failed\n" none, ()⟩])
    (.done ()) := by
  have hwindow : Windows.assemble shortSteps.counts ⟨zeros 480000, [], 0⟩ (zeros 16) =
      some (zeros 16) := Windows.assemble_eq (by decide)
  have hround : Client.Talk (transcribe shortSteps 1 ⟨zeros 480000, [], 0⟩ (zeros 16)
      fun v => loop shortSteps 1 opened 2 v (zeros 16) 0)
      [⟨.whisperFull 1 (zeros 16), 1⟩, ⟨.fprintf "whisper_full() failed\n" none, ()⟩]
      (.done ()) := by
    rw [transcribe, hwindow]
    exact .cons (.cons (.nil _))
  rw [loop, if_neg (by decide)]
  refine (talk_silence.bind _).trans ?_
  rw [Client.done_bind, if_pos rfl]
  exact hround

theorem silence_heard :
    Completes shortSteps ((listening shortSteps).run .start (opening ++ silence)) (zeros 16) := by
  obtain ⟨f, hf⟩ := talk_opening
  have htalk := hf.trans (talk_loop.bind f)
  rw [← List.append_assoc] at htalk
  exact whisper_hears ⟨⟨by decide, by decide, by decide, by decide⟩, by decide⟩ 3 htalk

end Program

end Voxory
