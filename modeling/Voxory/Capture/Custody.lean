import Mathlib.Data.Multiset.AddSub
import Mathlib.Data.Finset.Basic
import Voxory.Capture.Session

/-!
# What the program holds

The services keep count of the references that they have given out and of what state each object
is in, and allow a call only on a reference that is held and in the state that it asks for. The
program makes no other call, whatever they answer, and gives back all that it got, except that it
leaves the model loaded where the capture cannot be set up. It does not look at what
`CoInitializeEx` answers: a call to COM is allowed whether that was successful or not.
-/

namespace Voxory

/-- The references in the hands of the program, the audio clients that are initialized and started,
those among them whose `Stop` has failed, the size of the packet that a capture client has given
out, the number of segments that Whisper has reported since it last ran, and how often COM was
opened and closed. -/
structure Service where
  refs : Multiset Ref
  initialized : Finset ℕ
  started : Finset ℕ
  unstoppable : Finset ℕ
  buffer : ℕ → Option ℕ
  nSegments : ℕ → ℕ
  inits : ℕ
  uninits : ℕ

/-- At most one reference. -/
def refs : Option Ref → Multiset Ref
  | some r => {r}
  | none => 0

@[simp] lemma refs_none : refs none = 0 := rfl

@[simp] lemma refs_some (r : Ref) : refs (some r) = {r} := rfl

namespace Service

def start : Service := ⟨0, ∅, ∅, ∅, fun _ => none, fun _ => 0, 0, 0⟩

/-- Where a call is in order. An audio client that is started is given back after a call of `Stop`,
even if that has failed. -/
def Allows (s : Service) : Api → Prop
  | .ggmlBackendLoadAll | .whisperInitFromFile _ | .sleepFor _ | .fprintf _ _ | .printf _ => True
  | .coInitializeEx => s.inits = 0
  | .coCreateInstance => s.uninits = 0
  | .getDefaultAudioEndpoint p => .enumerator p ∈ s.refs
  | .activate p => .device p ∈ s.refs
  | .getMixFormat p => .audioClient p ∈ s.refs
  | .initializeClient p f => .audioClient p ∈ s.refs ∧ .format f ∈ s.refs ∧ p ∉ s.initialized
  | .getService p => .audioClient p ∈ s.refs ∧ p ∈ s.initialized
  | .readFormat f => .format f ∈ s.refs
  | .start p => .audioClient p ∈ s.refs ∧ p ∈ s.initialized ∧ p ∉ s.started
  | .stop p => .audioClient p ∈ s.refs ∧ p ∈ s.started
  | .getNextPacketSize p => .captureClient p ∈ s.refs
  | .getBuffer p => .captureClient p ∈ s.refs ∧ s.buffer p = none
  | .releaseBuffer p frames => .captureClient p ∈ s.refs ∧ s.buffer p = some frames
  | .release r => r ∈ s.refs ∧ ∀ p ∈ s.started, p ∉ s.unstoppable → r ≠ .audioClient p
  | .coTaskMemFree f => .format f ∈ s.refs
  | .uninitializeCom => s.uninits = 0 ∧ ∀ r ∈ s.refs, ∃ ctx, r = .context ctx
  | .whisperFull ctx _ => .context ctx ∈ s.refs
  | .whisperFullNSegments ctx => .context ctx ∈ s.refs
  | .whisperFullGetSegmentText ctx i => .context ctx ∈ s.refs ∧ i < s.nSegments ctx
  | .whisperFree ctx => .context ctx ∈ s.refs
  | .wild => False

/-- A call that fails stores a null pointer. -/
def Answers : (c : Api) → c.Answer → Prop
  | .coCreateInstance, a | .getDefaultAudioEndpoint _, a | .activate _, a | .getService _, a =>
    a.1 < 0 → a.2 = none
  | .getMixFormat _, a => a.1 < 0 → a.2 = none
  | _, _ => True

def acquire (s : Service) (r : Option Ref) : Service := { s with refs := Voxory.refs r + s.refs }

/-- An audio client that nothing refers to any more is gone. -/
def giveBack (s : Service) (r : Ref) : Service := { s with
  refs := s.refs.erase r
  initialized := s.initialized.filter fun p => .audioClient p ∈ s.refs.erase r
  started := s.started.filter fun p => .audioClient p ∈ s.refs.erase r
  unstoppable := s.unstoppable.filter fun p => .audioClient p ∈ s.refs.erase r }

/-- What a call does. -/
def after (s : Service) : (c : Api) → c.Answer → Service
  | .whisperInitFromFile _, ctx => s.acquire (ctx.map .context)
  | .coInitializeEx, hr => if 0 ≤ hr then { s with inits := s.inits + 1 } else s
  | .coCreateInstance, a => s.acquire (a.2.map .enumerator)
  | .getDefaultAudioEndpoint _, a => s.acquire (a.2.map .device)
  | .activate _, a => s.acquire (a.2.map .audioClient)
  | .getMixFormat _, a => s.acquire (a.2.map fun f => .format f.1)
  | .initializeClient p _, hr =>
    if 0 ≤ hr then { s with initialized := insert p s.initialized } else s
  | .getService _, a => s.acquire (a.2.map .captureClient)
  | .start p, hr => if 0 ≤ hr then { s with started := insert p s.started } else s
  | .stop p, hr =>
    if 0 ≤ hr then
      { s with started := s.started.erase p, unstoppable := s.unstoppable.erase p }
    else { s with unstoppable := insert p s.unstoppable }
  | .getBuffer p, a =>
    if 0 ≤ a.1 then { s with buffer := Function.update s.buffer p (some a.2.framesAvailable) }
    else s
  | .releaseBuffer p _, hr =>
    if 0 ≤ hr then { s with buffer := Function.update s.buffer p none } else s
  | .release r, _ => s.giveBack r
  | .coTaskMemFree f, _ => { s with refs := s.refs.erase (.format f) }
  | .uninitializeCom, _ => { s with uninits := s.uninits + 1 }
  | .whisperFull ctx _, _ => { s with nSegments := Function.update s.nSegments ctx 0 }
  | .whisperFullNSegments ctx, n =>
    { s with nSegments := Function.update s.nSegments ctx (Int.toNat n) }
  | .whisperFree ctx, _ => { s with refs := s.refs.erase (.context ctx) }
  | .ggmlBackendLoadAll, _ | .getNextPacketSize _, _ | .readFormat _, _ | .sleepFor _, _ |
    .whisperFullGetSegmentText _ _, _ | .fprintf _ _, _ | .printf _, _ | .wild, _ => s

def protocol : Client.Protocol Api Api.Answer Service where
  Allows := Allows
  Answers _ := Answers
  after := after

end Service

open Service

/-- The references in the members, in the order in which the destructor gives them back. -/
def Wasapi.refs (w : Wasapi) : Multiset Ref :=
  Voxory.refs (w.pCaptureClient.map .captureClient) +
    (Voxory.refs (w.pAudioClient.map .audioClient) + (Voxory.refs (w.pDevice.map .device) +
      (Voxory.refs (w.pEnumerator.map .enumerator) +
        Voxory.refs (w.pwfx.map fun f => .format f.1))))

namespace Wasapi

/-- What is held is in the members, but for `rest`, and the audio client is started as `running`
says, unless its `Stop` has failed. -/
structure Owns (rest : Multiset Ref) (w : Wasapi) (s : Service) : Prop where
  refs : s.refs = w.refs + rest
  started : s.started = if w.running then w.pAudioClient.toFinset else s.unstoppable
  unstoppable : w.running = true → s.unstoppable = ∅
  inits : s.inits ≤ 1
  uninits : s.uninits = 0

/-- `init` was successful. -/
structure Opened (w : Wasapi) (s : Service) : Prop where
  client : ∃ p, w.pAudioClient = some p ∧ p ∈ s.initialized
  capture : ∃ p, w.pCaptureClient = some p ∧ s.buffer p = none
  pwfx : w.pwfx.isSome
  stored : w.stored.isSome

variable {rest : Multiset Ref} {w : Wasapi} {s : Service} {β : Type}

lemma require_meets {text : String} {answer : ℤ × Option β} {next : β → Program (Bool × Wasapi)}
    {Q : Bool × Wasapi → Service → Prop}
    (hfail : (∀ p, answer.2 = some p → answer.1 < 0) → Q (false, w) s)
    (hnext : ∀ p, answer.2 = some p → 0 ≤ answer.1 → (next p).Meets protocol s Q) :
    (w.require text answer next).Meets protocol s Q := by
  rw [require]
  split
  case h_1 p hp =>
    split_ifs with hneg
    · exact .call trivial fun _ _ => hfail fun _ _ => hneg
    · exact hnext p hp (not_lt.mp hneg)
  case h_2 hp =>
    exact .call trivial fun _ _ => hfail fun _ h =>
      absurd (hp.symm.trans h).symm (Option.some_ne_none _)

lemma Owns.mem (h : Owns rest w s) {r : Ref} (hr : r ∈ w.refs) : r ∈ s.refs := by
  rw [h.refs]
  exact Multiset.mem_add.mpr (Or.inl hr)

lemma Owns.acquire (h : Owns rest w s) (w' : Wasapi) (r : Option Ref)
    (hrefs : w'.refs = Voxory.refs r + w.refs) (hw : w.running = false) (hw' : w'.running = false) :
    Owns rest w' (s.acquire r) := by
  refine ⟨?_, ?_, fun hrunning => ?_, h.inits, h.uninits⟩
  · rw [hrefs, add_assoc, ← h.refs]
    rfl
  · rw [hw', if_neg Bool.false_ne_true]
    have hstarted := h.started
    rw [hw, if_neg Bool.false_ne_true] at hstarted
    exact hstarted
  · rw [hw'] at hrunning
    exact absurd hrunning Bool.false_ne_true

lemma Owns.congr {s' : Service} (h : Owns rest w s) (hrefs : s'.refs = s.refs)
    (hstarted : s'.started = s.started) (hunstoppable : s'.unstoppable = s.unstoppable)
    (hinits : s'.inits = s.inits) (huninits : s'.uninits = s.uninits) : Owns rest w s' where
  refs := hrefs.trans h.refs
  started := by rw [hstarted, h.started, hunstoppable]
  unstoppable hrunning := hunstoppable.trans (h.unstoppable hrunning)
  inits := hinits.trans_le h.inits
  uninits := huninits.trans h.uninits

lemma Owns.initializeClient (h : Owns rest w s) (p f : ℕ) (hr : ℤ) :
    Owns rest w (s.after (.initializeClient p f) hr) := by
  rw [Service.after]
  split_ifs
  · exact h.congr rfl rfl rfl rfl rfl
  · exact h

lemma Opened.congr {s' : Service} (h : Opened w s) (hinitialized : s'.initialized = s.initialized)
    (hbuffer : s'.buffer = s.buffer) : Opened w s' where
  client := by
    rw [hinitialized]
    exact h.client
  capture := by
    rw [hbuffer]
    exact h.capture
  pwfx := h.pwfx
  stored := h.stored

lemma mem_initialized {p f : ℕ} {hr : ℤ} (hok : 0 ≤ hr) :
    p ∈ (s.after (.initializeClient p f) hr).initialized := by
  rw [Service.after, if_pos hok]
  exact Finset.mem_insert_self p s.initialized

lemma buffer_initializeClient (p f : ℕ) (hr : ℤ) :
    (s.after (.initializeClient p f) hr).buffer = s.buffer := by
  rw [Service.after]
  split_ifs <;> rfl

lemma unstoppable_initializeClient (p f : ℕ) (hr : ℤ) :
    (s.after (.initializeClient p f) hr).unstoppable = s.unstoppable := by
  rw [Service.after]
  split_ifs <;> rfl

lemma init_meets (h : Owns rest ⟨none, none, none, none, none, none, false⟩ s)
    (hinit : s.initialized = ∅) (hbuffer : ∀ p, s.buffer p = none) (hnone : s.unstoppable = ∅) :
    (init ⟨none, none, none, none, none, none, false⟩).Meets protocol s fun b s' =>
      Owns rest b.2 s' ∧ b.2.running = false ∧
        (b.1 = true → Opened b.2 s' ∧ s'.unstoppable = ∅) := by
  rw [init]
  refine .call h.uninits fun enumerator _ => ?_
  have h := h.acquire ⟨enumerator.2, none, none, none, none, none, false⟩
    (enumerator.2.map .enumerator) (by simp [Wasapi.refs]) rfl rfl
  refine require_meets (fun _ => ⟨h, rfl, fun hok => absurd hok Bool.false_ne_true⟩)
    fun pEnumerator hp _ => ?_
  refine .call (h.mem (by simp [Wasapi.refs, hp])) fun device _ => ?_
  have h := h.acquire ⟨enumerator.2, device.2, none, none, none, none, false⟩
    (device.2.map .device) (by simp [Wasapi.refs]) rfl rfl
  refine require_meets (fun _ => ⟨h, rfl, fun hok => absurd hok Bool.false_ne_true⟩)
    fun pDevice hp _ => ?_
  refine .call (h.mem (by simp [Wasapi.refs, hp])) fun client _ => ?_
  have h := h.acquire ⟨enumerator.2, device.2, client.2, none, none, none, false⟩
    (client.2.map .audioClient) (by simp [Wasapi.refs]) rfl rfl
  refine require_meets (fun _ => ⟨h, rfl, fun hok => absurd hok Bool.false_ne_true⟩)
    fun pAudioClient hclient _ => ?_
  have hmem : Ref.audioClient pAudioClient ∈ _ :=
    h.mem (by simp [Wasapi.refs, hclient])
  refine .call hmem fun format _ => ?_
  have h := h.acquire ⟨enumerator.2, device.2, client.2, none, format.2, none, false⟩
    (format.2.map fun f => .format f.1) (by simp [Wasapi.refs, add_assoc, add_comm]) rfl rfl
  refine require_meets (fun _ => ⟨h, rfl, fun hok => absurd hok Bool.false_ne_true⟩)
    fun pwfx hpwfx _ => ?_
  have hmem : Ref.audioClient pAudioClient ∈ _ := h.mem (by simp [Wasapi.refs, hclient])
  have hformat : Ref.format pwfx.1 ∈ _ := h.mem (by simp [Wasapi.refs, hpwfx])
  refine .call ⟨hmem, hformat, fun hin => ?_⟩ fun hr _ => ?_
  · have hin : pAudioClient ∈ s.initialized := hin
    rw [hinit] at hin
    exact Finset.notMem_empty _ hin
  have h := h.initializeClient pAudioClient pwfx.1 hr
  refine require_meets (fun _ => ⟨h, rfl, fun hok => absurd hok Bool.false_ne_true⟩)
    fun _ _ hok => ?_
  refine .call ⟨h.mem (by simp [Wasapi.refs, hclient]), mem_initialized hok⟩ fun service _ => ?_
  have h := h.acquire ⟨enumerator.2, device.2, client.2, service.2, format.2, none, false⟩
    (service.2.map .captureClient) (by simp [Wasapi.refs]) rfl rfl
  refine require_meets (fun _ => ⟨h, rfl, fun hok => absurd hok Bool.false_ne_true⟩)
    fun pCaptureClient hcapture _ => ?_
  refine .call (h.mem (by simp [Wasapi.refs, hpwfx])) fun _ _ =>
    ⟨⟨h.refs, h.started, h.unstoppable, h.inits, h.uninits⟩, rfl, fun _ => ⟨?_, ?_⟩⟩
  · refine ⟨⟨_, hclient, mem_initialized hok⟩, ⟨_, hcapture, ?_⟩, by rw [hpwfx]; rfl, rfl⟩
    exact (congrFun (buffer_initializeClient pAudioClient pwfx.1 hr) _).trans (hbuffer _)
  · exact (unstoppable_initializeClient pAudioClient pwfx.1 hr).trans hnone

/-! ### Start and stop -/

lemma start_meets (h : Owns rest w s) (hw : w.running = false) (hopened : Opened w s)
    (hnone : s.unstoppable = ∅) :
    w.start.Meets protocol s fun b s' => Owns rest b.2 s' ∧ (b.1 = true → Opened b.2 s') := by
  obtain ⟨p, hp, hin⟩ := hopened.client
  have hstarted := h.started
  rw [hw, if_neg Bool.false_ne_true, hnone] at hstarted
  rw [start]
  split
  case h_1 hnone => exact absurd (hp.symm.trans hnone) (Option.some_ne_none p)
  case h_2 q hq =>
    obtain rfl : p = q := Option.some.inj (hp.symm.trans hq)
    have hstopped : p ∉ s.started := by
      rw [hstarted]
      exact Finset.notMem_empty p
    refine .call ⟨h.mem (by simp [Wasapi.refs, hp]), hin, hstopped⟩ fun hr _ => ?_
    change Client.Meets protocol _
      (if 0 ≤ hr then { s with started := insert p s.started } else s) _
    refine require_meets (fun hneg => ?_) fun _ _ hok => ?_
    · have hneg : ¬0 ≤ hr := not_le.mpr (hneg () rfl)
      rw [if_neg hneg]
      exact ⟨h, fun hok => absurd hok Bool.false_ne_true⟩
    · have hok : 0 ≤ hr := hok
      rw [if_pos hok]
      refine .done ⟨⟨h.refs, ?_, fun _ => hnone, h.inits, h.uninits⟩, fun _ => ?_⟩
      · change insert p s.started = w.pAudioClient.toFinset
        rw [hp, hstarted]
        rfl
      · exact ⟨⟨p, hp, hin⟩, hopened.capture, hopened.pwfx, hopened.stored⟩

/-- Afterwards only an audio client whose `Stop` has failed is started. -/
lemma stop_meets (h : Owns rest w s) : w.stop.Meets protocol s fun w' s' =>
    Owns rest w' s' ∧ s'.started = s'.unstoppable := by
  rw [stop]
  split
  case h_1 p hp hrunning =>
    have hstarted := h.started
    rw [hrunning, if_pos rfl, hp] at hstarted
    have hnone := h.unstoppable hrunning
    refine .call ⟨h.mem (by simp [Wasapi.refs, hp]), ?_⟩ fun hr _ => ?_
    · rw [hstarted]
      exact Finset.mem_singleton_self p
    change Client.Meets protocol _ (if 0 ≤ hr then
      { s with started := s.started.erase p, unstoppable := s.unstoppable.erase p }
      else { s with unstoppable := insert p s.unstoppable }) _
    split_ifs
    · have hlast : s.started.erase p = s.unstoppable.erase p := by
        rw [hstarted, hnone]
        simp
      exact .done ⟨⟨h.refs, hlast, fun hrun => absurd hrun Bool.false_ne_true, h.inits, h.uninits⟩,
        hlast⟩
    · have hlast : s.started = insert p s.unstoppable := by
        rw [hstarted, hnone]
        rfl
      exact .done ⟨⟨h.refs, hlast, fun hrun => absurd hrun Bool.false_ne_true, h.inits, h.uninits⟩,
        hlast⟩
  case h_2 hrunning =>
    have hstarted := h.started
    rw [hrunning, if_neg Bool.false_ne_true] at hstarted
    exact .done ⟨h, hstarted⟩
  case h_3 hp =>
    have hstarted := h.started
    refine .done ⟨h, ?_⟩
    by_cases hrunning : w.running = true
    · rw [if_pos hrunning, hp] at hstarted
      rw [hstarted, h.unstoppable hrunning]
      rfl
    · rwa [if_neg hrunning] at hstarted

/-! ### The destructor -/

/-- Nothing is started that can be stopped, `m` is held and COM is not closed yet. -/
structure Closing (m : Multiset Ref) (s : Service) : Prop where
  refs : s.refs = m
  started : s.started = s.unstoppable
  inits : s.inits ≤ 1
  uninits : s.uninits = 0

lemma release_meets {r : Option Ref} {m : Multiset Ref} (h : Closing (Voxory.refs r + m) s) :
    (release r).Meets protocol s fun _ s' => Closing m s' := by
  have hrefs := h.refs
  have hstarted := h.started
  cases r with
  | none => exact .done ⟨hrefs.trans (zero_add m), hstarted, h.inits, h.uninits⟩
  | some r =>
    have hmem : r ∈ s.refs := by
      rw [hrefs]
      exact Multiset.mem_add.mpr (Or.inl (Multiset.mem_singleton_self r))
    refine .call ⟨hmem, fun p hp hnot => ?_⟩ fun _ _ => .done ⟨?_, ?_, h.inits, h.uninits⟩
    · rw [hstarted] at hp
      exact absurd hp hnot
    · change s.refs.erase r = m
      rw [hrefs]
      exact Multiset.erase_cons_head r m
    · change s.started.filter _ = s.unstoppable.filter _
      rw [hstarted]

lemma coTaskMemFree_meets {m : Multiset Ref}
    (h : Closing (Voxory.refs (w.pwfx.map fun f => .format f.1) + m) s) :
    (freeFormat w).Meets protocol s fun _ s' => Closing m s' := by
  have hrefs := h.refs
  rw [freeFormat]
  cases hf : w.pwfx with
  | none =>
    rw [hf] at hrefs
    exact .done ⟨hrefs.trans (zero_add m), h.started, h.inits, h.uninits⟩
  | some f =>
    rw [hf] at hrefs
    have hmem : .format f.1 ∈ s.refs := by
      rw [hrefs]
      exact Multiset.mem_add.mpr (Or.inl (Multiset.mem_singleton_self _))
    refine .ask hmem fun _ _ => .done ⟨?_, h.started, h.inits, h.uninits⟩
    change s.refs.erase _ = m
    rw [hrefs]
    exact Multiset.erase_cons_head _ m

lemma destroy_meets (h : Owns rest w s) (hrest : ∀ r ∈ rest, ∃ ctx, r = .context ctx) :
    w.destroy.Meets protocol s fun _ s' =>
      s'.refs = rest ∧ s'.started = s'.unstoppable ∧ s'.inits ≤ s'.uninits ∧ s'.uninits = 1 := by
  rw [destroy]
  refine (stop_meets h).bind fun w s h => ?_
  obtain ⟨h, hstarted⟩ := h
  have hrefs := h.refs
  rw [Wasapi.refs, add_assoc, add_assoc, add_assoc, add_assoc] at hrefs
  refine (release_meets ⟨hrefs, hstarted, h.inits, h.uninits⟩).bind fun _ s h => ?_
  refine (release_meets h).bind fun _ s h => (release_meets h).bind fun _ s h => ?_
  refine (release_meets h).bind fun _ s h => (coTaskMemFree_meets h).bind fun _ s h => ?_
  refine .ask ⟨h.uninits, ?_⟩ fun _ _ => .done ⟨h.refs, h.started, ?_, ?_⟩
  · rw [h.refs]
    exact hrest
  · change s.inits ≤ s.uninits + 1
    rw [h.uninits]
    exact h.inits
  · change s.uninits + 1 = 1
    rw [h.uninits]

/-! ### Capturing -/

lemma checkFormat_meets {p : Packet} {f : ℕ} (hf : .format f ∈ s.refs) :
    (checkFormat p f).Meets protocol s fun _ s' => s' = s := by
  rw [checkFormat]
  split_ifs
  · exact .done rfl
  · exact .ask hf fun _ _ => .done rfl

/-- Every packet is given back before the next one is asked for, and if the loop is successful so is
the last. -/
lemma collect_meets (dev : WasapiLoopback) {p f wanted : ℕ} (fuel : ℕ) {t : Collecting}
    (hp : .captureClient p ∈ s.refs) (hf : .format f ∈ s.refs) (hbuffer : s.buffer p = none)
    (ht : WasapiLoopback.InStep wanted t) :
    (collect dev p f wanted fuel t).Meets protocol s fun b s' =>
      ∃ buffer, s' = { s with buffer := buffer } ∧
        (b.1 = true → buffer p = none ∧ b.2.out.length = wanted) := by
  induction fuel generalizing s t with
  | zero => trivial
  | succ fuel ih =>
    rw [collect]
    split_ifs with hfull
    · refine .call hp fun next _ => ?_
      split_ifs with hneg hnone
      · exact .call trivial fun _ _ =>
          .done ⟨s.buffer, rfl, fun hok => absurd hok Bool.false_ne_true⟩
      · exact .call trivial fun _ _ => ih hp hf hbuffer ht
      refine .call ⟨hp, hbuffer⟩ fun buffer _ => ?_
      split_ifs with hneg
      · have hafter : protocol.after s (.getBuffer p) buffer = s := if_neg (not_le.mpr hneg)
        refine .call trivial fun _ _ => .done ⟨s.buffer, hafter, fun hok => ?_⟩
        exact absurd hok Bool.false_ne_true
      · have hafter : protocol.after s (.getBuffer p) buffer = { s with
            buffer := Function.update s.buffer p (some buffer.2.framesAvailable) } :=
          if_pos (not_lt.mp hneg)
        change Client.Meets protocol _ (protocol.after s (.getBuffer p) buffer) _
        have hf' : .format f ∈ (protocol.after s (.getBuffer p) buffer).refs := by
          rw [hafter]
          exact hf
        refine (checkFormat_meets hf').bind fun _ u hu => ?_
        obtain rfl := hu.trans hafter
        refine .call ⟨hp, Function.update_self ..⟩ fun hr _ => ?_
        change Client.Meets protocol _ (if 0 ≤ hr then _ else _) _
        split_ifs with hfailed hok
        · exact absurd hok (not_le.mpr hfailed)
        · exact .call trivial fun _ _ => .done ⟨_, rfl, fun hok => absurd hok Bool.false_ne_true⟩
        · refine (ih (s := { s with buffer := Function.update _ p none }) hp hf
            (Function.update_self ..) (ht.takePacket dev buffer.2)).mono ?_
          rintro b _ ⟨buffer, rfl, hdone⟩
          exact ⟨buffer, rfl, hdone⟩
        · exact absurd (not_lt.mp hfailed) ‹¬0 ≤ hr›
    · have hcollected : t.collected = wanted := ht.le.antisymm (not_lt.mp hfull)
      refine .done ⟨s.buffer, rfl, fun _ => ⟨hbuffer, ?_⟩⟩
      rw [hcollected, Nat.sub_self]
      exact ht.length.trans hcollected

lemma Owns.buffer (h : Owns rest w s) (buffer : ℕ → Option ℕ) :
    Owns rest w { s with buffer := buffer } :=
  h.congr rfl rfl rfl rfl rfl

lemma get_meets (h : Owns rest w s) (hopened : Opened w s) (fuel : ℕ) (ms : ℤ) (out : List ℚ)
    (acc : ℚ) : (w.get fuel ms out acc).Meets protocol s fun b s' =>
      Owns rest w s' ∧ (b.1 = true →
        Opened w s' ∧ b.2.1.length = WasapiLoopback.wantedFrames ms) := by
  obtain ⟨p, hp, hbuffer⟩ := hopened.capture
  obtain ⟨f, hf⟩ := Option.isSome_iff_exists.mp hopened.pwfx
  obtain ⟨dev, hdev⟩ := Option.isSome_iff_exists.mp hopened.stored
  have hget : w.get fuel ms out acc = collect dev p f.1 (WasapiLoopback.wantedFrames ms) fuel
      ⟨acc, [], 0⟩ >>= fun got => pure (got.1, got.2.out, got.2.acc) := by
    simp only [get, hp, hf, hdev]
    rfl
  rw [hget]
  refine (collect_meets dev fuel (h.mem (by simp [Wasapi.refs, hp]))
    (h.mem (by simp [Wasapi.refs, hf])) hbuffer ⟨rfl, Nat.zero_le _⟩).bind fun b s' hs' => ?_
  obtain ⟨buffer, rfl, hdone⟩ := hs'
  refine .done ⟨h.buffer buffer, fun hok => ⟨⟨hopened.client, ⟨p, hp, (hdone hok).1⟩, hopened.pwfx,
    hopened.stored⟩, (hdone hok).2⟩⟩

end Wasapi

namespace Program

open Wasapi

variable {w : Wasapi} {s : Service} {c : Config} {ctx : ℕ}

lemma segments_meets {i n : ℕ} (hctx : .context ctx ∈ s.refs) (hn : i + n ≤ s.nSegments ctx) :
    (segments ctx i n).Meets protocol s fun _ s' => s' = s := by
  induction n generalizing i with
  | zero => exact .done rfl
  | succ n ih =>
    rw [segments]
    refine .call ⟨hctx, by omega⟩ fun _ _ => .call trivial fun _ _ => ih (by omega)

lemma inBounds_meets {β : Type} {o : Option β} {b : β} (h : o = some b) :
    (inBounds o).Meets protocol s fun b' s' => b' = b ∧ s' = s := by
  rw [h]
  exact .done ⟨rfl, rfl⟩

lemma loop_meets (hc : c.Valid) (fuel : ℕ) {v : Windows ℚ} {new : List ℚ} {acc : ℚ}
    {kept : List ℚ} {line : List (List ℚ)} (hline : Windows.Line c.counts v kept line)
    (h : Owns {.context ctx} w s) (hopened : Opened w s) :
    (loop c ctx w fuel v new acc).Meets protocol s fun _ s' => Owns {.context ctx} w s' := by
  induction fuel generalizing s v new acc kept line with
  | zero => trivial
  | succ fuel ih =>
    have hvad : c.counts.useVad = false := decide_eq_false (not_le.mpr hc.counts.step_pos)
    rw [loop, hvad, if_neg Bool.false_ne_true]
    refine (get_meets h hopened fuel c.stepMs new acc).bind fun got s hs => ?_
    obtain ⟨h, hgot⟩ := hs
    have hctx : .context ctx ∈ s.refs := by
      rw [h.refs]
      exact Multiset.mem_add.mpr (Or.inr (Multiset.mem_singleton_self _))
    split_ifs with hok
    · obtain ⟨hopened, hlen⟩ := hgot hok
      have hnew : (got.2.1.length : ℤ) = c.counts.nSamplesStep := by
        rw [hlen]
        exact hc.wantedFrames_step
      refine (inBounds_meets (hline.assemble hc.counts hnew)).bind fun pcmf32 t ht => ?_
      obtain ⟨rfl, rfl⟩ := ht
      refine .call hctx fun full _ => ?_
      split_ifs with hfull
      · refine .call hctx fun n _ => ?_
        have hn : 0 + Int.toNat n ≤ Function.update (Function.update t.nSegments ctx 0) ctx
            (Int.toNat n) ctx := by
          rw [Function.update_self, Nat.zero_add]
        refine (segments_meets (s := protocol.after (protocol.after t (.whisperFull ctx _) full)
          (.whisperFullNSegments ctx) n) hctx hn).bind fun _ u hu => ?_
        subst hu
        obtain ⟨v', hv', hnext⟩ := hline.advance hc.counts hnew
        refine .call trivial fun _ _ => (inBounds_meets hv').bind fun _ u hu => ?_
        obtain ⟨rfl, rfl⟩ := hu
        split_ifs at hnext
        · exact ih hnext (h.congr rfl rfl rfl rfl rfl) (hopened.congr rfl rfl)
        · exact ih hnext (h.congr rfl rfl rfl rfl rfl) (hopened.congr rfl rfl)
      · exact .ask trivial fun _ _ => .done (h.congr rfl rfl rfl rfl rfl)
    · exact .ask trivial fun _ _ => .done h

/-- How the services are left. -/
structure Left (kept : Multiset Ref) (closed : ℕ) (s : Service) : Prop where
  refs : s.refs = kept
  started : s.started = s.unstoppable
  inits : s.inits ≤ s.uninits
  uninits : s.uninits = closed

/-- The exit codes: without a model nothing is set up, without a capture the model is kept, and
otherwise all is given back. -/
inductive Exits (s : Service) : ℤ → Prop
  | noModel (h : Left 0 0 s) : Exits s 2
  | noCapture (ctx : ℕ) (h : Left {.context ctx} 1 s) : Exits s 1
  | ended (h : Left 0 1 s) : Exits s 0

lemma construct_meets (ctx : ℕ) (hs : s.refs = {.context ctx}) (hstarted : s.started = s.unstoppable)
    (hinits : s.inits = 0) (huninits : s.uninits = 0) :
    Wasapi.construct.Meets protocol s fun w s' =>
      w = ⟨none, none, none, none, none, none, false⟩ ∧ Owns {.context ctx} w s' ∧
        s'.initialized = s.initialized ∧ s'.buffer = s.buffer ∧
        s'.unstoppable = s.unstoppable := by
  rw [construct]
  refine .call hinits fun hr _ => .done ?_
  have hrefs :
      s.refs = Wasapi.refs ⟨none, none, none, none, none, none, false⟩ + {.context ctx} := by
    simp [Wasapi.refs, hs]
  by_cases hok : 0 ≤ hr
  · have hafter : protocol.after s .coInitializeEx hr = { s with inits := s.inits + 1 } :=
      if_pos hok
    rw [hafter]
    refine ⟨rfl, ⟨hrefs, hstarted, fun h => absurd h Bool.false_ne_true, ?_, huninits⟩, rfl, rfl, rfl⟩
    change s.inits + 1 ≤ 1
    rw [hinits]
  · have hafter : protocol.after s .coInitializeEx hr = s := if_neg hok
    rw [hafter]
    exact ⟨rfl, ⟨hrefs, hstarted, fun h => absurd h Bool.false_ne_true,
      hinits.trans_le (Nat.zero_le 1), huninits⟩, rfl, rfl, rfl⟩

lemma giveUp_meets (h : Owns {.context ctx} w s) (text : String) :
    (do call (.fprintf text none); w.destroy; pure 1 : Program ℤ).Meets protocol s
      fun code s => Exits s code := by
  refine .call trivial fun _ _ => (destroy_meets h ?_).bind fun _ s hs => ?_
  · exact fun r hr => ⟨ctx, Multiset.mem_singleton.mp hr⟩
  · obtain ⟨hrefs, hstarted, hinits, huninits⟩ := hs
    exact .done (.noCapture ctx ⟨hrefs, hstarted, hinits, huninits⟩)

lemma main_meets (hc : c.Valid) (fuel : ℕ) :
    (main c fuel).Meets protocol .start fun code s => Exits s code := by
  rw [main]
  refine .call trivial fun _ _ => .call trivial fun ctx _ => ?_
  cases ctx with
  | none => exact .call trivial fun _ _ => .done (.noModel ⟨rfl, rfl, le_rfl, rfl⟩)
  | some ctx =>
    refine (construct_meets ctx rfl rfl rfl rfl).bind fun w s hs => ?_
    obtain ⟨rfl, h, hinitialized, hbuffer, hnone⟩ := hs
    refine (init_meets h hinitialized (fun p => congrFun hbuffer p) hnone).bind fun b s hs => ?_
    obtain ⟨ok, w⟩ := b
    obtain ⟨h, hrunning, hopened⟩ := hs
    cases ok with
    | false => exact giveUp_meets h _
    | true =>
      obtain ⟨hopened, hnone⟩ := hopened rfl
      refine (start_meets h hrunning hopened hnone).bind fun b s hs => ?_
      obtain ⟨ok, w⟩ := b
      obtain ⟨h, hopened⟩ := hs
      cases ok with
      | false => exact giveUp_meets h _
      | true =>
        have hline : Windows.Line c.counts
            ⟨List.replicate Windows.nSamples30s (0 : ℚ), [], 0⟩ [] [] :=
          ⟨rfl, Nat.zero_mod _, hc.counts.keep_nonneg, List.forall_mem_nil _⟩
        refine .call trivial fun _ _ =>
          (loop_meets hc fuel hline h (hopened rfl)).bind fun _ s h => ?_
        refine (stop_meets h).bind fun w s h => ?_
        obtain ⟨h, hstarted⟩ := h
        have hrefs : s.refs.erase (.context ctx) = w.refs + 0 := by
          rw [h.refs, add_comm, add_zero]
          exact Multiset.erase_cons_head _ _
        have hctx : .context ctx ∈ s.refs := by
          rw [h.refs]
          exact Multiset.mem_add.mpr (Or.inr (Multiset.mem_singleton_self _))
        refine .call hctx fun _ _ => ?_
        have hlast : Owns 0 w (protocol.after s (.whisperFree ctx) ()) :=
          ⟨hrefs, h.started, h.unstoppable, h.inits, h.uninits⟩
        refine (destroy_meets hlast fun r hr => absurd hr (Multiset.notMem_zero r)).bind
          fun _ s hs => ?_
        obtain ⟨hrefs, hstarted, hinits, huninits⟩ := hs
        exact .done (.ended ⟨hrefs, hstarted, hinits, huninits⟩)

/-- A capture of a silent packet, after which the device is gone. -/
def unplugged : List (Sigma Api.Answer) :=
  opening ++ [⟨.getNextPacketSize 6, (0, 160)⟩,
    ⟨.getBuffer 6, (0, ⟨160, true, fun _ => 0, fun _ => 0⟩)⟩, ⟨.releaseBuffer 6 160, 0⟩,
    ⟨.getNextPacketSize 6, (-1, 0)⟩,
    ⟨.fprintf "WASAPI: GetNextPacketSize failed: 0x%08x\n" (some (-1)), ()⟩,
    ⟨.fprintf "WASAPI get failed\n" none, ()⟩, ⟨.stop 4, 0⟩, ⟨.whisperFree 1, ()⟩,
    ⟨.release (.captureClient 6), ()⟩, ⟨.release (.audioClient 4), ()⟩, ⟨.release (.device 3), ()⟩,
    ⟨.release (.enumerator 2), ()⟩, ⟨.coTaskMemFree 5, ()⟩, ⟨.uninitializeCom, ()⟩]

lemma talk_unplugged : Client.Talk (main .default 3) unplugged (.done 0) := by
  repeat (first | exact .nil _ | refine .cons ?_)

lemma lawful_unplugged : protocol.Lawful .start unplugged := by
  simp [unplugged, opening, Client.Protocol.Lawful, protocol, Answers]

/-- In every run of `main`, as far as it goes and whatever is answered to it, each call is made
where it is in order: on a reference that is held, in the state of its object that it asks for, and
with every packet given back before the next. -/
theorem main_calls_in_order (hc : c.Valid) (fuel : ℕ) {es : List (Sigma Api.Answer)}
    {p : Program ℤ} (htalk : Client.Talk (main c fuel) es p) (hlawful : protocol.Lawful .start es) :
    protocol.Respected .start es :=
  ((main_meets hc fuel).talk htalk hlawful).1

theorem unplugged_in_order : Client.Talk (main .default 3) unplugged (.done 0) ∧
    protocol.Lawful .start unplugged ∧ protocol.Respected .start unplugged :=
  ⟨talk_unplugged, lawful_unplugged,
    main_calls_in_order Config.default_valid 3 talk_unplugged lawful_unplugged⟩

/-- When `main` returns, every call was in order, so that no reference was given back that was not
held, and it has given back all of them and called `CoUninitialize` once, except that a model that
was loaded stays in memory where the capture could not be set up. -/
theorem main_exits (hc : c.Valid) (fuel : ℕ) {es : List (Sigma Api.Answer)} {code : ℤ}
    (htalk : Client.Talk (main c fuel) es (.done code)) (hlawful : protocol.Lawful .start es) :
    protocol.Respected .start es ∧ Exits (protocol.run .start es) code :=
  (main_meets hc fuel).talk htalk hlawful

theorem unplugged_exits : Client.Talk (main .default 3) unplugged (.done 0) ∧
    protocol.Lawful .start unplugged ∧ protocol.Respected .start unplugged ∧
      Exits (protocol.run .start unplugged) 0 :=
  ⟨talk_unplugged, lawful_unplugged,
    main_exits Config.default_valid 3 talk_unplugged lawful_unplugged⟩

end Program

end Voxory
