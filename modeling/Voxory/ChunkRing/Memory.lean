import Mathlib.Data.Multiset.Filter
import Voxory.ChunkRing.Model
import Voxory.Client

/-!
# The memory of the chunk ring

The constructor and the destructor of `ChunkRing` with the functions of `platform/VirtualAlloc.h`,
as clients of the memory functions of the system. Whatever of them fails, as long as the system
takes back what it is given back in order, the constructor leaves no page reserved or locked and no
token open, unless it returns; then the destructor does.
-/

namespace Voxory

/-- A call of a memory function, a message, or an access outside the pages. -/
inductive Win32 where
  | virtualAlloc (bytes : ℕ)
  | virtualFree (p : ℕ)
  | virtualLock (p bytes : ℕ)
  | virtualUnlock (p bytes : ℕ)
  | getLastError
  | openProcessToken
  | lookupPrivilegeValue (name : String)
  | adjustTokenPrivileges (token luid : ℕ)
  | closeHandle (token : ℕ)
  | getProcessWorkingSetSize
  | setProcessWorkingSetSize (minWS maxWS : ℕ)
  | cerr (text : String) (values : List ℕ)
  | wild

/-- `VirtualAlloc` answers with an address and with how many bytes there are. -/
@[reducible]
def Win32.Answer : Win32 → Type
  | .virtualAlloc _ => Option (ℕ × ℕ)
  | .virtualFree _ | .virtualLock _ _ | .virtualUnlock _ _ | .adjustTokenPrivileges _ _ |
    .closeHandle _ | .setProcessWorkingSetSize _ _ => Bool
  | .getLastError => ℕ
  | .openProcessToken | .lookupPrivilegeValue _ => Bool × ℕ
  | .getProcessWorkingSetSize => Bool × ℕ × ℕ
  | .cerr _ _ | .wild => Unit

abbrev System := Client Win32 Win32.Answer

namespace System

open ChunkRing

abbrev call (c : Win32) : System c.Answer := Client.call c

/-- `std::cerr << text << GetLastError() << "\n"` -/
def report (text : String) : System Unit := do
  let err ← call .getLastError
  call (.cerr text [err])

def errorNotAllAssigned : ℕ := 1300

def enableLockMemoryPrivilege : System Bool := do
  let token ← call .openProcessToken
  if token.1 then
    let luid ← call (.lookupPrivilegeValue "SeLockMemoryPrivilege")
    if luid.1 then
      let adjusted ← call (.adjustTokenPrivileges token.2 luid.2)
      if adjusted then
        let err ← call .getLastError
        let _ ← call (.closeHandle token.2)
        if err = errorNotAllAssigned then
          call (.cerr "[lock] SeLockMemoryPrivilege not assigned to this account.\n" [])
          pure false
        else pure true
      else
        report "[lock] AdjustTokenPrivileges failed: "
        let _ ← call (.closeHandle token.2)
        pure false
    else
      report "[lock] LookupPrivilegeValueA failed: "
      let _ ← call (.closeHandle token.2)
      pure false
  else
    report "[lock] OpenProcessToken failed: "
    pure false

/-- The safety margin of 64 MB. -/
def margin : ℕ := 64 * 1024 * 1024

def increaseProcessWorkingSet (extraBytes : ℕ) : System Bool := do
  let ws ← call .getProcessWorkingSetSize
  if ws.1 then
    let newMin := (ws.2.1 + extraBytes + margin) % word
    let newMax := (ws.2.2 + extraBytes + margin) % word
    let set ← call (.setProcessWorkingSetSize newMin newMax)
    if set then
      call (.cerr "[lock] Increased working set from (,) to (,)\n" [ws.2.1, ws.2.2, newMin, newMax])
      pure true
    else
      report "[lock] SetProcessWorkingSetSize failed: "
      pure false
  else
    report "[lock] GetProcessWorkingSetSize failed: "
    pure false

/-- One more attempt to lock the pages, if what prepares it is successful. -/
def attempt (prepare : System Bool) (failed skipped : String) (p bytes : ℕ) : System Bool := do
  let prepared ← prepare
  if prepared then
    let locked ← call (.virtualLock p bytes)
    if locked then pure true
    else
      report failed
      pure false
  else
    call (.cerr skipped [])
    pure false

/-- Returns the result and `locked_out`. -/
def tryVirtualLock (ptr : Option ℕ) (bytes : ℕ) : System (Bool × Bool) :=
  match ptr with
  | none => pure (false, false)
  | some p =>
    if bytes = 0 then pure (false, false)
    else do
      let locked ← call (.virtualLock p bytes)
      if locked then pure (true, true)
      else
        report "[lock] VirtualLock initial failed: "
        let locked ← attempt enableLockMemoryPrivilege
          "[lock] VirtualLock failed even after enabling privilege: "
          "[lock] Could not enable SeLockMemoryPrivilege (probably not assigned).\n" p bytes
        if locked then pure (true, true)
        else
          let locked ← attempt (increaseProcessWorkingSet bytes)
            "[lock] VirtualLock failed after SetProcessWorkingSetSize: "
            "[lock] IncreaseProcessWorkingSet failed or not permitted.\n" p bytes
          if locked then pure (true, true)
          else
            call (.cerr "[lock] Giving up: memory will NOT be locked (performance jitter possible).\n" [])
            pure (false, false)

/-- What the constructor throws. -/
inductive Thrown where
  | badAlloc
  | runtimeError (text : String) (err : ℕ)

/-- A ring with the address of its buffer and whether that is locked. -/
structure Placed (α : Type) where
  ring : ChunkRing α
  address : ℕ
  isBufferLocked : Bool

variable {α : Type}

/-- `ChunkRing(capacity_slots, chunk_samples)` -/
def construct (slots chunkSz : ℕ) (zero : α) : System (Except Thrown (Placed α)) := do
  let totalSamples := slots * chunkSz % word
  let bytes := totalSamples * sizeofFloat % word
  match ← call (.virtualAlloc bytes) with
  | none => pure (.error .badAlloc)
  | some (p, n) =>
    let locked ← tryVirtualLock (some p) bytes
    if locked.1 then
      if totalSamples ≤ n / sizeofFloat then
        pure (.ok ⟨⟨slots, chunkSz, totalSamples, List.replicate (n / sizeofFloat) zero, 0, 0⟩, p,
          locked.2⟩)
      else call .wild >>= fun _ => .cut
    else
      let err ← call .getLastError
      let _ ← call (.virtualFree p)
      pure (.error (.runtimeError "VirtualLock failed with code " err))

/-- `~ChunkRing()` -/
def destroy (placed : Placed α) : System Unit := do
  let _ ← if placed.isBufferLocked then
      call (.virtualUnlock placed.address (placed.ring.totalSamples * sizeofFloat % word))
    else pure false
  let _ ← call (.virtualFree placed.address)
  pure ()

/-- A ring from its construction to its destruction. -/
def lifetime (slots chunkSz : ℕ) (zero : α) : System Unit := do
  match ← construct slots chunkSz zero with
  | .ok placed => destroy placed
  | .error _ => pure ()

end System

/-! ### The pages of the process -/

/-- The regions that are reserved and the ranges that are locked, with addresses and sizes, and the
tokens that are open. -/
structure Pages where
  regions : Multiset (ℕ × ℕ)
  locked : Multiset (ℕ × ℕ)
  tokens : Multiset ℕ

namespace Pages

/-- Pages are freed once and not while they are locked, a range is locked within its region, and a
token is used while it is open. -/
def Allows (s : Pages) : Win32 → Prop
  | .virtualFree p => (∃ n, (p, n) ∈ s.regions) ∧ ∀ l ∈ s.locked, l.1 ≠ p
  | .virtualLock p bytes => ∃ n, (p, n) ∈ s.regions ∧ bytes ≤ n
  | .virtualUnlock p bytes => (p, bytes) ∈ s.locked
  | .adjustTokenPrivileges token _ => token ∈ s.tokens
  | .closeHandle token => token ∈ s.tokens
  | .wild => False
  | .virtualAlloc _ | .getLastError | .openProcessToken | .lookupPrivilegeValue _ |
    .getProcessWorkingSetSize | .setProcessWorkingSetSize _ _ | .cerr _ _ => True

/-- No region that is reserved or locked has the address. -/
def Fresh (s : Pages) (p : ℕ) : Prop := (∀ r ∈ s.regions, r.1 ≠ p) ∧ ∀ l ∈ s.locked, l.1 ≠ p

/-- A new region has a new address, and the bytes that were asked for. What is given back in order is
taken back: `VirtualFree`, `VirtualUnlock` and `CloseHandle` fail only where they are not in
order. -/
def Answers (s : Pages) : (c : Win32) → c.Answer → Prop
  | .virtualAlloc bytes, some r => bytes ≤ r.2 ∧ s.Fresh r.1
  | .virtualFree p, ok => s.Allows (.virtualFree p) → ok = true
  | .virtualUnlock p bytes, ok => s.Allows (.virtualUnlock p bytes) → ok = true
  | .closeHandle token, ok => s.Allows (.closeHandle token) → ok = true
  | _, _ => True

/-- What a call does; one that fails does nothing. -/
def after (s : Pages) : (c : Win32) → c.Answer → Pages
  | .virtualAlloc _, some r => { s with regions := r ::ₘ s.regions }
  | .virtualFree p, true => { s with regions := s.regions.filter fun r => r.1 ≠ p }
  | .virtualLock p bytes, true => { s with locked := (p, bytes) ::ₘ s.locked }
  | .virtualUnlock p bytes, true => { s with locked := s.locked.erase (p, bytes) }
  | .openProcessToken, (true, token) => { s with tokens := token ::ₘ s.tokens }
  | .closeHandle token, true => { s with tokens := s.tokens.erase token }
  | _, _ => s

def protocol : Client.Protocol Win32 Win32.Answer Pages where
  Allows := Allows
  Answers := Answers
  after := after

/-- The pages with the range locked, if it was. -/
def lockedIf (s : Pages) (p bytes : ℕ) (locked : Bool) : Pages :=
  if locked then { s with locked := (p, bytes) ::ₘ s.locked } else s

end Pages

namespace System

open ChunkRing Pages

variable {s : Pages} {p bytes : ℕ}

lemma report_meets (text : String) : (report text).Meets protocol s fun _ s' => s' = s :=
  .call trivial fun _ _ => .ask trivial fun _ _ => .done rfl

lemma closeHandle_meets {token : ℕ} : (call (.closeHandle token)).Meets protocol
    { s with tokens := token ::ₘ s.tokens } fun _ s' => s' = s := by
  have hallows : token ∈ token ::ₘ s.tokens := Multiset.mem_cons_self token s.tokens
  refine .ask hallows fun ok hok => .done ?_
  obtain rfl : ok = true := hok hallows
  change { s with tokens := (token ::ₘ s.tokens).erase token } = s
  rw [Multiset.erase_cons_head]

lemma enableLockMemoryPrivilege_meets :
    enableLockMemoryPrivilege.Meets protocol s fun _ s' => s' = s := by
  rw [enableLockMemoryPrivilege]
  refine .call trivial fun token _ => ?_
  obtain ⟨opened, token⟩ := token
  cases opened with
  | false => exact (report_meets _).bind fun _ _ h => .done h
  | true =>
    have hclose : ∀ (b : Bool) (s' : Pages), s' = { s with tokens := token ::ₘ s.tokens } →
        (do let _ ← call (.closeHandle token); pure b : System Bool).Meets protocol s'
          fun _ s' => s' = s :=
      fun b s' h => by
        rw [h]
        exact closeHandle_meets.bind fun _ _ h => .done h
    refine .call trivial fun luid _ => ?_
    split_ifs
    · refine .call (Multiset.mem_cons_self token s.tokens) fun adjusted _ => ?_
      split_ifs
      · refine .call trivial fun err _ => closeHandle_meets.bind fun _ _ h => ?_
        split_ifs
        · exact .call trivial fun _ _ => .done h
        · exact .done h
      · exact (report_meets _).bind fun _ s' h => hclose false s' h
    · exact (report_meets _).bind fun _ s' h => hclose false s' h

lemma increaseProcessWorkingSet_meets (extraBytes : ℕ) :
    (increaseProcessWorkingSet extraBytes).Meets protocol s fun _ s' => s' = s := by
  rw [increaseProcessWorkingSet]
  refine .call trivial fun ws _ => ?_
  split_ifs
  · refine .call trivial fun set _ => ?_
    split_ifs
    · exact .call trivial fun _ _ => .done rfl
    · exact (report_meets _).bind fun _ _ h => .done h
  · exact (report_meets _).bind fun _ _ h => .done h

lemma attempt_meets {prepare : System Bool} (failed skipped : String)
    (hprepare : prepare.Meets protocol s fun _ s' => s' = s)
    (hregion : ∃ n, (p, n) ∈ s.regions ∧ bytes ≤ n) :
    (attempt prepare failed skipped p bytes).Meets protocol s
      fun locked s' => s' = s.lockedIf p bytes locked := by
  rw [attempt]
  refine hprepare.bind fun prepared _ h => ?_
  subst h
  cases prepared with
  | false => exact .call trivial fun _ _ => .done rfl
  | true =>
    refine .call hregion fun locked _ => ?_
    cases locked with
    | false => exact (report_meets _).bind fun _ _ h => .done h
    | true => exact .done rfl

lemma tryVirtualLock_meets (hregion : ∃ n, (p, n) ∈ s.regions ∧ bytes ≤ n) :
    (tryVirtualLock (some p) bytes).Meets protocol s
      fun b s' => b.1 = b.2 ∧ s' = s.lockedIf p bytes b.1 := by
  rw [tryVirtualLock]
  split_ifs
  · exact .done ⟨rfl, rfl⟩
  refine .call hregion fun locked _ => ?_
  cases locked with
  | true => exact .done ⟨rfl, rfl⟩
  | false =>
    refine (report_meets (s := s) _).bind fun _ _ h => ?_
    subst h
    refine (attempt_meets _ _ enableLockMemoryPrivilege_meets hregion).bind fun locked _ h => ?_
    cases locked with
    | true => exact .done ⟨rfl, h⟩
    | false =>
      subst h
      refine (attempt_meets _ _ (increaseProcessWorkingSet_meets bytes) hregion).bind
        fun locked _ h => ?_
      cases locked with
      | true => exact .done ⟨rfl, h⟩
      | false => exact .call trivial fun _ _ => .done ⟨rfl, h⟩

lemma virtualUnlock_meets : (call (.virtualUnlock p bytes)).Meets protocol
    { s with locked := (p, bytes) ::ₘ s.locked } fun _ s' => s' = s := by
  have hallows : (p, bytes) ∈ (p, bytes) ::ₘ s.locked := Multiset.mem_cons_self _ _
  refine .ask hallows fun ok hok => .done ?_
  obtain rfl : ok = true := hok hallows
  change { s with locked := ((p, bytes) ::ₘ s.locked).erase (p, bytes) } = s
  rw [Multiset.erase_cons_head]

lemma virtualFree_meets {n : ℕ} (hfresh : s.Fresh p) : (call (.virtualFree p)).Meets protocol
    { s with regions := (p, n) ::ₘ s.regions } fun _ s' => s' = s := by
  have hallows : (∃ n', (p, n') ∈ (p, n) ::ₘ s.regions) ∧ ∀ l ∈ s.locked, l.1 ≠ p :=
    ⟨⟨n, Multiset.mem_cons_self _ _⟩, hfresh.2⟩
  refine .ask hallows fun ok hok => .done ?_
  obtain rfl : ok = true := hok hallows
  change { s with regions := ((p, n) ::ₘ s.regions).filter fun r => r.1 ≠ p } = s
  rw [Multiset.filter_cons_of_neg _ (fun h => h rfl), Multiset.filter_eq_self.mpr hfresh.1]

variable {α : Type} {slots chunkSz : ℕ} {zero : α}

/-- How the constructor leaves the pages: as they were, or with the ring that `ChunkRing.construct`
makes in a new region of pages, all of which the ring uses are locked. -/
inductive Constructed (s : Pages) (slots chunkSz : ℕ) (zero : α) :
    Except Thrown (Placed α) → Pages → Prop
  | threw (why : Thrown) : Constructed s slots chunkSz zero (.error why) s
  | placed (ring : ChunkRing α) (p n : ℕ) (hfresh : s.Fresh p) (hroom : slots * chunkSz * sizeofFloat ≤ n)
      (hring : ∀ raw, ChunkRing.construct (fun _ => some n) slots chunkSz zero raw =
        .returned () ring) :
      Constructed s slots chunkSz zero (.ok ⟨ring, p, true⟩)
        { s with regions := (p, n) ::ₘ s.regions
                 locked := (p, slots * chunkSz * sizeofFloat) ::ₘ s.locked }

lemma construct_meets (hbytes : slots * chunkSz * sizeofFloat < word) :
    (construct slots chunkSz zero).Meets protocol s
      fun r s' => Constructed s slots chunkSz zero r s' := by
  have htotal : slots * chunkSz % word = slots * chunkSz := Nat.mod_eq_of_lt (by
    rw [sizeofFloat] at hbytes
    omega)
  have hall := Nat.mod_eq_of_lt hbytes
  rw [construct, htotal, hall]
  refine .call trivial fun r hr => ?_
  cases r with
  | none => exact .done (.threw .badAlloc)
  | some r =>
    obtain ⟨p, n⟩ := r
    obtain ⟨hroom, hfresh⟩ := hr
    have hroom : slots * chunkSz * sizeofFloat ≤ n := hroom
    refine (tryVirtualLock_meets (s := { s with regions := (p, n) ::ₘ s.regions })
      ⟨n, Multiset.mem_cons_self _ _, hroom⟩).bind fun b s' h => ?_
    obtain ⟨result, lockedOut⟩ := b
    obtain ⟨hresult, rfl⟩ := h
    obtain rfl : result = lockedOut := hresult
    cases result with
    | true =>
      have hfill : slots * chunkSz ≤ n / sizeofFloat :=
        (Nat.le_div_iff_mul_le (by decide)).mpr hroom
      rw [if_pos rfl, if_pos hfill]
      refine .done (.placed _ p n hfresh hroom fun raw => ?_)
      rw [ChunkRing.construct]
      simp only [htotal, if_pos hfill]
      rfl
    | false =>
      rw [if_neg Bool.false_ne_true]
      refine .call trivial fun err _ => ?_
      refine (virtualFree_meets hfresh).bind fun _ s' h => .done ?_
      rw [h]
      exact .threw _

lemma destroy_meets {r : Except Thrown (Placed α)} {placed : Placed α} {s' : Pages}
    (h : Constructed s slots chunkSz zero r s') (hr : r = .ok placed)
    (hbytes : slots * chunkSz * sizeofFloat < word) :
    (destroy placed).Meets protocol s' fun _ s'' => s'' = s := by
  cases h with
  | threw why => cases hr
  | placed ring p n hfresh hroom hring =>
    cases hr
    have htotal : ring.totalSamples * sizeofFloat % word = slots * chunkSz * sizeofFloat := by
      obtain ⟨_, -, -, rfl⟩ := construct_eq_returned (hring ring)
      dsimp only
      rw [Nat.mod_eq_of_lt (show slots * chunkSz < word by rw [sizeofFloat] at hbytes; omega),
        Nat.mod_eq_of_lt hbytes]
    rw [destroy, if_pos rfl, htotal]
    refine (virtualUnlock_meets (s := { s with regions := (p, n) ::ₘ s.regions })).bind
      fun _ s' h => ?_
    rw [h]
    exact (virtualFree_meets hfresh).bind fun _ _ h => .done h

lemma lifetime_meets (hbytes : slots * chunkSz * sizeofFloat < word) :
    (lifetime slots chunkSz zero).Meets protocol s fun _ s' => s' = s := by
  rw [lifetime]
  refine (construct_meets hbytes).bind fun r s' h => ?_
  cases r with
  | error why =>
    cases h
    exact .done rfl
  | ok placed => exact destroy_meets h rfl hbytes

/-- However the memory functions answer, as long as what is given back in order is taken back and the
bytes of the buffer fit in 64 bits, the constructor either throws and leaves the pages of the
process as they were, or makes the empty ring, with its samples in a region of its own that is
locked. -/
theorem construct_constructed (hbytes : slots * chunkSz * sizeofFloat < word)
    {es : List (Sigma Win32.Answer)} {r : Except Thrown (Placed α)}
    (htalk : Client.Talk (construct slots chunkSz zero) es (.done r))
    (hlawful : protocol.Lawful s es) :
    protocol.Respected s es ∧ Constructed s slots chunkSz zero r (protocol.run s es) :=
  (construct_meets hbytes).talk htalk hlawful

/-- The pages cannot be locked before the privilege is enabled. -/
def lockedLater : List (Sigma Win32.Answer) :=
  [⟨.virtualAlloc 16, some (4096, 4096)⟩, ⟨.virtualLock 4096 16, false⟩, ⟨.getLastError, 1453⟩,
    ⟨.cerr "[lock] VirtualLock initial failed: " [1453], ()⟩, ⟨.openProcessToken, (true, 7)⟩,
    ⟨.lookupPrivilegeValue "SeLockMemoryPrivilege", (true, 4)⟩, ⟨.adjustTokenPrivileges 7 4, true⟩,
    ⟨.getLastError, 0⟩, ⟨.closeHandle 7, true⟩, ⟨.virtualLock 4096 16, true⟩]

def smallPlaced : Placed ℕ := ⟨⟨2, 2, 4, List.replicate 1024 0, 0, 0⟩, 4096, true⟩

lemma talk_lockedLater : Client.Talk (construct 2 2 0) lockedLater (.done (.ok smallPlaced)) := by
  have htotal : 2 * 2 % word = 4 := Nat.mod_eq_of_lt (by rw [word]; norm_num)
  have hall : 4 * sizeofFloat % word = 16 := Nat.mod_eq_of_lt (by rw [word]; decide)
  rw [construct, htotal, hall]
  iterate 10 refine .cons ?_
  exact .nil _

lemma lawful_lockedLater : protocol.Lawful ⟨0, 0, 0⟩ lockedLater := by
  simp [lockedLater, Client.Protocol.Lawful, protocol, Answers, Fresh]

theorem lockedLater_constructed : protocol.Respected ⟨0, 0, 0⟩ lockedLater ∧
    Constructed ⟨0, 0, 0⟩ 2 2 0 (.ok smallPlaced) (protocol.run ⟨0, 0, 0⟩ lockedLater) :=
  construct_constructed (by rw [word]; decide) talk_lockedLater lawful_lockedLater

/-- Once the ring is destroyed, no page of it is reserved or locked and no token is open, and every
call was in order. -/
theorem lifetime_leaves (hbytes : slots * chunkSz * sizeofFloat < word)
    {es : List (Sigma Win32.Answer)}
    (htalk : Client.Talk (lifetime slots chunkSz zero) es (.done ()))
    (hlawful : protocol.Lawful s es) : protocol.Respected s es ∧ protocol.run s es = s :=
  (lifetime_meets hbytes).talk htalk hlawful

/-- The ring is destroyed again. -/
def lockedAndFreed : List (Sigma Win32.Answer) :=
  lockedLater ++ [⟨.virtualUnlock 4096 (4 * sizeofFloat % word), true⟩, ⟨.virtualFree 4096, true⟩]

lemma talk_lockedAndFreed : Client.Talk (lifetime 2 2 0) lockedAndFreed (.done ()) := by
  refine (talk_lockedLater.bind _).trans ?_
  exact .cons (.cons (.nil _))

theorem lockedAndFreed_leaves : protocol.Respected ⟨0, 0, 0⟩ lockedAndFreed ∧
    protocol.run ⟨0, 0, 0⟩ lockedAndFreed = ⟨0, 0, 0⟩ :=
  lifetime_leaves (by rw [word]; decide) talk_lockedAndFreed (by
    simp [lockedAndFreed, lockedLater, Client.Protocol.Lawful, protocol, Answers, Fresh])

end System

end Voxory
