import Aesd.Server.Assembly

namespace ClientHandler
open Kernel Device

-- what the calls of the loop return, with none for -1
inductive RelayCall where
  | read (result : Option Bytes)
  | send (result : Option ℕ)
  deriving DecidableEq, Repr

inductive RelayPc where
  | read
  | send (bytesRead : UInt64)
  | done
  deriving DecidableEq, Repr

-- file_content is the memory from the start of the array on
structure Relay where
  pc : RelayPc
  fileContent : ℕ → UInt8

namespace RelayCall

def failed : RelayCall → Bool
  | read none | send none => true
  | _ => false

def event : RelayCall → Event
  | read result => .read result
  | send result => .send (result.getD 0)

end RelayCall

namespace Relay

def passed (m : Relay) (bytesRead : UInt64) : Bytes := (List.range bytesRead.toNat).map m.fileContent

def inFlight (m : Relay) : Bytes :=
  match m.pc with
  | .send bytesRead => m.passed bytesRead
  | _ => []

def assign (m : Relay) (result : ℤ) : Relay :=
  let bytesRead := toSize result
  { m with pc := if bytesRead > 0 then .send bytesRead else .done }

end Relay

def relayStep (m : Relay) (call : RelayCall) : Option Relay :=
  match m.pc, call with
  | .read, .read none => some (m.assign (-1))
  | .read, .read (some data) =>
      if data.length ≤ bufferSize then
        some (Relay.assign { m with fileContent := overlay m.fileContent data } data.length)
      else none
  | .send _, .send none => some { m with pc := .read }
  | .send bytesRead, .send (some accepted) =>
      if accepted ≤ bytesRead.toNat then some { m with pc := .read } else none
  | _, _ => none

def delivered (_ : Relay) : RelayCall → Bytes
  | .read (some data) => data
  | _ => []

def accepted (m : Relay) : RelayCall → Bytes
  | .send (some accepted) => m.inFlight.take accepted
  | _ => []

def relayStart (fileContent : ℕ → UInt8) : Relay := ⟨.read,fileContent⟩

structure RelayExact (fileContent : ℕ → UInt8) (calls : List RelayCall) (m : Relay) : Prop where
  passes : ∀ bytesRead, m.pc = .send bytesRead → bytesRead.toNat ≤ bufferSize ∧
    ∃ data, calls.getLast? = some (.read (some data)) ∧ m.passed bytesRead <+: data
  stops : m.pc = .done ↔
    calls.getLast? = some (.read none) ∨ calls.getLast? = some (.read (some []))
  relays : (∀ call ∈ calls, call.failed = false) →
    Runs.outputs relayStep accepted (relayStart fileContent) calls ++ m.inFlight =
      Runs.outputs relayStep delivered (relayStart fileContent) calls

-- no read fails, and before the first failed send every send takes the whole chunk
def Whole (calls : List RelayCall) : RelayCall → Prop
  | .read result => result ≠ none
  | .send none => True
  | .send (some accepted) => (∀ call ∈ calls, call.failed = false) →
      ∀ data, calls.getLast? = some (.read (some data)) → accepted = data.length

inductive RelayMove (m : Relay) : RelayCall → Relay → Prop
  | failed (hpc : m.pc = .read) : RelayMove m (.read none) { m with pc := .send (toSize (-1)) }
  | ended (hpc : m.pc = .read) : RelayMove m (.read (some [])) { m with pc := .done }
  | fetched (hpc : m.pc = .read) {data : Bytes} (hne : data ≠ []) (hlen : data.length ≤ bufferSize) :
      RelayMove m (.read (some data)) ⟨.send (toSize data.length),overlay m.fileContent data⟩
  | unsent {bytesRead : UInt64} (hpc : m.pc = .send bytesRead) :
      RelayMove m (.send none) { m with pc := .read }
  | sent {bytesRead : UInt64} (hpc : m.pc = .send bytesRead) {accepted : ℕ}
      (ha : accepted ≤ bytesRead.toNat) :
      RelayMove m (.send (some accepted)) { m with pc := .read }

def Handler.Relays (h : Handler) (m : Relay) : Prop :=
  match m.pc with
  | .read => h.pc = .read
  | .send bytesRead => ∃ content, h.pc = .send content ∧
      (∀ data ∈ content, data.length ≤ bufferSize ∧ bytesRead = toSize data.length)
  | .done => h.pc = .byte

section Relaying
variable {file : ℕ → UInt8} {m m' : Relay} {call : RelayCall} {calls : List RelayCall}

theorem to_size_small {n : ℕ} (h : n ≤ bufferSize) : (toSize n).toNat = n := by
  have hlt : n < 2^64 := Nat.lt_of_le_of_lt h (by decide)
  have hmod : ((n : ℤ) % 2^64).toNat = n := by omega
  rw [toSize,hmod]
  exact UInt64.toNat_ofNat_of_lt hlt

@[simp] theorem in_flight_read (file : ℕ → UInt8) : Relay.inFlight ⟨.read,file⟩ = [] := rfl

@[simp] theorem in_flight_done (file : ℕ → UInt8) : Relay.inFlight ⟨.done,file⟩ = [] := rfl

@[simp] theorem in_flight_send (file : ℕ → UInt8) (bytesRead : UInt64) :
    Relay.inFlight ⟨.send bytesRead,file⟩ = Relay.passed ⟨.send bytesRead,file⟩ bytesRead := rfl

theorem assign_empty (m : Relay) : m.assign (0 : ℕ) = { m with pc := .done } := rfl

theorem assign_nonempty (m : Relay) {n : ℕ} (h0 : 0 < n) (h : n ≤ bufferSize) :
    m.assign n = { m with pc := .send (toSize n) } := by
  have hpos : toSize n > 0 := by
    rw [gt_iff_lt,UInt64.lt_iff_toNat_lt,to_size_small h]
    exact h0
  simp [Relay.assign,hpos]

theorem relay_move (hs : relayStep m call = some m') : RelayMove m call m' := by
  unfold relayStep at hs
  split at hs
  · cases hs
    exact .failed ‹_›
  · rename_i data hpc
    split_ifs at hs with hlen
    cases hs
    cases data with
    | nil =>
      rw [List.length_nil,assign_empty]
      exact .ended hpc
    | cons b data =>
      rw [assign_nonempty _ (by simp) hlen]
      exact .fetched hpc (by simp) hlen
  · cases hs
    exact .unsent ‹_›
  · split_ifs at hs with ha
    cases hs
    exact .sent ‹_› ha
  · cases hs

theorem passed_fetched {data : Bytes} (hlen : data.length ≤ bufferSize) :
    Relay.passed ⟨.send (toSize data.length),overlay m.fileContent data⟩ (toSize data.length) =
      data := by
  rw [Relay.passed,to_size_small hlen]
  exact buffered_bytes m.fileContent data

theorem in_flight_chunk (hr : Runs.run relayStep (relayStart file) calls = some m)
    {bytesRead : UInt64} (hpc : m.pc = .send bytesRead)
    (hok : ∀ call ∈ calls, call.failed = false) :
    ∃ data, calls.getLast? = some (.read (some data)) ∧ m.inFlight = data := by
  rcases List.eq_nil_or_concat calls with rfl | ⟨before,call,rfl⟩
  · cases hr
    cases hpc
  · rw [List.concat_eq_append] at hr hok ⊢
    obtain ⟨m₀,-,hs⟩ := Runs.run_snoc hr
    cases relay_move hs with
    | failed => simpa [RelayCall.failed] using hok (.read none) (by simp)
    | fetched _ _ hlen =>
      exact ⟨_,by simp,passed_fetched hlen⟩
    | ended | unsent | sent => cases hpc

theorem relay_exact_start : RelayExact file [] (relayStart file) :=
  ⟨nofun,by simp [relayStart],fun _ => rfl⟩

theorem relay_exact_snoc (hr : Runs.run relayStep (relayStart file) calls = some m)
    (hi : RelayExact file calls m) (hs : relayStep m call = some m') :
    RelayExact file (calls ++ [call]) m' ↔ Whole calls call := by
  have hacc : Runs.outputs relayStep accepted (relayStart file) (calls ++ [call]) =
      Runs.outputs relayStep accepted (relayStart file) calls ++ accepted m call :=
    Runs.outputs_snoc hr hs
  have hdel : Runs.outputs relayStep delivered (relayStart file) (calls ++ [call]) =
      Runs.outputs relayStep delivered (relayStart file) calls ++ delivered m call :=
    Runs.outputs_snoc hr hs
  have hbefore (h : ∀ c ∈ calls ++ [call], c.failed = false) : ∀ c ∈ calls, c.failed = false :=
    fun c hc => h c (by simp [hc])
  cases relay_move hs with
  | failed hpc =>
    refine iff_of_false (fun h => ?_) (fun h => h rfl)
    have hle := (h.passes (toSize (-1)) rfl).1
    exact absurd hle (by decide)
  | ended hpc =>
    refine iff_of_true ⟨nofun,by simp,fun hok => ?_⟩ (by simp [Whole])
    have hprev := hi.relays (hbefore hok)
    rw [Relay.inFlight,hpc] at hprev
    rw [hacc,hdel,← hprev]
    simp [accepted,delivered]
  | @fetched hpc data hne hlen =>
    have hpassed := passed_fetched (m := m) hlen
    refine iff_of_true ⟨?_,by simp [hne],fun hok => ?_⟩ (by simp [Whole])
    · intro bytesRead h
      cases h
      exact ⟨by rw [to_size_small hlen]; exact hlen,data,by simp,[],by rw [List.append_nil,hpassed]⟩
    · have hprev := hi.relays (hbefore hok)
      rw [Relay.inFlight,hpc] at hprev
      rw [hacc,hdel,← hprev]
      simp [accepted,delivered,hpassed]
  | unsent hpc =>
    refine iff_of_true ⟨nofun,by simp,fun hok => ?_⟩ trivial
    simpa [RelayCall.failed] using hok (.send none) (by simp)
  | @sent bytesRead hpc n ha =>
    constructor
    · intro h hok data hlast
      have hall : ∀ c ∈ calls ++ [RelayCall.send (some n)], c.failed = false := by
        intro c hc
        rcases List.mem_append.mp hc with hc | hc
        · exact hok c hc
        · simp only [List.mem_singleton] at hc
          rw [hc]
          rfl
      have hrelays := h.relays hall
      obtain ⟨data',hlast',hflight⟩ := in_flight_chunk hr hpc hok
      rw [hlast'] at hlast
      cases hlast
      rw [hacc,hdel,← hi.relays hok] at hrelays
      have hlen := congrArg List.length hrelays
      have hle : n ≤ data.length := by
        rw [← hflight,Relay.inFlight,hpc]
        simpa [Relay.passed] using ha
      simp [accepted,delivered,hflight] at hlen
      omega
    · intro h
      refine ⟨nofun,by simp,fun hall => ?_⟩
      have hok := hbefore hall
      obtain ⟨data,hlast,hflight⟩ := in_flight_chunk hr hpc hok
      rw [hacc,hdel,← hi.relays hok,hflight,h hok data hlast]
      simp [accepted,delivered,hflight]

theorem relay_exact_iff (hr : Runs.run relayStep (relayStart file) calls = some m) :
    (∀ before, before <+: calls → ∀ m, Runs.run relayStep (relayStart file) before = some m →
      RelayExact file before m) ↔
        ∀ before call, before ++ [call] <+: calls → Whole before call :=
  Runs.prefixes_iff_steps relay_exact_start (fun _ _ _ _ => relay_exact_snoc) hr

theorem handler_relays {h : Handler} (hm : h.Relays m) (hs : relayStep m call = some m') :
    ∃ h', step h call.event = some h' ∧ h'.Relays m' := by
  cases relay_move hs with
  | failed hpc =>
    rw [Handler.Relays,hpc] at hm
    exact ⟨{ h with pc := .send none },by simp [step,hm,RelayCall.event],none,rfl,by simp⟩
  | ended hpc =>
    rw [Handler.Relays,hpc] at hm
    exact ⟨h.nextByte,by simp [step,hm,RelayCall.event],rfl⟩
  | @fetched hpc data hne hlen =>
    rw [Handler.Relays,hpc] at hm
    refine ⟨{ h with pc := .send (some data) },?_,some data,rfl,by simpa using hlen⟩
    simp [step,hm,RelayCall.event,hne,hlen]
  | unsent hpc =>
    rw [Handler.Relays,hpc] at hm
    obtain ⟨content,hc,-⟩ := hm
    exact ⟨{ h with pc := .read },by simp [step,hc,RelayCall.event],rfl⟩
  | @sent bytesRead hpc n ha =>
    rw [Handler.Relays,hpc] at hm
    obtain ⟨content,hc,hsize⟩ := hm
    have hfit : ∀ data ∈ content, n ≤ data.length := by
      intro data hd
      obtain ⟨hlen,rfl⟩ := hsize data hd
      rwa [to_size_small hlen] at ha
    exact ⟨{ h with pc := .read },by simpa [step,hc,RelayCall.event] using hfit,rfl⟩

theorem handler_run_relays {h : Handler} (hm : h.Relays m)
    (hr : Runs.run relayStep m calls = some m') :
    ∃ h', Runs.run step h (calls.map RelayCall.event) = some h' ∧ h'.Relays m' := by
  induction calls generalizing m h with
  | nil =>
    cases hr
    exact ⟨h,rfl,hm⟩
  | cons call calls ih =>
    obtain ⟨m₁,hs,hr⟩ := Runs.run_cons hr
    obtain ⟨h₁,hstep,hm₁⟩ := handler_relays hm hs
    obtain ⟨h',hrun,hm'⟩ := ih hm₁ hr
    exact ⟨h',by rw [List.map_cons,Runs.run_next hstep]; exact hrun,hm'⟩

end Relaying

theorem relay_exact_iff_two_bytes :
    ∃ m, Runs.run relayStep (relayStart fun _ => 0)
        [.read (some [1,2]),.send (some 2),.read (some [])] = some m ∧
      ((∀ before, before <+: [.read (some [1,2]),.send (some 2),.read (some [])] →
        ∀ m, Runs.run relayStep (relayStart fun _ => 0) before = some m →
          RelayExact (fun _ => 0) before m) ↔
        ∀ before call, before ++ [call] <+: [.read (some [1,2]),.send (some 2),.read (some [])] →
          Whole before call) :=
  ⟨_,rfl,relay_exact_iff rfl⟩

theorem relay_of_failed_read_and_short_send :
    (∃ m, Runs.run relayStep (relayStart fun _ => 0) [.read none] = some m ∧
      m.pc = .send 18446744073709551615 ∧ ¬ RelayExact (fun _ => 0) [.read none] m) ∧
    (∃ m, Runs.run relayStep (relayStart fun _ => 0) [.read (some [1,2]),.send (some 1)] = some m ∧
      ¬ RelayExact (fun _ => 0) [.read (some [1,2]),.send (some 1)] m) := by
  refine ⟨⟨_,rfl,by decide,fun h => ?_⟩,_,rfl,fun h => ?_⟩
  · exact absurd (h.passes (toSize (-1)) rfl).1 (by decide)
  · exact absurd (h.relays (by decide)) (by decide)

end ClientHandler
