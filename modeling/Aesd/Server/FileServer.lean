import Aesd.Server.Packets
import Aesd.Server.Signals
import Aesd.Server.System
import Aesd.Server.Timestamp

namespace AesdFile
open Kernel Device ClientHandler AesdSocket

-- the server where USE_AESD_CHAR_DEVICE is 0, as long as only SIGALRM comes: the bytes of
-- /var/tmp/aesdsocketdata, and for each handler the offset of the file it was given
structure FileServer where
  process : Process
  file : Bytes
  offset : ℕ → ℕ
  outgoing : ℕ → Bytes

-- O_CREAT without O_TRUNC leaves what the file held before
def fileStart (old : Bytes) : FileServer := ⟨processStart,old,fun _ => 0,fun _ => []⟩

-- none is the result -1 of a call, and a stamp is the next step of append_timestamp on a thread
inductive Step where
  | thread (l : ThreadManager.Label)
  | client (k : ℕ) (ev : Event)
  | write (k : ℕ) (result : Option ℕ)
  | read (k : ℕ) (result : Option ℕ)
  | alarm (t : ThreadManager.Thread)
  | stamp (t : ThreadManager.Thread) (result : Option ℕ) (tm : Tm)

def bufferOf (h : Handler) : Option Bytes :=
  match h.pc with
  | .writeData => some h.payload
  | .writeNewline => some [newline]
  | _ => none

namespace FileServer

def clientMove (s : FileServer) (k : ℕ) (ev : Event) : Option FileServer :=
  (processStep false s.process (.client k ev)).map fun p => { s with
    process := p,
    outgoing := Function.update s.outgoing k
      (AesdServer.outgoingAfter (s.process.handlers k) (s.outgoing k) ev) }

-- with O_APPEND the bytes go to the end of the file, and that is where the offset then is, but a
-- write of no bytes leaves it
def append (s : FileServer) (buf : Bytes) : FileServer := { s with file := s.file ++ buf }

def seekEnd (s : FileServer) (k n : ℕ) : FileServer :=
  { s with offset := Function.update s.offset k (if n = 0 then s.offset k else s.file.length) }

def advance (s : FileServer) (k n : ℕ) : FileServer :=
  { s with offset := Function.update s.offset k (s.offset k + n) }

def unread (s : FileServer) (k : ℕ) : Bytes := s.file.drop (s.offset k)

def stamping (s : FileServer) (t : ThreadManager.Thread) : Bool :=
  (s.process.frames t).head?.any fun f => f.pc = .writeFile

end FileServer

-- a read gives no bytes only at the end of the file
def fileServerStep (s : FileServer) : Step → Option FileServer
  | .thread l => (processStep false s.process (.thread l)).map fun p => { s with process := p }
  | .client k ev => if AesdServer.Event.own ev then s.clientMove k ev else none
  | .write k result => match bufferOf (s.process.handlers k), result with
      | some _, none => s.clientMove k (.write false)
      | some buf, some n =>
          if n ≤ buf.length then
            (s.clientMove k (.write true)).map fun s => (s.append (buf.take n)).seekEnd k n
          else none
      | none, _ => none
  | .read k result => match result with
      | none => s.clientMove k (.read none)
      | some n =>
          if n ≤ bufferSize ∧ n ≤ (s.unread k).length ∧ (n = 0 → s.unread k = []) then
            (s.clientMove k (.read (some ((s.unread k).take n)))).map (·.advance k n)
          else none
  | .alarm t => (processStep false s.process (.deliver t .sigalrm)).map fun p =>
      { s with process := p }
  | .stamp t result tm =>
      (processStep false s.process (.handler t result.isSome)).map fun p =>
        if s.stamping t then { s with process := p }.append ((timestamp tm).take (result.getD 0))
        else { s with process := p }

-- every write takes all it is given, or fails
def Whole (s : FileServer) : Step → Prop
  | .write k (some n) => ∀ buf ∈ bufferOf (s.process.handlers k), n = buf.length
  | .stamp t (some n) tm => s.stamping t = true → n = (timestamp tm).length
  | _ => True

instance (s : FileServer) : (l : Step) → Decidable (Whole s l)
  | .write k (some _) => inferInstanceAs (Decidable (∀ buf ∈ bufferOf (s.process.handlers k), _))
  | .stamp _ (some _) _ => inferInstanceAs (Decidable (_ → _))
  | .thread _ | .client _ _ | .write _ none | .read _ _ | .alarm _ | .stamp _ none _ =>
      inferInstanceAs (Decidable True)

-- the lines completed in the file, each with the handler it came from, or none for a timestamp
def committed (s : FileServer) : Step → List (Option ℕ × Bytes)
  | .write k (some _) =>
      if (s.process.handlers k).pc = .writeNewline then
        [(some k,(s.process.handlers k).payload ++ [newline])]
      else []
  | .stamp t (some _) tm => if s.stamping t then [(none,timestamp tm)] else []
  | _ => []

def log (old : Bytes) (ls : List Step) : List (Option ℕ × Bytes) :=
  Runs.outputs fileServerStep committed (fileStart old) ls

-- the bytes that a step adds to the file
def added (s : FileServer) : Step → Bytes
  | .write k (some n) => ((bufferOf (s.process.handlers k)).getD []).take n
  | .stamp t (some n) tm => if s.stamping t then (timestamp tm).take n else []
  | _ => []

def eventAt (s : FileServer) : Step → Option (ℕ × Event)
  | .client k ev => some (k,ev)
  | .write k result => some (k,.write result.isSome)
  | .read k result => some (k,.read (result.map fun n => (s.unread k).take n))
  | _ => none

def eventOf (k : ℕ) (s : FileServer) (l : Step) : List Event :=
  match eventAt s l with
  | some (j,ev) => if j = k then [ev] else []
  | none => []

def eventsOf (old : Bytes) (k : ℕ) (ls : List Step) : List Event :=
  Runs.outputs fileServerStep (eventOf k) (fileStart old) ls

-- how an event of handler k leaves file_mutex
inductive MutexMove (before : Option ThreadManager.Thread) (k : ℕ) :
    Event → Option ThreadManager.Thread → Prop
  | locked (hf : before = none) : MutexMove before k .lock (some (.worker k))
  | unlocked : MutexMove before k .unlock none
  | kept {ev : Event} (hl : ev ≠ .lock) (hu : ev ≠ .unlock) : MutexMove before k ev before

structure ClientMoved (p : Process) (k : ℕ) (ev : Event) (p' : Process) : Prop where
  free : p.frames (.worker k) = []
  stepped : clientStep false (p.handlers k) ev = some (p'.handlers k)
  others : ∀ j, j ≠ k → p'.handlers j = p.handlers j
  frames : p'.frames = p.frames
  mutex : MutexMove p.fileMutex k ev p'.fileMutex

section Inversion
variable {s s' : FileServer} {l : Step} {p p' : Process} {k : ℕ} {ev : Event}

theorem mutex_move (h : AesdSocket.fileStep p k ev = some p') :
    MutexMove p.fileMutex k ev p'.fileMutex := by
  cases ev with
  | lock =>
    obtain ⟨hf,rfl⟩ := lock_file_some h
    exact .locked hf
  | unlock =>
    cases h
    exact .unlocked
  | recv | tau | branch | ioctl | write | read | send =>
    cases h
    exact .kept (by simp) (by simp)

theorem client_process (h : processStep false p (.client k ev) = some p') :
    ClientMoved p k ev p' := by
  cases process_step_move h with
  | @client _ _ h' p₁ hfree _ hc hf =>
    have hframes : p₁.frames = p.frames := by rw [file_step_same hf]
    have hhandlers : p₁.handlers = p.handlers := by rw [file_step_same hf]
    have hmutex : MutexMove p.fileMutex k ev p₁.fileMutex := mutex_move hf
    refine ⟨hfree,?_,fun j hj => ?_,hframes,hmutex⟩
    · simpa only [Function.update_self] using hc
    · exact (Function.update_of_ne hj ..).trans (congrFun hhandlers j)

theorem client_move_some {s₁ : FileServer} (h : s.clientMove k ev = some s₁) :
    ClientMoved s.process k ev s₁.process ∧ s₁.file = s.file ∧ s₁.offset = s.offset ∧
      s₁.outgoing = Function.update s.outgoing k
        (AesdServer.outgoingAfter (s.process.handlers k) (s.outgoing k) ev) := by
  obtain ⟨p,hp,rfl⟩ := Option.map_eq_some_iff.mp h
  exact ⟨client_process hp,rfl,rfl,rfl⟩

theorem file_added (h : fileServerStep s l = some s') : s'.file = s.file ++ added s l := by
  cases l with
  | thread l | alarm t =>
    obtain ⟨p,-,rfl⟩ := Option.map_eq_some_iff.mp h
    exact (List.append_nil _).symm
  | client k ev =>
    simp only [fileServerStep] at h
    split_ifs at h
    exact (client_move_some h).2.1.trans (List.append_nil _).symm
  | write k result =>
    simp only [fileServerStep] at h
    split at h
    · exact (client_move_some h).2.1.trans (List.append_nil _).symm
    · split_ifs at h
      obtain ⟨s₁,h₁,rfl⟩ := Option.map_eq_some_iff.mp h
      have hfile := (client_move_some h₁).2.1
      simp [FileServer.seekEnd,FileServer.append,added,hfile,‹bufferOf _ = _›]
    · cases h
  | read k result =>
    simp only [fileServerStep] at h
    split at h
    · exact (client_move_some h).2.1.trans (List.append_nil _).symm
    · split_ifs at h
      obtain ⟨s₁,h₁,rfl⟩ := Option.map_eq_some_iff.mp h
      have hfile := (client_move_some h₁).2.1
      simp [FileServer.advance,added,hfile]
  | stamp t result tm =>
    obtain ⟨p,-,rfl⟩ := Option.map_eq_some_iff.mp h
    cases result with
    | none => split_ifs <;> simp [FileServer.append,added]
    | some n => split_ifs with hs <;> simp [FileServer.append,added,hs]

theorem client_at (h : fileServerStep s l = some s') (he : eventAt s l = some (k,ev)) :
    ClientMoved s.process k ev s'.process := by
  cases l with
  | thread | alarm | stamp => cases he
  | client j ev' =>
    cases he
    simp only [fileServerStep] at h
    split_ifs at h
    exact (client_move_some h).1
  | write j result =>
    cases he
    simp only [fileServerStep] at h
    split at h
    · exact (client_move_some h).1
    · split_ifs at h
      obtain ⟨s₁,h₁,rfl⟩ := Option.map_eq_some_iff.mp h
      exact (client_move_some h₁).1
    · cases h
  | read j result =>
    cases he
    simp only [fileServerStep] at h
    split at h
    · exact (client_move_some h).1
    · split_ifs at h
      obtain ⟨s₁,h₁,rfl⟩ := Option.map_eq_some_iff.mp h
      exact (client_move_some h₁).1

end Inversion

end AesdFile
