import Aesd.Server.AcceptLoop
import Aesd.Server.ClientHandler

namespace AesdSocket
open Kernel ThreadManager ClientHandler

-- where USE_AESD_CHAR_DEVICE is 0 no packet is taken for an ioctl command
def clientStep (useAesdCharDevice : Bool) (h : Handler) (ev : Event) : Option Handler :=
  match h.pc, ev with
  | .branch, .branch _ => if useAesdCharDevice then step h ev else some { h with pc := .writeData }
  | _, _ => step h ev

inductive Signal where
  | sigalrm
  | sigint
  | sigterm
  deriving DecidableEq, Repr

-- append_timestamp from open to close, then cleanup_server and exit
inductive FramePc where
  | openFile
  | lockFile
  | writeFile
  | unlockFile
  | closeFile
  | freeall (pc : FreeallPc)
  | closeServer
  | freeAddrinfo
  | closeLog
  | exit
  deriving DecidableEq, Repr

def FramePc.timestamp : FramePc → Bool
  | .openFile | .lockFile | .writeFile | .unlockFile | .closeFile => true
  | _ => false

def FramePc.inFile : FramePc → Bool
  | .writeFile | .unlockFile => true
  | _ => false

structure Frame where
  sig : Signal
  pc : FramePc
  deriving DecidableEq, Repr

def signalHandler (sig : Signal) : Frame :=
  ⟨sig,if sig = .sigalrm then .openFile else .freeall .check⟩

def cleaning (fs : List Frame) : Bool := fs.any fun f => f.sig ≠ .sigalrm

-- frames holds the handlers that run on a thread, the innermost first
structure Process where
  server : Server
  handlers : ℕ → Handler
  fileMutex : Option Thread
  frames : Thread → List Frame
  exited : Bool

def processStart : Process := ⟨serverStart,fun _ => init,none,fun _ => [],false⟩

namespace Process

def setFrames (s : Process) (t : Thread) (fs : List Frame) : Process :=
  { s with frames := Function.update s.frames t fs }

def setFile (s : Process) (t : Option Thread) : Process := { s with fileMutex := t }

def setManager (s : Process) (m : Manager) : Process :=
  { s with server := { s.server with manager := m } }

def lockFile (s : Process) (t : Thread) : Option Process :=
  if s.fileMutex = none then some (s.setFile (some t)) else none

def alive (s : Process) : Thread → Bool
  | .main => true
  | .worker k => (s.server.manager.workers k).any fun w =>
      w.pc ≠ .returned && w.pc ≠ .joined && w.pc ≠ .undefined

def servingPc (s : Process) (k : ℕ) : Bool :=
  (s.server.manager.workers k).any fun w => w.pc = .serving

end Process

inductive Label where
  | thread (l : ThreadManager.Label)
  | client (k : ℕ) (ev : Event)
  | deliver (t : Thread) (sig : Signal)
  | handler (t : Thread) (ok : Bool)

def threadOf : ThreadManager.Label → Thread
  | .worker k => .worker k
  | _ => .main

-- accept_connections never returns, and a worker leaves its loop when recv has returned 0 or less
def threadStep (s : Process) (l : ThreadManager.Label) : Option Process :=
  match l with
  | .freeall => none
  | .worker k =>
      if s.servingPc k ∧ (s.handlers k).pc ≠ .exited then none
      else (serverStep s.server l).map fun server => { s with server := server }
  | _ => (serverStep s.server l).map fun server => { s with server := server }

def fileStep (s : Process) (k : ℕ) : Event → Option Process
  | .lock => s.lockFile (.worker k)
  | .unlock => some (s.setFile none)
  | _ => some s

def runClient (useAesdCharDevice : Bool) (s : Process) (k : ℕ) (ev : Event) : Option Process := do
  let h ← clientStep useAesdCharDevice (s.handlers k) ev
  let s ← fileStep s k ev
  return { s with handlers := Function.update s.handlers k h }

def cleanupServer (t : Thread) (m : Manager) : FramePc → Option (FramePc × Manager)
  | .freeall .done => some (.closeServer,m)
  | .freeall pc => (freeallStep t m pc).map fun x => (.freeall x.1,x.2)
  | .closeServer => some (.freeAddrinfo,m)
  | .freeAddrinfo => some (.closeLog,m)
  | .closeLog => some (.exit,m)
  | _ => none

-- ok is the result of open, that of write does not matter
def frameStep (s : Process) (t : Thread) (ok : Bool) (f : Frame) (below : List Frame) :
    Option Process :=
  match f.pc with
  | .openFile => some (s.setFrames t (if ok then ⟨f.sig,.lockFile⟩ :: below else below))
  | .lockFile => (s.lockFile t).map (·.setFrames t (⟨f.sig,.writeFile⟩ :: below))
  | .writeFile => some (s.setFrames t (⟨f.sig,.unlockFile⟩ :: below))
  | .unlockFile => some ((s.setFile none).setFrames t (⟨f.sig,.closeFile⟩ :: below))
  | .closeFile => some (s.setFrames t below)
  | .exit => some { s with exited := true }
  | pc => (cleanupServer t s.server.manager pc).map fun x =>
      (s.setManager x.2).setFrames t (⟨f.sig,x.1⟩ :: below)

-- initialize_timer installs the handlers, and only where USE_AESD_CHAR_DEVICE is 0; a signal is
-- blocked on a thread while its own handler runs there
def processStep (useAesdCharDevice : Bool) (s : Process) (l : Label) : Option Process :=
  if s.exited then none
  else match l with
    | .thread l => if s.frames (threadOf l) = [] then threadStep s l else none
    | .client k ev =>
        if s.frames (.worker k) = [] ∧ s.servingPc k then
          runClient useAesdCharDevice s k ev
        else none
    | .deliver t sig =>
        if !useAesdCharDevice ∧ s.alive t ∧ ∀ f ∈ s.frames t, f.sig ≠ sig then
          some (s.setFrames t (signalHandler sig :: s.frames t))
        else none
    | .handler t ok => match s.frames t with
        | [] => none
        | f :: below => frameStep s t ok f below

def accepted : List ThreadManager.Label := connection 4 5 70 ++ [.main,.main,.worker 0]

def connected : List Label := accepted.map .thread

-- main handles sig for n steps
def handled (sig : Signal) (n : ℕ) : List Label :=
  .deliver .main sig :: List.replicate n (.handler .main true)

def disconnected : List Label := .client 0 (.recv []) :: List.replicate 6 (.thread (.worker 0))

inductive FrameMove (s : Process) (t : Thread) (f : Frame) (below : List Frame) : Process → Prop
  | opened (hpc : f.pc = .openFile) : FrameMove s t f below
      (s.setFrames t (⟨f.sig,.lockFile⟩ :: below))
  | openFailed (hpc : f.pc = .openFile) : FrameMove s t f below (s.setFrames t below)
  | locked (hpc : f.pc = .lockFile) (hf : s.fileMutex = none) : FrameMove s t f below
      ((s.setFile (some t)).setFrames t (⟨f.sig,.writeFile⟩ :: below))
  | wrote (hpc : f.pc = .writeFile) : FrameMove s t f below
      (s.setFrames t (⟨f.sig,.unlockFile⟩ :: below))
  | unlocked (hpc : f.pc = .unlockFile) : FrameMove s t f below
      ((s.setFile none).setFrames t (⟨f.sig,.closeFile⟩ :: below))
  | closed (hpc : f.pc = .closeFile) : FrameMove s t f below (s.setFrames t below)
  | freed (hpc : f.pc = .freeall .done) : FrameMove s t f below
      (s.setFrames t (⟨f.sig,.closeServer⟩ :: below))
  | freeing {pc pc' : FreeallPc} {m : Manager} (hpc : f.pc = .freeall pc)
      (hm : FreeallMove t s.server.manager pc pc' m) : FrameMove s t f below
      ((s.setManager m).setFrames t (⟨f.sig,.freeall pc'⟩ :: below))
  | serverClosed (hpc : f.pc = .closeServer) : FrameMove s t f below
      (s.setFrames t (⟨f.sig,.freeAddrinfo⟩ :: below))
  | addrinfoFreed (hpc : f.pc = .freeAddrinfo) : FrameMove s t f below
      (s.setFrames t (⟨f.sig,.closeLog⟩ :: below))
  | logClosed (hpc : f.pc = .closeLog) : FrameMove s t f below
      (s.setFrames t (⟨f.sig,.exit⟩ :: below))
  | exited (hpc : f.pc = .exit) : FrameMove s t f below { s with exited := true }

inductive ProcessMove (useAesdCharDevice : Bool) (s : Process) : Label → Process → Prop
  | thread {l : ThreadManager.Label} {server : Server} (hl : l ≠ .freeall)
      (hfree : s.frames (threadOf l) = []) (hs : serverStep s.server l = some server) :
      ProcessMove useAesdCharDevice s (.thread l) { s with server := server }
  | client {k : ℕ} {ev : Event} {h : Handler} {s₁ : Process} (hfree : s.frames (.worker k) = [])
      (hk : s.servingPc k = true) (hc : clientStep useAesdCharDevice (s.handlers k) ev = some h)
      (hf : fileStep s k ev = some s₁) :
      ProcessMove useAesdCharDevice s (.client k ev) { s₁ with handlers := Function.update s₁.handlers k h }
  | delivered {t : Thread} {sig : Signal} (hd : useAesdCharDevice = false) (ha : s.alive t = true)
      (hb : ∀ f ∈ s.frames t, f.sig ≠ sig) :
      ProcessMove useAesdCharDevice s (.deliver t sig) (s.setFrames t (signalHandler sig :: s.frames t))
  | handler {t : Thread} {ok : Bool} {f : Frame} {below : List Frame} {s' : Process}
      (hf : s.frames t = f :: below) (hm : FrameMove s t f below s') :
      ProcessMove useAesdCharDevice s (.handler t ok) s'

section Inversion
variable {s s' : Process} {t : Thread} {f : Frame} {below : List Frame} {l : Label} {ok : Bool}

theorem lock_file_some (h : s.lockFile t = some s') :
    s.fileMutex = none ∧ s' = s.setFile (some t) := by
  unfold Process.lockFile at h
  split_ifs at h with hf
  cases h
  exact ⟨hf,rfl⟩

theorem file_step_same {k : ℕ} {ev : Event} (h : fileStep s k ev = some s') :
    s' = { s with fileMutex := s'.fileMutex } := by
  cases ev with
  | lock =>
    obtain ⟨-,rfl⟩ := lock_file_some h
    rfl
  | unlock | recv | tau | branch | ioctl | write | read | send =>
    cases h
    rfl

theorem frame_step_move (h : frameStep s t ok f below = some s') : FrameMove s t f below s' := by
  unfold frameStep at h
  split at h
  · cases h
    split_ifs
    · exact .opened ‹_›
    · exact .openFailed ‹_›
  · obtain ⟨s₁,hl,rfl⟩ := Option.map_eq_some_iff.mp h
    obtain ⟨hf,rfl⟩ := lock_file_some hl
    exact .locked ‹_› hf
  · cases h
    exact .wrote ‹_›
  · cases h
    exact .unlocked ‹_›
  · cases h
    exact .closed ‹_›
  · cases h
    exact .exited ‹_›
  · obtain ⟨x,hx,rfl⟩ := Option.map_eq_some_iff.mp h
    unfold cleanupServer at hx
    split at hx
    · cases hx
      exact .freed ‹_›
    · obtain ⟨y,hy,rfl⟩ := Option.map_eq_some_iff.mp hx
      exact .freeing ‹_› (freeall_step_move hy)
    · cases hx
      exact .serverClosed ‹_›
    · cases hx
      exact .addrinfoFreed ‹_›
    · cases hx
      exact .logClosed ‹_›
    · cases hx

theorem thread_step_some {l : ThreadManager.Label} (h : threadStep s l = some s') : l ≠ .freeall ∧
    ∃ server, serverStep s.server l = some server ∧ s' = { s with server := server } := by
  unfold threadStep at h
  split at h
  · cases h
  · split_ifs at h
    obtain ⟨server,hs,rfl⟩ := Option.map_eq_some_iff.mp h
    exact ⟨by simp,server,hs,rfl⟩
  · obtain ⟨server,hs,rfl⟩ := Option.map_eq_some_iff.mp h
    exact ⟨‹_›,server,hs,rfl⟩

theorem process_step_move {dev : Bool} (h : processStep dev s l = some s') :
    ProcessMove dev s l s' := by
  unfold processStep at h
  split_ifs at h
  cases l with
  | thread l =>
    simp only at h
    split_ifs at h with hfree
    obtain ⟨hl,server,hs,rfl⟩ := thread_step_some h
    exact .thread hl hfree hs
  | client k ev =>
    simp only at h
    split_ifs at h with hfree
    simp only [runClient,Option.bind_eq_bind,Option.bind_eq_some_iff,Option.pure_def,
      Option.some.injEq] at h
    obtain ⟨h',hc,s₁,hf,rfl⟩ := h
    exact .client hfree.1 hfree.2 hc hf
  | deliver t sig =>
    simp only at h
    split_ifs at h with ha
    cases h
    exact .delivered (by simpa using ha.1) ha.2.1 ha.2.2
  | handler t ok =>
    simp only at h
    split at h
    · cases h
    · exact .handler ‹_› (frame_step_move h)

theorem signal_handler_kind (sig : Signal) :
    (signalHandler sig).sig = .sigalrm ↔ (signalHandler sig).pc.timestamp = true := by
  cases sig <;> simp [signalHandler,FramePc.timestamp]

theorem alive_started {k : ℕ}
    (hfresh : ∀ p, s.server.manager.next ≤ p → s.server.manager.workers p = none)
    (ha : s.alive (.worker k) = true) : k < s.server.manager.next := by
  by_contra hge
  have hnone := hfresh k (Nat.le_of_not_lt hge)
  simp [Process.alive,hnone] at ha

end Inversion

section Stack
variable {s s' : Process} {t u : Thread} {f f' g : Frame} {below fs : List Frame}

theorem frames_self (h : s'.frames = Function.update s.frames t fs) : s'.frames t = fs := by
  rw [h,Function.update_self]

theorem frames_other (h : s'.frames = Function.update s.frames t fs) (hu : u ≠ t) :
    s'.frames u = s.frames u := by rw [h,Function.update_of_ne hu]

theorem frame_after (hsub : below ⊆ s.frames t)
    (h : s'.frames = Function.update s.frames t (f' :: below)) (hg : g ∈ s'.frames u) :
    u = t ∧ g = f' ∨ g ∈ s.frames u := by
  by_cases hu : u = t
  · subst hu
    rw [frames_self h] at hg
    rcases List.mem_cons.mp hg with rfl | hg
    · exact Or.inl ⟨rfl,rfl⟩
    · exact Or.inr (hsub hg)
  · rw [frames_other h hu] at hg
    exact Or.inr hg

theorem frame_before (hf : s.frames t = f :: below) (hsub : below ⊆ fs)
    (h : s'.frames = Function.update s.frames t fs) (hg : g ∈ s.frames u) :
    u = t ∧ g = f ∨ g ∈ s'.frames u := by
  by_cases hu : u = t
  · subst hu
    rw [hf] at hg
    rcases List.mem_cons.mp hg with rfl | hg
    · exact Or.inl ⟨rfl,rfl⟩
    · rw [frames_self h]
      exact Or.inr (hsub hg)
  · rw [frames_other h hu]
    exact Or.inr hg

theorem frame_below (hf : s.frames t = f :: below) : below ⊆ s.frames t := by
  rw [hf]
  exact List.subset_cons_self ..

end Stack

end AesdSocket
