import Aesd.Library.Runs
import Aesd.Server.ThreadManager

namespace ThreadManager
open Kernel

-- accept is the top of an iteration; the arguments are the locals still in use
inductive MainPc where
  | accept
  | openData (clientFd : ℕ) (clientIp : Bytes)
  | create (clientFd : ℕ) (clientIp : Bytes) (tmpdataClientFd : ℕ)
  | spawn (clientFd newConnection : ℕ)
  | addLock (entry : ℕ)
  | addInsert (entry : ℕ)
  | addUnlock
  | printLock
  | printing
  | printUnlock
  | scan (currentEntry : Option ℕ)
  | join (currentEntry : ℕ)
  | closeData (currentEntry : ℕ)
  | removeLock (currentEntry : ℕ)
  | removing (currentEntry threadId : ℕ)
  | removeUnlock (following : Option ℕ)
  | freeall (pc : FreeallPc)
  deriving DecidableEq, Repr

structure Server where
  main : MainPc
  manager : Manager

def serverStart : Server := ⟨.accept,initializeServer⟩

-- an outcome that the environment chooses, or the next step of a thread where there is none
inductive Label where
  | accept (result : Option (ℕ × Bytes))
  | openData (result : Option ℕ)
  | create (mallocOk strdupOk : Bool)
  | spawn (result : Option ℕ)
  | main
  | worker (k : ℕ)
  | freeall
  deriving DecidableEq

def isOpen (m : Manager) (fd : ℕ) : Prop := fd ∈ m.clientFds ∨ fd ∈ m.dataFds

instance (m : Manager) (fd : ℕ) : Decidable (isOpen m fd) :=
  inferInstanceAs (Decidable (_ ∨ _))

def acceptStep (m : Manager) : Option (ℕ × Bytes) → Option Server
  | none => some ⟨.accept,m⟩
  | some (clientFd,clientIp) =>
      if isOpen m clientFd then none
      else some ⟨.openData clientFd clientIp,{ m with clientFds := insert clientFd m.clientFds }⟩

def openStep (m : Manager) (clientFd : ℕ) (clientIp : Bytes) : Option ℕ → Option Server
  | none => some ⟨.accept,m.close clientFd⟩
  | some fd =>
      if isOpen m fd then none
      else some ⟨.create clientFd clientIp fd,{ m with dataFds := insert fd m.dataFds }⟩

def createStep (m : Manager) (clientFd : ℕ) (clientIp : Bytes) (tmpdataClientFd : ℕ)
    (mallocOk strdupOk : Bool) : Server :=
  match m.threadEntryCreate mallocOk strdupOk 0 clientIp clientFd tmpdataClientFd with
  | (none,m) => ⟨.accept,m⟩
  | (some newConnection,m) => ⟨.spawn clientFd newConnection,m⟩

def spawnStep (m : Manager) (clientFd newConnection : ℕ) : Option ℕ → Option Server
  | none => some ⟨.accept,(m.close clientFd).threadEntryFree newConnection⟩
  | some id => (m.pthreadCreate newConnection id).map fun m => ⟨.addLock newConnection,m⟩

-- after a removal the scan goes on at the former successor of the removed entry
def mainStep (m : Manager) : MainPc → Option Server
  | .addLock entry => (m.lockManager .main).map fun m => ⟨.addInsert entry,m⟩
  | .addInsert entry => some ⟨.addUnlock,m.threadEntryAdd entry⟩
  | .addUnlock => some ⟨.printLock,m.unlockManager⟩
  | .printLock => (m.lockManager .main).map fun m => ⟨.printing,m⟩
  | .printing => some ⟨.printUnlock,m⟩
  | .printUnlock => some ⟨.scan m.threadManager.head?,m.unlockManager⟩
  | .scan none => some ⟨.accept,m⟩
  | .scan (some entry) => (m.entries entry).map fun e =>
      if e.isComplete then ⟨.join entry,m⟩ else ⟨.scan (m.successor entry),m⟩
  | .join entry => do
      let e ← m.entries entry
      let m ← m.pthreadJoin e.threadId
      return ⟨.closeData entry,m⟩
  | .closeData entry => (m.entries entry).map fun e => ⟨.removeLock entry,m.close e.tmpdataFd⟩
  | .removeLock entry => do
      let e ← m.entries entry
      let m ← m.lockManager .main
      return ⟨.removing entry e.threadId,m⟩
  | .removing entry threadId =>
      some ⟨.removeUnlock (m.successor entry),(m.threadEntryRemove threadId).2⟩
  | .removeUnlock following => some ⟨.scan following,m.unlockManager⟩
  | .freeall pc => (freeallStep .main m pc).map fun x => ⟨.freeall x.1,x.2⟩
  | _ => none

def serverStep (s : Server) : Label → Option Server
  | .accept result => if s.main = .accept then acceptStep s.manager result else none
  | .openData result => match s.main with
      | .openData clientFd clientIp => openStep s.manager clientFd clientIp result
      | _ => none
  | .create mallocOk strdupOk => match s.main with
      | .create clientFd clientIp fd =>
          some (createStep s.manager clientFd clientIp fd mallocOk strdupOk)
      | _ => none
  | .spawn result => match s.main with
      | .spawn clientFd newConnection => spawnStep s.manager clientFd newConnection result
      | _ => none
  | .main => mainStep s.manager s.main
  | .worker k => (workerStep s.manager k).map fun m => { s with manager := m }
  | .freeall => if s.main = .accept then some { s with main := .freeall .check } else none

-- one client accepted, its worker started and its entry listed, up to the first step of the scan
def connection (clientFd dataFd id : ℕ) : List Label :=
  [.accept (some (clientFd,[])),.openData (some dataFd),.create true true,.spawn (some id)] ++
    List.replicate 6 .main

-- the second client is still connected when the thread of the first one is joined
def twoClients : List Label :=
  connection 4 5 70 ++ [.main,.main] ++ connection 6 7 71 ++ List.replicate 7 (.worker 0) ++
    List.replicate 5 .main

inductive WorkerMove (m : Manager) (k : ℕ) (w : Worker) : Manager → Prop
  | started (hpc : w.pc = .start) {e : ThreadEntry} (he : m.entries k = some e) :
      WorkerMove m k w (m.setWorker k
        { w with pc := .serving, threadId := e.threadId, clientFd := e.clientFd })
  | startedFreed (hpc : w.pc = .start) (he : m.entries k = none) :
      WorkerMove m k w (m.setWorker k { w with pc := .undefined })
  | served (hpc : w.pc = .serving) : WorkerMove m k w (m.setWorker k { w with pc := .leaving })
  | left (hpc : w.pc = .leaving) {e : ThreadEntry} (he : m.entries k = some e) :
      WorkerMove m k w (m.setWorker k { w with pc := .markLock })
  | leftFreed (hpc : w.pc = .leaving) (he : m.entries k = none) :
      WorkerMove m k w (m.setWorker k { w with pc := .undefined })
  | markLocked (hpc : w.pc = .markLock) (hf : m.managerMutex = none) :
      WorkerMove m k w ((m.setMutex (some (.worker k))).setWorker k { w with pc := .marking })
  | marked (hpc : w.pc = .marking) :
      WorkerMove m k w ((m.threadEntryMarkcomplete w.threadId).2.setWorker k
        { w with pc := .markUnlock })
  | markUnlocked (hpc : w.pc = .markUnlock) :
      WorkerMove m k w (m.unlockManager.setWorker k { w with pc := .closing })
  | closed (hpc : w.pc = .closing) :
      WorkerMove m k w ((m.close w.clientFd).setWorker k { w with pc := .returned })

inductive FreeallMove (t : Thread) (m : Manager) : FreeallPc → FreeallPc → Manager → Prop
  | finished (hl : m.threadManager = []) : FreeallMove t m .check .done m
  | first {entry : ℕ} (hl : m.threadManager.head? = some entry) :
      FreeallMove t m .check (.join entry) m
  | joined {entry : ℕ} {e : ThreadEntry} {m' : Manager} (he : m.entries entry = some e)
      (hj : m.pthreadJoin e.threadId = some m') :
      FreeallMove t m (.join entry) (.removeLock entry) m'
  | locked {entry : ℕ} {e : ThreadEntry} (he : m.entries entry = some e)
      (hf : m.managerMutex = none) :
      FreeallMove t m (.removeLock entry) (.removing entry e.threadId) (m.setMutex (some t))
  | removed {entry threadId : ℕ} :
      FreeallMove t m (.removing entry threadId) .removeUnlock (m.threadEntryRemove threadId).2
  | unlocked : FreeallMove t m .removeUnlock .check m.unlockManager

inductive MainMove (m : Manager) : MainPc → Label → MainPc → Manager → Prop
  | refused : MainMove m .accept (.accept none) .accept m
  | accepted {clientFd : ℕ} {clientIp : Bytes} (hfd : ¬ isOpen m clientFd) :
      MainMove m .accept (.accept (some (clientFd,clientIp))) (.openData clientFd clientIp)
        { m with clientFds := insert clientFd m.clientFds }
  | openFailed {clientFd : ℕ} {clientIp : Bytes} :
      MainMove m (.openData clientFd clientIp) (.openData none) .accept (m.close clientFd)
  | opened {clientFd fd : ℕ} {clientIp : Bytes} (hfd : ¬ isOpen m fd) :
      MainMove m (.openData clientFd clientIp) (.openData (some fd)) (.create clientFd clientIp fd)
        { m with dataFds := insert fd m.dataFds }
  | mallocFailed {clientFd fd : ℕ} {clientIp : Bytes} {strdupOk : Bool} :
      MainMove m (.create clientFd clientIp fd) (.create false strdupOk) .accept m
  | strdupFailed {clientFd fd : ℕ} {clientIp : Bytes} :
      MainMove m (.create clientFd clientIp fd) (.create true false) .accept
        { m with next := m.next + 1 }
  | created {clientFd fd : ℕ} {clientIp : Bytes} :
      MainMove m (.create clientFd clientIp fd) (.create true true) (.spawn clientFd m.next)
        { m.setEntry m.next (some ⟨0,clientIp,clientFd,false,fd⟩) with next := m.next + 1 }
  | spawnFailed {clientFd entry : ℕ} : MainMove m (.spawn clientFd entry) (.spawn none) .accept
      ((m.close clientFd).threadEntryFree entry)
  | spawned {clientFd entry id : ℕ} (hid : ∀ k < m.next, m.liveThread id k = false) :
      MainMove m (.spawn clientFd entry) (.spawn (some id)) (.addLock entry)
        ((m.setEntry entry ((m.entries entry).map fun e => { e with threadId := id })).setWorker
          entry ⟨.start,id,0,0⟩)
  | addLocked {entry : ℕ} (hf : m.managerMutex = none) :
      MainMove m (.addLock entry) .main (.addInsert entry) (m.setMutex (some .main))
  | inserted {entry : ℕ} :
      MainMove m (.addInsert entry) .main .addUnlock (m.threadEntryAdd entry)
  | addUnlocked : MainMove m .addUnlock .main .printLock m.unlockManager
  | printLocked (hf : m.managerMutex = none) :
      MainMove m .printLock .main .printing (m.setMutex (some .main))
  | printed : MainMove m .printing .main .printUnlock m
  | printUnlocked :
      MainMove m .printUnlock .main (.scan m.threadManager.head?) m.unlockManager
  | scanned : MainMove m (.scan none) .main .accept m
  | found {entry : ℕ} {e : ThreadEntry} (he : m.entries entry = some e)
      (hc : e.isComplete = true) : MainMove m (.scan (some entry)) .main (.join entry) m
  | passed {entry : ℕ} {e : ThreadEntry} (he : m.entries entry = some e)
      (hc : e.isComplete = false) :
      MainMove m (.scan (some entry)) .main (.scan (m.successor entry)) m
  | joined {entry : ℕ} {e : ThreadEntry} {m' : Manager} (he : m.entries entry = some e)
      (hj : m.pthreadJoin e.threadId = some m') :
      MainMove m (.join entry) .main (.closeData entry) m'
  | dataClosed {entry : ℕ} {e : ThreadEntry} (he : m.entries entry = some e) :
      MainMove m (.closeData entry) .main (.removeLock entry) (m.close e.tmpdataFd)
  | removeLocked {entry : ℕ} {e : ThreadEntry} (he : m.entries entry = some e)
      (hf : m.managerMutex = none) :
      MainMove m (.removeLock entry) .main (.removing entry e.threadId) (m.setMutex (some .main))
  | removed {entry threadId : ℕ} :
      MainMove m (.removing entry threadId) .main (.removeUnlock (m.successor entry))
        (m.threadEntryRemove threadId).2
  | removeUnlocked {following : Option ℕ} :
      MainMove m (.removeUnlock following) .main (.scan following) m.unlockManager
  | freeallCalled : MainMove m .accept .freeall (.freeall .check) m
  | freeing {pc pc' : FreeallPc} {m' : Manager} (hm : FreeallMove .main m pc pc' m') :
      MainMove m (.freeall pc) .main (.freeall pc') m'

inductive Move (s : Server) (l : Label) (s' : Server) : Prop
  | worker {k : ℕ} {w : Worker} (hl : l = .worker k) (hw : s.manager.workers k = some w)
      (hm : WorkerMove s.manager k w s'.manager) (hpc : s'.main = s.main)
  | main (hm : MainMove s.manager s.main l s'.main s'.manager)

section Inversion
variable {m m' : Manager} {s s' : Server} {l : Label}

theorem lock_manager_some {t : Thread} (h : m.lockManager t = some m') :
    m.managerMutex = none ∧ m' = m.setMutex (some t) := by
  unfold Manager.lockManager at h
  split_ifs at h with hf
  cases h
  exact ⟨hf,rfl⟩

theorem main_move_not_worker {pc pc' : MainPc} {k : ℕ} : ¬ MainMove m pc (.worker k) pc' m' := by
  intro h
  cases h

theorem worker_step_move {k : ℕ} (h : workerStep m k = some m') :
    ∃ w, m.workers k = some w ∧ WorkerMove m k w m' := by
  simp only [workerStep,Option.bind_eq_bind,Option.bind_eq_some_iff] at h
  obtain ⟨w,hw,h⟩ := h
  refine ⟨w,hw,?_⟩
  split at h
  · cases he : m.entries k with
    | none =>
      simp only [he,Option.some.injEq] at h
      exact h ▸ .startedFreed ‹_› he
    | some e =>
      simp only [he,Option.some.injEq] at h
      exact h ▸ .started ‹_› he
  · cases h
    exact .served ‹_›
  · cases he : m.entries k with
    | none =>
      simp only [he,Option.isSome_none,Bool.false_eq_true,if_false,Option.some.injEq] at h
      exact h ▸ .leftFreed ‹_› he
    | some e =>
      simp only [he,Option.isSome_some,if_true,Option.some.injEq] at h
      exact h ▸ .left ‹_› he
  · obtain ⟨m₁,hm,rfl⟩ := Option.map_eq_some_iff.mp h
    obtain ⟨hf,rfl⟩ := lock_manager_some hm
    exact .markLocked ‹_› hf
  · cases h
    exact .marked ‹_›
  · cases h
    exact .markUnlocked ‹_›
  · cases h
    exact .closed ‹_›
  · cases h
  · cases h
  · cases h

theorem freeall_step_move {t : Thread} {pc pc' : FreeallPc}
    (h : freeallStep t m pc = some (pc',m')) : FreeallMove t m pc pc' m' := by
  cases pc with
  | check =>
    simp only [freeallStep] at h
    cases hl : m.threadManager.head? with
    | none =>
      simp only [hl,Option.some.injEq,Prod.mk.injEq] at h
      obtain ⟨rfl,rfl⟩ := h
      exact .finished (List.head?_eq_none_iff.mp hl)
    | some entry =>
      simp only [hl,Option.some.injEq,Prod.mk.injEq] at h
      obtain ⟨rfl,rfl⟩ := h
      exact .first hl
  | join entry =>
    simp only [freeallStep,Option.bind_eq_bind,Option.bind_eq_some_iff,Option.pure_def,
      Option.some.injEq,Prod.mk.injEq] at h
    obtain ⟨e,he,m₁,hm,rfl,rfl⟩ := h
    exact .joined he hm
  | removeLock entry =>
    simp only [freeallStep,Option.bind_eq_bind,Option.bind_eq_some_iff,Option.pure_def,
      Option.some.injEq,Prod.mk.injEq] at h
    obtain ⟨e,he,m₁,hm,rfl,rfl⟩ := h
    obtain ⟨hf,rfl⟩ := lock_manager_some hm
    exact .locked he hf
  | removing entry threadId =>
    cases h
    exact .removed
  | removeUnlock =>
    cases h
    exact .unlocked
  | done => cases h

theorem main_step_move {pc : MainPc} (h : mainStep m pc = some s') :
    MainMove m pc .main s'.main s'.manager := by
  cases pc with
  | addLock entry =>
    obtain ⟨m₁,hm,rfl⟩ := Option.map_eq_some_iff.mp h
    obtain ⟨hf,rfl⟩ := lock_manager_some hm
    exact .addLocked hf
  | printLock =>
    obtain ⟨m₁,hm,rfl⟩ := Option.map_eq_some_iff.mp h
    obtain ⟨hf,rfl⟩ := lock_manager_some hm
    exact .printLocked hf
  | addInsert | addUnlock | printing | printUnlock | removing | removeUnlock =>
    cases h
    constructor
  | scan current =>
    cases current with
    | none =>
      cases h
      exact .scanned
    | some entry =>
      obtain ⟨e,he,rfl⟩ := Option.map_eq_some_iff.mp h
      cases hc : e.isComplete with
      | true => exact .found he hc
      | false => exact .passed he hc
  | join entry =>
    simp only [mainStep,Option.bind_eq_bind,Option.bind_eq_some_iff,Option.pure_def,
      Option.some.injEq] at h
    obtain ⟨e,he,m₁,hm,rfl⟩ := h
    exact .joined he hm
  | closeData entry =>
    obtain ⟨e,he,rfl⟩ := Option.map_eq_some_iff.mp h
    exact .dataClosed he
  | removeLock entry =>
    simp only [mainStep,Option.bind_eq_bind,Option.bind_eq_some_iff,Option.pure_def,
      Option.some.injEq] at h
    obtain ⟨e,he,m₁,hm,rfl⟩ := h
    obtain ⟨hf,rfl⟩ := lock_manager_some hm
    exact .removeLocked he hf
  | freeall pc =>
    obtain ⟨x,hx,rfl⟩ := Option.map_eq_some_iff.mp h
    exact .freeing (freeall_step_move hx)
  | accept | openData | create | spawn => cases h

theorem create_step_move {clientFd fd : ℕ} {clientIp : Bytes} (mallocOk strdupOk : Bool) :
    MainMove m (.create clientFd clientIp fd) (.create mallocOk strdupOk)
      (createStep m clientFd clientIp fd mallocOk strdupOk).main
      (createStep m clientFd clientIp fd mallocOk strdupOk).manager := by
  cases mallocOk with
  | false => exact .mallocFailed
  | true =>
    cases strdupOk with
    | false => exact .strdupFailed
    | true => exact .created

theorem server_step_move (h : serverStep s l = some s') : Move s l s' := by
  obtain ⟨pc,m⟩ := s
  cases l with
  | worker k =>
    obtain ⟨m',hm,rfl⟩ := Option.map_eq_some_iff.mp h
    obtain ⟨w,hw,hmove⟩ := worker_step_move hm
    exact .worker rfl hw hmove rfl
  | main => exact .main (main_step_move h)
  | freeall =>
    simp only [serverStep] at h
    split_ifs at h with hpc
    cases h
    exact .main (hpc ▸ .freeallCalled)
  | accept result =>
    simp only [serverStep] at h
    split_ifs at h with hpc
    subst hpc
    cases result with
    | none =>
      cases h
      exact .main .refused
    | some x =>
      simp only [acceptStep] at h
      split_ifs at h with hfd
      cases h
      exact .main (.accepted hfd)
  | openData result =>
    simp only [serverStep] at h
    split at h
    · cases result with
      | none =>
        cases h
        exact .main .openFailed
      | some fd =>
        simp only [openStep] at h
        split_ifs at h with hfd
        cases h
        exact .main (.opened hfd)
    · cases h
  | create mallocOk strdupOk =>
    simp only [serverStep] at h
    split at h
    · cases h
      exact .main (create_step_move mallocOk strdupOk)
    · cases h
  | spawn result =>
    simp only [serverStep] at h
    split at h
    · cases result with
      | none =>
        cases h
        exact .main .spawnFailed
      | some id =>
        obtain ⟨m',hm,rfl⟩ := Option.map_eq_some_iff.mp h
        unfold Manager.pthreadCreate at hm
        split_ifs at hm with hid
        cases hm
        exact .main (.spawned hid)
    · cases h

theorem main_accepting {pc pc' : MainPc} (hm : MainMove m pc l pc' m') (hl : l ≠ .freeall)
    (hpc : ∀ x, pc ≠ .freeall x) (x : FreeallPc) : pc' ≠ .freeall x := by
  cases hm with
  | freeallCalled => exact absurd rfl hl
  | freeing => exact absurd rfl (hpc _)
  | _ => simp

end Inversion

end ThreadManager
