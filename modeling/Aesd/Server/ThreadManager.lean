import Aesd.CharDriver.Kernel
import Mathlib.Data.Finset.Basic
import Mathlib.Logic.Function.Basic

namespace ThreadManager
open Kernel

inductive Thread where
  | main
  | worker (entry : ℕ)
  deriving DecidableEq, Repr

structure ThreadEntry where
  threadId : ℕ
  clientIp : Bytes
  clientFd : ℕ
  isComplete : Bool
  tmpdataFd : ℕ
  deriving DecidableEq, Repr

inductive WorkerPc where
  | start
  | serving
  | leaving
  | markLock
  | marking
  | markUnlock
  | closing
  | returned
  | joined
  | undefined
  deriving DecidableEq, Repr

-- threadId and clientFd are the locals of client_handler, id is the pthread_t of the thread
structure Worker where
  pc : WorkerPc
  id : ℕ
  threadId : ℕ
  clientFd : ℕ
  deriving DecidableEq, Repr

-- entries are numbered in the order of their malloc, a freed one has no value; a worker is named
-- by the entry it was started with
structure Manager where
  entries : ℕ → Option ThreadEntry
  next : ℕ
  threadManager : List ℕ
  managerMutex : Option Thread
  workers : ℕ → Option Worker
  clientFds : Finset ℕ
  dataFds : Finset ℕ

def initializeServer : Manager := ⟨fun _ => none,0,[],none,fun _ => none,∅,∅⟩

namespace Manager

def setEntry (m : Manager) (p : ℕ) (e : Option ThreadEntry) : Manager :=
  { m with entries := Function.update m.entries p e }

def setWorker (m : Manager) (k : ℕ) (w : Worker) : Manager :=
  { m with workers := Function.update m.workers k (some w) }

def setMutex (m : Manager) (t : Option Thread) : Manager := { m with managerMutex := t }

def lockManager (m : Manager) (t : Thread) : Option Manager :=
  if m.managerMutex = none then some (m.setMutex (some t)) else none

def unlockManager (m : Manager) : Manager := m.setMutex none

def close (m : Manager) (fd : ℕ) : Manager :=
  { m with clientFds := m.clientFds.erase fd, dataFds := m.dataFds.erase fd }

def threadEntryCreate (m : Manager) (mallocOk strdupOk : Bool) (newThreadId : ℕ)
    (newClientIp : Bytes) (newClientFd newTmpdataFd : ℕ) : Option ℕ × Manager :=
  if !mallocOk then (none,m)
  else if !strdupOk then (none,{ m with next := m.next + 1 })
  else (some m.next,{ m.setEntry m.next
    (some ⟨newThreadId,newClientIp,newClientFd,false,newTmpdataFd⟩) with next := m.next + 1 })

def threadEntryFree (m : Manager) (entry : ℕ) : Manager := m.setEntry entry none

def threadEntryAdd (m : Manager) (entry : ℕ) : Manager :=
  { m with threadManager := entry :: m.threadManager }

def idOf (m : Manager) (p : ℕ) : Option ℕ := (m.entries p).map (·.threadId)

def hasId (m : Manager) (threadId p : ℕ) : Bool := m.idOf p == some threadId

def findEntry (m : Manager) (threadId : ℕ) : Option ℕ := m.threadManager.find? (m.hasId threadId)

def unlink (m : Manager) (entry : ℕ) : Manager :=
  { m with threadManager := m.threadManager.erase entry }

def threadEntryRemove (m : Manager) (threadId : ℕ) : ℤ × Manager :=
  match m.findEntry threadId with
  | none => (-1,m)
  | some entry => (0,(m.unlink entry).threadEntryFree entry)

def threadEntryMarkcomplete (m : Manager) (threadId : ℕ) : ℤ × Manager :=
  match m.findEntry threadId with
  | none => (-1,m)
  | some entry => (0,m.setEntry entry ((m.entries entry).map fun e => { e with isComplete := true }))

-- the entries that a search for threadId reads
def visited (m : Manager) (threadId : ℕ) : List ℕ :=
  m.threadManager.takeWhile (fun p => !m.hasId threadId p) ++ (m.findEntry threadId).toList

def liveThread (m : Manager) (threadId k : ℕ) : Bool :=
  (m.workers k).any fun w => w.pc ≠ .joined && w.id == threadId

-- the new thread's id is stored in the entry before the thread starts
def pthreadCreate (m : Manager) (entry id : ℕ) : Option Manager :=
  if ∀ k < m.next, m.liveThread id k = false then
    some ((m.setEntry entry ((m.entries entry).map fun e => { e with threadId := id })).setWorker
      entry ⟨.start,id,0,0⟩)
  else none

def pthreadJoin (m : Manager) (threadId : ℕ) : Option Manager := do
  let k ← (List.range m.next).find? (m.liveThread threadId)
  let w ← m.workers k
  if w.pc = .returned then some (m.setWorker k { w with pc := .joined }) else none

def successor (m : Manager) (entry : ℕ) : Option ℕ :=
  (m.threadManager.dropWhile (· ≠ entry))[1]?

section Threads
variable {m m' : Manager} {id : ℕ}

theorem entry_field_same {α : Type} {p q : ℕ} {g : ThreadEntry → ThreadEntry} (f : ThreadEntry → α)
    (hf : ∀ e, f (g e) = f e) :
    ((m.setEntry p ((m.entries p).map g)).entries q).map f = (m.entries q).map f := by
  by_cases hq : q = p
  · subst hq
    simp [Manager.setEntry,Option.map_map,Function.comp_def,hf]
  · simp [Manager.setEntry,hq]

theorem live_thread_iff {k : ℕ} : m.liveThread id k = true ↔
    ∃ w, m.workers k = some w ∧ w.pc ≠ .joined ∧ w.id = id := by
  simp [Manager.liveThread,Option.any_eq_true]

theorem pthread_join_some (h : m.pthreadJoin id = some m') : ∃ k w, m.workers k = some w ∧
    w.id = id ∧ w.pc = .returned ∧ m' = m.setWorker k { w with pc := .joined } := by
  simp only [Manager.pthreadJoin,Option.bind_eq_bind,Option.bind_eq_some_iff] at h
  obtain ⟨k,hk,w,hw,h⟩ := h
  split_ifs at h with hpc
  cases h
  obtain ⟨w',hw',-,hid⟩ := live_thread_iff.mp (List.find?_some hk)
  rw [hw] at hw'
  cases hw'
  exact ⟨k,w,hw,hid,hpc,rfl⟩

theorem markcomplete_cases (m : Manager) (id : ℕ) : (m.threadEntryMarkcomplete id).2 = m ∨
    ∃ p, m.findEntry id = some p ∧ (m.threadEntryMarkcomplete id).2 =
      m.setEntry p ((m.entries p).map fun e => { e with isComplete := true }) := by
  unfold threadEntryMarkcomplete
  cases hf : m.findEntry id with
  | none => exact Or.inl rfl
  | some p => exact Or.inr ⟨p,rfl,rfl⟩

theorem remove_frame (m : Manager) (id : ℕ) :
    (m.threadEntryRemove id).2.threadManager ⊆ m.threadManager ∧
    (m.threadEntryRemove id).2.managerMutex = m.managerMutex ∧
    (m.threadEntryRemove id).2.workers = m.workers ∧ (m.threadEntryRemove id).2.next = m.next := by
  unfold threadEntryRemove
  cases m.findEntry id with
  | none => exact ⟨List.Subset.refl _,rfl,rfl,rfl⟩
  | some p => exact ⟨List.erase_subset,rfl,rfl,rfl⟩

end Threads

end Manager

def workerStep (m : Manager) (k : ℕ) : Option Manager := do
  let w ← m.workers k
  match w.pc with
  | .start =>
      match m.entries k with
      | none => some (m.setWorker k { w with pc := .undefined })
      | some e => some (m.setWorker k
          { w with pc := .serving, threadId := e.threadId, clientFd := e.clientFd })
  | .serving => some (m.setWorker k { w with pc := .leaving })
  | .leaving =>
      some (m.setWorker k { w with pc := if (m.entries k).isSome then .markLock else .undefined })
  | .markLock => (m.lockManager (.worker k)).map (·.setWorker k { w with pc := .marking })
  | .marking =>
      some ((m.threadEntryMarkcomplete w.threadId).2.setWorker k { w with pc := .markUnlock })
  | .markUnlock => some (m.unlockManager.setWorker k { w with pc := .closing })
  | .closing => some ((m.close w.clientFd).setWorker k { w with pc := .returned })
  | .returned | .joined | .undefined => none

def touches (m : Manager) (k : ℕ) : List ℕ :=
  match m.workers k with
  | none => []
  | some w => match w.pc with
    | .start | .leaving => [k]
    | .marking => m.visited w.threadId
    | _ => []

inductive FreeallPc where
  | check
  | join (currentEntry : ℕ)
  | removeLock (currentEntry : ℕ)
  | removing (currentEntry threadId : ℕ)
  | removeUnlock
  | done
  deriving DecidableEq, Repr

def freeallStep (t : Thread) (m : Manager) : FreeallPc → Option (FreeallPc × Manager)
  | .check =>
      match m.threadManager.head? with
      | none => some (.done,m)
      | some entry => some (.join entry,m)
  | .join entry => do
      let e ← m.entries entry
      let m ← m.pthreadJoin e.threadId
      return (.removeLock entry,m)
  | .removeLock entry => do
      let e ← m.entries entry
      let m ← m.lockManager t
      return (.removing entry e.threadId,m)
  | .removing _ threadId => some (.removeUnlock,(m.threadEntryRemove threadId).2)
  | .removeUnlock => some (.check,m.unlockManager)
  | .done => none

end ThreadManager
