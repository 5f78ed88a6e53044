import Aesd.Library.LinkedList
import Aesd.Server.AcceptLoop

namespace ThreadManager
open Kernel

-- thread_manager as sys/queue.h keeps it: slh_first, and the sle_next of every entry, of a freed one
-- the last it had; the list of memory itself is not used
structure Linked where
  memory : Manager
  first : Option ℕ
  links : ℕ → Option ℕ

namespace Linked

def setMemory (c : Linked) (m : Manager) : Linked := { c with memory := m }

def setFirst (c : Linked) (first : Option ℕ) : Linked := { c with first := first }

def setLink (c : Linked) (p : ℕ) (next : Option ℕ) : Linked :=
  { c with links := Function.update c.links p next }

def nextOf (c : Linked) (p : ℕ) : Option (Option ℕ) := (c.memory.entries p).map fun _ => c.links p

end Linked

-- thread_entry_remove with its mutex held: the search, SLIST_REMOVE with its loop, and the free
inductive RemovePc where
  | search (currentEntry : Option ℕ)
  | unlink (currentEntry : ℕ)
  | walk (currentEntry : ℕ) (curelm : Option ℕ)
  | release (currentEntry : ℕ)
  deriving DecidableEq, Repr

inductive Removal where
  | going (pc : RemovePc)
  | returned
  | undefined
  deriving DecidableEq, Repr

-- undefined: a freed entry is read, or the walk goes through NULL
def removeStep (c : Linked) (threadId : ℕ) : RemovePc → Removal × Linked
  | .search none => (.returned,c)
  | .search (some p) => match c.memory.entries p with
      | none => (.undefined,c)
      | some e => (.going (if e.threadId = threadId then .unlink p else .search (c.links p)),c)
  | .unlink p =>
      if c.first = some p then match c.nextOf p with
        | none => (.undefined,c)
        | some next => (.going (.release p),c.setFirst next)
      else (.going (.walk p c.first),c)
  | .walk _ none => (.undefined,c)
  | .walk p (some curelm) => match c.nextOf curelm with
      | none => (.undefined,c)
      | some next =>
          if next = some p then match c.nextOf p with
            | none => (.undefined,c)
            | some next => (.going (.release p),c.setLink curelm next)
          else (.going (.walk p next),c)
  | .release p => (.returned,c.setMemory (c.memory.threadEntryFree p))

-- base is a step that the list-level loop has too; the others are inside a loop over the links
inductive LinkedPc where
  | base (pc : MainPc)
  | addFirst (entry : ℕ)
  | printing (currentEntry : Option ℕ)
  | scanFirst
  | removing (currentEntry threadId : ℕ) (pc : RemovePc)
  | removeUnlock (currentEntry : ℕ)
  | advance (currentEntry : ℕ)
  | freeRemoving (currentEntry threadId : ℕ) (pc : RemovePc)
  | undefined
  deriving DecidableEq, Repr

-- searches holds current_entry of the workers that are in the loop of thread_entry_markcomplete
structure LinkedServer where
  main : LinkedPc
  linked : Linked
  searches : ℕ → Option (Option ℕ)

def linkedStart : LinkedServer := ⟨.base .accept,⟨initializeServer,none,fun _ => none⟩,fun _ => none⟩

inductive LinkedLabel where
  | server (l : Label)
  -- SLIST_FOREACH advances at an entry that has been freed, and reads value
  | freedNext (value : Option ℕ)
  deriving DecidableEq

def LinkedLabel.label : LinkedLabel → Label
  | .server l => l
  | .freedNext _ => .main

def linkedBase (c : Linked) (pc : MainPc) (l : Label) : Option (LinkedPc × Linked) :=
  (serverStep ⟨pc,c.memory⟩ l).map fun s => (.base s.main,c.setMemory s.manager)

def linkedMain (c : Linked) : LinkedPc → Option (LinkedPc × Linked)
  | .base (.addInsert entry) => some (.addFirst entry,c.setLink entry c.first)
  | .addFirst entry => some (.base .addUnlock,c.setFirst (some entry))
  | .base .printing => some (.printing c.first,c)
  | .printing none => some (.base .printUnlock,c)
  | .printing (some p) => some ((c.nextOf p).elim .undefined .printing,c)
  | .base .printUnlock => some (.scanFirst,c.setMemory c.memory.unlockManager)
  | .scanFirst => some (.base (.scan c.first),c)
  | .base (.scan (some p)) => some ((c.memory.entries p).elim .undefined fun e =>
      if e.isComplete then .base (.join p) else .advance p,c)
  | .advance p => (c.nextOf p).map fun next => (.base (.scan next),c)
  | .base (.removing p threadId) => some (.removing p threadId (.search c.first),c)
  | .removing p threadId pc => match removeStep c threadId pc with
      | (.going pc,c) => some (.removing p threadId pc,c)
      | (.returned,c) => some (.removeUnlock p,c)
      | (.undefined,c) => some (.undefined,c)
  | .removeUnlock p => some (.advance p,c.setMemory c.memory.unlockManager)
  | .base (.removeUnlock _) => none
  | .base (.freeall .check) => some (.base (.freeall (c.first.elim .done .join)),c)
  | .base (.freeall (.removing p threadId)) => some (.freeRemoving p threadId (.search c.first),c)
  | .freeRemoving p threadId pc => match removeStep c threadId pc with
      | (.going pc,c) => some (.freeRemoving p threadId pc,c)
      | (.returned,c) => some (.base (.freeall .removeUnlock),c)
      | (.undefined,c) => some (.undefined,c)
  | .base pc => linkedBase c pc .main
  | .undefined => none

def LinkedServer.setWorker (s : LinkedServer) (k : ℕ) (w : Worker) : LinkedServer :=
  { s with linked := s.linked.setMemory (s.linked.memory.setWorker k w) }

def LinkedServer.setSearch (s : LinkedServer) (k : ℕ) (search : Option (Option ℕ)) : LinkedServer :=
  { s with searches := Function.update s.searches k search }

-- thread_entry_markcomplete with its mutex held
def searchStep (s : LinkedServer) (k : ℕ) (w : Worker) : Option (Option ℕ) → LinkedServer
  | none => s.setSearch k (some s.linked.first)
  | some none => (s.setWorker k { w with pc := .markUnlock }).setSearch k none
  | some (some p) => match s.linked.memory.entries p with
      | none => s.setWorker k { w with pc := .undefined }
      | some e =>
          if e.threadId = w.threadId then
            let m := s.linked.memory.setEntry p (some { e with isComplete := true })
            ({ s with linked := s.linked.setMemory m }.setWorker k
              { w with pc := .markUnlock }).setSearch k none
          else s.setSearch k (some (s.linked.links p))

def linkedWorker (s : LinkedServer) (k : ℕ) : Option LinkedServer := do
  let w ← s.linked.memory.workers k
  if w.pc = .marking then some (searchStep s k w (s.searches k))
  else (workerStep s.linked.memory k).map fun m => { s with linked := s.linked.setMemory m }

def linkedStep (s : LinkedServer) : LinkedLabel → Option LinkedServer
  | .server (.worker k) => linkedWorker s k
  | .server .main => (linkedMain s.linked s.main).map fun x => ⟨x.1,x.2,s.searches⟩
  | .server l => match s.main with
      | .base pc => (linkedBase s.linked pc l).map fun x => ⟨x.1,x.2,s.searches⟩
      | _ => none
  | .freedNext value => match s.main with
      | .advance p =>
          if (s.linked.memory.entries p).isSome then none
          else some { s with main := .base (.scan value) }
      | _ => none

-- the entry that has just been freed still holds its link when the scan reads it
def Intact (s : LinkedServer) (l : LinkedLabel) : Prop :=
  ∀ value p, l = .freedNext value → s.main = .advance p → value = s.linked.links p

end ThreadManager
