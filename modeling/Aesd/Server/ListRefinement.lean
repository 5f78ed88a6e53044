import Aesd.Library.Mutex
import Aesd.Library.Simulation
import Aesd.Server.EntrySafety
import Aesd.Server.LinkedServer
import Aesd.Server.ManagerSections
import Aesd.Server.ReapScan

namespace ThreadManager
open Kernel LinkedList

def Manager.withList (m : Manager) (l : List ℕ) : Manager := { m with threadManager := l }

def Linked.link (c : Linked) (p : ℕ) : Option (Option ℕ) := some (c.links p)

-- the steps of main that neither read nor write the list
def MainPc.plain : MainPc → Bool
  | .addInsert _ | .printing | .printUnlock | .scan (some _) | .removing _ _ | .removeUnlock _
  | .freeall .check | .freeall (.removing _ _) => false
  | _ => true

namespace RemovePc

-- p is the entry that thread_entry_remove has been called for
def Placed (c : Linked) (l : List ℕ) (p : ℕ) : RemovePc → Prop
  | .search cur => Reached l (· ≠ p) cur
  | .unlink q => q = p
  | .walk q cur => q = p ∧ ∃ before r rest, l = before ++ r :: rest ∧ cur = some r ∧ p ∈ rest
  | .release q => q = p ∧ c.links p = (c.memory.withList l).successor p

def listed (l : List ℕ) : RemovePc → List ℕ
  | .release q => l.erase q
  | _ => l

end RemovePc

namespace LinkedPc

def shown (c : Linked) : LinkedPc → Option MainPc
  | .base pc => some pc
  | .addFirst entry => some (.addInsert entry)
  | .printing _ => some .printing
  | .scanFirst => some (.scan c.first)
  | .removing p threadId _ => some (.removing p threadId)
  | .removeUnlock p => some (.removeUnlock (c.links p))
  | .advance p => some (.scan (c.links p))
  | .freeRemoving p threadId _ => some (.freeall (.removing p threadId))
  | .undefined => none

def Placed (c : Linked) (l : List ℕ) : LinkedPc → Prop
  | .addFirst entry => c.links entry = c.first
  | .printing cur => Reached l (fun _ => True) cur
  | .removing p _ pc | .freeRemoving p _ pc => pc.Placed c l p
  | .base (.removeUnlock _) => False
  | _ => True

def listed (l : List ℕ) : LinkedPc → List ℕ
  | .removing _ _ pc | .freeRemoving _ _ pc => pc.listed l
  | _ => l

end LinkedPc

-- the links hold the list l, and the list-level loop is at pc
structure LinkShows (s : LinkedServer) (l : List ℕ) (pc : MainPc) : Prop where
  main : s.main.shown s.linked = some pc
  linked : Segment s.linked.link s.linked.first (s.main.listed l) none
  placed : s.main.Placed s.linked l
  searches : ∀ k cur, s.searches k = some cur →
    ∃ w, s.linked.memory.workers k = some w ∧ w.pc = .marking ∧ Reached l (· ≠ k) cur

def LinkedServer.server (s : LinkedServer) (l : List ℕ) (pc : MainPc) : Server :=
  ⟨pc,s.linked.memory.withList l⟩

def inManager (s : Server) : Thread → Prop
  | .main => AesdSocket.mainInManager s.main = true
  | .worker k => ∃ w, s.manager.workers k = some w ∧ AesdSocket.workerInManager w.pc = true

structure LockGuarded (s : Server) : Prop where
  inv : Inv s
  mutex : Mutex.Exclusive id (inManager s) s.manager.managerMutex

section Sections
variable {m m' : Manager} {s s' : Server} {pc pc' : MainPc} {l : Label} {k : ℕ} {w : Worker}

theorem in_manager_updated {v : Worker} {b : Thread}
    (hw : s'.manager.workers = Function.update s.manager.workers k (some v))
    (hpc : s'.main = s.main) (h : inManager s' b) :
    inManager s b ∨ b = .worker k ∧ AesdSocket.workerInManager v.pc = true := by
  cases b with
  | main => exact Or.inl (hpc ▸ h : AesdSocket.mainInManager s.main = true)
  | worker j =>
    obtain ⟨u,hu,hin⟩ := h
    rw [hw] at hu
    by_cases hj : j = k
    · subst hj
      rw [Function.update_self] at hu
      exact Or.inr ⟨rfl,Option.some.inj hu ▸ hin⟩
    · rw [Function.update_of_ne hj] at hu
      exact Or.inl ⟨u,hu,hin⟩

theorem worker_mutex_move (hw : s.manager.workers k = some w)
    (hm : WorkerMove s.manager k w s'.manager) (hpc : s'.main = s.main) :
    Mutex.Move id (inManager s) s.manager.managerMutex (inManager s') s'.manager.managerMutex := by
  obtain ⟨pc,m⟩ := s
  obtain ⟨pc',m'⟩ := s'
  have hm : WorkerMove m k w m' := hm
  cases hm with
  | started hw' | startedFreed hw' | served hw' | left hw' | leftFreed hw' | closed hw' =>
    refine .kept fun b hb => (in_manager_updated rfl hpc hb).resolve_right fun hk => ?_
    simp [AesdSocket.workerInManager] at hk
  | markLocked hw' hf =>
    exact .lock (Thread.worker k) hf fun b hb => (in_manager_updated rfl hpc hb).symm.imp_left And.left
  | marked hw' =>
    have hin : inManager ⟨pc,m⟩ (.worker k) := ⟨w,hw,by rw [hw']; rfl⟩
    rcases Manager.markcomplete_cases m w.threadId with heq | ⟨p,-,heq⟩ <;> rw [heq] at hpc ⊢ <;>
      exact .kept fun b hb => (in_manager_updated rfl hpc hb).elim (fun h => h) fun hk => hk.1 ▸ hin
  | markUnlocked hw' =>
    refine .unlock (Thread.worker k) ⟨w,hw,by rw [hw']; rfl⟩ fun b hb => ?_
    rcases in_manager_updated rfl hpc hb with hold | ⟨-,hin⟩
    · refine ⟨hold,?_⟩
      rintro rfl
      obtain ⟨u,hu,hin⟩ := hb
      cases (Function.update_self (f := m.workers) k _).symm.trans hu
      cases hin
    · cases hin

theorem main_mutex_cases (hm : MainMove m pc l pc' m') :
    m.managerMutex = none ∧ m'.managerMutex = some .main ∨
    AesdSocket.mainInManager pc = true ∧ AesdSocket.mainInManager pc' = false ∧
      m'.managerMutex = none ∨
    (AesdSocket.mainInManager pc' = true → AesdSocket.mainInManager pc = true) ∧
      m'.managerMutex = m.managerMutex := by
  cases hm with
  | addLocked hf | printLocked hf => exact Or.inl ⟨hf,rfl⟩
  | removeLocked he hf => exact Or.inl ⟨hf,rfl⟩
  | addUnlocked | printUnlocked | removeUnlocked => exact Or.inr (Or.inl ⟨rfl,rfl,rfl⟩)
  | refused | accepted | openFailed | opened | mallocFailed | strdupFailed | created | spawnFailed
  | spawned | inserted | printed | scanned | found | passed | dataClosed | freeallCalled =>
    exact Or.inr (Or.inr ⟨by simp [AesdSocket.mainInManager,AesdSocket.freeallInManager],rfl⟩)
  | joined he hj =>
    obtain ⟨j,v,-,-,-,rfl⟩ := Manager.pthread_join_some hj
    exact Or.inr (Or.inr ⟨by simp [AesdSocket.mainInManager],rfl⟩)
  | @removed entry threadId =>
    exact Or.inr (Or.inr ⟨fun _ => rfl,(m.remove_frame threadId).2.1⟩)
  | freeing hm =>
    cases hm with
    | finished | first =>
      exact Or.inr (Or.inr ⟨by simp [AesdSocket.mainInManager,AesdSocket.freeallInManager],rfl⟩)
    | joined he hj =>
      obtain ⟨j,v,-,-,-,rfl⟩ := Manager.pthread_join_some hj
      exact Or.inr (Or.inr ⟨by simp [AesdSocket.mainInManager,AesdSocket.freeallInManager],rfl⟩)
    | locked he hf => exact Or.inl ⟨hf,rfl⟩
    | @removed entry threadId =>
      exact Or.inr (Or.inr ⟨fun _ => rfl,(m.remove_frame threadId).2.1⟩)
    | unlocked => exact Or.inr (Or.inl ⟨rfl,rfl,rfl⟩)

theorem main_in_manager (hm : MainMove m pc l pc' m')
    (h : inManager ⟨pc',m'⟩ (.worker k)) : inManager ⟨pc,m⟩ (.worker k) := by
  obtain ⟨v,hv,hin⟩ := h
  have hjoined {threadId : ℕ} {n : Manager} (hj : m.pthreadJoin threadId = some n)
      (hv : n.workers k = some v) : inManager ⟨pc,m⟩ (.worker k) := by
    obtain ⟨j,u,-,-,-,rfl⟩ := Manager.pthread_join_some hj
    by_cases hk : k = j
    · subst hk
      cases (Function.update_self (f := m.workers) k _).symm.trans hv
      cases hin
    · exact ⟨v,(Function.update_of_ne hk ..).symm.trans hv,hin⟩
  cases hm with
  | @spawned fd entry threadId =>
    by_cases hk : k = entry
    · subst hk
      cases (Function.update_self (f := m.workers) k _).symm.trans hv
      cases hin
    · exact ⟨v,(Function.update_of_ne hk ..).symm.trans hv,hin⟩
  | joined he hj => exact hjoined hj hv
  | @removed entry threadId =>
    have hworkers := (m.remove_frame threadId).2.2.1
    exact ⟨v,hworkers ▸ hv,hin⟩
  | freeing hm =>
    cases hm with
    | joined he hj => exact hjoined hj hv
    | @removed entry threadId =>
      have hworkers := (m.remove_frame threadId).2.2.1
      exact ⟨v,hworkers ▸ hv,hin⟩
    | _ => exact ⟨v,hv,hin⟩
  | _ => exact ⟨v,hv,hin⟩

theorem main_mutex_move (hm : MainMove m pc l pc' m') :
    Mutex.Move id (inManager ⟨pc,m⟩) m.managerMutex (inManager ⟨pc',m'⟩) m'.managerMutex := by
  rcases main_mutex_cases hm with ⟨hf,hlock⟩ | ⟨hin,hout,hunlock⟩ | ⟨hin,hkept⟩
  · rw [hlock]
    refine .lock Thread.main hf fun b hb => ?_
    cases b with
    | main => exact Or.inl rfl
    | worker k => exact Or.inr (main_in_manager hm hb)
  · rw [hunlock]
    refine .unlock Thread.main hin fun b hb => ?_
    cases b with
    | main =>
      have hb : AesdSocket.mainInManager pc' = true := hb
      rw [hout] at hb
      cases hb
    | worker k => exact ⟨main_in_manager hm hb,by simp⟩
  · rw [hkept]
    refine .kept fun b hb => ?_
    cases b with
    | main => exact hin hb
    | worker k => exact main_in_manager hm hb

theorem LockGuarded.next (h : LockGuarded s) (hs : serverStep s l = some s') : LockGuarded s' := by
  refine ⟨server_step_inv h.inv hs,h.mutex.move ?_⟩
  rcases server_step_move hs with ⟨-,hw,hm,hpc⟩ | hm
  · exact worker_mutex_move hw hm hpc
  · exact main_mutex_move hm

theorem lock_guarded_start : LockGuarded serverStart := by
  refine ⟨server_start_inv,Mutex.exclusive_start fun t ht => ?_⟩
  cases t with
  | main => cases ht
  | worker k =>
    obtain ⟨w,hw,-⟩ := ht
    cases hw

end Sections

section Lists
variable (m : Manager) (l : List ℕ) (pc : MainPc) (lab : Label) (k : ℕ)

theorem live_with (threadId k : ℕ) : (m.withList l).liveThread threadId k = m.liveThread threadId k := rfl

theorem lock_with (t : Thread) :
    (m.withList l).lockManager t = (m.lockManager t).map (·.withList l) := by
  unfold Manager.lockManager
  split_ifs with h h' h'
  · rfl
  · exact absurd h h'
  · exact absurd h' h
  · rfl

theorem join_with (threadId : ℕ) :
    (m.withList l).pthreadJoin threadId = (m.pthreadJoin threadId).map (·.withList l) := by
  unfold Manager.pthreadJoin
  have hlive : (m.withList l).liveThread threadId = m.liveThread threadId := rfl
  have hnext : (m.withList l).next = m.next := rfl
  have hworkers : (m.withList l).workers = m.workers := rfl
  rw [hlive,hnext,hworkers]
  cases (List.range m.next).find? (m.liveThread threadId) with
  | none => rfl
  | some j =>
    cases hw : m.workers j with
    | none => simp [hw]
    | some w =>
      simp only [Option.bind_eq_bind,Option.bind_some,hw]
      split_ifs <;> rfl

theorem create_with (entry threadId : ℕ) :
    (m.withList l).pthreadCreate entry threadId =
      (m.pthreadCreate entry threadId).map (·.withList l) := by
  have hnext : (m.withList l).next = m.next := rfl
  unfold Manager.pthreadCreate
  simp only [hnext,live_with]
  split_ifs <;> rfl

theorem main_with (h : pc.plain = true) : mainStep (m.withList l) pc =
    (mainStep m pc).map fun s => ⟨s.main,s.manager.withList l⟩ := by
  have hentries : (m.withList l).entries = m.entries := rfl
  cases pc with
  | addInsert | printing | printUnlock | removing | removeUnlock => cases h
  | accept | openData | create | spawn | addUnlock => rfl
  | addLock | printLock =>
    simp only [mainStep,lock_with,Option.map_map]
    rfl
  | scan current =>
    cases current with
    | none => rfl
    | some p => cases h
  | join p =>
    simp only [mainStep,hentries,join_with]
    cases m.entries p with
    | none => rfl
    | some e =>
      simp only [Option.bind_eq_bind,Option.bind_some]
      cases m.pthreadJoin e.threadId <;> rfl
  | closeData p =>
    simp only [mainStep,hentries]
    cases m.entries p <;> rfl
  | removeLock p =>
    simp only [mainStep,hentries,lock_with]
    cases m.entries p with
    | none => rfl
    | some e =>
      simp only [Option.bind_eq_bind,Option.bind_some]
      cases m.lockManager .main <;> rfl
  | freeall pc =>
    cases pc with
    | check | removing => cases h
    | removeUnlock | done => rfl
    | join p =>
      simp only [mainStep,freeallStep,hentries,join_with]
      cases m.entries p with
      | none => rfl
      | some e =>
        simp only [Option.bind_eq_bind,Option.bind_some]
        cases m.pthreadJoin e.threadId <;> rfl
    | removeLock p =>
      simp only [mainStep,freeallStep,hentries,lock_with]
      cases m.entries p with
      | none => rfl
      | some e =>
        simp only [Option.bind_eq_bind,Option.bind_some]
        cases m.lockManager .main <;> rfl

theorem accept_with (result : Option (ℕ × Bytes)) : acceptStep (m.withList l) result =
    (acceptStep m result).map fun s => ⟨s.main,s.manager.withList l⟩ := by
  cases result with
  | none => rfl
  | some x =>
    simp only [acceptStep]
    have hopen : isOpen (m.withList l) x.1 ↔ isOpen m x.1 := Iff.rfl
    split_ifs with h h' h'
    · rfl
    · exact absurd (hopen.mp h) h'
    · exact absurd (hopen.mpr h') h
    · rfl

theorem open_with (clientFd : ℕ) (clientIp : Bytes) (result : Option ℕ) :
    openStep (m.withList l) clientFd clientIp result =
      (openStep m clientFd clientIp result).map fun s => ⟨s.main,s.manager.withList l⟩ := by
  cases result with
  | none => rfl
  | some fd =>
    simp only [openStep]
    have hopen : isOpen (m.withList l) fd ↔ isOpen m fd := Iff.rfl
    split_ifs with h h' h'
    · rfl
    · exact absurd (hopen.mp h) h'
    · exact absurd (hopen.mpr h') h
    · rfl

theorem server_with (hw : ∀ k, lab ≠ .worker k) (hp : lab = .main → pc.plain = true) :
    serverStep ⟨pc,m.withList l⟩ lab =
      (serverStep ⟨pc,m⟩ lab).map fun s => ⟨s.main,s.manager.withList l⟩ := by
  cases lab with
  | worker k => exact absurd rfl (hw k)
  | accept result =>
    simp only [serverStep,accept_with]
    split_ifs <;> rfl
  | openData result =>
    cases pc with
    | openData => exact open_with m l _ _ result
    | _ => rfl
  | create mallocOk strdupOk =>
    cases pc with
    | create => cases mallocOk <;> cases strdupOk <;> rfl
    | _ => rfl
  | spawn result =>
    cases pc with
    | spawn =>
      cases result with
      | none => rfl
      | some threadId =>
        simp only [serverStep,spawnStep,create_with,Option.map_map]
        rfl
    | _ => rfl
  | freeall =>
    simp only [serverStep]
    split_ifs <;> rfl
  | main => exact main_with m l pc (hp rfl)

theorem worker_with (h : ∀ w, m.workers k = some w → w.pc ≠ .marking) :
    workerStep (m.withList l) k = (workerStep m k).map (·.withList l) := by
  have hworkers : (m.withList l).workers = m.workers := rfl
  have hentries : (m.withList l).entries = m.entries := rfl
  unfold workerStep
  rw [hworkers,hentries]
  cases hw : m.workers k with
  | none => rfl
  | some w =>
    simp only [Option.bind_eq_bind,Option.bind_some]
    cases hpc : w.pc with
    | marking => exact absurd hpc (h w hw)
    | start => cases m.entries k <;> rfl
    | markLock =>
      simp only [lock_with,Option.map_map]
      rfl
    | _ => rfl

end Lists

-- what one step of thread_entry_remove does when it has been called for the listed entry p
inductive RemoveMove (c : Linked) (l : List ℕ) (p : ℕ) : Removal → Linked → Prop
  | going {pc : RemovePc} {c' : Linked} (hm : c'.memory = c.memory) (hp : pc.Placed c' l p)
      (hl : Segment c'.link c'.first (pc.listed l) none) : RemoveMove c l p (.going pc) c'
  | returned (hn : c.links p = (c.memory.withList l).successor p)
      (hl : Segment c.link c.first (l.erase p) none) :
      RemoveMove c l p .returned (c.setMemory (c.memory.threadEntryFree p))

structure Removable (c : Linked) (l : List ℕ) (p threadId : ℕ) : Prop where
  nodup : l.Nodup
  listed : p ∈ l
  live : ∀ q ∈ l, ∃ e, c.memory.entries q = some e
  ids : ∀ q ∈ l, ∀ e, c.memory.entries q = some e → (e.threadId = threadId ↔ q = p)

section Removing
variable {c c' : Linked} {l before rest : List ℕ} {p q r threadId : ℕ} {cur : Option ℕ}

theorem next_of_listed (h : Removable c l p threadId) (hq : q ∈ l) : c.nextOf q = some (c.links q) := by
  obtain ⟨e,he⟩ := h.live q hq
  simp [Linked.nextOf,he]

theorem link_successor (hn : l.Nodup) (hq : q ∈ l) (hl : Segment c.link c.first l none) :
    c.links q = (c.memory.withList l).successor q := by
  obtain ⟨before,rest,hsplit,hnext,-⟩ := listed_split (m := c.memory.withList l) hq hn
  have hsplit : l = before ++ q :: rest := hsplit
  subst hsplit
  rw [hnext]
  exact Option.some.inj (segment_next hl)

theorem search_step (h : Removable c l p threadId) (hp : Reached l (· ≠ p) cur)
    (hl : Segment c.link c.first l none) {out : Removal}
    (hs : removeStep c threadId (.search cur) = (out,c')) : RemoveMove c l p out c' := by
  cases cur with
  | none => exact absurd rfl (hp.all p h.listed)
  | some q =>
    obtain ⟨e,he⟩ := h.live q hp.mem
    simp only [removeStep,he,Prod.mk.injEq] at hs
    obtain ⟨rfl,rfl⟩ := hs
    by_cases hid : e.threadId = threadId
    · rw [if_pos hid]
      exact .going rfl ((h.ids q hp.mem e he).mp hid) hl
    · rw [if_neg hid]
      have hne : q ≠ p := fun hq => hid ((h.ids q hp.mem e he).mpr hq)
      exact .going rfl (hp.advance hl hne rfl) hl

theorem unlink_step (h : Removable c l p threadId) (hl : Segment c.link c.first l none)
    {out : Removal} (hs : removeStep c threadId (.unlink p) = (out,c')) : RemoveMove c l p out c' := by
  have hnext := next_of_listed h h.listed
  have hlink := link_successor h.nodup h.listed hl
  obtain ⟨r,rest,rfl⟩ := List.exists_cons_of_ne_nil (List.ne_nil_of_mem h.listed)
  have hfirst : c.first = some r := hl.1
  by_cases hr : r = p
  · subst hr
    simp only [removeStep,hfirst,if_true,hnext,Prod.mk.injEq] at hs
    obtain ⟨rfl,rfl⟩ := hs
    obtain ⟨-,n,hn,hrest⟩ := hl
    cases hn
    refine .going rfl ⟨rfl,hlink⟩ ?_
    rw [RemovePc.listed,List.erase_cons_head]
    exact hrest
  · have hne : c.first ≠ some p := by simpa [hfirst] using hr
    simp only [removeStep,if_neg hne,Prod.mk.injEq] at hs
    obtain ⟨rfl,rfl⟩ := hs
    have hmem : p ∈ rest := (List.mem_cons.mp h.listed).resolve_left (Ne.symm hr)
    exact .going rfl ⟨rfl,[],r,rest,rfl,hfirst,hmem⟩ hl

theorem walk_step (h : Removable c l p threadId) (hp : (RemovePc.walk p cur).Placed c l p)
    (hl : Segment c.link c.first l none) {out : Removal}
    (hs : removeStep c threadId (.walk p cur) = (out,c')) : RemoveMove c l p out c' := by
  obtain ⟨-,before,r,rest,rfl,rfl,hmem⟩ := hp
  have hr : r ∈ before ++ r :: rest := by simp
  have hlink : c.links r = rest.head? := Option.some.inj (segment_next hl)
  simp only [removeStep,next_of_listed h hr,next_of_listed h h.listed] at hs
  obtain ⟨q,rest,rfl⟩ := List.exists_cons_of_ne_nil (List.ne_nil_of_mem hmem)
  rw [hlink,List.head?_cons] at hs
  by_cases hq : q = p
  · subst hq
    simp only [if_true,Prod.mk.injEq] at hs
    obtain ⟨rfl,rfl⟩ := hs
    have hrest : (before ++ [r]) ++ q :: rest = before ++ r :: q :: rest := by simp
    have hn := h.nodup
    have hsplit := erase_middle (hrest ▸ hn)
    have hrq : r ≠ q := fun he => hsplit.1 (by simp [he])
    have hfree : r ∉ before ++ rest := fun hmem =>
      (erase_middle hn).1 (by
        rw [List.mem_append] at hmem ⊢
        exact hmem.imp_right (List.mem_cons_of_mem q))
    refine .going rfl ⟨rfl,?_⟩ ?_
    · have hkept : (c.setLink r (c.links q)).links q = c.links q := Function.update_of_ne hrq.symm ..
      rw [hkept]
      exact link_successor hn h.listed hl
    · have herase : (before ++ r :: q :: rest).erase q = before ++ r :: rest := by
        rw [← hrest,hsplit.2]
        simp
      rw [RemovePc.listed,herase]
      exact segment_unlink hl (congrArg some (Function.update_self ..)) hfree
        fun x hx => congrArg some (Function.update_of_ne hx ..)
  · have hne : some q ≠ some p := fun he => hq (Option.some.inj he)
    simp only [if_neg hne,Prod.mk.injEq] at hs
    obtain ⟨rfl,rfl⟩ := hs
    have hmem : p ∈ rest := (List.mem_cons.mp hmem).resolve_left (Ne.symm hq)
    exact .going rfl ⟨rfl,before ++ [r],q,rest,by simp,rfl,hmem⟩ hl

theorem remove_step_move (h : Removable c l p threadId) {pc : RemovePc} (hp : pc.Placed c l p)
    (hl : Segment c.link c.first (pc.listed l) none) {out : Removal}
    (hs : removeStep c threadId pc = (out,c')) : RemoveMove c l p out c' := by
  cases pc with
  | search cur => exact search_step h hp hl hs
  | unlink q =>
    cases hp
    exact unlink_step h hl hs
  | walk q cur =>
    obtain ⟨rfl,hwalk⟩ := hp
    exact walk_step h ⟨rfl,hwalk⟩ hl hs
  | release q =>
    obtain ⟨rfl,hn⟩ := hp
    cases hs
    exact .returned hn hl

end Removing

def Shown (s : LinkedServer) (a : Server) : Prop := ∃ l pc, a = s.server l pc ∧ LinkShows s l pc

-- the list-level server stays where it is, or takes the one step too
def Matched (a : Server) (lab : Label) (s' : LinkedServer) : Prop :=
  Shown s' a ∨ ∃ a', serverStep a lab = some a' ∧ Shown s' a'

section Guards
variable {c : Linked} {searches : ℕ → Option (Option ℕ)} {l : List ℕ} {pc pc' : MainPc}
  {lpc : LinkedPc} {p q threadId : ℕ} {m m' : Manager} {lab : Label} {k : ℕ} {w : Worker}

theorem entry_live_listed (hg : LockGuarded ⟨pc,c.memory.withList l⟩) (hq : q ∈ l) :
    ∃ e, c.memory.entries q = some e :=
  Option.isSome_iff_exists.mp (tracked_alive hg.inv (listed_tracked hq))

theorem listed_distinct (hg : LockGuarded ⟨pc,c.memory.withList l⟩) : l.Nodup := listed_nodup hg.inv

-- main does not change the list while a worker searches it
theorem no_search (hg : LockGuarded ⟨pc,c.memory.withList l⟩) (h : LinkShows ⟨lpc,c,searches⟩ l pc)
    (hin : AesdSocket.mainInManager pc = true) {cur : Option ℕ} (hk : searches k = some cur) :
    False := by
  obtain ⟨w,hw,hpc,-⟩ := h.searches k cur hk
  have hworker : inManager ⟨pc,c.memory.withList l⟩ (.worker k) := ⟨w,hw,by rw [hpc]; rfl⟩
  cases hg.mutex.alone .main (.worker k) hin hworker

theorem removable (hg : LockGuarded ⟨pc,c.memory.withList l⟩) (hp : p ∈ l)
    (hid : (c.memory.withList l).idOf p = some threadId) : Removable c l p threadId := by
  refine ⟨listed_distinct hg,hp,fun q hq => entry_live_listed hg hq,fun q hq e he => ⟨fun h => ?_,?_⟩⟩
  · have hself : (c.memory.withList l).idOf q = some e.threadId :=
      Option.map_eq_some_iff.mpr ⟨e,he,rfl⟩
    exact same_id hg.inv.ids (listed_tracked hq) (listed_tracked hp)
      ((hself.trans (congrArg some h)).trans hid.symm)
  · rintro rfl
    obtain ⟨e',he',hid'⟩ := Option.map_eq_some_iff.mp hid
    have hsame : e' = e := Option.some.inj (he'.symm.trans he)
    exact hsame ▸ hid'

theorem marking_kept (hi : Inv ⟨pc,m⟩) (hm : MainMove m pc lab pc' m')
    (hw : m.workers k = some w) (hpc : w.pc = .marking) : m'.workers k = some w := by
  have hjoined {threadId : ℕ} {n : Manager} (hj : m.pthreadJoin threadId = some n) :
      n.workers k = some w := by
    obtain ⟨j,v,hv,-,hret,rfl⟩ := Manager.pthread_join_some hj
    have hne : k ≠ j := by
      rintro rfl
      rw [hw] at hv
      cases hv
      rw [hpc] at hret
      cases hret
    exact (Function.update_of_ne hne ..).trans hw
  cases hm with
  | @spawned fd entry threadId =>
    have hnone : m.workers entry = none := (hi.spawning entry rfl).2.1
    have hne : k ≠ entry := by
      rintro rfl
      rw [hw] at hnone
      cases hnone
    exact (Function.update_of_ne hne ..).trans hw
  | joined he hj => exact hjoined hj
  | @removed entry threadId => rw [(m.remove_frame threadId).2.2.1,hw]
  | freeing hm =>
    cases hm with
    | joined he hj => exact hjoined hj
    | @removed entry threadId => rw [(m.remove_frame threadId).2.2.1,hw]
    | _ => exact hw
  | _ => exact hw

theorem plain_placed (hm : MainMove m pc lab pc' m') (hp : lab = .main → pc.plain = true)
    (c : Linked) (l : List ℕ) : (LinkedPc.base pc').Placed c l := by
  cases hm with
  | removed => cases hp rfl
  | _ => trivial

end Guards

section Base
variable {c c' : Linked} {searches : ℕ → Option (Option ℕ)} {l : List ℕ} {pc : MainPc}
  {lpc : LinkedPc} {lab : Label}

theorem base_matched (hg : LockGuarded ⟨pc,c.memory.withList l⟩) (h : LinkShows ⟨.base pc,c,searches⟩ l pc)
    (hw : ∀ k, lab ≠ .worker k) (hp : lab = .main → pc.plain = true)
    (hs : linkedBase c pc lab = some (lpc,c')) :
    Matched ⟨pc,c.memory.withList l⟩ lab ⟨lpc,c',searches⟩ := by
  obtain ⟨t,ht,heq⟩ := Option.map_eq_some_iff.mp hs
  cases heq
  have hstep : serverStep ⟨pc,c.memory.withList l⟩ lab = some ⟨t.main,t.manager.withList l⟩ := by
    rw [server_with c.memory l pc lab hw hp,ht]
    rfl
  rcases server_step_move hstep with ⟨hl,-,-,-⟩ | hm
  · exact absurd hl (hw _)
  · have hm : MainMove (c.memory.withList l) pc lab t.main (t.manager.withList l) := hm
    refine Or.inr ⟨_,hstep,l,t.main,rfl,rfl,h.linked,plain_placed hm hp _ l,fun k cur hk => ?_⟩
    obtain ⟨w,hw,hpc,hreached⟩ := h.searches k cur hk
    have hkept : (t.manager.withList l).workers k = some w := marking_kept hg.inv hm hw hpc
    exact ⟨w,hkept,hpc,hreached⟩

theorem add_link_matched {entry : ℕ} (hg : LockGuarded ⟨.addInsert entry,c.memory.withList l⟩)
    (h : LinkShows ⟨.base (.addInsert entry),c,searches⟩ l (.addInsert entry)) :
    Matched ⟨.addInsert entry,c.memory.withList l⟩ .main
      ⟨.addFirst entry,c.setLink entry c.first,searches⟩ := by
  have hn : (entry :: l).Nodup := hg.inv.ids.of_map
  have hfree : ∀ q ∈ l, q ≠ entry := by
    rintro q hq rfl
    exact (List.nodup_cons.mp hn).1 hq
  refine Or.inl ⟨l,.addInsert entry,rfl,rfl,?_,Function.update_self ..,h.searches⟩
  exact segment_congr (fun q hq => congrArg some (Function.update_of_ne (hfree q hq) ..)) h.linked

theorem add_first_matched {entry : ℕ} (hg : LockGuarded ⟨.addInsert entry,c.memory.withList l⟩)
    (h : LinkShows ⟨.addFirst entry,c,searches⟩ l (.addInsert entry)) :
    Matched ⟨.addInsert entry,c.memory.withList l⟩ .main
      ⟨.base .addUnlock,c.setFirst (some entry),searches⟩ := by
  have hlink : c.link entry = some c.first := congrArg some h.placed
  exact Or.inr ⟨_,rfl,entry :: l,.addUnlock,rfl,rfl,segment_push h.linked hlink fun _ _ => rfl,
    trivial,fun _ _ hk => (no_search hg h rfl hk).elim⟩

theorem printing_matched {cur : Option ℕ} (hg : LockGuarded ⟨.printing,c.memory.withList l⟩)
    (h : LinkShows ⟨.printing cur,c,searches⟩ l .printing)
    (hs : linkedMain c (.printing cur) = some (lpc,c')) :
    Matched ⟨.printing,c.memory.withList l⟩ .main ⟨lpc,c',searches⟩ := by
  cases cur with
  | none =>
    cases hs
    exact Or.inr ⟨_,rfl,l,.printUnlock,rfl,rfl,h.linked,trivial,h.searches⟩
  | some p =>
    have hreached : Reached l (fun _ => True) (some p) := h.placed
    obtain ⟨e,he⟩ := entry_live_listed hg hreached.mem
    simp only [linkedMain,Linked.nextOf,he,Option.map_some,Option.elim_some,Option.some.injEq,
      Prod.mk.injEq] at hs
    obtain ⟨rfl,rfl⟩ := hs
    exact Or.inl ⟨l,.printing,rfl,rfl,h.linked,hreached.advance h.linked trivial rfl,h.searches⟩

theorem test_matched {p : ℕ} (hg : LockGuarded ⟨.scan (some p),c.memory.withList l⟩)
    (h : LinkShows ⟨.base (.scan (some p)),c,searches⟩ l (.scan (some p)))
    (hs : linkedMain c (.base (.scan (some p))) = some (lpc,c')) :
    Matched ⟨.scan (some p),c.memory.withList l⟩ .main ⟨lpc,c',searches⟩ := by
  have hp : p ∈ l := hg.inv.current p (by simp [MainPc.current])
  obtain ⟨e,he⟩ := entry_live_listed hg hp
  simp only [linkedMain,he,Option.elim_some,Option.some.injEq,Prod.mk.injEq] at hs
  obtain ⟨rfl,rfl⟩ := hs
  have hentry : (c.memory.withList l).entries p = some e := he
  cases hc : e.isComplete with
  | true =>
    refine Or.inr ⟨⟨.join p,c.memory.withList l⟩,?_,l,.join p,rfl,rfl,h.linked,trivial,h.searches⟩
    simp [serverStep,mainStep,hentry,hc]
  | false =>
    have hlink : c.links p = (c.memory.withList l).successor p :=
      link_successor (listed_distinct hg) hp h.linked
    refine Or.inr ⟨⟨.scan (c.links p),c.memory.withList l⟩,?_,l,.scan (c.links p),rfl,rfl,h.linked,
      trivial,h.searches⟩
    simp [serverStep,mainStep,hentry,hc,hlink]

theorem print_unlock_matched (h : LinkShows ⟨.base .printUnlock,c,searches⟩ l .printUnlock) :
    Matched ⟨.printUnlock,c.memory.withList l⟩ .main
      ⟨.scanFirst,c.setMemory c.memory.unlockManager,searches⟩ := by
  have hfirst : c.first = l.head? := segment_first h.linked
  refine Or.inr ⟨_,rfl,l,.scan c.first,?_,rfl,h.linked,trivial,h.searches⟩
  rw [hfirst]
  rfl

theorem free_check_matched (h : LinkShows ⟨.base (.freeall .check),c,searches⟩ l (.freeall .check)) :
    Matched ⟨.freeall .check,c.memory.withList l⟩ .main
      ⟨.base (.freeall (c.first.elim .done .join)),c,searches⟩ := by
  have hfirst : c.first = l.head? := segment_first h.linked
  refine Or.inr ⟨⟨.freeall (c.first.elim .done .join),c.memory.withList l⟩,?_,l,_,rfl,rfl,h.linked,
    trivial,h.searches⟩
  rw [hfirst]
  cases l <;> rfl

end Base

section Removing
variable {c c' : Linked} {l : List ℕ} {p threadId : ℕ} {pc : RemovePc}

-- the second alternative is the return of thread_entry_remove, the one step at the list level
theorem remove_matched {mainPc : MainPc} (hg : LockGuarded ⟨mainPc,c.memory.withList l⟩)
    (hr : mainPc.removal = some (p,threadId)) (hplace : pc.Placed c l p)
    (hl : Segment c.link c.first (pc.listed l) none) {out : Removal}
    (hs : removeStep c threadId pc = (out,c')) :
    (∃ pc', out = .going pc' ∧ c'.memory = c.memory ∧ pc'.Placed c' l p ∧
      Segment c'.link c'.first (pc'.listed l) none) ∨
    out = .returned ∧ c'.memory.withList (l.erase p) = ((c.memory.withList l).threadEntryRemove threadId).2 ∧
      c'.links p = (c.memory.withList l).successor p ∧
      Segment c'.link c'.first (l.erase p) none := by
  have hp : p ∈ l := hg.inv.current p (by simp [(removal_current hr).1])
  have hid : (c.memory.withList l).idOf p = some threadId := hg.inv.removal p threadId hr
  have hrem := removable hg hp hid
  cases remove_step_move hrem hplace hl hs with
  | going hm hp hl => exact Or.inl ⟨_,rfl,hm,hp,hl⟩
  | returned hn hl =>
    refine Or.inr ⟨rfl,?_,hn,hl⟩
    rw [remove_found hg.inv hp hid]
    rfl

variable {searches : ℕ → Option (Option ℕ)} {lpc : LinkedPc}

theorem stay_matched {mainPc : MainPc} {lpc' : LinkedPc} {lab : Label}
    (h : LinkShows ⟨lpc,c,searches⟩ l mainPc) (hm : c'.memory = c.memory)
    (hmain : lpc'.shown c' = some mainPc) (hl : Segment c'.link c'.first (lpc'.listed l) none)
    (hp : lpc'.Placed c' l) :
    Matched ⟨mainPc,c.memory.withList l⟩ lab ⟨lpc',c',searches⟩ := by
  refine Or.inl ⟨l,mainPc,by rw [LinkedServer.server,hm],hmain,hl,hp,fun k cur hk => ?_⟩
  rw [hm]
  exact h.searches k cur hk

theorem removing_matched (hg : LockGuarded ⟨.removing p threadId,c.memory.withList l⟩)
    (h : LinkShows ⟨.removing p threadId pc,c,searches⟩ l (.removing p threadId))
    (hs : linkedMain c (.removing p threadId pc) = some (lpc,c')) :
    Matched ⟨.removing p threadId,c.memory.withList l⟩ .main ⟨lpc,c',searches⟩ := by
  obtain ⟨out,c₁,ho⟩ : ∃ out c₁, removeStep c threadId pc = (out,c₁) := ⟨_,_,rfl⟩
  rw [linkedMain,ho] at hs
  rcases remove_matched hg rfl h.placed h.linked ho with ⟨pc',rfl,hm,hp,hl⟩ | ⟨rfl,hm,hn,hl⟩
  · cases hs
    exact stay_matched h hm rfl hl hp
  · cases hs
    refine Or.inr ⟨_,rfl,l.erase p,.removeUnlock (c'.links p),?_,rfl,hl,trivial,
      fun _ _ hk => (no_search hg h rfl hk).elim⟩
    rw [hn,LinkedServer.server,hm]

theorem free_removing_matched (hg : LockGuarded ⟨.freeall (.removing p threadId),c.memory.withList l⟩)
    (h : LinkShows ⟨.freeRemoving p threadId pc,c,searches⟩ l (.freeall (.removing p threadId)))
    (hs : linkedMain c (.freeRemoving p threadId pc) = some (lpc,c')) :
    Matched ⟨.freeall (.removing p threadId),c.memory.withList l⟩ .main ⟨lpc,c',searches⟩ := by
  obtain ⟨out,c₁,ho⟩ : ∃ out c₁, removeStep c threadId pc = (out,c₁) := ⟨_,_,rfl⟩
  rw [linkedMain,ho] at hs
  rcases remove_matched hg rfl h.placed h.linked ho with ⟨pc',rfl,hm,hp,hl⟩ | ⟨rfl,hm,-,hl⟩
  · cases hs
    exact stay_matched h hm rfl hl hp
  · cases hs
    refine Or.inr ⟨_,rfl,l.erase p,.freeall .removeUnlock,?_,rfl,hl,trivial,
      fun _ _ hk => (no_search hg h rfl hk).elim⟩
    rw [LinkedServer.server,hm]

end Removing

section Main
variable {c c' : Linked} {searches : ℕ → Option (Option ℕ)} {l : List ℕ} {pc : MainPc}
  {lpc lpc' : LinkedPc}

theorem base_main_matched (hg : LockGuarded ⟨pc,c.memory.withList l⟩)
    (h : LinkShows ⟨.base pc,c,searches⟩ l pc) (hs : linkedMain c (.base pc) = some (lpc',c')) :
    Matched ⟨pc,c.memory.withList l⟩ .main ⟨lpc',c',searches⟩ := by
  have hplain (hp : pc.plain = true) (hb : linkedBase c pc .main = some (lpc',c')) :
      Matched ⟨pc,c.memory.withList l⟩ .main ⟨lpc',c',searches⟩ :=
    base_matched hg h (by simp) (fun _ => hp) hb
  cases pc with
  | addInsert entry =>
    cases hs
    exact add_link_matched hg h
  | printing =>
    cases hs
    exact Or.inl ⟨l,.printing,rfl,rfl,h.linked,reached_first h.linked,h.searches⟩
  | printUnlock =>
    cases hs
    exact print_unlock_matched h
  | scan cur =>
    cases cur with
    | none => exact hplain rfl hs
    | some p => exact test_matched hg h hs
  | removing p threadId =>
    cases hs
    exact Or.inl ⟨l,.removing p threadId,rfl,rfl,h.linked,reached_first h.linked,h.searches⟩
  | removeUnlock => cases hs
  | freeall pc =>
    cases pc with
    | check =>
      cases hs
      exact free_check_matched h
    | removing p threadId =>
      cases hs
      exact Or.inl ⟨l,.freeall (.removing p threadId),rfl,rfl,h.linked,reached_first h.linked,
        h.searches⟩
    | _ => exact hplain rfl hs
  | _ => exact hplain rfl hs

theorem main_matched (hg : LockGuarded ⟨pc,c.memory.withList l⟩) (h : LinkShows ⟨lpc,c,searches⟩ l pc)
    (hs : linkedMain c lpc = some (lpc',c')) :
    Matched ⟨pc,c.memory.withList l⟩ .main ⟨lpc',c',searches⟩ := by
  have hmain := h.main
  cases lpc with
  | base pc₀ =>
    cases hmain
    exact base_main_matched hg h hs
  | addFirst entry =>
    cases hmain
    cases hs
    exact add_first_matched hg h
  | printing cur =>
    cases hmain
    exact printing_matched hg h hs
  | scanFirst =>
    cases hmain
    cases hs
    exact Or.inl ⟨l,.scan c.first,rfl,rfl,h.linked,trivial,h.searches⟩
  | removing p threadId rpc =>
    cases hmain
    exact removing_matched hg h hs
  | removeUnlock p =>
    cases hmain
    cases hs
    exact Or.inr ⟨_,rfl,l,.scan (c.links p),rfl,rfl,h.linked,trivial,h.searches⟩
  | advance p =>
    cases hmain
    obtain ⟨next,hnext,heq⟩ := Option.map_eq_some_iff.mp hs
    obtain ⟨e,-,rfl⟩ := Option.map_eq_some_iff.mp hnext
    cases heq
    exact Or.inl ⟨l,.scan (c.links p),rfl,rfl,h.linked,trivial,h.searches⟩
  | freeRemoving p threadId rpc =>
    cases hmain
    exact free_removing_matched hg h hs
  | undefined => cases hs

end Main

section Workers
variable {c c' : Linked} {searches searches' : ℕ → Option (Option ℕ)} {l : List ℕ} {pc : MainPc}
  {lpc : LinkedPc} {k : ℕ} {w w' : Worker} {m : Manager} {s' : LinkedServer}

theorem memory_link_shows (h : LinkShows ⟨lpc,c,searches⟩ l pc)
    (hs : ∀ j cur, searches' j = some cur →
      ∃ w, m.workers j = some w ∧ w.pc = .marking ∧ Reached l (· ≠ j) cur) :
    LinkShows ⟨lpc,c.setMemory m,searches'⟩ l pc := by
  obtain ⟨hmain,hlinked,hplaced,-⟩ := h
  refine ⟨?_,hlinked,?_,hs⟩
  · cases lpc <;> exact hmain
  · cases lpc with
    | removing p threadId rpc | freeRemoving p threadId rpc => cases rpc <;> exact hplaced
    | base pc₀ => cases pc₀ <;> exact hplaced
    | _ => exact hplaced

theorem whole_list (hg : LockGuarded ⟨pc,c.memory.withList l⟩) (h : LinkShows ⟨lpc,c,searches⟩ l pc)
    (hw : c.memory.workers k = some w) (hpc : w.pc = .marking) : Segment c.link c.first l none := by
  have hworker : inManager ⟨pc,c.memory.withList l⟩ (.worker k) := ⟨w,hw,by rw [hpc]; rfl⟩
  have hout : ¬ AesdSocket.mainInManager pc = true := fun hin => by
    cases hg.mutex.alone .main (.worker k) hin hworker
  have hmain := h.main
  cases lpc with
  | removing | freeRemoving =>
    cases hmain
    exact absurd rfl hout
  | _ => exact h.linked

theorem searches_left (h : LinkShows ⟨lpc,c,searches⟩ l pc) (search : Option (Option ℕ))
    (hk : ∀ cur, search = some cur →
      ∃ w, m.workers k = some w ∧ w.pc = .marking ∧ Reached l (· ≠ k) cur)
    (hm : ∀ j, j ≠ k → m.workers j = c.memory.workers j) :
    ∀ j cur, Function.update searches k search j = some cur →
      ∃ w, m.workers j = some w ∧ w.pc = .marking ∧ Reached l (· ≠ j) cur := by
  intro j cur hj
  by_cases hjk : j = k
  · subst hjk
    rw [Function.update_self] at hj
    exact hk cur hj
  · rw [Function.update_of_ne hjk] at hj
    rw [hm j hjk]
    exact h.searches j cur hj

theorem search_on (h : LinkShows ⟨lpc,c,searches⟩ l pc) (hw : c.memory.workers k = some w)
    (hpc : w.pc = .marking) {cur : Option ℕ} (hc : Reached l (· ≠ k) cur) :
    Matched ⟨pc,c.memory.withList l⟩ (.worker k)
      ⟨lpc,c,Function.update searches k (some cur)⟩ := by
  refine Or.inl ⟨l,pc,rfl,h.main,h.linked,h.placed,searches_left h (some cur) ?_ fun _ _ => rfl⟩
  intro cur' heq
  cases heq
  exact ⟨w,hw,hpc,hc⟩

theorem search_over (h : LinkShows ⟨lpc,c,searches⟩ l pc) (hw : c.memory.workers k = some w)
    (hpc : w.pc = .marking)
    (hm : ((c.memory.withList l).threadEntryMarkcomplete w.threadId).2 = m.withList l)
    (hworkers : m.workers = c.memory.workers) :
    Matched ⟨pc,c.memory.withList l⟩ (.worker k)
      ⟨lpc,c.setMemory (m.setWorker k { w with pc := .markUnlock }),
        Function.update searches k none⟩ := by
  refine Or.inr ⟨⟨pc,(m.setWorker k { w with pc := .markUnlock }).withList l⟩,?_,l,pc,rfl,
    memory_link_shows h (searches_left h none (by simp) fun j hj => ?_)⟩
  · have hworker : (c.memory.withList l).workers k = some w := hw
    simp only [serverStep,workerStep,hworker,Option.bind_eq_bind,Option.bind_some,hpc,hm]
    rfl
  · exact (Function.update_of_ne hj ..).trans (congrFun hworkers j)

theorem search_matched (hg : LockGuarded ⟨pc,c.memory.withList l⟩) (h : LinkShows ⟨lpc,c,searches⟩ l pc)
    (hw : c.memory.workers k = some w) (hpc : w.pc = .marking) :
    Matched ⟨pc,c.memory.withList l⟩ (.worker k)
      (searchStep ⟨lpc,c,searches⟩ k w (searches k)) := by
  have hlist := whole_list hg h hw hpc
  obtain ⟨htracked,hself⟩ := marking_entry hg.inv hw hpc
  cases hk : searches k with
  | none => exact search_on h hw hpc (reached_first hlist)
  | some cur =>
    obtain ⟨-,-,-,hreached⟩ := h.searches k cur hk
    cases cur with
    | none =>
      refine search_over (m := c.memory) h hw hpc ?_ rfl
      rcases Manager.markcomplete_cases (c.memory.withList l) w.threadId with heq | ⟨q,hq,-⟩
      · exact heq
      · have hqk : q = k := marking_found hg.inv hw hpc hq
        exact absurd hqk (hreached.all q (find_entry_mem hq).1)
    | some q =>
      obtain ⟨e,he⟩ := entry_live_listed hg hreached.mem
      have hid : (c.memory.withList l).idOf q = some e.threadId := Option.map_eq_some_iff.mpr ⟨e,he,rfl⟩
      simp only [searchStep,he]
      split_ifs with hsame
      · have hqk : q = k := same_id hg.inv.ids (listed_tracked hreached.mem) htracked
          ((hid.trans (congrArg some hsame)).trans hself.symm)
        subst hqk
        have hfound : (c.memory.withList l).findEntry w.threadId = some q :=
          find_entry_some (listed_ids hg.inv) hreached.mem hself
        refine search_over (m := c.memory.setEntry q (some { e with isComplete := true })) h hw hpc ?_ rfl
        have hentry : (c.memory.withList l).entries q = some e := he
        simp only [Manager.threadEntryMarkcomplete,hfound,hentry]
        rfl
      · have hqk : q ≠ k := by
          rintro rfl
          exact hsame (Option.some.inj (hid.symm.trans hself))
        exact search_on h hw hpc (hreached.advance hlist hqk rfl)

theorem worker_matched (hg : LockGuarded ⟨pc,c.memory.withList l⟩) (h : LinkShows ⟨lpc,c,searches⟩ l pc)
    (hs : linkedWorker ⟨lpc,c,searches⟩ k = some s') :
    Matched ⟨pc,c.memory.withList l⟩ (.worker k) s' := by
  simp only [linkedWorker,Option.bind_eq_bind,Option.bind_eq_some_iff] at hs
  obtain ⟨w,hw,hs⟩ := hs
  split_ifs at hs with hpc
  · cases hs
    exact search_matched hg h hw hpc
  · obtain ⟨m,hm,rfl⟩ := Option.map_eq_some_iff.mp hs
    have hother : ∀ v, c.memory.workers k = some v → v.pc ≠ .marking := by
      intro v hv
      rw [hw] at hv
      cases hv
      exact hpc
    obtain ⟨v,hv,hmove⟩ := worker_step_move hm
    obtain ⟨w',hframe⟩ := AesdSocket.worker_frame hmove
    refine Or.inr ⟨⟨pc,m.withList l⟩,?_,l,pc,rfl,memory_link_shows h fun j cur hj => ?_⟩
    · rw [serverStep,worker_with c.memory l k hother,hm]
      rfl
    · obtain ⟨u,hu,hupc,hreached⟩ := h.searches j cur hj
      have hne : j ≠ k := by
        rintro rfl
        exact hother u hu hupc
      exact ⟨u,by rw [hframe.workers,Function.update_of_ne hne]; exact hu,hupc,hreached⟩

end Workers

section Refinement
variable {s s' : LinkedServer} {a : Server} {l : LinkedLabel}

theorem linked_step_matched (hg : LockGuarded a) (h : Shown s a) (hi : Intact s l)
    (hs : linkedStep s l = some s') : Matched a l.label s' := by
  obtain ⟨list,pc,rfl,h⟩ := h
  obtain ⟨lpc,c,searches⟩ := s
  cases l with
  | freedNext value =>
    cases lpc with
    | advance p =>
      simp only [linkedStep] at hs
      split_ifs at hs
      cases hs
      have hvalue : value = c.links p := hi value p rfl rfl
      have hmain := h.main
      cases hmain
      exact Or.inl ⟨list,.scan (c.links p),rfl,by rw [hvalue]; rfl,h.linked,trivial,h.searches⟩
    | _ => cases hs
  | server l =>
    have hbase (hw : ∀ k, l ≠ .worker k) (hm : l ≠ .main) {pc₀ : MainPc} (hl : lpc = .base pc₀)
        (hb : (linkedBase c pc₀ l).map (fun x => (⟨x.1,x.2,searches⟩ : LinkedServer)) = some s') :
        Matched ⟨pc,c.memory.withList list⟩ l s' := by
      subst hl
      obtain ⟨⟨lpc',c'⟩,hx,rfl⟩ := Option.map_eq_some_iff.mp hb
      have hmain := h.main
      cases hmain
      exact base_matched hg h hw (fun he => absurd he hm) hx
    cases l with
    | worker k => exact worker_matched hg h hs
    | main =>
      obtain ⟨⟨lpc',c'⟩,hx,rfl⟩ := Option.map_eq_some_iff.mp hs
      exact main_matched hg h hx
    | accept | openData | create | spawn | freeall =>
      cases lpc with
      | base pc₀ => exact hbase (by simp) (by simp) rfl hs
      | _ => cases hs

-- the run is one of the list-level server, and no loop has read a freed entry
def RefinedBy (ls : List LinkedLabel) (s : LinkedServer) : Prop :=
  (∃ ls' a, ls'.Sublist (ls.map LinkedLabel.label) ∧
    Runs.run serverStep serverStart ls' = some a ∧ Shown s a) ∧
  s.main ≠ .undefined ∧ ∀ k w, s.linked.memory.workers k = some w → w.pc ≠ .undefined

theorem lock_guarded_run {ls : List Label} (hr : Runs.run serverStep serverStart ls = some a) :
    LockGuarded a :=
  Runs.run_invariant (fun _ _ _ h hs => h.next hs) lock_guarded_start hr

theorem linked_start_shown : Shown linkedStart serverStart :=
  ⟨[],.accept,rfl,rfl,rfl,trivial,fun k cur hk => by cases hk⟩

theorem shown_defined (hg : LockGuarded a) (h : Shown s a) :
    s.main ≠ .undefined ∧ ∀ k w, s.linked.memory.workers k = some w → w.pc ≠ .undefined := by
  obtain ⟨list,pc,rfl,h⟩ := h
  refine ⟨fun hu => ?_,fun k w hw => (hg.inv.locals k w hw).1⟩
  have hmain := h.main
  rw [hu] at hmain
  cases hmain

theorem linked_run_shown {ls : List LinkedLabel} (hr : Runs.run linkedStep linkedStart ls = some s)
    (hi : Runs.Along linkedStep Intact linkedStart ls) :
    ∃ ls' a, ls'.Sublist (ls.map LinkedLabel.label) ∧
      Runs.run serverStep serverStart ls' = some a ∧ Shown s a := by
  refine Runs.guarded_induction (P := fun ls s => ∃ ls' a, ls'.Sublist (ls.map LinkedLabel.label) ∧
    Runs.run serverStep serverStart ls' = some a ∧ Shown s a)
    ⟨[],serverStart,.slnil,rfl,linked_start_shown⟩ ?_ hr hi
  rintro ls l s s' - hintact ⟨ls',a,hsub,hrun,hshown⟩ hs
  rw [List.map_append]
  rcases linked_step_matched (lock_guarded_run hrun) hshown hintact hs with hstay | ⟨a',ha,hnext⟩
  · exact ⟨ls',a,hsub.trans (List.sublist_append_left ..),hrun,hstay⟩
  · exact ⟨ls' ++ [l.label],a',hsub.append (List.Sublist.refl _),
      Runs.run_join hrun (Runs.run_step ha),hnext⟩

theorem linked_server_refines {ls : List LinkedLabel}
    (hr : Runs.run linkedStep linkedStart ls = some s)
    (hi : Runs.Along linkedStep Intact linkedStart ls) : RefinedBy ls s := by
  obtain ⟨ls',a,hsub,hrun,hshown⟩ := linked_run_shown hr hi
  exact ⟨⟨ls',a,hsub,hrun,hshown⟩,shown_defined (lock_guarded_run hrun) hshown⟩

def intactAt (s : LinkedServer) (l : LinkedLabel) : Bool :=
  match l,s.main with
  | .freedNext value,.advance p => value == s.linked.links p
  | _,_ => true

theorem intact_of_test (h : intactAt s l = true) : Intact s l := by
  rintro value p rfl hp
  simpa [intactAt,hp] using h

def arrival (clientFd dataFd id : ℕ) : List LinkedLabel :=
  ([.accept (some (clientFd,[])),.openData (some dataFd),.create true true,.spawn (some id)] :
    List Label).map .server

-- the second client is accepted while the first worker searches the list for its entry, which main
-- then unlinks from behind the new one
def reapedSecond : List LinkedLabel :=
  arrival 4 5 70 ++ List.replicate 13 (.server .main) ++ List.replicate 5 (.server (.worker 0)) ++
    arrival 6 7 71 ++ List.replicate 3 (.server (.worker 0)) ++
    List.replicate 24 (.server .main) ++ [.freedNext none,.server .main]

theorem linked_server_refines_reaped : ∃ s,
    Runs.run linkedStep linkedStart reapedSecond = some s ∧ s.main = .base .accept ∧
      s.linked.first = some 1 ∧ s.linked.links 1 = none ∧ RefinedBy reapedSecond s := by
  have hrun : (Runs.checkedRun linkedStep intactAt linkedStart reapedSecond).map
      (fun s => (s.main,s.linked.first,s.linked.links 1)) = some (.base .accept,some 1,none) := by
    decide
  obtain ⟨s,hs,hfields⟩ := Option.map_eq_some_iff.mp hrun
  obtain ⟨hr,ha⟩ := Runs.checked_run hs
  simp only [Prod.mk.injEq] at hfields
  obtain ⟨hmain,hfirst,hlink⟩ := hfields
  exact ⟨s,hr,hmain,hfirst,hlink,
    linked_server_refines hr (ha.mono fun _ _ => intact_of_test)⟩

end Refinement

end ThreadManager
