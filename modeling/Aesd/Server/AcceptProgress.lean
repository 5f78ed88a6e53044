import Aesd.Server.EntrySafety
import Aesd.Server.ManagerSections
import Aesd.Server.ReapScan

namespace ThreadManager
open Kernel

-- manager_mutex is held by a thread that can go on to release it
def MutexHeld (s : Server) : Prop :=
  ∀ t, s.manager.managerMutex = some t → match t with
    | .main => AesdSocket.mainInManager s.main = true
    | .worker k => ∃ w, s.manager.workers k = some w ∧ AesdSocket.workerInManager w.pc = true

-- is_complete is set by the thread of the entry itself
def Reported (s : Server) : Prop :=
  ∀ p, s.manager.completed p = true → ∃ w, s.manager.workers p = some w ∧ w.pc.reported = true

namespace Label

-- the labels inside one iteration of accept_connections, and those of the main thread
def iterating : Label → Bool
  | .accept _ | .freeall => false
  | _ => true

def ofMain : Label → Bool
  | .worker _ => false
  | _ => true

end Label

def MainPc.locking : MainPc → Bool
  | .addLock _ | .printLock | .removeLock _ => true
  | _ => false

def WorkerPc.finishing : WorkerPc → Bool
  | .marking | .markUnlock | .closing => true
  | _ => false

-- of the workers, only those that have already found their client gone
def finishing (s : Server) : Label → Prop
  | .worker k => ∃ w, s.manager.workers k = some w ∧ w.pc.finishing = true
  | l => l.iterating = true

-- the entries that the scan visits from next on
def remaining (m : Manager) : Option ℕ → ℕ
  | none => 0
  | some p => (m.threadManager.dropWhile (· ≠ p)).length

-- the steps that main takes at most before it is back at accept
def stepsLeft (m : Manager) : MainPc → ℕ
  | .accept | .freeall _ => 0
  | .openData _ _ => 6 * m.threadManager.length + 16
  | .create _ _ _ => 6 * m.threadManager.length + 15
  | .spawn _ _ => 6 * m.threadManager.length + 14
  | .addLock _ => 6 * m.threadManager.length + 13
  | .addInsert _ => 6 * m.threadManager.length + 12
  | .addUnlock => 6 * m.threadManager.length + 5
  | .printLock => 6 * m.threadManager.length + 4
  | .printing => 6 * m.threadManager.length + 3
  | .printUnlock => 6 * m.threadManager.length + 2
  | .scan next => 6 * remaining m next + 1
  | .join p => 6 * remaining m (m.successor p) + 6
  | .closeData p => 6 * remaining m (m.successor p) + 5
  | .removeLock p => 6 * remaining m (m.successor p) + 4
  | .removing p _ => 6 * remaining m (m.successor p) + 3
  | .removeUnlock next => 6 * remaining m next + 2

structure Looping (s : Server) : Prop where
  inv : Inv s
  accepting : ∀ x, s.main ≠ .freeall x
  held : MutexHeld s
  reported : Reported s
  found : ∀ p, s.main = .join p → s.manager.completed p = true

section Holders
variable {m m' : Manager} {s s' : Server} {k p id : ℕ} {w : Worker} {pc pc' : MainPc} {l : Label}

theorem worker_mutex_held (h : MutexHeld s) (hw : s.manager.workers k = some w)
    (hm : WorkerMove s.manager k w s'.manager) (hpc : s'.main = s.main) : MutexHeld s' := by
  obtain ⟨w',hframe⟩ := AesdSocket.worker_frame hm
  intro t ht
  rcases hframe.mutex with hnone | ⟨hself,hin⟩ | ⟨hsame,hin⟩
  · rw [hnone] at ht
    cases ht
  · rw [hself] at ht
    cases ht
    exact ⟨w',by rw [hframe.workers,Function.update_self],hin⟩
  · have hbefore := h t (hsame.symm.trans ht)
    cases t with
    | main => exact hpc ▸ hbefore
    | worker j =>
      obtain ⟨v,hv,hvin⟩ := hbefore
      by_cases hj : j = k
      · subst hj
        rw [hw] at hv
        cases hv
        exact ⟨w',by rw [hframe.workers,Function.update_self],hin hvin⟩
      · exact ⟨v,by rw [hframe.workers,Function.update_of_ne hj]; exact hv,hvin⟩

theorem main_mutex_held (hi : Inv ⟨pc,m⟩) (h : MutexHeld ⟨pc,m⟩) (hl : l ≠ .freeall)
    (hf : ∀ x, pc ≠ .freeall x) (hm : MainMove m pc l pc' m') : MutexHeld ⟨pc',m'⟩ := by
  have hframe := AesdSocket.main_frame hm hl hf
  intro t ht
  rcases hframe.mutex with hnone | ⟨hself,hin⟩ | ⟨hsame,hin⟩
  · rw [hnone] at ht
    cases ht
  · rw [hself] at ht
    cases ht
    exact hin
  · have hbefore := h t (hsame.symm.trans ht)
    cases t with
    | main => exact hin hbefore
    | worker j =>
      obtain ⟨v,hv,hvin⟩ := hbefore
      refine ⟨v,hframe.workers j v hv hvin fun fd hpc => ?_,hvin⟩
      have hnone := (hi.spawning j (by rw [hpc]; rfl)).2.1
      rw [hv] at hnone
      cases hnone

theorem pc_reported (hm : WorkerMove m k w m') (hr : w.pc = .marking ∨ w.pc.reported = true) :
    ∃ w', m'.workers k = some w' ∧ w'.pc.reported = true := by
  cases hm with
  | started hpc | startedFreed hpc | served hpc | left hpc | leftFreed hpc | markLocked hpc =>
    simp [hpc,WorkerPc.reported] at hr
  | marked | markUnlocked | closed => exact ⟨_,Function.update_self ..,rfl⟩

theorem worker_reported_kept (hi : Inv s) (h : Reported s) (hw : s.manager.workers k = some w)
    (hm : WorkerMove s.manager k w s'.manager) : Reported s' := by
  obtain ⟨w',hkept⟩ := worker_kept hi hw hm
  intro p hp
  by_cases hbefore : s.manager.completed p = true
  · obtain ⟨v,hv,hr⟩ := h p hbefore
    by_cases hk : p = k
    · subst hk
      rw [hw] at hv
      cases hv
      exact pc_reported hm (Or.inr hr)
    · exact ⟨v,by rw [hkept.workers,Function.update_of_ne hk]; exact hv,hr⟩
  · rcases worker_entries hm with he | ⟨hpc,he⟩
    · rw [Manager.completed,he] at hp
      exact absurd hp hbefore
    · rw [Manager.completed,he] at hp
      rcases Manager.markcomplete_cases s.manager w.threadId with heq | ⟨q,hq,heq⟩
      · rw [heq] at hp
        exact absurd hp hbefore
      · have hmarked : (s.manager.setEntry q ((s.manager.entries q).map fun e =>
            { e with isComplete := true })).completed p = true := by rwa [heq] at hp
        rw [completed_marked,Bool.or_eq_true] at hmarked
        have hpq : p = q := by
          rcases hmarked with hsame | hnew
          · exact absurd hsame hbefore
          · simpa using (Bool.and_eq_true_iff.mp hnew).1
        have hpk : p = k := hpq.trans (marking_found hi hw hpc hq)
        subst hpk
        exact pc_reported hm (Or.inl hpc)

theorem Reported.quiet (h : Reported s) (hw : s'.manager.workers = s.manager.workers)
    (he : ∀ p, s'.manager.completed p = true → s.manager.completed p = true) : Reported s' := by
  intro p hp
  rw [hw]
  exact h p (he p hp)

theorem freed_completed (m : Manager) (p q : ℕ) (h : (m.threadEntryFree p).completed q = true) :
    m.completed q = true := by
  by_cases hq : q = p
  · subst hq
    simp [Manager.threadEntryFree,Manager.setEntry,Manager.completed] at h
  · simpa [Manager.threadEntryFree,Manager.setEntry,Manager.completed,Function.update_of_ne hq] using h

theorem removed_completed (m : Manager) (id q : ℕ)
    (h : (m.threadEntryRemove id).2.completed q = true) : m.completed q = true := by
  unfold Manager.threadEntryRemove at h
  cases hf : m.findEntry id with
  | none =>
    rw [hf] at h
    exact h
  | some p =>
    rw [hf] at h
    exact freed_completed (m.unlink p) p q h

theorem completed_field (m : Manager) (p : ℕ) :
    m.completed p = ((m.entries p).map (·.isComplete)).getD false := by
  unfold Manager.completed
  cases m.entries p <;> rfl

theorem main_reported (hi : Inv ⟨pc,m⟩) (h : Reported ⟨pc,m⟩) (hl : l ≠ .freeall)
    (hf : ∀ x, pc ≠ .freeall x) (hm : MainMove m pc l pc' m') : Reported ⟨pc',m'⟩ := by
  cases hm with
  | freeallCalled => exact absurd rfl hl
  | freeing => exact absurd rfl (hf _)
  | refused | accepted | openFailed | opened | mallocFailed | strdupFailed | addLocked | inserted
  | addUnlocked | printLocked | printed | printUnlocked | scanned | found | passed | dataClosed
  | removeLocked | removeUnlocked => exact h
  | created =>
    refine h.quiet rfl fun p hp => ?_
    by_cases hk : p = m.next
    · subst hk
      simp [Manager.completed,Manager.setEntry] at hp
    · simpa [Manager.completed,Manager.setEntry,Function.update_of_ne hk] using hp
  | spawnFailed => exact h.quiet rfl fun p hp => freed_completed _ _ p hp
  | removed =>
    obtain ⟨-,-,hworkers,-⟩ := m.remove_frame _
    exact h.quiet hworkers fun p hp => removed_completed m _ p hp
  | @spawned fd entry id =>
    have hnone : m.workers entry = none := (hi.spawning entry rfl).2.1
    have hcompleted (p : ℕ) : (m.setEntry entry ((m.entries entry).map fun e =>
        { e with threadId := id })).completed p = m.completed p := by
      have hfield := Manager.entry_field_same (m := m) (p := entry) (q := p)
        (g := fun e => { e with threadId := id }) (·.isComplete) fun _ => rfl
      rw [completed_field,completed_field,hfield]
    intro p hp
    obtain ⟨v,hv,hr⟩ := h p ((hcompleted p).symm.trans hp)
    have hne : p ≠ entry := by
      rintro rfl
      rw [hnone] at hv
      cases hv
    exact ⟨v,(Function.update_of_ne hne ..).trans hv,hr⟩
  | joined he hj =>
    obtain ⟨j,v,hv,-,-,rfl⟩ := Manager.pthread_join_some hj
    intro p hp
    obtain ⟨w,hw,hr⟩ := h p hp
    by_cases hpj : p = j
    · subst hpj
      exact ⟨_,Function.update_self ..,rfl⟩
    · exact ⟨w,(Function.update_of_ne hpj ..).trans hw,hr⟩

end Holders

section Measure
variable {m m' : Manager} {before rest : List ℕ} {p id : ℕ} {next : Option ℕ} {pc pc' : MainPc}
  {l : Label}

theorem remaining_le (m : Manager) (next : Option ℕ) : remaining m next ≤ m.threadManager.length := by
  cases next with
  | none => exact Nat.zero_le _
  | some p => exact (List.dropWhile_suffix _).length_le

theorem remaining_head (hn : (before ++ rest).Nodup) (hl : m.threadManager = before ++ rest) :
    remaining m rest.head? = rest.length := by
  cases rest with
  | nil => rfl
  | cons q rest =>
    simp only [List.head?_cons,remaining]
    rw [hl,rest_of_split hn]

theorem remaining_all (hn : m.threadManager.Nodup) :
    remaining m m.threadManager.head? = m.threadManager.length :=
  remaining_head (show ([] ++ m.threadManager).Nodup from hn) rfl

theorem successor_split (hn : (before ++ p :: rest).Nodup)
    (hl : m.threadManager = before ++ p :: rest) : m.successor p = rest.head? := by
  rw [Manager.successor,hl,rest_of_split hn]
  cases rest <;> rfl

theorem remaining_listed (hp : p ∈ m.threadManager) (hn : m.threadManager.Nodup) :
    remaining m (some p) = remaining m (m.successor p) + 1 := by
  obtain ⟨before,rest,hl⟩ := List.append_of_mem hp
  have hsplit : (before ++ p :: rest).Nodup := hl ▸ hn
  have hl' : m.threadManager = (before ++ [p]) ++ rest := by simp [hl]
  have hhere := remaining_head hsplit hl
  have hafter := remaining_head (hl' ▸ hn) hl'
  rw [successor_split hsplit hl,hafter]
  exact hhere

theorem removed_remaining (h : Inv ⟨.removing p id,m⟩) :
    remaining (m.threadEntryRemove id).2 (m.successor p) = remaining m (m.successor p) := by
  obtain ⟨w,before,after,-,-,-,hl,-,-,hrest,-⟩ := removal_exact h rfl
  have hl : m.threadManager = before ++ p :: after := hl
  have hrest : (m.threadEntryRemove id).2.threadManager = before ++ after := hrest
  have hn : m.threadManager.Nodup := listed_nodup h
  have hsplit : (before ++ p :: after).Nodup := hl ▸ hn
  have hl' : m.threadManager = (before ++ [p]) ++ after := by simp [hl]
  have hkept : (before ++ after).Nodup := (List.nodup_middle.mp hsplit).of_cons
  rw [successor_split hsplit hl,remaining_head (hl' ▸ hn) hl',remaining_head hkept hrest]

theorem steps_left_listed (pc : MainPc) (h : m'.threadManager = m.threadManager) :
    stepsLeft m' pc = stepsLeft m pc := by
  have hremaining (next : Option ℕ) : remaining m' next = remaining m next := by
    cases next with
    | none => rfl
    | some p => simp only [remaining,h]
  have hsuccessor (p : ℕ) : m'.successor p = m.successor p := by
    simp only [Manager.successor,h]
  cases pc <;> simp only [stepsLeft,hremaining,hsuccessor,h]

theorem steps_left_le (m : Manager) (pc : MainPc) :
    stepsLeft m pc ≤ 6 * m.threadManager.length + 16 := by
  have hle := remaining_le m
  cases pc with
  | scan next | removeUnlock next =>
    have := hle next
    simp only [stepsLeft]
    omega
  | join p | closeData p | removeLock p | removing p =>
    have := hle (m.successor p)
    simp only [stepsLeft]
    omega
  | _ =>
    simp only [stepsLeft]
    omega

theorem main_left (h : Inv ⟨pc,m⟩) (hm : MainMove m pc l pc' m') (hl : l.iterating = true)
    (hf : ∀ x, pc ≠ .freeall x) : stepsLeft m' pc' < stepsLeft m pc := by
  have hn : m.threadManager.Nodup := listed_nodup h
  cases hm with
  | refused | accepted | freeallCalled => cases hl
  | freeing => exact absurd rfl (hf _)
  | openFailed | mallocFailed | strdupFailed | spawnFailed | scanned => exact Nat.succ_pos _
  | opened | created | spawned | addLocked | addUnlocked | printLocked | printed | dataClosed
  | removeLocked | removeUnlocked =>
    exact Nat.lt_succ_self _
  | @inserted p =>
    have hlen : (m.threadEntryAdd p).threadManager.length = m.threadManager.length + 1 := rfl
    simp only [stepsLeft,hlen]
    omega
  | printUnlocked =>
    have hall : remaining m.unlockManager m.threadManager.head? = m.threadManager.length :=
      remaining_all (m := m.unlockManager) hn
    simp only [stepsLeft,hall]
    omega
  | @found p =>
    have hone := remaining_listed (h.current p (by simp [MainPc.current])) hn
    simp only [stepsLeft,hone]
    omega
  | @passed p =>
    have hone := remaining_listed (h.current p (by simp [MainPc.current])) hn
    simp only [stepsLeft,hone]
    omega
  | @joined p e m' he hj =>
    obtain ⟨j,v,-,-,-,rfl⟩ := Manager.pthread_join_some hj
    exact Nat.lt_succ_self _
  | removed =>
    simp only [stepsLeft,removed_remaining h]
    omega

end Measure

section Runs
variable {m m' : Manager} {s s' : Server} {pc pc' : MainPc} {l : Label} {p : ℕ}

theorem accepting_before (hs : serverStep s l = some s') (h : ∀ x, s'.main ≠ .freeall x) :
    l ≠ .freeall ∧ ∀ x, s.main ≠ .freeall x := by
  obtain ⟨pc,m⟩ := s
  obtain ⟨pc',m'⟩ := s'
  rcases server_step_move hs with ⟨hl,-,-,hpc⟩ | hm
  · have hpc : pc' = pc := hpc
    exact ⟨by simp [hl],fun x hx => h x (hpc.trans hx)⟩
  · have hm : MainMove m pc l pc' m' := hm
    cases hm with
    | freeallCalled => exact absurd rfl (h _)
    | freeing => exact absurd rfl (h _)
    | _ => simp

theorem main_found (hm : MainMove m pc l pc' m') (hp : pc' = .join p) : m'.completed p = true := by
  cases hm with
  | found he hc =>
    cases hp
    simp [Manager.completed,he,hc]
  | _ => simp at hp

theorem Looping.next (h : Looping s) (hl : l ≠ .freeall) (hs : serverStep s l = some s') :
    Looping s' := by
  have hinv := server_step_inv h.inv hs
  obtain ⟨pc,m⟩ := s
  obtain ⟨pc',m'⟩ := s'
  rcases server_step_move hs with ⟨-,hw,hm,hpc⟩ | hm
  · have hpc : pc' = pc := hpc
    subst hpc
    exact ⟨hinv,h.accepting,worker_mutex_held h.held hw hm rfl,worker_reported_kept h.inv h.reported hw hm,
      fun p hp => worker_completed hm (h.found p hp)⟩
  · have hm : MainMove m pc l pc' m' := hm
    exact ⟨hinv,main_accepting hm hl h.accepting,main_mutex_held h.inv h.held hl h.accepting hm,
      main_reported h.inv h.reported hl h.accepting hm,fun p hp => main_found hm hp⟩

theorem looping_start : Looping serverStart := by
  refine ⟨server_start_inv,by simp [serverStart],fun t ht => ?_,fun p hp => ?_,by simp [serverStart]⟩
  · cases ht
  · cases hp

theorem looping_run {ls : List Label} (hr : Runs.run serverStep serverStart ls = some s)
    (h : ∀ x, s.main ≠ .freeall x) : Looping s := by
  refine Runs.run_induction (P := fun _ s => (∀ x, s.main ≠ .freeall x) → Looping s)
    (fun _ => looping_start) ?_ hr h
  intro ls l s s' _ ih hs hacc
  obtain ⟨hl,hbefore⟩ := accepting_before hs hacc
  exact (ih hbefore).next hl hs

theorem Looping.down (h : Looping s) (hl : l.iterating = true) (hs : serverStep s l = some s') :
    stepsLeft s'.manager s'.main + (if l.ofMain then 1 else 0) ≤ stepsLeft s.manager s.main := by
  obtain ⟨pc,m⟩ := s
  obtain ⟨pc',m'⟩ := s'
  rcases server_step_move hs with ⟨rfl,hw,hm,hpc⟩ | hm
  · have hpc : pc' = pc := hpc
    obtain ⟨w',hframe⟩ := AesdSocket.worker_frame hm
    subst hpc
    exact (steps_left_listed pc' hframe.listed).le
  · have hm : MainMove m pc l pc' m' := hm
    have hleft := main_left h.inv hm hl h.accepting
    cases hown : l.ofMain <;> simp <;> omega

theorem iterating_not_freeall (hl : l.iterating = true) : l ≠ .freeall := by
  rintro rfl
  cases hl

theorem finishing_iterating (h : finishing s l) : l.iterating = true := by
  cases l with
  | worker => rfl
  | accept | freeall => cases h
  | _ => rfl

end Runs

-- n steps of worker k, which has already found its client gone
structure Helped (s : Server) (k n : ℕ) (t : Server) : Prop where
  run : Runs.run serverStep s (List.replicate n (.worker k)) = some t
  along : Runs.Along serverStep finishing s (List.replicate n (.worker k))
  main : t.main = s.main

section Helping
variable {s t : Server} {k n p : ℕ} {w : Worker}

theorem Helped.refl (s : Server) (k : ℕ) : Helped s k 0 s := ⟨rfl,trivial,rfl⟩

theorem Helped.cons {m : Server} (hw : s.manager.workers k = some w) (hf : w.pc.finishing = true)
    (hs : serverStep s (.worker k) = some m) (hpc : m.main = s.main) (h : Helped m k n t) :
    Helped s k (n + 1) t := by
  refine ⟨?_,⟨⟨w,hw,hf⟩,fun m' hm' => ?_⟩,h.main.trans hpc⟩
  · rw [List.replicate_succ,Runs.run_next hs]
    exact h.run
  · rw [hs] at hm'
    cases hm'
    exact h.along

theorem worker_marks (hw : s.manager.workers k = some w) (hpc : w.pc = .marking) :
    ∃ m v, serverStep s (.worker k) = some m ∧ m.main = s.main ∧
      m.manager.workers k = some v ∧ v.pc = .markUnlock := by
  have hstep : serverStep s (.worker k) =
      some ⟨s.main,(s.manager.threadEntryMarkcomplete w.threadId).2.setWorker k
        { w with pc := .markUnlock }⟩ := by
    simp [serverStep,workerStep,hw,hpc]
  exact ⟨_,_,hstep,rfl,Function.update_self ..,rfl⟩

theorem worker_unlocks (hw : s.manager.workers k = some w) (hpc : w.pc = .markUnlock) :
    ∃ m v, serverStep s (.worker k) = some m ∧ m.main = s.main ∧
      m.manager.workers k = some v ∧ v.pc = .closing ∧ m.manager.managerMutex = none := by
  have hstep : serverStep s (.worker k) =
      some ⟨s.main,s.manager.unlockManager.setWorker k { w with pc := .closing }⟩ := by
    simp [serverStep,workerStep,hw,hpc]
  exact ⟨_,_,hstep,rfl,Function.update_self ..,rfl,rfl⟩

theorem worker_closing (hw : s.manager.workers k = some w) (hpc : w.pc = .closing) :
    ∃ m v, serverStep s (.worker k) = some m ∧ m.main = s.main ∧
      m.manager.workers k = some v ∧ v.pc = .returned := by
  have hstep : serverStep s (.worker k) =
      some ⟨s.main,(s.manager.close w.clientFd).setWorker k { w with pc := .returned }⟩ := by
    simp [serverStep,workerStep,hw,hpc]
  exact ⟨_,_,hstep,rfl,Function.update_self ..,rfl⟩

theorem mutex_freed (h : Looping s) (hm : AesdSocket.mainInManager s.main = false) :
    ∃ k n t, n ≤ 2 ∧ Helped s k n t ∧ t.manager.managerMutex = none := by
  cases ht : s.manager.managerMutex with
  | none => exact ⟨0,0,s,by omega,.refl s 0,ht⟩
  | some thread =>
    have hin := h.held thread ht
    cases thread with
    | main => simp [hm] at hin
    | worker k =>
      obtain ⟨w,hw,hin⟩ := hin
      cases hpc : w.pc with
      | marking =>
        obtain ⟨m,v,hs,hmain,hv,hvpc⟩ := worker_marks hw hpc
        obtain ⟨t,-,hs',hmain',-,-,hfree⟩ := worker_unlocks hv hvpc
        have hlast : Helped m k 1 t := .cons hv (by rw [hvpc]; rfl) hs' hmain' (.refl t k)
        exact ⟨k,2,t,by omega,.cons hw (by rw [hpc]; rfl) hs hmain hlast,hfree⟩
      | markUnlock =>
        obtain ⟨t,-,hs,hmain,-,-,hfree⟩ := worker_unlocks hw hpc
        exact ⟨k,1,t,by omega,.cons hw (by rw [hpc]; rfl) hs hmain (.refl t k),hfree⟩
      | _ => simp [hpc,AesdSocket.workerInManager] at hin

theorem worker_returns (h : Looping s) (hp : s.main = .join p) :
    ∃ n t w, n ≤ 2 ∧ Helped s p n t ∧ t.manager.workers p = some w ∧ w.pc = .returned := by
  obtain ⟨w,hw,hr⟩ := h.reported p (h.found p hp)
  have hlisted : p ∈ s.manager.threadManager := h.inv.current p (by simp [hp,MainPc.current])
  obtain ⟨v,hv,-,hjoined⟩ := h.inv.tracked p (listed_tracked hlisted)
  rw [hw] at hv
  cases hv
  cases hpc : w.pc with
  | markUnlock =>
    obtain ⟨m,v,hs,hmain,hv,hvpc,-⟩ := worker_unlocks hw hpc
    obtain ⟨t,u,hs',hmain',hu,hret⟩ := worker_closing hv hvpc
    have hlast : Helped m p 1 t := .cons hv (by rw [hvpc]; rfl) hs' hmain' (.refl t p)
    exact ⟨2,t,u,by omega,.cons hw (by rw [hpc]; rfl) hs hmain hlast,hu,hret⟩
  | closing =>
    obtain ⟨t,u,hs,hmain,hu,hret⟩ := worker_closing hw hpc
    exact ⟨1,t,u,by omega,.cons hw (by rw [hpc]; rfl) hs hmain (.refl t p),hu,hret⟩
  | returned => exact ⟨0,s,w,by omega,.refl s p,hw,hpc⟩
  | joined =>
    have hdying := hjoined hpc
    simp [hp,MainPc.dying] at hdying
  | _ => simp [hpc,WorkerPc.reported] at hr

theorem Helped.looping (h : Looping s) (hh : Helped s k n t) : Looping t := by
  refine Runs.guarded_induction (P := fun _ s => Looping s) h ?_ hh.run hh.along
  intro ls l m m' _ hl ih hs
  exact ih.next (iterating_not_freeall (finishing_iterating hl)) hs

end Helping

section Progress
variable {s t : Server} {p : ℕ} {w : Worker}

theorem Looping.alive (h : Looping s) (hp : p ∈ s.main.current) :
    ∃ e, s.manager.entries p = some e :=
  Option.isSome_iff_exists.mp (tracked_alive h.inv (listed_tracked (h.inv.current p hp)))

theorem join_enabled (h : Looping s) (hp : s.main = .join p) (hw : s.manager.workers p = some w)
    (hpc : w.pc = .returned) : ∃ t, serverStep s .main = some t := by
  have hcurrent : p ∈ s.main.current := by simp [hp,MainPc.current]
  have htracked : p ∈ tracked s := listed_tracked (h.inv.current p hcurrent)
  obtain ⟨e,he⟩ := h.alive hcurrent
  obtain ⟨v,hv,hid,-⟩ := h.inv.tracked p htracked
  rw [hw] at hv
  cases hv
  have hself : s.manager.idOf p = some e.threadId := by simp [Manager.idOf,he]
  have hwid : w.id = e.threadId := Option.some.inj (hid.symm.trans hself)
  have hlive : s.manager.liveThread e.threadId p = true :=
    Manager.live_thread_iff.mpr ⟨w,hw,by simp [hpc],hwid⟩
  have hbelow : p < s.manager.next := by
    by_contra hge
    have hnone := (h.inv.fresh p (Nat.le_of_not_lt hge)).2
    rw [hw] at hnone
    cases hnone
  have hsome : ((List.range s.manager.next).find? (s.manager.liveThread e.threadId)).isSome = true :=
    List.find?_isSome.mpr ⟨p,List.mem_range.mpr hbelow,hlive⟩
  obtain ⟨k,hk⟩ := Option.isSome_iff_exists.mp hsome
  -- the ids of threads that are not joined are distinct, so the search ends at the entry's own thread
  have hkp : k = p := by
    obtain ⟨v,hv,hvpc,hvid⟩ := Manager.live_thread_iff.mp (List.find?_some hk)
    have hktracked := h.inv.running k v hv hvpc
    obtain ⟨u,hu,huid,-⟩ := h.inv.tracked k hktracked
    rw [hv] at hu
    cases hu
    exact same_id h.inv.ids hktracked htracked (by rw [huid,hself,hvid])
  have hjoin : s.manager.pthreadJoin e.threadId =
      some (s.manager.setWorker p { w with pc := .joined }) := by
    simp [Manager.pthreadJoin,hk,hkp,hw,hpc]
  exact ⟨_,by simp [serverStep,mainStep,hp,he,hjoin]; rfl⟩

theorem lock_enabled (h : Looping s) (hl : s.main.locking = true)
    (hfree : s.manager.managerMutex = none) : ∃ t, serverStep s .main = some t := by
  have hlock : s.manager.lockManager .main = some (s.manager.setMutex (some .main)) := by
    simp [Manager.lockManager,hfree]
  cases hpc : s.main with
  | addLock | printLock => exact ⟨_,by simp [serverStep,mainStep,hpc,hlock]; rfl⟩
  | removeLock p =>
    obtain ⟨e,he⟩ := h.alive (p := p) (by simp [hpc,MainPc.current])
    exact ⟨_,by simp [serverStep,mainStep,hpc,he,hlock]; rfl⟩
  | _ => simp [hpc,MainPc.locking] at hl

theorem unblocked (h : Looping s) (hm : s.main ≠ .accept) : ∃ k n t, n ≤ 2 ∧ Helped s k n t ∧
    ∃ l t', l.ofMain = true ∧ l.iterating = true ∧ serverStep t l = some t' := by
  by_cases hl : s.main.locking = true
  · have hout : AesdSocket.mainInManager s.main = false := by
      cases hpc : s.main <;> simp [hpc,MainPc.locking] at hl <;> rfl
    obtain ⟨k,n,t,hn,hh,hfree⟩ := mutex_freed h hout
    obtain ⟨t',ht'⟩ := lock_enabled (hh.looping h) (hh.main ▸ hl) hfree
    exact ⟨k,n,t,hn,hh,.main,t',rfl,rfl,ht'⟩
  · have hnow (l : Label) (t' : Server) (hown : l.ofMain = true) (hit : l.iterating = true)
        (hs : serverStep s l = some t') : ∃ k n t, n ≤ 2 ∧ Helped s k n t ∧
          ∃ l t', l.ofMain = true ∧ l.iterating = true ∧ serverStep t l = some t' :=
      ⟨0,0,s,by omega,.refl s 0,l,t',hown,hit,hs⟩
    cases hpc : s.main with
    | accept => exact absurd hpc hm
    | freeall x => exact absurd hpc (h.accepting x)
    | addLock | printLock | removeLock => simp [hpc,MainPc.locking] at hl
    | openData => exact hnow (.openData none) _ rfl rfl (by simp [serverStep,hpc,openStep]; rfl)
    | create => exact hnow (.create true true) _ rfl rfl (by simp [serverStep,hpc]; rfl)
    | spawn => exact hnow (.spawn none) _ rfl rfl (by simp [serverStep,hpc,spawnStep]; rfl)
    | addInsert | addUnlock | printing | printUnlock | removing | removeUnlock =>
      exact hnow .main _ rfl rfl (by simp [serverStep,mainStep,hpc]; rfl)
    | scan next =>
      cases next with
      | none => exact hnow .main _ rfl rfl (by simp [serverStep,mainStep,hpc]; rfl)
      | some p =>
        obtain ⟨e,he⟩ := h.alive (p := p) (by simp [hpc,MainPc.current])
        exact hnow .main _ rfl rfl (by simp [serverStep,mainStep,hpc,he]; rfl)
    | closeData p =>
      obtain ⟨e,he⟩ := h.alive (p := p) (by simp [hpc,MainPc.current])
      exact hnow .main _ rfl rfl (by simp [serverStep,mainStep,hpc,he]; rfl)
    | join p =>
      obtain ⟨n,t,w,hn,hh,hw,hret⟩ := worker_returns h hpc
      obtain ⟨t',ht'⟩ := join_enabled (hh.looping h) (hh.main.trans hpc) hw hret
      exact ⟨p,n,t,hn,hh,.main,t',rfl,rfl,ht'⟩

theorem Looping.descends (h : Looping s) (hm : s.main ≠ .accept) : ∃ ls t,
    Runs.run serverStep s ls = some t ∧ Runs.Along serverStep finishing s ls ∧ Looping t ∧
      stepsLeft t.manager t.main < stepsLeft s.manager s.main := by
  obtain ⟨k,n,m,-,hh,l,t,hown,hit,hs⟩ := unblocked h hm
  have hm' : Looping m := hh.looping h
  have hcond : finishing m l := by
    cases l with
    | worker => cases hown
    | _ => exact hit
  have hkept := Runs.ranked_run Label.ofMain
    (fun _ _ _ h hl => h.next (iterating_not_freeall hl)) (fun _ _ _ h hl hs => h.down hl hs) h
    (fun l hl => by
      rw [List.eq_of_mem_replicate hl]
      rfl) hh.run
  have hleft := hm'.down hit hs
  rw [hown] at hleft
  refine ⟨_,t,Runs.run_join hh.run (Runs.run_step hs),Runs.along_append.mpr ⟨hh.along,?_⟩,
    hm'.next (iterating_not_freeall hit) hs,?_⟩
  · intro m' hrun
    rw [hh.run] at hrun
    cases hrun
    exact ⟨hcond,fun _ _ => trivial⟩
  · simp only [if_true] at hleft
    omega

structure Returning (s : Server) : Prop where
  bounded : ∀ ls t, Runs.run serverStep s ls = some t → (∀ l ∈ ls, l.iterating = true) →
    (ls.filter Label.ofMain).length ≤ 6 * s.manager.threadManager.length + 16
  unblocked : s.main ≠ .accept → ∃ k n t, n ≤ 2 ∧ Helped s k n t ∧
    ∃ l t', l.ofMain = true ∧ l.iterating = true ∧ serverStep t l = some t'
  returns : ∃ ls t, Runs.run serverStep s ls = some t ∧ Runs.Along serverStep finishing s ls ∧
    t.main = .accept

theorem accept_loop_returns {ls : List Label} (hr : Runs.run serverStep serverStart ls = some s)
    (hf : ∀ x, s.main ≠ .freeall x) : Returning s := by
  have hloop := looping_run hr hf
  refine ⟨fun ls t ht hl => ?_,unblocked hloop,?_⟩
  · have hbound := Runs.ranked_run Label.ofMain
      (fun _ _ _ h hl => h.next (iterating_not_freeall hl)) (fun _ _ _ h hl hs => h.down hl hs)
      hloop hl ht
    have hstart := steps_left_le s.manager s.main
    omega
  · exact Runs.ranked_goal (fun s => s.main = .accept) (fun _ h hg => h.descends hg) hloop

-- main waits for the mutex that the first worker holds, while the second client is connected
def lockTaken : List Label :=
  connection 4 5 70 ++ [.main,.main] ++ (connection 6 7 71).take 4 ++ List.replicate 4 (.worker 0)

theorem accept_loop_returns_locked : ∃ s, Runs.run serverStep serverStart lockTaken = some s ∧
    s.main = .addLock 1 ∧ s.manager.managerMutex = some (.worker 0) ∧ Returning s := by
  have hrun : (Runs.run serverStep serverStart lockTaken).isSome = true := by decide
  obtain ⟨s,hs⟩ := Option.isSome_iff_exists.mp hrun
  have hmain : (Runs.run serverStep serverStart lockTaken).map (·.main) = some (.addLock 1) := by
    decide
  have hmutex : (Runs.run serverStep serverStart lockTaken).map (·.manager.managerMutex) =
      some (some (.worker 0)) := by decide
  rw [hs] at hmain hmutex
  have hpc : s.main = .addLock 1 := Option.some.inj hmain
  exact ⟨s,hs,hpc,Option.some.inj hmutex,accept_loop_returns hs (by simp [hpc])⟩

end Progress

end ThreadManager
