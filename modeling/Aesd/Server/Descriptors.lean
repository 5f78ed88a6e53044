import Aesd.Server.EntryLifetime

namespace ThreadManager
open Kernel

namespace Manager

def clientFdOf (m : Manager) (p : ℕ) : Option ℕ := (m.entries p).map (·.clientFd)

def dataFdOf (m : Manager) (p : ℕ) : Option ℕ := (m.entries p).map (·.tmpdataFd)

def serving (m : Manager) (p : ℕ) : Prop :=
  ∃ w, m.workers p = some w ∧ w.pc ≠ .returned ∧ w.pc ≠ .joined

end Manager

def acquiredClient : MainPc → Option ℕ
  | .openData clientFd _ | .create clientFd _ _ | .spawn clientFd _ => some clientFd
  | _ => none

def acquiredData (m : Manager) : MainPc → Option ℕ
  | .create _ _ tmpdataClientFd => some tmpdataClientFd
  | .spawn _ newConnection => m.dataFdOf newConnection
  | _ => none

def dataClosed : MainPc → List ℕ
  | .removeLock entry | .removing entry _ => [entry]
  | _ => []

-- after the allocations and pthread_create have succeeded nothing is left to a failing iteration,
-- and thread_entry_freeall finds no entry
def keepsDescriptors (s : Server) : Label → Prop
  | .create mallocOk strdupOk => mallocOk = true ∧ strdupOk = true
  | .spawn result => result ≠ none
  | .freeall => s.manager.threadManager = []
  | _ => True

instance (s : Server) : (l : Label) → Decidable (keepsDescriptors s l)
  | .create _ _ => inferInstanceAs (Decidable (_ ∧ _))
  | .spawn _ => inferInstanceAs (Decidable (_ ≠ _))
  | .freeall => inferInstanceAs (Decidable (_ = _))
  | .accept _ | .openData _ | .main | .worker _ => inferInstanceAs (Decidable True)

structure Owned (s : Server) : Prop where
  clients : ∀ fd ∈ s.manager.clientFds, acquiredClient s.main = some fd ∨
    ∃ p ∈ tracked s, s.manager.clientFdOf p = some fd ∧ s.manager.serving p
  data : ∀ fd ∈ s.manager.dataFds, acquiredData s.manager s.main = some fd ∨
    ∃ p ∈ tracked s, s.manager.dataFdOf p = some fd ∧ p ∉ dataClosed s.main
  locals : ∀ k w, s.manager.workers k = some w → w.pc ≠ .start →
    ∀ fd, s.manager.clientFdOf k = some fd → w.clientFd = fd
  spawning : ∀ fd p, s.main = .spawn fd p → s.manager.clientFdOf p = some fd
  freeing : ∀ pc, s.main = .freeall pc → s.manager.threadManager = []

section WorkerSteps
variable {m m' : Manager} {s s' : Server} {k p fd : ℕ} {w w' : Worker}

theorem worker_entry_field {α : Type} (f : ThreadEntry → α)
    (hf : ∀ e, f { e with isComplete := true } = f e) (hm : WorkerMove m k w m') (p : ℕ) :
    (m'.entries p).map f = (m.entries p).map f := by
  cases hm with
  | marked =>
    rcases Manager.markcomplete_cases m w.threadId with heq | ⟨q,-,heq⟩
    · rw [heq]
      rfl
    · rw [heq]
      exact Manager.entry_field_same f hf
  | started | startedFreed | served | left | leftFreed | markLocked | markUnlocked | closed => rfl

theorem worker_client_fds (hm : WorkerMove m k w m') : m'.clientFds ⊆ m.clientFds ∧
    m'.dataFds ⊆ m.dataFds := by
  cases hm with
  | marked =>
    rcases Manager.markcomplete_cases m w.threadId with heq | ⟨q,-,heq⟩ <;> rw [heq] <;>
      exact ⟨subset_rfl,subset_rfl⟩
  | closed => exact ⟨Finset.erase_subset _ _,Finset.erase_subset _ _⟩
  | started | startedFreed | served | left | leftFreed | markLocked | markUnlocked =>
    exact ⟨subset_rfl,subset_rfl⟩

theorem worker_closes (hm : WorkerMove m k w m') (hw' : m'.workers k = some w') :
    w'.pc ≠ .returned ∨ w.pc = .closing ∧ w.clientFd ∉ m'.clientFds := by
  cases hm with
  | closed hpc => exact Or.inr ⟨hpc,Finset.notMem_erase _ _⟩
  | started | startedFreed | served | left | leftFreed | markLocked | marked | markUnlocked =>
    simp only [Manager.setWorker,Function.update_self,Option.some.injEq] at hw'
    subst hw'
    exact Or.inl (by simp)

theorem worker_local (hm : WorkerMove m k w m') (hw' : m'.workers k = some w') :
    w.pc ≠ .start ∧ w'.clientFd = w.clientFd ∨ m.clientFdOf k = none ∨
      m.clientFdOf k = some w'.clientFd := by
  cases hm with
  | @started hpc e he =>
    simp only [Manager.setWorker,Function.update_self,Option.some.injEq] at hw'
    subst hw'
    exact Or.inr (Or.inr (by simp [Manager.clientFdOf,he]))
  | startedFreed hpc he => exact Or.inr (Or.inl (by simp [Manager.clientFdOf,he]))
  | served hpc | left hpc | leftFreed hpc | markLocked hpc | marked hpc | markUnlocked hpc
  | closed hpc =>
    simp only [Manager.setWorker,Function.update_self,Option.some.injEq] at hw'
    subst hw'
    exact Or.inl ⟨by simp [hpc],rfl⟩

theorem worker_owned (hi : Inv s) (h : Owned s) (hw : s.manager.workers k = some w)
    (hm : WorkerMove s.manager k w s'.manager) (hpc : s'.main = s.main) : Owned s' := by
  obtain ⟨w',hk⟩ := worker_kept hi hw hm
  have hclient : s'.manager.clientFdOf = s.manager.clientFdOf :=
    funext (worker_entry_field _ (fun _ => rfl) hm)
  have hdata : s'.manager.dataFdOf = s.manager.dataFdOf :=
    funext (worker_entry_field _ (fun _ => rfl) hm)
  have hself : s'.manager.workers k = some w' := by rw [hk.workers,Function.update_self]
  have hother {j : ℕ} (hj : j ≠ k) : s'.manager.workers j = s.manager.workers j := by
    rw [hk.workers,Function.update_of_ne hj]
  have htracked : tracked s' = tracked s := by rw [tracked,tracked,hpc,hk.listed]
  have hacquired : acquiredData s'.manager s'.main = acquiredData s.manager s.main := by
    rw [hpc]
    unfold acquiredData
    rw [hdata]
  obtain ⟨hclients,hdatas⟩ := worker_client_fds hm
  have hlocals : ∀ j v, s'.manager.workers j = some v → v.pc ≠ .start →
      ∀ fd, s'.manager.clientFdOf j = some fd → v.clientFd = fd := by
    intro j v hv hvpc fd hfd
    rw [hclient] at hfd
    by_cases hne : j = k
    · subst hne
      rcases worker_local hm hv with ⟨hstart,heq⟩ | hnone | hsome
      · rw [heq]
        exact h.locals j w hw hstart fd hfd
      · rw [hnone] at hfd
        cases hfd
      · exact Option.some.inj (hsome.symm.trans hfd)
    · exact h.locals j v ((hother hne).symm.trans hv) hvpc fd hfd
  refine ⟨fun fd hfd => ?_,fun fd hfd => ?_,hlocals,?_,?_⟩
  · rw [hpc,htracked,hclient]
    rcases h.clients fd (hclients hfd) with hacq | ⟨p,hp,hpfd,v,hv,hret,hj⟩
    · exact Or.inl hacq
    · refine Or.inr ⟨p,hp,hpfd,?_⟩
      by_cases hne : p = k
      · subst hne
        refine ⟨w',hself,fun hret' => ?_,hk.unjoined.2⟩
        rcases worker_closes hm hself with hno | ⟨hclosing,hclosed⟩
        · exact hno hret'
        · have hlocal := h.locals p w hw (by simp [hclosing]) fd hpfd
          exact hclosed (hlocal ▸ hfd)
      · exact ⟨v,(hother hne).trans hv,hret,hj⟩
  · rw [hacquired,htracked,hdata,hpc]
    exact h.data fd (hdatas hfd)
  · rw [hpc,hclient]
    exact h.spawning
  · rw [hpc,hk.listed]
    exact h.freeing

end WorkerSteps

section MainSteps
variable {m m' : Manager} {s s' : Server} {p id : ℕ}

theorem Owned.quiet (h : Owned s) (hc : s'.manager.clientFds = s.manager.clientFds)
    (hd : s'.manager.dataFds = s.manager.dataFds) (hw : s'.manager.workers = s.manager.workers)
    (he : s'.manager.entries = s.manager.entries) (ht : tracked s' = tracked s)
    (hac : acquiredClient s'.main = acquiredClient s.main)
    (had : acquiredData s.manager s'.main = acquiredData s.manager s.main)
    (hdc : dataClosed s'.main = dataClosed s.main)
    (hs : ∀ fd p, s'.main = .spawn fd p → s.main = .spawn fd p)
    (hf : ∀ pc, s'.main = .freeall pc → s'.manager.threadManager = []) : Owned s' := by
  have hclient : s'.manager.clientFdOf = s.manager.clientFdOf := by
    funext q
    rw [Manager.clientFdOf,he,Manager.clientFdOf]
  have hdata : s'.manager.dataFdOf = s.manager.dataFdOf := by
    funext q
    rw [Manager.dataFdOf,he,Manager.dataFdOf]
  have hserving : s'.manager.serving = s.manager.serving := by
    funext q
    rw [Manager.serving,hw,Manager.serving]
  have hacquired : acquiredData s'.manager s'.main = acquiredData s.manager s.main := by
    rw [← had]
    unfold acquiredData
    rw [hdata]
  refine ⟨?_,?_,?_,fun fd p hp => ?_,hf⟩
  · rw [hc,hac,ht,hclient,hserving]
    exact h.clients
  · rw [hd,hacquired,ht,hdata,hdc]
    exact h.data
  · rw [hw,hclient]
    exact h.locals
  · rw [hclient]
    exact h.spawning fd p (hs fd p hp)

theorem accepted_owned {fd : ℕ} {ip : Bytes} (h : Owned ⟨.accept,m⟩) :
    Owned ⟨.openData fd ip,{ m with clientFds := insert fd m.clientFds }⟩ := by
  refine ⟨fun x hx => ?_,h.data,h.locals,by simp,by simp⟩
  rcases Finset.mem_insert.mp hx with rfl | hx
  · exact Or.inl rfl
  · rcases h.clients x hx with hacq | howner
    · cases hacq
    · exact Or.inr howner

theorem open_failed_owned {fd : ℕ} {ip : Bytes} (h : Owned ⟨.openData fd ip,m⟩) :
    Owned ⟨.accept,m.close fd⟩ := by
  refine ⟨fun x hx => ?_,fun x hx => h.data x (Finset.mem_of_mem_erase hx),h.locals,by simp,by simp⟩
  obtain ⟨hne,hx⟩ := Finset.mem_erase.mp hx
  rcases h.clients x hx with hacq | howner
  · cases hacq
    exact absurd rfl hne
  · exact Or.inr howner

theorem opened_owned {clientFd fd : ℕ} {ip : Bytes} (h : Owned ⟨.openData clientFd ip,m⟩) :
    Owned ⟨.create clientFd ip fd,{ m with dataFds := insert fd m.dataFds }⟩ := by
  refine ⟨h.clients,fun x hx => ?_,h.locals,by simp,by simp⟩
  rcases Finset.mem_insert.mp hx with rfl | hx
  · exact Or.inl rfl
  · rcases h.data x hx with hacq | howner
    · cases hacq
    · exact Or.inr howner

theorem created_owned {clientFd fd : ℕ} {ip : Bytes} (hi : Inv ⟨.create clientFd ip fd,m⟩)
    (h : Owned ⟨.create clientFd ip fd,m⟩) : Owned ⟨.spawn clientFd m.next,
      { m.setEntry m.next (some ⟨0,ip,clientFd,false,fd⟩) with next := m.next + 1 }⟩ := by
  have hnew {q : ℕ} (hq : m.workers q ≠ none) : q ≠ m.next :=
    fun he => hq (he ▸ (hi.fresh m.next (Nat.le_refl _)).2)
  have hlisted {q : ℕ} (hq : q ∈ tracked ⟨.create clientFd ip fd,m⟩) : q ≠ m.next :=
    tracked_ne hi hq (hi.fresh m.next (Nat.le_refl _)).2
  constructor
  · intro x hx
    rcases h.clients x hx with hacq | ⟨q,hq,hfd,hserving⟩
    · exact Or.inl hacq
    · refine Or.inr ⟨q,hq,?_,hserving⟩
      simpa [Manager.clientFdOf,Manager.setEntry,hlisted hq] using hfd
  · intro x hx
    rcases h.data x hx with hacq | ⟨q,hq,hfd,hopen⟩
    · refine Or.inl ?_
      simpa [acquiredData,Manager.dataFdOf,Manager.setEntry] using hacq
    · refine Or.inr ⟨q,hq,?_,hopen⟩
      simpa [Manager.dataFdOf,Manager.setEntry,hlisted hq] using hfd
  · intro k w hw hpc x hx
    have hne : k ≠ m.next := hnew (by rw [show m.workers k = some w from hw]; simp)
    refine h.locals k w hw hpc x ?_
    simpa [Manager.clientFdOf,Manager.setEntry,hne] using hx
  · intro x q hq
    cases hq
    simp [Manager.clientFdOf,Manager.setEntry]
  · simp

theorem spawned_owned {fd : ℕ} (hi : Inv ⟨.spawn fd p,m⟩) (h : Owned ⟨.spawn fd p,m⟩) :
    Owned ⟨.addLock p,(m.setEntry p ((m.entries p).map fun e => { e with threadId := id })).setWorker
      p ⟨.start,id,0,0⟩⟩ := by
  set m' := (m.setEntry p ((m.entries p).map fun e => { e with threadId := id })).setWorker
    p ⟨.start,id,0,0⟩ with hm'
  have hclient : m'.clientFdOf = m.clientFdOf :=
    funext fun _ => Manager.entry_field_same (·.clientFd) fun _ => rfl
  have hdata : m'.dataFdOf = m.dataFdOf :=
    funext fun _ => Manager.entry_field_same (·.tmpdataFd) fun _ => rfl
  have hworker : m'.workers p = some ⟨.start,id,0,0⟩ := Function.update_self ..
  have hother {q : ℕ} (hq : q ≠ p) : m'.workers q = m.workers q := Function.update_of_ne hq ..
  have hlisted {q : ℕ} (hq : q ∈ m.threadManager) : q ≠ p :=
    tracked_ne hi hq (hi.spawning p rfl).2.1
  have hp : p ∈ tracked ⟨.addLock p,m'⟩ := List.mem_cons_self ..
  constructor
  · intro x hx
    rw [hclient]
    rcases h.clients x hx with hacq | ⟨q,hq,hfd,v,hv,hpc⟩
    · cases hacq
      exact Or.inr ⟨p,hp,h.spawning _ p rfl,_,hworker,by simp,by simp⟩
    · exact Or.inr ⟨q,List.mem_cons_of_mem _ hq,hfd,v,(hother (hlisted hq)).trans hv,hpc⟩
  · intro x hx
    rw [hdata]
    rcases h.data x hx with hacq | ⟨q,hq,hfd,-⟩
    · exact Or.inr ⟨p,hp,hacq,by simp [dataClosed]⟩
    · exact Or.inr ⟨q,List.mem_cons_of_mem _ hq,hfd,by simp [dataClosed]⟩
  · intro k w hw hpc x hx
    rw [hclient] at hx
    by_cases hne : k = p
    · subst hne
      rw [hworker] at hw
      cases hw
      exact absurd rfl hpc
    · exact h.locals k w ((hother hne).symm.trans hw) hpc x hx
  · simp
  · simp

theorem joined_owned (h : Owned ⟨.join p,m⟩) (hj : m.pthreadJoin id = some m') :
    Owned ⟨.closeData p,m'⟩ := by
  obtain ⟨j,v,hv,-,hret,rfl⟩ := Manager.pthread_join_some hj
  have hother {q : ℕ} (hq : q ≠ j) :
      (m.setWorker j { v with pc := .joined }).workers q = m.workers q := Function.update_of_ne hq ..
  refine ⟨fun x hx => ?_,fun x hx => ?_,fun k w hw hpc x hx => ?_,by simp,by simp⟩
  · rcases h.clients x hx with hacq | ⟨q,hq,hfd,w,hw,hwret,hwj⟩
    · cases hacq
    · have hne : q ≠ j := by
        rintro rfl
        rw [show m.workers q = some w from hw] at hv
        cases hv
        exact hwret hret
      exact Or.inr ⟨q,hq,hfd,w,(hother hne).trans hw,hwret,hwj⟩
  · rcases h.data x hx with hacq | ⟨q,hq,hfd,-⟩
    · cases hacq
    · exact Or.inr ⟨q,hq,hfd,by simp [dataClosed]⟩
  · by_cases hne : k = j
    · subst hne
      rw [show (m.setWorker k { v with pc := .joined }).workers k = some { v with pc := .joined } from
        Function.update_self ..] at hw
      cases hw
      exact h.locals k v hv (by simp [hret]) x hx
    · exact h.locals k w ((hother hne).symm.trans hw) hpc x hx

theorem data_closed_owned {e : ThreadEntry} (h : Owned ⟨.closeData p,m⟩) (he : m.entries p = some e) :
    Owned ⟨.removeLock p,m.close e.tmpdataFd⟩ := by
  refine ⟨fun x hx => ?_,fun x hx => ?_,h.locals,by simp,by simp⟩
  · rcases h.clients x (Finset.mem_of_mem_erase hx) with hacq | howner
    · cases hacq
    · exact Or.inr howner
  · obtain ⟨hne,hx⟩ := Finset.mem_erase.mp hx
    rcases h.data x hx with hacq | ⟨q,hq,hfd,-⟩
    · cases hacq
    · refine Or.inr ⟨q,hq,hfd,fun hmem => hne ?_⟩
      rw [List.mem_singleton.mp hmem,Manager.dataFdOf,show m.entries p = some e from he] at hfd
      exact (Option.some.inj hfd).symm

theorem removed_owned (hi : Inv ⟨.removing p id,m⟩) (h : Owned ⟨.removing p id,m⟩)
    (following : Option ℕ) : Owned ⟨.removeUnlock following,(m.threadEntryRemove id).2⟩ := by
  have hn : m.threadManager.Nodup := listed_nodup hi
  have hp : p ∈ m.threadManager := hi.current p (by simp [MainPc.current])
  obtain ⟨v,hv,hj⟩ := hi.dying p (by simp [MainPc.dying])
  rw [remove_found hi hp (hi.removal p id rfl)]
  have htracked {q : ℕ} (hq : q ∈ tracked ⟨.removing p id,m⟩) (hne : q ≠ p) :
      q ∈ tracked ⟨.removeUnlock following,(m.unlink p).threadEntryFree p⟩ := by
    refine List.mem_append_right _ (hn.mem_erase_iff.mpr ⟨hne,?_⟩)
    simpa [tracked,MainPc.adding] using hq
  have hentry {q : ℕ} (hne : q ≠ p) :
      ((m.unlink p).threadEntryFree p).entries q = m.entries q := by
    simp [Manager.threadEntryFree,Manager.setEntry,Manager.unlink,hne]
  constructor
  · intro x hx
    rcases h.clients x hx with hacq | ⟨q,hq,hfd,w,hw,hret,hwj⟩
    · cases hacq
    · have hne : q ≠ p := by
        rintro rfl
        rw [show m.workers q = some w from hw] at hv
        cases hv
        exact hwj hj
      exact Or.inr ⟨q,htracked hq hne,by rw [Manager.clientFdOf,hentry hne]; exact hfd,w,hw,hret,hwj⟩
  · intro x hx
    rcases h.data x hx with hacq | ⟨q,hq,hfd,hopen⟩
    · cases hacq
    · have hne : q ≠ p := fun he => hopen (he ▸ List.mem_singleton_self _)
      exact Or.inr ⟨q,htracked hq hne,by rw [Manager.dataFdOf,hentry hne]; exact hfd,
        by simp [dataClosed]⟩
  · intro k w hw hpc x hx
    refine h.locals k w hw hpc x ?_
    by_cases hne : k = p
    · subst hne
      simp [Manager.clientFdOf,Manager.threadEntryFree,Manager.setEntry] at hx
    · rw [Manager.clientFdOf,hentry hne] at hx
      exact hx
  · simp
  · simp

theorem main_owned {l : Label} (hi : Inv s) (h : Owned s) (hl : keepsDescriptors s l)
    (hm : MainMove s.manager s.main l s'.main s'.manager) : Owned s' := by
  obtain ⟨pc,m⟩ := s
  obtain ⟨pc',m'⟩ := s'
  simp only at hm
  cases hm with
  | refused | addLocked | inserted | addUnlocked | printLocked | printed | printUnlocked | scanned
  | found | passed | removeLocked =>
    exact h.quiet rfl rfl rfl rfl rfl rfl rfl rfl (by simp) (by simp)
  | @removeUnlocked following =>
    exact h.quiet rfl rfl rfl rfl rfl rfl rfl rfl (by simp) (by simp)
  | accepted => exact accepted_owned h
  | openFailed => exact open_failed_owned h
  | opened => exact opened_owned h
  | mallocFailed => cases hl.1
  | strdupFailed => cases hl.2
  | created => exact created_owned hi h
  | spawnFailed => exact absurd rfl hl
  | spawned => exact spawned_owned hi h
  | joined he hj => exact joined_owned h hj
  | dataClosed he => exact data_closed_owned h he
  | removed => exact removed_owned hi h _
  | freeallCalled =>
    exact h.quiet rfl rfl rfl rfl rfl rfl rfl rfl (by simp) (fun _ _ => hl)
  | @freeing pc pc' m' hm =>
    have hempty : m.threadManager = [] := h.freeing pc rfl
    have hnone : MainPc.current (.freeall pc) = [] := by
      refine List.eq_nil_iff_forall_not_mem.mpr fun q hq => ?_
      have := hi.current q hq
      simp [hempty] at this
    cases hm with
    | finished | unlocked =>
      exact h.quiet rfl rfl rfl rfl rfl rfl rfl rfl (by simp) (fun _ _ => hempty)
    | first hhead => simp [hempty] at hhead
    | joined | locked | removed => simp [MainPc.current] at hnone

theorem server_step_owned {l : Label} (hi : Inv s) (h : Owned s) (hl : keepsDescriptors s l)
    (hs : serverStep s l = some s') : Owned s' := by
  cases server_step_move hs with
  | worker _ hw hm hpc => exact worker_owned hi h hw hm hpc
  | main hm => exact main_owned hi h hl hm

theorem server_start_owned : Owned serverStart where
  clients := by simp [serverStart,initializeServer]
  data := by simp [serverStart,initializeServer]
  locals := by simp [serverStart,initializeServer]
  spawning := by simp [serverStart]
  freeing := by simp [serverStart]

theorem server_run_owned {ls : List Label} (hr : Runs.run serverStep serverStart ls = some s)
    (ha : Runs.Along serverStep keepsDescriptors serverStart ls) : Owned s :=
  Runs.guarded_induction (P := fun _ s => Owned s) server_start_owned
    (fun _ _ _ _ hrun hl h hs => server_step_owned (server_run_inv hrun) h hl hs) hr ha

end MainSteps

structure DescriptorsKept (ls : List Label) : Prop where
  top : ∀ done, done <+: ls → ∀ s, Runs.run serverStep serverStart done = some s →
    s.main = .accept →
    (∀ fd ∈ s.manager.clientFds, ∃ p ∈ s.manager.threadManager,
      s.manager.clientFdOf p = some fd ∧ s.manager.serving p) ∧
    (∀ fd ∈ s.manager.dataFds, ∃ p ∈ s.manager.threadManager, s.manager.dataFdOf p = some fd)
  failed : ∀ done l, done ++ [l] <+: ls → ∀ s s', Runs.run serverStep serverStart done = some s →
    serverStep s l = some s' → s'.main = .accept →
    (∀ fd, acquiredClient s.main = some fd → fd ∉ s'.manager.clientFds) ∧
    (∀ fd, acquiredData s.manager s.main = some fd → fd ∉ s'.manager.dataFds)
  freed : ∀ done, done <+: ls → ∀ s, Runs.run serverStep serverStart done = some s →
    s.main = .freeall .done → s.manager.dataFds = ∅

section Kept
variable {s s' : Server} {ls : List Label}

theorem failed_iteration_closed {l : Label} (hl : keepsDescriptors s l)
    (hs : serverStep s l = some s') (hpc : s'.main = .accept) :
    (∀ fd, acquiredClient s.main = some fd → fd ∉ s'.manager.clientFds) ∧
    (∀ fd, acquiredData s.manager s.main = some fd → fd ∉ s'.manager.dataFds) := by
  cases server_step_move hs with
  | worker _ _ _ hsame =>
    rw [← hsame,hpc]
    simp [acquiredClient,acquiredData]
  | main hm =>
    obtain ⟨pc,m⟩ := s
    obtain ⟨pc',m'⟩ := s'
    simp only at hm hpc
    subst hpc
    cases hm with
    | refused | scanned => simp [acquiredClient,acquiredData]
    | openFailed => simp [acquiredClient,acquiredData,Manager.close]
    | mallocFailed => cases hl.1
    | strdupFailed => cases hl.2
    | spawnFailed => exact absurd rfl hl

theorem descriptors_kept (hr : Runs.run serverStep serverStart ls = some s)
    (ha : Runs.Along serverStep keepsDescriptors serverStart ls) : DescriptorsKept ls := by
  have halong {done : List Label} (hd : done <+: ls) :
      Runs.Along serverStep keepsDescriptors serverStart done := by
    obtain ⟨rest,rfl⟩ := hd
    exact (Runs.along_append.mp ha).1
  constructor
  · intro done hd m hm hpc
    have h := server_run_owned hm (halong hd)
    have htracked : tracked m = m.manager.threadManager := by simp [tracked,hpc,MainPc.adding]
    refine ⟨fun fd hfd => ?_,fun fd hfd => ?_⟩
    · rcases h.clients fd hfd with hacq | howner
      · rw [hpc] at hacq
        cases hacq
      · exact htracked ▸ howner
    · rcases h.data fd hfd with hacq | ⟨p,hp,hpfd,-⟩
      · rw [hpc] at hacq
        cases hacq
      · exact ⟨p,htracked ▸ hp,hpfd⟩
  · intro done l hd m m' hm hs hpc
    exact failed_iteration_closed (Runs.along_snoc hm (halong hd)).2 hs hpc
  · intro done hd m hm hpc
    have h := server_run_owned hm (halong hd)
    have hempty : tracked m = [] := by simp [tracked,hpc,MainPc.adding,h.freeing _ hpc]
    refine Finset.eq_empty_of_forall_notMem fun fd hfd => ?_
    rcases h.data fd hfd with hacq | ⟨p,hp,-⟩
    · rw [hpc] at hacq
      cases hacq
    · simp [hempty] at hp

theorem descriptors_kept_of_two_clients :
    (∃ s, Runs.run serverStep serverStart (twoClients ++ [.main,.main,.main]) = some s) ∧
      DescriptorsKept (twoClients ++ [.main,.main,.main]) := by
  have hchecked : (Runs.checkedRun serverStep (fun s l => decide (keepsDescriptors s l)) serverStart
      (twoClients ++ [.main,.main,.main])).isSome = true := by decide
  obtain ⟨s,hs⟩ := Option.isSome_iff_exists.mp hchecked
  obtain ⟨hr,ha⟩ := Runs.checked_run hs
  exact ⟨⟨s,hr⟩,descriptors_kept hr (ha.mono fun _ _ => of_decide_eq_true)⟩

def failedMalloc : List Label := [.accept (some (4,[])),.openData (some 5),.create false true]

def failedThread : List Label :=
  [.accept (some (4,[])),.openData (some 5),.create true true,.spawn none]

def freedEntry : List Label :=
  connection 4 5 70 ++ [.main,.main] ++ List.replicate 7 (.worker 0) ++ .freeall ::
    List.replicate 6 .main

theorem descriptors_leak : ¬ DescriptorsKept failedMalloc ∧ ¬ DescriptorsKept failedThread ∧
    ¬ DescriptorsKept freedEntry := by
  have hmalloc : (Runs.run serverStep serverStart failedMalloc).map (fun s => (s.main,
      s.manager.threadManager,decide (4 ∈ s.manager.clientFds))) = some (.accept,[],true) := by decide
  have hthread : (Runs.run serverStep serverStart failedThread).map (fun s => (s.main,
      s.manager.threadManager,decide (5 ∈ s.manager.dataFds))) = some (.accept,[],true) := by decide
  have hfreed : (Runs.run serverStep serverStart freedEntry).map (fun s => (s.main,
      decide (5 ∈ s.manager.dataFds))) = some (.freeall .done,true) := by decide
  refine ⟨fun h => ?_,fun h => ?_,fun h => ?_⟩
  · obtain ⟨s,hs,heq⟩ := Option.map_eq_some_iff.mp hmalloc
    simp only [Prod.mk.injEq,decide_eq_true_eq] at heq
    obtain ⟨p,hp,-⟩ := (h.top _ (List.prefix_refl _) s hs heq.1).1 4 heq.2.2
    simp [heq.2.1] at hp
  · obtain ⟨s,hs,heq⟩ := Option.map_eq_some_iff.mp hthread
    simp only [Prod.mk.injEq,decide_eq_true_eq] at heq
    obtain ⟨p,hp,-⟩ := (h.top _ (List.prefix_refl _) s hs heq.1).2 5 heq.2.2
    simp [heq.2.1] at hp
  · obtain ⟨s,hs,heq⟩ := Option.map_eq_some_iff.mp hfreed
    simp only [Prod.mk.injEq,decide_eq_true_eq] at heq
    have hempty := h.freed _ (List.prefix_refl _) s hs heq.1
    simp [hempty] at heq

end Kept

end ThreadManager
