import Aesd.Server.HandlerGuards

namespace AesdSocket
open Kernel ThreadManager ClientHandler

section Delivery
variable {s s' : Process} {t : Thread} {sig : Signal}

theorem interruptible_free {h : Handler} (hi : interruptible h = true) : h.holding = false := by
  unfold interruptible jammed at hi
  cases hh : h.holding <;> cases hp : h.pc.inSection <;> simp [hh,hp] at hi ⊢

theorem signal_handler_idle (sig : Signal) : (signalHandler sig).pc.current = [] ∧
    (signalHandler sig).pc.inManager = false := by
  cases sig <;> simp [signalHandler,FramePc.current,FramePc.inManager,freeallInManager]

theorem exit_reaches_main (hsig : sig ≠ .sigalrm) (hl : deliversSafely s (.deliver .main sig) = true) :
    s.server.manager.threadManager = [] ∨
      mainInManager s.server.main = false ∧ ∀ g ∈ s.frames .main, g.pc.inManager = false := by
  have hcond : s.server.manager.threadManager = [] ∨ outsideManager s = true := by
    cases sig with
    | sigalrm => exact absurd rfl hsig
    | sigint | sigterm => simpa [deliversSafely] using hl
  refine hcond.imp_right fun hout => ?_
  simpa [outsideManager] using hout

theorem exit_reaches_worker {k : ℕ} (hsig : sig ≠ .sigalrm)
    (hl : deliversSafely s (.deliver (.worker k) sig) = true) : s.server.manager.threadManager = [] := by
  cases sig with
  | sigalrm => exact absurd rfl hsig
  | sigint | sigterm => simpa [deliversSafely] using hl

theorem delivered_guarded (h : Guarded s) (ha : s.alive t = true) (hb : ∀ f ∈ s.frames t, f.sig ≠ sig)
    (hl : deliversSafely s (.deliver t sig) = true) :
    Guarded (s.setFrames t (signalHandler sig :: s.frames t)) := by
  set s' := s.setFrames t (signalHandler sig :: s.frames t) with hs'
  have hframes : s'.frames = Function.update s.frames t (signalHandler sig :: s.frames t) := rfl
  have hself := frames_self hframes
  have hkeep {u : Thread} {g : Frame} (hg : g ∈ s.frames u) : g ∈ s'.frames u := by
    by_cases hu : u = t
    · subst hu
      rw [hself]
      exact List.mem_cons_of_mem _ hg
    · rwa [frames_other hframes hu]
  have hnew {u : Thread} {g : Frame} (hg : g ∈ s'.frames u) :
      u = t ∧ g = signalHandler sig ∨ g ∈ s.frames u :=
    frame_after (List.Subset.refl _) hframes hg
  obtain ⟨hcurrent,hin⟩ := signal_handler_idle sig
  have hsig : (signalHandler sig).sig = sig := rfl
  constructor
  · intro u hu
    exact holds_manager_kept (h.manager u hu) rfl (fun _ _ hw _ => hw) fun g hg hgin =>
      ⟨g,hkeep hg,hgin⟩
  · intro u hu
    exact holds_file_kept (h.file u hu) rfl fun g hg hgin => ⟨g,hkeep hg,hgin⟩
  · intro u
    by_cases hu : u = t
    · subst hu
      rw [hself,List.map_cons,List.nodup_cons]
      refine ⟨fun hmem => ?_,h.signals u⟩
      obtain ⟨g,hg,hgs⟩ := List.mem_map.mp hmem
      exact hb g hg hgs
    · rw [frames_other hframes hu]
      exact h.signals u
  · intro u g hg
    rcases hnew hg with ⟨-,rfl⟩ | hg
    · exact signal_handler_kind sig
    · exact h.kinds u g hg
  · intro k g hg hgs
    rcases hnew hg with ⟨rfl,rfl⟩ | hg
    · rw [hsig] at hgs
      subst hgs
      exact interruptible_free hl
    · exact h.frozen k g hg hgs
  · by_cases hu : Thread.main = t
    · subst hu
      rw [hself]
      exact ⟨fun hne => exit_reaches_main hne hl,h.stacked⟩
    · rw [frames_other hframes hu]
      exact h.stacked
  · by_cases hu : Thread.main = t
    · subst hu
      rw [hself,topCurrent]
      intro p hp
      split_ifs at hp
      · exact h.current p hp
      · rw [hcurrent] at hp
        cases hp
    · rw [frames_other hframes hu]
      exact h.current
  · intro k g hg hgs
    rcases hnew hg with ⟨rfl,rfl⟩ | hg
    · rw [hsig] at hgs
      have hempty := exit_reaches_worker hgs hl
      have hstarted := alive_started h.fresh ha
      exact ⟨fun _ => hempty,hcurrent,hin,hstarted⟩
    · exact h.workers k g hg hgs
  · exact h.fresh
  · exact h.spawning
  · exact h.accepting

end Delivery

section Client
variable {s s₁ : Process} {k : ℕ} {ev : Event} {h h' : Handler}

theorem step_holding (hs : step h ev = some h') :
    (ev ≠ .unlock → h.holding = true → h'.holding = true) ∧ (ev = .lock → h'.holding = true) := by
  by_cases hl : ev = .lock
  · subst hl
    exact ⟨fun _ _ => lock_taken hs,fun _ => lock_taken hs⟩
  · exact ⟨fun hu hh => (holding_kept hs hl hu).trans hh,fun he => absurd he hl⟩

theorem client_holding {dev : Bool} (hc : clientStep dev h ev = some h') :
    (ev ≠ .unlock → h.holding = true → h'.holding = true) ∧ (ev = .lock → h'.holding = true) := by
  unfold clientStep at hc
  split at hc
  · split_ifs at hc
    · exact step_holding hc
    · cases hc
      exact ⟨fun _ hh => hh,fun he => by cases he⟩
  · exact step_holding hc

theorem client_guarded (hg : Guarded s) (hfree : s.frames (.worker k) = [])
    {dev : Bool} (hc : clientStep dev (s.handlers k) ev = some h) (hf : fileStep s k ev = some s₁) :
    Guarded { s₁ with handlers := Function.update s₁.handlers k h } := by
  obtain ⟨hkeep,hlock⟩ := client_holding hc
  have heq := file_step_same hf
  have hmutex : ∀ u, s₁.fileMutex = some u →
      ev = .lock ∧ u = .worker k ∨ ev ≠ .unlock ∧ s.fileMutex = some u := by
    cases ev with
    | lock =>
      obtain ⟨-,rfl⟩ := lock_file_some hf
      exact fun u hu => Or.inl ⟨rfl,(Option.some.inj hu).symm⟩
    | unlock =>
      cases hf
      exact fun u hu => by cases hu
    | recv | tau | branch | ioctl | write | read | send =>
      cases hf
      exact fun u hu => Or.inr ⟨by simp,hu⟩
  have hserver : s₁.server = s.server := by rw [heq]
  have hframes : s₁.frames = s.frames := by rw [heq]
  have hhandlers : s₁.handlers = s.handlers := by rw [heq]
  refine ⟨?_,fun u hu => ?_,?_,?_,fun j g hg' hsig => ?_,?_,?_,?_,?_,?_,?_⟩
  · intro u hu
    rw [hserver] at hu
    refine holds_manager_kept (hg.manager u hu) (by rw [hserver]) ?_ ?_
    · exact fun _ _ hw _ => by rw [hserver]; exact hw
    · exact fun g hg' hin => ⟨g,by rw [hframes]; exact hg',hin⟩
  · rcases hmutex u hu with ⟨hev,rfl⟩ | ⟨hne,hu⟩
    · exact Or.inl ⟨k,rfl,by simp [hlock hev]⟩
    · rcases hg.file u hu with ⟨j,rfl,hj⟩ | ⟨g,hg',hin⟩
      · refine Or.inl ⟨j,rfl,?_⟩
        by_cases hjk : j = k
        · subst hjk
          simpa using hkeep hne hj
        · simpa [hhandlers,Function.update_of_ne hjk] using hj
      · exact Or.inr ⟨g,by rw [hframes]; exact hg',hin⟩
  · rw [hframes]
    exact hg.signals
  · rw [hframes]
    exact hg.kinds
  · rw [hframes] at hg'
    by_cases hjk : j = k
    · subst hjk
      rw [hfree] at hg'
      cases hg'
    · simpa [hhandlers,Function.update_of_ne hjk] using hg.frozen j g hg' hsig
  · rw [hframes,hserver]
    exact hg.stacked
  · rw [hframes,hserver]
    exact hg.current
  · rw [hframes,hserver]
    exact hg.workers
  · rw [hserver]
    exact hg.fresh
  · rw [hserver]
    exact hg.spawning
  · rw [hserver]
    exact hg.accepting

end Client

section Threads
variable {s s' : Process} {k : ℕ} {w : Worker} {l : ThreadManager.Label} {server : Server}

theorem worker_guarded (h : Guarded s) (hw : s.server.manager.workers k = some w)
    (hm : WorkerMove s.server.manager k w server.manager) (hpc : server.main = s.server.main) :
    Guarded { s with server := server } := by
  obtain ⟨w',hlisted,hnext,hworkers,hmutex⟩ := worker_frame hm
  have hother {j : ℕ} (hj : j ≠ k) : server.manager.workers j = s.server.manager.workers j := by
    rw [hworkers,Function.update_of_ne hj]
  have hunstarted {p : ℕ} (hp : s.server.manager.workers p = none) :
      server.manager.workers p = none := by
    have hne : p ≠ k := by
      rintro rfl
      rw [hw] at hp
      cases hp
    rw [hother hne,hp]
  refine ⟨fun u hu => ?_,h.file,h.signals,h.kinds,h.frozen,?_,?_,?_,fun p hp => ?_,
    fun fd p hp => ?_,?_⟩
  · rcases hmutex with hnone | ⟨hself,hin⟩ | ⟨hsame,hkeep⟩
    · rw [hnone] at hu
      cases hu
    · rw [hself] at hu
      cases hu
      exact ⟨w',by rw [hworkers,Function.update_self],hin⟩
    · rw [hsame] at hu
      cases u with
      | main =>
        rcases h.manager .main hu with hin | hframe
        · exact Or.inl (hpc ▸ hin)
        · exact Or.inr hframe
      | worker j =>
        obtain ⟨v,hv,hin⟩ := h.manager _ hu
        by_cases hj : j = k
        · subst hj
          rw [hw] at hv
          cases hv
          exact ⟨w',by rw [hworkers,Function.update_self],hkeep hin⟩
        · exact ⟨v,(hother hj).trans hv,hin⟩
  · rw [hpc,hlisted]
    exact h.stacked
  · rw [hlisted]
    exact h.current
  · rw [hlisted,hnext]
    exact h.workers
  · rw [hnext] at hp
    exact hunstarted (h.fresh p hp)
  · rw [hpc] at hp
    obtain ⟨hlt,hnone⟩ := h.spawning fd p hp
    exact ⟨hnext ▸ hlt,hunstarted hnone⟩
  · rw [hpc]
    exact h.accepting

theorem main_guarded (h : Guarded s) (hl : l ≠ .freeall) (hfree : s.frames .main = [])
    (hcond : ∀ p, s.server.main = .addInsert p →
      ∀ k < s.server.manager.next, checking (s.frames (.worker k)) = false)
    (hm : MainMove s.server.manager s.server.main l server.main server.manager) :
    Guarded { s with server := server } := by
  obtain ⟨hlisted,hnext,hworkers,hunstarted,hmutex,hspawning⟩ := main_frame hm hl h.accepting
  have hspawn {j : ℕ} {v : Worker} (hv : s.server.manager.workers j = some v) (fd : ℕ) :
      s.server.main ≠ .spawn fd j := by
    intro hp
    rw [(h.spawning fd j hp).2] at hv
    cases hv
  refine ⟨fun u hu => ?_,h.file,h.signals,h.kinds,h.frozen,?_,?_,fun j g hg hsig => ?_,
    fun p hp => ?_,fun fd p hp => ?_,?_⟩
  · rcases hmutex with hnone | ⟨hself,hin⟩ | ⟨hsame,hkeep⟩
    · rw [hnone] at hu
      cases hu
    · rw [hself] at hu
      cases hu
      exact Or.inl hin
    · rw [hsame] at hu
      cases u with
      | main =>
        rcases h.manager .main hu with hin | ⟨g,hg,-⟩
        · exact Or.inl (hkeep hin)
        · rw [hfree] at hg
          cases hg
      | worker j =>
        obtain ⟨v,hv,hin⟩ := h.manager _ hu
        exact ⟨v,hworkers j v hv hin (hspawn hv),hin⟩
  · simp only [hfree]
    trivial
  · simp only [hfree]
    intro p hp
    cases hp
  · obtain ⟨hempty,hcurrent,hin,hlt⟩ := h.workers j g hg hsig
    refine ⟨fun hpc => (hlisted (hempty hpc)).resolve_right ?_,hcurrent,hin,
      Nat.lt_of_lt_of_le hlt hnext⟩
    rintro ⟨p,hp⟩
    have hseen := hcond p hp j hlt
    rw [checking,List.any_eq_false] at hseen
    simpa [hpc] using hseen g hg
  · refine hunstarted p (h.fresh p (Nat.le_trans hnext hp)) fun fd hfd => ?_
    exact absurd (h.spawning fd p hfd).1 (Nat.not_lt.mpr (Nat.le_trans hnext hp))
  · obtain ⟨rfl,hsucc,hsame⟩ := hspawning fd p hp
    rw [hsucc,hsame]
    exact ⟨Nat.lt_succ_self _,h.fresh _ (Nat.le_refl _)⟩
  · exact main_accepting hm hl h.accepting

theorem thread_guarded (h : Guarded s) (hl : l ≠ .freeall) (hfree : s.frames (threadOf l) = [])
    (hcond : deliversSafely s (.thread l) = true) (hs : serverStep s.server l = some server) :
    Guarded { s with server := server } := by
  cases server_step_move hs with
  | worker _ hw hm hpc => exact worker_guarded h hw hm hpc
  | main hm =>
    have hmain : threadOf l = .main := by
      cases l with
      | worker k => exact absurd hm main_move_not_worker
      | _ => rfl
    refine main_guarded h hl (hmain ▸ hfree) (fun p hp k hk => ?_) hm
    have hlabel : l = .main := insert_label (hp ▸ hm)
    simp only [hlabel,deliversSafely,hp,List.all_eq_true,List.mem_range,Bool.not_eq_true'] at hcond
    exact hcond k hk

end Threads

section Runs
variable {s s' : Process} {l : Label} {ls : List Label}

theorem process_step_guarded (h : Guarded s) (hl : deliversSafely s l = true)
    (hs : processStep false s l = some s') : Guarded s' := by
  cases process_step_move hs with
  | thread hne hfree hserver => exact thread_guarded h hne hfree hl hserver
  | client hfree _ hc hf => exact client_guarded h hfree hc hf
  | delivered _ ha hb => exact delivered_guarded h ha hb hl
  | handler hf hm => exact frame_guarded h hf hm

theorem process_start_guarded : Guarded processStart where
  manager := by simp [processStart,serverStart,initializeServer]
  file := by simp [processStart]
  signals := by simp [processStart]
  kinds := by simp [processStart]
  frozen := by simp [processStart]
  stacked := trivial
  current := by simp [processStart,topCurrent]
  workers := by simp [processStart]
  fresh := by simp [processStart,serverStart,initializeServer]
  spawning := by simp [processStart,serverStart]
  accepting := by simp [processStart,serverStart]

theorem signal_safety (hr : Runs.run (processStep false) processStart ls = some s)
    (ha : Runs.Along (processStep false) (fun s l => deliversSafely s l = true) processStart ls) :
    SignalSafe s :=
  (Runs.guarded_induction (P := fun _ s => Guarded s) process_start_guarded
    (fun _ _ _ _ _ hl h hs => process_step_guarded h hl hs) hr ha).safe

end Runs

-- SIGALRM waits for the worker's section on main, SIGINT then ends the server
def orderlyExit : List Label :=
  connected ++ [.client 0 (.recv [newline]),.client 0 .tau,.client 0 .lock,.deliver .main .sigalrm,
    .handler .main true,.client 0 (.branch zeroStack),.client 0 (.write true),
    .client 0 (.write true),.client 0 .unlock] ++ List.replicate 4 (.handler .main true) ++
  [.client 0 .tau,.client 0 (.read (some [])),.client 0 .tau] ++ disconnected ++
  handled .sigint 11

theorem signal_safety_of_orderly_exit : ∃ s, Runs.run (processStep false) processStart orderlyExit = some s ∧
    s.exited = true ∧ SignalSafe s := by
  have hexit : (Runs.checkedRun (processStep false) deliversSafely processStart orderlyExit).map (·.exited) =
      some true := by decide
  obtain ⟨s,hs,he⟩ := Option.map_eq_some_iff.mp hexit
  obtain ⟨hr,ha⟩ := Runs.checked_run hs
  exact ⟨s,hr,he,signal_safety hr ha⟩

def alarmInSection : List Label :=
  connected ++ [.client 0 (.recv [newline]),.client 0 .tau,.client 0 .lock,
    .deliver (.worker 0) .sigalrm,.handler (.worker 0) true]

def interruptInList : List Label :=
  ([.accept (some (4,[])),.openData (some 5),.create true true,.spawn (some 70),.main,.main,.main,
    .worker 0] : List ThreadManager.Label).map .thread ++ disconnected ++
  .thread .main :: handled .sigint 2

def interruptWorker : List Label :=
  connected ++ [.deliver (.worker 0) .sigterm,.handler (.worker 0) true]

theorem signals_lock_out :
    (∃ s, Runs.run (processStep false) processStart alarmInSection = some s ∧ ¬ SignalSafe s) ∧
    (∃ s, Runs.run (processStep false) processStart interruptInList = some s ∧ ¬ SignalSafe s) ∧
    (∃ s, Runs.run (processStep false) processStart interruptWorker = some s ∧ ¬ SignalSafe s) := by
  have halarm : (Runs.run (processStep false) processStart alarmInSection).map (fun s =>
      (s.frames (.worker 0),s.fileMutex)) =
      some ([⟨.sigalrm,.lockFile⟩],some (.worker 0)) := by decide
  have hlist : (Runs.run (processStep false) processStart interruptInList).map (fun s =>
      (s.frames .main,s.server.manager.managerMutex)) =
      some ([⟨.sigint,.freeall (.removeLock 0)⟩],some .main) := by decide
  have hworker : (Runs.run (processStep false) processStart interruptWorker).map (fun s =>
      (s.frames (.worker 0),(s.server.manager.workers 0).map (·.id),
        (s.server.manager.entries 0).map (·.threadId))) =
      some ([⟨.sigterm,.freeall (.join 0)⟩],some 70,some 70) := by decide
  refine ⟨?_,?_,?_⟩
  · obtain ⟨s,hs,heq⟩ := Option.map_eq_some_iff.mp halarm
    obtain ⟨hframes,hmutex⟩ := Prod.mk.inj heq
    exact ⟨s,hs,fun h => h.file _ _ _ hframes rfl hmutex⟩
  · obtain ⟨s,hs,heq⟩ := Option.map_eq_some_iff.mp hlist
    obtain ⟨hframes,hmutex⟩ := Prod.mk.inj heq
    exact ⟨s,hs,fun h => h.manager _ _ _ 0 hframes rfl hmutex⟩
  · obtain ⟨s,hs,heq⟩ := Option.map_eq_some_iff.mp hworker
    obtain ⟨hframes,heq⟩ := Prod.mk.inj heq
    obtain ⟨hid,hentry⟩ := Prod.mk.inj heq
    obtain ⟨w,hw,hwid⟩ := Option.map_eq_some_iff.mp hid
    obtain ⟨e,he,heid⟩ := Option.map_eq_some_iff.mp hentry
    exact ⟨s,hs,fun h => h.join 0 _ _ 0 w e hframes rfl hw he (hwid.trans heid.symm)⟩

end AesdSocket
