import Aesd.Library.Simulation
import Aesd.Server.Handover
import Aesd.Server.LineServer
import Aesd.Server.Signals

namespace AesdProgram
open Kernel Device ClientHandler ThreadManager AesdSocket AesdServer Holdings

-- the whole server where USE_AESD_CHAR_DEVICE is 1: the process, the tmpdata_client_fd of each
-- handler, and for each descriptor the f_pos of the file it was opened on
structure Program where
  process : Process
  tmpdataClientFd : ℕ → ℕ
  fPos : ℕ → ℕ
  outgoing : ℕ → Bytes
  driver : Driver

def programStart : Program := ⟨processStart,fun _ => 0,fun _ => 0,fun _ => [],aesdInitModule⟩

inductive Step where
  | thread (l : ThreadManager.Label)
  | client (k : ℕ) (act : Act)

-- a successful open gives a file of its own, at its start
def fPosAfter (fPos : ℕ → ℕ) : ThreadManager.Label → ℕ → ℕ
  | .openData (some fd) => Function.update fPos fd 0
  | _ => fPos

def localsAfter (s : Program) : ThreadManager.Label → ℕ → ℕ
  | .worker k => match s.process.server.manager.workers k, s.process.server.manager.entries k with
      | some w, some e =>
          if w.pc = .start then Function.update s.tmpdataClientFd k e.tmpdataFd else s.tmpdataClientFd
      | _, _ => s.tmpdataClientFd
  | _ => s.tmpdataClientFd

def respondTo (s : Program) (k : ℕ) : Act → Option Answer
  | .thread ev => if Event.own ev then some ⟨ev,s.fPos (s.tmpdataClientFd k),s.driver⟩ else none
  | .device env => answer s.driver (s.process.handlers k) (s.fPos (s.tmpdataClientFd k)) env

def programStep (s : Program) : Step → Option Program
  | .thread l => (processStep true s.process (.thread l)).map fun p =>
      { s with process := p, fPos := fPosAfter s.fPos l, tmpdataClientFd := localsAfter s l }
  | .client k act => do
      let a ← respondTo s k act
      let p ← processStep true s.process (.client k a.event)
      return { s with
        process := p, driver := a.driver,
        fPos := Function.update s.fPos (s.tmpdataClientFd k) a.fPos,
        outgoing := Function.update s.outgoing k
          (outgoingAfter (s.process.handlers k) (s.outgoing k) a.event) }

def traffic (_ : Program) : Step → List (AesdServer.Label ℕ)
  | .thread _ => []
  | .client k act => [⟨k,act⟩]

-- the handlers and the driver, the descriptors left out; a file that no handler has used yet is at
-- its start
structure View (s : Program) (v : System ℕ) : Prop where
  clients : v.clients = s.process.handlers
  outgoing : v.outgoing = s.outgoing
  owner : s.process.fileMutex = v.owner.map .worker
  driver : v.driver = s.driver
  served : ∀ k, IsServing s.process.server.manager k → v.fPos k = s.fPos (s.tmpdataClientFd k) ∧
    s.process.server.manager.dataFdOf k = some (s.tmpdataClientFd k)
  unstarted : ∀ k, s.process.server.manager.workers k = none → v.fPos k = 0
  started : ∀ k, AtStart s.process.server.manager k → v.fPos k = 0 ∧
    ∀ fd, s.process.server.manager.dataFdOf k = some fd → s.fPos fd = 0
  acquired : ∀ fd, acquiredData s.process.server.manager s.process.server.main = some fd →
    s.fPos fd = 0

structure Sound (s : Program) : Prop where
  inv : Inv s.process.server
  exclusive : Exclusive s.process.server

section Viewed
variable {s s' : Program} {v v' : System ℕ} {l : ThreadManager.Label} {k : ℕ} {act : Act}

theorem serving_iff {p : Process} : p.servingPc k = true ↔ IsServing p.server.manager k := by
  simp [Process.servingPc,IsServing,Option.any_eq_true]

theorem thread_step_server (h : programStep s (.thread l) = some s') :
    l ≠ .freeall ∧ ∃ server, serverStep s.process.server l = some server ∧
      s' = { s with process := { s.process with server := server },
                    fPos := fPosAfter s.fPos l, tmpdataClientFd := localsAfter s l } := by
  obtain ⟨p,hp,rfl⟩ := Option.map_eq_some_iff.mp h
  cases process_step_move hp with
  | thread hl _ hs => exact ⟨hl,_,hs,rfl⟩

theorem f_pos_after_other {fPos : ℕ → ℕ} {fd : ℕ} (h : l ≠ .openData (some fd)) :
    fPosAfter fPos l fd = fPos fd := by
  unfold fPosAfter
  split
  · exact Function.update_of_ne (fun he => h (by rw [he])) ..
  · rfl

theorem opened_closed {server server' : Server} {fd : ℕ}
    (h : serverStep server (.openData (some fd)) = some server') : ¬ isOpen server.manager fd := by
  obtain ⟨pc,m⟩ := server
  obtain ⟨pc',m'⟩ := server'
  cases server_step_move h with
  | worker hl => cases hl
  | main hm =>
    simp only at hm
    cases hm with
    | opened hopen => exact hopen

-- the file of a thread that still runs is not the one that is opened
theorem f_pos_kept {server' : Server} {fd : ℕ} (hs : Sound s) {w : Worker}
    (hstep : serverStep s.process.server l = some server')
    (hw : s.process.server.manager.workers k = some w) (hpc : w.pc ≠ .joined)
    (hfd : s.process.server.manager.dataFdOf k = some fd) : fPosAfter s.fPos l fd = s.fPos fd := by
  refine f_pos_after_other fun he => ?_
  subst he
  exact opened_closed hstep (data_open hs.inv hs.exclusive hw hpc hfd)

theorem main_locals (hm : ∀ k, l ≠ .worker k) : localsAfter s l = s.tmpdataClientFd := by
  cases l with
  | worker k => exact absurd rfl (hm k)
  | _ => rfl

theorem main_viewed {server : Server} (hv : View s v) (hs : Sound s)
    (hstep : serverStep s.process.server l = some server)
    (hm : MainMove s.process.server.manager s.process.server.main l server.main server.manager) :
    View { s with process := { s.process with server := server },
                  fPos := fPosAfter s.fPos l, tmpdataClientFd := localsAfter s l } v := by
  have hlocals : localsAfter s l = s.tmpdataClientFd := by
    refine main_locals fun k => ?_
    rintro rfl
    exact main_move_not_worker hm
  refine ⟨hv.clients,hv.outgoing,hv.owner,hv.driver,fun k hk => ?_,fun k hk => ?_,fun k hk => ?_,
    fun fd hfd => ?_⟩
  · obtain ⟨w,hw,hpc⟩ := hk
    rcases main_active hs.inv hm hw (Or.inr hpc) with ⟨hw',hd⟩ | ⟨-,hstart,-⟩
    · obtain ⟨hpos,hfd⟩ := hv.served k ⟨w,hw',hpc⟩
      simp only [hlocals]
      rw [f_pos_kept hs hstep hw' (by simp [hpc]) hfd]
      exact ⟨hpos,hd.trans hfd⟩
    · simp [hstart] at hpc
  · exact hv.unstarted k (main_unstarted hm hk)
  · obtain ⟨w,hw,hpc⟩ := hk
    rcases main_active hs.inv hm hw (Or.inl hpc) with ⟨hw',hd⟩ | ⟨hnone,-,hacq⟩
    · obtain ⟨hpos,hfresh⟩ := hv.started k ⟨w,hw',hpc⟩
      refine ⟨hpos,fun fd hfd => ?_⟩
      have hfd' := hd.symm.trans hfd
      exact (f_pos_kept hs hstep hw' (by simp [hpc]) hfd').trans (hfresh fd hfd')
    · refine ⟨hv.unstarted k hnone,fun fd hfd => ?_⟩
      have hfd' := hacq.trans hfd
      refine (f_pos_after_other fun he => ?_).trans (hv.acquired fd hfd')
      subst he
      cases (acquired_label hm).symm.trans hfd'
  · rcases main_acquired hm hfd with hold | ⟨rfl,-⟩
    · refine (f_pos_after_other fun he => ?_).trans (hv.acquired fd hold)
      subst he
      cases (acquired_label hm).symm.trans hold
    · exact Function.update_self ..

theorem worker_locals {w : Worker} {e : ThreadEntry}
    (hw : s.process.server.manager.workers k = some w)
    (he : s.process.server.manager.entries k = some e) (hpc : w.pc = .start) :
    localsAfter s (.worker k) k = e.tmpdataFd := by
  simp [localsAfter,hw,he,hpc]

theorem other_locals {j : ℕ} (hne : j ≠ k) : localsAfter s (.worker k) j = s.tmpdataClientFd j := by
  cases hw : s.process.server.manager.workers k with
  | none => simp [localsAfter,hw]
  | some w =>
    cases he : s.process.server.manager.entries k with
    | none => simp [localsAfter,hw,he]
    | some e => by_cases hpc : w.pc = .start <;> simp [localsAfter,hw,he,hpc,hne]

theorem worker_viewed {server : Server} {w : Worker} (hv : View s v) (hs : Sound s)
    (hw : s.process.server.manager.workers k = some w)
    (hm : WorkerMove s.process.server.manager k w server.manager)
    (hpc : server.main = s.process.server.main) :
    View { s with process := { s.process with server := server },
                  fPos := fPosAfter s.fPos (.worker k),
                  tmpdataClientFd := localsAfter s (.worker k) } v := by
  obtain ⟨w',hk⟩ := worker_kept hs.inv hw hm
  have hdata (j : ℕ) : server.manager.dataFdOf j = s.process.server.manager.dataFdOf j :=
    worker_entry_field _ (fun _ => rfl) hm j
  have hother {j : ℕ} (hj : j ≠ k) : server.manager.workers j = s.process.server.manager.workers j := by
    rw [hk.workers,Function.update_of_ne hj]
  refine ⟨hv.clients,hv.outgoing,hv.owner,hv.driver,fun j hj => ?_,fun j hj => ?_,fun j hj => ?_,
    fun fd hfd => ?_⟩
  · by_cases hne : j = k
    · subst hne
      obtain ⟨hstart,hsome⟩ := worker_serving hm hj
      obtain ⟨e,he⟩ := Option.isSome_iff_exists.mp hsome
      have hfd : s.process.server.manager.dataFdOf j = some e.tmpdataFd := by
        simp [Manager.dataFdOf,he]
      obtain ⟨hpos,hfresh⟩ := hv.started j ⟨w,hw,hstart⟩
      simp only [worker_locals hw he hstart]
      exact ⟨hpos.trans (hfresh _ hfd).symm,(hdata j).trans hfd⟩
    · obtain ⟨u,hu,hupc⟩ := hj
      obtain ⟨hpos,hfd⟩ := hv.served j ⟨u,(hother hne).symm.trans hu,hupc⟩
      simp only [other_locals hne]
      exact ⟨hpos,(hdata j).trans hfd⟩
  · have hne : j ≠ k := by
      rintro rfl
      have hsome : server.manager.workers j = some w' := by rw [hk.workers,Function.update_self]
      cases hsome.symm.trans hj
    exact hv.unstarted j ((hother hne).symm.trans hj)
  · have hne : j ≠ k := fun he => worker_start hm (he ▸ hj)
    obtain ⟨u,hu,hupc⟩ := hj
    obtain ⟨hpos,hfresh⟩ := hv.started j ⟨u,(hother hne).symm.trans hu,hupc⟩
    exact ⟨hpos,fun fd hfd => hfresh fd ((hdata j).symm.trans hfd)⟩
  · refine hv.acquired fd ?_
    have hsame : acquiredData server.manager server.main =
        acquiredData s.process.server.manager s.process.server.main := by
      rw [hpc]
      unfold acquiredData
      rw [funext hdata]
    exact hsame.symm.trans hfd

theorem client_step_true (h : Handler) (ev : Event) : clientStep true h ev = step h ev := by
  unfold clientStep
  split <;> simp

theorem respond_viewed (hv : View s v) (hk : IsServing s.process.server.manager k) :
    respond v ⟨k,act⟩ = respondTo s k act := by
  obtain ⟨hpos,-⟩ := hv.served k hk
  cases act with
  | thread ev => simp [respond,respondTo,hpos,hv.driver]
  | device env => simp [respond,respondTo,hpos,hv.driver,hv.clients]

theorem owner_viewed {p p' : Process} {owner : Option ℕ} {ev : Event}
    (hv : p.fileMutex = owner.map .worker) (h : fileStep p k ev = some p') :
    ∃ owner', ownerAfter owner k ev = some owner' ∧ p'.fileMutex = owner'.map .worker := by
  cases ev with
  | lock =>
    obtain ⟨hfree,rfl⟩ := lock_file_some h
    have hnone : owner = none := by
      cases owner with
      | none => rfl
      | some _ => cases hfree.symm.trans hv
    exact ⟨some k,by simp [ownerAfter,hnone],rfl⟩
  | unlock =>
    cases h
    exact ⟨none,rfl,rfl⟩
  | _ =>
    cases h
    exact ⟨owner,rfl,hv⟩

theorem client_viewed (hv : View s v) (hs : Sound s) (h : programStep s (.client k act) = some s') :
    s'.process.server = s.process.server ∧
      ∃ v', sysStep v ⟨k,act⟩ = some v' ∧ View s' v' := by
  simp only [programStep,Option.bind_eq_bind,Option.bind_eq_some_iff,Option.pure_def,
    Option.some.injEq] at h
  obtain ⟨a,ha,p,hp,rfl⟩ := h
  cases process_step_move hp with
  | @client _ _ h' p₁ hfree hserving hc hf =>
    have hk := serving_iff.mp hserving
    have hsame : p₁.server = s.process.server := by rw [file_step_same hf]
    have hhandlers : p₁.handlers = s.process.handlers := by rw [file_step_same hf]
    obtain ⟨owner',howner,howner'⟩ := owner_viewed hv.owner hf
    rw [client_step_true] at hc
    have hstep : sysStep v ⟨k,act⟩ = some ⟨Function.update v.clients k h',
        Function.update v.fPos k a.fPos,
        Function.update v.outgoing k (outgoingAfter (v.clients k) (v.outgoing k) a.event),
        owner',a.driver⟩ := by
      simp only [sysStep,respond_viewed hv hk,ha,howner,hv.clients,hc,Option.bind_eq_bind,
        Option.bind_some,Option.pure_def]
    obtain ⟨-,hfd⟩ := hv.served k hk
    obtain ⟨w,hw,hwpc⟩ := hk
    have hrun : w.pc ≠ .joined := by simp [hwpc]
    -- the file position that moves is that of no other handler
    have hother {j : ℕ} {u : Worker} {fd : ℕ} (hne : j ≠ k)
        (hu : s.process.server.manager.workers j = some u) (hj : u.pc ≠ .joined)
        (hjfd : s.process.server.manager.dataFdOf j = some fd) :
        Function.update s.fPos (s.tmpdataClientFd k) a.fPos fd = s.fPos fd :=
      Function.update_of_ne (data_apart hs.inv hs.exclusive hne hu hj hjfd hw hrun hfd) ..
    refine ⟨hsame,_,hstep,?_,?_,howner',rfl,fun j hj => ?_,fun j hj => ?_,fun j hj => ?_,
      fun fd hacq => ?_⟩
    · rw [hhandlers,hv.clients]
    · rw [hv.clients,hv.outgoing]
    · rw [hsame] at hj ⊢
      by_cases hne : j = k
      · subst hne
        simp [hfd]
      · obtain ⟨hpos,hjfd⟩ := hv.served j hj
        obtain ⟨u,hu,hupc⟩ := hj
        have hkept := hother hne hu (by simp [hupc]) hjfd
        exact ⟨(Function.update_of_ne hne ..).trans (hpos.trans hkept.symm),hjfd⟩
    · rw [hsame] at hj
      have hne : j ≠ k := by
        rintro rfl
        cases hj.symm.trans hw
      exact (Function.update_of_ne hne ..).trans (hv.unstarted j hj)
    · rw [hsame] at hj ⊢
      obtain ⟨u,hu,hupc⟩ := hj
      have hne : j ≠ k := by
        rintro rfl
        cases hw.symm.trans hu
        simp [hwpc] at hupc
      obtain ⟨hpos,hfresh⟩ := hv.started j ⟨u,hu,hupc⟩
      refine ⟨(Function.update_of_ne hne ..).trans hpos,fun fd hjfd => ?_⟩
      exact (hother hne hu (by simp [hupc]) hjfd).trans (hfresh fd hjfd)
    · rw [hsame] at hacq
      refine (Function.update_of_ne ?_ ..).trans (hv.acquired fd hacq)
      exact acquired_apart hs.inv hs.exclusive hacq hw hrun hfd

theorem sound_step {l : Step} (hs : Sound s) (h : programStep s l = some s') : Sound s' := by
  cases l with
  | thread l =>
    obtain ⟨-,server,hstep,rfl⟩ := thread_step_server h
    exact ⟨server_step_inv hs.inv hstep,server_step_exclusive hs.inv hs.exclusive hstep⟩
  | client k act =>
    simp only [programStep,Option.bind_eq_bind,Option.bind_eq_some_iff,Option.pure_def,
      Option.some.injEq] at h
    obtain ⟨a,-,p,hp,rfl⟩ := h
    cases process_step_move hp with
    | client _ _ _ hf =>
      have hsame := congrArg Process.server (file_step_same hf)
      exact ⟨hsame ▸ hs.inv,hsame ▸ hs.exclusive⟩

theorem thread_viewed (hv : View s v) (hs : Sound s) (h : programStep s (.thread l) = some s') :
    View s' v := by
  obtain ⟨-,server,hstep,rfl⟩ := thread_step_server h
  cases server_step_move hstep with
  | worker hl hw hm hpc =>
    subst hl
    exact worker_viewed hv hs hw hm hpc
  | main hm => exact main_viewed hv hs hstep hm

theorem program_start_sound : Sound programStart := ⟨server_start_inv,server_start_exclusive⟩

theorem program_start_view : View programStart (start aesdInitModule) where
  clients := rfl
  outgoing := rfl
  owner := rfl
  driver := rfl
  served := by simp [IsServing,programStart,processStart,serverStart,initializeServer]
  unstarted _ _ := rfl
  started := by simp [AtStart,programStart,processStart,serverStart,initializeServer]
  acquired _ _ := rfl

-- descriptors are given out again, but every handler works on the file it was started with, as if
-- each client had one of its own from the start
theorem program_shows {ls : List Step} (hr : Runs.run programStep programStart ls = some s) :
    ∃ v, Runs.run sysStep (start aesdInitModule)
      (Runs.outputs programStep traffic programStart ls) = some v ∧ View s v := by
  have hsim : ∀ (m : Program) (u : System ℕ) (l : Step) (m' : Program), (View m u ∧ Sound m) →
      programStep m l = some m' →
      ∃ u', Runs.run sysStep u (traffic m l) = some u' ∧ View m' u' ∧ Sound m' := by
    rintro m u l m' ⟨hv,hs⟩ h
    cases l with
    | thread l => exact ⟨u,rfl,thread_viewed hv hs h,sound_step hs h⟩
    | client k act =>
      obtain ⟨-,u',hu,hv'⟩ := client_viewed hv hs h
      exact ⟨u',Runs.run_step hu,hv',sound_step hs h⟩
  obtain ⟨v,hrun,hv,-⟩ := Runs.shown_run hsim ⟨program_start_view,program_start_sound⟩ hr
  exact ⟨v,hrun,hv⟩

end Viewed

def threads (ls : List ThreadManager.Label) : List Step := ls.map .thread

def acts (k : ℕ) (as : List Act) : List Step := as.map (.client k)

-- a client's packet of one letter, and its response of n entries of two bytes
def onePacket (k : ℕ) (b : UInt8) (n : ℕ) : List Step :=
  acts k [.thread (.recv [b,newline]),.thread .tau,.thread .tau,.thread .lock,
    .thread (.branch zeroStack),.device calm,.device calm,.thread .unlock,.thread .tau] ++
  acts k (List.replicate n [.device calm,.thread (.send 2)]).flatten ++
  acts k [.device calm,.thread .tau]

-- the last client gets the descriptors of the first one, whose file was read to its end
def threeClients : List Step :=
  threads (connection 4 5 70 ++ [.main,.main,.worker 0]) ++ onePacket 0 97 1 ++
    acts 0 [.thread (.recv [])] ++
    threads (List.replicate 6 (.worker 0) ++ connection 6 7 71 ++ List.replicate 8 .main ++
      connection 4 5 72 ++ [.worker 2]) ++ onePacket 2 98 2

theorem program_shows_three_clients :
    ∃ s v, Runs.run programStep programStart threeClients = some s ∧ s.tmpdataClientFd 2 = 5 ∧
      s.outgoing 2 = [97,10,98,10] ∧ Runs.run sysStep (start aesdInitModule)
        (Runs.outputs programStep traffic programStart threeClients) = some v ∧ View s v := by
  obtain ⟨s,hs,hfd⟩ := Option.map_eq_some_iff.mp (show (Runs.run programStep programStart
    threeClients).map (fun s => (s.tmpdataClientFd 2,s.outgoing 2)) = some (5,[97,10,98,10]) by
      decide)
  obtain ⟨v,hv,hview⟩ := program_shows hs
  exact ⟨s,v,hs,congrArg Prod.fst hfd,congrArg Prod.snd hfd,hv,hview⟩

end AesdProgram
