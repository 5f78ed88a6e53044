import Aesd.Library.Holdings
import Aesd.Server.Descriptors
import Aesd.Server.EntrySafety
import Mathlib.Data.List.Flatten

namespace ThreadManager
open Kernel Holdings

namespace Manager

def unclosed (m : Manager) (p : ℕ) : Bool :=
  (m.workers p).any fun w => w.pc ≠ .returned && w.pc ≠ .joined

def clientUse (m : Manager) (p : ℕ) : List ℕ :=
  if m.unclosed p then (m.clientFdOf p).toList else []

def dataUse (m : Manager) (closed : List ℕ) (p : ℕ) : List ℕ :=
  if p ∈ closed then [] else (m.dataFdOf p).toList

end Manager

def descriptors (s : Server) (p : ℕ) : List ℕ :=
  s.manager.clientUse p ++ s.manager.dataUse (dataClosed s.main) p

-- the descriptors that some thread has still to use: those of the iteration of the accept loop, of
-- the handlers that run, and of the entries whose data file is still to be closed
def inUse (s : Server) : List ℕ :=
  (acquiredClient s.main).toList ++ (acquiredData s.manager s.main).toList ++
    (tracked s).flatMap (descriptors s)

structure Exclusive (s : Server) : Prop where
  held : Held (isOpen s.manager) (inUse s)
  locals : ∀ k w, s.manager.workers k = some w → w.pc ≠ .start →
    ∀ fd, s.manager.clientFdOf k = some fd → w.clientFd = fd
  spawning : ∀ fd p, s.main = .spawn fd p → s.manager.clientFdOf p = some fd

section Uses
variable {m m' : Manager} {s s' : Server} {p q k fd : ℕ}

theorem unclosed_congr (hw : m'.workers p = m.workers p) : m'.unclosed p = m.unclosed p := by
  rw [Manager.unclosed,hw,Manager.unclosed]

theorem client_use_congr (hu : m'.unclosed p = m.unclosed p)
    (hc : m'.clientFdOf p = m.clientFdOf p) : m'.clientUse p = m.clientUse p := by
  rw [Manager.clientUse,hu,hc,Manager.clientUse]

theorem descriptors_congr (hu : s'.manager.unclosed p = s.manager.unclosed p)
    (hc : s'.manager.clientFdOf p = s.manager.clientFdOf p)
    (hd : s'.manager.dataFdOf p = s.manager.dataFdOf p)
    (hm : p ∈ dataClosed s'.main ↔ p ∈ dataClosed s.main) : descriptors s' p = descriptors s p := by
  simp only [descriptors,client_use_congr hu hc,Manager.dataUse,hd,hm]

theorem tracked_nodup (h : Inv s) : (tracked s).Nodup := h.ids.of_map _

theorem close_open {r : ℕ} (hr : r ≠ fd) (h : isOpen m r) : isOpen (m.close fd) r := by
  rcases h with h | h
  · exact Or.inl (Finset.mem_erase.mpr ⟨hr,h⟩)
  · exact Or.inr (Finset.mem_erase.mpr ⟨hr,h⟩)

theorem Exclusive.quiet (h : Exclusive s) (hc : s'.manager.clientFds = s.manager.clientFds)
    (hd : s'.manager.dataFds = s.manager.dataFds) (hw : s'.manager.workers = s.manager.workers)
    (he : s'.manager.entries = s.manager.entries) (ht : tracked s' = tracked s)
    (hac : acquiredClient s'.main = acquiredClient s.main)
    (had : acquiredData s.manager s'.main = acquiredData s.manager s.main)
    (hdc : dataClosed s'.main = dataClosed s.main)
    (hs : ∀ fd p, s'.main = .spawn fd p → s.main = .spawn fd p) : Exclusive s' := by
  have hclient : s'.manager.clientFdOf = s.manager.clientFdOf := by
    funext q
    rw [Manager.clientFdOf,he,Manager.clientFdOf]
  have hdata : s'.manager.dataFdOf = s.manager.dataFdOf := by
    funext q
    rw [Manager.dataFdOf,he,Manager.dataFdOf]
  have hacquired : acquiredData s'.manager s'.main = acquiredData s.manager s.main := by
    rw [← had]
    unfold acquiredData
    rw [hdata]
  have huses : descriptors s' = descriptors s := by
    funext q
    exact descriptors_congr (unclosed_congr (by rw [hw])) (by rw [hclient]) (by rw [hdata])
      (by rw [hdc])
  have hall : inUse s' = inUse s := by rw [inUse,hac,hacquired,ht,huses,inUse]
  refine ⟨?_,?_,fun fd p hp => ?_⟩
  · rw [hall]
    exact h.held.kept (List.Subperm.refl _) fun r hr => by rwa [isOpen,hc,hd]
  · rw [hw,hclient]
    exact h.locals
  · rw [hclient]
    exact h.spawning fd p (hs fd p hp)

end Uses

section WorkerSteps
variable {s s' : Server} {k : ℕ} {w : Worker}

theorem worker_same_fds {m m' : Manager} (hm : WorkerMove m k w m') (hpc : w.pc ≠ .closing) :
    isOpen m' = isOpen m := by
  funext r
  cases hm with
  | closed hc => exact absurd hc hpc
  | marked =>
    rcases Manager.markcomplete_cases m w.threadId with heq | ⟨q,-,heq⟩ <;> rw [heq] <;> rfl
  | started | startedFreed | served | left | leftFreed | markLocked | markUnlocked => rfl

theorem worker_unclosed {m m' : Manager} (hw : m.workers k = some w) (hm : WorkerMove m k w m')
    (hpc : w.pc ≠ .closing) : m'.unclosed k = m.unclosed k := by
  cases hm with
  | closed hc => exact absurd hc hpc
  | started hp | startedFreed hp | served hp | left hp | leftFreed hp | markLocked hp | marked hp
  | markUnlocked hp => simp [Manager.unclosed,Manager.setWorker,hw,hp]

theorem worker_closed {m m' : Manager} (hm : WorkerMove m k w m') (hpc : w.pc = .closing) :
    m' = (m.close w.clientFd).setWorker k { w with pc := .returned } := by
  cases hm with
  | closed => rfl
  | started hp | startedFreed hp | served hp | left hp | leftFreed hp | markLocked hp | marked hp
  | markUnlocked hp => simp [hp] at hpc

theorem worker_exclusive (hi : Inv s) (h : Exclusive s) (hw : s.manager.workers k = some w)
    (hm : WorkerMove s.manager k w s'.manager) (hpc : s'.main = s.main) : Exclusive s' := by
  obtain ⟨w',hk⟩ := worker_kept hi hw hm
  have hclient : s'.manager.clientFdOf = s.manager.clientFdOf :=
    funext (worker_entry_field _ (fun _ => rfl) hm)
  have hdata : s'.manager.dataFdOf = s.manager.dataFdOf :=
    funext (worker_entry_field _ (fun _ => rfl) hm)
  have hother {j : ℕ} (hj : j ≠ k) : s'.manager.workers j = s.manager.workers j := by
    rw [hk.workers,Function.update_of_ne hj]
  have htracked : tracked s' = tracked s := by rw [tracked,tracked,hpc,hk.listed]
  have hacquired : acquiredData s'.manager s'.main = acquiredData s.manager s.main := by
    rw [hpc]
    unfold acquiredData
    rw [hdata]
  have huses {j : ℕ} (hj : s'.manager.unclosed j = s.manager.unclosed j) :
      descriptors s' j = descriptors s j :=
    descriptors_congr hj (by rw [hclient]) (by rw [hdata]) (by rw [hpc])
  have hothers {j : ℕ} (hj : j ≠ k) : descriptors s' j = descriptors s j :=
    huses (unclosed_congr (hother hj))
  refine ⟨?_,fun j v hv hvpc fd hfd => ?_,by rw [hpc,hclient]; exact h.spawning⟩
  · by_cases hclosing : w.pc = .closing
    · obtain ⟨e,he⟩ := Option.isSome_iff_exists.mp (worker_alive hi hw (by simp [hclosing]))
      have hfd : s.manager.clientFdOf k = some w.clientFd := by
        have hsome : s.manager.clientFdOf k = some e.clientFd := by simp [Manager.clientFdOf,he]
        rw [hsome,h.locals k w hw (by simp [hclosing]) _ hsome]
      have hfree := worker_closed hm hclosing
      have hself : (descriptors s k).Perm (w.clientFd :: descriptors s' k) := by
        have hnow : s.manager.clientUse k = [w.clientFd] := by
          simp [Manager.clientUse,Manager.unclosed,hw,hclosing,hfd]
        have hthen : s'.manager.clientUse k = [] := by
          simp [Manager.clientUse,Manager.unclosed,hfree,Manager.setWorker]
        rw [descriptors,descriptors,hnow,hthen,Manager.dataUse,Manager.dataUse,hdata,hpc]
        exact List.Perm.refl _
      have hall := flat_map_released (tracked_nodup hi) (hi.running k w hw (by simp [hclosing]))
        hself fun j hj => (hothers hj).symm
      refine h.held.released (r := w.clientFd) ?_ fun r hr ho => ?_
      · rw [inUse,inUse,hacquired,hpc,htracked]
        exact (hall.append_left _).trans List.perm_middle
      · rw [hfree]
        exact close_open hr ho
    · have hall : inUse s' = inUse s := by
        rw [inUse,inUse,hacquired,hpc,htracked]
        congr 2
        funext j
        by_cases hj : j = k
        · subst hj
          exact huses (worker_unclosed hw hm hclosing)
        · exact hothers hj
      rw [hall,worker_same_fds hm hclosing]
      exact h.held
  · rw [hclient] at hfd
    by_cases hne : j = k
    · subst hne
      rcases worker_local hm hv with ⟨hstart,heq⟩ | hnone | hsome
      · rw [heq]
        exact h.locals j w hw hstart fd hfd
      · rw [hnone] at hfd
        cases hfd
      · exact Option.some.inj (hsome.symm.trans hfd)
    · exact h.locals j v ((hother hne).symm.trans hv) hvpc fd hfd

end WorkerSteps

section MainSteps
variable {m m' : Manager} {s s' : Server} {p q fd : ℕ} {ip : Bytes}

theorem accepted_exclusive (h : Exclusive ⟨.accept,m⟩) (hfd : ¬ isOpen m fd) :
    Exclusive ⟨.openData fd ip,{ m with clientFds := insert fd m.clientFds }⟩ := by
  refine ⟨h.held.acquired hfd (List.Perm.refl _) fun r hr => ?_,h.locals,by simp⟩
  rcases hr with (hr | hr) | rfl
  · exact Or.inl (Finset.mem_insert_of_mem hr)
  · exact Or.inr hr
  · exact Or.inl (Finset.mem_insert_self _ _)

theorem open_failed_exclusive (h : Exclusive ⟨.openData fd ip,m⟩) :
    Exclusive ⟨.accept,m.close fd⟩ :=
  ⟨h.held.released (List.Perm.refl _) fun _ hr ho => close_open hr ho,h.locals,by simp⟩

theorem opened_exclusive {clientFd : ℕ} (h : Exclusive ⟨.openData clientFd ip,m⟩)
    (hfd : ¬ isOpen m fd) :
    Exclusive ⟨.create clientFd ip fd,{ m with dataFds := insert fd m.dataFds }⟩ := by
  refine ⟨h.held.acquired hfd (List.Perm.swap _ _ _) fun r hr => ?_,h.locals,by simp⟩
  rcases hr with (hr | hr) | rfl
  · exact Or.inl hr
  · exact Or.inr (Finset.mem_insert_of_mem hr)
  · exact Or.inr (Finset.mem_insert_self _ _)

theorem dropped_exclusive {clientFd : ℕ} {n : ℕ} (h : Exclusive ⟨.create clientFd ip fd,m⟩) :
    Exclusive ⟨.accept,{ m with next := n }⟩ :=
  ⟨h.held.kept (List.sublist_append_right [clientFd,fd] _).subperm fun _ hr => hr,h.locals,by simp⟩

theorem created_exclusive {clientFd : ℕ} (hi : Inv ⟨.create clientFd ip fd,m⟩)
    (h : Exclusive ⟨.create clientFd ip fd,m⟩) : Exclusive ⟨.spawn clientFd m.next,
      { m.setEntry m.next (some ⟨0,ip,clientFd,false,fd⟩) with next := m.next + 1 }⟩ := by
  set m' : Manager :=
    { m.setEntry m.next (some ⟨0,ip,clientFd,false,fd⟩) with next := m.next + 1 } with hm'
  have hlisted {q : ℕ} (hq : q ∈ tracked ⟨.create clientFd ip fd,m⟩) : q ≠ m.next :=
    tracked_ne hi hq (hi.fresh m.next (Nat.le_refl _)).2
  have hclient {q : ℕ} (hq : q ≠ m.next) : m'.clientFdOf q = m.clientFdOf q := by
    simp [hm',Manager.clientFdOf,Manager.setEntry,hq]
  have hdata {q : ℕ} (hq : q ≠ m.next) : m'.dataFdOf q = m.dataFdOf q := by
    simp [hm',Manager.dataFdOf,Manager.setEntry,hq]
  have hall : inUse ⟨.spawn clientFd m.next,m'⟩ = inUse ⟨.create clientFd ip fd,m⟩ := by
    have hnew : m'.dataFdOf m.next = some fd := by simp [hm',Manager.dataFdOf,Manager.setEntry]
    have huses : (tracked ⟨.spawn clientFd m.next,m'⟩).flatMap (descriptors ⟨.spawn clientFd m.next,m'⟩) =
        (tracked ⟨.create clientFd ip fd,m⟩).flatMap (descriptors ⟨.create clientFd ip fd,m⟩) :=
      List.flatMap_congr fun q hq => descriptors_congr (unclosed_congr rfl) (hclient (hlisted hq))
        (hdata (hlisted hq)) Iff.rfl
    simp only [inUse,acquiredClient,acquiredData,hnew,huses]
  refine ⟨hall ▸ h.held,fun k w hw hpc x hx => ?_,fun x q hq => ?_⟩
  · have hne : k ≠ m.next := by
      rintro rfl
      have hnone := (hi.fresh m.next (Nat.le_refl _)).2
      cases hnone.symm.trans hw
    exact h.locals k w hw hpc x ((hclient hne).symm.trans hx)
  · cases hq
    simp [hm',Manager.clientFdOf,Manager.setEntry]

theorem spawn_failed_exclusive (hi : Inv ⟨.spawn fd p,m⟩) (h : Exclusive ⟨.spawn fd p,m⟩) :
    Exclusive ⟨.accept,(m.close fd).threadEntryFree p⟩ := by
  set m' := (m.close fd).threadEntryFree p with hm'
  have hlisted {q : ℕ} (hq : q ∈ m.threadManager) : q ≠ p :=
    tracked_ne hi hq (hi.spawning p rfl).2.1
  have hentry {q : ℕ} (hq : q ≠ p) : m'.entries q = m.entries q := by
    simp [hm',Manager.threadEntryFree,Manager.setEntry,Manager.close,hq]
  have huses : inUse ⟨.accept,m'⟩ = m.threadManager.flatMap (descriptors ⟨.spawn fd p,m⟩) :=
    List.flatMap_congr fun q hq => descriptors_congr (unclosed_congr rfl)
      (by rw [Manager.clientFdOf,hentry (hlisted hq),Manager.clientFdOf])
      (by rw [Manager.dataFdOf,hentry (hlisted hq),Manager.dataFdOf]) Iff.rfl
  have hclosed : Held (isOpen (m.close fd)) ((m.dataFdOf p).toList ++
      m.threadManager.flatMap (descriptors ⟨.spawn fd p,m⟩)) :=
    h.held.released (List.Perm.refl _) fun _ hr ho => close_open hr ho
  refine ⟨?_,fun k w hw hpc x hx => ?_,by simp⟩
  · rw [huses]
    exact hclosed.kept (List.sublist_append_right _ _).subperm fun _ hr => hr
  · by_cases hne : k = p
    · subst hne
      have hnone := (hi.spawning k rfl).2.1
      cases hnone.symm.trans hw
    · rw [Manager.clientFdOf,hentry hne] at hx
      exact h.locals k w hw hpc x hx

theorem spawned_exclusive {id : ℕ} (hi : Inv ⟨.spawn fd p,m⟩) (h : Exclusive ⟨.spawn fd p,m⟩) :
    Exclusive ⟨.addLock p,
      (m.setEntry p ((m.entries p).map fun e => { e with threadId := id })).setWorker p
        ⟨.start,id,0,0⟩⟩ := by
  set m' := (m.setEntry p ((m.entries p).map fun e => { e with threadId := id })).setWorker p
    ⟨.start,id,0,0⟩ with hm'
  have hclient : m'.clientFdOf = m.clientFdOf :=
    funext fun _ => Manager.entry_field_same (·.clientFd) fun _ => rfl
  have hdata : m'.dataFdOf = m.dataFdOf :=
    funext fun _ => Manager.entry_field_same (·.tmpdataFd) fun _ => rfl
  have hother {q : ℕ} (hq : q ≠ p) : m'.workers q = m.workers q := Function.update_of_ne hq ..
  have hself : m'.workers p = some ⟨.start,id,0,0⟩ := Function.update_self ..
  have hlisted {q : ℕ} (hq : q ∈ m.threadManager) : q ≠ p :=
    tracked_ne hi hq (hi.spawning p rfl).2.1
  have hall : inUse ⟨.addLock p,m'⟩ = inUse ⟨.spawn fd p,m⟩ := by
    have hstarted : m'.clientUse p = [fd] := by
      simp [Manager.clientUse,Manager.unclosed,hself,hclient,h.spawning fd p rfl]
    have hdatas : m'.dataUse [] p = (m.dataFdOf p).toList := by rw [Manager.dataUse,hdata]; rfl
    have huses : m.threadManager.flatMap (descriptors ⟨.addLock p,m'⟩) =
        m.threadManager.flatMap (descriptors ⟨.spawn fd p,m⟩) :=
      List.flatMap_congr fun q hq => descriptors_congr (unclosed_congr (hother (hlisted hq)))
        (by rw [hclient]) (by rw [hdata]) Iff.rfl
    change (m'.clientUse p ++ m'.dataUse [] p) ++ m.threadManager.flatMap (descriptors ⟨.addLock p,m'⟩) =
      [fd] ++ (m.dataFdOf p).toList ++ m.threadManager.flatMap (descriptors ⟨.spawn fd p,m⟩)
    rw [huses,hstarted,hdatas]
  refine ⟨hall ▸ h.held,fun k w hw hpc x hx => ?_,by simp⟩
  rw [hclient] at hx
  by_cases hne : k = p
  · subst hne
    rw [hself] at hw
    cases hw
    exact absurd rfl hpc
  · exact h.locals k w ((hother hne).symm.trans hw) hpc x hx

theorem joined_exclusive {pc pc' : MainPc} {id : ℕ} (h : Exclusive ⟨pc,m⟩)
    (hj : m.pthreadJoin id = some m') (ht : pc'.adding = pc.adding)
    (hc : acquiredClient pc' = acquiredClient pc) (hd : acquiredData m pc' = acquiredData m pc)
    (hdc : dataClosed pc' = dataClosed pc) (hs : ∀ fd p, pc' ≠ .spawn fd p) :
    Exclusive ⟨pc',m'⟩ := by
  obtain ⟨j,v,hv,-,hret,rfl⟩ := Manager.pthread_join_some hj
  have hother {q : ℕ} (hq : q ≠ j) :
      (m.setWorker j { v with pc := .joined }).workers q = m.workers q := Function.update_of_ne hq ..
  have hself : (m.setWorker j { v with pc := .joined }).workers j = some { v with pc := .joined } :=
    Function.update_self ..
  have hunclosed (q : ℕ) : (m.setWorker j { v with pc := .joined }).unclosed q = m.unclosed q := by
    by_cases hne : q = j
    · subst hne
      simp [Manager.unclosed,hself,hv,hret]
    · exact unclosed_congr (hother hne)
  have huses : descriptors ⟨pc',m.setWorker j { v with pc := .joined }⟩ = descriptors ⟨pc,m⟩ :=
    funext fun q => descriptors_congr (hunclosed q) rfl rfl (by simp only [hdc])
  have hall : inUse ⟨pc',m.setWorker j { v with pc := .joined }⟩ = inUse ⟨pc,m⟩ := by
    have hacquired : acquiredData (m.setWorker j { v with pc := .joined }) pc' = acquiredData m pc :=
      hd
    have htracked : tracked ⟨pc',m.setWorker j { v with pc := .joined }⟩ = tracked ⟨pc,m⟩ := by
      rw [tracked,tracked,ht]
      rfl
    simp only [inUse,hc,hacquired,huses,htracked]
  refine ⟨hall ▸ h.held,fun k w hw hpc x hx => ?_,fun fd p hp => absurd hp (hs fd p)⟩
  by_cases hne : k = j
  · subst hne
    cases hself.symm.trans hw
    exact h.locals k v hv (by simp [hret]) x hx
  · exact h.locals k w ((hother hne).symm.trans hw) hpc x hx

theorem data_closed_exclusive {e : ThreadEntry} (hi : Inv ⟨.closeData p,m⟩)
    (h : Exclusive ⟨.closeData p,m⟩) (he : m.entries p = some e) :
    Exclusive ⟨.removeLock p,m.close e.tmpdataFd⟩ := by
  have hp : p ∈ tracked ⟨.closeData p,m⟩ := hi.current p (by simp [MainPc.current])
  have hself : (descriptors ⟨.closeData p,m⟩ p).Perm
      (e.tmpdataFd :: descriptors ⟨.removeLock p,m.close e.tmpdataFd⟩ p) := by
    have hfd : m.dataFdOf p = some e.tmpdataFd := by simp [Manager.dataFdOf,he]
    have hbefore : descriptors ⟨.closeData p,m⟩ p = m.clientUse p ++ [e.tmpdataFd] := by
      simp [descriptors,Manager.dataUse,dataClosed,hfd]
    have hafter : descriptors ⟨.removeLock p,m.close e.tmpdataFd⟩ p = m.clientUse p := by
      simp only [descriptors,Manager.dataUse,dataClosed,List.mem_singleton,if_true,List.append_nil]
      rfl
    rw [hbefore,hafter]
    exact List.perm_append_singleton ..
  have hothers (q : ℕ) (hq : q ≠ p) : descriptors ⟨.closeData p,m⟩ q =
      descriptors ⟨.removeLock p,m.close e.tmpdataFd⟩ q :=
    descriptors_congr rfl rfl rfl (by simp [dataClosed,hq])
  refine ⟨h.held.released ?_ fun _ hr ho => close_open hr ho,h.locals,by simp⟩
  exact flat_map_released (tracked_nodup hi) hp hself hothers

theorem removed_exclusive {pc pc' : MainPc} {id : ℕ} (hi : Inv ⟨pc,m⟩) (h : Exclusive ⟨pc,m⟩)
    (hr : pc.removal = some (p,id)) (ha : pc.adding = []) (ha' : pc'.adding = [])
    (hc' : acquiredClient pc' = none) (hd' : acquiredData (m.threadEntryRemove id).2 pc' = none)
    (hdc : dataClosed pc ⊆ [p]) (hdc' : dataClosed pc' = []) (hs : ∀ fd p, pc' ≠ .spawn fd p) :
    Exclusive ⟨pc',(m.threadEntryRemove id).2⟩ := by
  obtain ⟨hcurrent,-⟩ := removal_current hr
  have hp : p ∈ m.threadManager := hi.current p (by simp [hcurrent])
  have hn : m.threadManager.Nodup := listed_nodup hi
  rw [remove_found hi hp (hi.removal p id hr)] at hd' ⊢
  set m' := (m.unlink p).threadEntryFree p with hm'
  have hentry {q : ℕ} (hne : q ≠ p) : m'.entries q = m.entries q := by
    simp [hm',Manager.threadEntryFree,Manager.setEntry,Manager.unlink,hne]
  have hlisted : tracked ⟨pc',m'⟩ = m.threadManager.erase p := by
    rw [tracked,ha']
    rfl
  have huses : (m.threadManager.erase p).flatMap (descriptors ⟨pc',m'⟩) =
      (m.threadManager.erase p).flatMap (descriptors ⟨pc,m⟩) := by
    refine List.flatMap_congr fun q hq => ?_
    have hne : q ≠ p := (hn.mem_erase_iff.mp hq).1
    refine descriptors_congr (unclosed_congr rfl) ?_ ?_ ?_
    · rw [Manager.clientFdOf,hentry hne,Manager.clientFdOf]
    · rw [Manager.dataFdOf,hentry hne,Manager.dataFdOf]
    · simp only [hdc',List.not_mem_nil,false_iff]
      exact fun hq => hne (List.mem_singleton.mp (hdc hq))
  have hall : (inUse ⟨pc',m'⟩).Subperm (inUse ⟨pc,m⟩) := by
    rw [inUse,hc',hd',hlisted,huses,inUse,tracked,ha]
    exact ((List.erase_sublist.flatMap _).trans (List.sublist_append_right _ _)).subperm
  refine ⟨h.held.kept hall fun _ ho => ho,fun k w hw hpc x hx => ?_,
    fun fd p hp => absurd hp (hs fd p)⟩
  by_cases hne : k = p
  · subst hne
    simp [hm',Manager.clientFdOf,Manager.threadEntryFree,Manager.setEntry] at hx
  · rw [Manager.clientFdOf,hentry hne] at hx
    exact h.locals k w hw hpc x hx

theorem main_exclusive {l : Label} (hi : Inv s) (h : Exclusive s)
    (hm : MainMove s.manager s.main l s'.main s'.manager) : Exclusive s' := by
  obtain ⟨pc,m⟩ := s
  obtain ⟨pc',m'⟩ := s'
  simp only at hm
  cases hm with
  | refused | addLocked | inserted | addUnlocked | printLocked | printed | printUnlocked | scanned
  | found | passed | removeLocked | removeUnlocked | freeallCalled =>
    exact h.quiet rfl rfl rfl rfl rfl rfl rfl rfl (by simp)
  | accepted hfd => exact accepted_exclusive h hfd
  | openFailed => exact open_failed_exclusive h
  | opened hfd => exact opened_exclusive h hfd
  | mallocFailed => exact dropped_exclusive h
  | strdupFailed => exact dropped_exclusive h
  | created => exact created_exclusive hi h
  | spawnFailed => exact spawn_failed_exclusive hi h
  | spawned => exact spawned_exclusive hi h
  | joined he hj => exact joined_exclusive h hj rfl rfl rfl rfl (by simp)
  | dataClosed he => exact data_closed_exclusive hi h he
  | removed => exact removed_exclusive hi h rfl rfl rfl rfl rfl (List.Subset.refl _) rfl (by simp)
  | freeing hm =>
    cases hm with
    | finished | first | locked | unlocked =>
      exact h.quiet rfl rfl rfl rfl rfl rfl rfl rfl (by simp)
    | joined he hj => exact joined_exclusive h hj rfl rfl rfl rfl (by simp)
    | removed => exact removed_exclusive hi h rfl rfl rfl rfl rfl (List.nil_subset _) rfl (by simp)

theorem server_start_exclusive : Exclusive serverStart where
  held := Held.nil
  locals := by simp [serverStart,initializeServer]
  spawning := by simp [serverStart]

theorem server_step_exclusive {l : Label} (hi : Inv s) (h : Exclusive s)
    (hs : serverStep s l = some s') : Exclusive s' := by
  cases server_step_move hs with
  | worker _ hw hm hpc => exact worker_exclusive hi h hw hm hpc
  | main hm => exact main_exclusive hi h hm

theorem server_run_exclusive {ls : List Label} (hr : Runs.run serverStep serverStart ls = some s) :
    Exclusive s :=
  (Runs.run_invariant (I := fun s => Inv s ∧ Exclusive s)
    (fun _ _ _ h hs => ⟨server_step_inv h.1 hs,server_step_exclusive h.1 h.2 hs⟩)
    ⟨server_start_inv,server_start_exclusive⟩ hr).2

end MainSteps

-- the argument of the close that a step makes
def closes (s : Server) : Label → Option ℕ
  | .openData none => match s.main with
      | .openData clientFd _ => some clientFd
      | _ => none
  | .spawn none => match s.main with
      | .spawn clientFd _ => some clientFd
      | _ => none
  | .main => match s.main with
      | .closeData entry => s.manager.dataFdOf entry
      | _ => none
  | .worker k => match s.manager.workers k with
      | some w => if w.pc = .closing then some w.clientFd else none
      | none => none
  | _ => none

structure Apart (s : Server) : Prop where
  distinct : (inUse s).Nodup
  live : ∀ fd ∈ inUse s, isOpen s.manager fd
  handlers : ∀ k w, s.manager.workers k = some w → w.pc ≠ .returned → w.pc ≠ .joined →
    k ∈ tracked s ∧ ∃ e, s.manager.entries k = some e ∧ (w.pc ≠ .start → w.clientFd = e.clientFd) ∧
      descriptors s k = [e.clientFd,e.tmpdataFd]
  closed : ∀ l s' fd, closes s l = some fd → serverStep s l = some s' →
    fd ∈ inUse s ∧ fd ∉ inUse s' ∧ ¬ isOpen s'.manager fd

section Closing
variable {s s' : Server} {l : Label} {k p fd : ℕ} {w : Worker} {e : ThreadEntry}

theorem descriptors_used (hp : p ∈ tracked s) (hfd : fd ∈ descriptors s p) : fd ∈ inUse s :=
  List.mem_append_right _ (List.mem_flatMap.mpr ⟨p,hp,hfd⟩)

theorem close_closed (m : Manager) (fd : ℕ) : ¬ isOpen (m.close fd) fd := by
  simp [isOpen,Manager.close]

theorem undying (hi : Inv s) (hw : s.manager.workers k = some w) (hpc : w.pc ≠ .joined) :
    k ∉ dataClosed s.main := by
  intro hk
  have hdying : k ∈ s.main.dying := by
    unfold dataClosed at hk
    split at hk
    · simpa [MainPc.dying,‹s.main = _›] using hk
    · simpa [MainPc.dying,‹s.main = _›] using hk
    · cases hk
  obtain ⟨v,hv,hj⟩ := hi.dying k hdying
  cases hv.symm.trans hw
  exact hpc hj

theorem handler_descriptors (hi : Inv s) (hw : s.manager.workers k = some w)
    (hret : w.pc ≠ .returned) (hj : w.pc ≠ .joined) (he : s.manager.entries k = some e) :
    descriptors s k = [e.clientFd,e.tmpdataFd] := by
  have hunclosed : s.manager.unclosed k = true := by simp [Manager.unclosed,hw,hret,hj]
  simp [descriptors,Manager.clientUse,hunclosed,Manager.dataUse,undying hi hw hj,
    Manager.clientFdOf,Manager.dataFdOf,he]

theorem closes_used (hi : Inv s) (h : Exclusive s) (hc : closes s l = some fd)
    (hs : serverStep s l = some s') : fd ∈ inUse s ∧ ¬ isOpen s'.manager fd := by
  cases server_step_move hs with
  | @worker k w hl hw hm hpc =>
    subst hl
    simp only [closes,hw] at hc
    split_ifs at hc with hclosing
    cases hc
    obtain ⟨e,he⟩ := Option.isSome_iff_exists.mp (worker_alive hi hw (by simp [hclosing]))
    have hlocal := h.locals k w hw (by simp [hclosing]) e.clientFd (by simp [Manager.clientFdOf,he])
    refine ⟨descriptors_used (hi.running k w hw (by simp [hclosing])) ?_,?_⟩
    · rw [handler_descriptors hi hw (by simp [hclosing]) (by simp [hclosing]) he,hlocal]
      exact List.mem_cons_self ..
    · rw [worker_closed hm hclosing]
      exact close_closed _ _
  | main hm =>
    obtain ⟨pc,m⟩ := s
    obtain ⟨pc',m'⟩ := s'
    simp only at hm
    cases hm with
    | openFailed =>
      cases hc
      exact ⟨List.mem_cons_self ..,close_closed _ _⟩
    | spawnFailed =>
      cases hc
      exact ⟨List.mem_cons_self ..,close_closed _ _⟩
    | @dataClosed entry e he =>
      have hfd : m.dataFdOf entry = some e.tmpdataFd := by simp [Manager.dataFdOf,he]
      cases hfd.symm.trans hc
      refine ⟨descriptors_used (hi.current entry (by simp [MainPc.current])) ?_,close_closed _ _⟩
      simp [descriptors,Manager.dataUse,ThreadManager.dataClosed,hfd]
    | _ => cases hc

theorem descriptors_apart {ls : List Label} (hr : Runs.run serverStep serverStart ls = some s) :
    Apart s := by
  have hi := server_run_inv hr
  have h := server_run_exclusive hr
  refine ⟨h.held.distinct,h.held.live,fun k w hw hret hj => ?_,fun l s' fd hc hs => ?_⟩
  · obtain ⟨e,he⟩ := Option.isSome_iff_exists.mp (worker_alive hi hw hj)
    refine ⟨hi.running k w hw hj,e,he,fun hstart => ?_,handler_descriptors hi hw hret hj he⟩
    exact h.locals k w hw hstart e.clientFd (by simp [Manager.clientFdOf,he])
  · obtain ⟨hused,hclosed⟩ := closes_used hi h hc hs
    exact ⟨hused,fun hin => hclosed ((server_step_exclusive hi h hs).held.live fd hin),hclosed⟩

end Closing

-- the third client gets the descriptors that the first one had
def reusedDescriptors : List Label :=
  connection 4 5 70 ++ [.main,.main] ++ List.replicate 7 (.worker 0) ++ connection 6 7 71 ++
    List.replicate 8 .main ++ connection 4 5 72

theorem descriptors_apart_of_reuse :
    ∃ s, Runs.run serverStep serverStart reusedDescriptors = some s ∧ inUse s = [4,5,6,7] ∧
      Apart s := by
  obtain ⟨s,hs,hu⟩ := Option.map_eq_some_iff.mp (show (Runs.run serverStep serverStart
    reusedDescriptors).map inUse = some [4,5,6,7] by decide)
  exact ⟨s,hs,hu,descriptors_apart hs⟩

end ThreadManager
