import Aesd.Server.LockDiscipline
import Aesd.Server.ManagerSections
import Aesd.Server.Signals

namespace AesdSocket
open Kernel ThreadManager ClientHandler

namespace FramePc

def inManager : FramePc → Bool
  | .freeall pc => freeallInManager pc
  | _ => false

def current : FramePc → List ℕ
  | .freeall (.join entry) | .freeall (.removeLock entry) | .freeall (.removing entry _) => [entry]
  | _ => []

end FramePc

structure SignalSafe (s : Process) : Prop where
  file : ∀ t f below, s.frames t = f :: below → f.pc = .lockFile → s.fileMutex ≠ some t
  manager : ∀ t f below p, s.frames t = f :: below → f.pc = .freeall (.removeLock p) →
    s.server.manager.managerMutex ≠ some t
  join : ∀ k f below p w e, s.frames (.worker k) = f :: below → f.pc = .freeall (.join p) →
    s.server.manager.workers k = some w → s.server.manager.entries p = some e → w.id ≠ e.threadId

-- a write that failed has left the section by continue, without pthread_mutex_unlock
def jammed (h : Handler) : Bool := h.holding && !h.pc.inSection

def interruptible (h : Handler) : Bool := !h.pc.inSection && !jammed h

def outsideManager (s : Process) : Bool :=
  !mainInManager s.server.main && (s.frames .main).all fun f => !f.pc.inManager

-- the test of SLIST_EMPTY in thread_entry_freeall is still to come
def checking (fs : List Frame) : Bool := fs.any fun f => f.pc = .freeall .check

-- SIGALRM misses the file section of the thread it interrupts; SIGINT and SIGTERM reach main outside
-- its list sections, or any thread while the list is empty and stays so until the handler has seen it
def deliversSafely (s : Process) : Label → Bool
  | .deliver .main .sigalrm => true
  | .deliver (.worker k) .sigalrm => interruptible (s.handlers k)
  | .deliver .main _ => s.server.manager.threadManager.isEmpty || outsideManager s
  | .deliver (.worker _) _ => s.server.manager.threadManager.isEmpty
  | .thread .main => match s.server.main with
      | .addInsert _ =>
          (List.range s.server.manager.next).all fun k => !checking (s.frames (.worker k))
      | _ => true
  | _ => true

-- no lower frame and no interrupted code holds manager_mutex when a freeall has work left
def Stacked (listed : List ℕ) (held : Bool) : List Frame → Prop
  | [] => True
  | f :: below => (f.sig ≠ .sigalrm → listed = [] ∨
      held = false ∧ ∀ g ∈ below, g.pc.inManager = false) ∧ Stacked listed held below

def topCurrent : List Frame → List ℕ
  | [] => []
  | f :: below => if f.sig = .sigalrm then topCurrent below else f.pc.current

def holdsManager (s : Process) : Thread → Prop
  | .main => mainInManager s.server.main = true ∨ ∃ f ∈ s.frames .main, f.pc.inManager = true
  | .worker k => ∃ w, s.server.manager.workers k = some w ∧ workerInManager w.pc = true

def holdsFile (s : Process) (t : Thread) : Prop :=
  (∃ k, t = .worker k ∧ (s.handlers k).holding = true) ∨ ∃ f ∈ s.frames t, f.pc.inFile = true

structure Guarded (s : Process) : Prop where
  manager : ∀ t, s.server.manager.managerMutex = some t → holdsManager s t
  file : ∀ t, s.fileMutex = some t → holdsFile s t
  signals : ∀ t, ((s.frames t).map (·.sig)).Nodup
  kinds : ∀ t, ∀ f ∈ s.frames t, f.sig = .sigalrm ↔ f.pc.timestamp = true
  frozen : ∀ k, ∀ f ∈ s.frames (.worker k), f.sig = .sigalrm → (s.handlers k).holding = false
  stacked : Stacked s.server.manager.threadManager (mainInManager s.server.main) (s.frames .main)
  current : ∀ p ∈ topCurrent (s.frames .main), p ∈ s.server.manager.threadManager
  workers : ∀ k, ∀ f ∈ s.frames (.worker k), f.sig ≠ .sigalrm →
    (f.pc = .freeall .check → s.server.manager.threadManager = []) ∧ f.pc.current = [] ∧
      f.pc.inManager = false ∧ k < s.server.manager.next
  fresh : ∀ p, s.server.manager.next ≤ p → s.server.manager.workers p = none
  spawning : ∀ fd p, s.server.main = .spawn fd p →
    p < s.server.manager.next ∧ s.server.manager.workers p = none
  accepting : ∀ pc, s.server.main ≠ .freeall pc

section Safe
variable {s : Process} {t : Thread} {f : Frame} {below : List Frame}

theorem Guarded.file_free (h : Guarded s) (hf : s.frames t = f :: below) (hpc : f.pc = .lockFile) :
    s.fileMutex ≠ some t := by
  intro hm
  have hmem : f ∈ s.frames t := hf ▸ List.mem_cons_self ..
  have hsig : f.sig = .sigalrm := (h.kinds t f hmem).mpr (by rw [hpc]; rfl)
  rcases h.file t hm with ⟨k,rfl,hk⟩ | ⟨g,hg,hin⟩
  · rw [h.frozen k f hmem hsig] at hk
    cases hk
  · have htime : g.pc.timestamp = true := by
      revert hin
      cases g.pc <;> simp [FramePc.inFile,FramePc.timestamp]
    have hgsig : g.sig = .sigalrm := (h.kinds t g hg).mpr htime
    have heq : g = f := List.inj_on_of_nodup_map (h.signals t) hg hmem (hgsig.trans hsig.symm)
    rw [heq,hpc] at hin
    cases hin

theorem Guarded.manager_free (h : Guarded s) {p : ℕ} (hf : s.frames t = f :: below)
    (hpc : f.pc = .freeall (.removeLock p)) : s.server.manager.managerMutex ≠ some t := by
  intro hm
  have hmem : f ∈ s.frames t := hf ▸ List.mem_cons_self ..
  have hsig : f.sig ≠ .sigalrm := by
    rw [Ne,h.kinds t f hmem,hpc]
    simp [FramePc.timestamp]
  cases t with
  | worker k =>
    obtain ⟨-,hcurrent,-⟩ := h.workers k f hmem hsig
    rw [hpc] at hcurrent
    cases hcurrent
  | main =>
    have hp : p ∈ s.server.manager.threadManager := by
      refine h.current p ?_
      rw [hf,topCurrent,if_neg hsig,hpc]
      exact List.mem_singleton_self _
    have hstacked := h.stacked
    rw [hf] at hstacked
    rcases hstacked.1 hsig with hempty | ⟨hmain,hbelow⟩
    · simp [hempty] at hp
    · rcases h.manager .main hm with hin | ⟨g,hg,hin⟩
      · rw [hmain] at hin
        cases hin
      · rw [hf] at hg
        rcases List.mem_cons.mp hg with rfl | hg
        · rw [hpc] at hin
          cases hin
        · rw [hbelow g hg] at hin
          cases hin

theorem Guarded.safe (h : Guarded s) : SignalSafe s where
  file _ _ _ hf hpc := h.file_free hf hpc
  manager _ _ _ _ hf hpc := h.manager_free hf hpc
  join k f below p w e hf hpc := by
    have hmem : f ∈ s.frames (.worker k) := hf ▸ List.mem_cons_self ..
    have hsig : f.sig ≠ .sigalrm := by
      rw [Ne,h.kinds _ f hmem,hpc]
      simp [FramePc.timestamp]
    obtain ⟨-,hcurrent,-⟩ := h.workers k f hmem hsig
    rw [hpc] at hcurrent
    cases hcurrent

end Safe

section Frames
variable {s s' : Process} {t : Thread} {f : Frame} {below : List Frame} {pc' : FramePc}

theorem Stacked.mono {l l' : List ℕ} {held : Bool} {fs : List Frame} (hl : l = [] → l' = [])
    (h : Stacked l held fs) : Stacked l' held fs := by
  induction fs with
  | nil => trivial
  | cons f fs ih => exact ⟨fun hs => (h.1 hs).imp_left hl,ih h.2⟩

theorem pushed_mem {fs : List Frame} : f ∈ (s.setFrames t (f :: fs)).frames t := by
  rw [frames_self (s := s) (t := t) rfl]
  exact List.mem_cons_self ..

theorem holds_manager_kept {u : Thread} (h : holdsManager s u)
    (hmain : s'.server.main = s.server.main)
    (hworkers : ∀ k w, s.server.manager.workers k = some w → workerInManager w.pc = true →
      s'.server.manager.workers k = some w)
    (hframes : ∀ f ∈ s.frames .main, f.pc.inManager = true →
      ∃ g ∈ s'.frames .main, g.pc.inManager = true) : holdsManager s' u := by
  cases u with
  | main =>
    rcases h with hm | ⟨g,hg,hin⟩
    · exact Or.inl (hmain ▸ hm)
    · exact Or.inr (hframes g hg hin)
  | worker k =>
    obtain ⟨w,hw,hin⟩ := h
    exact ⟨w,hworkers k w hw hin,hin⟩

theorem holds_file_kept {u : Thread} (h : holdsFile s u) (hhandlers : s'.handlers = s.handlers)
    (hframes : ∀ f ∈ s.frames u, f.pc.inFile = true → ∃ g ∈ s'.frames u, g.pc.inFile = true) :
    holdsFile s' u := by
  rcases h with ⟨k,rfl,hk⟩ | ⟨g,hg,hin⟩
  · exact Or.inl ⟨k,rfl,hhandlers ▸ hk⟩
  · exact Or.inr (hframes g hg hin)

theorem Guarded.advance (h : Guarded s) (hf : s.frames t = f :: below)
    (hframes : s'.frames = Function.update s.frames t (⟨f.sig,pc'⟩ :: below))
    (hhandlers : s'.handlers = s.handlers) (hmain : s'.server.main = s.server.main)
    (hnext : s'.server.manager.next = s.server.manager.next)
    (hworkers : ∀ p, s.server.manager.workers p = none → s'.server.manager.workers p = none)
    (hsub : s'.server.manager.threadManager ⊆ s.server.manager.threadManager)
    (hsame : f.sig = .sigalrm ∨ t ≠ .main →
      s'.server.manager.threadManager = s.server.manager.threadManager)
    (htime : pc'.timestamp = f.pc.timestamp)
    (hcurrent : ∀ p ∈ pc'.current, p ∈ s'.server.manager.threadManager)
    (hworker : ∀ k, t = .worker k → f.sig ≠ .sigalrm →
      pc' ≠ .freeall .check ∧ pc'.current = [] ∧ pc'.inManager = false)
    (hmanager : ∀ u, s'.server.manager.managerMutex = some u → holdsManager s' u)
    (hfile : ∀ u, s'.fileMutex = some u → holdsFile s' u) : Guarded s' := by
  have hempty : s.server.manager.threadManager = [] → s'.server.manager.threadManager = [] :=
    fun he => List.subset_nil.mp (he ▸ hsub)
  have hself := frames_self hframes
  have hmem : f ∈ s.frames t := hf ▸ List.mem_cons_self ..
  have hafter {u : Thread} {g : Frame} (hg : g ∈ s'.frames u) :
      u = t ∧ g = ⟨f.sig,pc'⟩ ∨ g ∈ s.frames u := frame_after (frame_below hf) hframes hg
  constructor
  · exact hmanager
  · exact hfile
  · intro u
    by_cases hu : u = t
    · subst hu
      have hn := h.signals u
      rw [hf] at hn
      rw [hself]
      exact hn
    · rw [frames_other hframes hu]
      exact h.signals u
  · intro u g hg
    rcases hafter hg with ⟨rfl,rfl⟩ | hg
    · rw [htime]
      exact h.kinds u f hmem
    · exact h.kinds u g hg
  · intro k g hg hsig
    rw [hhandlers]
    rcases hafter hg with ⟨rfl,rfl⟩ | hg
    · exact h.frozen k f hmem hsig
    · exact h.frozen k g hg hsig
  · rw [hmain]
    by_cases hu : Thread.main = t
    · subst hu
      have hstacked := h.stacked.mono hempty
      rw [hf] at hstacked
      rw [hself]
      exact hstacked
    · rw [frames_other hframes hu]
      exact h.stacked.mono hempty
  · by_cases hu : Thread.main = t
    · subst hu
      rw [hself]
      intro p hp
      by_cases hsig : f.sig = .sigalrm
      · rw [topCurrent,if_pos hsig] at hp
        rw [hsame (Or.inl hsig)]
        refine h.current p ?_
        rw [hf,topCurrent,if_pos hsig]
        exact hp
      · rw [topCurrent,if_neg hsig] at hp
        exact hcurrent p hp
    · rw [frames_other hframes hu,hsame (Or.inr (Ne.symm hu))]
      exact h.current
  · intro k g hg hsig
    rw [hnext]
    rcases hafter hg with ⟨rfl,rfl⟩ | hg
    · obtain ⟨hnot,hlast,hout⟩ := hworker k rfl hsig
      exact ⟨fun hpc => absurd hpc hnot,hlast,hout,(h.workers k f hmem hsig).2.2.2⟩
    · exact (h.workers k g hg hsig).imp_left fun hl hpc => hempty (hl hpc)
  · intro p hp
    exact hworkers p (h.fresh p (hnext ▸ hp))
  · intro fd p hp
    rw [hmain] at hp
    obtain ⟨hlt,hnone⟩ := h.spawning fd p hp
    exact ⟨hnext ▸ hlt,hworkers p hnone⟩
  · rw [hmain]
    exact h.accepting

theorem holds_manager_moved {u : Thread} (h : Guarded s) (hf : s.frames t = f :: below)
    (hframes : s'.frames = Function.update s.frames t (⟨f.sig,pc'⟩ :: below))
    (hmain : s'.server.main = s.server.main)
    (hworkers : ∀ k w, s.server.manager.workers k = some w → workerInManager w.pc = true →
      s'.server.manager.workers k = some w)
    (hin : f.pc.inManager = true → pc'.inManager = true)
    (hu : s.server.manager.managerMutex = some u) : holdsManager s' u := by
  refine holds_manager_kept (h.manager u hu) hmain hworkers fun g hg hgin => ?_
  rcases frame_before hf (List.subset_cons_self ..) hframes hg with ⟨rfl,rfl⟩ | hg
  · exact ⟨_,by rw [frames_self hframes]; exact List.mem_cons_self ..,hin hgin⟩
  · exact ⟨g,hg,hgin⟩

-- a step of a handler that leaves manager_mutex and the list alone
theorem Guarded.quiet (h : Guarded s) (hf : s.frames t = f :: below)
    (hframes : s'.frames = Function.update s.frames t (⟨f.sig,pc'⟩ :: below))
    (hhandlers : s'.handlers = s.handlers) (hserver : s'.server = s.server)
    (htime : pc'.timestamp = f.pc.timestamp) (hpc : pc' ≠ .freeall .check)
    (hcurrent : pc'.current = []) (hout : f.pc.inManager = false) (hout' : pc'.inManager = false)
    (hfile : ∀ u, s'.fileMutex = some u → holdsFile s' u) : Guarded s' := by
  refine h.advance hf hframes hhandlers (by rw [hserver]) (by rw [hserver]) (by simp [hserver])
    (by rw [hserver]; exact List.Subset.refl _) (fun _ => by rw [hserver]) htime
    (by simp [hcurrent]) (fun _ _ _ => ⟨hpc,hcurrent,hout'⟩) (fun u hu => ?_) hfile
  rw [hserver] at hu
  exact holds_manager_moved h hf hframes (by rw [hserver])
    (fun _ _ hw _ => by rw [hserver]; exact hw) (by simp [hout]) hu

theorem holds_file_moved {u : Thread} (h : Guarded s) (hf : s.frames t = f :: below)
    (hframes : s'.frames = Function.update s.frames t (⟨f.sig,pc'⟩ :: below))
    (hhandlers : s'.handlers = s.handlers) (hin : f.pc.inFile = true → pc'.inFile = true)
    (hu : s.fileMutex = some u) : holdsFile s' u := by
  refine holds_file_kept (h.file u hu) hhandlers fun g hg hgin => ?_
  rcases frame_before hf (List.subset_cons_self ..) hframes hg with ⟨rfl,rfl⟩ | hg
  · exact ⟨_,by rw [frames_self hframes]; exact List.mem_cons_self ..,hin hgin⟩
  · exact ⟨g,hg,hgin⟩

theorem Guarded.popped (h : Guarded s) (hf : s.frames t = f :: below) (hsig : f.sig = .sigalrm)
    (hpc : f.pc.inFile = false) : Guarded (s.setFrames t below) := by
  have hframes : (s.setFrames t below).frames = Function.update s.frames t below := rfl
  have hself := frames_self hframes
  have hmem : f ∈ s.frames t := hf ▸ List.mem_cons_self ..
  have hsub {u : Thread} {g : Frame} (hg : g ∈ (s.setFrames t below).frames u) : g ∈ s.frames u := by
    by_cases hu : u = t
    · subst hu
      rw [hself] at hg
      exact frame_below hf hg
    · rwa [frames_other hframes hu] at hg
  have hrest {u : Thread} {g : Frame} (hg : g ∈ s.frames u) (hne : g ≠ f) :
      g ∈ (s.setFrames t below).frames u :=
    (frame_before hf (List.Subset.refl _) hframes hg).resolve_left fun he => hne he.2
  constructor
  · intro u hu
    refine holds_manager_kept (h.manager u hu) rfl (fun _ _ hw _ => hw) fun g hg hin => ?_
    refine ⟨g,hrest hg fun he => ?_,hin⟩
    have htime := (h.kinds t f hmem).mp hsig
    rw [he] at hin
    revert hin htime
    cases f.pc <;> simp [FramePc.inManager,FramePc.timestamp]
  · intro u hu
    refine holds_file_kept (h.file u hu) rfl fun g hg hin => ⟨g,hrest hg fun he => ?_,hin⟩
    rw [he,hpc] at hin
    cases hin
  · intro u
    by_cases hu : u = t
    · subst hu
      have hn := h.signals u
      rw [hf,List.map_cons] at hn
      rw [hself]
      exact (List.nodup_cons.mp hn).2
    · rw [frames_other hframes hu]
      exact h.signals u
  · exact fun u g hg => h.kinds u g (hsub hg)
  · exact fun k g hg => h.frozen k g (hsub hg)
  · by_cases hu : Thread.main = t
    · subst hu
      have hstacked := h.stacked
      rw [hf] at hstacked
      rw [hself]
      exact hstacked.2
    · rw [frames_other hframes hu]
      exact h.stacked
  · by_cases hu : Thread.main = t
    · subst hu
      intro p hp
      rw [hself] at hp
      refine h.current p ?_
      rw [hf,topCurrent,if_pos hsig]
      exact hp
    · rw [frames_other hframes hu]
      exact h.current
  · exact fun k g hg => h.workers k g (hsub hg)
  · exact h.fresh
  · exact h.spawning
  · exact h.accepting

theorem worker_freeall {k : ℕ} {pc pc' : FreeallPc} {m : Manager} (h : Guarded s)
    (hf : s.frames (.worker k) = f :: below) (hpc : f.pc = .freeall pc) (hsig : f.sig ≠ .sigalrm)
    (hm : FreeallMove (.worker k) s.server.manager pc pc' m) :
    pc = .check ∧ pc' = .done ∧ m = s.server.manager := by
  obtain ⟨hl,hcurrent,hin,-⟩ := h.workers k f (hf ▸ List.mem_cons_self ..) hsig
  rw [hpc] at hcurrent hin
  cases hm with
  | finished => exact ⟨rfl,rfl,rfl⟩
  | first hhead => simp [hl hpc] at hhead
  | joined | locked | removed => cases hcurrent
  | unlocked => cases hin

theorem main_freeall {pc pc₁ : FreeallPc} {m : Manager} (h : Guarded s)
    (hf : s.frames .main = f :: below) (hpc : f.pc = .freeall pc) (hsig : f.sig ≠ .sigalrm)
    (hm : FreeallMove .main s.server.manager pc pc₁ m) :
    Guarded ((s.setManager m).setFrames .main (⟨f.sig,.freeall pc₁⟩ :: below)) := by
  have hfile {m : Manager} {pc' : FreeallPc} (u : Thread)
      (hu : ((s.setManager m).setFrames .main (⟨f.sig,.freeall pc'⟩ :: below)).fileMutex = some u) :
      holdsFile ((s.setManager m).setFrames .main (⟨f.sig,.freeall pc'⟩ :: below)) u :=
    holds_file_moved h hf rfl rfl (by simp [hpc,FramePc.inFile]) hu
  have htime {pc' : FreeallPc} : (FramePc.freeall pc').timestamp = f.pc.timestamp := by
    rw [hpc]
    rfl
  have hcurrent : ∀ p ∈ f.pc.current, p ∈ s.server.manager.threadManager := by
    intro p hp
    refine h.current p ?_
    rw [hf,topCurrent,if_neg hsig]
    exact hp
  have hnot {k : ℕ} : Thread.main ≠ .worker k := by simp
  rw [hpc] at hcurrent
  cases hm with
  | finished hl =>
    exact h.advance hf rfl rfl rfl rfl (fun _ hp => hp) (List.Subset.refl _) (fun _ => rfl) htime
      (by simp [FramePc.current]) (fun _ ht => absurd ht hnot)
      (fun _ hu => holds_manager_moved h hf rfl rfl (fun _ _ hw _ => hw)
        (by simp [hpc,FramePc.inManager,freeallInManager]) hu) hfile
  | first hhead =>
    refine h.advance hf rfl rfl rfl rfl (fun _ hp => hp) (List.Subset.refl _) (fun _ => rfl) htime
      (fun p hp => ?_) (fun _ ht => absurd ht hnot)
      (fun _ hu => holds_manager_moved h hf rfl rfl (fun _ _ hw _ => hw)
        (by simp [hpc,FramePc.inManager,freeallInManager]) hu) hfile
    rw [List.mem_singleton.mp hp]
    exact List.mem_of_head? hhead
  | joined he hj =>
    obtain ⟨j,v,hv,-,hret,rfl⟩ := Manager.pthread_join_some hj
    have hnone {p : ℕ} (hp : s.server.manager.workers p = none) : p ≠ j := by
      rintro rfl
      rw [hp] at hv
      cases hv
    refine h.advance hf rfl rfl rfl rfl
      (fun p hp => (Function.update_of_ne (hnone hp) ..).trans hp) (List.Subset.refl _)
      (fun _ => rfl) htime hcurrent (fun _ ht => absurd ht hnot)
      (fun _ hu => holds_manager_moved h hf rfl rfl (fun k w hw hin => ?_)
        (by simp [hpc,FramePc.inManager,freeallInManager]) hu) hfile
    have hne : k ≠ j := by
      rintro rfl
      rw [hw] at hv
      cases hv
      rw [hret] at hin
      cases hin
    exact (Function.update_of_ne hne ..).trans hw
  | locked he hfree =>
    refine h.advance hf rfl rfl rfl rfl (fun _ hp => hp) (List.Subset.refl _) (fun _ => rfl) htime
      hcurrent (fun _ ht => absurd ht hnot) (fun u hu => ?_) hfile
    cases hu
    exact Or.inr ⟨_,pushed_mem,rfl⟩
  | @removed entry threadId =>
    obtain ⟨hsub,hmutex,hworkers,hnext⟩ := s.server.manager.remove_frame threadId
    refine h.advance hf rfl rfl rfl hnext (fun p hp => (congrFun hworkers p).trans hp) hsub
      (fun ha => (ha.resolve_left hsig rfl).elim) htime (by simp [FramePc.current]) (fun _ ht => absurd ht hnot)
      (fun u hu => ?_) hfile
    exact holds_manager_moved h hf rfl rfl (fun k w hw _ => (congrFun hworkers k).trans hw)
      (fun _ => rfl) (hmutex.symm.trans hu)
  | unlocked =>
    exact h.advance hf rfl rfl rfl rfl (fun _ hp => hp) (List.Subset.refl _) (fun _ => rfl) htime
      (by simp [FramePc.current]) (fun _ ht => absurd ht hnot) (fun u hu => by cases hu) hfile

theorem frame_guarded (h : Guarded s) (hf : s.frames t = f :: below)
    (hm : FrameMove s t f below s') : Guarded s' := by
  have hmem : f ∈ s.frames t := hf ▸ List.mem_cons_self ..
  have hkind := h.kinds t f hmem
  cases hm with
  | opened hpc | wrote hpc =>
    exact h.quiet hf rfl rfl rfl (by rw [hpc]; rfl) (by simp) rfl (by rw [hpc]; rfl) rfl
      fun u hu => holds_file_moved h hf rfl rfl (by simp [hpc,FramePc.inFile]) hu
  | openFailed hpc | closed hpc =>
    exact h.popped hf (hkind.mpr (by rw [hpc]; rfl)) (by rw [hpc]; rfl)
  | locked hpc =>
    refine h.quiet hf rfl rfl rfl (by rw [hpc]; rfl) (by simp) rfl (by rw [hpc]; rfl) rfl
      fun u hu => ?_
    cases hu
    exact Or.inr ⟨_,pushed_mem,rfl⟩
  | unlocked hpc =>
    exact h.quiet hf rfl rfl rfl (by rw [hpc]; rfl) (by simp) rfl (by rw [hpc]; rfl) rfl
      fun u hu => by cases hu
  | freed hpc | serverClosed hpc | addrinfoFreed hpc | logClosed hpc =>
    exact h.quiet hf rfl rfl rfl (by rw [hpc]; rfl) (by simp) rfl (by rw [hpc]; rfl) rfl
      fun u hu => holds_file_moved h hf rfl rfl (by simp [hpc,FramePc.inFile]) hu
  | freeing hpc hm =>
    have hsig : f.sig ≠ .sigalrm := by
      rw [Ne,hkind,hpc]
      simp [FramePc.timestamp]
    cases t with
    | main => exact main_freeall h hf hpc hsig hm
    | worker k =>
      obtain ⟨rfl,rfl,rfl⟩ := worker_freeall h hf hpc hsig hm
      exact h.quiet hf rfl rfl rfl (by rw [hpc]; rfl) (by simp) rfl (by rw [hpc]; rfl) rfl
        fun u hu => holds_file_moved h hf rfl rfl (by simp [hpc,FramePc.inFile]) hu
  | exited =>
    exact ⟨h.manager,h.file,h.signals,h.kinds,h.frozen,h.stacked,h.current,h.workers,h.fresh,
      h.spawning,h.accepting⟩

end Frames

end AesdSocket
