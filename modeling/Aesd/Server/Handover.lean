import Aesd.Server.Exclusive

namespace ThreadManager
open Kernel

def AtStart (m : Manager) (k : ℕ) : Prop := ∃ w, m.workers k = some w ∧ w.pc = .start

def IsServing (m : Manager) (k : ℕ) : Prop := ∃ w, m.workers k = some w ∧ w.pc = .serving

section Main
variable {m m' : Manager} {s s' : Server} {l : Label} {pc pc' : MainPc} {k p id fd : ℕ} {w v : Worker}

theorem set_worker_self : (m.setWorker k w).workers k = some w := Function.update_self ..

theorem set_worker_other (hne : p ≠ k) : (m.setWorker k w).workers p = m.workers p :=
  Function.update_of_ne hne ..

theorem joined_active (hj : m.pthreadJoin id = some m') (hw : m'.workers k = some w)
    (hpc : w.pc ≠ .joined) : m.workers k = some w ∧ m'.dataFdOf k = m.dataFdOf k := by
  obtain ⟨j,v,hv,-,-,rfl⟩ := Manager.pthread_join_some hj
  by_cases hne : k = j
  · subst hne
    cases set_worker_self.symm.trans hw
    exact absurd rfl hpc
  · exact ⟨(set_worker_other hne).symm.trans hw,rfl⟩

theorem removed_active (hi : Inv ⟨pc,m⟩) (hr : pc.removal = some (p,id))
    (hw : (m.threadEntryRemove id).2.workers k = some w) (hpc : w.pc ≠ .joined) :
    m.workers k = some w ∧ (m.threadEntryRemove id).2.dataFdOf k = m.dataFdOf k := by
  obtain ⟨hcurrent,hdying⟩ := removal_current hr
  obtain ⟨v,hv,hj⟩ := hi.dying p (by simp [hdying])
  rw [remove_found hi (hi.current p (by simp [hcurrent])) (hi.removal p id hr)] at hw ⊢
  have hne : k ≠ p := by
    rintro rfl
    cases hv.symm.trans hw
    exact hpc hj
  exact ⟨hw,by simp [Manager.dataFdOf,Manager.threadEntryFree,Manager.setEntry,Manager.unlink,hne]⟩

-- main starts no thread but the one of the entry it has just created
theorem main_active (hi : Inv s) (hm : MainMove s.manager s.main l s'.main s'.manager)
    (hw : s'.manager.workers k = some w) (hpc : w.pc = .start ∨ w.pc = .serving) :
    s.manager.workers k = some w ∧ s'.manager.dataFdOf k = s.manager.dataFdOf k ∨
      s.manager.workers k = none ∧ w.pc = .start ∧
        acquiredData s.manager s.main = s'.manager.dataFdOf k := by
  have hnj : w.pc ≠ .joined := by rcases hpc with h | h <;> simp [h]
  obtain ⟨pc,m⟩ := s
  obtain ⟨pc',m'⟩ := s'
  simp only at hm hw
  cases hm with
  | created =>
    have hne : k ≠ m.next := by
      rintro rfl
      have hnone : m.workers m.next = none := (hi.fresh m.next (Nat.le_refl _)).2
      cases hnone.symm.trans hw
    exact Or.inl ⟨hw,by simp [Manager.dataFdOf,Manager.setEntry,hne]⟩
  | @spawnFailed clientFd entry =>
    have hne : k ≠ entry := by
      rintro rfl
      have hnone : m.workers k = none := (hi.spawning k rfl).2.1
      cases hnone.symm.trans hw
    exact Or.inl ⟨hw,by simp [Manager.dataFdOf,Manager.threadEntryFree,Manager.setEntry,
      Manager.close,hne]⟩
  | @spawned clientFd entry id =>
    have hdata (q : ℕ) : Manager.dataFdOf ((m.setEntry entry
        ((m.entries entry).map fun e => { e with threadId := id })).setWorker entry
        ⟨.start,id,0,0⟩) q = m.dataFdOf q :=
      Manager.entry_field_same (·.tmpdataFd) fun _ => rfl
    by_cases hne : k = entry
    · subst hne
      cases set_worker_self.symm.trans hw
      exact Or.inr ⟨(hi.spawning k rfl).2.1,rfl,(hdata k).symm⟩
    · exact Or.inl ⟨(set_worker_other hne).symm.trans hw,hdata k⟩
  | joined he hj => exact Or.inl (joined_active hj hw hnj)
  | removed => exact Or.inl (removed_active hi rfl hw hnj)
  | freeing hm =>
    cases hm with
    | joined he hj => exact Or.inl (joined_active hj hw hnj)
    | removed => exact Or.inl (removed_active hi rfl hw hnj)
    | _ => exact Or.inl ⟨hw,rfl⟩
  | _ => exact Or.inl ⟨hw,rfl⟩

theorem main_unstarted (hm : MainMove m pc l pc' m') (hn : m'.workers k = none) :
    m.workers k = none := by
  have hset {q : ℕ} {v : Worker} {n : Manager} (h : (n.setWorker q v).workers k = none) :
      n.workers k = none := by
    by_cases hne : k = q
    · subst hne
      cases set_worker_self.symm.trans h
    · exact (set_worker_other hne).symm.trans h
  have hjoin {id : ℕ} {n : Manager} (hj : m.pthreadJoin id = some n) (h : n.workers k = none) :
      m.workers k = none := by
    obtain ⟨j,v,-,-,-,rfl⟩ := Manager.pthread_join_some hj
    exact hset h
  have hremove {id : ℕ} (h : (m.threadEntryRemove id).2.workers k = none) : m.workers k = none := by
    rwa [(m.remove_frame id).2.2.1] at h
  cases hm with
  | spawned => exact hset hn
  | joined he hj => exact hjoin hj hn
  | removed => exact hremove hn
  | freeing hm =>
    cases hm with
    | joined he hj => exact hjoin hj hn
    | removed => exact hremove hn
    | _ => exact hn
  | _ => exact hn

theorem main_acquired (hm : MainMove m pc l pc' m') (hfd : acquiredData m' pc' = some fd) :
    acquiredData m pc = some fd ∨ l = .openData (some fd) ∧ ¬ isOpen m fd := by
  cases hm with
  | opened hopen =>
    cases hfd
    exact Or.inr ⟨rfl,hopen⟩
  | created =>
    refine Or.inl ?_
    simpa [acquiredData,Manager.dataFdOf,Manager.setEntry] using hfd
  | _ => cases hfd

theorem acquired_label {r : Option ℕ} (hm : MainMove m pc (.openData r) pc' m') :
    acquiredData m pc = none := by
  cases hm with
  | openFailed | opened => rfl

end Main

section Workers
variable {m m' : Manager} {k : ℕ} {w : Worker}

theorem worker_start (hm : WorkerMove m k w m') : ¬ AtStart m' k := by
  rintro ⟨v,hv,hpc⟩
  cases hm with
  | _ =>
    cases set_worker_self.symm.trans hv
    simp at hpc

theorem worker_serving (hm : WorkerMove m k w m') (hs : IsServing m' k) :
    w.pc = .start ∧ (m.entries k).isSome := by
  obtain ⟨v,hv,hpc⟩ := hs
  cases hm with
  | started hp he => exact ⟨hp,by simp [he]⟩
  | _ =>
    cases set_worker_self.symm.trans hv
    simp at hpc

end Workers

section Data
variable {s : Server} {j k a b fd : ℕ} {w v : Worker}

theorem data_used (hi : Inv s) (hw : s.manager.workers k = some w) (hpc : w.pc ≠ .joined)
    (hfd : s.manager.dataFdOf k = some fd) : k ∈ tracked s ∧ fd ∈ descriptors s k := by
  refine ⟨hi.running k w hw hpc,List.mem_append_right _ ?_⟩
  rw [Manager.dataUse,if_neg (undying hi hw hpc),hfd]
  exact List.mem_singleton_self _

theorem data_open (hi : Inv s) (h : Exclusive s) (hw : s.manager.workers k = some w)
    (hpc : w.pc ≠ .joined) (hfd : s.manager.dataFdOf k = some fd) : isOpen s.manager fd := by
  obtain ⟨hk,hu⟩ := data_used hi hw hpc hfd
  exact h.held.live fd (descriptors_used hk hu)

theorem data_apart (hi : Inv s) (h : Exclusive s) (hne : j ≠ k)
    (hw : s.manager.workers j = some w) (hpc : w.pc ≠ .joined) (ha : s.manager.dataFdOf j = some a)
    (hv : s.manager.workers k = some v) (hpc' : v.pc ≠ .joined) (hb : s.manager.dataFdOf k = some b) :
    a ≠ b := by
  obtain ⟨hj,hja⟩ := data_used hi hw hpc ha
  obtain ⟨hk,hkb⟩ := data_used hi hv hpc' hb
  have hheld := h.held.kept (List.sublist_append_right _ _).subperm fun _ hr => hr
  rintro rfl
  exact hheld.one_user hj hk hne hja hkb

theorem acquired_apart (hi : Inv s) (h : Exclusive s)
    (ha : acquiredData s.manager s.main = some a) (hw : s.manager.workers k = some w)
    (hpc : w.pc ≠ .joined) (hb : s.manager.dataFdOf k = some b) : a ≠ b := by
  obtain ⟨hk,hkb⟩ := data_used hi hw hpc hb
  have hmain : a ∈ (acquiredClient s.main).toList ++ (acquiredData s.manager s.main).toList := by
    simp [ha]
  rintro rfl
  exact (List.nodup_append.mp h.held.distinct).2.2 a hmain a (List.mem_flatMap.mpr ⟨k,hk,hkb⟩) rfl

end Data

end ThreadManager
