import Aesd.Server.AcceptLoop

namespace AesdSocket
open ThreadManager

def freeallInManager : FreeallPc → Bool
  | .removing _ _ | .removeUnlock => true
  | _ => false

def mainInManager : MainPc → Bool
  | .addInsert _ | .addUnlock | .printing | .printUnlock | .removing _ _ | .removeUnlock _ => true
  | .freeall pc => freeallInManager pc
  | _ => false

def workerInManager : WorkerPc → Bool
  | .marking | .markUnlock => true
  | _ => false

section Moves
variable {m m' : Manager} {k : ℕ} {w : Worker} {pc pc' : MainPc} {l : ThreadManager.Label}

structure WorkerFrame (m m' : Manager) (k : ℕ) (w w' : Worker) : Prop where
  listed : m'.threadManager = m.threadManager
  next : m'.next = m.next
  workers : m'.workers = Function.update m.workers k (some w')
  mutex : m'.managerMutex = none ∨
    m'.managerMutex = some (.worker k) ∧ workerInManager w'.pc = true ∨
    m'.managerMutex = m.managerMutex ∧ (workerInManager w.pc = true → workerInManager w'.pc = true)

theorem worker_frame (hm : WorkerMove m k w m') : ∃ w', WorkerFrame m m' k w w' := by
  cases hm with
  | started hpc | startedFreed hpc | served hpc | left hpc | leftFreed hpc | closed hpc =>
    exact ⟨_,rfl,rfl,rfl,Or.inr (Or.inr ⟨rfl,by simp [hpc,workerInManager]⟩)⟩
  | markLocked hpc => exact ⟨_,rfl,rfl,rfl,Or.inr (Or.inl ⟨rfl,rfl⟩)⟩
  | marked hpc =>
    rcases Manager.markcomplete_cases m w.threadId with heq | ⟨p,-,heq⟩ <;> rw [heq] <;>
      exact ⟨_,rfl,rfl,rfl,Or.inr (Or.inr ⟨rfl,fun _ => rfl⟩)⟩
  | markUnlocked hpc => exact ⟨_,rfl,rfl,rfl,Or.inl rfl⟩

structure MainFrame (m : Manager) (pc : MainPc) (m' : Manager) (pc' : MainPc) : Prop where
  listed : m.threadManager = [] → m'.threadManager = [] ∨ ∃ p, pc = .addInsert p
  next : m.next ≤ m'.next
  workers : ∀ k w, m.workers k = some w → workerInManager w.pc = true →
    (∀ fd, pc ≠ .spawn fd k) → m'.workers k = some w
  unstarted : ∀ k, m.workers k = none → (∀ fd, pc ≠ .spawn fd k) → m'.workers k = none
  mutex : m'.managerMutex = none ∨ m'.managerMutex = some .main ∧ mainInManager pc' = true ∨
    m'.managerMutex = m.managerMutex ∧ (mainInManager pc = true → mainInManager pc' = true)
  spawning : ∀ fd p, pc' = .spawn fd p → p = m.next ∧ m'.next = m.next + 1 ∧ m'.workers = m.workers

theorem main_frame (hm : MainMove m pc l pc' m') (hl : l ≠ .freeall) (hpc : ∀ x, pc ≠ .freeall x) :
    MainFrame m pc m' pc' := by
  cases hm with
  | refused | accepted | openFailed | opened | mallocFailed | found | passed | scanned | dataClosed =>
    exact ⟨Or.inl,Nat.le_refl _,fun _ _ hw _ _ => hw,fun _ hk _ => hk,
      Or.inr (Or.inr ⟨rfl,by simp [mainInManager]⟩),by simp⟩
  | strdupFailed =>
    exact ⟨Or.inl,Nat.le_succ _,fun _ _ hw _ _ => hw,fun _ hk _ => hk,
      Or.inr (Or.inr ⟨rfl,by simp [mainInManager]⟩),by simp⟩
  | created =>
    refine ⟨Or.inl,Nat.le_succ _,fun _ _ hw _ _ => hw,fun _ hk _ => hk,
      Or.inr (Or.inr ⟨rfl,by simp [mainInManager]⟩),fun fd p hp => ?_⟩
    cases hp
    exact ⟨rfl,rfl,rfl⟩
  | spawnFailed =>
    exact ⟨Or.inl,Nat.le_refl _,fun _ _ hw _ _ => hw,fun _ hk _ => hk,
      Or.inr (Or.inr ⟨rfl,by simp [mainInManager]⟩),by simp⟩
  | @spawned fd entry =>
    refine ⟨Or.inl,Nat.le_refl _,fun k w hw _ hne => ?_,fun k hk hne => ?_,
      Or.inr (Or.inr ⟨rfl,by simp [mainInManager]⟩),by simp⟩
    · have hother : k ≠ entry := fun he => hne fd (by rw [he])
      exact (Function.update_of_ne hother ..).trans hw
    · have hother : k ≠ entry := fun he => hne fd (by rw [he])
      exact (Function.update_of_ne hother ..).trans hk
  | addLocked | printLocked | removeLocked =>
    exact ⟨Or.inl,Nat.le_refl _,fun _ _ hw _ _ => hw,fun _ hk _ => hk,
      Or.inr (Or.inl ⟨rfl,rfl⟩),by simp⟩
  | inserted =>
    exact ⟨fun _ => Or.inr ⟨_,rfl⟩,Nat.le_refl _,fun _ _ hw _ _ => hw,fun _ hk _ => hk,
      Or.inr (Or.inr ⟨rfl,fun _ => rfl⟩),by simp⟩
  | printed =>
    exact ⟨Or.inl,Nat.le_refl _,fun _ _ hw _ _ => hw,fun _ hk _ => hk,
      Or.inr (Or.inr ⟨rfl,fun _ => rfl⟩),by simp⟩
  | addUnlocked | printUnlocked | removeUnlocked =>
    exact ⟨Or.inl,Nat.le_refl _,fun _ _ hw _ _ => hw,fun _ hk _ => hk,Or.inl rfl,by simp⟩
  | joined he hj =>
    obtain ⟨j,v,hv,-,hret,rfl⟩ := Manager.pthread_join_some hj
    refine ⟨Or.inl,Nat.le_refl _,fun k w hw hin _ => ?_,fun k hk _ => ?_,
      Or.inr (Or.inr ⟨rfl,by simp [mainInManager]⟩),by simp⟩
    · have hne : k ≠ j := by
        rintro rfl
        rw [hw] at hv
        cases hv
        rw [hret] at hin
        cases hin
      exact (Function.update_of_ne hne ..).trans hw
    · have hne : k ≠ j := by
        rintro rfl
        rw [hk] at hv
        cases hv
      exact (Function.update_of_ne hne ..).trans hk
  | @removed entry threadId =>
    obtain ⟨hsub,hmutex,hworkers,hnext⟩ := m.remove_frame threadId
    refine ⟨fun he => Or.inl (List.subset_nil.mp (he ▸ hsub)),hnext.ge,fun k w hw _ _ => ?_,
      fun k hk _ => ?_,Or.inr (Or.inr ⟨hmutex,fun _ => rfl⟩),by simp⟩
    · rw [hworkers,hw]
    · rw [hworkers,hk]
  | freeallCalled => exact absurd rfl hl
  | freeing => exact absurd rfl (hpc _)

theorem insert_label {p : ℕ} (hm : MainMove m (.addInsert p) l pc' m') : l = .main := by
  cases hm
  rfl

end Moves

end AesdSocket
