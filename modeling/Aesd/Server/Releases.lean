import Aesd.Server.Lifecycle

namespace AesdSocket
open Kernel ThreadManager ClientHandler Ledger

inductive EntryChange (m m' : Manager) : List (Action Resource) → Prop
  | quiet (hn : m'.next = m.next) (hk : ∀ q, m.entries q = none → m'.entries q = none) :
      EntryChange m m' []
  | created (hn : m'.next = m.next + 1)
      (hk : ∀ q, q ≠ m.next → m.entries q = none → m'.entries q = none) :
      EntryChange m m' [.acquire (.entry m.next)]
  | removed (p : ℕ) (hp : p < m.next) (ha : m.entries p ≠ none) (hn : m'.next = m.next)
      (hf : m'.entries p = none) (hk : ∀ q, m.entries q = none → m'.entries q = none) :
      EntryChange m m' [.release (.entry p)]
  | spent (hn : m'.next = m.next + 1) (hf : m'.entries m.next = none)
      (hk : ∀ q, m.entries q = none → m'.entries q = none) :
      EntryChange m m' [.acquire (.entry m.next),.release (.entry m.next)]

structure EntryInv (s : Server) : Prop where
  fresh : ∀ p, s.manager.next ≤ p → s.manager.entries p = none ∧ s.manager.workers p = none
  listed : ∀ p ∈ s.manager.threadManager, s.manager.workers p ≠ none
  adding : ∀ p, s.main = .addLock p ∨ s.main = .addInsert p → s.manager.workers p ≠ none
  spawning : ∀ fd p, s.main = .spawn fd p →
    s.manager.entries p ≠ none ∧ s.manager.workers p = none

section Entries
variable {s s' : Server} {m m' : Manager} {k : ℕ} {w : Worker} {t : Thread} {pc pc' : FreeallPc}

theorem EntryInv.started (h : EntryInv s) {p : ℕ} (ha : s.manager.entries p ≠ none) :
    p < s.manager.next := by
  by_contra hge
  exact ha (h.fresh p (Nat.le_of_not_lt hge)).1

theorem find_entry_live {id p : ℕ} (hf : m.findEntry id = some p) :
    p ∈ m.threadManager ∧ m.entries p ≠ none := by
  refine ⟨List.mem_of_find?_eq_some hf,fun he => ?_⟩
  have := List.find?_some hf
  simp [Manager.hasId,Manager.idOf,he] at this

theorem marked_none (m : Manager) (id q : ℕ) :
    (m.threadEntryMarkcomplete id).2.entries q = none ↔ m.entries q = none := by
  rcases Manager.markcomplete_cases m id with heq | ⟨p,-,heq⟩
  · rw [heq]
  · rw [heq]
    by_cases hq : q = p
    · subst hq
      simp [Manager.setEntry]
    · simp [Manager.setEntry,hq]

theorem marked_frame (m : Manager) (id : ℕ) :
    (m.threadEntryMarkcomplete id).2.next = m.next ∧
    (m.threadEntryMarkcomplete id).2.threadManager = m.threadManager ∧
    (m.threadEntryMarkcomplete id).2.workers = m.workers := by
  rcases Manager.markcomplete_cases m id with heq | ⟨p,-,heq⟩
  · rw [heq]
    exact ⟨rfl,rfl,rfl⟩
  · rw [heq]
    exact ⟨rfl,rfl,rfl⟩

-- entries and threads come and go nowhere in the step
structure SameEntries (m m' : Manager) : Prop where
  next : m'.next = m.next
  listed : m'.threadManager ⊆ m.threadManager
  entries : ∀ q, m'.entries q = none ↔ m.entries q = none
  workers : ∀ q, m'.workers q = none ↔ m.workers q = none

theorem set_worker_none (hw : m.workers k = some w) (v : Worker) (q : ℕ) :
    (m.setWorker k v).workers q = none ↔ m.workers q = none := by
  by_cases hq : q = k
  · subst hq
    simp [Manager.setWorker,hw]
  · simp [Manager.setWorker,hq]

theorem worker_same_entries (hw : m.workers k = some w) (hm : WorkerMove m k w m') :
    SameEntries m m' := by
  cases hm with
  | marked =>
    obtain ⟨hn,hl,hws⟩ := marked_frame m w.threadId
    refine ⟨hn,fun q hq => hl ▸ hq,marked_none m w.threadId,fun q => ?_⟩
    rw [set_worker_none (by rw [hws,hw]),hws]
  | started | startedFreed | served | left | leftFreed | markLocked | markUnlocked | closed =>
    exact ⟨rfl,List.Subset.refl _,fun _ => Iff.rfl,fun q => set_worker_none hw _ q⟩

theorem join_same_entries {id : ℕ} (hj : m.pthreadJoin id = some m') : SameEntries m m' := by
  obtain ⟨j,v,hv,-,-,rfl⟩ := Manager.pthread_join_some hj
  exact ⟨rfl,List.Subset.refl _,fun _ => Iff.rfl,fun q => set_worker_none hv _ q⟩

theorem SameEntries.change (h : SameEntries m m') : EntryChange m m' [] :=
  .quiet h.next fun q hq => (h.entries q).mpr hq

theorem EntryInv.same (h : EntryInv s) (hs : SameEntries s.manager s'.manager)
    (ha : ∀ p, s'.main = .addLock p ∨ s'.main = .addInsert p → s.manager.workers p ≠ none)
    (hsp : ∀ fd p, s'.main = .spawn fd p → s.main = .spawn fd p) : EntryInv s' := by
  refine ⟨fun p hp => ?_,fun p hp => ?_,fun p hp => ?_,fun fd p hp => ?_⟩
  · rw [hs.next] at hp
    rw [hs.entries,hs.workers]
    exact h.fresh p hp
  · rw [Ne,hs.workers]
    exact h.listed p (hs.listed hp)
  · rw [Ne,hs.workers]
    exact ha p hp
  · rw [Ne,hs.entries,hs.workers]
    exact h.spawning fd p (hsp fd p hp)

theorem remove_change (h : EntryInv s) (id : ℕ) :
    EntryChange s.manager (s.manager.threadEntryRemove id).2
      ((s.manager.findEntry id).toList.map fun entry => .release (.entry entry)) := by
  unfold Manager.threadEntryRemove
  cases hf : s.manager.findEntry id with
  | none => exact .quiet rfl fun _ hq => hq
  | some p =>
    obtain ⟨-,ha⟩ := find_entry_live hf
    refine .removed p (h.started ha) ha rfl ?_ fun q hq => ?_
    · simp [Manager.threadEntryFree,Manager.setEntry]
    · by_cases hqp : q = p
      · simp [Manager.threadEntryFree,Manager.setEntry,hqp]
      · simpa [Manager.threadEntryFree,Manager.setEntry,Manager.unlink,hqp] using hq

theorem remove_inv (h : EntryInv s) {id : ℕ} {pc : MainPc} (hpc : pc = s.main ∨
    ∃ following, pc = .removeUnlock following) :
    EntryInv ⟨pc,(s.manager.threadEntryRemove id).2⟩ := by
  obtain ⟨hsub,-,hworkers,hnext⟩ := s.manager.remove_frame id
  have hentries {p : ℕ} (hp : s.manager.workers p = none ∨ s.manager.next ≤ p) :
      (s.manager.threadEntryRemove id).2.entries p = s.manager.entries p := by
    unfold Manager.threadEntryRemove
    cases hf : s.manager.findEntry id with
    | none => rfl
    | some q =>
      obtain ⟨hl,-⟩ := find_entry_live hf
      have hne : p ≠ q := by
        rintro rfl
        rcases hp with hp | hp
        · exact h.listed p hl hp
        · exact h.listed p hl (h.fresh p hp).2
      simp [Manager.threadEntryFree,Manager.setEntry,Manager.unlink,hne]
  refine ⟨fun p hp => ?_,fun p hp => ?_,fun p hp => ?_,fun fd p hp => ?_⟩
  · have hp : s.manager.next ≤ p := hnext ▸ hp
    rw [hentries (Or.inr hp),hworkers]
    exact h.fresh p hp
  · rw [hworkers]
    exact h.listed p (hsub hp)
  · rw [hworkers]
    rcases hpc with rfl | ⟨following,rfl⟩
    · exact h.adding p hp
    · simp at hp
  · rcases hpc with rfl | ⟨following,rfl⟩
    · obtain ⟨ha,hw⟩ := h.spawning fd p hp
      rw [hentries (Or.inl hw),hworkers]
      exact ⟨ha,hw⟩
    · simp at hp

theorem freeall_change (h : EntryInv s) (hm : FreeallMove t s.manager pc pc' m') :
    EntryChange s.manager m' (cleanupActions s.manager (.freeall pc)) ∧ EntryInv ⟨s.main,m'⟩ := by
  have hsame {m' : Manager} (hs : SameEntries s.manager m') : EntryInv ⟨s.main,m'⟩ :=
    h.same hs h.adding fun _ _ hp => hp
  cases hm with
  | finished | first => exact ⟨.quiet rfl fun _ hq => hq,h⟩
  | joined he hj => exact ⟨(join_same_entries hj).change,hsame (join_same_entries hj)⟩
  | locked =>
    have hs : SameEntries s.manager (s.manager.setMutex (some t)) :=
      ⟨rfl,List.Subset.refl _,fun _ => Iff.rfl,fun _ => Iff.rfl⟩
    exact ⟨hs.change,hsame hs⟩
  | removed => exact ⟨remove_change h _,remove_inv h (Or.inl rfl)⟩
  | unlocked =>
    have hs : SameEntries s.manager s.manager.unlockManager :=
      ⟨rfl,List.Subset.refl _,fun _ => Iff.rfl,fun _ => Iff.rfl⟩
    exact ⟨hs.change,hsame hs⟩

theorem created_change {fd : ℕ} {entry : ThreadEntry} {pc : MainPc} (h : EntryInv ⟨pc,m⟩) :
    EntryChange m { m.setEntry m.next (some entry) with next := m.next + 1 }
      [.acquire (.entry m.next)] ∧
    EntryInv ⟨.spawn fd m.next,{ m.setEntry m.next (some entry) with next := m.next + 1 }⟩ := by
  refine ⟨.created rfl fun q hq hn => by simpa [Manager.setEntry,hq] using hn,
    fun p hp => ?_,h.listed,by simp,fun fd p hp => ?_⟩
  · have hlt : m.next + 1 ≤ p := hp
    have hne : p ≠ m.next := by omega
    obtain ⟨hentry,hworker⟩ := h.fresh p (show m.next ≤ p by omega)
    exact ⟨by simpa [Manager.setEntry,hne] using hentry,hworker⟩
  · cases hp
    exact ⟨by simp [Manager.setEntry],(h.fresh m.next (Nat.le_refl _)).2⟩

theorem spawn_failed_change {fd entry : ℕ} (h : EntryInv ⟨.spawn fd entry,m⟩) :
    EntryChange m ((m.close fd).threadEntryFree entry) [.release (.entry entry)] ∧
    EntryInv ⟨.accept,(m.close fd).threadEntryFree entry⟩ := by
  obtain ⟨ha,-⟩ := h.spawning fd entry rfl
  have hkeep (q : ℕ) (hq : m.entries q = none) :
      ((m.close fd).threadEntryFree entry).entries q = none := by
    by_cases hne : q = entry
    · simp [Manager.threadEntryFree,Manager.setEntry,hne]
    · simpa [Manager.threadEntryFree,Manager.setEntry,Manager.close,hne] using hq
  refine ⟨.removed entry (h.started ha) ha rfl ?_ hkeep,fun p hp => ?_,h.listed,by simp,by simp⟩
  · simp [Manager.threadEntryFree,Manager.setEntry]
  · exact ⟨hkeep p (h.fresh p hp).1,(h.fresh p hp).2⟩

theorem spawned_change {fd entry id : ℕ} (h : EntryInv ⟨.spawn fd entry,m⟩)
    (hm : m' = (m.setEntry entry ((m.entries entry).map fun e => { e with threadId := id })).setWorker
      entry ⟨.start,id,0,0⟩) :
    EntryChange m m' [] ∧ EntryInv ⟨.addLock entry,m'⟩ := by
  obtain ⟨ha,hw⟩ := h.spawning fd entry rfl
  have hnext : m'.next = m.next := by
    rw [hm]
    rfl
  have hentries (q : ℕ) (hq : m.entries q = none) : m'.entries q = none := by
    by_cases hne : q = entry
    · exact absurd (hne ▸ hq) ha
    · simpa [hm,Manager.setEntry,Manager.setWorker,hne] using hq
  have hself : m'.workers entry ≠ none := by simp [hm,Manager.setWorker]
  have hother {q : ℕ} (hq : q ≠ entry) : m'.workers q = m.workers q := by
    rw [hm]
    exact Function.update_of_ne hq ..
  have hlisted : m'.threadManager = m.threadManager := by
    rw [hm]
    rfl
  refine ⟨.quiet hnext hentries,fun p hp => ?_,fun p hp => ?_,fun p hp => ?_,by simp⟩
  · have hge : m.next ≤ p := hnext ▸ hp
    refine ⟨hentries p (h.fresh p hge).1,?_⟩
    rw [hother fun he => ha (h.fresh entry (he ▸ hge)).1]
    exact (h.fresh p hge).2
  · by_cases hne : p = entry
    · exact hne ▸ hself
    · rw [hother hne]
      exact h.listed p (hlisted ▸ hp)
  · have hpe : p = entry := by simpa [eq_comm] using hp
    exact hpe ▸ hself

theorem main_change {l : ThreadManager.Label} (h : EntryInv s) (hl : l ≠ .freeall)
    (hpc : ∀ x, s.main ≠ .freeall x) (hm : MainMove s.manager s.main l s'.main s'.manager) :
    EntryChange s.manager s'.manager (serverActions s l) ∧ EntryInv s' := by
  obtain ⟨pc,m⟩ := s
  obtain ⟨pc',m'⟩ := s'
  simp only at hm hpc
  have hquiet {m' : Manager} {pc' : MainPc} (hs : SameEntries m m')
      (ha : ∀ p, pc' = .addLock p ∨ pc' = .addInsert p → m.workers p ≠ none)
      (hsp : ∀ fd p, pc' = .spawn fd p → pc = .spawn fd p) :
      EntryChange m m' [] ∧ EntryInv ⟨pc',m'⟩ := ⟨hs.change,h.same hs ha hsp⟩
  have hrefl : SameEntries m m := ⟨rfl,List.Subset.refl _,fun _ => Iff.rfl,fun _ => Iff.rfl⟩
  cases hm with
  | refused | mallocFailed | printed | scanned | found | passed =>
    exact hquiet hrefl (by simp) (by simp)
  | accepted | openFailed | opened | addUnlocked | printLocked | printUnlocked | dataClosed
  | removeLocked | removeUnlocked =>
    exact hquiet ⟨rfl,List.Subset.refl _,fun _ => Iff.rfl,fun _ => Iff.rfl⟩ (by simp) (by simp)
  | strdupFailed =>
    refine ⟨.spent rfl (h.fresh m.next (Nat.le_refl _)).1 fun _ hq => hq,?_⟩
    exact ⟨fun p hp => h.fresh p (Nat.le_of_succ_le hp),h.listed,by simp,by simp⟩
  | created => exact created_change h
  | spawnFailed => exact spawn_failed_change h
  | spawned => exact spawned_change h rfl
  | @addLocked entry =>
    refine hquiet ⟨rfl,List.Subset.refl _,fun _ => Iff.rfl,fun _ => Iff.rfl⟩ (fun p hp => ?_) (by simp)
    exact h.adding p (Or.inl (by simpa using hp))
  | @inserted entry =>
    refine ⟨.quiet rfl fun _ hq => hq,h.fresh,fun p hp => ?_,by simp,by simp⟩
    rcases List.mem_cons.mp hp with rfl | hp
    · exact h.adding p (Or.inr rfl)
    · exact h.listed p hp
  | joined he hj => exact hquiet (join_same_entries hj) (by simp) (by simp)
  | @removed entry threadId => exact ⟨remove_change h threadId,remove_inv h (Or.inr ⟨_,rfl⟩)⟩
  | freeallCalled => exact absurd rfl hl
  | freeing => exact absurd rfl (hpc _)

theorem server_change {l : ThreadManager.Label} (h : EntryInv s) (hl : l ≠ .freeall)
    (hpc : ∀ x, s.main ≠ .freeall x) (hs : serverStep s l = some s') :
    EntryChange s.manager s'.manager (serverActions s l) ∧ EntryInv s' ∧
      ∀ x, s'.main ≠ .freeall x := by
  cases server_step_move hs with
  | worker hk hw hm hmain =>
    have hsame := worker_same_entries hw hm
    subst hk
    refine ⟨hsame.change,h.same hsame ?_ ?_,hmain ▸ hpc⟩
    · rw [hmain]
      exact h.adding
    · rw [hmain]
      exact fun _ _ hp => hp
  | main hm =>
    obtain ⟨hc,hi⟩ := main_change h hl hpc hm
    exact ⟨hc,hi,main_accepting hm hl hpc⟩

end Entries

end AesdSocket
