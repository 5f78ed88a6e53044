import Aesd.Server.AcceptLoop

namespace ThreadManager
open Kernel

namespace MainPc

-- the entry that is started but not yet in the list
def adding : MainPc → List ℕ
  | .addLock entry | .addInsert entry => [entry]
  | _ => []

-- the entry that is still listed though its thread has been joined
def dying : MainPc → List ℕ
  | .closeData entry | .removeLock entry | .removing entry _
  | .freeall (.removeLock entry) | .freeall (.removing entry _) => [entry]
  | _ => []

def current : MainPc → List ℕ
  | .scan (some entry) | .join entry | .closeData entry | .removeLock entry | .removing entry _
  | .removeUnlock (some entry) | .freeall (.join entry) | .freeall (.removeLock entry)
  | .freeall (.removing entry _) => [entry]
  | _ => []

def removal : MainPc → Option (ℕ × ℕ)
  | .removing entry threadId | .freeall (.removing entry threadId) => some (entry,threadId)
  | _ => none

def spawning : MainPc → Option ℕ
  | .spawn _ entry => some entry
  | _ => none

theorem scan_current {next : Option ℕ} {p : ℕ} (h : p ∈ (scan next).current) : next = some p := by
  cases next with
  | none => cases h
  | some entry => exact congrArg some (List.mem_singleton.mp h).symm

theorem unlock_current {next : Option ℕ} {p : ℕ} (h : p ∈ (removeUnlock next).current) :
    next = some p := by
  cases next with
  | none => cases h
  | some entry => exact congrArg some (List.mem_singleton.mp h).symm

end MainPc

def tracked (s : Server) : List ℕ := s.main.adding ++ s.manager.threadManager

structure Tracked (m : Manager) (dying : List ℕ) (p : ℕ) (w : Worker) : Prop where
  worker : m.workers p = some w
  id : m.idOf p = some w.id
  joined : w.pc = .joined → p ∈ dying

structure Inv (s : Server) : Prop where
  fresh : ∀ p, s.manager.next ≤ p → s.manager.idOf p = none ∧ s.manager.workers p = none
  ids : ((tracked s).map s.manager.idOf).Nodup
  tracked : ∀ p ∈ tracked s, ∃ w, Tracked s.manager s.main.dying p w
  running : ∀ k w, s.manager.workers k = some w → w.pc ≠ .joined → k ∈ ThreadManager.tracked s
  locals : ∀ k w, s.manager.workers k = some w →
    w.pc ≠ .undefined ∧ (w.pc ≠ .start → w.threadId = w.id)
  current : ∀ p ∈ s.main.current, p ∈ s.manager.threadManager
  dying : ∀ p ∈ s.main.dying, ∃ w, s.manager.workers p = some w ∧ w.pc = .joined
  removal : ∀ p id, s.main.removal = some (p,id) → s.manager.idOf p = some id
  spawning : ∀ p, s.main.spawning = some p →
    (s.manager.idOf p).isSome ∧ s.manager.workers p = none ∧ p < s.manager.next

section Lookup
variable {m m' : Manager} {l : List ℕ} {p q id : ℕ}

theorem same_id (hn : (l.map m.idOf).Nodup) (hp : p ∈ l) (hq : q ∈ l) (h : m.idOf p = m.idOf q) :
    p = q := List.inj_on_of_nodup_map hn hp hq h

theorem find_entry_some (hn : (m.threadManager.map m.idOf).Nodup) (hp : p ∈ m.threadManager)
    (hid : m.idOf p = some id) : m.findEntry id = some p := by
  cases hf : m.findEntry id with
  | none =>
    have hnone := List.find?_eq_none.mp hf p hp
    simp [Manager.hasId,hid] at hnone
  | some q =>
    have hq : m.idOf q = some id := by simpa [Manager.hasId] using List.find?_some hf
    rw [same_id hn (List.mem_of_find?_eq_some hf) hp (hq.trans hid.symm)]

theorem find_entry_mem (h : m.findEntry id = some p) :
    p ∈ m.threadManager ∧ m.idOf p = some id :=
  ⟨List.mem_of_find?_eq_some h,by simpa [Manager.hasId] using List.find?_some h⟩

theorem visited_listed (h : p ∈ m.visited id) : p ∈ m.threadManager := by
  rcases List.mem_append.mp h with h | h
  · exact (List.takeWhile_prefix _).subset h
  · exact (find_entry_mem (Option.mem_toList.mp h)).1

theorem successor_listed (h : m.successor p = some q) : q ∈ m.threadManager :=
  (List.dropWhile_suffix _).subset (List.mem_of_getElem? h)

theorem successor_ne (hn : m.threadManager.Nodup) (h : m.successor p = some q) : q ≠ p := by
  rintro rfl
  unfold Manager.successor at h
  generalize hd : m.threadManager.dropWhile (· ≠ q) = d at h
  have hnd : d.Nodup := by
    rw [← hd]
    exact hn.sublist (List.dropWhile_suffix _).sublist
  cases d with
  | nil => simp at h
  | cons a rest =>
    have ha : a = q := by
      have := List.head?_dropWhile_not (· ≠ q) m.threadManager
      rw [hd] at this
      simpa using this
    have hmem : q ∈ rest := List.mem_of_getElem? (by simpa using h)
    exact (List.nodup_cons.mp hnd).1 (ha ▸ hmem)

theorem erase_middle {before after : List ℕ} (hn : (before ++ p :: after).Nodup) :
    p ∉ before ++ after ∧ (before ++ p :: after).erase p = before ++ after := by
  have hfree : p ∉ before ++ after := (List.nodup_cons.mp (List.nodup_middle.mp hn)).1
  refine ⟨hfree,?_⟩
  rw [List.erase_append_right _ fun hb => hfree (List.mem_append_left _ hb),List.erase_cons_head]

theorem removal_current {pc : MainPc} (h : pc.removal = some (p,id)) :
    pc.current = [p] ∧ pc.dying = [p] := by
  unfold MainPc.removal at h
  split at h
  · cases h
    exact ⟨rfl,rfl⟩
  · cases h
    exact ⟨rfl,rfl⟩
  · cases h

theorem tracked_ne {s : Server} (h : Inv s) (hq : q ∈ tracked s) (hn : s.manager.workers p = none) :
    q ≠ p := by
  rintro rfl
  obtain ⟨w,hw,-⟩ := h.tracked q hq
  rw [hn] at hw
  cases hw

end Lookup

section WorkerSteps
variable {m m' : Manager} {s s' : Server} {k : ℕ} {w : Worker}

-- what a worker can change: its own state, completion flags, the mutex and the open descriptors
structure Kept (m m' : Manager) (k : ℕ) (w w' : Worker) : Prop where
  next : m'.next = m.next
  listed : m'.threadManager = m.threadManager
  ids : m'.idOf = m.idOf
  workers : m'.workers = Function.update m.workers k (some w')
  id : w'.id = w.id
  unjoined : w.pc ≠ .joined ∧ w'.pc ≠ .joined
  locals : w'.pc ≠ .undefined ∧ (w'.pc ≠ .start → w'.threadId = w.id)

theorem completed_ids (m : Manager) (p : ℕ) :
    (m.setEntry p ((m.entries p).map fun e => { e with isComplete := true })).idOf = m.idOf :=
  funext fun _ => Manager.entry_field_same (·.threadId) fun _ => rfl

theorem worker_kept (h : Inv s) (hw : s.manager.workers k = some w)
    (hm : WorkerMove s.manager k w m') : ∃ w', Kept s.manager m' k w w' := by
  obtain ⟨hdef,hlocal⟩ := h.locals k w hw
  have hentry (hpc : w.pc ≠ .joined) : s.manager.idOf k = some w.id := by
    obtain ⟨w',hw',hid,-⟩ := h.tracked k (h.running k w hw hpc)
    rw [hw] at hw'
    cases hw'
    exact hid
  have hfreed (hpc : w.pc ≠ .joined) : s.manager.entries k ≠ none := by
    intro he
    have hid := hentry hpc
    simp [Manager.idOf,he] at hid
  cases hm with
  | @started hpc e he =>
    refine ⟨{ w with pc := .serving, threadId := e.threadId, clientFd := e.clientFd },
      rfl,rfl,rfl,rfl,rfl,by simp [hpc],by simp,fun _ => ?_⟩
    have hid := hentry (by simp [hpc])
    simpa [Manager.idOf,he] using hid
  | startedFreed hpc he | leftFreed hpc he => exact absurd he (hfreed (by simp [hpc]))
  | served hpc | left hpc | markLocked hpc | markUnlocked hpc | closed hpc =>
    exact ⟨_,rfl,rfl,rfl,rfl,rfl,by simp [hpc],by simp,fun _ => hlocal (by simp [hpc])⟩
  | marked hpc =>
    have hloc := hlocal (by simp [hpc])
    rcases Manager.markcomplete_cases s.manager w.threadId with heq | ⟨p,-,heq⟩
    · rw [heq]
      exact ⟨_,rfl,rfl,rfl,rfl,rfl,by simp [hpc],by simp,fun _ => hloc⟩
    · rw [heq]
      exact ⟨_,rfl,rfl,completed_ids _ p,rfl,rfl,by simp [hpc],by simp,fun _ => hloc⟩

theorem Kept.inv {w' : Worker} (hk : Kept s.manager s'.manager k w w') (h : Inv s)
    (hw : s.manager.workers k = some w) (hpc : s'.main = s.main) : Inv s' := by
  obtain ⟨hnext,hlist,hids,hworkers,hid,hunjoined,hlocals⟩ := hk
  have htracked : ThreadManager.tracked s' = ThreadManager.tracked s := by
    rw [ThreadManager.tracked,ThreadManager.tracked,hpc,hlist]
  have hself : s'.manager.workers k = some w' := by rw [hworkers,Function.update_self]
  have hother {j : ℕ} (hj : j ≠ k) : s'.manager.workers j = s.manager.workers j := by
    rw [hworkers,Function.update_of_ne hj]
  constructor
  · intro p hp
    rw [hnext] at hp
    obtain ⟨h₁,h₂⟩ := h.fresh p hp
    have hne : p ≠ k := by
      rintro rfl
      rw [hw] at h₂
      cases h₂
    rw [hids,hother hne]
    exact ⟨h₁,h₂⟩
  · rw [htracked,hids]
    exact h.ids
  · intro p hp
    rw [htracked] at hp
    rw [hpc]
    obtain ⟨v,hv,hvid,hvj⟩ := h.tracked p hp
    by_cases hne : p = k
    · subst hne
      rw [hw] at hv
      cases hv
      exact ⟨w',hself,by rw [hids,hvid,hid],fun hj => absurd hj hunjoined.2⟩
    · exact ⟨v,by rw [hother hne,hv],by rw [hids,hvid],hvj⟩
  · intro j v hv hj
    rw [htracked]
    by_cases hne : j = k
    · subst hne
      exact h.running j w hw hunjoined.1
    · rw [hother hne] at hv
      exact h.running j v hv hj
  · intro j v hv
    by_cases hne : j = k
    · subst hne
      rw [hself] at hv
      cases hv
      rw [hid]
      exact hlocals
    · rw [hother hne] at hv
      exact h.locals j v hv
  · rw [hpc,hlist]
    exact h.current
  · intro p hp
    rw [hpc] at hp
    obtain ⟨v,hv,hj⟩ := h.dying p hp
    have hne : p ≠ k := by
      rintro rfl
      rw [hw] at hv
      cases hv
      exact hunjoined.1 hj
    exact ⟨v,by rw [hother hne,hv],hj⟩
  · rw [hpc,hids]
    exact h.removal
  · intro p hp
    rw [hpc] at hp
    obtain ⟨h₁,h₂,h₃⟩ := h.spawning p hp
    have hne : p ≠ k := by
      rintro rfl
      rw [hw] at h₂
      cases h₂
    rw [hids,hother hne,hnext]
    exact ⟨h₁,h₂,h₃⟩

end WorkerSteps

section MainSteps
variable {m m' : Manager} {s s' : Server} {pc pc' : MainPc} {p id : ℕ}

theorem Inv.quiet (h : Inv s) (hi : s'.manager.idOf = s.manager.idOf)
    (hn : s'.manager.next = s.manager.next) (hw : s'.manager.workers = s.manager.workers)
    (ht : ThreadManager.tracked s' = ThreadManager.tracked s) (hd : s'.main.dying = s.main.dying)
    (hc : ∀ p ∈ s'.main.current, p ∈ s'.manager.threadManager)
    (hr : ∀ p id, s'.main.removal = some (p,id) → s.manager.idOf p = some id)
    (hs : ∀ p, s'.main.spawning = some p → s.main.spawning = some p) : Inv s' := by
  refine ⟨?_,by rw [ht,hi]; exact h.ids,?_,?_,by rw [hw]; exact h.locals,hc,?_,
    by rw [hi]; exact hr,?_⟩
  · rw [hn,hi,hw]
    exact h.fresh
  · rw [ht,hd]
    intro q hq
    obtain ⟨w,hwq,hid,hj⟩ := h.tracked q hq
    exact ⟨w,by rw [hw,hwq],by rw [hi,hid],hj⟩
  · rw [hw,ht]
    exact h.running
  · rw [hd,hw]
    exact h.dying
  · intro q hq
    rw [hi,hw,hn]
    exact h.spawning q (hs q hq)

theorem listed_ids (h : Inv s) : (s.manager.threadManager.map s.manager.idOf).Nodup :=
  (List.nodup_append.mp (List.map_append ▸ h.ids)).2.1

theorem listed_nodup (h : Inv s) : s.manager.threadManager.Nodup := (listed_ids h).of_map _

-- the entry just read is the one whose thread pthread_join waits for
theorem joined_inv (h : Inv ⟨pc,m⟩) (hp : p ∈ m.threadManager) (hd : pc.dying = [])
    (ha : pc.adding = []) (hid : m.idOf p = some id) (hj : m.pthreadJoin id = some m')
    (ha' : pc'.adding = []) (hd' : pc'.dying = [p]) (hc' : pc'.current = [p])
    (hr' : pc'.removal = none) (hs' : pc'.spawning = none) : Inv ⟨pc',m'⟩ := by
  obtain ⟨k,w,hw,hwid,hret,rfl⟩ := Manager.pthread_join_some hj
  have htracked : tracked ⟨pc,m⟩ = m.threadManager := by simp [tracked,ha]
  have htracked' : tracked ⟨pc',m.setWorker k { w with pc := .joined }⟩ = m.threadManager := by
    simp [tracked,ha',Manager.setWorker]
  have hk : k ∈ m.threadManager := by
    rw [← htracked]
    exact h.running k w hw (by simp [hret])
  have hkid : m.idOf k = some id := by
    obtain ⟨w',hw',hid',-⟩ := h.tracked k (by rw [htracked]; exact hk)
    rw [hw] at hw'
    cases hw'
    rw [hid',hwid]
  obtain rfl : k = p := same_id (listed_ids h) hk hp (hkid.trans hid.symm)
  have hself : (m.setWorker k { w with pc := .joined }).workers k = some { w with pc := .joined } :=
    Function.update_self ..
  have hother {j : ℕ} (hne : j ≠ k) :
      (m.setWorker k { w with pc := .joined }).workers j = m.workers j := Function.update_of_ne hne ..
  have hsame : (m.setWorker k { w with pc := .joined }).idOf = m.idOf := rfl
  constructor
  · intro q hq
    obtain ⟨h₁,h₂⟩ := h.fresh q hq
    have hne : q ≠ k := by
      rintro rfl
      rw [hw] at h₂
      cases h₂
    exact ⟨h₁,(hother hne).trans h₂⟩
  · rw [htracked']
    change (m.threadManager.map m.idOf).Nodup
    exact listed_ids h
  · rw [htracked',hd']
    intro q hq
    obtain ⟨v,hv,hvid,hvj⟩ := h.tracked q (by rw [htracked]; exact hq)
    by_cases hne : q = k
    · subst hne
      rw [hw] at hv
      cases hv
      exact ⟨_,hself,hvid,fun _ => List.mem_singleton_self _⟩
    · refine ⟨v,(hother hne).trans hv,hvid,fun hj => ?_⟩
      have := hvj hj
      simp [hd] at this
  · rw [htracked']
    intro j v hv hvj
    by_cases hne : j = k
    · subst hne
      exact hk
    · rw [← htracked]
      exact h.running j v ((hother hne).symm.trans hv) hvj
  · intro j v hv
    by_cases hne : j = k
    · subst hne
      rw [hself] at hv
      cases hv
      exact ⟨by simp,fun _ => (h.locals j w hw).2 (by simp [hret])⟩
    · exact h.locals j v ((hother hne).symm.trans hv)
  · simp only [hc']
    intro q hq
    rw [List.mem_singleton.mp hq]
    exact hk
  · simp only [hd']
    intro q hq
    rw [List.mem_singleton.mp hq]
    exact ⟨_,hself,rfl⟩
  · simp [hr']
  · simp [hs']

theorem remove_found (h : Inv ⟨pc,m⟩) (hp : p ∈ m.threadManager) (hid : m.idOf p = some id) :
    m.threadEntryRemove id = (0,(m.unlink p).threadEntryFree p) := by
  rw [Manager.threadEntryRemove,find_entry_some (listed_ids h) hp hid]

theorem removed_inv (h : Inv ⟨pc,m⟩) (hp : p ∈ m.threadManager) (ha : pc.adding = [])
    (hd : pc.dying = [p]) (hid : m.idOf p = some id) (ha' : pc'.adding = []) (hd' : pc'.dying = [])
    (hc' : ∀ q ∈ pc'.current, q ∈ m.threadManager ∧ q ≠ p) (hr' : pc'.removal = none)
    (hs' : pc'.spawning = none) : Inv ⟨pc',(m.threadEntryRemove id).2⟩ := by
  rw [remove_found h hp hid]
  have hn := listed_nodup h
  have htracked : tracked ⟨pc,m⟩ = m.threadManager := by simp [tracked,ha]
  have htracked' : tracked ⟨pc',(m.unlink p).threadEntryFree p⟩ = m.threadManager.erase p := by
    simp [tracked,ha',Manager.unlink,Manager.threadEntryFree,Manager.setEntry]
  have hother {q : ℕ} (hne : q ≠ p) : ((m.unlink p).threadEntryFree p).idOf q = m.idOf q := by
    simp [Manager.idOf,Manager.unlink,Manager.threadEntryFree,Manager.setEntry,
      Function.update_of_ne hne]
  have hgone : ((m.unlink p).threadEntryFree p).idOf p = none := by
    simp [Manager.idOf,Manager.unlink,Manager.threadEntryFree,Manager.setEntry]
  have hmem {q : ℕ} : q ∈ m.threadManager.erase p ↔ q ≠ p ∧ q ∈ m.threadManager := hn.mem_erase_iff
  obtain ⟨v,hv,hvj⟩ := h.dying p (by rw [hd]; exact List.mem_singleton_self _)
  constructor
  · intro q hq
    obtain ⟨h₁,h₂⟩ := h.fresh q hq
    by_cases hne : q = p
    · subst hne
      exact ⟨hgone,h₂⟩
    · exact ⟨(hother hne).trans h₁,h₂⟩
  · rw [htracked',List.map_congr_left fun q hq => hother (hmem.mp hq).1]
    exact (listed_ids h).sublist (List.erase_sublist.map _)
  · rw [htracked']
    intro q hq
    obtain ⟨hne,hq⟩ := hmem.mp hq
    obtain ⟨w,hw,hwid,hj⟩ := h.tracked q (by rw [htracked]; exact hq)
    refine ⟨w,hw,(hother hne).trans hwid,fun hpc => ?_⟩
    have := hj hpc
    rw [hd,List.mem_singleton] at this
    exact absurd this hne
  · rw [htracked']
    intro k w hw hpc
    refine hmem.mpr ⟨?_,htracked ▸ h.running k w hw hpc⟩
    rintro rfl
    rw [show m.workers k = some w from hw] at hv
    cases hv
    exact hpc hvj
  · exact h.locals
  · intro q hq
    obtain ⟨hq,hne⟩ := hc' q hq
    exact hmem.mpr ⟨hne,hq⟩
  · simp [hd']
  · simp [hr']
  · simp [hs']

theorem numbered_inv {fd : ℕ} {ip : Bytes} {dataFd : ℕ} (h : Inv ⟨.create fd ip dataFd,m⟩) :
    Inv ⟨.accept,{ m with next := m.next + 1 }⟩ := by
  refine ⟨fun q hq => h.fresh q (Nat.le_of_succ_le hq),h.ids,fun q hq => ?_,h.running,h.locals,
    by simp [MainPc.current],by simp [MainPc.dying],by simp [MainPc.removal],
    by simp [MainPc.spawning]⟩
  obtain ⟨w,hw,hid,hj⟩ := h.tracked q hq
  exact ⟨w,hw,hid,hj⟩

theorem created_inv {fd : ℕ} {ip : Bytes} {dataFd : ℕ} (h : Inv ⟨.create fd ip dataFd,m⟩)
    (e : ThreadEntry) :
    Inv ⟨.spawn fd m.next,{ m.setEntry m.next (some e) with next := m.next + 1 }⟩ := by
  have hother {q : ℕ} (hne : q ≠ m.next) :
      Manager.idOf { m.setEntry m.next (some e) with next := m.next + 1 } q = m.idOf q := by
    simp [Manager.idOf,Manager.setEntry,Function.update_of_ne hne]
  have hnew {q : ℕ} (hq : q ∈ m.threadManager) : q ≠ m.next :=
    tracked_ne h hq (h.fresh m.next (Nat.le_refl _)).2
  constructor
  · intro q hq
    have hlt : m.next + 1 ≤ q := hq
    rw [hother (by omega)]
    exact h.fresh q (by simp only; omega)
  · have hids : (m.threadManager.map
        (Manager.idOf { m.setEntry m.next (some e) with next := m.next + 1 })).Nodup := by
      rw [List.map_congr_left fun q hq => hother (hnew hq)]
      exact listed_ids h
    exact hids
  · intro q hq
    obtain ⟨w,hw,hid,hj⟩ := h.tracked q hq
    exact ⟨w,hw,(hother (hnew hq)).trans hid,hj⟩
  · exact h.running
  · exact h.locals
  · simp [MainPc.current]
  · simp [MainPc.dying]
  · simp [MainPc.removal]
  · intro q hq
    cases hq
    refine ⟨by simp [Manager.idOf,Manager.setEntry],(h.fresh m.next (Nat.le_refl _)).2,?_⟩
    exact Nat.lt_succ_self _

theorem spawn_failed_inv {fd : ℕ} (h : Inv ⟨.spawn fd p,m⟩) :
    Inv ⟨.accept,(m.close fd).threadEntryFree p⟩ := by
  have hworker : m.workers p = none := (h.spawning p rfl).2.1
  have hother {q : ℕ} (hne : q ≠ p) : ((m.close fd).threadEntryFree p).idOf q = m.idOf q := by
    simp [Manager.idOf,Manager.threadEntryFree,Manager.setEntry,Manager.close,
      Function.update_of_ne hne]
  have hnew {q : ℕ} (hq : q ∈ m.threadManager) : q ≠ p := tracked_ne h hq hworker
  constructor
  · intro q hq
    obtain ⟨h₁,h₂⟩ := h.fresh q hq
    refine ⟨?_,h₂⟩
    by_cases hne : q = p
    · simp [Manager.idOf,Manager.threadEntryFree,Manager.setEntry,hne]
    · exact (hother hne).trans h₁
  · have hids : (m.threadManager.map ((m.close fd).threadEntryFree p).idOf).Nodup := by
      rw [List.map_congr_left fun q hq => hother (hnew hq)]
      exact listed_ids h
    exact hids
  · intro q hq
    obtain ⟨w,hw,hid,hj⟩ := h.tracked q hq
    exact ⟨w,hw,(hother (hnew hq)).trans hid,hj⟩
  · exact h.running
  · exact h.locals
  · simp [MainPc.current]
  · simp [MainPc.dying]
  · simp [MainPc.removal]
  · simp [MainPc.spawning]

theorem spawned_inv {fd : ℕ} (h : Inv ⟨.spawn fd p,m⟩)
    (hid : ∀ k < m.next, m.liveThread id k = false) :
    Inv ⟨.addLock p,(m.setEntry p ((m.entries p).map fun e => { e with threadId := id })).setWorker
      p ⟨.start,id,0,0⟩⟩ := by
  set m' := (m.setEntry p ((m.entries p).map fun e => { e with threadId := id })).setWorker
    p ⟨.start,id,0,0⟩ with hm'
  obtain ⟨hlive,hworker,hlt⟩ := h.spawning p rfl
  have hself : m'.workers p = some ⟨.start,id,0,0⟩ := Function.update_self ..
  have hwother {q : ℕ} (hne : q ≠ p) : m'.workers q = m.workers q := Function.update_of_ne hne ..
  have hidself : m'.idOf p = some id := by
    obtain ⟨n,hn⟩ := Option.isSome_iff_exists.mp hlive
    obtain ⟨e,he,-⟩ := Option.map_eq_some_iff.mp hn
    simp [hm',Manager.idOf,Manager.setEntry,Manager.setWorker,show m.entries p = some e from he]
  have hother {q : ℕ} (hne : q ≠ p) : m'.idOf q = m.idOf q := by
    simp [hm',Manager.idOf,Manager.setEntry,Manager.setWorker,Function.update_of_ne hne]
  have hnew {q : ℕ} (hq : q ∈ m.threadManager) : q ≠ p := tracked_ne h hq hworker
  have hfresh : some id ∉ m.threadManager.map m.idOf := by
    intro hmem
    obtain ⟨q,hq,hqid⟩ := List.mem_map.mp hmem
    obtain ⟨w,hw,hwid,hj⟩ := h.tracked q hq
    have hqlt : q < m.next := by
      by_contra hge
      have := (h.fresh q (by simpa using hge)).2
      rw [this] at hw
      cases hw
    have heq : w.id = id := Option.some.inj (hwid.symm.trans hqid)
    have hpc : w.pc ≠ .joined := fun hpc => by simpa [MainPc.dying] using hj hpc
    have hno := hid q hqlt
    rw [Bool.eq_false_iff] at hno
    exact hno (Manager.live_thread_iff.mpr ⟨w,hw,hpc,heq⟩)
  have hmap : m.threadManager.map m'.idOf = m.threadManager.map m.idOf :=
    List.map_congr_left fun q hq => hother (hnew hq)
  constructor
  · intro q hq
    have hge : m.next ≤ q := hq
    have hne : q ≠ p := Nat.ne_of_gt (Nat.lt_of_lt_of_le hlt hge)
    rw [hother hne,hwother hne]
    exact h.fresh q hge
  · have hids : (m'.idOf p :: m.threadManager.map m'.idOf).Nodup := by
      rw [hidself,hmap]
      exact List.nodup_cons.mpr ⟨hfresh,listed_ids h⟩
    exact hids
  · intro q hq
    rcases List.mem_cons.mp (show q ∈ p :: m.threadManager from hq) with rfl | hq
    · exact ⟨_,hself,hidself,by simp⟩
    · obtain ⟨w,hw,hwid,hj⟩ := h.tracked q hq
      exact ⟨w,(hwother (hnew hq)).trans hw,(hother (hnew hq)).trans hwid,hj⟩
  · intro k w hw hpc
    by_cases hne : k = p
    · subst hne
      exact List.mem_cons_self ..
    · have hk : k ∈ m.threadManager := h.running k w ((hwother hne).symm.trans hw) hpc
      exact List.mem_cons_of_mem _ hk
  · intro k w hw
    by_cases hne : k = p
    · subst hne
      rw [hself] at hw
      cases hw
      simp
    · exact h.locals k w ((hwother hne).symm.trans hw)
  · simp [MainPc.current]
  · simp [MainPc.dying]
  · simp [MainPc.removal]
  · simp [MainPc.spawning]

theorem main_inv {l : Label} (h : Inv s)
    (hm : MainMove s.manager s.main l s'.main s'.manager) : Inv s' := by
  obtain ⟨pc,m⟩ := s
  obtain ⟨pc',m'⟩ := s'
  simp only at hm
  cases hm with
  | refused | accepted | openFailed | opened | mallocFailed | addUnlocked | addLocked
  | printLocked | printed | scanned | freeallCalled | inserted =>
    exact h.quiet rfl rfl rfl rfl rfl (by simp [MainPc.current]) (by simp [MainPc.removal])
      (by simp [MainPc.spawning])
  | printUnlocked =>
    refine h.quiet rfl rfl rfl rfl rfl ?_ (by simp [MainPc.removal]) (by simp [MainPc.spawning])
    exact fun q hq => List.mem_of_head? (MainPc.scan_current hq)
  | found =>
    exact h.quiet rfl rfl rfl rfl rfl h.current (by simp [MainPc.removal]) (by simp [MainPc.spawning])
  | @passed entry =>
    refine h.quiet rfl rfl rfl rfl rfl ?_ (by simp [MainPc.removal]) (by simp [MainPc.spawning])
    exact fun q hq => successor_listed (MainPc.scan_current hq)
  | dataClosed =>
    exact h.quiet rfl rfl rfl rfl rfl h.current (by simp [MainPc.removal]) (by simp [MainPc.spawning])
  | @removeLocked entry e he =>
    refine h.quiet rfl rfl rfl rfl rfl h.current ?_ (by simp [MainPc.spawning])
    intro q id hq
    cases hq
    simp [Manager.idOf,he]
  | @removeUnlocked following =>
    refine h.quiet rfl rfl rfl rfl (by cases following <;> rfl) ?_ (by cases following <;> simp [MainPc.removal])
      (by cases following <;> simp [MainPc.spawning])
    cases following with
    | none => simp [MainPc.current]
    | some entry => exact h.current
  | strdupFailed => exact numbered_inv h
  | created => exact created_inv h _
  | spawnFailed => exact spawn_failed_inv h
  | spawned hid => exact spawned_inv h hid
  | @joined entry e m' he hj =>
    have hid : m.idOf entry = some e.threadId := by simp [Manager.idOf,he]
    exact joined_inv h (h.current entry (by simp [MainPc.current])) rfl rfl hid hj rfl rfl rfl rfl rfl
  | @removed entry threadId =>
    have hp := h.current entry (by simp [MainPc.current])
    refine removed_inv h hp rfl rfl (h.removal entry threadId rfl) rfl rfl ?_ rfl rfl
    intro q hq
    have hl := MainPc.unlock_current hq
    exact ⟨successor_listed hl,successor_ne (listed_nodup h) hl⟩
  | freeing hm =>
    cases hm with
    | finished | unlocked =>
      exact h.quiet rfl rfl rfl rfl rfl (by simp [MainPc.current]) (by simp [MainPc.removal])
        (by simp [MainPc.spawning])
    | first hl =>
      refine h.quiet rfl rfl rfl rfl rfl ?_ (by simp [MainPc.removal]) (by simp [MainPc.spawning])
      intro q hq
      rw [List.mem_singleton.mp hq]
      exact List.mem_of_head? hl
    | @joined entry e m' he hj =>
      have hid : m.idOf entry = some e.threadId := by simp [Manager.idOf,he]
      exact joined_inv h (h.current entry (by simp [MainPc.current])) rfl rfl hid hj rfl rfl rfl rfl
        rfl
    | @locked entry e he =>
      refine h.quiet rfl rfl rfl rfl rfl h.current ?_ (by simp [MainPc.spawning])
      intro q id hq
      cases hq
      simp [Manager.idOf,he]
    | @removed entry threadId =>
      exact removed_inv h (h.current entry (by simp [MainPc.current])) rfl rfl
        (h.removal entry threadId rfl) rfl rfl (by simp [MainPc.current]) rfl rfl

theorem server_step_inv {l : Label} (h : Inv s) (hs : serverStep s l = some s') : Inv s' := by
  cases server_step_move hs with
  | worker _ hw hm hpc =>
    obtain ⟨w',hk⟩ := worker_kept h hw hm
    exact hk.inv h hw hpc
  | main hm => exact main_inv h hm

theorem server_start_inv : Inv serverStart where
  fresh _ _ := ⟨rfl,rfl⟩
  ids := List.nodup_nil
  tracked := by simp [tracked,serverStart,MainPc.adding,initializeServer]
  running := by simp [serverStart,initializeServer]
  locals := by simp [serverStart,initializeServer]
  current := by simp [serverStart,MainPc.current]
  dying := by simp [serverStart,MainPc.dying]
  removal := by simp [serverStart,MainPc.removal]
  spawning := by simp [serverStart,MainPc.spawning]

theorem server_run_inv {ls : List Label} (hr : Runs.run serverStep serverStart ls = some s) :
    Inv s := Runs.run_invariant (fun _ _ _ h hs => server_step_inv h hs) server_start_inv hr

end MainSteps

end ThreadManager
