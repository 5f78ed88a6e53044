import Aesd.Server.EntryLifetime

namespace ThreadManager
open Kernel

def WorkerPc.reported : WorkerPc → Bool
  | .markUnlock | .closing | .returned | .joined => true
  | _ => false

namespace Manager

def completed (m : Manager) (p : ℕ) : Bool := (m.entries p).any (·.isComplete)

def reaped (m : Manager) (p : ℕ) : Prop :=
  (∃ w, m.workers p = some w ∧ w.pc = .joined) ∧ p ∉ m.threadManager ∧ m.entries p = none

end Manager

-- every worker past its report whose entry main is not still adding
def Recorded (s : Server) : Prop :=
  ∀ k w, s.manager.workers k = some w → w.pc.reported = true → k ∉ s.main.adding →
    k ∈ s.manager.threadManager ∧ s.manager.completed k = true ∨ s.manager.reaped k

def Pending (s : Server) : Prop :=
  ∀ p, p ∈ s.main.adding ∨ s.main.spawning = some p → s.manager.completed p = false

-- thread_entry_add inserts an entry whose worker has not searched the list yet
def insertedFirst (s : Server) (l : Label) : Prop :=
  l = .main → ∀ p, s.main = .addInsert p → ∀ w, s.manager.workers p = some w →
    w.pc.reported = false

instance (s : Server) (l : Label) : Decidable (insertedFirst s l) :=
  decidable_of_iff (l = .main → ∀ p ∈ s.main.adding, s.main = .addInsert p →
      (s.manager.workers p).all (fun w => !w.pc.reported) = true) (by
    refine imp_congr_right fun _ => forall_congr' fun p => ⟨fun h hp w hw => ?_,fun h _ hp => ?_⟩
    · simpa [hw] using h (by simp [hp,MainPc.adding]) hp
    · cases hw : s.manager.workers p with
      | none => rfl
      | some w => simpa using h hp w hw)

section Reports
variable {m m' : Manager} {s s' : Server} {k p : ℕ} {w : Worker}

theorem completed_marked (m : Manager) (p q : ℕ) :
    (m.setEntry p ((m.entries p).map fun e => { e with isComplete := true })).completed q =
      (m.completed q || (decide (q = p) && (m.entries p).isSome)) := by
  by_cases hq : q = p
  · subst hq
    cases he : m.entries q <;> simp [Manager.completed,Manager.setEntry,he]
  · simp [Manager.completed,Manager.setEntry,hq]

theorem markcomplete_completed {id : ℕ} (h : m.completed p = true) :
    (m.threadEntryMarkcomplete id).2.completed p = true := by
  rcases Manager.markcomplete_cases m id with heq | ⟨q,-,heq⟩
  · rw [heq,h]
  · rw [heq,completed_marked,h,Bool.true_or]

theorem markcomplete_freed {id : ℕ} (h : m.entries p = none) :
    (m.threadEntryMarkcomplete id).2.entries p = none := by
  rcases Manager.markcomplete_cases m id with heq | ⟨q,-,heq⟩
  · rw [heq,h]
  · rw [heq]
    by_cases hq : p = q
    · subst hq
      simp [Manager.setEntry,h]
    · simp [Manager.setEntry,Function.update_of_ne hq,h]

theorem markcomplete_unlisted {id : ℕ} (h : p ∉ m.threadManager) :
    (m.threadEntryMarkcomplete id).2.completed p = m.completed p := by
  rcases Manager.markcomplete_cases m id with heq | ⟨q,hq,heq⟩
  · rw [heq]
  · have hne : p ≠ q := fun he => h (he ▸ (find_entry_mem hq).1)
    rw [heq,completed_marked]
    simp [hne]

theorem markcomplete_found (hn : (m.threadManager.map m.idOf).Nodup) (hp : p ∈ m.threadManager)
    {id : ℕ} (hid : m.idOf p = some id) :
    (m.threadEntryMarkcomplete id).2.completed p = true := by
  obtain ⟨e,he,-⟩ := Option.map_eq_some_iff.mp hid
  rw [Manager.threadEntryMarkcomplete,find_entry_some hn hp hid,completed_marked]
  simp [he]

theorem worker_entries (hm : WorkerMove m k w m') : m'.entries = m.entries ∨
    w.pc = .marking ∧ m'.entries = (m.threadEntryMarkcomplete w.threadId).2.entries := by
  cases hm with
  | marked hpc => exact Or.inr ⟨hpc,rfl⟩
  | started | startedFreed | served | left | leftFreed | markLocked | markUnlocked | closed =>
    exact Or.inl rfl

theorem worker_completed (hm : WorkerMove m k w m') (h : m.completed p = true) :
    m'.completed p = true := by
  unfold Manager.completed
  rcases worker_entries hm with he | ⟨-,he⟩
  · rw [he]
    exact h
  · rw [he]
    exact markcomplete_completed h

theorem worker_freed (hm : WorkerMove m k w m') (h : m.entries p = none) :
    m'.entries p = none := by
  rcases worker_entries hm with he | ⟨-,he⟩
  · rw [he,h]
  · rw [he]
    exact markcomplete_freed h

theorem worker_unlisted (hm : WorkerMove m k w m') (h : p ∉ m.threadManager) :
    m'.completed p = m.completed p := by
  unfold Manager.completed
  rcases worker_entries hm with he | ⟨-,he⟩
  · rw [he]
  · rw [he]
    exact markcomplete_unlisted h

theorem worker_reports (h : Inv s) (hw : s.manager.workers k = some w)
    (hm : WorkerMove s.manager k w m') (hpc : w.pc = .marking) (hk : k ∉ s.main.adding) :
    k ∈ s.manager.threadManager ∧ m'.completed k = true := by
  have htracked : k ∈ tracked s := h.running k w hw (by simp [hpc])
  have hlisted : k ∈ s.manager.threadManager := (List.mem_append.mp htracked).resolve_left hk
  have hid : s.manager.idOf k = some w.threadId := by
    obtain ⟨v,hv,hvid,-⟩ := h.tracked k htracked
    rw [hw] at hv
    cases hv
    rw [hvid,(h.locals k w hw).2 (by simp [hpc])]
  refine ⟨hlisted,?_⟩
  cases hm with
  | marked => exact markcomplete_found (listed_ids h) hlisted hid
  | started hpc' | startedFreed hpc' | served hpc' | left hpc' | leftFreed hpc' | markLocked hpc'
  | markUnlocked hpc' | closed hpc' =>
    rw [hpc] at hpc'
    cases hpc'

theorem worker_reported {w' : Worker} (hm : WorkerMove m k w m') (hw' : m'.workers k = some w')
    (hr : w'.pc.reported = true) : w.pc = .marking ∨ w.pc.reported = true := by
  cases hm with
  | marked hpc => exact Or.inl hpc
  | markUnlocked hpc | closed hpc => exact Or.inr (by rw [hpc]; rfl)
  | started | startedFreed | served | left | leftFreed | markLocked =>
    simp only [Manager.setWorker,Function.update_self,Option.some.injEq] at hw'
    subst hw'
    cases hr

theorem worker_reaped {w' : Worker} (hk : Kept m m' k w w') (hw : m.workers k = some w)
    (hm : WorkerMove m k w m') (h : m.reaped p) : m'.reaped p := by
  obtain ⟨⟨v,hv,hj⟩,hl,hf⟩ := h
  have hne : p ≠ k := by
    rintro rfl
    rw [hw] at hv
    cases hv
    exact hk.unjoined.1 hj
  refine ⟨⟨v,?_,hj⟩,hk.listed ▸ hl,worker_freed hm hf⟩
  rw [hk.workers,Function.update_of_ne hne,hv]

theorem worker_recorded (hi : Inv s) (h : Recorded s) (hw : s.manager.workers k = some w)
    (hm : WorkerMove s.manager k w s'.manager) (hpc : s'.main = s.main) : Recorded s' := by
  obtain ⟨w',hk⟩ := worker_kept hi hw hm
  have hother {j : ℕ} (hj : j ≠ k) : s'.manager.workers j = s.manager.workers j := by
    rw [hk.workers,Function.update_of_ne hj]
  have hkeep {j : ℕ} (hj : j ∈ s.manager.threadManager ∧ s.manager.completed j = true ∨
      s.manager.reaped j) :
      j ∈ s'.manager.threadManager ∧ s'.manager.completed j = true ∨ s'.manager.reaped j := by
    rcases hj with ⟨hl,hc⟩ | hj
    · exact Or.inl ⟨hk.listed ▸ hl,worker_completed hm hc⟩
    · exact Or.inr (worker_reaped hk hw hm hj)
  intro j v hv hr hadd
  rw [hpc] at hadd
  by_cases hne : j = k
  · subst hne
    rcases worker_reported hm hv hr with hmark | hr
    · obtain ⟨hl,hc⟩ := worker_reports hi hw hm hmark hadd
      exact Or.inl ⟨hk.listed ▸ hl,hc⟩
    · exact hkeep (h j w hw hr hadd)
  · rw [hother hne] at hv
    exact hkeep (h j v hv hr hadd)

end Reports

section Steps
variable {m m' : Manager} {s s' : Server} {pc pc' : MainPc} {k p id : ℕ} {w : Worker}

theorem Recorded.quiet (h : Recorded s) (ha : s'.main.adding = s.main.adding)
    (hw : s'.manager.workers = s.manager.workers)
    (hl : s'.manager.threadManager = s.manager.threadManager)
    (he : ∀ k, s.manager.workers k ≠ none → s'.manager.entries k = s.manager.entries k) :
    Recorded s' := by
  intro k w hwk hr hk
  rw [hw] at hwk
  rw [ha] at hk
  have hek := he k (by simp [hwk])
  rw [Manager.completed,Manager.reaped,hl,hw,hek]
  exact h k w hwk hr hk

theorem spawned_recorded {fd : ℕ} (h : Recorded ⟨.spawn fd p,m⟩) (e : Option ThreadEntry) :
    Recorded ⟨.addLock p,(m.setEntry p e).setWorker p ⟨.start,id,0,0⟩⟩ := by
  intro k w hw hr hk
  have hne : k ≠ p := fun he => hk (he ▸ List.mem_singleton_self _)
  have hworker : m.workers k = some w := by
    simpa [Manager.setWorker,Manager.setEntry,Function.update_of_ne hne] using hw
  have hk := h k w hworker hr (by simp [MainPc.adding])
  simpa [Manager.setEntry,Manager.setWorker,Manager.completed,Manager.reaped,
    Function.update_of_ne hne] using hk

theorem joined_recorded (h : Recorded ⟨pc,m⟩) (ha : pc.adding = [])
    (hj : m.pthreadJoin id = some m') : Recorded ⟨pc',m'⟩ := by
  obtain ⟨j,v,hv,-,hret,rfl⟩ := Manager.pthread_join_some hj
  intro k w hw hr hk
  by_cases hne : k = j
  · subst hne
    rcases h k v hv (by rw [hret]; rfl) (by simp [ha]) with hl | ⟨⟨v',hv',hj'⟩,-⟩
    · exact Or.inl hl
    · rw [show m.workers k = some v' from hv'] at hv
      cases hv
      rw [hret] at hj'
      cases hj'
  · have hworker : m.workers k = some w := by
      simpa [Manager.setWorker,Function.update_of_ne hne] using hw
    simpa [Manager.setWorker,Manager.completed,Manager.reaped,Function.update_of_ne hne] using
      h k w hworker hr (by simp [ha])

theorem removed_recorded (hi : Inv ⟨pc,m⟩) (h : Recorded ⟨pc,m⟩) (ha : pc.adding = [])
    (hr : pc.removal = some (p,id)) :
    Recorded ⟨pc',(m.threadEntryRemove id).2⟩ := by
  obtain ⟨hcurrent,hdying⟩ := removal_current hr
  have hp : p ∈ m.threadManager := hi.current p (by simp [hcurrent])
  have hn := listed_nodup hi
  obtain ⟨v,hv,hj⟩ := hi.dying p (by simp [hdying])
  rw [remove_found hi hp (hi.removal p id hr)]
  intro k w hw hrep hk
  by_cases hne : k = p
  · subst hne
    refine Or.inr ⟨⟨v,hv,hj⟩,fun hmem => (hn.mem_erase_iff.mp hmem).1 rfl,?_⟩
    simp [Manager.threadEntryFree,Manager.setEntry]
  · have hmem : k ∈ m.threadManager.erase p ↔ k ∈ m.threadManager := by
      rw [hn.mem_erase_iff,and_iff_right hne]
    have hk := h k w hw hrep (by simp [ha])
    simpa [Manager.threadEntryFree,Manager.setEntry,Manager.unlink,Manager.completed,
      Manager.reaped,Function.update_of_ne hne,hmem] using hk

theorem inserted_recorded_iff (hi : Inv ⟨.addInsert p,m⟩) (hp : Pending ⟨.addInsert p,m⟩)
    (h : Recorded ⟨.addInsert p,m⟩) : Recorded ⟨.addUnlock,m.threadEntryAdd p⟩ ↔
      ∀ w, m.workers p = some w → w.pc.reported = false := by
  have hpending : m.completed p = false := hp p (Or.inl (List.mem_singleton_self _))
  constructor
  · intro hrec w hw
    by_contra hr
    rw [Bool.not_eq_false] at hr
    rcases hrec p w hw hr (by simp [MainPc.adding]) with ⟨-,hc⟩ | ⟨-,hl,-⟩
    · rw [show (m.threadEntryAdd p).completed p = m.completed p from rfl,hpending] at hc
      cases hc
    · exact hl (List.mem_cons_self ..)
  · intro hw k w hk hr _
    have hne : k ≠ p := by
      rintro rfl
      rw [hw w hk] at hr
      cases hr
    rcases h k w hk hr (by simpa [MainPc.adding] using hne) with ⟨hl,hc⟩ | ⟨hj,hl,hf⟩
    · exact Or.inl ⟨List.mem_cons_of_mem _ hl,hc⟩
    · refine Or.inr ⟨hj,fun hmem => ?_,hf⟩
      rcases List.mem_cons.mp hmem with he | hmem
      · exact hne he
      · exact hl hmem

theorem insertedFirst_of_ne {l : Label} (h : ∀ p, s.main ≠ .addInsert p) : insertedFirst s l :=
  fun _ p hp => absurd hp (h p)

theorem main_recorded_iff {l : Label} (hi : Inv s) (hp : Pending s) (h : Recorded s)
    (hm : MainMove s.manager s.main l s'.main s'.manager) : Recorded s' ↔ insertedFirst s l := by
  obtain ⟨pc,m⟩ := s
  obtain ⟨pc',m'⟩ := s'
  simp only at hm
  cases hm with
  | inserted =>
    rw [inserted_recorded_iff hi hp h]
    exact ⟨fun hw _ p hp => by cases hp; exact hw,fun hw => hw rfl _ rfl⟩
  | refused | accepted | openFailed | opened | mallocFailed | strdupFailed | addUnlocked | addLocked
  | printLocked | printed | printUnlocked | scanned | found | passed | dataClosed | removeLocked
  | removeUnlocked | freeallCalled =>
    refine iff_of_true ?_ (insertedFirst_of_ne (by simp))
    exact h.quiet rfl rfl rfl fun _ _ => rfl
  | created =>
    refine iff_of_true ?_ (insertedFirst_of_ne (by simp))
    refine h.quiet rfl rfl rfl fun k hk => ?_
    have hne : k ≠ m.next := fun he => hk (he ▸ (hi.fresh m.next (Nat.le_refl _)).2)
    simp [Manager.setEntry,hne]
  | @spawnFailed fd entry =>
    refine iff_of_true ?_ (insertedFirst_of_ne (by simp))
    refine h.quiet rfl rfl rfl fun k hk => ?_
    have hne : k ≠ entry := fun he => hk (he ▸ (hi.spawning entry rfl).2.1)
    simp [Manager.threadEntryFree,Manager.setEntry,Manager.close,hne]
  | @spawned fd entry id hid =>
    refine iff_of_true ?_ (insertedFirst_of_ne (by simp))
    exact spawned_recorded h _
  | joined he hj =>
    exact iff_of_true (joined_recorded h rfl hj) (insertedFirst_of_ne (by simp))
  | removed =>
    exact iff_of_true (removed_recorded hi h rfl rfl) (insertedFirst_of_ne (by simp))
  | freeing hm =>
    refine iff_of_true ?_ (insertedFirst_of_ne (by simp))
    cases hm with
    | finished | first | locked | unlocked => exact h.quiet rfl rfl rfl fun _ _ => rfl
    | joined he hj => exact joined_recorded h rfl hj
    | removed => exact removed_recorded hi h rfl rfl

theorem server_step_recorded_iff {l : Label} (hi : Inv s) (hp : Pending s) (h : Recorded s)
    (hs : serverStep s l = some s') : Recorded s' ↔ insertedFirst s l := by
  cases server_step_move hs with
  | worker hl hw hm hpc =>
    refine iff_of_true (worker_recorded hi h hw hm hpc) fun hmain => ?_
    rw [hl] at hmain
    cases hmain
  | main hm => exact main_recorded_iff hi hp h hm

theorem worker_pending (hi : Inv s) (h : Pending s)
    (hm : WorkerMove s.manager k w s'.manager) (hpc : s'.main = s.main) : Pending s' := by
  intro p hp
  rw [hpc] at hp
  have hunlisted : p ∉ s.manager.threadManager := by
    rcases hp with hp | hp
    · have hnodup : (tracked s).Nodup := hi.ids.of_map _
      exact fun hl => (List.nodup_append.mp hnodup).2.2 p hp p hl rfl
    · intro hl
      obtain ⟨v,hv,-,-⟩ := hi.tracked p (List.mem_append_right _ hl)
      rw [(hi.spawning p hp).2.1] at hv
      cases hv
  rw [worker_unlisted hm hunlisted]
  exact h p hp

theorem Pending.idle (ha : s.main.adding = []) (hs : s.main.spawning = none) : Pending s := by
  intro p hp
  rw [ha,hs] at hp
  simp at hp

theorem main_pending {l : Label} (h : Pending s)
    (hm : MainMove s.manager s.main l s'.main s'.manager) : Pending s' := by
  obtain ⟨pc,m⟩ := s
  obtain ⟨pc',m'⟩ := s'
  simp only at hm
  cases hm with
  | refused | accepted | openFailed | opened | mallocFailed | strdupFailed | spawnFailed | inserted
  | addUnlocked | printLocked | printed | printUnlocked | scanned | found | passed | joined
  | dataClosed | removeLocked | removed | removeUnlocked | freeallCalled | freeing =>
    exact .idle rfl rfl
  | created =>
    intro p hp
    have hp : m.next = p := by simpa [MainPc.adding,MainPc.spawning] using hp
    subst hp
    simp [Manager.completed,Manager.setEntry]
  | @spawned fd entry id hid =>
    intro p hp
    have hp : p = entry := by simpa [MainPc.adding,MainPc.spawning] using hp
    subst hp
    have hold : m.completed p = false := h p (Or.inr rfl)
    cases he : m.entries p with
    | none => simp [Manager.completed,Manager.setEntry,Manager.setWorker]
    | some e => simpa [Manager.completed,Manager.setEntry,Manager.setWorker,he] using hold
  | @addLocked entry =>
    intro p hp
    exact h p hp

theorem server_step_pending {l : Label} (hi : Inv s) (h : Pending s)
    (hs : serverStep s l = some s') : Pending s' := by
  cases server_step_move hs with
  | worker _ _ hm hpc => exact worker_pending hi h hm hpc
  | main hm => exact main_pending h hm

theorem server_run_pending {ls : List Label} (hr : Runs.run serverStep serverStart ls = some s) :
    Inv s ∧ Pending s :=
  Runs.run_invariant (I := fun s => Inv s ∧ Pending s)
    (fun _ _ _ h hs => ⟨server_step_inv h.1 hs,server_step_pending h.1 h.2 hs⟩)
    ⟨server_start_inv,.idle rfl rfl⟩ hr

theorem server_start_recorded : Recorded serverStart := by
  intro k w hw
  cases hw

theorem recorded_iff_along {ls : List Label} (hr : Runs.run serverStep serverStart ls = some s) :
    (∀ done, done <+: ls → ∀ m, Runs.run serverStep serverStart done = some m → Recorded m) ↔
      Runs.Along serverStep insertedFirst serverStart ls :=
  Runs.prefixes_iff_along (I := fun _ s => Recorded s) server_start_recorded
    (fun _ _ _ _ hrun h hs =>
      have hp := server_run_pending hrun
      server_step_recorded_iff hp.1 hp.2 h hs) hr

end Steps

end ThreadManager
