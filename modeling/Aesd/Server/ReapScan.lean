import Aesd.Server.Completion

namespace ThreadManager
open Kernel

-- the entries that the scan has still to visit, while main is in it
def scanRest (m : Manager) : MainPc → Option (List ℕ)
  | .printUnlock => some m.threadManager
  | .scan (some entry) | .join entry | .closeData entry | .removeLock entry | .removing entry _
  | .removeUnlock (some entry) => some (m.threadManager.dropWhile (· ≠ entry))
  | .scan none | .removeUnlock none | .accept => some []
  | _ => none

def Covers (found : List ℕ) (s : Server) : Prop :=
  ∃ rest, scanRest s.manager s.main = some rest ∧
    ∀ k ∈ found, k ∈ rest ∧ s.manager.completed k = true ∨ s.manager.reaped k

def scanLabel : Label → Bool
  | .main | .worker _ => true
  | _ => false

section Positions
variable {m : Manager} {l before rest : List ℕ} {p : ℕ}

theorem rest_of_split (hn : (before ++ p :: rest).Nodup) :
    (before ++ p :: rest).dropWhile (· ≠ p) = p :: rest := by
  have hfree : ∀ q ∈ before, (decide (q ≠ p)) = true := by
    intro q hq
    have := (List.nodup_append.mp hn).2.2 q hq p (List.mem_cons_self ..)
    simpa using this
  rw [List.dropWhile_append_of_pos hfree]
  simp

theorem listed_split (hp : p ∈ m.threadManager) (hn : m.threadManager.Nodup) :
    ∃ before rest, m.threadManager = before ++ p :: rest ∧ m.successor p = rest.head? ∧
      m.threadManager.dropWhile (· ≠ p) = p :: rest := by
  obtain ⟨before,rest,hl⟩ := List.append_of_mem hp
  have hrest := rest_of_split (hl ▸ hn)
  refine ⟨before,rest,hl,?_,by rw [hl,hrest]⟩
  rw [Manager.successor,hl,hrest]
  cases rest <;> rfl

theorem scan_rest_head (hn : (before ++ rest).Nodup) (hl : m.threadManager = before ++ rest) :
    scanRest m (.scan rest.head?) = some rest ∧ scanRest m (.removeUnlock rest.head?) = some rest := by
  cases rest with
  | nil => exact ⟨rfl,rfl⟩
  | cons q rest =>
    have hrest := rest_of_split hn
    simp only [List.head?_cons,scanRest,hl,hrest]
    exact ⟨trivial,trivial⟩

end Positions

section Scanning
variable {m m' : Manager} {s s' : Server} {found : List ℕ} {k p id : ℕ} {w : Worker}

theorem scan_rest_listed (pc : MainPc) (h : m'.threadManager = m.threadManager) :
    scanRest m' pc = scanRest m pc := by
  unfold scanRest
  rw [h]

theorem worker_covers (hi : Inv s) (h : Covers found s) (hw : s.manager.workers k = some w)
    (hm : WorkerMove s.manager k w s'.manager) (hpc : s'.main = s.main) : Covers found s' := by
  obtain ⟨w',hk⟩ := worker_kept hi hw hm
  obtain ⟨rest,hrest,hall⟩ := h
  refine ⟨rest,?_,fun j hj => ?_⟩
  · rw [hpc,scan_rest_listed _ hk.listed]
    exact hrest
  · rcases hall j hj with ⟨hmem,hc⟩ | hreaped
    · exact Or.inl ⟨hmem,worker_completed hm hc⟩
    · exact Or.inr (worker_reaped hk hw hm hreaped)

theorem join_reaped (hj : m.pthreadJoin id = some m') (h : m.reaped k) : m'.reaped k := by
  obtain ⟨j,v,-,-,-,rfl⟩ := Manager.pthread_join_some hj
  obtain ⟨⟨w,hw,hpc⟩,hl,hf⟩ := h
  by_cases hne : k = j
  · subst hne
    exact ⟨⟨_,Function.update_self ..,rfl⟩,hl,hf⟩
  · exact ⟨⟨w,(Function.update_of_ne hne ..).trans hw,hpc⟩,hl,hf⟩

theorem Covers.same (h : Covers found s)
    (hr : ∀ rest, scanRest s.manager s.main = some rest → scanRest s'.manager s'.main = some rest)
    (hc : s'.manager.completed = s.manager.completed)
    (hk : ∀ k, s.manager.reaped k → s'.manager.reaped k) : Covers found s' := by
  obtain ⟨rest,hrest,hall⟩ := h
  refine ⟨rest,hr rest hrest,fun k hmem => ?_⟩
  rw [hc]
  exact (hall k hmem).imp_right (hk k)

theorem passed_covers {e : ThreadEntry} (hi : Inv ⟨.scan (some p),m⟩)
    (h : Covers found ⟨.scan (some p),m⟩) (he : m.entries p = some e) (hc : e.isComplete = false) :
    Covers found ⟨.scan (m.successor p),m⟩ := by
  have hn := listed_nodup hi
  obtain ⟨before,rest,hl,hnext,hdrop⟩ := listed_split (hi.current p (by simp [MainPc.current])) hn
  obtain ⟨old,hold,hall⟩ := h
  have heq : p :: rest = old := Option.some.inj ((congrArg some hdrop).symm.trans hold)
  have hsplit : m.threadManager = (before ++ [p]) ++ rest := by rw [hl,List.append_assoc]; rfl
  refine ⟨rest,?_,fun k hk => ?_⟩
  · simp only [hnext]
    exact (scan_rest_head (hsplit ▸ hn) hsplit).1
  · rcases hall k hk with ⟨hmem,hcomplete⟩ | hreaped
    · rw [← heq] at hmem
      rcases List.mem_cons.mp hmem with rfl | hmem
      · have hno : m.completed k = false := by simp [Manager.completed,he,hc]
        rw [show m.completed k = true from hcomplete] at hno
        cases hno
      · exact Or.inl ⟨hmem,hcomplete⟩
    · exact Or.inr hreaped

theorem removed_covers (hi : Inv ⟨.removing p id,m⟩) (h : Covers found ⟨.removing p id,m⟩) :
    Covers found ⟨.removeUnlock (m.successor p),(m.threadEntryRemove id).2⟩ := by
  have hn : m.threadManager.Nodup := listed_nodup hi
  have hp : p ∈ m.threadManager := hi.current p (by simp [MainPc.current])
  obtain ⟨before,rest,hl,hnext,hdrop⟩ := listed_split hp hn
  obtain ⟨w,hw,hj⟩ := hi.dying p (by simp [MainPc.dying])
  obtain ⟨old,hold,hall⟩ := h
  have heq : p :: rest = old := Option.some.inj ((congrArg some hdrop).symm.trans hold)
  obtain ⟨hfree,herase⟩ := erase_middle (hl ▸ hn)
  rw [← hl] at herase
  rw [remove_found hi hp (hi.removal p id rfl)]
  refine ⟨rest,?_,fun k hk => ?_⟩
  · simp only [hnext]
    exact (scan_rest_head (herase ▸ hn.erase p) herase).2
  · by_cases hne : k = p
    · subst hne
      refine Or.inr ⟨⟨w,hw,hj⟩,?_,by simp [Manager.threadEntryFree,Manager.setEntry]⟩
      exact fun hmem => hfree (herase ▸ hmem)
    · rcases hall k hk with ⟨hmem,hc⟩ | ⟨hjoined,hlist,hfreed⟩
      · rw [← heq] at hmem
        refine Or.inl ⟨(List.mem_cons.mp hmem).resolve_left hne,?_⟩
        simpa [Manager.completed,Manager.threadEntryFree,Manager.setEntry,Manager.unlink,hne] using hc
      · refine Or.inr ⟨hjoined,fun hmem => hlist (List.mem_of_mem_erase hmem),?_⟩
        simpa [Manager.threadEntryFree,Manager.setEntry,Manager.unlink,hne] using hfreed

theorem main_covers (hi : Inv s) (h : Covers found s)
    (hm : MainMove s.manager s.main .main s'.main s'.manager) : Covers found s' := by
  obtain ⟨pc,m⟩ := s
  obtain ⟨pc',m'⟩ := s'
  simp only at hm
  cases hm with
  | addLocked | inserted | addUnlocked | printLocked | printed | freeing =>
    obtain ⟨rest,hrest,-⟩ := h
    cases hrest
  | printUnlocked =>
    refine h.same (fun rest hrest => ?_) rfl fun _ hk => hk
    cases hrest
    exact (scan_rest_head (show ([] ++ m.threadManager).Nodup from listed_nodup hi) rfl).1
  | scanned | found | dataClosed | removeLocked => exact h.same (fun _ hr => hr) rfl fun _ hk => hk
  | @passed entry e he hc => exact passed_covers hi h he hc
  | @joined entry e m' he hj =>
    refine h.same (fun _ hr => ?_) ?_ fun _ hk => join_reaped hj hk
    · obtain ⟨j,v,-,-,-,rfl⟩ := Manager.pthread_join_some hj
      exact hr
    · obtain ⟨j,v,-,-,-,rfl⟩ := Manager.pthread_join_some hj
      rfl
  | removed => exact removed_covers hi h
  | @removeUnlocked following =>
    refine h.same (fun _ hr => ?_) rfl fun _ hk => hk
    cases following with
    | none => exact hr
    | some entry => exact hr

theorem scan_run_covers {scan : List Label} (hscan : ∀ l ∈ scan, scanLabel l = true) (hi : Inv s)
    (h : Covers found s) (hr : Runs.run serverStep s scan = some s') : Covers found s' := by
  induction scan generalizing s with
  | nil =>
    cases hr
    exact h
  | cons l scan ih =>
    obtain ⟨s₁,hs,hr⟩ := Runs.run_cons hr
    have hl := hscan l (List.mem_cons_self ..)
    refine ih (fun l hmem => hscan l (List.mem_cons_of_mem _ hmem)) (server_step_inv hi hs) ?_ hr
    cases server_step_move hs with
    | worker _ hw hm hpc => exact worker_covers hi h hw hm hpc
    | main hm =>
      cases l with
      | main => exact main_covers hi h hm
      | worker k => exact absurd hm main_move_not_worker
      | accept | openData | create | spawn | freeall => cases hl

end Scanning

-- what one reap scan that starts in s and ends in s' has to do
def Finds (s s' : Server) : Prop :=
  ∀ k w, s.manager.workers k = some w → w.pc.reported = true → s'.manager.reaped k

structure CompletionsKept (ls : List Label) : Prop where
  recorded : ∀ done, done <+: ls → ∀ s, Runs.run serverStep serverStart done = some s → Recorded s
  found : ∀ done scan, done ++ scan <+: ls → ∀ s s',
    Runs.run serverStep serverStart done = some s → Runs.run serverStep s scan = some s' →
    s.main = .printUnlock → s'.main = .accept → (∀ l ∈ scan, scanLabel l = true) → Finds s s'

section Kept
variable {s s' : Server} {ls : List Label}

theorem recorded_found {scan : List Label} (hi : Inv s) (h : Recorded s)
    (hscan : ∀ l ∈ scan, scanLabel l = true) (hr : Runs.run serverStep s scan = some s')
    (hpc : s.main = .printUnlock) (hpc' : s'.main = .accept) : Finds s s' := by
  intro k w hw hreported
  have hcovers : Covers [k] s := by
    refine ⟨s.manager.threadManager,by rw [hpc]; rfl,fun j hj => ?_⟩
    rw [List.mem_singleton.mp hj]
    exact h k w hw hreported (by simp [hpc,MainPc.adding])
  obtain ⟨rest,hrest,hall⟩ := scan_run_covers hscan hi hcovers hr
  rw [hpc'] at hrest
  cases hrest
  rcases hall k (List.mem_singleton_self _) with ⟨hmem,-⟩ | hreaped
  · cases hmem
  · exact hreaped

theorem completions_kept_iff (hr : Runs.run serverStep serverStart ls = some s) :
    CompletionsKept ls ↔ Runs.Along serverStep insertedFirst serverStart ls := by
  rw [← recorded_iff_along hr]
  constructor
  · intro h
    exact h.recorded
  · intro h
    refine ⟨h,fun done scan hd m m' hm hm' hpc hpc' hscan => ?_⟩
    have hrecorded := h done ((List.prefix_append _ _).trans hd) m hm
    exact recorded_found (server_run_inv hm) hrecorded hscan hm' hpc hpc'

theorem completions_kept_of_two_clients :
    (∃ s, Runs.run serverStep serverStart twoClients = some s) ∧ CompletionsKept twoClients := by
  have hchecked : (Runs.checkedRun serverStep (fun s l => decide (insertedFirst s l)) serverStart
      twoClients).isSome = true := by decide
  obtain ⟨s,hs⟩ := Option.isSome_iff_exists.mp hchecked
  obtain ⟨hr,ha⟩ := Runs.checked_run hs
  exact ⟨⟨s,hr⟩,(completions_kept_iff hr).mpr (ha.mono fun _ _ => of_decide_eq_true)⟩

-- the client leaves at once and its worker reports before main has inserted the entry
def missedReport : List Label :=
  [.accept (some (4,[])),.openData (some 5),.create true true,.spawn (some 70)] ++
    List.replicate 7 (.worker 0) ++ List.replicate 8 .main

theorem missed_report : ∃ s, Runs.run serverStep serverStart missedReport = some s ∧
    s.main = .accept ∧ s.manager.threadManager = [0] ∧ s.manager.completed 0 = false ∧
    (s.manager.workers 0).map (·.pc) = some .returned ∧ ¬ CompletionsKept missedReport := by
  have hfacts : (Runs.run serverStep serverStart missedReport).map (fun s => (s.main,
      s.manager.threadManager,s.manager.completed 0,(s.manager.workers 0).map (·.pc))) =
      some (.accept,[0],false,some .returned) := by decide
  obtain ⟨s,hs,heq⟩ := Option.map_eq_some_iff.mp hfacts
  obtain ⟨hmain,hlist,hcomplete,hpc⟩ : s.main = .accept ∧ s.manager.threadManager = [0] ∧
      s.manager.completed 0 = false ∧ (s.manager.workers 0).map (·.pc) = some .returned := by
    simpa using heq
  refine ⟨s,hs,hmain,hlist,hcomplete,hpc,fun h => ?_⟩
  obtain ⟨w,hw,hret⟩ := Option.map_eq_some_iff.mp hpc
  have hrecorded := h.recorded missedReport (List.prefix_refl _) s hs 0 w hw (by rw [hret]; rfl)
    (by simp [hmain,MainPc.adding])
  rcases hrecorded with ⟨-,hc⟩ | ⟨-,hl,-⟩
  · rw [hcomplete] at hc
    cases hc
  · simp [hlist] at hl

end Kept

end ThreadManager
