import Aesd.Server.EntryLifetime

namespace ThreadManager
open Kernel

structure EntriesSafe (s : Server) : Prop where
  distinct : (s.manager.threadManager.map s.manager.idOf).Nodup
  held : ∀ k w, s.manager.workers k = some w → w.pc ≠ .joined → (s.manager.entries k).isSome
  touched : ∀ k, ∀ p ∈ touches s.manager k, (s.manager.entries p).isSome
  removal : ∀ p id, s.main.removal = some (p,id) → ∃ w before after,
    s.manager.workers p = some w ∧ w.pc = .joined ∧ w.id = id ∧
    s.manager.threadManager = before ++ p :: after ∧
    (∀ q ∈ before ++ after, ∀ v, s.manager.workers q = some v → v.pc ≠ .joined) ∧
    (s.manager.threadEntryRemove id).1 = 0 ∧
    (s.manager.threadEntryRemove id).2.threadManager = before ++ after ∧
    (s.manager.threadEntryRemove id).2.entries = Function.update s.manager.entries p none

section Safety
variable {s : Server} {p id : ℕ}

theorem tracked_alive (h : Inv s) (hp : p ∈ ThreadManager.tracked s) :
    (s.manager.entries p).isSome := by
  obtain ⟨w,-,hid,-⟩ := h.tracked p hp
  obtain ⟨e,he,-⟩ := Option.map_eq_some_iff.mp hid
  rw [he]
  rfl

theorem listed_tracked (hp : p ∈ s.manager.threadManager) : p ∈ ThreadManager.tracked s :=
  List.mem_append_right _ hp

theorem worker_alive (h : Inv s) {k : ℕ} {w : Worker} (hw : s.manager.workers k = some w)
    (hpc : w.pc ≠ .joined) : (s.manager.entries k).isSome :=
  tracked_alive h (h.running k w hw hpc)

theorem marking_entry (h : Inv s) {k : ℕ} {w : Worker} (hw : s.manager.workers k = some w)
    (hpc : w.pc = .marking) : k ∈ ThreadManager.tracked s ∧ s.manager.idOf k = some w.threadId := by
  have htracked : k ∈ ThreadManager.tracked s := h.running k w hw (by simp [hpc])
  obtain ⟨v,hv,hid,-⟩ := h.tracked k htracked
  rw [hw] at hv
  cases hv
  exact ⟨htracked,((h.locals k w hw).2 (by simp [hpc])).symm ▸ hid⟩

theorem marking_found (h : Inv s) {k : ℕ} {w : Worker} (hw : s.manager.workers k = some w)
    (hpc : w.pc = .marking) (hf : s.manager.findEntry w.threadId = some p) : p = k := by
  obtain ⟨hlisted,hid⟩ := find_entry_mem hf
  obtain ⟨htracked,hself⟩ := marking_entry h hw hpc
  exact same_id h.ids (listed_tracked hlisted) htracked (hid.trans hself.symm)

theorem touches_alive (h : Inv s) {k : ℕ} (hp : p ∈ touches s.manager k) :
    (s.manager.entries p).isSome := by
  unfold touches at hp
  split at hp
  · cases hp
  · rename_i w hw
    split at hp
    · rename_i hpc
      rw [List.mem_singleton.mp hp]
      exact worker_alive h hw (by simp [hpc])
    · rename_i hpc
      rw [List.mem_singleton.mp hp]
      exact worker_alive h hw (by simp [hpc])
    · exact tracked_alive h (listed_tracked (visited_listed hp))
    · cases hp

theorem removal_exact (h : Inv s) (hr : s.main.removal = some (p,id)) : ∃ w before after,
    s.manager.workers p = some w ∧ w.pc = .joined ∧ w.id = id ∧
    s.manager.threadManager = before ++ p :: after ∧
    (∀ q ∈ before ++ after, ∀ v, s.manager.workers q = some v → v.pc ≠ .joined) ∧
    (s.manager.threadEntryRemove id).1 = 0 ∧
    (s.manager.threadEntryRemove id).2.threadManager = before ++ after ∧
    (s.manager.threadEntryRemove id).2.entries = Function.update s.manager.entries p none := by
  obtain ⟨hcurrent,hdying⟩ := removal_current hr
  have hp : p ∈ s.manager.threadManager := h.current p (by simp [hcurrent])
  have hid := h.removal p id hr
  obtain ⟨w,hw,hjoined⟩ := h.dying p (by simp [hdying])
  obtain ⟨before,after,hlist⟩ := List.append_of_mem hp
  obtain ⟨hrest,herase⟩ := erase_middle (hlist ▸ listed_nodup h)
  rw [← hlist] at herase
  have hwid : w.id = id := by
    obtain ⟨v,hv,hvid,-⟩ := h.tracked p (listed_tracked hp)
    rw [hw] at hv
    cases hv
    exact Option.some.inj (hvid.symm.trans hid)
  have hothers : ∀ q ∈ before ++ after, ∀ v, s.manager.workers q = some v → v.pc ≠ .joined := by
    intro q hq v hv hpc
    have hmem : q ∈ s.manager.threadManager := by
      rw [hlist]
      simp only [List.mem_append,List.mem_cons] at hq ⊢
      exact hq.imp_right Or.inr
    obtain ⟨v',hv',-,hj⟩ := h.tracked q (listed_tracked hmem)
    rw [hv] at hv'
    cases hv'
    have heq := hj hpc
    rw [hdying,List.mem_singleton] at heq
    exact hrest (heq ▸ hq)
  have hremove : s.manager.threadEntryRemove id = (0,(s.manager.unlink p).threadEntryFree p) :=
    remove_found h hp hid
  refine ⟨w,before,after,hw,hjoined,hwid,hlist,hothers,?_⟩
  rw [hremove]
  exact ⟨rfl,herase,rfl⟩

theorem entries_safe {ls : List Label} (hr : Runs.run serverStep serverStart ls = some s) :
    EntriesSafe s :=
  have h := server_run_inv hr
  ⟨listed_ids h,fun _ _ hw hpc => worker_alive h hw hpc,fun _ _ hp => touches_alive h hp,
    fun _ _ hp => removal_exact h hp⟩

theorem entries_safe_of_two_clients : ∃ s, Runs.run serverStep serverStart twoClients = some s ∧
    s.main = .removing 0 70 ∧ s.manager.threadManager = [1,0] ∧ EntriesSafe s := by
  have hrun : (Runs.run serverStep serverStart twoClients).isSome = true := by decide
  obtain ⟨s,hs⟩ := Option.isSome_iff_exists.mp hrun
  have hmain : (Runs.run serverStep serverStart twoClients).map (·.main) = some (.removing 0 70) := by
    decide
  have hlist : (Runs.run serverStep serverStart twoClients).map (·.manager.threadManager) =
      some [1,0] := by decide
  rw [hs] at hmain hlist
  exact ⟨s,hs,Option.some.inj hmain,Option.some.inj hlist,entries_safe hs⟩

end Safety

end ThreadManager
