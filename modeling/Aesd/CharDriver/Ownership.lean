import Aesd.CharDriver.WriteRuns

namespace Device
open BlockHeap CircularBuffer AesdCircularBuffer Kernel Cutting

def owners (d : Driver) : List ℕ :=
  d.dev.incompleteCommandBuffer.toList ++ (content d.dev.circularBuffer).filterMap (·.buffptr)

structure Owned (d : Driver) : Prop where
  live : ∀ p, d.heap.Live p ↔ p ∈ owners d
  distinct : (owners d).Nodup

-- a call may still fault on the unchecked result of a failed kmalloc, never on a dead block
structure Clean (d : Driver) : Prop where
  owned : Owned d
  calls : ∀ env buf e, aesdWrite env d buf = .error e → e = .nullWrite
  cleanup : ∃ d', aesdCleanupModule d = .ok d' ∧ ∀ p, ¬ d'.heap.Live p

section Cleanup
variable {ring : AesdCircularBuffer ℕ} {m : Memory} {cells : List (ℕ × Bytes)}

theorem free_slots_holds {is : List ℕ} (hn : is.Nodup) (hlt : ∀ i ∈ is, i < 10)
    (hc : m.heap.Holds cells)
    (hp : (is.filterMap fun i => (ring.slot i).buffptr).Perm (cells.map Prod.fst)) :
    ∃ ring' m', is.foldlM freeSlot (ring,m) = .ok (ring',m') ∧ m'.heap.Holds [] := by
  induction is generalizing ring m cells with
  | nil =>
    have hnil : cells = [] := by simpa using hp.symm.eq_nil
    exact ⟨ring,m,rfl,hnil ▸ hc⟩
  | cons i is ih =>
    obtain ⟨hi,hn⟩ := List.nodup_cons.mp hn
    have hrest : ∀ j ∈ is, j < 10 := fun j hj => hlt j (by simp [hj])
    cases hs : (ring.slot i).buffptr with
    | none =>
      rw [List.filterMap_cons,hs] at hp
      obtain ⟨ring',m',hok,hh⟩ := ih hn hrest hc hp
      exact ⟨ring',m',by simpa [freeSlot,hs] using hok,hh⟩
    | some p =>
      rw [List.filterMap_cons,hs] at hp
      have hmem : p ∈ cells.map Prod.fst := hp.subset (List.mem_cons_self ..)
      obtain ⟨x,hx,rfl⟩ := List.mem_map.mp hmem
      obtain ⟨before,after,rfl⟩ := List.append_of_mem hx
      have hperm : (before ++ x :: after).Perm (x :: (before ++ after)) := List.perm_middle
      obtain ⟨m₁,hm₁,-,hh₁⟩ := kfree_live (hc.perm hperm)
      have hslots : (is.filterMap fun j => ((ring.setSlot i
          { ring.slot i with buffptr := none }).slot j).buffptr) =
          is.filterMap fun j => (ring.slot j).buffptr := by
        apply List.filterMap_congr
        intro j hj
        rw [slot_setSlot ring (hlt i (by simp)),if_neg (by rintro rfl; exact hi hj)]
      have hp' := hp.trans (hperm.map Prod.fst)
      simp only [List.map_cons,List.perm_cons] at hp'
      obtain ⟨ring',m',hok,hh⟩ := ih hn hrest hh₁ (by rw [hslots]; exact hp')
      exact ⟨ring',m',by simpa [freeSlot,hs,hm₁] using hok,hh⟩

theorem slot_ptrs_perm {held : List (ℕ × Bytes)} (h : Wf ring)
    (he : content ring = held.map toEntry) :
    ((List.range 10).filterMap fun i => (ring.slot i).buffptr).Perm (held.map Prod.fst) := by
  have hp := (slots_perm_content h).filterMap (·.buffptr)
  rw [List.filterMap_map,List.filterMap_append,he,List.filterMap_map] at hp
  have hheld : (held.filterMap ((·.buffptr) ∘ toEntry)) = held.map Prod.fst := by
    rw [← List.filterMap_eq_map]
    rfl
  have hvacant (n : ℕ) : (List.replicate n vacant).filterMap
      (fun e : AesdBufferEntry ℕ => e.buffptr) = [] := by simp [vacant]
  rw [hheld,hvacant,List.append_nil] at hp
  exact hp

theorem cleanup_holds {d : Driver} {held : List (ℕ × Bytes)} {frag : Option (ℕ × Bytes)}
    (h : Stored d held frag) : ∃ d', aesdCleanupModule d = .ok d' ∧ ∀ p, ¬ d'.heap.Live p := by
  obtain ⟨m₁,hm₁,hh₁⟩ : ∃ m₁, kfree ⟨d.heap,0⟩ d.dev.incompleteCommandBuffer = .ok m₁ ∧
      m₁.heap.Holds held := by
    rw [h.buffer]
    have h0 : Heap.Holds (⟨d.heap,0⟩ : Memory).heap (frag.toList ++ held) := h.heap
    cases frag with
    | none => exact ⟨_,rfl,h0⟩
    | some x =>
      obtain ⟨m₁,hm₁,-,hh₁⟩ := kfree_live h0
      exact ⟨m₁,hm₁,hh₁⟩
  obtain ⟨ring',m',hloop,hh⟩ := free_slots_holds List.nodup_range
    (fun i hi => List.mem_range.mp hi) hh₁ (slot_ptrs_perm h.wf h.entries)
  refine ⟨⟨m'.heap,⟨ring',none,if d.dev.incompleteCommandBuffer.isSome then 0
    else d.dev.incompleteCommandSize⟩⟩,?_,?_⟩
  · simp [aesdCleanupModule,hm₁,maxWriteOperationsSupported,hloop]
  intro p hp
  simpa using (hh.live_iff p).mp hp

end Cleanup

section Steps
variable {d d' : Driver} {held : List (ℕ × Bytes)}

theorem owners_held (he : content d.dev.circularBuffer = held.map toEntry) :
    owners d = d.dev.incompleteCommandBuffer.toList ++ held.map Prod.fst := by
  rw [owners,he,List.filterMap_map,← List.filterMap_eq_map]
  rfl

theorem stored_clean {frag : Option (ℕ × Bytes)} (h : Stored d held frag) : Clean d := by
  have howners : owners d = (frag.toList ++ held).map Prod.fst := by
    rw [owners_held h.entries,h.buffer,List.map_append]
    cases frag <;> rfl
  refine ⟨⟨fun p => ?_,?_⟩,?_,cleanup_holds h⟩
  · rw [howners]
    exact h.heap.live_iff p
  · rw [howners]
    exact h.heap.1
  · exact fun env buf e he => stored_oops h he

theorem stale_not_owned {p : ℕ} (h : Stale d held p) : ¬ Owned d := by
  intro ho
  have hlive : d.heap.Live p := by
    rw [ho.live,owners_held h.entries,h.buffer]
    simp
  exact h.dead ((h.heap.live_iff p).mp hlive)

-- aesd_write frees the held fragment before copy_from_user and keeps the pointer to it when the
-- copy faults
def FaultsWithFragment (d : Driver) (c : WriteCall) : Prop :=
  c.env.interrupted = false ∧ c.env.uncopied = true ∧ c.buf ≠ [] ∧
    d.dev.incompleteCommandBuffer ≠ none

theorem clean_iff {L : Logical} (h : Shows d L) : Clean d ↔ L.fragment ≠ none := by
  cases h with
  | intact h => simpa using stored_clean h
  | stale h => simpa using fun hc : Clean d => stale_not_owned h hc.owned

theorem clean_step {L : Logical} {c : WriteCall} (hL : Shows d L) (hd : Clean d)
    (hs : writeStep d c = some d') : Clean d' ↔ ¬ FaultsWithFragment d c := by
  obtain ⟨r,hw⟩ := write_step_returns hs
  cases hL with
  | stale h => exact absurd hd.owned (stale_not_owned h)
  | intact h =>
    rw [clean_iff (stored_write h hw).2,ne_eq,logical_write_fragment,FaultsWithFragment,ne_eq,
      ne_eq,ne_eq,h.buffer_none]
    simp [and_assoc]

end Steps

theorem ownership_exact {calls : List WriteCall} {d : Driver}
    (h : Runs.run writeStep aesdInitModule calls = some d) :
    (∀ done, done <+: calls → ∀ m, Runs.run writeStep aesdInitModule done = some m → Clean m) ↔
      Runs.Along writeStep (fun m c => ¬ FaultsWithFragment m c) aesdInitModule calls := by
  refine Runs.prefixes_iff_along (I := fun _ m => Clean m) (stored_clean stored_init) ?_ h
  intro done c m m' hrun hclean hs
  obtain ⟨L,hL⟩ := reachable_shown ⟨done,hrun⟩
  exact clean_step hL hclean hs

theorem ownership_exact_of_two :
    ∃ d, Runs.run writeStep aesdInitModule [⟨calm,[97]⟩,⟨calm,[98,10]⟩] = some d ∧
      ((∀ done, done <+: [⟨calm,[97]⟩,⟨calm,[98,10]⟩] →
          ∀ m, Runs.run writeStep aesdInitModule done = some m → Clean m) ↔
        Runs.Along writeStep (fun m c => ¬ FaultsWithFragment m c) aesdInitModule
          [⟨calm,[97]⟩,⟨calm,[98,10]⟩]) := by
  obtain ⟨d,hd⟩ := Option.isSome_iff_exists.mp (show (Runs.run writeStep aesdInitModule
    [⟨calm,[97]⟩,⟨calm,[98,10]⟩]).isSome by decide)
  exact ⟨d,hd,ownership_exact hd⟩

def fault : Except Oops (ℤ × Driver) → Option Oops
  | .ok _ => none
  | .error e => some e

theorem copy_fault_strands_fragment :
    ∃ d, Runs.run writeStep aesdInitModule [⟨calm,[97]⟩,⟨{ calm with uncopied := true },[98]⟩] =
        some d ∧ owners d = [1] ∧ ¬ d.heap.Live 1 ∧
      fault (aesdWrite calm d [99]) = some (.deadRead 1) ∧ ¬ Clean d := by
  obtain ⟨d,hd,hobs⟩ := Option.map_eq_some_iff.mp (show (Runs.run writeStep aesdInitModule
    [⟨calm,[97]⟩,⟨{ calm with uncopied := true },[98]⟩]).map (fun d =>
      (owners d,decide (d.heap.Live 1),fault (aesdWrite calm d [99]))) =
    some ([1],false,some (.deadRead 1)) by decide)
  simp only [Prod.mk.injEq,decide_eq_false_iff_not] at hobs
  obtain ⟨howners,hdead,hfault⟩ := hobs
  refine ⟨d,hd,howners,hdead,hfault,fun hc => hdead ?_⟩
  rw [hc.owned.live,howners]
  simp

end Device
