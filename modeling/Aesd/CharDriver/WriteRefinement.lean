import Aesd.CharDriver.Cutting

namespace Device
open BlockHeap CircularBuffer AesdCircularBuffer Kernel Cutting

def fragBytes (frag : Option (ℕ × Bytes)) : Bytes := (frag.map Prod.snd).getD []

structure Stored (d : Driver) (held : List (ℕ × Bytes)) (frag : Option (ℕ × Bytes)) : Prop where
  wf : Wf d.dev.circularBuffer
  entries : content d.dev.circularBuffer = held.map toEntry
  buffer : d.dev.incompleteCommandBuffer = frag.map Prod.fst
  size : d.dev.incompleteCommandSize = (fragBytes frag).length
  nonempty : ∀ x ∈ frag, x.2 ≠ []
  heap : d.heap.Holds (frag.toList ++ held)

structure Stale (d : Driver) (held : List (ℕ × Bytes)) (p : ℕ) : Prop where
  wf : Wf d.dev.circularBuffer
  entries : content d.dev.circularBuffer = held.map toEntry
  buffer : d.dev.incompleteCommandBuffer = some p
  heap : d.heap.Holds held
  dead : p ∉ held.map Prod.fst
  past : p < d.heap.next

structure Logical where
  commands : List Bytes
  fragment : Option Bytes
  deriving DecidableEq, Repr

inductive Shows (d : Driver) : Logical → Prop
  | intact {held : List (ℕ × Bytes)} {frag : Option (ℕ × Bytes)} (h : Stored d held frag) :
      Shows d ⟨held.map Prod.snd,some (fragBytes frag)⟩
  | stale {held : List (ℕ × Bytes)} {p : ℕ} (h : Stale d held p) :
      Shows d ⟨held.map Prod.snd,none⟩

def logicalWrite (env : CallEnv) (cmds : List Bytes) (f buf : Bytes) : ℤ × Logical :=
  if env.interrupted then (-eintr,⟨cmds,some f⟩)
  else if env.uncopied && !buf.isEmpty then (-efault,⟨cmds,if f = [] then some [] else none⟩)
  else
    let data := f ++ buf
    let cut := cutLoop env data data.length 1 0 data.length
    let cmds' := (cmds ++ cut.pushed).rtake 10
    match cut.stop with
    | none => (-enomem,⟨cmds',some data⟩)
    | some (start,kmallocs) =>
        if start < data.length ∧ env.kmallocOk kmallocs = false then (-enomem,⟨cmds',some data⟩)
        else (buf.length,⟨cmds',some (data.drop start)⟩)

variable (env : CallEnv)

section Printing

theorem print_slot_holds {ring : AesdCircularBuffer ℕ} {m : Memory} {cells : List (ℕ × Bytes)}
    (hc : m.heap.Holds cells) (i : ℕ)
    (hi : ∀ p, (ring.slot i).buffptr = some p → ∃ b, (p,b) ∈ cells ∧ b.length = (ring.slot i).size) :
    printSlot env ring m i = .error .nullWrite ∧ AllocFails env ∨
      ∃ m', printSlot env ring m i = .ok m' ∧ m'.heap.Holds cells := by
  cases hp : (ring.slot i).buffptr with
  | none => exact Or.inr ⟨m,by simp [printSlot,hp],hc⟩
  | some p =>
    obtain ⟨b,hb,hlen⟩ := hi p hp
    cases hk : env.kmallocOk m.kmallocs with
    | false =>
      refine Or.inl ⟨?_,_,hk⟩
      have hload : load env { m with kmallocs := m.kmallocs + 1 } 0 (ring.slot i).size (some p) =
          .ok b := by simp [load,hc.read hb,← hlen,extent_all]
      by_cases hz : b = []
      · simp [printSlot,hp,kmalloc_fails hk,memcpy,hload,save,hz]
      · simp [printSlot,hp,kmalloc_fails hk,memcpy,hload,save,hz]
    | true =>
      right
      obtain ⟨q,m₁,hm₁,_,hh₁⟩ := kmalloc_succeeds hk hc ((ring.slot i).size + 1)
      obtain ⟨m₂,hm₂,_,hh₂⟩ := memcpy_front env hh₁ hb (by simp [hlen])
      rw [hlen] at hm₂
      obtain ⟨m₃,hm₃,_,hh₃⟩ := save_live hh₂ (show (ring.slot i).size + [(0 : UInt8)].length ≤ _ by
        simp [hlen])
      obtain ⟨m₄,hm₄,_,hh₄⟩ := kfree_live hh₃
      exact ⟨m₄,by simp [printSlot,hp,hm₁,hm₂,hm₃,hm₄],hh₄⟩

theorem print_cb_holds {ring : AesdCircularBuffer ℕ} {m : Memory} {held cells : List (ℕ × Bytes)}
    (hw : Wf ring) (he : content ring = held.map toEntry) (hc : m.heap.Holds (cells ++ held)) :
    aesdPrintCb env ring m = .error .nullWrite ∧ AllocFails env ∨
      ∃ m', aesdPrintCb env ring m = .ok m' ∧ m'.heap.Holds (cells ++ held) := by
  have hslots : ∀ i p, (ring.slot i).buffptr = some p →
      ∃ b, (p,b) ∈ cells ++ held ∧ b.length = (ring.slot i).size := by
    intro i p hp
    rcases slot_held hw i with hm | hv
    · rw [he] at hm
      obtain ⟨⟨q,b⟩,hq,hqe⟩ := List.mem_map.mp hm
      rw [← hqe] at hp ⊢
      cases hp
      exact ⟨b,List.mem_append_right _ hq,rfl⟩
    · rw [hv] at hp
      cases hp
  rw [aesdPrintCb]
  generalize List.range maxWriteOperationsSupported = is
  induction is generalizing m with
  | nil => exact Or.inr ⟨m,rfl,hc⟩
  | cons i is ih =>
    rcases print_slot_holds env hc i (hslots i) with ⟨herr,hf⟩ | ⟨m',hok,hh⟩
    · exact Or.inl ⟨by simp [List.foldlM_cons,herr],hf⟩
    · simpa [List.foldlM_cons,hok] using ih hh

end Printing

theorem store_remainder_holds {s : LoopState} {q : ℕ} {data : Bytes} {held : List (ℕ × Bytes)}
    (h : AtLoop s q data held) :
    (s.cmdStart < data.length ∧ env.kmallocOk s.mem.kmallocs = false ∧
      ∃ m, storeRemainder env (some q) data.length s = .ok (false,⟨s.ring,some q,data.length⟩,m) ∧
        m.heap.Holds ((q,data) :: held)) ∨
    (¬ (s.cmdStart < data.length ∧ env.kmallocOk s.mem.kmallocs = false) ∧
      ∃ frag dev m, storeRemainder env (some q) data.length s = .ok (true,dev,m) ∧
        Stored ⟨m.heap,dev⟩ held frag ∧ fragBytes frag = data.drop s.cmdStart) := by
  by_cases hlt : s.cmdStart < data.length
  · cases hk : env.kmallocOk s.mem.kmallocs with
    | false =>
      exact Or.inl ⟨hlt,rfl,{ s.mem with kmallocs := s.mem.kmallocs + 1 },
        by simp [storeRemainder,hlt,kmalloc_fails hk],h.heap⟩
    | true =>
      right
      have hin : s.cmdStart + (data.length - s.cmdStart) ≤ data.length := by omega
      have hlen : (data.drop s.cmdStart).length = data.length - s.cmdStart := List.length_drop
      obtain ⟨p,m₁,hm₁,_,hh₁⟩ := kmalloc_succeeds hk h.heap (data.length - s.cmdStart)
      obtain ⟨m₂,hm₂,_,hh₂⟩ := memcpy_fill env s.cmdStart hh₁
        (List.mem_cons_self ..) (List.length_replicate ..)
      rw [extent_inside hin,← hlen,List.take_length] at hh₂
      obtain ⟨m₃,hm₃,_,hh₃⟩ := kfree_live (hh₂.perm (List.Perm.swap ..))
      refine ⟨by simp,some (p,data.drop s.cmdStart),⟨s.ring,some p,data.length - s.cmdStart⟩,m₃,
        by simp [storeRemainder,hlt,hm₁,hm₂,hm₃],⟨h.wf,h.entries,rfl,by simp [fragBytes],?_,hh₃⟩,rfl⟩
      intro x hx
      cases hx
      exact List.ne_nil_of_length_pos (by simpa using hlt)
  · obtain ⟨m,hm,_,hh⟩ := kfree_live h.heap
    exact Or.inr ⟨fun hc => hlt hc.1,none,⟨s.ring,none,0⟩,m,by simp [storeRemainder,hlt,hm],
      ⟨h.wf,h.entries,rfl,rfl,by simp,hh⟩,by
        simp only [fragBytes,Option.map_none,Option.getD_none]
        rw [List.drop_eq_nil_of_le (by omega)]⟩

theorem merge_fragment_next {dev : AesdDev} {toWrite : Option ℕ} {m m' : Memory}
    (h : mergeFragment env dev toWrite m = .ok m') : m'.heap.next = m.heap.next := by
  unfold mergeFragment at h
  cases hb : dev.incompleteCommandBuffer with
  | none =>
    rw [hb] at h
    cases h
    rfl
  | some p =>
    rw [hb] at h
    cases hc : memcpy env m toWrite (some p) 0 dev.incompleteCommandSize with
    | error e => simp [hc] at h
    | ok m₁ =>
      simp only [hc,ok_bind] at h
      rw [kfree_next h,memcpy_next hc]

section Assembly
variable {d : Driver} {held : List (ℕ × Bytes)} {frag : Option (ℕ × Bytes)}

theorem buffer_assembled (h : Stored d held frag) (hk : env.kmallocOk 0 = true) (buf : Bytes) :
    ∃ q m₁ m₂, kmalloc env ⟨d.heap,0⟩ (d.dev.incompleteCommandSize + buf.length) = (some q,m₁) ∧
      mergeFragment env d.dev (some q) m₁ = .ok m₂ ∧ m₂.kmallocs = 1 ∧
      m₂.heap.Holds ((q,fragBytes frag ++ List.replicate buf.length 0) :: held) := by
  have h0 : Heap.Holds (⟨d.heap,0⟩ : Memory).heap (frag.toList ++ held) := h.heap
  obtain ⟨q,m₁,hm₁,hk₁,hh₁⟩ := kmalloc_succeeds hk h0 (d.dev.incompleteCommandSize + buf.length)
  have hone : m₁.kmallocs = 1 := hk₁
  have hsize := h.size
  have hbuf := h.buffer
  cases frag with
  | none =>
    refine ⟨q,m₁,m₁,hm₁,by simp [mergeFragment,hbuf],hk₁,?_⟩
    simpa [hsize,fragBytes] using hh₁
  | some x =>
    obtain ⟨p,f⟩ := x
    have hsize' : d.dev.incompleteCommandSize = f.length := hsize
    have hmem : (p,f) ∈ (some (p,f)).toList ++ held := by simp
    obtain ⟨m₂,hm₂,hk₂,hh₂⟩ := memcpy_front env hh₁ hmem (by simp [hsize'])
    obtain ⟨m₃,hm₃,hk₃,hh₃⟩ := kfree_live (hh₂.perm (List.Perm.swap ..))
    refine ⟨q,m₁,m₃,hm₁,by simp [mergeFragment,hbuf,hsize',hm₂,hm₃],by omega,?_⟩
    simpa [hsize',fragBytes,List.drop_replicate] using hh₃

theorem user_copied {m : Memory} {q : ℕ} {f buf : Bytes}
    (hc : m.heap.Holds ((q,f ++ List.replicate buf.length 0) :: held)) :
    ∃ m' b, copyFromUser env m (some q) f.length buf = .ok (env.uncopied && !buf.isEmpty,m') ∧
      m'.kmallocs = m.kmallocs ∧ m'.heap.Holds ((q,b) :: held) ∧
      ((env.uncopied && !buf.isEmpty) = false → b = f ++ buf) := by
  have hfit (src : Bytes) (hs : src.length = buf.length) :
      f.length + src.length ≤ (f ++ List.replicate buf.length (0 : UInt8)).length := by simp [hs]
  cases hu : env.uncopied && !buf.isEmpty with
  | true =>
    obtain ⟨m',hm,hk,hh⟩ := save_live hc (hfit (List.replicate buf.length 0) (by simp))
    exact ⟨m',_,by simp [copyFromUser,hu,hm],hk,hh,by simp⟩
  | false =>
    obtain ⟨m',hm,hk,hh⟩ := save_live hc (hfit buf rfl)
    refine ⟨m',_,by simp [copyFromUser,hu,hm],hk,hh,fun _ => ?_⟩
    simp

theorem write_without_buffer (h : Stored d held frag) (hi : env.interrupted = false)
    (hk : env.kmallocOk 0 = false) (buf : Bytes) :
    aesdWrite env d buf = .error .nullWrite ∨
      frag = none ∧ buf = [] ∧ ∃ d', aesdWrite env d buf = .ok (0,d') ∧ Stored d' held none := by
  have hsize := h.size
  have hbuf := h.buffer
  have hnone (n : ℕ) : kmalloc env ⟨d.heap,0⟩ n = (none,⟨d.heap,1⟩) := by simp [kmalloc,hk]
  cases frag with
  | some x =>
    obtain ⟨p,f⟩ := x
    have hsize' : d.dev.incompleteCommandSize = f.length := hsize
    have hpos : 0 < d.dev.incompleteCommandSize := by
      rw [hsize']
      exact List.length_pos_iff.mpr (h.nonempty (p,f) rfl)
    have hn : memcpy env ⟨d.heap,1⟩ none (some p) 0 d.dev.incompleteCommandSize =
        .error .nullWrite := memcpy_null (m := ⟨d.heap,1⟩) h.heap
        (show (p,f) ∈ (some (p,f)).toList ++ held by simp) hpos
    exact Or.inl (by simp [aesdWrite,hi,hnone,mergeFragment,hbuf,hn])
  | none =>
    have hsize' : d.dev.incompleteCommandSize = 0 := hsize
    cases buf with
    | cons a buf =>
      left
      cases hu : env.uncopied <;>
        simp [aesdWrite,hi,hnone,mergeFragment,hbuf,copyFromUser,hu,save,List.replicate_succ]
    | nil =>
      have hheap : Heap.Holds (⟨d.heap,1⟩ : Memory).heap ([] ++ held) := h.heap
      rcases print_cb_holds env h.wf h.entries hheap with ⟨herr,-⟩ | ⟨m',hok,hh⟩
      · left
        simp [aesdWrite,hi,hnone,mergeFragment,hbuf,copyFromUser,save,hsize',newlineLoop,
          storeRemainder,kfree,herr]
      · refine Or.inr ⟨rfl,rfl,⟨m'.heap,⟨d.dev.circularBuffer,none,0⟩⟩,?_,
          ⟨h.wf,h.entries,rfl,rfl,by simp,hh⟩⟩
        simp [aesdWrite,hi,hnone,mergeFragment,hbuf,copyFromUser,save,hsize',newlineLoop,
          storeRemainder,kfree,hok]

theorem shows_pushed {d' : Driver} {held' : List (ℕ × Bytes)} {frag' : Option (ℕ × Bytes)}
    (h : Stored d' held' frag') {pushed : List Bytes} {f : Bytes} (hp : Pushes held held' pushed)
    (hf : fragBytes frag' = f) :
    Shows d' ⟨(held.map Prod.snd ++ pushed).rtake 10,some f⟩ := by
  rw [← show held'.map Prod.snd = (held.map Prod.snd ++ pushed).rtake 10 from hp,← hf]
  exact .intact h

theorem kept_whole {s : LoopState} {q : ℕ} {data : Bytes} (h : AtLoop s q data held)
    (hne : data ≠ []) : Stored ⟨s.mem.heap,⟨s.ring,some q,data.length⟩⟩ held (some (q,data)) := by
  refine ⟨h.wf,h.entries,rfl,rfl,?_,h.heap⟩
  intro x hx
  cases hx
  exact hne

theorem fault_shows (h : Stored d held frag) {m : Memory} (hc : m.heap.Holds held)
    (hn : d.heap.next ≤ m.heap.next) :
    Shows { d with heap := m.heap }
      ⟨held.map Prod.snd,if fragBytes frag = [] then some [] else none⟩ := by
  cases frag with
  | none =>
    have hs : Stored { d with heap := m.heap } held none :=
      ⟨h.wf,h.entries,h.buffer,h.size,by simp,hc⟩
    exact .intact hs
  | some x =>
    obtain ⟨p,f⟩ := x
    have hne : fragBytes (some (p,f)) ≠ [] := h.nonempty (p,f) rfl
    rw [if_neg hne]
    have hp : p < d.heap.next := Heap.lt_next (h.heap.read (List.mem_cons_self ..))
    have hs : Stale { d with heap := m.heap } held p :=
      ⟨h.wf,h.entries,h.buffer,hc,(List.nodup_cons.mp h.heap.1).1,Nat.lt_of_lt_of_le hp hn⟩
    exact .stale hs

theorem aesd_write_spec (h : Stored d held frag) (buf : Bytes) :
    aesdWrite env d buf = .error .nullWrite ∧ AllocFails env ∨
      ∃ d', aesdWrite env d buf =
          .ok ((logicalWrite env (held.map Prod.snd) (fragBytes frag) buf).1,d') ∧
        Shows d' (logicalWrite env (held.map Prod.snd) (fragBytes frag) buf).2 := by
  cases hi : env.interrupted with
  | true => exact Or.inr ⟨d,by simp [aesdWrite,logicalWrite,hi],by simpa [logicalWrite,hi] using .intact h⟩
  | false =>
    cases hk : env.kmallocOk 0 with
    | false =>
      rcases write_without_buffer env h hi hk buf with herr | ⟨rfl,rfl,d',hok,hs⟩
      · exact Or.inl ⟨herr,0,hk⟩
      · exact Or.inr ⟨d',by simpa [logicalWrite,hi,fragBytes,cutLoop] using hok,
          by simpa [logicalWrite,hi,fragBytes,cutLoop] using
            shows_pushed hs (pushes_nil h.wf h.entries) rfl⟩
    | true =>
      obtain ⟨q,m₁,m₂,hm₁,hm₂,hcalls,hh₂⟩ := buffer_assembled env h hk buf
      obtain ⟨m₃,b,hm₃,hk₃,hh₃,hb⟩ := user_copied env hh₂
      rw [← h.size] at hm₃
      cases hu : env.uncopied && !buf.isEmpty with
      | true =>
        obtain ⟨m₄,hm₄,_,hh₄⟩ := kfree_live hh₃
        rw [hu] at hm₃
        have hnext : d.heap.next ≤ m₄.heap.next := by
          have := kmalloc_next env ⟨d.heap,0⟩ (d.dev.incompleteCommandSize + buf.length)
          rw [hm₁] at this
          rw [kfree_next hm₄,copy_from_user_next hm₃,merge_fragment_next env hm₂]
          exact this
        exact Or.inr ⟨{ d with heap := m₄.heap },
          by simp [aesdWrite,logicalWrite,hi,hm₁,hm₂,hm₃,hm₄,hu],
          by simpa [logicalWrite,hi,hu] using fault_shows h hh₄ hnext⟩
      | false =>
        obtain rfl := hb hu
        rw [hu] at hm₃
        set data := fragBytes frag ++ buf with hdata
        have htotal : d.dev.incompleteCommandSize + buf.length = data.length := by
          rw [h.size,hdata,List.length_append]
        rw [htotal] at hm₁
        have hat : AtLoop ⟨0,data.length,d.dev.circularBuffer,m₃⟩ q data held :=
          ⟨h.wf,h.entries,hh₃,by simp⟩
        have hone : m₃.kmallocs = 1 := hk₃.trans hcalls
        have hloop := newline_loop_refines env hat (Nat.le_refl _)
        simp only [hone] at hloop
        rcases hloop with ⟨herr,hfail⟩ | ⟨more,s',held',hok,ha,hpush,hstop,-⟩
        · exact Or.inl ⟨by simp [aesdWrite,hi,htotal,hm₁,hm₂,hm₃,herr],hfail⟩
        · cases more with
          | false =>
            have hne : data ≠ [] := by
              intro he
              rw [he] at hstop
              simp [cutLoop] at hstop
            exact Or.inr ⟨⟨s'.mem.heap,⟨s'.ring,some q,data.length⟩⟩,
              by simp [aesdWrite,logicalWrite,hi,htotal,hm₁,hm₂,hm₃,hok,hu,← hdata,hstop],
              by simpa [logicalWrite,hi,hu,← hdata,hstop] using
                shows_pushed (f := data) (kept_whole ha hne) hpush rfl⟩
          | true =>
            rcases store_remainder_holds env ha with ⟨hlt,hkf,m,hrem,hh⟩ | ⟨hn,frag',dev,m,hrem,hs,hf⟩
            · have hne : data ≠ [] := List.ne_nil_of_length_pos (by omega)
              have hkept := kept_whole (s := { s' with mem := m })
                ⟨ha.wf,ha.entries,hh,ha.within⟩ hne
              exact Or.inr ⟨⟨m.heap,⟨s'.ring,some q,data.length⟩⟩,
                by simp [aesdWrite,logicalWrite,hi,htotal,hm₁,hm₂,hm₃,hok,hrem,hu,← hdata,hstop,hlt,hkf],
                by simpa [logicalWrite,hi,hu,← hdata,hstop,hlt,hkf] using
                  shows_pushed (f := data) hkept hpush rfl⟩
            · rcases print_cb_holds env hs.wf hs.entries hs.heap with ⟨herr,hfail⟩ | ⟨m',hprint,hh⟩
              · exact Or.inl ⟨by simp [aesdWrite,hi,htotal,hm₁,hm₂,hm₃,hok,hrem,herr],hfail⟩
              · have hs' : Stored ⟨m'.heap,dev⟩ held' frag' :=
                  ⟨hs.wf,hs.entries,hs.buffer,hs.size,hs.nonempty,hh⟩
                exact Or.inr ⟨⟨m'.heap,dev⟩,
                  by simp [aesdWrite,logicalWrite,hi,htotal,hm₁,hm₂,hm₃,hok,hrem,hprint,hu,← hdata,hstop,hn],
                  by simpa [logicalWrite,hi,hu,← hdata,hstop,hn] using shows_pushed hs' hpush hf⟩

end Assembly

theorem stale_write {d : Driver} {held : List (ℕ × Bytes)} {p : ℕ} (h : Stale d held p)
    (hi : env.interrupted = false) (buf : Bytes) : aesdWrite env d buf = .error (.deadRead p) := by
  have hdead : d.heap.block p = none := h.heap.dead h.dead
  have hne : p ≠ d.heap.next := Nat.ne_of_lt h.past
  cases hk : env.kmallocOk 0 with
  | false =>
    simp [aesdWrite,hi,kmalloc,hk,mergeFragment,h.buffer,memcpy,load,hdead]
  | true =>
    simp [aesdWrite,hi,kmalloc,hk,mergeFragment,h.buffer,memcpy,load,hdead,Heap.alloc,hne]

end Device
