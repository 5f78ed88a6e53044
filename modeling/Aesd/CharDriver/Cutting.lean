import Aesd.CharDriver.Device

namespace Cutting
open BlockHeap CircularBuffer AesdCircularBuffer Kernel Device

def toEntry (x : ℕ × Bytes) : AesdBufferEntry ℕ := ⟨some x.1,x.2.length⟩

structure AtLoop (s : LoopState) (q : ℕ) (data : Bytes) (held : List (ℕ × Bytes)) : Prop where
  wf : Wf s.ring
  entries : content s.ring = held.map toEntry
  heap : s.mem.heap.Holds ((q,data) :: held)
  within : s.cmdStart + s.readSize ≤ data.length

variable {env : CallEnv}

theorem add_entry_holds (cells : List (ℕ × Bytes)) {ring : AesdCircularBuffer ℕ}
    {held : List (ℕ × Bytes)} {m : Memory} {p : ℕ} {b : Bytes} (hw : Wf ring) (he : content ring = held.map toEntry)
    (hc : m.heap.Holds ((p,b) :: cells ++ held)) :
    ∃ m', kfree m (aesdCircularBufferAddEntry ring (toEntry (p,b))).1 = .ok m' ∧
      m'.kmallocs = m.kmallocs ∧ Wf (aesdCircularBufferAddEntry ring (toEntry (p,b))).2 ∧
      content (aesdCircularBufferAddEntry ring (toEntry (p,b))).2 =
        ((held ++ [(p,b)]).rtake 10).map toEntry ∧
      m'.heap.Holds (cells ++ (held ++ [(p,b)]).rtake 10) := by
  have ha := add_entry hw (toEntry (p,b))
  have hcontent : content (aesdCircularBufferAddEntry ring (toEntry (p,b))).2 =
      ((held ++ [(p,b)]).rtake 10).map toEntry := by
    rw [ha.content,he,Recent.map_rtake,List.map_append]
    rfl
  have hlen : held.length = count ring := by
    rw [← content_length,he,List.length_map]
  cases hf : ring.full with
  | false =>
    have hold := ha.returned
    rw [hf] at hold
    refine ⟨m,by rw [hold]; rfl,rfl,ha.wf,hcontent,?_⟩
    rw [Recent.rtake_snoc_lt (by rw [hlen,hw.count_open hf]; exact hw.in_lt)]
    refine hc.perm ?_
    rw [← List.append_assoc]
    exact (List.perm_append_singleton (p,b) (cells ++ held)).symm
  | true =>
    have hpos : 0 < held.length := by rw [hlen,Wf.count_full hf]; omega
    obtain ⟨x,xs,rfl⟩ := List.exists_cons_of_length_pos hpos
    have hold : (aesdCircularBufferAddEntry ring (toEntry (p,b))).1 = some x.1 := by
      rw [ha.returned,hf,he]
      rfl
    have hperm : ((p,b) :: cells ++ x :: xs).Perm (x :: (cells ++ (xs ++ [(p,b)]))) := by
      have h1 : ((p,b) :: cells ++ x :: xs).Perm (x :: ((p,b) :: cells ++ xs)) :=
        List.perm_middle
      have h2 : ((p,b) :: cells ++ xs).Perm (cells ++ (xs ++ [(p,b)])) := by
        rw [← List.append_assoc]
        exact (List.perm_append_singleton (p,b) (cells ++ xs)).symm
      exact h1.trans (h2.cons x)
    obtain ⟨m',hm,hk,hh⟩ := kfree_live (hc.perm hperm)
    refine ⟨m',by rw [hold]; exact hm,hk,ha.wf,hcontent,?_⟩
    rwa [Recent.rtake_snoc_full (by rw [hlen,Wf.count_full hf])]

theorem push_command_oops {s : LoopState} {q : ℕ} {data : Bytes} {held : List (ℕ × Bytes)}
    (h : AtLoop s q data held) (hk : env.kmallocOk s.mem.kmallocs = false) (brk : ℕ) :
    pushCommand env (some q) s brk = .error .nullWrite := by
  have hn : memcpy env { s.mem with kmallocs := s.mem.kmallocs + 1 } none (some q) s.cmdStart
      (brk + 1) = .error .nullWrite := memcpy_null h.heap (List.mem_cons_self ..) (by omega)
  simp [pushCommand,kmalloc_fails hk,hn]

theorem subcommand_copy {s : LoopState} {q : ℕ} {data : Bytes} {held : List (ℕ × Bytes)}
    (h : AtLoop s q data held) (hk : env.kmallocOk s.mem.kmallocs = true) (brk : ℕ) :
    ∃ p m₁ m₂, kmalloc env s.mem (brk + 1) = (some p,m₁) ∧
      memcpy env m₁ (some p) (some q) s.cmdStart (brk + 1) = .ok m₂ ∧
      m₂.kmallocs = s.mem.kmallocs + 1 ∧
      m₂.heap.Holds ((p,extent data (env.beyond (s.mem.kmallocs + 1)) s.cmdStart (brk + 1)) ::
        (q,data) :: held) := by
  obtain ⟨p,m₁,hm₁,hk₁,hh₁⟩ := kmalloc_succeeds hk h.heap (brk + 1)
  obtain ⟨m₂,hm₂,hk₂,hh₂⟩ := memcpy_fill env s.cmdStart hh₁ (List.mem_cons_self ..) (List.length_replicate ..)
  rw [hk₁] at hh₂
  exact ⟨p,m₁,m₂,hm₁,hm₂,by rw [hk₂,hk₁],hh₂⟩

theorem push_command_enomem {s : LoopState} {q : ℕ} {data : Bytes} {held : List (ℕ × Bytes)}
    (h : AtLoop s q data held) (hk : env.kmallocOk s.mem.kmallocs = true)
    (hk' : env.kmallocOk (s.mem.kmallocs + 1) = false) (brk : ℕ) :
    ∃ m, pushCommand env (some q) s brk = .ok (false,{ s with mem := m }) ∧
      AtLoop { s with mem := m } q data held := by
  obtain ⟨p,m₁,m₂,hm₁,hm₂,hk₂,hh₂⟩ := subcommand_copy h hk brk
  have hf : kmalloc env m₂ (brk + 1) = (none,{ m₂ with kmallocs := m₂.kmallocs + 1 }) :=
    kmalloc_fails (by rw [hk₂]; exact hk') _
  have hh₃ : Heap.Holds ({ m₂ with kmallocs := m₂.kmallocs + 1 } : Memory).heap _ := hh₂
  obtain ⟨m₄,hm₄,_,hh₄⟩ := kfree_live hh₃
  exact ⟨m₄,by simp [pushCommand,hm₁,hm₂,hf,hm₄],⟨h.wf,h.entries,hh₄,h.within⟩⟩

theorem push_command_ok {s : LoopState} {q : ℕ} {data : Bytes} {held : List (ℕ × Bytes)}
    (h : AtLoop s q data held) (hk : env.kmallocOk s.mem.kmallocs = true)
    (hk' : env.kmallocOk (s.mem.kmallocs + 1) = true) {brk : ℕ}
    (hbrk : brk < s.cmdStart + s.readSize) :
    ∃ p s', pushCommand env (some q) s brk = .ok (true,s') ∧ s'.cmdStart = brk + 1 ∧
      s'.readSize = s.readSize - (brk + 1) ∧ s'.mem.kmallocs = s.mem.kmallocs + 2 ∧
      AtLoop s' q data ((held ++ [(p,extent data (env.beyond (s.mem.kmallocs + 1)) s.cmdStart
        (brk + 1))]).rtake 10) := by
  obtain ⟨p,m₁,m₂,hm₁,hm₂,hk₂,hh₂⟩ := subcommand_copy h hk brk
  set cmd := extent data (env.beyond (s.mem.kmallocs + 1)) s.cmdStart (brk + 1) with hcmd
  have hlen : cmd.length = brk + 1 := extent_length _ _ _ _
  obtain ⟨r,m₃,hm₃,hk₃,hh₃⟩ := kmalloc_succeeds (by rw [hk₂]; exact hk') hh₂ (brk + 1)
  obtain ⟨m₄,hm₄,hk₄,hh₄⟩ := memcpy_block env hh₃ (List.mem_cons_self ..)
    (by rw [List.length_replicate,hlen])
  rw [hlen] at hm₄
  obtain ⟨m₅,hm₅,hk₅,hh₅⟩ := kfree_live (hh₄.perm (List.Perm.swap ..))
  obtain ⟨m₆,hm₆,hk₆,hw,he,hh₆⟩ := add_entry_holds [(q,data)] h.wf h.entries hh₅
  have hentry : toEntry (r,cmd) = ⟨some r,brk + 1⟩ := by rw [toEntry,hlen]
  rw [hentry] at hm₆ hw he
  have hwithin := h.within
  have hcalls : m₆.kmallocs = s.mem.kmallocs + 2 := by omega
  refine ⟨r,⟨brk + 1,s.readSize - (brk + 1),_,m₆⟩,?_,rfl,rfl,hcalls,⟨hw,he,hh₆,?_⟩⟩
  · simp [pushCommand,hm₁,hm₂,hm₃,hm₄,hm₅,hm₆]
    split_ifs <;> omega
  · simp only
    omega

def nextBreak (data : Bytes) (start n : ℕ) : Option ℕ :=
  (((data.drop start).take n).findIdx? (· == newline)).map (start + ·)

structure Cut where
  pushed : List Bytes
  stop : Option (ℕ × ℕ)

-- the commands the loop pushes and where it stops: cmd_start with the number of kmalloc calls
-- made, or none when the kmalloc for a ring entry failed
def cutLoop (env : CallEnv) (data : Bytes) : ℕ → ℕ → ℕ → ℕ → Cut
  | 0, kmallocs, start, _ => ⟨[],some (start,kmallocs)⟩
  | fuel+1, kmallocs, start, readSize =>
      match nextBreak data start readSize with
      | none => ⟨[],some (start,kmallocs)⟩
      | some brk =>
          if env.kmallocOk (kmallocs + 1) then
            let rest := cutLoop env data fuel (kmallocs + 2) (brk + 1) (readSize - (brk + 1))
            ⟨extent data (env.beyond (kmallocs + 1)) start (brk + 1) :: rest.pushed,rest.stop⟩
          else ⟨[],none⟩

theorem next_break_some {data : Bytes} {start n brk : ℕ} (h : nextBreak data start n = some brk) :
    start ≤ brk ∧ brk < start + n ∧ data[brk]? = some newline ∧
      ∀ i, start ≤ i → i < brk → data[i]? ≠ some newline := by
  obtain ⟨j,hj,rfl⟩ := Option.map_eq_some_iff.mp h
  obtain ⟨hlt,hat,hbefore⟩ := List.findIdx?_eq_some_iff_getElem.mp hj
  simp only [List.length_take,List.length_drop] at hlt
  have hd : start + j < data.length := by omega
  refine ⟨by omega,by omega,?_,?_⟩
  · rw [List.getElem?_eq_getElem hd]
    simpa using hat
  · intro i hi hb he
    have hn := hbefore (i - start) (by omega)
    have hs : start + (i - start) = i := by omega
    have hid : i < data.length := by omega
    rw [List.getElem?_eq_getElem hid] at he
    simp [hs,Option.some.inj he] at hn

theorem next_break_none {data : Bytes} {start n : ℕ} (h : nextBreak data start n = none) :
    newline ∉ (data.drop start).take n := by
  simp only [nextBreak,Option.map_eq_none_iff,List.findIdx?_eq_none_iff] at h
  intro hm
  simpa using h _ hm

def Pushes (held held' : List (ℕ × Bytes)) (pushed : List Bytes) : Prop :=
  held'.map Prod.snd = (held.map Prod.snd ++ pushed).rtake 10

theorem held_length_le {ring : AesdCircularBuffer ℕ} {held : List (ℕ × Bytes)} (hw : Wf ring)
    (he : content ring = held.map toEntry) : (held.map Prod.snd).length ≤ 10 := by
  rw [List.length_map,← List.length_map toEntry,← he,content_length]
  exact hw.count_le

theorem pushes_nil {ring : AesdCircularBuffer ℕ} {held : List (ℕ × Bytes)} (hw : Wf ring)
    (he : content ring = held.map toEntry) : Pushes held held [] := by
  rw [Pushes,List.append_nil,Recent.rtake_of_le (held_length_le hw he)]

theorem pushes_cons {held held' : List (ℕ × Bytes)} {p : ℕ} {cmd : Bytes} {rest : List Bytes}
    (h : Pushes ((held ++ [(p,cmd)]).rtake 10) held' rest) : Pushes held held' (cmd :: rest) := by
  rw [Pushes] at h ⊢
  rw [h,Recent.map_rtake,Recent.rtake_rtake_append,List.map_append]
  simp

theorem newline_loop_refines (env : CallEnv) {fuel : ℕ} {s : LoopState} {q : ℕ} {data : Bytes}
    {held : List (ℕ × Bytes)} (h : AtLoop s q data held) (hfuel : s.readSize ≤ fuel) :
    newlineLoop env (some q) fuel s = .error .nullWrite ∧ AllocFails env ∨
      ∃ more s' held', newlineLoop env (some q) fuel s = .ok (more,s') ∧
        AtLoop s' q data held' ∧
        Pushes held held' (cutLoop env data fuel s.mem.kmallocs s.cmdStart s.readSize).pushed ∧
        (cutLoop env data fuel s.mem.kmallocs s.cmdStart s.readSize).stop =
          (if more then some (s'.cmdStart,s'.mem.kmallocs) else none) ∧
        (more = true → nextBreak data s'.cmdStart s'.readSize = none) := by
  induction fuel generalizing s held with
  | zero =>
    have hz : s.readSize = 0 := by omega
    exact Or.inr ⟨true,s,held,rfl,h,pushes_nil h.wf h.entries,rfl,fun _ => by simp [nextBreak,hz]⟩
  | succ fuel ih =>
    have hmem : memchr env s.mem (some q) s.cmdStart s.readSize =
        .ok (nextBreak data s.cmdStart s.readSize) :=
      memchr_live h.heap (List.mem_cons_self ..) h.within
    cases hb : nextBreak data s.cmdStart s.readSize with
    | none =>
      rw [hb] at hmem
      exact Or.inr ⟨true,s,held,by simp [newlineLoop,hmem],h,
        by simpa [cutLoop,hb] using pushes_nil h.wf h.entries,by simp [cutLoop,hb],fun _ => hb⟩
    | some brk =>
      rw [hb] at hmem
      obtain ⟨hlo,hhi,-,-⟩ := next_break_some hb
      cases hk : env.kmallocOk s.mem.kmallocs with
      | false => exact Or.inl ⟨by simp [newlineLoop,hmem,push_command_oops h hk brk],_,hk⟩
      | true =>
        cases hk' : env.kmallocOk (s.mem.kmallocs + 1) with
        | false =>
          obtain ⟨m,hp,ha⟩ := push_command_enomem h hk hk' brk
          exact Or.inr ⟨false,_,held,by simp [newlineLoop,hmem,hp],ha,
            by simpa [cutLoop,hb,hk'] using pushes_nil h.wf h.entries,by simp [cutLoop,hb,hk'],
            by simp⟩
        | true =>
          obtain ⟨p,s₁,hp,hstart,hread,hcalls,ha⟩ := push_command_ok h hk hk' hhi
          have hloop : newlineLoop env (some q) (fuel + 1) s = newlineLoop env (some q) fuel s₁ := by
            simp [newlineLoop,hmem,hp]
          rcases ih ha (by omega) with ⟨herr,hf⟩ | ⟨more,s',held',hok,ha',hpush,hstop,hend⟩
          · exact Or.inl ⟨hloop.trans herr,hf⟩
          · rw [hstart,hread,hcalls] at hpush hstop
            exact Or.inr ⟨more,s',held',hloop.trans hok,ha',
              by simpa [cutLoop,hb,hk'] using pushes_cons hpush,
              by simpa [cutLoop,hb,hk'] using hstop,hend⟩

end Cutting
