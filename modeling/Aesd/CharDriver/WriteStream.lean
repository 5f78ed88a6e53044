import Aesd.CharDriver.WriteRuns
import Aesd.Library.Delimited

namespace Device
open BlockHeap CircularBuffer AesdCircularBuffer Kernel Cutting Delimited

structure HoldsStream (d : Driver) (s : Bytes) : Prop where
  commands : commands d = ((pieces newline s).rtake 10).map some
  fragment : fragment d = some (residue newline s)
  empty : residue newline s = [] →
    d.dev.incompleteCommandBuffer = none ∧ d.dev.incompleteCommandSize = 0

section Cuts
variable {env : CallEnv} {data : Bytes}

theorem first_break {brk : ℕ} (h : nextBreak data 0 data.length = some brk) :
    newline ∉ data.take brk ∧ brk < data.length ∧
      data = data.take brk ++ newline :: data.drop (brk + 1) := by
  obtain ⟨-,hlt,hat,hbefore⟩ := next_break_some h
  have hb : brk < data.length := by omega
  have hn : data[brk] = newline := by simpa [List.getElem?_eq_getElem hb] using hat
  refine ⟨?_,hb,?_⟩
  · intro hm
    obtain ⟨i,hi,he⟩ := List.getElem_of_mem hm
    have hlen : i < brk := by
      rw [List.length_take] at hi
      omega
    rw [List.getElem_take] at he
    exact hbefore i (Nat.zero_le _) hlen (by rw [List.getElem?_eq_getElem (by omega),he])
  · rw [← hn,List.getElem_cons_drop,List.take_append_drop]

theorem first_command {brk : ℕ} (h : nextBreak data 0 data.length = some brk)
    (beyond : ℕ → UInt8) : extent data beyond 0 (brk + 1) = data.take brk ++ [newline] := by
  obtain ⟨-,hb,hsplit⟩ := first_break h
  have hlen : (data.take brk).length = brk := by
    rw [List.length_take]
    omega
  rw [extent_inside (by omega),List.drop_zero]
  conv_lhs => rw [hsplit]
  rw [List.take_append,hlen,List.take_of_length_le (by omega)]
  simp

theorem no_break_iff (start : ℕ) :
    nextBreak data start (data.length - start) = none ↔ newline ∉ data.drop start := by
  have hall : (data.drop start).take (data.length - start) = data.drop start :=
    List.take_of_length_le (by rw [List.length_drop])
  constructor
  · intro h
    simpa only [hall] using next_break_none h
  · intro h
    simp only [nextBreak,hall,Option.map_eq_none_iff,List.findIdx?_eq_none_iff]
    intro x hx
    simp only [beq_eq_false_iff_ne]
    rintro rfl
    exact h hx

theorem cut_without_break (h : newline ∉ data) :
    cutAll env data = ⟨[],some (0,1)⟩ := by
  have hn : nextBreak data 0 data.length = none := (no_break_iff 0).mpr h
  unfold cutAll
  cases hl : data.length with
  | zero => rfl
  | succ n => rw [cutLoop,← hl,hn]

theorem cut_at_break {brk start kmallocs : ℕ} (h : nextBreak data 0 data.length = some brk)
    (hs : (cutAll env data).stop = some (start,kmallocs)) :
    ∃ rest, (cutAll env data).pushed = (data.take brk ++ [newline]) :: rest.pushed ∧
      rest.stop = some (start,kmallocs) ∧
      rest = cutLoop env data (data.length - 1) 3 (brk + 1) (data.length - (brk + 1)) := by
  obtain ⟨-,hb,-⟩ := first_break h
  obtain ⟨n,hn⟩ : ∃ n, data.length = n + 1 := ⟨data.length - 1,by omega⟩
  have hloop : cutAll env data = if env.kmallocOk 2 then
      ⟨(data.take brk ++ [newline]) ::
        (cutLoop env data (data.length - 1) 3 (brk + 1) (data.length - (brk + 1))).pushed,
        (cutLoop env data (data.length - 1) 3 (brk + 1) (data.length - (brk + 1))).stop⟩
      else ⟨[],none⟩ := by
    rw [← first_command h (env.beyond 2)]
    unfold cutAll
    rw [hn,Nat.add_sub_cancel,cutLoop,← hn,h]
  rw [hloop] at hs ⊢
  split_ifs at hs ⊢ with hk
  exact ⟨_,rfl,hs,rfl⟩

theorem cut_one_line {start kmallocs : ℕ} (hc : data.count newline ≤ 1)
    (hs : (cutAll env data).stop = some (start,kmallocs)) :
    (cutAll env data).pushed = pieces newline data ∧ data.drop start = residue newline data := by
  cases hb : nextBreak data 0 data.length with
  | none =>
    have hn : newline ∉ data := (no_break_iff 0).mp hb
    rw [cut_without_break hn] at hs ⊢
    cases hs
    exact ⟨(pieces_of_not_mem hn).symm,by rw [residue_of_not_mem hn,List.drop_zero]⟩
  | some brk =>
    obtain ⟨hbefore,hlt,hsplit⟩ := first_break hb
    obtain ⟨rest,hp,hstop,hrest⟩ := cut_at_break hb hs
    have hafter : newline ∉ data.drop (brk + 1) := by
      rw [hsplit,List.count_append,List.count_cons_self] at hc
      exact List.count_eq_zero.mp (by omega)
    have hnone := (no_break_iff (brk + 1)).mpr hafter
    have hend : rest = ⟨[],some (brk + 1,3)⟩ := by
      rw [hrest]
      cases data.length - 1 with
      | zero => rfl
      | succ n => rw [cutLoop,hnone]
    rw [hend] at hstop
    cases hstop
    rw [hp,hend]
    constructor
    · conv_rhs => rw [hsplit,pieces_line _ hbefore,pieces_of_not_mem hafter]
    · conv_rhs => rw [hsplit,residue_line,residue_of_not_mem hafter]

-- past the first command the size is still counted from the start of the buffer, so that the copy
-- runs on behind its own newline
theorem cut_past_start {fuel kmallocs start n : ℕ} (h : 0 < start) :
    ∀ c ∈ (cutLoop env data fuel kmallocs start n).pushed, newline ∈ c.dropLast := by
  induction fuel generalizing kmallocs start n with
  | zero => simp [cutLoop]
  | succ fuel ih =>
    intro c hc
    rw [cutLoop] at hc
    cases hb : nextBreak data start n with
    | none => simp [hb] at hc
    | some brk =>
      obtain ⟨hlo,-,hat,-⟩ := next_break_some hb
      rw [hb] at hc
      simp only at hc
      split_ifs at hc
      · rcases List.mem_cons.mp hc with rfl | hc
        · have hpos : (extent data (env.beyond (kmallocs + 1)) start (brk + 1))[brk - start]? =
              some newline := by
            have hs : start + (brk - start) = brk := by omega
            have hlt : brk - start < brk + 1 := by omega
            simp [extent,hs,hat,hlt]
          refine List.mem_of_getElem? (i := brk - start) ?_
          rw [List.getElem?_dropLast,extent_length,if_pos (by omega)]
          exact hpos
        · exact ih (by omega) c hc
      · simp at hc

theorem cut_two_lines {start kmallocs : ℕ} (hc : 2 ≤ data.count newline)
    (hs : (cutAll env data).stop = some (start,kmallocs)) :
    ∃ pushed c, (cutAll env data).pushed = pushed ++ [c] ∧ newline ∈ c.dropLast := by
  cases hb : nextBreak data 0 data.length with
  | none =>
    have hn : newline ∉ data := (no_break_iff 0).mp hb
    rw [List.count_eq_zero_of_not_mem hn] at hc
    omega
  | some brk =>
    obtain ⟨hbefore,hlt,hsplit⟩ := first_break hb
    obtain ⟨rest,hp,hstop,hrest⟩ := cut_at_break hb hs
    have hafter : newline ∈ data.drop (brk + 1) := by
      rw [hsplit,List.count_append,List.count_eq_zero_of_not_mem hbefore,
        List.count_cons_self] at hc
      exact List.count_pos_iff.mp (by omega)
    have hlong : 1 < data.length := Nat.lt_of_lt_of_le hc (List.count_le_length)
    have hne : rest.pushed ≠ [] := by
      obtain ⟨n,hn⟩ : ∃ n, data.length - 1 = n + 1 := ⟨data.length - 2,by omega⟩
      cases hb' : nextBreak data (brk + 1) (data.length - (brk + 1)) with
      | none => exact absurd hafter ((no_break_iff _).mp hb')
      | some brk' =>
        rw [hrest,hn,cutLoop,hb'] at hstop ⊢
        simp only at hstop ⊢
        split_ifs at hstop ⊢
        simp
    obtain ⟨c,hlast⟩ : ∃ c, c ∈ rest.pushed.getLast? := by
      cases hr : rest.pushed.getLast? with
      | none => exact absurd (List.getLast?_eq_none_iff.mp hr) hne
      | some c => exact ⟨c,rfl⟩
    obtain ⟨init,hinit⟩ := List.getLast?_eq_some_iff.mp hlast
    have hpast : ∀ c ∈ rest.pushed, newline ∈ c.dropLast := by
      rw [hrest]
      exact cut_past_start (Nat.succ_pos brk)
    exact ⟨(data.take brk ++ [newline]) :: init,c,by rw [hp,hinit]; rfl,hpast c (by simp [hinit])⟩

end Cuts

section Streams
variable {env : CallEnv} {d d' : Driver} {s buf : Bytes} {r : ℤ}

theorem stored_stream (h : HoldsStream d s) (hd : ∃ L, Shows d L) :
    ∃ held frag, Stored d held frag ∧ held.map Prod.snd = (pieces newline s).rtake 10 ∧
      fragBytes frag = residue newline s := by
  obtain ⟨L,hL⟩ := hd
  have hc := hL.commands
  have hf := hL.fragment
  rw [h.commands] at hc
  rw [h.fragment] at hf
  obtain ⟨cmds,f⟩ := L
  cases hf
  obtain ⟨held,frag,hs,hcmds,hfrag⟩ := hL.stored
  refine ⟨held,frag,hs,?_,hfrag⟩
  rw [hcmds]
  exact (List.map_injective_iff.mpr (Option.some_injective _) hc).symm

theorem stored_holds_stream {held : List (ℕ × Bytes)} {frag : Option (ℕ × Bytes)}
    (h : Stored d held frag) (hc : held.map Prod.snd = (pieces newline s).rtake 10)
    (hf : fragBytes frag = residue newline s) : HoldsStream d s where
  commands := by rw [h.commands,hc]
  fragment := by rw [h.fragment,hf]
  empty := fun he => ⟨h.buffer_none.mpr (hf.trans he),by rw [h.size,hf,he]; rfl⟩

theorem write_one_line {held : List (ℕ × Bytes)} {frag : Option (ℕ × Bytes)}
    (h : Stored d held frag) (hf : newline ∉ fragBytes frag) (hb : buf.count newline ≤ 1)
    (hw : aesdWrite env d buf = .ok (r,d')) (hr : 0 ≤ r) :
    ∃ held' frag', Stored d' held' frag' ∧
      held'.map Prod.snd =
        (held.map Prod.snd ++ pieces newline (fragBytes frag ++ buf)).rtake 10 ∧
      fragBytes frag' = residue newline (fragBytes frag ++ buf) ∧ r = buf.length := by
  obtain ⟨start,kmallocs,hstop,hres,hshow⟩ := stored_write_success h hw hr
  have hcount : (fragBytes frag ++ buf).count newline ≤ 1 := by
    rw [List.count_append,List.count_eq_zero_of_not_mem hf]
    omega
  obtain ⟨hpushed,hdrop⟩ := cut_one_line hcount hstop
  rw [hpushed,hdrop] at hshow
  obtain ⟨held',frag',hs,hc,hfrag⟩ := hshow.stored
  exact ⟨held',frag',hs,hc,hfrag,hres⟩

theorem stream_write (h : HoldsStream d s) (hd : ∃ L, Shows d L) (hb : buf.count newline ≤ 1)
    (hw : aesdWrite env d buf = .ok (r,d')) (hr : 0 ≤ r) : HoldsStream d' (s ++ buf) := by
  obtain ⟨held,frag,hs,hc,hf⟩ := stored_stream h hd
  obtain ⟨held',frag',hs',hc',hf',-⟩ := write_one_line hs
    (by rw [hf]; exact not_mem_residue s) hb hw hr
  refine stored_holds_stream hs' ?_ (by rw [hf',hf,← residue_append])
  rw [hc',hc,hf,Recent.rtake_rtake_append,← pieces_append]

theorem stream_write_two_lines (h : HoldsStream d s) (hd : ∃ L, Shows d L)
    (hb : 2 ≤ buf.count newline) (hw : aesdWrite env d buf = .ok (r,d')) (hr : 0 ≤ r) :
    ¬ HoldsStream d' (s ++ buf) := by
  intro hstream
  obtain ⟨held,frag,hs,hc,hf⟩ := stored_stream h hd
  obtain ⟨start,kmallocs,hstop,-,hshow⟩ := stored_write_success hs hw hr
  have hcount : 2 ≤ (fragBytes frag ++ buf).count newline := by
    rw [List.count_append]
    omega
  obtain ⟨pushed,c,hp,hmem⟩ := cut_two_lines hcount hstop
  have hcmds := hstream.commands
  rw [hshow.commands] at hcmds
  have heq : (held.map Prod.snd ++ (cutAll env (fragBytes frag ++ buf)).pushed).rtake 10 =
      (pieces newline (s ++ buf)).rtake 10 :=
    List.map_injective_iff.mpr (Option.some_injective _) hcmds
  have hin : c ∈ (held.map Prod.snd ++ (cutAll env (fragBytes frag ++ buf)).pushed).rtake 10 := by
    rw [hp,← List.append_assoc]
    exact Recent.last_mem_rtake _ c (by omega)
  rw [heq] at hin
  obtain ⟨b,hb',rfl⟩ := mem_pieces (List.mem_of_mem_drop hin)
  rw [List.dropLast_concat] at hmem
  exact hb' hmem

end Streams

section Granted
variable {env : CallEnv} {d : Driver}

theorem cut_granted (hk : ∀ k, env.kmallocOk k = true) (data : Bytes) (fuel kmallocs start n : ℕ) :
    ∃ stop, (cutLoop env data fuel kmallocs start n).stop = some stop := by
  induction fuel generalizing kmallocs start n with
  | zero => exact ⟨_,rfl⟩
  | succ fuel ih =>
    rw [cutLoop]
    cases nextBreak data start n with
    | none => exact ⟨_,rfl⟩
    | some brk => simpa [hk] using ih (kmallocs + 2) (brk + 1) (n - (brk + 1))

theorem granted_write {held : List (ℕ × Bytes)} {frag : Option (ℕ × Bytes)}
    (h : Stored d held frag) (hi : env.interrupted = false) (hu : env.uncopied = false)
    (hk : ∀ k, env.kmallocOk k = true) (buf : Bytes) :
    ∃ d', aesdWrite env d buf = .ok (buf.length,d') := by
  rcases aesd_write_spec env h buf with ⟨-,k,hfail⟩ | ⟨d',hok,-⟩
  · rw [hk k] at hfail
    cases hfail
  · obtain ⟨⟨start,kmallocs⟩,hstop⟩ := cut_granted hk (fragBytes frag ++ buf)
      (fragBytes frag ++ buf).length 1 0 (fragBytes frag ++ buf).length
    refine ⟨d',hok.trans ?_⟩
    simp [logicalWrite,hi,hu,hk,-List.length_append,hstop]

theorem lines_written {lines : List Bytes} (h : ∀ line ∈ lines, newline ∉ line) :
    ∃ d, Runs.run writeStep aesdInitModule
        (lines.map fun line => ⟨calm,line ++ [newline]⟩) = some d ∧
      HoldsStream d (lines.map (· ++ [newline])).flatten := by
  induction lines using List.reverseRecOn with
  | nil => exact ⟨aesdInitModule,rfl,stored_holds_stream stored_init rfl rfl⟩
  | append_singleton lines line ih =>
    obtain ⟨d,hd,hs⟩ := ih fun l hl => h l (by simp [hl])
    have hshown := reachable_shown ⟨_,hd⟩
    obtain ⟨held,frag,hstored,-,-⟩ := stored_stream hs hshown
    have hcalm (k : ℕ) : calm.kmallocOk k = true := rfl
    obtain ⟨d',hw⟩ := granted_write hstored rfl rfl hcalm (line ++ [newline])
    have hstep : writeStep d ⟨calm,line ++ [newline]⟩ = some d' := by simp [writeStep,hw]
    have hone : (line ++ [newline]).count newline ≤ 1 := by
      rw [List.count_append,List.count_eq_zero_of_not_mem (h line (by simp))]
      simp
    refine ⟨d',?_,?_⟩
    · rw [List.map_append]
      exact Runs.run_join hd (Runs.run_step hstep)
    · rw [List.map_append,List.flatten_append]
      simpa using stream_write hs hshown hone hw (Int.natCast_nonneg _)

end Granted

def writtenBytes (calls : List WriteCall) : Bytes := calls.flatMap (·.buf)

theorem stream_shown {calls : List WriteCall} {d : Driver}
    (h : Runs.run storeStep aesdInitModule calls = some d) : ∃ L, Shows d L := by
  refine Runs.run_invariant (I := fun d => ∃ L, Shows d L) ?_ ⟨_,.intact stored_init⟩ h
  rintro d c d' ⟨L,hL⟩ hs
  obtain ⟨r,-,hw⟩ := store_step_returns hs
  exact shown_write hL hw

theorem write_stream_exact {calls : List WriteCall} {d : Driver}
    (h : Runs.run storeStep aesdInitModule calls = some d) :
    (∀ done, done <+: calls → ∀ m, Runs.run storeStep aesdInitModule done = some m →
        HoldsStream m (writtenBytes done)) ↔
      ∀ c ∈ calls, c.buf.count newline ≤ 1 := by
  rw [← Runs.along_forall_iff (p := fun c : WriteCall => c.buf.count newline ≤ 1) h]
  refine Runs.prefixes_iff_along (I := fun done m => HoldsStream m (writtenBytes done))
    (stored_holds_stream stored_init rfl rfl) ?_ h
  intro done c m m' hrun hstream hs
  obtain ⟨r,hr,hw⟩ := store_step_returns hs
  have hbytes : writtenBytes (done ++ [c]) = writtenBytes done ++ c.buf := by simp [writtenBytes]
  rw [hbytes]
  constructor
  · intro hafter
    by_contra hmany
    exact stream_write_two_lines hstream (stream_shown hrun) (by omega) hw hr hafter
  · intro hone
    exact stream_write hstream (stream_shown hrun) hone hw hr

theorem write_stream_exact_of_three :
    ∃ d, Runs.run storeStep aesdInitModule [⟨calm,[97]⟩,⟨calm,[98,10,99]⟩,⟨calm,[10]⟩] = some d ∧
      ((∀ done, done <+: [⟨calm,[97]⟩,⟨calm,[98,10,99]⟩,⟨calm,[10]⟩] →
          ∀ m, Runs.run storeStep aesdInitModule done = some m → HoldsStream m (writtenBytes done)) ↔
        ∀ c ∈ [(⟨calm,[97]⟩ : WriteCall),⟨calm,[98,10,99]⟩,⟨calm,[10]⟩], c.buf.count newline ≤ 1) := by
  obtain ⟨d,hd⟩ := Option.isSome_iff_exists.mp (show (Runs.run storeStep aesdInitModule
    [⟨calm,[97]⟩,⟨calm,[98,10,99]⟩,⟨calm,[10]⟩]).isSome by decide)
  exact ⟨d,hd,write_stream_exact hd⟩

theorem two_lines_in_one_write :
    ∃ d, Runs.run storeStep aesdInitModule [⟨calm,[97,10,98,10]⟩] = some d ∧
      commands d = [some [97,10],some [98,10,0,0]] ∧
      ¬ HoldsStream d (writtenBytes [⟨calm,[97,10,98,10]⟩]) := by
  obtain ⟨d,hd,hc⟩ := Option.map_eq_some_iff.mp (show (Runs.run storeStep aesdInitModule
    [⟨calm,[97,10,98,10]⟩]).map commands = some [some [97,10],some [98,10,0,0]] by decide)
  refine ⟨d,hd,hc,fun hs => ?_⟩
  have hcmds := hs.commands
  rw [hc] at hcmds
  revert hcmds
  decide

end Device
