import Aesd.CharDriver.Seek
import Aesd.CharDriver.Slots
import Aesd.CharDriver.WriteStream

namespace Device
open BlockHeap CircularBuffer AesdCircularBuffer Kernel Cutting Delimited Rotation

section Turning
variable {env : CallEnv} {s s' : LoopState} {q : ℕ} {data : Bytes} {held : List (ℕ × Bytes)}

theorem push_command_turns {buffer : Option ℕ} {brk : ℕ}
    (h : pushCommand env buffer s brk = .ok (true,s')) :
    s'.ring.inOffs = (s.ring.inOffs + 1) % 10 := by
  unfold pushCommand at h
  generalize kmalloc env s.mem (brk + 1) = allocated at h
  obtain ⟨subcmd,m⟩ := allocated
  obtain ⟨m₁,-,h⟩ := bind_some h
  generalize kmalloc env m₁ (brk + 1) = allocated at h
  obtain ⟨buffptr,m₂⟩ := allocated
  cases buffptr with
  | none =>
    obtain ⟨m₃,-,h⟩ := bind_some h
    cases h
  | some p =>
    obtain ⟨m₃,-,h⟩ := bind_some h
    obtain ⟨m₄,-,h⟩ := bind_some h
    obtain ⟨m₅,-,h⟩ := bind_some h
    cases h
    exact add_entry_in _ _

theorem newline_loop_turns {fuel : ℕ} {more : Bool} (h : AtLoop s q data held)
    (hok : newlineLoop env (some q) fuel s = .ok (more,s')) :
    s'.ring.inOffs = (s.ring.inOffs +
      (cutLoop env data fuel s.mem.kmallocs s.cmdStart s.readSize).pushed.length) % 10 := by
  induction fuel generalizing s held with
  | zero =>
    cases hok
    exact (Nat.mod_eq_of_lt h.wf.in_lt).symm
  | succ fuel ih =>
    have hmem : memchr env s.mem (some q) s.cmdStart s.readSize =
        .ok (nextBreak data s.cmdStart s.readSize) :=
      memchr_live h.heap (List.mem_cons_self ..) h.within
    cases hb : nextBreak data s.cmdStart s.readSize with
    | none =>
      rw [hb] at hmem
      simp only [newlineLoop,hmem,ok_bind,pure_ok,Except.ok.injEq,Prod.mk.injEq] at hok
      rw [← hok.2,cutLoop,hb]
      exact (Nat.mod_eq_of_lt h.wf.in_lt).symm
    | some brk =>
      rw [hb] at hmem
      obtain ⟨-,hhi,-,-⟩ := next_break_some hb
      cases hk : env.kmallocOk s.mem.kmallocs with
      | false => simp [newlineLoop,hmem,push_command_oops h hk brk] at hok
      | true =>
        cases hk' : env.kmallocOk (s.mem.kmallocs + 1) with
        | false =>
          obtain ⟨m,hp,-⟩ := push_command_enomem h hk hk' brk
          simp only [newlineLoop,hmem,ok_bind,hp,Bool.false_eq_true,if_false,pure_ok,
            Except.ok.injEq,Prod.mk.injEq] at hok
          rw [← hok.2,cutLoop,hb]
          simpa [hk'] using (Nat.mod_eq_of_lt h.wf.in_lt).symm
        | true =>
          obtain ⟨p,s₁,hp,hstart,hread,hcalls,ha⟩ := push_command_ok h hk hk' hhi
          have hturn := push_command_turns hp
          simp only [newlineLoop,hmem,ok_bind,hp,if_true] at hok
          have hrest := ih ha hok
          rw [hstart,hread,hcalls] at hrest
          rw [cutLoop,hb]
          simp only [hk',if_true,List.length_cons]
          omega

theorem store_remainder_ring {buffer : Option ℕ} {total : ℕ} {stored : Bool} {dev : AesdDev}
    {m : Memory} (h : storeRemainder env buffer total s = .ok (stored,dev,m)) :
    dev.circularBuffer = s.ring := by
  unfold storeRemainder at h
  split at h
  · simp only at h
    generalize kmalloc env s.mem (total - s.cmdStart) = allocated at h
    obtain ⟨remaining,m₁⟩ := allocated
    cases remaining with
    | none =>
      cases h
      rfl
    | some p =>
      obtain ⟨m₂,-,h⟩ := bind_some h
      obtain ⟨m₃,-,h⟩ := bind_some h
      cases h
      rfl
  · obtain ⟨m₁,-,h⟩ := bind_some h
    cases h
    rfl

end Turning

section Lines
variable {env : CallEnv} {d d' : Driver} {held : List (ℕ × Bytes)} {frag : Option (ℕ × Bytes)}
  {buf s : Bytes} {r : ℤ}

-- without a buffer the call succeeds only if there is nothing to store
theorem empty_write_turns (h : Stored d held frag) (hi : env.interrupted = false)
    (hk : env.kmallocOk 0 = false) (hw : aesdWrite env d buf = .ok (r,d')) :
    fragBytes frag ++ buf = [] ∧ d'.dev.circularBuffer = d.dev.circularBuffer := by
  rcases write_without_buffer env h hi hk buf with herr | ⟨rfl,rfl,-⟩
  · rw [herr] at hw
    cases hw
  · have hbuf := h.buffer
    have hsize : d.dev.incompleteCommandSize = 0 := h.size
    have hnone : kmalloc env ⟨d.heap,0⟩ 0 = (none,⟨d.heap,1⟩) := by simp [kmalloc,hk]
    simp only [aesdWrite,hi,Bool.false_eq_true,if_false,hsize,List.length_nil,Nat.add_zero,hnone,
      mergeFragment,hbuf,Option.map_none,ok_bind,copyFromUser,List.isEmpty_nil,Bool.not_true,
      Bool.and_false,save,if_true,pure_ok,newlineLoop,storeRemainder,Nat.lt_irrefl,kfree] at hw
    obtain ⟨m,-,hw⟩ := bind_some hw
    cases hw
    exact ⟨rfl,rfl⟩

theorem aesd_write_turns (h : Stored d held frag)
    (hw : aesdWrite env d buf = .ok (r,d')) (hr : 0 ≤ r) :
    d'.dev.circularBuffer.inOffs = (d.dev.circularBuffer.inOffs +
      (cutAll env (fragBytes frag ++ buf)).pushed.length) % 10 := by
  cases hi : env.interrupted with
  | true =>
    simp only [aesdWrite,hi,if_true,pure_ok,Except.ok.injEq,Prod.mk.injEq] at hw
    simp [← hw.1,eintr] at hr
  | false =>
    cases hk : env.kmallocOk 0 with
    | false =>
      obtain ⟨hnil,hring⟩ := empty_write_turns h hi hk hw
      rw [hnil,hring]
      exact (Nat.mod_eq_of_lt h.wf.in_lt).symm
    | true =>
      obtain ⟨q,m₁,m₂,hm₁,hm₂,hcalls,hh₂⟩ := buffer_assembled env h hk buf
      obtain ⟨m₃,b,hm₃,hk₃,hh₃,hb⟩ := user_copied env hh₂
      rw [← h.size] at hm₃
      simp only [aesdWrite,hi,Bool.false_eq_true,if_false,hm₁,hm₂,ok_bind,hm₃] at hw
      cases hu : env.uncopied && !buf.isEmpty with
      | true =>
        simp only [hu,if_true] at hw
        obtain ⟨m₄,-,hw⟩ := bind_some hw
        cases hw
        simp [efault] at hr
      | false =>
        obtain rfl := hb hu
        simp only [hu,Bool.false_eq_true,if_false] at hw
        have htotal : d.dev.incompleteCommandSize + buf.length = (fragBytes frag ++ buf).length := by
          rw [h.size,List.length_append]
        rw [htotal] at hw
        have hat : AtLoop ⟨0,(fragBytes frag ++ buf).length,d.dev.circularBuffer,m₃⟩ q
            (fragBytes frag ++ buf) held := ⟨h.wf,h.entries,hh₃,by simp⟩
        obtain ⟨⟨more,s'⟩,hloop,hw⟩ := bind_some hw
        have hturn := newline_loop_turns hat hloop
        have hone : m₃.kmallocs = 1 := hk₃.trans hcalls
        simp only [hone] at hturn
        cases more with
        | false =>
          cases hw
          simp [enomem] at hr
        | true =>
          obtain ⟨⟨stored,dev,m₄⟩,hstore,hw⟩ := bind_some hw
          cases stored with
          | false =>
            cases hw
            simp [enomem] at hr
          | true =>
            obtain ⟨m₅,-,hw⟩ := bind_some hw
            cases hw
            rw [store_remainder_ring hstore,hturn]
            rfl

-- the stream is held, and the next slot to be written is the one its number of lines names
structure TurnsStream (d : Driver) (s : Bytes) : Prop where
  stored : ∃ held frag, Stored d held frag ∧ held.map Prod.snd = (pieces newline s).rtake 10 ∧
    fragBytes frag = residue newline s
  turned : d.dev.circularBuffer.inOffs = (pieces newline s).length % 10

theorem turns_stream_init : TurnsStream aesdInitModule [] :=
  ⟨⟨[],none,stored_init,rfl,rfl⟩,rfl⟩

theorem TurnsStream.holds (h : TurnsStream d s) : HoldsStream d s := by
  obtain ⟨held,frag,hs,hc,hf⟩ := h.stored
  exact stored_holds_stream hs hc hf

theorem TurnsStream.contents (h : TurnsStream d s) :
    contentBytes d = ((pieces newline s).rtake 10).flatten := by
  obtain ⟨held,frag,hs,hc,-⟩ := h.stored
  obtain ⟨held',hring,hcmds⟩ := (Shows.intact hs).ring
  rw [hring.content_bytes,hcmds,hc]

theorem TurnsStream.write (h : TurnsStream d s) (hb : buf.count newline ≤ 1)
    (hw : aesdWrite env d buf = .ok (r,d')) (hr : 0 ≤ r) : TurnsStream d' (s ++ buf) := by
  obtain ⟨held,frag,hs,hc,hf⟩ := h.stored
  have hline : newline ∉ fragBytes frag := by
    rw [hf]
    exact not_mem_residue s
  obtain ⟨held',frag',hs',hc',hf',-⟩ := write_one_line hs hline hb hw hr
  obtain ⟨start,kmallocs,hstop,-,-⟩ := stored_write_success hs hw hr
  have hcount : (fragBytes frag ++ buf).count newline ≤ 1 := by
    rw [List.count_append,List.count_eq_zero_of_not_mem hline]
    omega
  have hturn := aesd_write_turns hs hw hr
  have hturned := h.turned
  rw [(cut_one_line hcount hstop).1,hf] at hturn
  refine ⟨⟨held',frag',hs',?_,by rw [hf',hf,← residue_append]⟩,?_⟩
  · rw [hc',hc,hf,Recent.rtake_rtake_append,← pieces_append]
  · rw [hturn,pieces_append newline s,List.length_append]
    omega

-- the entries of the lines that have been overwritten are gone, but their sizes can be told
theorem TurnsStream.entries (h : TurnsStream d s) : ∃ es : List (AesdBufferEntry ℕ),
    es.map (·.size) = (pieces newline s).map List.length ∧ Placed es d.dev.circularBuffer := by
  obtain ⟨held,frag,hs,hc,-⟩ := h.stored
  have hsizes : (content d.dev.circularBuffer).map (·.size) =
      ((pieces newline s).rtake 10).map List.length := by
    rw [hs.entries,← hc,List.map_map,List.map_map]
    rfl
  have hlen := congrArg List.length hsizes
  simp only [List.length_map,Recent.length_rtake] at hlen
  have hsplit : (pieces newline s).take ((pieces newline s).length - 10) ++
      (pieces newline s).rtake 10 = pieces newline s := List.take_append_drop _ _
  refine ⟨((pieces newline s).take ((pieces newline s).length - 10)).map
    (fun line => ⟨none,line.length⟩) ++ content d.dev.circularBuffer,?_,?_⟩
  · conv_rhs => rw [← hsplit,List.map_append,← hsizes]
    rw [List.map_append,List.map_map]
    rfl
  · refine placed_of_content hs.wf ?_ ?_
    · rw [List.rtake,List.drop_left']
      simp only [List.length_append,List.length_map,List.length_take]
      omega
    · rw [h.turned]
      simp only [List.length_append,List.length_map,List.length_take]
      omega

def lineSize (s : Bytes) (i : ℕ) : ℕ := ((latest 10 (pieces newline s) i).map List.length).getD 0

theorem TurnsStream.slot_size (h : TurnsStream d s) {i : ℕ} (hi : i < 10) :
    (d.dev.circularBuffer.slot i).size = lineSize s i := by
  obtain ⟨es,hsizes,hplaced⟩ := h.entries
  rw [hplaced.slots i hi,lineSize,← latest_map,← hsizes,latest_map]
  cases latest 10 es i <;> rfl

-- where a seek goes, told from the lines written alone: command x is the last of the lines numbered
-- x, x + 10, x + 20 and so on, and the lines of the slots before x are counted as older
def seekPosition (s : Bytes) (w o : ℕ) : Option ℕ :=
  if w < 10 ∧ o < lineSize s w then some (((List.range w).map (lineSize s)).sum + o) else none

theorem TurnsStream.seek (h : TurnsStream d s) {env : CallEnv} (hu : env.uncopied = false)
    (fPos : ℕ) (arg : AesdSeekto) : aesdUnlockedIoctl env d fPos aesdcharIocseekto arg =
      (seekPosition s arg.writeCmd.toNat arg.writeCmdOffset.toNat).elim (-einval,fPos)
        fun p => (0,p) := by
  rw [ioctl_adjusts hu,seekPosition]
  rcases adjust_file_offset_cases d fPos arg.writeCmd arg.writeCmdOffset with
    ⟨hw,ho,heq⟩ | ⟨hn,heq⟩
  · have hbefore : arrayPrefix d.dev.circularBuffer arg.writeCmd.toNat =
        ((List.range arg.writeCmd.toNat).map (lineSize s)).sum := by
      rw [arrayPrefix]
      congr 1
      refine List.map_congr_left fun i hi => h.slot_size ?_
      have := List.mem_range.mp hi
      omega
    rw [h.slot_size hw] at ho
    rw [heq,if_pos ⟨hw,ho⟩,hbefore]
    rfl
  · have hout : ¬ (arg.writeCmd.toNat < 10 ∧
        arg.writeCmdOffset.toNat < lineSize s arg.writeCmd.toNat) := by
      rintro ⟨hw,ho⟩
      exact hn ⟨hw,by rw [h.slot_size hw]; exact ho⟩
    rw [heq,if_neg hout]
    rfl

theorem turns_stream_run {calls : List WriteCall}
    (hr : Runs.run storeStep aesdInitModule calls = some d)
    (hc : ∀ c ∈ calls, c.buf.count newline ≤ 1) : TurnsStream d (writtenBytes calls) := by
  refine Runs.guarded_induction (P := fun calls d => TurnsStream d (writtenBytes calls))
    turns_stream_init ?_ hr ((Runs.along_forall_iff hr).mpr hc)
  intro done c m m' _ hone hm hs
  obtain ⟨r,hr,hw⟩ := store_step_returns hs
  have hbytes : writtenBytes (done ++ [c]) = writtenBytes done ++ c.buf := by simp [writtenBytes]
  rw [hbytes]
  exact hm.write hone hw hr

end Lines

-- the ioctl in every state that successful writes of one line at most lead to, wrapped or not
theorem seek_addresses_lines {calls : List WriteCall} {d : Driver}
    (hr : Runs.run storeStep aesdInitModule calls = some d)
    (hc : ∀ c ∈ calls, c.buf.count newline ≤ 1) {env : CallEnv} (hu : env.uncopied = false)
    (fPos : ℕ) (arg : AesdSeekto) : aesdUnlockedIoctl env d fPos aesdcharIocseekto arg =
      (seekPosition (writtenBytes calls) arg.writeCmd.toNat arg.writeCmdOffset.toNat).elim
        (-einval,fPos) fun p => (0,p) :=
  (turns_stream_run hr hc).seek hu fPos arg

theorem seek_addresses_lines_after_eleven :
    ∃ d, Runs.run storeStep aesdInitModule elevenWrites = some d ∧
      aesdUnlockedIoctl calm d 7 aesdcharIocseekto ⟨1,0⟩ =
        (seekPosition (writtenBytes elevenWrites) (1 : UInt32).toNat (0 : UInt32).toNat).elim
          (-einval,7) fun p => (0,p) := by
  obtain ⟨d,hd⟩ := Option.isSome_iff_exists.mp
    (show (Runs.run storeStep aesdInitModule elevenWrites).isSome by decide)
  exact ⟨d,hd,seek_addresses_lines hd (by decide) rfl 7 ⟨1,0⟩⟩

end Device
