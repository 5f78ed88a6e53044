import Aesd.Library.Concat
import Aesd.Server.Assembly
import Aesd.Server.Packets

namespace ClientHandler
open Kernel Device Scan Delimited

structure Cutting (s : Bytes) (cut : List Bytes) : Prop where
  whole : cut.flatten = s
  sizes : ∀ c ∈ cut, c ≠ [] ∧ c.length ≤ bufferSize

theorem Cutting.upTo {s : Bytes} {cut : List Bytes} (h : Cutting s cut) : cut.flatten <+: s := by
  simp [h.whole]

structure Complete (cut : List Bytes) (evs : List Event) : Prop where
  chunks : chunksOf evs = cut
  succeeded : ∀ ev ∈ evs, ev.failed = false
  served : ∃ h, Runs.run step init evs = some h ∧ h.pc = .recv

section Serving
variable {evs : List Event} {h : Handler} {s : Bytes}

def Event.usesStack (stack : Stack) : Event → Prop
  | .branch st => st = stack
  | _ => True

structure Quiet (stack : Stack) (evs : List Event) : Prop where
  chunks : chunksOf evs = []
  bytes : received evs = []
  succeeded : ∀ ev ∈ evs, ev.failed = false
  stack : ∀ ev ∈ evs, ev.usesStack stack

theorem Quiet.append {stack : Stack} {xs ys : List Event} (hx : Quiet stack xs)
    (hy : Quiet stack ys) : Quiet stack (xs ++ ys) where
  chunks := by rw [chunksOf,List.flatMap_append,← chunksOf,← chunksOf,hx.chunks,hy.chunks]; rfl
  bytes := by rw [received,List.flatMap_append,← received,← received,hx.bytes,hy.bytes]; rfl
  succeeded := List.forall_mem_append.mpr ⟨hx.succeeded,hy.succeeded⟩
  stack := List.forall_mem_append.mpr ⟨hx.stack,hy.stack⟩

theorem quiet_tau (stack : Stack) : Quiet stack [.tau] :=
  ⟨rfl,rfl,by simp [Event.failed],by simp [Event.usesStack]⟩

theorem serve_response (hpc : h.pc = .unlock) :
    Runs.run step h [.unlock,.tau,.read (some [])] = some { h with
      pc := .byte, holding := false, i := h.i + 1, writeBuffer := fun _ => 0,
      writeBufferIndex := 0 } := by
  have hunlock : step h .unlock = some { h with pc := .reset, holding := false } := by
    simp [step,hpc]
  rw [Runs.run_next hunlock]
  rfl

theorem serve_packet (stack : Stack) (hpc : h.pc = .lock) (hf : h.holding = false) :
    ∃ evs, Quiet stack evs ∧ Runs.run step h evs = some { h with
      pc := .byte, i := h.i + 1, writeBuffer := fun _ => 0, writeBufferIndex := 0 } := by
  have hlock : step h .lock = some { h with pc := .branch, holding := true } := by
    simp [step,hpc,hf]
  cases hm : strstr (h.packetText stack) aesdIoctlSeekto with
  | true =>
    refine ⟨[.lock,.branch stack,.ioctl true,.unlock,.tau,.read (some [])],
      ⟨rfl,rfl,by simp [Event.failed],by simp [Event.usesStack]⟩,?_⟩
    have hbranch : step { h with pc := .branch, holding := true } (.branch stack) = some { h with
        pc := .ioctl (seektoArgs h.readBuffer stack), holding := true } := if_pos hm
    rw [Runs.run_next hlock,Runs.run_next hbranch,Runs.run_next rfl,serve_response rfl]
    simp [hf]
  | false =>
    refine ⟨[.lock,.branch stack,.write true,.write true,.unlock,.tau,.read (some [])],
      ⟨rfl,rfl,by simp [Event.failed],by simp [Event.usesStack]⟩,?_⟩
    have hbranch : step { h with pc := .branch, holding := true } (.branch stack) = some { h with
        pc := .writeData, holding := true } := if_neg (Bool.eq_false_iff.mp hm)
    rw [Runs.run_next hlock,Runs.run_next hbranch,Runs.run_next rfl,Runs.run_next rfl,
      serve_response rfl]
    simp [hf]

theorem serve_byte (stack : Stack) (hpc : h.pc = .byte) (hf : h.holding = false)
    (hi : h.i < h.bytesReceived) (hroom : h.writeBufferIndex < bufferSize) :
    ∃ evs h', Quiet stack evs ∧ Runs.run step h evs = some h' ∧ h'.pc = .byte ∧ h'.i = h.i + 1 ∧
      h'.bytesReceived = h.bytesReceived := by
  by_cases hb : h.readBuffer h.i = newline
  · obtain ⟨evs,hq,hr⟩ := serve_packet (h := { h with pc := .lock }) stack rfl hf
    have htau : step h .tau = some { h with pc := .lock } := by simp [step,hpc,hi,hb]
    exact ⟨_,_,(quiet_tau stack).append hq,Runs.run_join (Runs.run_step htau) hr,rfl,rfl,rfl⟩
  · have htau : step h .tau = some { h with
        pc := .byte, i := h.i + 1,
        writeBuffer := fun k => if k = h.writeBufferIndex then h.readBuffer h.i else h.writeBuffer k,
        writeBufferIndex := h.writeBufferIndex + 1 } := by simp [step,hpc,hi,hb,hroom]
    exact ⟨[.tau],_,quiet_tau stack,Runs.run_step htau,rfl,rfl,rfl⟩

theorem serve_bytes (stack : Stack) (hs : ShortPackets s) {k : ℕ}
    (hr : Runs.run step init evs = some h) (he : ∀ ev ∈ evs, ev.failed = false)
    (hpre : received evs <+: s) (hpc : h.pc = .byte) (hk : h.i + k = h.bytesReceived) :
    ∃ evs' h', Quiet stack evs' ∧ Runs.run step init (evs ++ evs') = some h' ∧ h'.pc = .recv := by
  induction k generalizing evs h with
  | zero =>
    have htau : step h .tau = some { h with pc := .recv } := by
      simp only [step,hpc]
      rw [if_neg (by omega)]
    exact ⟨[.tau],_,quiet_tau stack,Runs.run_join hr (Runs.run_step htau),rfl⟩
  | succ k ih =>
    have hd := disciplined_run hr he
    have hh := hd.assembled (by simp [hpc]) (by rw [hpc]; rfl)
    have hroom := room_left hs ((List.take_prefix _ _).trans hpre : consumed evs h <+: s)
    obtain ⟨es,h',hq,hr',hpc',hi',hn'⟩ := serve_byte stack hpc (hd.free (by rw [hpc]; rfl))
      (by omega) (by rw [index_payload hh]; exact hroom)
    have hbytes : received (evs ++ es) = received evs := by
      rw [received,List.flatMap_append,← received,← received,hq.bytes,List.append_nil]
    obtain ⟨es',h'',hq',hr'',hpc''⟩ := ih (Runs.run_join hr hr')
      (List.forall_mem_append.mpr ⟨he,hq.succeeded⟩) (hbytes ▸ hpre) hpc' (by omega)
    rw [List.append_assoc] at hr''
    exact ⟨es ++ es',h'',hq.append hq',hr'',hpc''⟩

theorem received_chunks (evs : List Event) : received evs = (chunksOf evs).flatten := by
  induction evs with
  | nil => rfl
  | cons ev evs ih =>
    have hev : ev.bytes = ev.chunks.flatten := by
      cases ev with
      | recv data => by_cases hd : data = [] <;> simp [Event.bytes,Event.chunks,hd]
      | _ => rfl
    calc
      received (ev :: evs) = ev.chunks.flatten ++ (chunksOf evs).flatten := by rw [← hev,← ih]; rfl
      _ = (chunksOf (ev :: evs)).flatten := by rw [← List.flatten_append]; rfl

theorem complete_run (stack : Stack) (hs : ShortPackets s) {cut : List Bytes}
    (hc : cut.flatten <+: s) (hsize : ∀ c ∈ cut, c ≠ [] ∧ c.length ≤ bufferSize) :
    ∃ evs, Complete cut evs ∧ ∀ ev ∈ evs, ev.usesStack stack := by
  induction cut using List.reverseRecOn with
  | nil => exact ⟨[],⟨rfl,by simp,init,rfl,rfl⟩,by simp⟩
  | append_singleton cut data ih =>
    rw [List.flatten_append,List.flatten_singleton] at hc
    obtain ⟨evs,⟨hchunks,he,h,hr,hpc⟩,hst⟩ := ih ((List.prefix_append _ _).trans hc)
      fun x hx => hsize x (by simp [hx])
    obtain ⟨hne,hlen⟩ := hsize data (by simp)
    have hrecv : step h (.recv data) = some { h with
        pc := .byte, readBuffer := fun k => data[k]?.getD (h.readBuffer k),
        bytesReceived := data.length, i := 0 } := by
      simp [step,hpc,hne,hlen]
    have hbytes : received (evs ++ [.recv data]) = cut.flatten ++ data := by
      rw [received_snoc,received_chunks,hchunks]
      rfl
    obtain ⟨es,h',hq,hr',hpc'⟩ := serve_bytes (k := data.length) stack hs
      (Runs.run_join hr (Runs.run_step hrecv))
      (List.forall_mem_append.mpr ⟨he,by simp [Event.failed]⟩) (hbytes ▸ hc) rfl (by simp)
    refine ⟨evs ++ [.recv data] ++ es,⟨?_,?_,h',hr',hpc'⟩,?_⟩
    · rw [chunksOf,List.flatMap_append,← chunksOf,← chunksOf,hq.chunks,chunks_of_snoc,hchunks]
      simp [Event.chunks,hne]
    · exact List.forall_mem_append.mpr
        ⟨List.forall_mem_append.mpr ⟨he,by simp [Event.failed]⟩,hq.succeeded⟩
    · exact List.forall_mem_append.mpr
        ⟨List.forall_mem_append.mpr ⟨hst,by simp [Event.usesStack]⟩,hq.stack⟩

end Serving

section Comparing
variable {cut : List Bytes} {evs : List Event} {s : Bytes}

end Comparing

def seekPacket (index offset : Char) : Bytes :=
  aesdIoctlSeekto ++ ascii [index,',',offset,'\n']

end ClientHandler
