import Aesd.Server.DeviceOps

namespace ClientHandler
open Kernel Device Scan Delimited

-- a packet here still has its newline
structure ShortPackets (s : Bytes) : Prop where
  packets : ∀ p ∈ pieces newline s, p.length ≤ bufferSize
  rest : (residue newline s).length < bufferSize

theorem room_left {s : Bytes} (hs : ShortPackets s) {q : Bytes} (hq : q <+: s) :
    (residue newline q).length < bufferSize := by
  rcases residue_within hq with ⟨p,hp,hlt⟩ | hle
  · exact Nat.lt_of_lt_of_le hlt (hs.packets p hp)
  · exact Nat.lt_of_le_of_lt hle hs.rest

structure DataPackets (packets : List Bytes) : Prop where
  lines : ∀ p ∈ packets, newline ∉ p
  data : ∀ p ∈ packets, ¬ aesdIoctlSeekto <:+: p
  short : ∀ p ∈ packets, p.length < bufferSize

def stream (packets : List Bytes) : Bytes := (packets.map (· ++ [newline])).flatten

theorem stream_short {packets : List Bytes} (hp : DataPackets packets) :
    ShortPackets (stream packets) := by
  refine ⟨?_,?_⟩
  · intro p hm
    rw [stream,pieces_lines hp.lines] at hm
    obtain ⟨q,hq,rfl⟩ := List.mem_map.mp hm
    have := hp.short q hq
    simp only [List.length_append,List.length_singleton]
    omega
  · rw [stream,residue_lines hp.lines]
    decide

theorem strstr_iff (s needle : Bytes) : strstr s needle = true ↔ needle <:+: s := by
  induction s with
  | nil => simp [strstr]
  | cons c s ih => simp [strstr,ih,List.infix_cons_iff]

theorem text_within {p needle : Bytes} (h : needle <:+: cText p) : needle <:+: p :=
  h.trans (List.takeWhile_prefix _).isInfix

def Pc.committed : Pc → Bool
  | .unlock | .reset | .read | .send _ => true
  | _ => false

def finished (evs : List Event) (h : Handler) : ℕ :=
  (consumed evs h).count newline + if h.pc.committed then 1 else 0

def storedBy (h : Handler) : Event → List Bytes
  | .write ok => if ok = true ∧ h.pc = .writeNewline then [h.payload] else []
  | _ => []

def storedPackets (evs : List Event) : List Bytes := Runs.outputs step storedBy init evs

def Event.answers : Event → ℕ
  | .read (some []) => 1
  | _ => 0

structure DataRun (packets : List Bytes) (evs : List Event) (h : Handler) : Prop where
  noSeek : ∀ arg, h.pc ≠ .ioctl arg
  defined : h.pc ≠ .undefined
  stored : storedPackets evs = packets.take (finished evs h)

section DataRuns
variable {packets : List Bytes} {evs : List Event} {h h' : Handler} {ev : Event}

theorem consumed_within {s : Bytes} (hs : received evs <+: s) : consumed evs h <+: s :=
  (List.take_prefix _ _).trans hs

theorem packet_at (hp : DataPackets packets) (hf : Framed evs h)
    (hs : received evs <+: stream packets) (hpc : h.pc.atPacket = true) :
    packets[(consumed evs h).count newline]? = some (residue newline (consumed evs h)) := by
  obtain ⟨hi,hb⟩ := hf.newline hpc
  have hnext : consumed evs { h with i := h.i + 1 } = consumed evs h ++ [h.readBuffer h.i] :=
    consumed_next hf hi rfl rfl rfl
  have hpre : consumed evs h ++ [newline] <+: stream packets := by
    rw [← hb,← hnext]
    exact consumed_within hs
  exact (line_completed hp.lines hpre).2

theorem payload_at (hp : DataPackets packets) (hf : Framed evs h) (hd : Disciplined evs h)
    (hs : received evs <+: stream packets) (hpc : h.pc.atPacket = true)
    (hr : h.pc.responding = false) : packets[(consumed evs h).count newline]? = some h.payload := by
  have hne : h.pc ≠ .undefined := by
    rintro he
    simp [he,Pc.atPacket,Pc.inSection,Pc.responding] at hpc
  rw [packet_at hp hf hs hpc,(hd.assembled hne hr).payload]

theorem stored_packets_snoc (hr : Runs.run step init evs = some h) (hs : step h ev = some h') :
    storedPackets (evs ++ [ev]) = storedPackets evs ++ storedBy h ev := Runs.outputs_snoc hr hs

theorem answers_fetched {content : Option Bytes} (hne : content ≠ some []) :
    (Event.read content).answers = 0 := by
  unfold Event.answers
  split
  · rename_i heq
    cases heq
    exact absurd rfl hne
  · rfl

theorem consumed_lines (hf : Framed evs h) (hs : step h ev = some h') (he : ev.failed = false) :
    (consumed (evs ++ [ev]) h').count newline = (consumed evs h).count newline + ev.answers := by
  have hnext (hq : ev.bytes = []) (hi : h.i < h.bytesReceived)
      (hn : h'.bytesReceived = h.bytesReceived) (hb : h'.readBuffer = h.readBuffer)
      (hi' : h'.i = h.i + 1) : (consumed (evs ++ [ev]) h').count newline =
        (consumed evs h).count newline + if h.readBuffer h.i = newline then 1 else 0 := by
    rw [consumed_quiet hq,consumed_next hf hi hn hb hi',List.count_append,List.count_singleton]
    simp
  cases step_move hs with
  | received hpc => rw [consumed_recv (hf.drained hpc) rfl rfl]; rfl
  | stored hpc hi hb =>
    rw [hnext rfl hi rfl rfl rfl,if_neg hb]
    rfl
  | finished hpc =>
    obtain ⟨hi,hb⟩ := hf.newline (by rw [hpc]; rfl)
    rw [hnext rfl hi rfl rfl rfl,if_pos hb]
    rfl
  | seekFailed | dataFailed | newlineFailed => cases he
  | fetched hpc hne =>
    rw [consumed_quiet rfl,consumed_congr rfl rfl,answers_fetched hne]
    rfl
  | _ => rw [consumed_quiet rfl,consumed_congr rfl rfl]; rfl

theorem data_run_step (hp : DataPackets packets) (hr : Runs.run step init evs = some h)
    (hd : Disciplined evs h) (hs : received evs <+: stream packets) (hrun : DataRun packets evs h)
    (hstep : step h ev = some h') (he : ev.failed = false) : DataRun packets (evs ++ [ev]) h' := by
  have hf := framed_run hr
  obtain ⟨hseek,hdef,hst⟩ := hrun
  have hlines := consumed_lines hf hstep he
  have hquiet (hq : storedBy h ev = []) (hc : ev.answers + (if h'.pc.committed then 1 else 0) =
      if h.pc.committed then 1 else 0) :
      storedPackets (evs ++ [ev]) = packets.take (finished (evs ++ [ev]) h') := by
    rw [stored_packets_snoc hr hstep,hq,List.append_nil,hst,finished,finished,hlines,Nat.add_assoc,hc]
  cases step_move hstep with
  | overran hpc hi hb hx =>
    have hh := hd.assembled (by simp [hpc]) (by rw [hpc]; rfl)
    have hroom := room_left (stream_short hp) (consumed_within (h := h) hs)
    rw [← index_payload hh] at hroom
    omega
  | @seek hpc stack hm =>
    have hat := payload_at hp hf hd hs (by rw [hpc]; rfl) (by rw [hpc]; rfl)
    have hmem := List.mem_of_getElem? hat
    have hh := hd.assembled (by simp [hpc]) (by rw [hpc]; rfl)
    rw [← hh.payload] at hh
    rw [packet_text hh (hp.short _ hmem),strstr_iff] at hm
    exact absurd (text_within hm) (hp.data _ hmem)
  | sought hpc => exact absurd hpc (hseek _)
  | wroteNewline hpc =>
    have hat := payload_at hp hf hd hs (by rw [hpc]; rfl) (by rw [hpc]; rfl)
    refine ⟨by simp,by simp,?_⟩
    rw [stored_packets_snoc hr hstep,hst,finished,finished,hlines,hpc]
    simp only [storedBy,hpc,and_self,if_true,Pc.committed,Bool.false_eq_true,if_false,Nat.add_zero,
      Event.answers]
    rw [List.take_add_one,hat]
    rfl
  | seekFailed | dataFailed | newlineFailed => cases he
  | @fetched hpc content hne =>
    exact ⟨by simp,by simp,hquiet rfl (by rw [answers_fetched hne,hpc]; rfl)⟩
  | closed hpc | received hpc | drained hpc | completed hpc | stored hpc | locked hpc | data hpc
  | wroteData hpc | unlocked hpc | cleared hpc | finished hpc | sent hpc =>
    exact ⟨by simp [Handler.nextByte],by simp [Handler.nextByte],
      hquiet (by simp [storedBy,hpc]) (by rw [hpc]; rfl)⟩

theorem data_run (hp : DataPackets packets) (hr : Runs.run step init evs = some h)
    (he : ∀ ev ∈ evs, ev.failed = false) (hs : received evs <+: stream packets) :
    DataRun packets evs h := by
  refine Runs.run_induction (P := fun evs h => (∀ ev ∈ evs, ev.failed = false) →
    received evs <+: stream packets → DataRun packets evs h)
    (fun _ _ => ⟨by simp [init],by simp [init],rfl⟩) ?_ hr he hs
  intro evs ev h h' hrun ih hstep hall hpre
  have hprev : ∀ ev ∈ evs, ev.failed = false := fun x hx => hall x (by simp [hx])
  have hpre' : received evs <+: stream packets := by
    rw [received_snoc] at hpre
    exact (List.prefix_append _ _).trans hpre
  exact data_run_step hp hrun (disciplined_run hrun hprev) hpre' (ih hprev hpre') hstep
    (hall ev (by simp))

end DataRuns

end ClientHandler
