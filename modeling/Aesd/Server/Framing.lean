import Aesd.Server.Segmentation

namespace ClientHandler
open Kernel Device Scan Delimited

-- write_buffer[0, write_buffer_index) at the moment the byte loop meets a newline
def metNewline (h : Handler) : Event → List Bytes
  | .tau => if h.pc = .byte ∧ h.i < h.bytesReceived ∧ h.readBuffer h.i = newline then [h.payload]
      else []
  | _ => []

def heldPackets (evs : List Event) : List Bytes := Runs.outputs step metNewline init evs

def seen (evs : List Event) (h : Handler) : Bytes :=
  consumed evs h ++ if h.pc.atPacket then [newline] else []

structure Frames (s : Bytes) (evs : List Event) (h : Handler) : Prop where
  defined : h.pc ≠ .undefined
  packets : heldPackets evs <+: (pieces newline s).map List.dropLast
  between : h.pc = .byte ∨ h.pc = .recv →
    heldPackets evs = (pieces newline (consumed evs h)).map List.dropLast ∧
      Holds h (residue newline (consumed evs h)) ∧ h.writeBufferIndex < bufferSize
  drained : h.pc = .recv → consumed evs h = received evs
  served : h.pc = .recv → received evs = s →
    heldPackets evs = (pieces newline s).map List.dropLast ∧ Holds h (residue newline s)

section Packets
variable {evs : List Event} {h h' : Handler} {ev : Event} {s : Bytes}

theorem held_packets_snoc (hr : Runs.run step init evs = some h) (hs : step h ev = some h') :
    heldPackets (evs ++ [ev]) = heldPackets evs ++ metNewline h ev := Runs.outputs_snoc hr hs

theorem seen_kept (he : ev.bytes = []) (hn : h'.bytesReceived = h.bytesReceived) (hi : h'.i = h.i)
    (hp : h'.pc.atPacket = h.pc.atPacket) : seen (evs ++ [ev]) h' = seen evs h := by
  rw [seen,seen,consumed_quiet he,consumed_congr hn hi,hp]

theorem held_packets_run (hr : Runs.run step init evs = some h)
    (he : ∀ ev ∈ evs, ev.failed = false) :
    heldPackets evs = (pieces newline (seen evs h)).map List.dropLast := by
  refine Runs.run_induction (P := fun evs h => (∀ ev ∈ evs, ev.failed = false) →
    heldPackets evs = (pieces newline (seen evs h)).map List.dropLast) (fun _ => rfl) ?_ hr he
  intro evs ev h h' hrun ih hs hall
  have hprev : ∀ ev ∈ evs, ev.failed = false := fun x hx => hall x (by simp [hx])
  have hev : ev.failed = false := hall ev (by simp)
  have hf := framed_run hrun
  have hsame (hq : metNewline h ev = []) (hseen : seen (evs ++ [ev]) h' = seen evs h) :
      heldPackets (evs ++ [ev]) = (pieces newline (seen (evs ++ [ev]) h')).map List.dropLast := by
    rw [held_packets_snoc hrun hs,hq,List.append_nil,hseen,ih hprev]
  cases step_move hs with
  | completed hpc hi hb =>
    have hh := (disciplined_run hrun hprev).assembled (by simp [hpc]) (by rw [hpc]; rfl)
    have hbefore : seen evs h = consumed evs h := by
      rw [seen,hpc]
      exact List.append_nil _
    have hafter : seen (evs ++ [.tau]) { h with pc := .lock } = consumed evs h ++ [newline] := by
      rw [seen,consumed_quiet rfl,consumed_congr rfl rfl]
      rfl
    rw [held_packets_snoc hrun hs,ih hprev,hbefore,hafter,pieces_snoc_self,List.map_append]
    simp [metNewline,hpc,hi,hb,hh.payload]
  | stored hpc hi hb =>
    have hbefore : seen evs h = consumed evs h := by
      rw [seen,hpc]
      exact List.append_nil _
    have hnext : consumed evs { h with
        pc := .byte, i := h.i + 1,
        writeBuffer := fun k => if k = h.writeBufferIndex then h.readBuffer h.i else h.writeBuffer k,
        writeBufferIndex := h.writeBufferIndex + 1 } = consumed evs h ++ [h.readBuffer h.i] :=
      consumed_next hf hi rfl rfl rfl
    rw [held_packets_snoc hrun hs,ih hprev,hbefore,seen,consumed_quiet rfl,hnext]
    simp [metNewline,hb,Pc.atPacket,Pc.inSection,Pc.responding,pieces_snoc]
  | finished hpc =>
    obtain ⟨hi,hb⟩ := hf.newline (by rw [hpc]; rfl)
    refine hsame rfl ?_
    have hnext : consumed evs h.nextByte = consumed evs h ++ [h.readBuffer h.i] :=
      consumed_next hf hi rfl rfl rfl
    rw [seen,seen,consumed_quiet rfl,hnext,hb,hpc]
    exact List.append_nil _
  | received hpc =>
    refine hsame rfl ?_
    rw [seen,seen,consumed_recv (hf.drained hpc) rfl rfl,hpc]
    rfl
  | seekFailed | dataFailed | newlineFailed => cases hev
  | drained hpc hi =>
    exact hsame (by simp only [metNewline]; rw [if_neg (by omega)])
      (seen_kept rfl rfl rfl (by rw [hpc]; rfl))
  | overran hpc hi hb =>
    exact hsame (by simp [metNewline,hb]) (seen_kept rfl rfl rfl (by rw [hpc]; rfl))
  | _ hpc => exact hsame (by simp [metNewline,hpc]) (seen_kept rfl rfl rfl (by rw [hpc]; rfl))

theorem seen_within (hf : Framed evs h) (hs : received evs <+: s) : seen evs h <+: s := by
  cases hp : h.pc.atPacket with
  | false =>
    rw [seen,hp]
    simpa using consumed_within (h := h) hs
  | true =>
    obtain ⟨hi,hb⟩ := hf.newline hp
    have hnext : consumed evs { h with i := h.i + 1 } = consumed evs h ++ [h.readBuffer h.i] :=
      consumed_next hf hi rfl rfl rfl
    rw [seen,hp,if_pos rfl,← hb,← hnext]
    exact consumed_within hs

theorem never_overruns (hs : ShortPackets s) (hr : Runs.run step init evs = some h)
    (he : ∀ ev ∈ evs, ev.failed = false) (hpre : received evs <+: s) : h.pc ≠ .undefined := by
  refine Runs.run_induction (P := fun evs h => (∀ ev ∈ evs, ev.failed = false) →
    received evs <+: s → h.pc ≠ .undefined) (fun _ _ => by simp [init]) ?_ hr he hpre
  intro evs ev h h' hrun ih hstep hall hpre
  cases step_move hstep with
  | overran hpc hi hb hx =>
    have hprev : ∀ ev ∈ evs, ev.failed = false := fun x hm => hall x (by simp [hm])
    have hh := (disciplined_run hrun hprev).assembled (by simp [hpc]) (by rw [hpc]; rfl)
    rw [received_snoc] at hpre
    have hroom := room_left hs (consumed_within (h := h) ((List.prefix_append _ _).trans hpre))
    rw [index_payload hh] at hx
    omega
  | _ => simp [Handler.nextByte]

theorem frames_run (hs : ShortPackets s) (hr : Runs.run step init evs = some h)
    (he : ∀ ev ∈ evs, ev.failed = false) (hpre : received evs <+: s) : Frames s evs h := by
  have hf := framed_run hr
  have hheld := held_packets_run hr he
  have hbetween (hpc : h.pc = .byte ∨ h.pc = .recv) :
      heldPackets evs = (pieces newline (consumed evs h)).map List.dropLast ∧
        Holds h (residue newline (consumed evs h)) := by
    have hat : h.pc.atPacket = false := by rcases hpc with hpc | hpc <;> rw [hpc] <;> rfl
    have hr' : h.pc.responding = false := by rcases hpc with hpc | hpc <;> rw [hpc] <;> rfl
    have hd := (disciplined_run hr he).assembled (never_overruns hs hr he hpre) hr'
    rw [seen,hat] at hheld
    exact ⟨by simpa using hheld,hd⟩
  have hdrained (hpc : h.pc = .recv) : consumed evs h = received evs :=
    consumed_received (hf.drained hpc)
  refine ⟨never_overruns hs hr he hpre,?_,fun hpc => ?_,hdrained,fun hpc hall => ?_⟩
  · rw [hheld]
    exact (pieces_mono newline (seen_within hf hpre)).map _
  · obtain ⟨hp,hh⟩ := hbetween hpc
    refine ⟨hp,hh,?_⟩
    rw [index_payload hh]
    exact room_left hs (consumed_within hpre)
  · rw [← hall,← hdrained hpc]
    exact hbetween (Or.inr hpc)

end Packets

theorem packet_framing {s : Bytes} {cut : List Bytes} (hs : ShortPackets s) (hc : Cutting s cut) :
    (∀ evs h, Runs.run step init evs = some h → (∀ ev ∈ evs, ev.failed = false) →
        chunksOf evs <+: cut → Frames s evs h) ∧
      ∃ evs, Complete cut evs := by
  refine ⟨fun evs h hr he hcut => frames_run hs hr he ?_,?_⟩
  · rw [received_chunks,← hc.whole]
    obtain ⟨rest,rfl⟩ := hcut
    rw [List.flatten_append]
    exact List.prefix_append _ _
  · obtain ⟨evs,he,-⟩ := complete_run zeroStack hs hc.upTo hc.sizes
    exact ⟨evs,he⟩

def zeroByteStream : Bytes := [97,0,10,10,98]

theorem packet_framing_with_zero_byte :
    (∀ evs h, Runs.run step init evs = some h → (∀ ev ∈ evs, ev.failed = false) →
        chunksOf evs <+: [[97],[0,10,10],[98]] → Frames zeroByteStream evs h) ∧
      ∃ evs, Complete [[97],[0,10,10],[98]] evs :=
  packet_framing ⟨by decide,by decide⟩ ⟨by decide,by decide⟩

end ClientHandler
