import Aesd.Server.FileServer

namespace AesdFile
open Kernel Device ClientHandler AesdSocket Delimited

-- where every packet is data only the branch after the lock is another one
inductive FileMove (h : Handler) : Event → Handler → Prop
  | step {ev : Event} {h' : Handler} (hs : step h ev = some h') (hb : h.pc ≠ .branch) :
      FileMove h ev h'
  | data (hpc : h.pc = .branch) {stack : Stack} :
      FileMove h (.branch stack) { h with pc := .writeData }

theorem file_move {h h' : Handler} {ev : Event} (hc : clientStep false h ev = some h') :
    FileMove h ev h' := by
  unfold clientStep at hc
  split at hc
  · cases hc
    exact .data ‹_›
  · refine .step hc fun hb => ?_
    unfold step at hc
    split at hc <;> simp_all

def lineBy (h : Handler) (ev : Event) : List Bytes := (storedBy h ev).map (· ++ [newline])

def linesBy (evs : List Event) : List Bytes := Runs.outputs (clientStep false) lineBy init evs

-- the bytes of the packets whose lines are complete, with the rest of the packet in the buffer
def served (evs : List Event) (h : Handler) : Bytes :=
  consumed evs h ++ if h.pc.committed then [newline] else []

structure Taken (evs : List Event) (h : Handler) : Prop where
  noSeek : ∀ arg, h.pc ≠ .ioctl arg
  disciplined : Disciplined evs h
  lines : linesBy evs = pieces newline (served evs h)

section Clients
variable {evs : List Event} {h h' : Handler} {ev : Event}

theorem framed_file_step (hf : Framed evs h) (hm : FileMove h ev h') : Framed (evs ++ [ev]) h' := by
  cases hm with
  | step hs => exact framed_step hf hs
  | data hpc =>
    have hp := hf.newline (by rw [hpc]; rfl)
    obtain ⟨before,hl⟩ := hf.last
    exact ⟨last_kept hl rfl rfl,hf.within,by simp,fun _ => hp⟩

theorem framed_file_run (hr : Runs.run (clientStep false) init evs = some h) : Framed evs h :=
  Runs.run_induction framed_init (fun _ _ _ _ _ hf hs => framed_file_step hf (file_move hs)) hr

theorem disciplined_file_step (hf : Framed evs h) (hd : Disciplined evs h) (hm : FileMove h ev h')
    (he : ev.failed = false) : Disciplined (evs ++ [ev]) h' := by
  cases hm with
  | step hs => exact disciplined_step hf hd hs he
  | data hpc =>
    have hown := hd.owned (by rw [hpc]; rfl)
    exact hd.kept rfl (by simp [hpc]) (by rw [hpc]; rfl) (by simp [Pc.inSection]) (fun _ => hown)
      rfl rfl rfl rfl

theorem lines_by_snoc (hr : Runs.run (clientStep false) init evs = some h)
    (hs : clientStep false h ev = some h') : linesBy (evs ++ [ev]) = linesBy evs ++ lineBy h ev :=
  Runs.outputs_snoc hr hs

theorem served_quiet (he : ev.bytes = []) (hn : h'.bytesReceived = h.bytesReceived)
    (hi : h'.i = h.i) (hp : h'.pc.committed = h.pc.committed) :
    served (evs ++ [ev]) h' = served evs h := by
  rw [served,served,consumed_quiet he,consumed_congr hn hi,hp]

theorem Taken.quiet (ht : Taken evs h) (hr : Runs.run (clientStep false) init evs = some h)
    (hs : clientStep false h ev = some h') (hd : Disciplined (evs ++ [ev]) h')
    (hl : lineBy h ev = []) (hk : ∀ arg, h'.pc ≠ .ioctl arg)
    (hsame : pieces newline (served (evs ++ [ev]) h') = pieces newline (served evs h)) :
    Taken (evs ++ [ev]) h' :=
  ⟨hk,hd,by rw [lines_by_snoc hr hs,hl,List.append_nil,ht.lines,hsame]⟩

theorem taken_step (hr : Runs.run (clientStep false) init evs = some h) (ht : Taken evs h)
    (hs : clientStep false h ev = some h') (he : ev.failed = false) : Taken (evs ++ [ev]) h' := by
  have hf := framed_file_run hr
  have hd := disciplined_file_step hf ht.disciplined (file_move hs) he
  have hquiet (hl : lineBy h ev = []) (hk : ∀ arg, h'.pc ≠ .ioctl arg) (hb : ev.bytes = [])
      (hn : h'.bytesReceived = h.bytesReceived) (hi : h'.i = h.i)
      (hp : h'.pc.committed = h.pc.committed) : Taken (evs ++ [ev]) h' :=
    ht.quiet hr hs hd hl hk (by rw [served_quiet hb hn hi hp])
  cases file_move hs with
  | data hpc => exact hquiet rfl (by simp) rfl rfl rfl (by rw [hpc]; rfl)
  | step hstep hb =>
    cases step_move hstep with
    | seek hpc | data hpc => exact absurd hpc hb
    | sought hpc => exact absurd hpc (ht.noSeek _)
    | seekFailed | dataFailed | newlineFailed => cases he
    | received hpc =>
      refine ht.quiet hr hs hd rfl (by simp) ?_
      rw [served,served,consumed_recv (hf.drained hpc) rfl rfl,hpc]
      rfl
    | stored hpc hi hb =>
      refine ht.quiet hr hs hd rfl (by simp) ?_
      have hnext : consumed evs { h with
          pc := .byte, i := h.i + 1,
          writeBuffer := fun k => if k = h.writeBufferIndex then h.readBuffer h.i else h.writeBuffer k,
          writeBufferIndex := h.writeBufferIndex + 1 } = consumed evs h ++ [h.readBuffer h.i] :=
        consumed_next hf hi rfl rfl rfl
      rw [served,served,consumed_quiet rfl,hnext,hpc]
      simp [Pc.committed,pieces_snoc,hb]
    | wroteNewline hpc =>
      have hpay := (ht.disciplined.assembled (by simp [hpc]) (by rw [hpc]; rfl)).payload
      have hbefore : served evs h = consumed evs h := by rw [served,hpc]; exact List.append_nil _
      have hafter : served (evs ++ [.write true]) { h with pc := .unlock } =
          consumed evs h ++ [newline] := by
        rw [served,consumed_quiet rfl,consumed_congr rfl rfl]
        rfl
      refine ⟨by simp,hd,?_⟩
      rw [lines_by_snoc hr hs,ht.lines,hbefore,hafter,pieces_snoc_self]
      simp [lineBy,storedBy,hpc,hpay]
    | finished hpc =>
      obtain ⟨hi,hb⟩ := hf.newline (by rw [hpc]; rfl)
      have hnext : consumed evs h.nextByte = consumed evs h ++ [h.readBuffer h.i] :=
        consumed_next hf hi rfl rfl rfl
      refine ht.quiet hr hs hd rfl (by simp [Handler.nextByte]) ?_
      rw [served,served,consumed_quiet rfl,hnext,hb,hpc]
      simp [Handler.nextByte,Pc.committed]
    | _ hpc => exact hquiet (by simp [lineBy,storedBy,hpc]) (by simp) rfl rfl rfl (by rw [hpc]; rfl)

theorem served_within (hf : Framed evs h) : served evs h <+: received evs := by
  cases hp : h.pc.committed with
  | false =>
    rw [served,hp]
    simpa using consumed_within (h := h) (List.prefix_refl (received evs))
  | true =>
    have hat : h.pc.atPacket = true := by
      revert hp
      cases h.pc <;> simp [Pc.committed,Pc.atPacket,Pc.inSection,Pc.responding]
    obtain ⟨hi,hb⟩ := hf.newline hat
    have hnext : consumed evs { h with i := h.i + 1 } = consumed evs h ++ [h.readBuffer h.i] :=
      consumed_next hf hi rfl rfl rfl
    rw [served,hp,if_pos rfl,← hb,← hnext]
    exact consumed_within (List.prefix_refl _)

-- a client whose write has failed keeps file_mutex and never comes to its section again
inductive Stage (evs : List Event) (h : Handler) : Prop
  | calm (he : ∀ ev ∈ evs, ev.failed = false) (ht : Taken evs h)
  | jammed (hj : h.holding = true) (hi : h.pc.inSection = false)
      (hl : linesBy evs <+: pieces newline (received evs))

theorem line_by_outside (hi : h.pc.inSection = false) : lineBy h ev = [] := by
  have hpc : h.pc ≠ .writeNewline := fun he => by simp [he,Pc.inSection] at hi
  unfold lineBy storedBy
  split
  · rw [if_neg fun hc => hpc hc.2]
    rfl
  · rfl

theorem jammed_step (hj : h.holding = true) (hi : h.pc.inSection = false) (hm : FileMove h ev h') :
    h'.holding = true ∧ h'.pc.inSection = false := by
  cases hm with
  | data hpc => simp [hpc,Pc.inSection] at hi
  | step hs =>
    cases step_move hs with
    | locked hpc hf => simp [hj] at hf
    | closed | received | drained | completed | stored | overran | cleared | finished | fetched
    | sent => exact ⟨hj,rfl⟩
    | seek hpc | data hpc | sought hpc | seekFailed hpc | wroteData hpc | dataFailed hpc
    | wroteNewline hpc | newlineFailed hpc | unlocked hpc => simp [hpc,Pc.inSection] at hi

theorem failed_jams (hd : Disciplined evs h) (hm : FileMove h ev h') (he : ev.failed = true) :
    h'.holding = true ∧ h'.pc.inSection = false ∧ lineBy h ev = [] := by
  cases hm with
  | data => cases he
  | step hs =>
    cases step_move hs with
    | seekFailed hpc | dataFailed hpc | newlineFailed hpc =>
      exact ⟨hd.owned (by rw [hpc]; rfl),rfl,by simp [lineBy,storedBy]⟩
    | _ => cases he

theorem received_grows (evs : List Event) (ev : Event) :
    pieces newline (received evs) <+: pieces newline (received (evs ++ [ev])) := by
  rw [received_snoc]
  exact pieces_mono newline (List.prefix_append _ _)

theorem stage_run (hr : Runs.run (clientStep false) init evs = some h) : Stage evs h := by
  refine Runs.run_induction (P := Stage)
    (.calm (by simp) ⟨by simp [init],disciplined_init,rfl⟩) ?_ hr
  intro evs ev h h' hrun ih hs
  have hm := file_move hs
  cases ih with
  | calm he ht =>
    cases hfail : ev.failed with
    | false =>
      refine .calm (fun x hx => ?_) (taken_step hrun ht hs hfail)
      rcases List.mem_append.mp hx with hx | hx
      · exact he x hx
      · rwa [List.mem_singleton.mp hx]
    | true =>
      obtain ⟨hj,hi,hl⟩ := failed_jams ht.disciplined hm hfail
      refine .jammed hj hi ?_
      rw [lines_by_snoc hrun hs,hl,List.append_nil,ht.lines]
      exact (pieces_mono newline (served_within (framed_file_run hrun))).trans (received_grows evs ev)
  | jammed hj hi hl =>
    obtain ⟨hj',hi'⟩ := jammed_step hj hi hm
    refine .jammed hj' hi' ?_
    rw [lines_by_snoc hrun hs,line_by_outside hi,List.append_nil]
    exact hl.trans (received_grows evs ev)

theorem lines_within (hr : Runs.run (clientStep false) init evs = some h) :
    linesBy evs <+: pieces newline (received evs) := by
  cases stage_run hr with
  | calm _ ht =>
    rw [ht.lines]
    exact pieces_mono newline (served_within (framed_file_run hr))
  | jammed _ _ hl => exact hl

theorem lines_drained (hr : Runs.run (clientStep false) init evs = some h)
    (hj : h.holding = false) (hpc : h.pc = .recv) : linesBy evs = pieces newline (received evs) := by
  cases stage_run hr with
  | calm _ ht =>
    rw [ht.lines,served,hpc,consumed_received ((framed_file_run hr).drained hpc)]
    exact congrArg _ (List.append_nil _)
  | jammed hh => simp [hj] at hh

end Clients

end AesdFile
