import Aesd.Server.ClientHandler

namespace ClientHandler
open Kernel Device Scan Delimited

def Event.bytes : Event → Bytes
  | .recv data => data
  | _ => []

def received (evs : List Event) : Bytes := evs.flatMap Event.bytes

def chunk (h : Handler) : Bytes := (List.range h.bytesReceived).map h.readBuffer

def consumed (evs : List Event) (h : Handler) : Bytes :=
  (received evs).take ((received evs).length - (h.bytesReceived - h.i))

def Pc.inSection : Pc → Bool
  | .branch | .ioctl _ | .writeData | .writeNewline | .unlock => true
  | _ => false

def Pc.responding : Pc → Bool
  | .read | .send _ => true
  | _ => false

def Pc.atPacket (pc : Pc) : Bool := pc.inSection || pc.responding || pc == .lock || pc == .reset

structure Holds (h : Handler) (s : Bytes) : Prop where
  payload : h.payload = s
  rest : ∀ k, h.writeBufferIndex ≤ k → h.writeBuffer k = 0

structure Framed (evs : List Event) (h : Handler) : Prop where
  last : ∃ before, received evs = before ++ chunk h
  within : h.i ≤ h.bytesReceived
  drained : h.pc = .recv → h.i = h.bytesReceived
  newline : h.pc.atPacket = true → h.i < h.bytesReceived ∧ h.readBuffer h.i = newline

structure Disciplined (evs : List Event) (h : Handler) : Prop where
  free : h.pc.inSection = false → h.holding = false
  owned : h.pc.inSection = true → h.holding = true
  assembled : h.pc ≠ .undefined → h.pc.responding = false → Holds h (residue newline (consumed evs h))
  cleared : h.pc.responding = true → Holds h []

def Event.failed : Event → Bool
  | .ioctl ok | .write ok => !ok
  | _ => false

section Framing
variable {evs : List Event} {h h' : Handler} {ev : Event}

@[simp] theorem received_snoc (evs : List Event) (ev : Event) :
    received (evs ++ [ev]) = received evs ++ ev.bytes := by simp [received]

theorem buffered_bytes (buffer : ℕ → UInt8) (data : Bytes) :
    (List.range data.length).map (fun k => data[k]?.getD (buffer k)) = data := by
  apply List.ext_getElem
  · simp
  · intro k _ hk
    simp [hk]

theorem consumed_split {before : Bytes} (hl : received evs = before ++ chunk h)
    (hi : h.i ≤ h.bytesReceived) : consumed evs h = before ++ (chunk h).take h.i := by
  have hlen : (chunk h).length = h.bytesReceived := by simp [chunk]
  rw [consumed,hl,List.length_append,hlen,List.take_append]
  congr 1
  · exact List.take_of_length_le (by omega)
  · congr 1
    omega

theorem chunk_take_succ (hi : h.i < h.bytesReceived) :
    (chunk h).take (h.i + 1) = (chunk h).take h.i ++ [h.readBuffer h.i] := by
  have hlen : h.i < (chunk h).length := by simpa [chunk] using hi
  rw [List.take_add_one,List.getElem?_eq_getElem hlen]
  simp [chunk]

theorem consumed_next (hf : Framed evs h) (hi : h.i < h.bytesReceived)
    (hn : h'.bytesReceived = h.bytesReceived) (hb : h'.readBuffer = h.readBuffer)
    (hi' : h'.i = h.i + 1) : consumed evs h' = consumed evs h ++ [h.readBuffer h.i] := by
  obtain ⟨before,hl⟩ := hf.last
  have hc : chunk h' = chunk h := by rw [chunk,hn,hb,chunk]
  rw [consumed_split hl hf.within,consumed_split (h := h') (by rw [hl,hc]) (by omega),hc,hi',
    chunk_take_succ hi,List.append_assoc]

theorem consumed_congr (hn : h'.bytesReceived = h.bytesReceived) (hi : h'.i = h.i) :
    consumed evs h' = consumed evs h := by rw [consumed,consumed,hn,hi]

theorem consumed_received (hi : h.i = h.bytesReceived) :
    consumed evs h = received evs := by
  rw [consumed,hi,Nat.sub_self,Nat.sub_zero,List.take_length]

theorem framed_init : Framed [] init :=
  ⟨⟨[],rfl⟩,Nat.le_refl _,fun _ => rfl,fun hp => by simp [init,Pc.atPacket,Pc.inSection,Pc.responding] at hp⟩

theorem last_kept {before : Bytes} (hl : received evs = before ++ chunk h) (he : ev.bytes = [])
    (hc : chunk h' = chunk h) : ∃ before, received (evs ++ [ev]) = before ++ chunk h' :=
  ⟨before,by rw [received_snoc,he,List.append_nil,hl,hc]⟩

theorem framed_step (hf : Framed evs h) (hs : step h ev = some h') : Framed (evs ++ [ev]) h' := by
  obtain ⟨⟨before,hl⟩,hw,hd,hn⟩ := hf
  cases step_move hs with
  | closed hpc =>
    exact ⟨last_kept hl rfl rfl,hw,by simp,
      by simp [Pc.atPacket,Pc.inSection,Pc.responding]⟩
  | @received hpc data hne hlen =>
    refine ⟨⟨received evs,?_⟩,Nat.zero_le _,by simp,by simp [Pc.atPacket,Pc.inSection,Pc.responding]⟩
    rw [received_snoc]
    congr 1
    exact (buffered_bytes h.readBuffer data).symm
  | drained hpc hi =>
    exact ⟨last_kept hl rfl rfl,hw,fun _ => by simp only at *; omega,
      by simp [Pc.atPacket,Pc.inSection,Pc.responding]⟩
  | completed hpc hi hb =>
    exact ⟨last_kept hl rfl rfl,hw,by simp,fun _ => ⟨hi,hb⟩⟩
  | stored hpc hi hb hx =>
    exact ⟨last_kept hl rfl rfl,hi,by simp,by simp [Pc.atPacket,Pc.inSection,Pc.responding]⟩
  | overran hpc hi hb hx =>
    exact ⟨last_kept hl rfl rfl,hw,by simp,
      by simp [Pc.atPacket,Pc.inSection,Pc.responding]⟩
  | seekFailed hpc | dataFailed hpc | newlineFailed hpc | finished hpc =>
    have hi := (hn (by rw [hpc]; rfl)).1
    exact ⟨last_kept hl rfl rfl,hi,by simp [Handler.nextByte],
      by simp [Handler.nextByte,Pc.atPacket,Pc.inSection,Pc.responding]⟩
  | locked hpc | seek hpc | data hpc | sought hpc | wroteData hpc | wroteNewline hpc | unlocked hpc
  | cleared hpc | fetched hpc | sent hpc =>
    have hp := hn (by rw [hpc]; rfl)
    exact ⟨last_kept hl rfl rfl,hw,by simp,fun _ => hp⟩

theorem framed_run (hr : Runs.run step init evs = some h) : Framed evs h :=
  Runs.run_induction framed_init (fun _ _ _ _ _ hf hs => framed_step hf hs) hr

end Framing

section Discipline
variable {evs : List Event} {h h' : Handler} {ev : Event} {s : Bytes}

theorem index_payload (hh : Holds h s) : h.writeBufferIndex = s.length := by
  rw [← hh.payload,Handler.payload]
  simp

theorem holds_congr (hh : Holds h s) (hx : h'.writeBufferIndex = h.writeBufferIndex)
    (hb : h'.writeBuffer = h.writeBuffer) : Holds h' s :=
  ⟨by rw [← hh.payload,Handler.payload,hx,hb,Handler.payload],fun k hk => by
    rw [hb]
    exact hh.rest k (by omega)⟩

theorem holds_nil (hx : h.writeBufferIndex = 0) (hb : h.writeBuffer = fun _ => 0) : Holds h [] :=
  ⟨by simp [Handler.payload,hx],fun k _ => by rw [hb]⟩

theorem holds_stored (hh : Holds h s) (b : UInt8) (hx : h'.writeBufferIndex = h.writeBufferIndex + 1)
    (hb : h'.writeBuffer = fun k => if k = h.writeBufferIndex then b else h.writeBuffer k) :
    Holds h' (s ++ [b]) := by
  constructor
  · rw [← hh.payload,Handler.payload,hx,hb,List.range_succ,List.map_append,Handler.payload]
    congr 1
    · exact List.map_congr_left fun k hk => if_neg (Nat.ne_of_lt (List.mem_range.mp hk))
    · simp
  · intro k hk
    rw [hx] at hk
    rw [hb]
    simp only
    rw [if_neg (by omega)]
    exact hh.rest k (by omega)

theorem consumed_quiet (he : ev.bytes = []) : consumed (evs ++ [ev]) h = consumed evs h := by
  rw [consumed,received_snoc,he,List.append_nil,consumed]

theorem consumed_recv {data : Bytes} (hi : h.i = h.bytesReceived) (hn : h'.bytesReceived = data.length)
    (hi' : h'.i = 0) : consumed (evs ++ [.recv data]) h' = consumed evs h := by
  rw [consumed_received hi,consumed,received_snoc,hn,hi']
  simp [Event.bytes]

theorem assembled_next (hf : Framed evs h) (hi : h.i < h.bytesReceived) (he : ev.bytes = [])
    (hn : h'.bytesReceived = h.bytesReceived) (hb : h'.readBuffer = h.readBuffer)
    (hi' : h'.i = h.i + 1) (hh : Holds h' s)
    (hs : residue newline (consumed evs h ++ [h.readBuffer h.i]) = s) :
    Holds h' (residue newline (consumed (evs ++ [ev]) h')) := by
  rwa [consumed_quiet he,consumed_next hf hi hn hb hi',hs]

theorem Disciplined.kept (hd : Disciplined evs h) (he : ev.bytes = [])
    (hpc : h.pc ≠ .undefined) (hr : h.pc.responding = h'.pc.responding)
    (hf : h'.pc.inSection = false → h'.holding = false)
    (ho : h'.pc.inSection = true → h'.holding = true)
    (hn : h'.bytesReceived = h.bytesReceived) (hi : h'.i = h.i)
    (hx : h'.writeBufferIndex = h.writeBufferIndex) (hb : h'.writeBuffer = h.writeBuffer) :
    Disciplined (evs ++ [ev]) h' := by
  refine ⟨hf,ho,fun _ hr' => ?_,fun hr' => holds_congr (hd.cleared (hr.trans hr')) hx hb⟩
  rw [consumed_quiet he,consumed_congr hn hi]
  exact holds_congr (hd.assembled hpc (hr.trans hr')) hx hb

theorem lock_taken (hs : step h .lock = some h') : h'.holding = true := by
  cases step_move hs with
  | locked => rfl

theorem lock_released (hs : step h .unlock = some h') : h.pc = .unlock ∧ h'.holding = false := by
  cases step_move hs with
  | unlocked hpc => exact ⟨hpc,rfl⟩

theorem holding_kept (hs : step h ev = some h') (hl : ev ≠ .lock) (hu : ev ≠ .unlock) :
    h'.holding = h.holding := by
  cases step_move hs with
  | locked => exact absurd rfl hl
  | unlocked => exact absurd rfl hu
  | _ => rfl

theorem failed_step (hd : Disciplined evs h) (hs : step h ev = some h') (he : ev.failed = true) :
    ¬ Disciplined (evs ++ [ev]) h' := by
  intro hd'
  have hfree := hd'.free
  cases step_move hs with
  | seekFailed hpc | dataFailed hpc | newlineFailed hpc =>
    have hown := hd.owned (by rw [hpc]; rfl)
    have hnot := hfree rfl
    rw [Handler.nextByte,hown] at hnot
    cases hnot
  | _ => cases he

theorem disciplined_step (hf : Framed evs h) (hd : Disciplined evs h) (hs : step h ev = some h')
    (he : ev.failed = false) : Disciplined (evs ++ [ev]) h' := by
  cases step_move hs with
  | closed hpc | drained hpc | completed hpc =>
    have hfree := hd.free (by rw [hpc]; rfl)
    exact hd.kept rfl (by simp [hpc]) (by rw [hpc]; rfl) (fun _ => hfree) (by simp [Pc.inSection])
      rfl rfl rfl rfl
  | @received hpc data hne hlen =>
    have hfree := hd.free (by rw [hpc]; rfl)
    refine ⟨fun _ => hfree,by simp [Pc.inSection],fun _ _ => ?_,by simp [Pc.responding]⟩
    rw [consumed_recv (hf.drained hpc) rfl rfl]
    exact holds_congr (hd.assembled (by simp [hpc]) (by rw [hpc]; rfl)) rfl rfl
  | stored hpc hi hb hx =>
    have hfree := hd.free (by rw [hpc]; rfl)
    refine ⟨fun _ => hfree,by simp [Pc.inSection],fun _ _ => ?_,by simp [Pc.responding]⟩
    have hh := hd.assembled (by simp [hpc]) (by rw [hpc]; rfl)
    exact assembled_next hf hi rfl rfl rfl rfl (holds_stored hh _ rfl rfl)
      (by rw [residue_snoc,if_neg hb])
  | overran hpc =>
    have hfree := hd.free (by rw [hpc]; rfl)
    exact ⟨fun _ => hfree,by simp [Pc.inSection],by simp,by simp [Pc.responding]⟩
  | locked hpc =>
    exact hd.kept rfl (by simp [hpc]) (by rw [hpc]; rfl) (by simp [Pc.inSection]) (fun _ => rfl)
      rfl rfl rfl rfl
  | seek hpc | data hpc | sought hpc | wroteData hpc | wroteNewline hpc =>
    have hown := hd.owned (by rw [hpc]; rfl)
    exact hd.kept rfl (by simp [hpc]) (by rw [hpc]; rfl) (by simp [Pc.inSection]) (fun _ => hown)
      rfl rfl rfl rfl
  | seekFailed | dataFailed | newlineFailed => cases he
  | unlocked hpc =>
    exact hd.kept rfl (by simp [hpc]) (by rw [hpc]; rfl) (fun _ => rfl) (by simp [Pc.inSection])
      rfl rfl rfl rfl
  | cleared hpc =>
    have hfree := hd.free (by rw [hpc]; rfl)
    exact ⟨fun _ => hfree,by simp [Pc.inSection],by simp [Pc.responding],fun _ => holds_nil rfl rfl⟩
  | finished hpc =>
    have hfree := hd.free (by rw [hpc]; rfl)
    obtain ⟨hi,hb⟩ := hf.newline (by rw [hpc]; rfl)
    refine ⟨fun _ => hfree,by simp [Handler.nextByte,Pc.inSection],fun _ _ => ?_,
      by simp [Handler.nextByte,Pc.responding]⟩
    have hh := hd.cleared (by rw [hpc]; rfl)
    exact assembled_next hf hi rfl rfl rfl rfl (holds_congr hh rfl rfl)
      (by rw [hb,residue_snoc_self])
  | fetched hpc | sent hpc =>
    have hfree := hd.free (by rw [hpc]; rfl)
    exact hd.kept rfl (by simp [hpc]) (by rw [hpc]; rfl) (fun _ => hfree) (by simp [Pc.inSection])
      rfl rfl rfl rfl

theorem disciplined_init : Disciplined [] init :=
  ⟨fun _ => rfl,by simp [init,Pc.inSection],fun _ _ => holds_nil rfl rfl,by simp [init,Pc.responding]⟩

theorem disciplined_run (hr : Runs.run step init evs = some h)
    (he : ∀ ev ∈ evs, ev.failed = false) : Disciplined evs h := by
  have ha : Runs.Along step (fun _ ev => ev.failed = false) init evs :=
    (Runs.along_forall_iff hr).mpr he
  refine Runs.guarded_induction disciplined_init ?_ hr ha
  intro done ev m m' hrun hf hd hs
  exact disciplined_step (framed_run hrun) hd hs hf

end Discipline

theorem lock_discipline_iff {evs : List Event} {h : Handler}
    (hr : Runs.run step init evs = some h) :
    (∀ done, done <+: evs → ∀ m, Runs.run step init done = some m → Disciplined done m) ↔
      ∀ ev ∈ evs, ev.failed = false := by
  rw [← Runs.along_forall_iff (p := fun ev : Event => ev.failed = false) hr]
  refine Runs.prefixes_iff_along (I := Disciplined) disciplined_init ?_ hr
  intro done ev m m' hrun hd hs
  refine ⟨fun hd' => ?_,disciplined_step (framed_run hrun) hd hs⟩
  by_contra hf
  exact failed_step hd hs (by simpa using hf) hd'

def zeroStack : Stack := ⟨0,0,[],[]⟩

def refusedSeek : List Event :=
  .recv (aesdIoctlSeekto ++ ascii ['9',',','0','\n']) :: List.replicate 23 .tau ++
    [.lock,.branch zeroStack,.ioctl false,.tau,.recv (ascii ['\n']),.tau]

theorem lock_discipline_iff_refused_seek :
    ∃ h, Runs.run step init refusedSeek = some h ∧
      ((∀ done, done <+: refusedSeek → ∀ m, Runs.run step init done = some m → Disciplined done m) ↔
        ∀ ev ∈ refusedSeek, ev.failed = false) := by
  obtain ⟨h,hr⟩ := Option.isSome_iff_exists.mp
    (show (Runs.run step init refusedSeek).isSome by decide)
  exact ⟨h,hr,lock_discipline_iff hr⟩

theorem refused_seek_relocks :
    ∃ h, Runs.run step init refusedSeek = some h ∧ h.pc = .lock ∧ h.holding = true ∧
      h.writeBufferIndex = 22 ∧ step h .lock = none ∧ ¬ Disciplined refusedSeek h := by
  obtain ⟨h,hr,hobs⟩ := Option.map_eq_some_iff.mp
    (show (Runs.run step init refusedSeek).map (fun h => (h.pc,h.holding,h.writeBufferIndex)) =
      some (.lock,true,22) by decide)
  simp only [Prod.mk.injEq] at hobs
  obtain ⟨hpc,hh,hx⟩ := hobs
  refine ⟨h,hr,hpc,hh,hx,by simp [step,hpc,hh],fun hd => ?_⟩
  have hfree := hd.free (by rw [hpc]; rfl)
  rw [hh] at hfree
  cases hfree

end ClientHandler
