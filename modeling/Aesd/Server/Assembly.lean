import Aesd.Server.DeviceOps

namespace ClientHandler
open Kernel Device Scan Delimited

-- the packets completed so far, each with the receive buffer that it was completed over
structure Assembly where
  buffer : ℕ → UInt8
  rest : Bytes
  done : List (Bytes × (ℕ → UInt8))

def feedByte (a : Assembly) (b : UInt8) : Assembly :=
  if b = newline then { a with rest := [], done := a.done ++ [(a.rest,a.buffer)] }
  else { a with rest := a.rest ++ [b] }

def overlay (buffer : ℕ → UInt8) (chunk : Bytes) : ℕ → UInt8 := fun k => chunk[k]?.getD (buffer k)

def openChunk (a : Assembly) (chunk : Bytes) : Assembly := { a with buffer := overlay a.buffer chunk }

def feedChunk (a : Assembly) (chunk : Bytes) : Assembly := chunk.foldl feedByte (openChunk a chunk)

def assemble (chunks : List Bytes) : Assembly := chunks.foldl feedChunk ⟨fun _ => 0,[],[]⟩

def Event.chunks : Event → List Bytes
  | .recv data => if data = [] then [] else [data]
  | _ => []

def chunksOf (evs : List Event) : List Bytes := evs.flatMap Event.chunks

def current (before : List Bytes) (h : Handler) : Assembly :=
  ((chunk h).take h.i).foldl feedByte (openChunk (assemble before) (chunk h))

def Pc.branched : Pc → Bool
  | .ioctl _ | .writeData | .writeNewline | .unlock | .reset | .read | .send _ => true
  | _ => false

def Completion.source (c : Completion) : Bytes × (ℕ → UInt8) := (c.packet,c.readBuffer)

structure Assembled (evs : List Event) (h : Handler) (before : List Bytes) : Prop where
  chunks : assemble (chunksOf evs) = feedChunk (assemble before) (chunk h)
  buffer : h.readBuffer = overlay (assemble before).buffer (chunk h)
  rest : (current before h).rest = residue newline (consumed evs h)
  done : (completions evs).map Completion.source = (current before h).done ++
    if h.pc.branched then [((current before h).rest,h.readBuffer)] else []

section Assembling
variable {evs : List Event} {h h' : Handler} {ev : Event} {before : List Bytes}

theorem feed_bytes_buffer (a : Assembly) (s : Bytes) : (s.foldl feedByte a).buffer = a.buffer := by
  induction s generalizing a with
  | nil => rfl
  | cons b s ih =>
    rw [List.foldl_cons,ih,feedByte]
    split_ifs <;> rfl

theorem current_buffer (before : List Bytes) (h : Handler) :
    (current before h).buffer = overlay (assemble before).buffer (chunk h) :=
  feed_bytes_buffer _ _

theorem current_next (before : List Bytes) (hi : h.i < h.bytesReceived) (hc : chunk h' = chunk h) (hi' : h'.i = h.i + 1) :
    current before h' = feedByte (current before h) (h.readBuffer h.i) := by
  rw [current,hc,hi',chunk_take_succ hi,List.foldl_append,List.foldl_cons,List.foldl_nil,current]

@[simp] theorem chunks_of_snoc (evs : List Event) (ev : Event) :
    chunksOf (evs ++ [ev]) = chunksOf evs ++ ev.chunks := by simp [chunksOf]

theorem Assembled.kept (ha : Assembled evs h before) (hr : Runs.run step init evs = some h)
    (hs : step h ev = some h') (hq : branched h ev = []) (he : ev.chunks = []) (hq' : ev.bytes = [])
    (hp : h'.pc.branched = h.pc.branched) (hn : h'.bytesReceived = h.bytesReceived)
    (hb : h'.readBuffer = h.readBuffer) (hi : h'.i = h.i) : Assembled (evs ++ [ev]) h' before := by
  have hc : chunk h' = chunk h := by rw [chunk,hn,hb,chunk]
  have hcur : current before h' = current before h := by rw [current,hc,hi,current]
  refine ⟨?_,by rw [hb,hc,ha.buffer],?_,?_⟩
  · rw [chunks_of_snoc,he,List.append_nil,hc,ha.chunks]
  · rw [hcur,ha.rest,consumed_quiet hq',consumed_congr hn hi]
  · rw [completions_snoc hr hs,hq,List.append_nil,hcur,hp,hb]
    exact ha.done

theorem Assembled.next (ha : Assembled evs h before) (hr : Runs.run step init evs = some h)
    (hs : step h ev = some h') (hq : branched h ev = []) (he : ev.chunks = []) (hq' : ev.bytes = [])
    (hi : h.i < h.bytesReceived) (hn : h'.bytesReceived = h.bytesReceived)
    (hb : h'.readBuffer = h.readBuffer) (hi' : h'.i = h.i + 1) (hp : h'.pc.branched = false)
    (hnl : h.pc.branched = decide (h.readBuffer h.i = newline)) :
    Assembled (evs ++ [ev]) h' before := by
  have hc : chunk h' = chunk h := by rw [chunk,hn,hb,chunk]
  have hcur := current_next before hi hc hi'
  have hbuf := (current_buffer before h).trans ha.buffer.symm
  have hdone := ha.done
  refine ⟨?_,by rw [hb,hc,ha.buffer],?_,?_⟩
  · rw [chunks_of_snoc,he,List.append_nil,hc,ha.chunks]
  · rw [hcur,consumed_quiet hq',consumed_next (framed_run hr) hi hn hb hi',residue_snoc,← ha.rest,
      feedByte]
    split_ifs <;> rfl
  · rw [completions_snoc hr hs,hq,List.append_nil,hdone,hcur,hp,hnl,feedByte,hbuf]
    split_ifs <;> simp_all

theorem Assembled.branch (ha : Assembled evs h before) (hr : Runs.run step init evs = some h)
    (hd : Disciplined evs h) (hs : step h ev = some h') {stack : Stack} (hev : ev = .branch stack)
    (hpc : h.pc = .branch) (hn : h'.bytesReceived = h.bytesReceived)
    (hb : h'.readBuffer = h.readBuffer) (hi : h'.i = h.i) (hp : h'.pc.branched = true) :
    Assembled (evs ++ [ev]) h' before := by
  subst hev
  have hc : chunk h' = chunk h := by rw [chunk,hn,hb,chunk]
  have hcur : current before h' = current before h := by rw [current,hc,hi,current]
  have hpayload : h.payload = (current before h).rest := by
    rw [ha.rest]
    exact (hd.assembled (by simp [hpc]) (by rw [hpc]; rfl)).payload
  have hdone := ha.done
  rw [hpc] at hdone
  refine ⟨?_,by rw [hb,hc,ha.buffer],?_,?_⟩
  · rw [chunks_of_snoc,hc,← ha.chunks]
    simp [Event.chunks]
  · rw [hcur,ha.rest,consumed_quiet rfl,consumed_congr hn hi]
  · rw [completions_snoc hr hs,List.map_append,hdone,hcur,hp,hb]
    simp [branched,Completion.source,hpayload,Pc.branched]

theorem completion_texts (hr : Runs.run step init evs = some h)
    (he : ∀ ev ∈ evs, ev.failed = false) :
    ∀ c ∈ completions evs, c.packet.length < bufferSize → c.text = cText c.packet := by
  refine Runs.run_induction (P := fun evs h => (∀ ev ∈ evs, ev.failed = false) →
    ∀ c ∈ completions evs, c.packet.length < bufferSize → c.text = cText c.packet)
    (fun _ c hc => by simp [completions] at hc) ?_ hr he
  intro evs ev h h' hrun ih hs hall c hc hlen
  have hprev : ∀ ev ∈ evs, ev.failed = false := fun x hx => hall x (by simp [hx])
  rw [completions_snoc hrun hs] at hc
  rcases List.mem_append.mp hc with hc | hc
  · exact ih hprev c hc hlen
  · cases step_move hs with
    | @seek hpc stack | @data hpc stack =>
      rw [branched,List.mem_singleton] at hc
      subst hc
      have hh := (disciplined_run hrun hprev).assembled (by simp [hpc]) (by rw [hpc]; rfl)
      have hpay := hh.payload
      rw [← hpay] at hh
      exact packet_text hh hlen stack
    | _ => simp [branched] at hc

end Assembling

end ClientHandler
