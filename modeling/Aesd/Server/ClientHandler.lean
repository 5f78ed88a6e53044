import Aesd.CharDriver.Device
import Aesd.Library.Delimited
import Aesd.Library.Runs
import Aesd.Server.Scan

namespace ClientHandler
open Kernel Device Scan

def bufferSize : ℕ := 1024 * 1024

inductive Pc where
  | recv
  | byte
  | lock
  | branch
  | ioctl (arg : AesdSeekto)
  | writeData
  | writeNewline
  | unlock
  | reset
  | read
  | send (content : Option Bytes)
  | exited
  | undefined
  deriving DecidableEq, Repr

structure Handler where
  pc : Pc
  readBuffer : ℕ → UInt8
  writeBuffer : ℕ → UInt8
  writeBufferIndex : ℕ
  bytesReceived : ℕ
  i : ℕ
  holding : Bool

def init : Handler := ⟨.recv,fun _ => 0,fun _ => 0,0,0,0,false⟩

-- what the code reads without having written it: the locals index and offset before sscanf, and the
-- bytes between the end of a buffer and the next terminator
structure Stack where
  index : UInt64
  offset : UInt64
  afterRead : Bytes
  afterWrite : Bytes

inductive Event where
  | recv (data : Bytes)
  | tau
  | lock
  | branch (stack : Stack)
  | ioctl (ok : Bool)
  | write (ok : Bool)
  | unlock
  | read (content : Option Bytes)
  | send (accepted : ℕ)

namespace Handler

def payload (h : Handler) : Bytes := (List.range h.writeBufferIndex).map h.writeBuffer

def packetText (h : Handler) (stack : Stack) : Bytes :=
  cString h.writeBuffer stack.afterWrite bufferSize 0

def nextByte (h : Handler) : Handler := { h with pc := .byte, i := h.i + 1 }

end Handler

def toSize (n : ℤ) : UInt64 := UInt64.ofNat (n % 2^64).toNat

def seektoArgs (readBuffer : ℕ → UInt8) (stack : Stack) : AesdSeekto :=
  let values := sscanfSeekto (cString readBuffer stack.afterRead bufferSize 0)
  let index := values[0]?.elim stack.index toSize
  let offset := values[1]?.elim stack.offset toSize
  ⟨index.toUInt32,offset.toUInt32⟩

-- a read that fails returns -1, which send takes as a size: its content is none
def step (h : Handler) (ev : Event) : Option Handler :=
  match h.pc, ev with
  | .recv, .recv data =>
      if data = [] then some { h with pc := .exited }
      else if data.length ≤ bufferSize then
        some { h with pc := .byte, readBuffer := fun k => data[k]?.getD (h.readBuffer k),
                      bytesReceived := data.length, i := 0 }
      else none
  | .byte, .tau =>
      if h.i < h.bytesReceived then
        if h.readBuffer h.i = newline then some { h with pc := .lock }
        else if h.writeBufferIndex < bufferSize then
          some { h with
            pc := .byte, i := h.i + 1,
            writeBuffer := fun k => if k = h.writeBufferIndex then h.readBuffer h.i else h.writeBuffer k,
            writeBufferIndex := h.writeBufferIndex + 1 }
        else some { h with pc := .undefined }
      else some { h with pc := .recv }
  | .lock, .lock => if h.holding then none else some { h with pc := .branch, holding := true }
  | .branch, .branch stack =>
      if strstr (h.packetText stack) aesdIoctlSeekto then
        some { h with pc := .ioctl (seektoArgs h.readBuffer stack) }
      else some { h with pc := .writeData }
  | .ioctl _, .ioctl ok => some (if ok then { h with pc := .unlock } else h.nextByte)
  | .writeData, .write ok => some (if ok then { h with pc := .writeNewline } else h.nextByte)
  | .writeNewline, .write ok => some (if ok then { h with pc := .unlock } else h.nextByte)
  | .unlock, .unlock => some { h with pc := .reset, holding := false }
  | .reset, .tau => some { h with pc := .read, writeBuffer := fun _ => 0, writeBufferIndex := 0 }
  | .read, .read content =>
      if content = some [] then some h.nextByte
      else if (content.getD []).length ≤ bufferSize then some { h with pc := .send content }
      else none
  | .send content, .send accepted =>
      if ∀ b ∈ content, accepted ≤ b.length then some { h with pc := .read } else none
  | _, _ => none

inductive Move (h : Handler) : Event → Handler → Prop
  | closed (hpc : h.pc = .recv) : Move h (.recv []) { h with pc := .exited }
  | received (hpc : h.pc = .recv) {data : Bytes} (hne : data ≠ []) (hlen : data.length ≤ bufferSize) :
      Move h (.recv data) { h with
        pc := .byte, readBuffer := fun k => data[k]?.getD (h.readBuffer k),
        bytesReceived := data.length, i := 0 }
  | drained (hpc : h.pc = .byte) (hi : h.bytesReceived ≤ h.i) : Move h .tau { h with pc := .recv }
  | completed (hpc : h.pc = .byte) (hi : h.i < h.bytesReceived) (hb : h.readBuffer h.i = newline) :
      Move h .tau { h with pc := .lock }
  | stored (hpc : h.pc = .byte) (hi : h.i < h.bytesReceived) (hb : h.readBuffer h.i ≠ newline)
      (hx : h.writeBufferIndex < bufferSize) :
      Move h .tau { h with
        pc := .byte, i := h.i + 1,
        writeBuffer := fun k => if k = h.writeBufferIndex then h.readBuffer h.i else h.writeBuffer k,
        writeBufferIndex := h.writeBufferIndex + 1 }
  | overran (hpc : h.pc = .byte) (hi : h.i < h.bytesReceived) (hb : h.readBuffer h.i ≠ newline)
      (hx : bufferSize ≤ h.writeBufferIndex) : Move h .tau { h with pc := .undefined }
  | locked (hpc : h.pc = .lock) (hf : h.holding = false) :
      Move h .lock { h with pc := .branch, holding := true }
  | seek (hpc : h.pc = .branch) {stack : Stack}
      (hm : strstr (h.packetText stack) aesdIoctlSeekto = true) :
      Move h (.branch stack) { h with pc := .ioctl (seektoArgs h.readBuffer stack) }
  | data (hpc : h.pc = .branch) {stack : Stack}
      (hm : strstr (h.packetText stack) aesdIoctlSeekto = false) :
      Move h (.branch stack) { h with pc := .writeData }
  | sought {arg : AesdSeekto} (hpc : h.pc = .ioctl arg) : Move h (.ioctl true) { h with pc := .unlock }
  | seekFailed {arg : AesdSeekto} (hpc : h.pc = .ioctl arg) : Move h (.ioctl false) h.nextByte
  | wroteData (hpc : h.pc = .writeData) : Move h (.write true) { h with pc := .writeNewline }
  | dataFailed (hpc : h.pc = .writeData) : Move h (.write false) h.nextByte
  | wroteNewline (hpc : h.pc = .writeNewline) : Move h (.write true) { h with pc := .unlock }
  | newlineFailed (hpc : h.pc = .writeNewline) : Move h (.write false) h.nextByte
  | unlocked (hpc : h.pc = .unlock) : Move h .unlock { h with pc := .reset, holding := false }
  | cleared (hpc : h.pc = .reset) :
      Move h .tau { h with pc := .read, writeBuffer := fun _ => 0, writeBufferIndex := 0 }
  | finished (hpc : h.pc = .read) : Move h (.read (some [])) h.nextByte
  | fetched (hpc : h.pc = .read) {content : Option Bytes} (hne : content ≠ some [])
      (hlen : (content.getD []).length ≤ bufferSize) :
      Move h (.read content) { h with pc := .send content }
  | sent {content : Option Bytes} (hpc : h.pc = .send content) {accepted : ℕ}
      (ha : ∀ b ∈ content, accepted ≤ b.length) : Move h (.send accepted) { h with pc := .read }

theorem step_move {h h' : Handler} {ev : Event} (hs : step h ev = some h') : Move h ev h' := by
  unfold step at hs
  split at hs
  · split_ifs at hs with hd hlen
    · cases hs
      subst hd
      exact .closed ‹_›
    · cases hs
      exact .received ‹_› hd hlen
  · split_ifs at hs with hi hb hx
    · cases hs
      exact .completed ‹_› hi hb
    · cases hs
      exact .stored ‹_› hi hb hx
    · cases hs
      exact .overran ‹_› hi hb (Nat.le_of_not_lt hx)
    · cases hs
      exact .drained ‹_› (Nat.le_of_not_lt hi)
  · split_ifs at hs with hf
    cases hs
    exact .locked ‹_› (by simpa using hf)
  · split_ifs at hs with hm
    · cases hs
      exact .seek ‹_› hm
    · cases hs
      exact .data ‹_› (by simpa using hm)
  · cases hs
    split_ifs with hok
    · subst hok
      exact .sought ‹_›
    · rw [Bool.not_eq_true] at hok
      subst hok
      exact .seekFailed ‹_›
  · cases hs
    split_ifs with hok
    · subst hok
      exact .wroteData ‹_›
    · rw [Bool.not_eq_true] at hok
      subst hok
      exact .dataFailed ‹_›
  · cases hs
    split_ifs with hok
    · subst hok
      exact .wroteNewline ‹_›
    · rw [Bool.not_eq_true] at hok
      subst hok
      exact .newlineFailed ‹_›
  · cases hs
    exact .unlocked ‹_›
  · cases hs
    exact .cleared ‹_›
  · split_ifs at hs with he hlen
    · cases hs
      subst he
      exact .finished ‹_›
    · cases hs
      exact .fetched ‹_› he hlen
  · split_ifs at hs with ha
    cases hs
    exact .sent ‹_› ha
  · cases hs

end ClientHandler
