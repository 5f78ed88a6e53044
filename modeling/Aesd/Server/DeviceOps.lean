import Aesd.Server.LockDiscipline

namespace ClientHandler
open Kernel Device Scan Delimited

inductive DeviceOp where
  | write (data : Bytes)
  | seekto (arg : AesdSeekto)
  deriving DecidableEq, Repr

def pending (h : Handler) : List DeviceOp :=
  match h.pc with
  | .ioctl arg => [.seekto arg]
  | .writeData => [.write h.payload,.write [newline]]
  | .writeNewline => [.write [newline]]
  | _ => []

structure Completion where
  packet : Bytes
  text : Bytes
  readBuffer : ℕ → UInt8
  stack : Stack

def branched (h : Handler) : Event → List Completion
  | .branch stack => [⟨h.payload,h.packetText stack,h.readBuffer,stack⟩]
  | _ => []

def completions (evs : List Event) : List Completion := Runs.outputs step branched init evs

section Operations
variable {evs : List Event} {h h' : Handler} {ev : Event}

theorem completions_snoc (hr : Runs.run step init evs = some h) (hs : step h ev = some h') :
    completions (evs ++ [ev]) = completions evs ++ branched h ev := Runs.outputs_snoc hr hs

def cText (p : Bytes) : Bytes := p.takeWhile (· != 0)

theorem packet_text {s : Bytes} (hh : Holds h s) (hs : s.length < bufferSize) (stack : Stack) :
    h.packetText stack = cText s := by
  have hx := index_payload hh
  refine c_string_text stack.afterWrite (fun j hj => ?_) (hh.rest _ (by omega)) hs
  rw [← hh.payload,Handler.payload]
  simp [hx,hj]

end Operations

end ClientHandler
