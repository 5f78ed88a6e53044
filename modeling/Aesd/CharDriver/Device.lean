import Aesd.CharDriver.CircularBuffer
import Aesd.CharDriver.Kernel

namespace Device
open BlockHeap CircularBuffer AesdCircularBuffer Kernel

structure AesdDev where
  circularBuffer : AesdCircularBuffer ℕ
  incompleteCommandBuffer : Option ℕ
  incompleteCommandSize : ℕ

structure Driver where
  heap : Heap UInt8
  dev : AesdDev

def aesdInitModule : Driver := ⟨Heap.empty,⟨aesdCircularBufferInit,none,0⟩⟩

def aesdOpen : ℕ := 0

def mergeFragment (env : CallEnv) (dev : AesdDev) (toWrite : Option ℕ) (m : Memory) :
    Except Oops Memory :=
  match dev.incompleteCommandBuffer with
  | none => .ok m
  | some p => do
      let m ← memcpy env m toWrite (some p) 0 dev.incompleteCommandSize
      kfree m (some p)

-- cmd_start and cmd_break are kept as offsets from incomplete_command_buffer
structure LoopState where
  cmdStart : ℕ
  readSize : ℕ
  ring : AesdCircularBuffer ℕ
  mem : Memory

def pushCommand (env : CallEnv) (buffer : Option ℕ) (s : LoopState) (cmdBreak : ℕ) :
    Except Oops (Bool × LoopState) := do
  let subcmdSize := cmdBreak + 1
  let (subcmd,m) := kmalloc env s.mem subcmdSize
  let m ← memcpy env m subcmd buffer s.cmdStart subcmdSize
  let (buffptr,m) := kmalloc env m subcmdSize
  if buffptr.isNone then
    let m ← kfree m subcmd
    return (false,{ s with mem := m })
  let m ← memcpy env m buffptr subcmd 0 subcmdSize
  let m ← kfree m subcmd
  let (toFree,ring) := aesdCircularBufferAddEntry s.ring ⟨buffptr,subcmdSize⟩
  let m ← kfree m toFree
  return (true,⟨cmdBreak + 1,
    s.readSize - (if subcmdSize > s.readSize then s.readSize else subcmdSize),ring,m⟩)

-- false: a kmalloc for a ring entry failed; the fuel is never short, see newline_loop_refines
def newlineLoop (env : CallEnv) (buffer : Option ℕ) : ℕ → LoopState → Except Oops (Bool × LoopState)
  | 0, s => .ok (true,s)
  | fuel+1, s => do
      match ← memchr env s.mem buffer s.cmdStart s.readSize with
      | none => return (true,s)
      | some cmdBreak =>
          let (more,s') ← pushCommand env buffer s cmdBreak
          if more then newlineLoop env buffer fuel s' else return (false,s')

def storeRemainder (env : CallEnv) (buffer : Option ℕ) (totalSize : ℕ) (s : LoopState) :
    Except Oops (Bool × AesdDev × Memory) := do
  if s.cmdStart < totalSize then
    let remainingSize := totalSize - s.cmdStart
    let (remaining,m) := kmalloc env s.mem remainingSize
    if remaining.isNone then return (false,⟨s.ring,buffer,totalSize⟩,m)
    let m ← memcpy env m remaining buffer s.cmdStart remainingSize
    let m ← kfree m buffer
    return (true,⟨s.ring,remaining,remainingSize⟩,m)
  else
    let m ← kfree s.mem buffer
    return (true,⟨s.ring,none,0⟩,m)

def printSlot (env : CallEnv) (ring : AesdCircularBuffer ℕ) (m : Memory) (index : ℕ) :
    Except Oops Memory :=
  match (ring.slot index).buffptr with
  | none => .ok m
  | some p => do
      let size := (ring.slot index).size
      let (printbuf,m) := kmalloc env m (size + 1)
      let m ← memcpy env m printbuf (some p) 0 size
      let m ← save m size [0] printbuf
      kfree m printbuf

def aesdPrintCb (env : CallEnv) (ring : AesdCircularBuffer ℕ) (m : Memory) : Except Oops Memory :=
  (List.range maxWriteOperationsSupported).foldlM (printSlot env ring) m

def aesdWrite (env : CallEnv) (d : Driver) (buf : Bytes) : Except Oops (ℤ × Driver) := do
  if env.interrupted then return (-eintr,d)
  let totalSize := d.dev.incompleteCommandSize + buf.length
  let (toWrite,m) := kmalloc env ⟨d.heap,0⟩ totalSize
  let m ← mergeFragment env d.dev toWrite m
  let (uncopied,m) ← copyFromUser env m toWrite d.dev.incompleteCommandSize buf
  if uncopied then
    let m ← kfree m toWrite
    return (-efault,{ d with heap := m.heap })
  let (more,s) ← newlineLoop env toWrite totalSize ⟨0,totalSize,d.dev.circularBuffer,m⟩
  if !more then return (-enomem,⟨s.mem.heap,⟨s.ring,toWrite,totalSize⟩⟩)
  let (stored,dev,m) ← storeRemainder env toWrite totalSize s
  if !stored then return (-enomem,⟨m.heap,dev⟩)
  let m ← aesdPrintCb env dev.circularBuffer m
  return (buf.length,⟨m.heap,dev⟩)

-- the value returned, the bytes copied to the user and the new file position
def aesdRead (env : CallEnv) (d : Driver) (count fPos : ℕ) : Except Oops (ℤ × Bytes × ℕ) := do
  if count = 0 then return (0,[],fPos)
  if env.interrupted then return (-eintr,[],fPos)
  match aesdCircularBufferFindEntryOffsetForFpos d.dev.circularBuffer fPos with
  | none => return (0,[],fPos)
  | some (index,offset) =>
      let readEntry := d.dev.circularBuffer.slot index
      if readEntry.buffptr.isNone then return (0,[],fPos)
      let readSize := min count (readEntry.size - offset)
      let bytes ← load env ⟨d.heap,0⟩ offset readSize readEntry.buffptr
      if env.uncopied && readSize != 0 then return (-efault,[],fPos)
      return (readSize,bytes,fPos + readSize)

structure AesdSeekto where
  writeCmd : UInt32
  writeCmdOffset : UInt32
  deriving DecidableEq, Repr

def aesdIocMagic : ℕ := 0x16

-- _IOWR(type, nr, size) of asm-generic/ioctl.h
def iowr (type nr size : ℕ) : ℕ := 3 * 2^30 + size * 2^16 + type * 2^8 + nr

def aesdcharIocseekto : ℕ := iowr aesdIocMagic 1 8

def calculateOffset (ring : AesdCircularBuffer ℕ) (writeCmd writeCmdOffset : ℕ) :
    List ℕ → ℕ → ℕ
  | [], calculated => calculated
  | index :: rest, calculated =>
      if index < writeCmd then
        calculateOffset ring writeCmd writeCmdOffset rest (calculated + (ring.slot index).size)
      else if index = writeCmd then calculated + writeCmdOffset
      else calculateOffset ring writeCmd writeCmdOffset rest calculated

def aesdAdjustFileOffset (d : Driver) (fPos : ℕ) (writeCmd writeCmdOffset : UInt32) : ℤ × ℕ :=
  if ¬ writeCmd.toNat < maxWriteOperationsSupported then (-einval,fPos)
  else if ¬ writeCmdOffset.toNat < (d.dev.circularBuffer.slot writeCmd.toNat).size then
    (-einval,fPos)
  else (0,calculateOffset d.dev.circularBuffer writeCmd.toNat writeCmdOffset.toNat
    (List.range maxWriteOperationsSupported) 0)

def aesdUnlockedIoctl (env : CallEnv) (d : Driver) (fPos cmd : ℕ) (arg : AesdSeekto) : ℤ × ℕ :=
  if cmd = aesdcharIocseekto then
    if env.uncopied then (efault,fPos)
    else aesdAdjustFileOffset d fPos arg.writeCmd arg.writeCmdOffset
  else (-enotty,fPos)

def freeSlot (b : AesdCircularBuffer ℕ × Memory) (index : ℕ) :
    Except Oops (AesdCircularBuffer ℕ × Memory) :=
  match (b.1.slot index).buffptr with
  | none => .ok b
  | some p => do
      let m ← kfree b.2 (some p)
      return (b.1.setSlot index { b.1.slot index with buffptr := none },m)

def aesdCleanupModule (d : Driver) : Except Oops Driver := do
  let m ← kfree ⟨d.heap,0⟩ d.dev.incompleteCommandBuffer
  let (ring,m) ← (List.range maxWriteOperationsSupported).foldlM freeSlot (d.dev.circularBuffer,m)
  return ⟨m.heap,⟨ring,none,if d.dev.incompleteCommandBuffer.isSome then 0
    else d.dev.incompleteCommandSize⟩⟩

def entryBytes (h : Heap UInt8) (e : AesdBufferEntry ℕ) : Option Bytes :=
  (e.buffptr.bind h.block).filter fun b => b.length == e.size

def commands (d : Driver) : List (Option Bytes) :=
  (content d.dev.circularBuffer).map (entryBytes d.heap)

def fragment (d : Driver) : Option Bytes :=
  match d.dev.incompleteCommandBuffer with
  | none => if d.dev.incompleteCommandSize = 0 then some [] else none
  | some p => (d.heap.block p).filter fun b => b.length == d.dev.incompleteCommandSize

end Device
