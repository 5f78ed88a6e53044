import Aesd.CharDriver.Addressing
import Aesd.CharDriver.Llseek

namespace Device
open Kernel Delimited CircularBuffer

inductive FileCall (F : Type) where
  | openFile (f : F)
  | release (f : F)
  | read (f : F) (env : CallEnv) (count : ℕ)
  | write (f : F) (env : CallEnv) (buf : Bytes)
  | llseek (f : F) (off whence : ℤ)
  | ioctl (f : F) (env : CallEnv) (cmd : ℕ) (arg : AesdSeekto)

structure Reply where
  retval : ℤ
  out : Bytes
  deriving DecidableEq, Repr

-- what the driver is for, told without its ring and its heap: a stream of bytes of which the last ten
-- lines can be read, and a position for each open file
structure LineStore (F : Type) where
  written : Bytes
  position : F → Option ℕ

namespace LineStore
variable {F : Type}

def empty : LineStore F := ⟨[],fun _ => none⟩

def kept (s : LineStore F) : List Bytes := (pieces newline s.written).rtake 10

-- a read ends with the line it starts in
def readAt (lines : List Bytes) (p count : ℕ) : Bytes :=
  match Concat.locate (lines.map List.length) p with
  | none => []
  | some (k,r) => ((lines[k]?.getD []).drop r).take count

variable [DecidableEq F]

def moveTo (s : LineStore F) (f : F) (p : Option ℕ) : LineStore F :=
  { s with position := Function.update s.position f p }

-- fixed_size_llseek moves the position within the content
def perform (fixedSizeLlseek : ℤ → ℤ → ℤ → ℤ → ℤ × ℤ) (s : LineStore F) :
    FileCall F → Option (LineStore F × Reply)
  | .openFile f => if s.position f = none then some (s.moveTo f (some 0),⟨0,[]⟩) else none
  | .release f => (s.position f).map fun _ => (s.moveTo f none,⟨0,[]⟩)
  | .read f env count => (s.position f).map fun p =>
      if count = 0 then (s,⟨0,[]⟩)
      else if env.interrupted then (s,⟨-eintr,[]⟩)
      else if readAt s.kept p count = [] then (s,⟨0,[]⟩)
      else if env.uncopied then (s,⟨-efault,[]⟩)
      else (s.moveTo f (some (p + (readAt s.kept p count).length)),
        ⟨(readAt s.kept p count).length,readAt s.kept p count⟩)
  | .write f env buf => (s.position f).map fun _ =>
      if env.interrupted then (s,⟨-eintr,[]⟩)
      else if env.uncopied && !buf.isEmpty then (s,⟨-efault,[]⟩)
      else ({ s with written := s.written ++ buf },⟨buf.length,[]⟩)
  | .llseek f off whence => (s.position f).map fun (p : ℕ) =>
      let moved := fixedSizeLlseek p off whence (toSsize s.kept.flatten.length)
      (s.moveTo f (some moved.2.toNat),⟨toInt moved.1,[]⟩)
  | .ioctl f env cmd arg => (s.position f).map fun _ =>
      if cmd ≠ aesdcharIocseekto then (s,⟨-enotty,[]⟩)
      else if env.uncopied then (s,⟨efault,[]⟩)
      else match seekPosition s.written arg.writeCmd.toNat arg.writeCmdOffset.toNat with
        | none => (s,⟨-einval,[]⟩)
        | some q => (s.moveTo f (some q),⟨0,[]⟩)

end LineStore

end Device
