import Aesd.CharDriver.Kernel
import Mathlib.Algebra.Ring.Int.Defs
import Mathlib.Data.List.TakeWhile

namespace Scan
open Kernel

def ascii (cs : List Char) : Bytes := cs.map fun c => UInt8.ofNat c.toNat

def aesdIoctlSeekto : Bytes :=
  ascii ['A','E','S','D','C','H','A','R','_','I','O','C','S','E','E','K','T','O',':']

-- the string a C function sees in a buffer of n bytes; without a terminator it runs on into the
-- bytes after the buffer
def cString (buf : ℕ → UInt8) (after : Bytes) : ℕ → ℕ → Bytes
  | 0, _ => after
  | n+1, k => if buf k = 0 then [] else buf k :: cString buf after n (k + 1)

def strstr : Bytes → Bytes → Bool
  | [], needle => needle.isEmpty
  | c :: cs, needle => needle.isPrefixOf (c :: cs) || strstr cs needle

def isSpace (c : UInt8) : Bool := c == 32 || (9 ≤ c && c ≤ 13)

def isDigit (c : UInt8) : Bool := 48 ≤ c && c ≤ 57

def longMax : ℤ := 2^63 - 1
def longMin : ℤ := -2^63

def clampLong (n : ℤ) : ℤ := max longMin (min longMax n)

def readDigits (s : Bytes) : Option (ℕ × Bytes) :=
  let digits := s.takeWhile isDigit
  if digits = [] then none
  else some (digits.foldl (fun n c => 10 * n + (c.toNat - 48)) 0,s.dropWhile isDigit)

def readSigned : Bytes → Option (ℤ × Bytes)
  | [] => none
  | c :: cs =>
      if c = 45 then (readDigits cs).map fun x => (-(x.1 : ℤ),x.2)
      else if c = 43 then (readDigits cs).map fun x => ((x.1 : ℤ),x.2)
      else (readDigits (c :: cs)).map fun x => ((x.1 : ℤ),x.2)

def scanLong (s : Bytes) : Option (ℤ × Bytes) :=
  (readSigned (s.dropWhile isSpace)).map fun x => (clampLong x.1,x.2)

def scanLiteral : Bytes → Bytes → Option Bytes
  | [], s => some s
  | _ :: _, [] => none
  | a :: pattern, c :: s => if a = c then scanLiteral pattern s else none

-- the values sscanf assigns for AESD_IOCTL_SEEKTO_PARSE, in order
def sscanfSeekto (s : Bytes) : List ℤ :=
  match (scanLiteral aesdIoctlSeekto s).bind scanLong with
  | none => []
  | some (index,rest) =>
      match (scanLiteral (ascii [',']) rest).bind scanLong with
      | none => [index]
      | some (offset,_) => [index,offset]

section CStrings
variable {buf : ℕ → UInt8} {p : Bytes} {n k : ℕ}

theorem c_string_split (after : Bytes) (hp : ∀ j, j < p.length → p[j]? = some (buf (k + j)))
    (hn : p.length ≤ n) : cString buf after n k = p.takeWhile (· != 0) ++
      if 0 ∈ p then [] else cString buf after (n - p.length) (k + p.length) := by
  induction p generalizing n k with
  | nil => simp
  | cons b p ih =>
    obtain ⟨n,rfl⟩ : ∃ m, n = m + 1 := ⟨n - 1,by simp at hn; omega⟩
    have hb : b = buf k := by simpa using hp 0 (by simp)
    have hshift (j : ℕ) : k + 1 + j = k + (j + 1) := by omega
    have hrest (j : ℕ) (hj : j < p.length) : p[j]? = some (buf (k + 1 + j)) := by
      simpa [hshift] using hp (j + 1) (by simpa using hj)
    have htail := ih hrest (by simpa using hn : p.length ≤ n)
    rw [hshift] at htail
    by_cases hz : buf k = 0
    · simp [cString,hb,hz]
    · simp [cString,hb,hz,htail,Ne.symm hz]

theorem c_string_append (after : Bytes) (hp : ∀ j, j < p.length → p[j]? = some (buf (k + j)))
    (h0 : ∀ c ∈ p, c ≠ 0) (hn : p.length ≤ n) :
    cString buf after n k = p ++ cString buf after (n - p.length) (k + p.length) := by
  have hall : p.takeWhile (· != 0) = p :=
    List.takeWhile_eq_self_iff.mpr fun c hc => by simpa using h0 c hc
  rw [c_string_split after hp hn,hall,if_neg fun hz => h0 0 hz rfl]

theorem c_string_text (after : Bytes) (hp : ∀ j, j < p.length → p[j]? = some (buf (k + j)))
    (hend : buf (k + p.length) = 0) (hn : p.length < n) :
    cString buf after n k = p.takeWhile (· != 0) := by
  obtain ⟨m,hm⟩ : ∃ m, n - p.length = m + 1 := ⟨n - p.length - 1,by omega⟩
  rw [c_string_split after hp (Nat.le_of_lt hn),hm,cString,if_pos hend,ite_self,List.append_nil]

end CStrings

end Scan
