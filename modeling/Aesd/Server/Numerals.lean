import Aesd.Server.Scan
import Mathlib.Algebra.Ring.Nat

namespace Scan
open Kernel

def digitsValue (digits : Bytes) : ℕ := digits.foldl (fun n c => 10 * n + (c.toNat - 48)) 0

structure Digits (digits : Bytes) : Prop where
  nonempty : digits ≠ []
  all : ∀ c ∈ digits, isDigit c = true

inductive Numeral : Bytes → ℤ → Prop
  | unsigned {digits : Bytes} (h : Digits digits) : Numeral digits (digitsValue digits)
  | positive {digits : Bytes} (h : Digits digits) : Numeral (43 :: digits) (digitsValue digits)
  | negative {digits : Bytes} (h : Digits digits) : Numeral (45 :: digits) (-(digitsValue digits : ℤ))

-- what ends a numeral: the end of the text or a byte that is no digit
def Ends (rest : Bytes) : Prop := ∀ c ∈ rest.head?, isDigit c = false

def FitsLong (x : ℤ) : Prop := longMin ≤ x ∧ x ≤ longMax

instance (x : ℤ) : Decidable (FitsLong x) :=
  inferInstanceAs (Decidable (longMin ≤ x ∧ x ≤ longMax))

section Digits
variable {digits text rest : Bytes} {c : UInt8} {x : ℤ}

theorem is_digit_iff (c : UInt8) : isDigit c = true ↔ 48 ≤ c.toNat ∧ c.toNat ≤ 57 := by
  simp [isDigit,UInt8.le_iff_toNat_le]

theorem digit_not_space (h : isDigit c = true) : isSpace c = false := by
  have hc := (is_digit_iff c).mp h
  simp only [isSpace,Bool.or_eq_false_iff,Bool.and_eq_false_imp,beq_eq_false_iff_ne,decide_eq_true_eq,
    decide_eq_false_iff_not,UInt8.le_iff_toNat_le,ne_eq,← UInt8.toNat_inj]
  simp only [UInt8.reduceToNat]
  omega

theorem take_while_digits (hd : ∀ c ∈ digits, isDigit c = true) (hr : Ends rest) :
    (digits ++ rest).takeWhile isDigit = digits ∧ (digits ++ rest).dropWhile isDigit = rest := by
  rw [List.takeWhile_append_of_pos hd,List.dropWhile_append_of_pos hd]
  cases rest with
  | nil => simp
  | cons c rest =>
    have hc : isDigit c = false := hr c rfl
    simp [hc]

theorem read_digits_append (h : Digits digits) (hr : Ends rest) :
    readDigits (digits ++ rest) = some (digitsValue digits,rest) := by
  obtain ⟨htake,hdrop⟩ := take_while_digits h.all hr
  simp only [readDigits,htake,hdrop,if_neg h.nonempty]
  rfl

theorem read_signed_append (h : Numeral text x) (hr : Ends rest) :
    readSigned (text ++ rest) = some (x,rest) := by
  cases h with
  | positive h => simp [readSigned,read_digits_append h hr]
  | negative h => simp [readSigned,read_digits_append h hr]
  | unsigned h =>
    obtain ⟨c,cs,rfl⟩ := List.exists_cons_of_ne_nil h.nonempty
    have hc := (is_digit_iff c).mp (h.all c (by simp))
    have hminus : c ≠ 45 := by
      rintro rfl
      exact absurd hc (by decide)
    have hplus : c ≠ 43 := by
      rintro rfl
      exact absurd hc (by decide)
    have hread := read_digits_append h hr
    rw [List.cons_append] at hread ⊢
    simp only [readSigned,if_neg hminus,if_neg hplus,hread,Option.map_some]

theorem numeral_head (h : Numeral text x) : ∃ c cs, text = c :: cs ∧ isSpace c = false := by
  cases h with
  | positive h => exact ⟨_,_,rfl,by decide⟩
  | negative h => exact ⟨_,_,rfl,by decide⟩
  | unsigned h =>
    obtain ⟨c,cs,rfl⟩ := List.exists_cons_of_ne_nil h.nonempty
    exact ⟨c,cs,rfl,digit_not_space (h.all c (by simp))⟩

theorem scan_long_append (h : Numeral text x) (hr : Ends rest) :
    scanLong (text ++ rest) = some (clampLong x,rest) := by
  obtain ⟨c,cs,rfl,hc⟩ := numeral_head h
  have hspace : (c :: cs ++ rest).dropWhile isSpace = c :: cs ++ rest := by simp [hc]
  rw [scanLong,hspace,read_signed_append h hr]
  rfl

theorem numeral_bytes (h : Numeral text x) : ∀ c ∈ text, c ≠ 0 ∧ c ≠ newline := by
  have hall {digits : Bytes} (h : Digits digits) : ∀ c ∈ digits, c ≠ 0 ∧ c ≠ newline := by
    intro c hc
    have hdigit := (is_digit_iff c).mp (h.all c hc)
    constructor
    · rintro rfl
      exact absurd hdigit (by decide)
    · rintro rfl
      exact absurd hdigit (by decide)
  cases h with
  | unsigned h => exact hall h
  | positive h => exact List.forall_mem_cons.mpr ⟨by decide,hall h⟩
  | negative h => exact List.forall_mem_cons.mpr ⟨by decide,hall h⟩

theorem digits_value_snoc (digits : Bytes) (c : UInt8) :
    digitsValue (digits ++ [c]) = 10 * digitsValue digits + (c.toNat - 48) := by
  simp [digitsValue]

theorem digits_exist (k : ℕ) {n : ℕ} (hn : n < 10^(k + 1)) :
    ∃ digits, Digits digits ∧ digitsValue digits = n ∧ digits.length ≤ k + 1 := by
  have hlast (m : ℕ) : ∃ c, isDigit c = true ∧ c.toNat - 48 = m % 10 := by
    have hbyte : 48 + m % 10 < 2^8 := by omega
    have hc : (UInt8.ofNat (48 + m % 10)).toNat = 48 + m % 10 := UInt8.toNat_ofNat_of_lt hbyte
    exact ⟨UInt8.ofNat (48 + m % 10),by rw [is_digit_iff,hc]; omega,by rw [hc]; omega⟩
  obtain ⟨c,hc,hv⟩ := hlast n
  induction k generalizing n c with
  | zero =>
    refine ⟨[c],⟨by simp,by simpa using hc⟩,?_,by simp⟩
    rw [digitsValue,List.foldl_cons,List.foldl_nil]
    omega
  | succ k ih =>
    rw [Nat.pow_succ] at hn
    obtain ⟨c',hc',hv'⟩ := hlast (n / 10)
    obtain ⟨digits,hd,hrest,hlen⟩ := ih (n := n / 10) (by omega) c' hc' hv'
    refine ⟨digits ++ [c],⟨by simp,List.forall_mem_append.mpr ⟨hd.all,by simpa using hc⟩⟩,?_,?_⟩
    · rw [digits_value_snoc,hrest]
      omega
    · rw [List.length_append,List.length_singleton]
      omega

theorem clamp_long_fits (h : FitsLong x) : clampLong x = x := by
  obtain ⟨hlo,hhi⟩ := h
  rw [clampLong]
  omega

theorem numeral_exists (h : FitsLong x) : ∃ text, Numeral text x ∧ text.length ≤ 20 := by
  have hlo := h.1
  have hhi := h.2
  rw [longMin] at hlo
  rw [longMax] at hhi
  obtain ⟨digits,hd,hv,hlen⟩ := digits_exist 18 (n := x.natAbs) (by omega)
  rcases Int.natAbs_eq x with hx | hx
  · exact ⟨digits,by rw [hx,← hv]; exact .unsigned hd,by omega⟩
  · exact ⟨45 :: digits,by rw [hx,← hv]; exact .negative hd,by rw [List.length_cons]; omega⟩

end Digits

theorem scan_literal_append (pattern s : Bytes) : scanLiteral pattern (pattern ++ s) = some s := by
  induction pattern with
  | nil => rfl
  | cons a pattern ih => simpa [scanLiteral] using ih

def seekCommand (x y : Bytes) : Bytes := aesdIoctlSeekto ++ (x ++ (ascii [','] ++ y))

theorem seek_command_bytes {tx ty : Bytes} {x y : ℤ} (hx : Numeral tx x) (hy : Numeral ty y) :
    ∀ c ∈ seekCommand tx ty, c ≠ 0 ∧ c ≠ newline := by
  have hplain {s : Bytes} (h : (s.all fun c => c != 0 && c != newline) = true) :
      ∀ c ∈ s, c ≠ 0 ∧ c ≠ newline := by simpa using h
  exact List.forall_mem_append.mpr ⟨hplain (by decide),List.forall_mem_append.mpr
    ⟨numeral_bytes hx,List.forall_mem_append.mpr ⟨hplain (by decide),numeral_bytes hy⟩⟩⟩

theorem strstr_prefix {s needle : Bytes} (h : needle <+: s) : strstr s needle = true := by
  cases s with
  | nil => simp [strstr,List.prefix_nil.mp h]
  | cons c cs => simp [strstr,List.isPrefixOf_iff_prefix.mpr h]

theorem sscanf_seek_command {tx ty rest : Bytes} {x y : ℤ} (hx : Numeral tx x) (hy : Numeral ty y)
    (hr : Ends rest) : sscanfSeekto (seekCommand tx ty ++ rest) = [clampLong x,clampLong y] := by
  have hcomma : Ends (ascii [','] ++ (ty ++ rest)) := by
    intro c hc
    cases hc
    decide
  have hfirst : (scanLiteral aesdIoctlSeekto (seekCommand tx ty ++ rest)).bind scanLong =
      some (clampLong x,ascii [','] ++ (ty ++ rest)) := by
    rw [seekCommand,List.append_assoc,scan_literal_append,Option.bind_some,List.append_assoc,
      List.append_assoc]
    exact scan_long_append hx hcomma
  have hsecond : (scanLiteral (ascii [',']) (ascii [','] ++ (ty ++ rest))).bind scanLong =
      some (clampLong y,rest) := by
    rw [scan_literal_append,Option.bind_some]
    exact scan_long_append hy hr
  simp only [sscanfSeekto,hfirst,hsecond]

end Scan
