import Aesd.Server.Scan
import Mathlib.Data.Fin.Basic
import Mathlib.Data.List.GetD

namespace AesdSocket
open Kernel Scan

-- struct tm as localtime fills it, tm_year an int and the offset less than a day
structure Tm where
  sec : Fin 61
  min : Fin 60
  hour : Fin 24
  mday : Fin 32
  mon : Fin 12
  year : ℤ
  wday : Fin 7
  gmtoff : ℤ
  years : -2^31 ≤ year ∧ year < 2^31
  offset : gmtoff.natAbs < 86400

def digit (n : ℕ) : UInt8 := UInt8.ofNat (48 + n % 10)

def padded : ℕ → ℕ → Bytes
  | 0, _ => []
  | width+1, n => padded width (n / 10) ++ [digit n]

-- at most width digits, without leading zeros
def decimal : ℕ → ℕ → Bytes
  | 0, _ => []
  | width+1, n => (if n < 10 then [] else decimal width (n / 10)) ++ [digit n]

def signed (n : ℤ) (s : Bytes) : Bytes := if n < 0 then 45 :: s else s

def weekday (d : Fin 7) : Bytes :=
  ascii ([['S','u','n'],['M','o','n'],['T','u','e'],['W','e','d'],['T','h','u'],['F','r','i'],
    ['S','a','t']].getD d [])

def month (m : Fin 12) : Bytes :=
  ascii ([['J','a','n'],['F','e','b'],['M','a','r'],['A','p','r'],['M','a','y'],['J','u','n'],
    ['J','u','l'],['A','u','g'],['S','e','p'],['O','c','t'],['N','o','v'],['D','e','c']].getD m [])

def year (tm : Tm) : Bytes := signed (tm.year + 1900) (decimal 11 (tm.year + 1900).natAbs)

-- %z: a sign, the hours and the minutes
def zone (tm : Tm) : Bytes :=
  (if tm.gmtoff < 0 then 45 else 43) ::
    padded 4 (tm.gmtoff.natAbs / 3600 * 100 + tm.gmtoff.natAbs / 60 % 60)

-- what strftime makes of "timestamp:%a, %d %b %Y %H:%M:%S %z\n", without the newline
def timestampText (tm : Tm) : Bytes :=
  ascii ['t','i','m','e','s','t','a','m','p',':'] ++ weekday tm.wday ++ ascii [',',' '] ++
    padded 2 tm.mday ++ ascii [' '] ++ month tm.mon ++ ascii [' '] ++ year tm ++ ascii [' '] ++
    padded 2 tm.hour ++ ascii [':'] ++ padded 2 tm.min ++ ascii [':'] ++ padded 2 tm.sec ++
    ascii [' '] ++ zone tm

def timestamp (tm : Tm) : Bytes := timestampText tm ++ [newline]

def Printed (s : Bytes) : Prop := ∀ b ∈ s, 32 ≤ b

instance (s : Bytes) : Decidable (Printed s) := List.decidableBAll (fun b => 32 ≤ b) s

section Text
variable {s t : Bytes}

theorem Printed.append (hs : Printed s) (ht : Printed t) : Printed (s ++ t) :=
  List.forall_mem_append.mpr ⟨hs,ht⟩

theorem digit_printed (n : ℕ) : 32 ≤ digit n := by
  have hlt : n % 10 < 10 := Nat.mod_lt _ (by decide)
  have hall : ∀ d < 10, 32 ≤ UInt8.ofNat (48 + d) := by decide
  exact hall _ hlt

theorem padded_printed (width n : ℕ) : Printed (padded width n) := by
  induction width generalizing n with
  | zero => exact fun _ h => nomatch h
  | succ width ih => exact (ih (n / 10)).append (by simp [Printed,digit_printed])

theorem padded_length (width n : ℕ) : (padded width n).length = width := by
  induction width generalizing n with
  | zero => rfl
  | succ width ih => rw [padded,List.length_append,ih,List.length_singleton]

theorem decimal_printed (width n : ℕ) : Printed (decimal width n) := by
  induction width generalizing n with
  | zero => exact fun _ h => nomatch h
  | succ width ih =>
    rw [decimal]
    refine Printed.append ?_ (by simp [Printed,digit_printed])
    split_ifs
    · exact fun _ h => nomatch h
    · exact ih (n / 10)

theorem decimal_length (width n : ℕ) : (decimal width n).length ≤ width := by
  induction width generalizing n with
  | zero => exact Nat.le_refl _
  | succ width ih =>
    rw [decimal,List.length_append,List.length_singleton]
    split_ifs
    · simp
    · exact Nat.succ_le_succ (ih (n / 10))

theorem weekday_text (d : Fin 7) : Printed (weekday d) ∧ (weekday d).length = 3 := by
  revert d
  decide

theorem month_text (m : Fin 12) : Printed (month m) ∧ (month m).length = 3 := by
  revert m
  decide

theorem year_text (tm : Tm) : Printed (year tm) ∧ (year tm).length ≤ 12 := by
  have hp := decimal_printed 11 (tm.year + 1900).natAbs
  have hl := decimal_length 11 (tm.year + 1900).natAbs
  unfold year signed
  split_ifs
  · refine ⟨fun b hb => ?_,Nat.succ_le_succ hl⟩
    rcases List.mem_cons.mp hb with rfl | hb
    · decide
    · exact hp b hb
  · exact ⟨hp,Nat.le_succ_of_le hl⟩

theorem zone_text (tm : Tm) : Printed (zone tm) ∧ (zone tm).length = 5 := by
  refine ⟨fun b hb => ?_,by rw [zone,List.length_cons,padded_length]⟩
  rcases List.mem_cons.mp hb with rfl | hb
  · split_ifs <;> decide
  · exact padded_printed _ _ b hb

theorem timestamp_printed (tm : Tm) : Printed (timestampText tm) := by
  have hliteral : Printed (ascii [',',' ']) ∧ Printed (ascii [' ']) ∧ Printed (ascii [':']) ∧
      Printed (ascii ['t','i','m','e','s','t','a','m','p',':']) := by decide
  obtain ⟨hcomma,hblank,hcolon,hhead⟩ := hliteral
  have hdigits (n : ℕ) := padded_printed 2 n
  have hdate := ((((hhead.append (weekday_text tm.wday).1).append hcomma).append
    (hdigits tm.mday)).append hblank).append (month_text tm.mon).1
  have hyear := ((hdate.append hblank).append (year_text tm).1).append hblank
  have htime := ((((hyear.append (hdigits tm.hour)).append hcolon).append
    (hdigits tm.min)).append hcolon).append (hdigits tm.sec)
  exact (htime.append hblank).append (zone_text tm).1

theorem text_line (hs : Printed s) : newline ∉ s := fun h => absurd (hs newline h) (by decide)

-- so strftime never fails for want of room, and strlen finds the end of the line
theorem timestamp_fits (tm : Tm) : (timestamp tm).length < 64 ∧ (0 : UInt8) ∉ timestamp tm := by
  constructor
  · have hyear := (year_text tm).2
    simp only [timestamp,timestampText,List.length_append,padded_length,(weekday_text _).2,
      (month_text _).2,(zone_text _).2,ascii,List.length_map,List.length_cons,List.length_nil]
    omega
  · intro h
    rcases List.mem_append.mp h with h | h
    · exact absurd (timestamp_printed tm 0 h) (by decide)
    · simp [newline] at h

end Text

end AesdSocket
