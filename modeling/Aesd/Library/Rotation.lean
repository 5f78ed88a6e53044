import Aesd.Library.Recent
import Mathlib.Algebra.Ring.Nat
import Mathlib.Data.Nat.Basic

namespace Rotation

variable {A B : Type}

-- of the elements numbered i, i + n, i + 2n and so on, the last one
def latest (n : ℕ) (xs : List A) (i : ℕ) : Option A :=
  if i < n then xs[i + n * ((xs.length - 1 - i) / n)]? else none

theorem latest_map (f : A → B) (n : ℕ) (xs : List A) (i : ℕ) :
    latest n (xs.map f) i = (latest n xs i).map f := by
  unfold latest
  split_ifs <;> simp

theorem latest_short {n : ℕ} {xs : List A} (hl : xs.length ≤ n) {i : ℕ} (hi : i < n) :
    latest n xs i = xs[i]? := by
  have hz : (xs.length - 1 - i) / n = 0 := Nat.div_eq_of_lt (by omega)
  rw [latest,if_pos hi,hz,Nat.mul_zero,Nat.add_zero]

theorem latest_rtake {n : ℕ} {xs : List A} (hl : n ≤ xs.length) {i : ℕ} (hi : i < n) :
    latest n xs i = (xs.rtake n)[(i + n - xs.length % n) % n]? := by
  have hr : xs.length % n < n := Nat.mod_lt _ (by omega)
  have hsplit := Nat.div_add_mod xs.length n
  have hq : 0 < xs.length / n := Nat.div_pos hl (by omega)
  rw [latest,if_pos hi,List.rtake,List.getElem?_drop]
  congr 1
  rcases Nat.lt_or_ge i (xs.length % n) with hlt | hge
  · have hsame : xs.length - 1 - i = n * (xs.length / n) + (xs.length % n - 1 - i) := by omega
    have hz : (xs.length % n - 1 - i) / n = 0 := Nat.div_eq_of_lt (by omega)
    have hmod : (i + n - xs.length % n) % n = i + n - xs.length % n := Nat.mod_eq_of_lt (by omega)
    rw [hsame,Nat.mul_add_div (by omega),hz,Nat.add_zero,hmod]
    omega
  · obtain ⟨q,he⟩ : ∃ q, xs.length / n = q + 1 := ⟨xs.length / n - 1,by omega⟩
    rw [he,Nat.mul_add,Nat.mul_one] at hsplit
    have hsame : xs.length - 1 - i = n * q + (n + xs.length % n - 1 - i) := by omega
    have hmod : (i + n - xs.length % n) % n = i - xs.length % n := by
      rw [show i + n - xs.length % n = i - xs.length % n + n by omega,Nat.add_mod_right,
        Nat.mod_eq_of_lt (by omega)]
    have hz : (n + xs.length % n - 1 - i) / n = 0 := Nat.div_eq_of_lt (by omega)
    rw [hsame,Nat.mul_add_div (by omega),hz,Nat.add_zero,hmod]
    omega

end Rotation
