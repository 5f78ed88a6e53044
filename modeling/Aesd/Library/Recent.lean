import Mathlib.Data.List.DropRight

namespace Recent

variable {A B : Type}

theorem rtake_of_le {xs : List A} {n : ℕ} (h : xs.length ≤ n) : xs.rtake n = xs := by
  simp [List.rtake,Nat.sub_eq_zero_of_le h]

theorem length_rtake (xs : List A) (n : ℕ) : (xs.rtake n).length = min n xs.length := by
  simp only [List.rtake,List.length_drop]
  omega

theorem map_rtake (f : A → B) (xs : List A) (n : ℕ) :
    (xs.rtake n).map f = (xs.map f).rtake n := by
  simp [List.rtake,List.map_drop]

theorem rtake_rtake_append (xs ys : List A) (n : ℕ) :
    (xs.rtake n ++ ys).rtake n = (xs ++ ys).rtake n := by
  by_cases h : xs.length ≤ n
  · rw [rtake_of_le h]
  · have hlen := length_rtake xs n
    simp only [List.rtake,List.length_append,List.length_drop,List.drop_append,List.drop_drop] at hlen ⊢
    congr 1 <;> congr 1 <;> omega

theorem rtake_snoc_lt {xs : List A} {n : ℕ} (h : xs.length < n) (x : A) :
    (xs ++ [x]).rtake n = xs ++ [x] := rtake_of_le (by simp; omega)

theorem rtake_snoc_full {y : A} {xs : List A} {n : ℕ} (h : (y :: xs).length = n) (x : A) :
    (y :: xs ++ [x]).rtake n = xs ++ [x] := by
  subst h
  simp [List.rtake]

theorem rtake_append_self {xs ys : List A} {n : ℕ} (h : xs.length ≤ n) :
    (xs ++ ys).rtake n = xs ↔
      ys = [] ∨ xs.length = n ∧ ∀ i < n, (xs ++ ys)[i + ys.length]? = xs[i]? := by
  constructor
  · intro he
    by_cases hy : ys = []
    · exact Or.inl hy
    have hpos := List.length_pos_iff.mpr hy
    have hlen := congrArg List.length he
    rw [length_rtake,List.length_append] at hlen
    have hfull : xs.length = n := by omega
    refine Or.inr ⟨hfull,fun i _ => ?_⟩
    have hskip : (xs ++ ys).length - n = ys.length := by
      rw [List.length_append]
      omega
    rw [List.rtake,hskip] at he
    rw [Nat.add_comm,← List.getElem?_drop,he]
  · rintro (rfl | ⟨rfl,hsame⟩)
    · rw [List.append_nil,rtake_of_le h]
    · refine List.ext_getElem? fun i => ?_
      rw [List.rtake,List.length_append,Nat.add_sub_cancel_left,List.getElem?_drop,Nat.add_comm]
      by_cases hi : i < xs.length
      · exact hsame i hi
      · rw [List.getElem?_eq_none (by simp; omega),List.getElem?_eq_none (by omega)]

theorem last_mem_rtake (xs : List A) (x : A) {n : ℕ} (hn : 0 < n) : x ∈ (xs ++ [x]).rtake n := by
  refine List.mem_of_getElem? (i := ((xs ++ [x]).rtake n).length - 1) ?_
  simp only [List.rtake,List.length_drop,List.getElem?_drop,List.length_append,List.length_singleton]
  rw [List.getElem?_append_right (by omega)]
  have hz : xs.length + 1 - n + (xs.length + 1 - (xs.length + 1 - n) - 1) - xs.length = 0 := by
    omega
  rw [hz]
  rfl

end Recent
