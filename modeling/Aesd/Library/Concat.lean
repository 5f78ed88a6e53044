import Mathlib.Algebra.BigOperators.Group.List.Basic
import Mathlib.Algebra.Ring.Nat

namespace Concat

variable {A : Type}

def locate : List ℕ → ℕ → Option (ℕ × ℕ)
  | [], _ => none
  | n :: ns, p => if p < n then some (0,p) else (locate ns (p-n)).map fun x => (x.1+1,x.2)

theorem locate_eq_none (ns : List ℕ) (p : ℕ) : locate ns p = none ↔ ns.sum ≤ p := by
  induction ns generalizing p with
  | nil => simp [locate]
  | cons n ns ih =>
    simp only [locate,List.sum_cons]
    split_ifs with h
    · simp only [false_iff]
      omega
    · rw [Option.map_eq_none_iff,ih]
      omega

theorem locate_some {ns : List ℕ} {p k r : ℕ} (h : locate ns p = some (k,r)) :
    (ns.take k).sum + r = p ∧ ∃ n, ns[k]? = some n ∧ r < n := by
  induction ns generalizing p k with
  | nil => simp [locate] at h
  | cons n ns ih =>
    simp only [locate] at h
    split_ifs at h with hp
    · cases h
      exact ⟨by simp,n,rfl,hp⟩
    · obtain ⟨⟨j,s⟩,hj,he⟩ := Option.map_eq_some_iff.mp h
      cases he
      obtain ⟨hsum,m,hm,hs⟩ := ih hj
      refine ⟨?_,m,by simpa using hm,hs⟩
      simp only [List.take_succ_cons,List.sum_cons]
      omega

theorem locate_at {ns : List ℕ} {k r n : ℕ} (hk : ns[k]? = some n) (hr : r < n) :
    locate ns ((ns.take k).sum + r) = some (k,r) := by
  induction ns generalizing k with
  | nil => simp at hk
  | cons m ns ih =>
    cases k with
    | zero =>
      cases hk
      simp [locate,hr]
    | succ k =>
      have hi := ih (k := k) (by simpa using hk)
      have hs : m + (ns.take k).sum + r - m = (ns.take k).sum + r := by omega
      simp only [locate,List.take_succ_cons,List.sum_cons,hs,hi]
      rw [if_neg (by omega)]
      rfl

theorem locate_append_zeros (ns : List ℕ) (j p : ℕ) :
    locate (ns ++ List.replicate j 0) p = locate ns p := by
  induction ns generalizing p with
  | nil =>
    induction j generalizing p with
    | zero => rfl
    | succ j ih =>
      have hj := ih p
      simp only [List.nil_append] at hj
      simp [List.replicate_succ,locate,hj]
  | cons n ns ih => simp [locate,ih]

theorem drop_flatten {xss : List (List A)} {p k r : ℕ}
    (h : locate (xss.map List.length) p = some (k,r)) :
    ∃ xs, xss[k]? = some xs ∧ r < xs.length ∧
      xss.flatten.drop p = xs.drop r ++ (xss.drop (k+1)).flatten := by
  induction xss generalizing p k with
  | nil => simp [locate] at h
  | cons xs xss ih =>
    simp only [List.map_cons,locate] at h
    split_ifs at h with hp
    · cases h
      exact ⟨xs,rfl,hp,by simp [List.drop_append_of_le_length (Nat.le_of_lt hp)]⟩
    · obtain ⟨⟨j,s⟩,hj,he⟩ := Option.map_eq_some_iff.mp h
      cases he
      obtain ⟨ys,hys,hlt,hd⟩ := ih hj
      refine ⟨ys,by simpa using hys,hlt,?_⟩
      rw [List.flatten_cons,List.drop_append,List.drop_eq_nil_of_le (by omega),hd]
      simp

end Concat
