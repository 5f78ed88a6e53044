import Mathlib.Data.List.Nodup
import Mathlib.Data.List.Perm.Basic

namespace BlockHeap

structure Heap (A : Type) where
  next : ℕ
  block : ℕ → Option (List A)
  fresh : ∀ p, next ≤ p → block p = none

namespace Heap
variable {A : Type}

def empty : Heap A := ⟨0,fun _ => none,fun _ _ => rfl⟩

def alloc (h : Heap A) (b : List A) : Heap A where
  next := h.next + 1
  block := fun p => if p = h.next then some b else h.block p
  fresh := fun p hp => by
    rw [if_neg (by omega)]
    exact h.fresh p (by omega)

def free (h : Heap A) (p : ℕ) : Heap A where
  next := h.next
  block := fun q => if q = p then none else h.block q
  fresh := fun q hq => by
    split_ifs
    · rfl
    · exact h.fresh q hq

def store (h : Heap A) (p : ℕ) (b : List A) : Heap A where
  next := h.next
  block := fun q => if q = p then (h.block p).map fun _ => b else h.block q
  fresh := fun q hq => by
    split_ifs with he
    · rw [← he,h.fresh q hq]
      rfl
    · exact h.fresh q hq

def Live (h : Heap A) (p : ℕ) : Prop := (h.block p).isSome

instance (h : Heap A) (p : ℕ) : Decidable (h.Live p) := inferInstanceAs (Decidable ((h.block p).isSome = true))

theorem lt_next {h : Heap A} {p : ℕ} {b : List A} (hp : h.block p = some b) : p < h.next := by
  by_contra hn
  rw [h.fresh p (by omega)] at hp
  cases hp

def Holds (h : Heap A) (cells : List (ℕ × List A)) : Prop :=
  (cells.map Prod.fst).Nodup ∧ ∀ p b, h.block p = some b ↔ (p,b) ∈ cells

namespace Holds
variable {h : Heap A} {cells : List (ℕ × List A)}

theorem empty : Holds (Heap.empty : Heap A) [] := ⟨by simp,by simp [Heap.empty]⟩

theorem perm {cells' : List (ℕ × List A)} (hc : h.Holds cells) (hp : cells.Perm cells') :
    h.Holds cells' :=
  ⟨(hp.map Prod.fst).nodup_iff.mp hc.1,fun p b => (hc.2 p b).trans hp.mem_iff⟩

theorem read (hc : h.Holds cells) {p : ℕ} {b : List A} (hm : (p,b) ∈ cells) :
    h.block p = some b := (hc.2 p b).mpr hm

theorem live_iff (hc : h.Holds cells) (p : ℕ) : h.Live p ↔ p ∈ cells.map Prod.fst := by
  simp only [Live,Option.isSome_iff_exists,hc.2,List.mem_map,Prod.exists,exists_and_right,
    exists_eq_right]

theorem dead (hc : h.Holds cells) {p : ℕ} (hp : p ∉ cells.map Prod.fst) : h.block p = none := by
  have hl := (hc.live_iff p).not.mpr hp
  simpa [Live] using hl

theorem next_not_mem (hc : h.Holds cells) : h.next ∉ cells.map Prod.fst := by
  rw [← hc.live_iff]
  simp [Live,h.fresh _ (Nat.le_refl _)]

theorem alloc (hc : h.Holds cells) (b : List A) : (h.alloc b).Holds ((h.next,b) :: cells) := by
  refine ⟨by simpa using And.intro (by simpa using hc.next_not_mem) hc.1,?_⟩
  intro p c
  simp only [Heap.alloc,List.mem_cons,Prod.mk.injEq]
  split_ifs with hp
  · constructor
    · rintro ⟨⟩
      exact Or.inl ⟨hp,rfl⟩
    · rintro (⟨_,rfl⟩ | hm)
      · rfl
      · exact absurd (List.mem_map_of_mem (f := Prod.fst) hm) (hp ▸ hc.next_not_mem)
  · simp [hp,hc.2]

theorem free {p : ℕ} {b : List A} (hc : h.Holds ((p,b) :: cells)) : (h.free p).Holds cells := by
  have hn := List.nodup_cons.mp (by simpa only [List.map_cons] using hc.1)
  refine ⟨hn.2,?_⟩
  intro q c
  simp only [Heap.free]
  split_ifs with hq
  · simp only [false_iff]
    intro hm
    exact hn.1 (hq ▸ List.mem_map_of_mem (f := Prod.fst) hm)
  · rw [hc.2]
    simp [hq]

theorem store {p : ℕ} {b : List A} (hc : h.Holds ((p,b) :: cells)) (b' : List A) :
    (h.store p b').Holds ((p,b') :: cells) := by
  have hn := List.nodup_cons.mp (by simpa only [List.map_cons] using hc.1)
  refine ⟨hc.1,?_⟩
  intro q c
  simp only [Heap.store,List.mem_cons,Prod.mk.injEq]
  split_ifs with hq
  · rw [hc.read (b := b) (by simp)]
    simp only [Option.map_some,Option.some.injEq]
    constructor
    · rintro rfl
      exact Or.inl ⟨hq,rfl⟩
    · rintro (⟨_,rfl⟩ | hm)
      · rfl
      · exact absurd (List.mem_map_of_mem (f := Prod.fst) hm) (hq ▸ hn.1)
  · rw [hc.2]
    simp [hq]

end Holds
end Heap
end BlockHeap
