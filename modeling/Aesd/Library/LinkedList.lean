import Mathlib.Data.List.Nodup
import Mathlib.Data.Nat.Notation
import Mathlib.Logic.Function.Basic

namespace LinkedList

variable {P : Type}

-- next gives the link kept in a live node and none for a dead one
def Segment (next : P → Option (Option P)) : Option P → List P → Option P → Prop
  | first, [], last => first = last
  | first, p :: ps, last => first = some p ∧ ∃ n, next p = some n ∧ Segment next n ps last

variable {next next' : P → Option (Option P)} {first last : Option P} {xs ys : List P} {p : P}

@[simp] theorem segment_nil : Segment next first [] last ↔ first = last := Iff.rfl

theorem segment_cons : Segment next first (p :: xs) last ↔
    first = some p ∧ ∃ n, next p = some n ∧ Segment next n xs last := Iff.rfl

theorem segment_append : Segment next first (xs ++ ys) last ↔
    ∃ mid, Segment next first xs mid ∧ Segment next mid ys last := by
  induction xs generalizing first with
  | nil => simp
  | cons p xs ih =>
    simp only [List.cons_append,segment_cons,ih]
    constructor
    · rintro ⟨hf,n,hn,mid,hx,hy⟩
      exact ⟨mid,⟨hf,n,hn,hx⟩,hy⟩
    · rintro ⟨mid,⟨hf,n,hn,hx⟩,hy⟩
      exact ⟨hf,n,hn,mid,hx,hy⟩

theorem segment_congr (h : ∀ p ∈ xs, next' p = next p) (hs : Segment next first xs last) :
    Segment next' first xs last := by
  induction xs generalizing first with
  | nil => exact hs
  | cons p xs ih =>
    obtain ⟨hf,n,hn,hx⟩ := hs
    exact ⟨hf,n,(h p (by simp)).trans hn,ih (fun q hq => h q (by simp [hq])) hx⟩

theorem segment_first (h : Segment next first xs none) : first = xs.head? := by
  cases xs with
  | nil => exact h
  | cons p xs => exact h.1

theorem segment_head_mem (h : Segment next (some p) xs last) (hne : xs ≠ []) : p ∈ xs := by
  cases xs with
  | nil => exact absurd rfl hne
  | cons q xs => simp [Option.some.inj h.1]

theorem segment_relink (hs : Segment next first (xs ++ [p]) last)
    (hkeep : ∀ q ∈ xs, next' q = next q) {mid : Option P} (hmid : next' p = some mid) :
    Segment next' first (xs ++ [p]) mid := by
  obtain ⟨link,hx,hlink,-⟩ := segment_append.mp hs
  exact segment_append.mpr ⟨link,segment_congr hkeep hx,hlink,mid,hmid,rfl⟩

theorem segment_next (h : Segment next first (xs ++ p :: ys) none) : next p = some ys.head? := by
  obtain ⟨_,-,-,link,hlink,hrest⟩ := segment_append.mp h
  rw [hlink,segment_first hrest]

theorem segment_push (hs : Segment next first xs last) (hp : next' p = some first)
    (hkeep : ∀ q ∈ xs, next' q = next q) : Segment next' (some p) (p :: xs) last :=
  ⟨rfl,first,hp,segment_congr hkeep hs⟩

theorem segment_unlink {r : P} (hs : Segment next first (xs ++ r :: p :: ys) none)
    (hr : next' r = next p) (hn : r ∉ xs ++ ys) (hkeep : ∀ q, q ≠ r → next' q = next q) :
    Segment next' first (xs ++ r :: ys) none := by
  obtain ⟨link,hx,rfl,mid,-,-,n,hlink,hy⟩ := segment_append.mp hs
  refine segment_append.mpr ⟨_,segment_congr (fun q hq => hkeep q ?_) hx,rfl,n,hr.trans hlink,
    segment_congr (fun q hq => hkeep q ?_) hy⟩
  · rintro rfl
    exact hn (List.mem_append_left _ hq)
  · rintro rfl
    exact hn (List.mem_append_right _ hq)

-- a loop over xs is at cur, and has passed only elements with the property
def Reached (xs : List P) (passed : P → Prop) (cur : Option P) : Prop :=
  ∃ before rest, xs = before ++ rest ∧ cur = rest.head? ∧ ∀ p ∈ before, passed p

section Reaching
variable {passed : P → Prop}

theorem reached_first (h : Segment next first xs none) : Reached xs passed first :=
  ⟨[],xs,rfl,segment_first h,by simp⟩

theorem Reached.mem (h : Reached xs passed (some p)) : p ∈ xs := by
  obtain ⟨before,rest,rfl,hcur,-⟩ := h
  exact List.mem_append_right _ (List.mem_of_mem_head? hcur.symm)

theorem Reached.all (h : Reached xs passed none) : ∀ p ∈ xs, passed p := by
  obtain ⟨before,rest,rfl,hcur,hall⟩ := h
  rw [List.head?_eq_none_iff.mp hcur.symm,List.append_nil]
  exact hall

theorem Reached.advance (h : Reached xs passed (some p)) (hs : Segment next first xs none)
    (hp : passed p) {link : Option P} (hlink : next p = some link) : Reached xs passed link := by
  obtain ⟨before,rest,rfl,hcur,hall⟩ := h
  obtain ⟨rest,rfl⟩ := List.head?_eq_some_iff.mp hcur.symm
  rw [segment_next hs] at hlink
  refine ⟨before ++ [p],rest,by simp,(Option.some.inj hlink).symm,fun q hq => ?_⟩
  rcases List.mem_append.mp hq with hq | hq
  · exact hall q hq
  · exact List.mem_singleton.mp hq ▸ hp

end Reaching

end LinkedList
