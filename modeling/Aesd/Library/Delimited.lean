import Mathlib.Data.List.Basic
import Mathlib.Data.List.Induction

namespace Delimited

variable {A : Type} [DecidableEq A] (d : A)

def feed : List (List A) × List A → A → List (List A) × List A
  | (ps,r), a => if a = d then (ps ++ [r ++ [a]],[]) else (ps,r ++ [a])

def pieces (s : List A) : List (List A) := (s.foldl (feed d) ([],[])).1

def residue (s : List A) : List A := (s.foldl (feed d) ([],[])).2

@[simp] theorem pieces_nil : pieces d [] = [] := rfl
@[simp] theorem residue_nil : residue d [] = [] := rfl

theorem pieces_snoc (s : List A) (a : A) :
    pieces d (s ++ [a]) = if a = d then pieces d s ++ [residue d s ++ [a]] else pieces d s := by
  simp only [pieces,residue,List.foldl_append,List.foldl_cons,List.foldl_nil,feed]
  split_ifs <;> rfl

theorem residue_snoc (s : List A) (a : A) :
    residue d (s ++ [a]) = if a = d then [] else residue d s ++ [a] := by
  simp only [residue,List.foldl_append,List.foldl_cons,List.foldl_nil,feed]
  split_ifs <;> rfl

@[simp] theorem pieces_snoc_self (s : List A) :
    pieces d (s ++ [d]) = pieces d s ++ [residue d s ++ [d]] := by simp [pieces_snoc]

@[simp] theorem residue_snoc_self (s : List A) : residue d (s ++ [d]) = [] := by
  simp [residue_snoc]

variable {d}

theorem pieces_of_not_mem {s : List A} (h : d ∉ s) : pieces d s = [] := by
  induction s using List.reverseRecOn with
  | nil => rfl
  | append_singleton s a ih =>
    simp only [List.mem_append,List.mem_singleton,not_or] at h
    rw [pieces_snoc,if_neg (Ne.symm h.2),ih h.1]

theorem residue_of_not_mem {s : List A} (h : d ∉ s) : residue d s = s := by
  induction s using List.reverseRecOn with
  | nil => rfl
  | append_singleton s a ih =>
    simp only [List.mem_append,List.mem_singleton,not_or] at h
    rw [residue_snoc,if_neg (Ne.symm h.2),ih h.1]

theorem not_mem_residue (s : List A) : d ∉ residue d s := by
  induction s using List.reverseRecOn with
  | nil => simp
  | append_singleton s a ih =>
    rw [residue_snoc]
    split_ifs with ha
    · simp
    · simp [ih,Ne.symm ha]

variable (d)

theorem split_append (s t : List A) :
    pieces d (s ++ t) = pieces d s ++ pieces d (residue d s ++ t) ∧
      residue d (s ++ t) = residue d (residue d s ++ t) := by
  induction t using List.reverseRecOn with
  | nil =>
    simp [pieces_of_not_mem (not_mem_residue s),residue_of_not_mem (not_mem_residue s)]
  | append_singleton t a ih =>
    simp only [← List.append_assoc,pieces_snoc,residue_snoc,ih.1,ih.2]
    split_ifs <;> simp

theorem pieces_append (s t : List A) :
    pieces d (s ++ t) = pieces d s ++ pieces d (residue d s ++ t) := (split_append d s t).1

theorem residue_append (s t : List A) :
    residue d (s ++ t) = residue d (residue d s ++ t) := (split_append d s t).2

theorem pieces_line {s : List A} (h : d ∉ s) (t : List A) :
    pieces d (s ++ d :: t) = (s ++ [d]) :: pieces d t := by
  rw [List.append_cons,pieces_append,pieces_snoc_self,residue_snoc_self,pieces_of_not_mem h,
    residue_of_not_mem h]
  rfl

theorem residue_line (s t : List A) : residue d (s ++ d :: t) = residue d t := by
  rw [List.append_cons,residue_append,residue_snoc_self,List.nil_append]

theorem pieces_length (s : List A) : (pieces d s).length = s.count d := by
  induction s using List.reverseRecOn with
  | nil => rfl
  | append_singleton s a ih =>
    rw [pieces_snoc,List.count_append,List.count_singleton]
    split_ifs with ha <;> simp_all

theorem pieces_flatten (s : List A) : (pieces d s).flatten ++ residue d s = s := by
  induction s using List.reverseRecOn with
  | nil => rfl
  | append_singleton s a ih =>
    rw [pieces_snoc,residue_snoc]
    split_ifs
    · simp [← List.append_assoc,ih]
    · rw [← List.append_assoc,ih]

theorem residue_suffix (s : List A) : residue d s <:+ s := ⟨_,pieces_flatten d s⟩

theorem pieces_mono {s t : List A} (h : s <+: t) : pieces d s <+: pieces d t := by
  obtain ⟨u,rfl⟩ := h
  rw [pieces_append]
  exact List.prefix_append _ _

variable {d}

theorem mem_pieces {s p : List A} (h : p ∈ pieces d s) : ∃ b, d ∉ b ∧ p = b ++ [d] := by
  induction s using List.reverseRecOn with
  | nil => simp at h
  | append_singleton s a ih =>
    rw [pieces_snoc] at h
    split_ifs at h with ha
    · rcases List.mem_append.mp h with h | h
      · exact ih h
      · rw [List.mem_singleton] at h
        exact ⟨residue d s,not_mem_residue s,by rw [h,ha]⟩
    · exact ih h

theorem residue_within {q s : List A} (h : q <+: s) :
    (∃ p ∈ pieces d s, (residue d q).length < p.length) ∨
      (residue d q).length ≤ (residue d s).length := by
  obtain ⟨t,rfl⟩ := h
  rw [pieces_append,residue_append]
  by_cases ht : d ∈ t
  · left
    obtain ⟨t₁,t₂,rfl,ht₁⟩ := List.eq_append_cons_of_mem ht
    have hline : d ∉ residue d q ++ t₁ := by simp [not_mem_residue,ht₁]
    rw [← List.append_assoc,pieces_line d hline]
    refine ⟨residue d q ++ t₁ ++ [d],by simp,?_⟩
    simp only [List.length_append,List.length_singleton]
    omega
  · right
    have hline : d ∉ residue d q ++ t := by simp [not_mem_residue,ht]
    rw [residue_of_not_mem hline,List.length_append]
    omega

theorem split_lines {ps : List (List A)} (h : ∀ p ∈ ps, d ∉ p) :
    pieces d (ps.map (· ++ [d])).flatten = ps.map (· ++ [d]) ∧
      residue d (ps.map (· ++ [d])).flatten = [] := by
  induction ps using List.reverseRecOn with
  | nil => exact ⟨rfl,rfl⟩
  | append_singleton ps p ih =>
    obtain ⟨hp,hr⟩ := ih fun q hq => h q (by simp [hq])
    have hd : d ∉ p := h p (by simp)
    simp only [List.map_append,List.map_singleton,List.flatten_append,List.flatten_singleton,
      pieces_append d _ (p ++ [d]),residue_append d _ (p ++ [d]),hp,hr,List.nil_append,
      pieces_snoc_self,residue_snoc_self,pieces_of_not_mem hd,residue_of_not_mem hd,and_self]

theorem pieces_lines {ps : List (List A)} (h : ∀ p ∈ ps, d ∉ p) :
    pieces d (ps.map (· ++ [d])).flatten = ps.map (· ++ [d]) := (split_lines h).1

theorem residue_lines {ps : List (List A)} (h : ∀ p ∈ ps, d ∉ p) :
    residue d (ps.map (· ++ [d])).flatten = [] := (split_lines h).2

theorem line_completed {ps : List (List A)} (h : ∀ p ∈ ps, d ∉ p) {s : List A}
    (hs : s ++ [d] <+: (ps.map (· ++ [d])).flatten) :
    pieces d s = (ps.take (s.count d)).map (· ++ [d]) ∧ ps[s.count d]? = some (residue d s) := by
  have hpre := pieces_mono d hs
  rw [pieces_lines h,pieces_snoc_self] at hpre
  have hlen := pieces_length d s
  obtain ⟨t,ht⟩ := hpre
  have htake : ((ps.map (· ++ [d])).take (s.count d)) = pieces d s := by
    rw [← ht,← hlen]
    simp
  have hget : (ps.map (· ++ [d]))[s.count d]? = some (residue d s ++ [d]) := by
    rw [← ht,← hlen]
    simp
  refine ⟨by rw [← htake,List.map_take],?_⟩
  rw [List.getElem?_map,Option.map_eq_some_iff] at hget
  obtain ⟨p,hp,he⟩ := hget
  rw [hp,List.append_cancel_right he]

end Delimited
