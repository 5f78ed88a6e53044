import Aesd.CharDriver.CircularBuffer

namespace CircularBuffer
open AesdCircularBuffer

variable {P : Type}

def addEntries (b : AesdCircularBuffer P) : List (AesdBufferEntry P) → List (Option P) × AesdCircularBuffer P
  | [] => ([],b)
  | e :: es =>
      let added := aesdCircularBufferAddEntry b e
      let rest := addEntries added.2 es
      (added.1 :: rest.1,rest.2)

theorem add_entries_content {b : AesdCircularBuffer P} (h : Wf b) (es : List (AesdBufferEntry P)) :
    Wf (addEntries b es).2 ∧ content (addEntries b es).2 = (content b ++ es).rtake 10 := by
  induction es generalizing b with
  | nil =>
    refine ⟨h,?_⟩
    rw [addEntries,List.append_nil,Recent.rtake_of_le]
    rw [content_length]
    exact h.count_le
  | cons e es ih =>
    have ha := add_entry h e
    obtain ⟨hw,hc⟩ := ih ha.wf
    refine ⟨hw,?_⟩
    rw [addEntries,hc,ha.content,Recent.rtake_rtake_append,List.append_assoc]
    rfl

namespace Added
variable {b b' : AesdCircularBuffer P} {e : AesdBufferEntry P} {old : Option P}

theorem content_open (ha : Added b e old b') (h : Wf b) (hf : b.full = false) :
    old = none ∧ CircularBuffer.content b' = CircularBuffer.content b ++ [e] := by
  refine ⟨by simpa [hf] using ha.returned,?_⟩
  rw [ha.content,Recent.rtake_snoc_lt]
  rw [content_length,h.count_open hf]
  exact h.in_lt

theorem content_full (ha : Added b e old b') (hf : b.full = true) :
    ∃ x xs, CircularBuffer.content b = x :: xs ∧ old = x.buffptr ∧
      CircularBuffer.content b' = xs ++ [e] := by
  have hlen : (CircularBuffer.content b).length = 10 := by rw [content_length,Wf.count_full hf]
  obtain ⟨x,xs,hx⟩ := List.exists_cons_of_length_pos (by omega : 0 < (CircularBuffer.content b).length)
  refine ⟨x,xs,hx,by simpa [hf,hx] using ha.returned,?_⟩
  rw [ha.content,hx,Recent.rtake_snoc_full (by rw [← hx,hlen])]

theorem conserved (ha : Added b e old b') (h : Wf b)
    (hb : ∀ x ∈ CircularBuffer.content b, x.buffptr ≠ none) :
    [old].filter Option.isSome ++ (CircularBuffer.content b').map (·.buffptr) =
      (CircularBuffer.content b ++ [e]).map (·.buffptr) := by
  cases hf : b.full with
  | false =>
    obtain ⟨rfl,hc⟩ := ha.content_open h hf
    simp [hc]
  | true =>
    obtain ⟨x,xs,hx,rfl,hc⟩ := ha.content_full hf
    have hs : x.buffptr.isSome := Option.isSome_iff_ne_none.mpr (hb x (by simp [hx]))
    simp [hx,hc,hs]

end Added

theorem content_ptrs {b b' : AesdCircularBuffer P} {e : AesdBufferEntry P} {old : Option P}
    (ha : Added b e old b') (he : e.buffptr ≠ none)
    (hb : ∀ x ∈ content b, x.buffptr ≠ none) : ∀ x ∈ content b', x.buffptr ≠ none := by
  intro x hx
  rw [ha.content] at hx
  rcases List.mem_append.mp (List.mem_of_mem_drop hx) with hx | hx
  · exact hb x hx
  · rw [List.mem_singleton] at hx
    exact hx ▸ he

theorem add_entries_conserved {b : AesdCircularBuffer P} (h : Wf b)
    (hb : ∀ x ∈ content b, x.buffptr ≠ none) {es : List (AesdBufferEntry P)}
    (he : ∀ e ∈ es, e.buffptr ≠ none) :
    (addEntries b es).1.filter Option.isSome ++ (content (addEntries b es).2).map (·.buffptr) =
      (content b ++ es).map (·.buffptr) := by
  induction es generalizing b with
  | nil => simp [addEntries]
  | cons e es ih =>
    have ha := add_entry h e
    have hrest := ih ha.wf (content_ptrs ha (he e (by simp)) hb) fun x hx => he x (by simp [hx])
    have hone := ha.conserved h hb
    rw [List.map_append] at hrest
    calc
      _ = [(aesdCircularBufferAddEntry b e).1].filter Option.isSome ++
            ((addEntries (aesdCircularBufferAddEntry b e).2 es).1.filter Option.isSome ++
              (content (addEntries (aesdCircularBufferAddEntry b e).2 es).2).map (·.buffptr)) := by
        rw [← List.append_assoc,← List.filter_append]
        rfl
      _ = (content b ++ e :: es).map (·.buffptr) := by
        rw [hrest,← List.append_assoc,hone]
        simp

structure LastTen (es : List (AesdBufferEntry P)) (r : List (Option P) × AesdCircularBuffer P) :
    Prop where
  in_lt : r.2.inOffs < 10
  out_lt : r.2.outOffs < 10
  full : r.2.full = true ↔ 10 ≤ es.length
  held : content r.2 = es.rtake (min es.length 10)
  idle : ∀ i < 10, (∀ k < (content r.2).length, (r.2.outOffs + k) % 10 ≠ i) → (r.2.slot i).size = 0
  conserved : r.1.filter Option.isSome ++ (content r.2).map (·.buffptr) = es.map (·.buffptr)

theorem ring_holds_last_ten (es : List (AesdBufferEntry P)) (he : ∀ e ∈ es, e.buffptr ≠ none) :
    LastTen es (addEntries aesdCircularBufferInit es) := by
  obtain ⟨hw,hc⟩ := add_entries_content (b := aesdCircularBufferInit) wf_init es
  rw [content_init,List.nil_append] at hc
  have hlen : count (addEntries aesdCircularBufferInit es).2 = min 10 es.length := by
    rw [← content_length,hc,Recent.length_rtake]
  refine ⟨hw.in_lt,hw.out_lt,?_,?_,?_,?_⟩
  · rw [hw.full_iff,hlen]
    omega
  · rw [hc]
    rcases Nat.le_total 10 es.length with h | h
    · rw [Nat.min_eq_right h]
    · rw [Nat.min_eq_left h,Recent.rtake_of_le h,Recent.rtake_of_le (Nat.le_refl _)]
  · intro i hi hk
    rw [content_length] at hk
    rw [hw.vacant_of_not_mem hk hi]
    rfl
  · simpa using add_entries_conserved wf_init (by simp) he

theorem ring_holds_last_ten_of_twelve :
    LastTen ((List.range 12).map fun i => (⟨some i,i⟩ : AesdBufferEntry ℕ))
      (addEntries aesdCircularBufferInit ((List.range 12).map fun i => ⟨some i,i⟩)) :=
  ring_holds_last_ten _ (by decide)

end CircularBuffer
