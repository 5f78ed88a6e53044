import Aesd.CharDriver.RingHistory
import Aesd.Library.Rotation

namespace CircularBuffer
open AesdCircularBuffer Rotation

variable {P : Type}

-- where the entries added so far stand in the array
structure Placed (es : List (AesdBufferEntry P)) (b : AesdCircularBuffer P) : Prop where
  inOffs : b.inOffs = es.length % 10
  outOffs : b.outOffs = if es.length < 10 then 0 else es.length % 10
  slots : ∀ i < 10, b.slot i = (latest 10 es i).getD vacant

section Placing
variable {b : AesdCircularBuffer P} {es : List (AesdBufferEntry P)}

theorem content_count (hc : content b = es.rtake 10) : count b = min 10 es.length := by
  rw [← content_length,hc,Recent.length_rtake]

theorem placed_full (h : Wf b) (hf : b.full = true) (hc : content b = es.rtake 10)
    (hin : b.inOffs = es.length % 10) : Placed es b := by
  have hcount := content_count hc
  rw [Wf.count_full hf] at hcount
  have hout := h.full hf
  refine ⟨hin,by rw [if_neg (by omega)]; omega,fun i hi => ?_⟩
  have hk : (i + 10 - es.length % 10) % 10 < count b := by
    rw [Wf.count_full hf]
    omega
  have hslot : (b.outOffs + (i + 10 - es.length % 10) % 10) % 10 = i := by omega
  have hget := window_getElem? b (s := b.outOffs) hk
  rw [hslot] at hget
  rw [latest_rtake (by omega) hi,← hc,content,hget]
  rfl

theorem placed_open (h : Wf b) (hf : b.full = false) (hc : content b = es.rtake 10)
    (hin : b.inOffs = es.length % 10) : Placed es b := by
  have hcount := content_count hc
  have hlt := h.in_lt
  rw [h.count_open hf] at hcount
  have hout := h.unwrapped hf
  have hall : es.rtake 10 = es := Recent.rtake_of_le (by omega)
  refine ⟨hin,by rw [if_pos (by omega)]; exact hout,fun i hi => ?_⟩
  rw [latest_short (by omega) hi]
  by_cases hheld : i < es.length
  · have hget := window_getElem? b (s := b.outOffs) (n := count b) (k := i)
      (by rw [h.count_open hf]; omega)
    have hslot : (b.outOffs + i) % 10 = i := by omega
    rw [hslot] at hget
    rw [hall] at hc
    rw [← hc,content,hget]
    rfl
  · rw [List.getElem?_eq_none (by omega),h.unused hf i (by omega)]
    rfl

theorem placed_of_content (h : Wf b) (hc : content b = es.rtake 10)
    (hin : b.inOffs = es.length % 10) : Placed es b := by
  cases hf : b.full with
  | true => exact placed_full h hf hc hin
  | false => exact placed_open h hf hc hin

theorem add_entry_in (b : AesdCircularBuffer P) (e : AesdBufferEntry P) :
    (aesdCircularBufferAddEntry b e).2.inOffs = (b.inOffs + 1) % 10 := by
  unfold aesdCircularBufferAddEntry
  cases b.full <;> simp only [if_true,Bool.false_eq_true,if_false] <;> split_ifs <;> rfl

theorem add_entries_in (h : b.inOffs < 10) (es : List (AesdBufferEntry P)) :
    (addEntries b es).2.inOffs = (b.inOffs + es.length) % 10 := by
  induction es generalizing b with
  | nil => exact (Nat.mod_eq_of_lt h).symm
  | cons e es ih =>
    have hone := add_entry_in b e
    rw [addEntries,ih (by omega),hone,List.length_cons]
    omega

end Placing

-- after any number of additions slot i holds the last of the entries numbered i, i + 10, i + 20, ...
theorem ring_placed (es : List (AesdBufferEntry P)) :
    Placed es (addEntries aesdCircularBufferInit es).2 := by
  obtain ⟨hw,hc⟩ := add_entries_content (b := aesdCircularBufferInit) wf_init es
  rw [content_init,List.nil_append] at hc
  refine placed_of_content hw hc ?_
  rw [add_entries_in wf_init.in_lt]
  exact congrArg (· % 10) (Nat.zero_add _)

end CircularBuffer
