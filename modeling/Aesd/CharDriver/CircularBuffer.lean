import Aesd.Library.Recent
import Aesd.Library.Concat
import Mathlib.Tactic.Ring

namespace CircularBuffer

def maxWriteOperationsSupported : ℕ := 10

structure AesdBufferEntry (P : Type) where
  buffptr : Option P
  size : ℕ
  deriving DecidableEq, Repr

structure AesdCircularBuffer (P : Type) where
  entry : Vector (AesdBufferEntry P) maxWriteOperationsSupported
  inOffs : ℕ
  outOffs : ℕ
  full : Bool

variable {P : Type}

def vacant : AesdBufferEntry P := ⟨none,0⟩

namespace AesdCircularBuffer

def slot (b : AesdCircularBuffer P) (i : ℕ) : AesdBufferEntry P := b.entry[i]?.getD vacant

def setSlot (b : AesdCircularBuffer P) (i : ℕ) (e : AesdBufferEntry P) : AesdCircularBuffer P :=
  { b with entry := b.entry.setIfInBounds i e }

@[simp] theorem setSlot_inOffs (b : AesdCircularBuffer P) (i : ℕ) (e : AesdBufferEntry P) :
    (b.setSlot i e).inOffs = b.inOffs := rfl
@[simp] theorem setSlot_outOffs (b : AesdCircularBuffer P) (i : ℕ) (e : AesdBufferEntry P) :
    (b.setSlot i e).outOffs = b.outOffs := rfl
@[simp] theorem setSlot_full (b : AesdCircularBuffer P) (i : ℕ) (e : AesdBufferEntry P) :
    (b.setSlot i e).full = b.full := rfl

theorem slot_setSlot (b : AesdCircularBuffer P) {i : ℕ} (hi : i < 10) (e : AesdBufferEntry P)
    (j : ℕ) : (b.setSlot i e).slot j = if i = j then e else b.slot j := by
  have hn : i < maxWriteOperationsSupported := hi
  simp only [slot,setSlot,Vector.getElem?_setIfInBounds,hn]
  split_ifs with hj <;> simp

theorem slot_of_ge (b : AesdCircularBuffer P) {i : ℕ} (hi : 10 ≤ i) : b.slot i = vacant := by
  have hn : ¬ i < maxWriteOperationsSupported := by simpa [maxWriteOperationsSupported] using hi
  simp [slot,hn]

end AesdCircularBuffer

open AesdCircularBuffer

def aesdCircularBufferInit : AesdCircularBuffer P :=
  ⟨Vector.replicate maxWriteOperationsSupported vacant,0,0,false⟩

def aesdCircularBufferAddEntry (buffer : AesdCircularBuffer P) (addEntry : AesdBufferEntry P) :
    Option P × AesdCircularBuffer P :=
  let (oldEntry,buffer) : Option P × AesdCircularBuffer P :=
    if buffer.full then
      let buffer := { buffer with outOffs := (buffer.outOffs + 1) % maxWriteOperationsSupported }
      ((buffer.slot buffer.inOffs).buffptr,buffer.setSlot buffer.inOffs addEntry)
    else (none,buffer.setSlot buffer.inOffs addEntry)
  let buffer := { buffer with inOffs := (buffer.inOffs + 1) % maxWriteOperationsSupported }
  if !buffer.full && buffer.inOffs == buffer.outOffs then (oldEntry,{ buffer with full := true })
  else (oldEntry,buffer)

-- the first argument counts the iterations still allowed before a wrap-around
def findEntryLoop (buffer : AesdCircularBuffer P) : ℕ → ℕ → ℕ → Option (ℕ × ℕ)
  | 0, _, _ => none
  | n+1, index, temp =>
      if temp < (buffer.slot index).size then some (index,temp)
      else findEntryLoop buffer n ((index + 1) % maxWriteOperationsSupported)
        (temp - (buffer.slot index).size)

def aesdCircularBufferFindEntryOffsetForFpos (buffer : AesdCircularBuffer P) (charOffset : ℕ) :
    Option (ℕ × ℕ) :=
  findEntryLoop buffer maxWriteOperationsSupported buffer.outOffs charOffset

def count (b : AesdCircularBuffer P) : ℕ := if b.full then 10 else (b.inOffs + 10 - b.outOffs) % 10

def window (b : AesdCircularBuffer P) (start n : ℕ) : List (AesdBufferEntry P) :=
  (List.range n).map fun k => b.slot ((start + k) % 10)

def content (b : AesdCircularBuffer P) : List (AesdBufferEntry P) := window b b.outOffs (count b)

structure Wf (b : AesdCircularBuffer P) : Prop where
  in_lt : b.inOffs < 10
  out_lt : b.outOffs < 10
  full : b.full = true → b.inOffs = b.outOffs
  unwrapped : b.full = false → b.outOffs = 0
  unused : b.full = false → ∀ i, b.inOffs ≤ i → b.slot i = vacant

theorem window_length (b : AesdCircularBuffer P) (s n : ℕ) : (window b s n).length = n := by
  simp [window]

theorem window_getElem? (b : AesdCircularBuffer P) {s n k : ℕ} (hk : k < n) :
    (window b s n)[k]? = some (b.slot ((s + k) % 10)) := by
  simp [window,hk]

theorem window_succ (b : AesdCircularBuffer P) (s n : ℕ) :
    window b s (n+1) = window b s n ++ [b.slot ((s + n) % 10)] := by
  simp [window,List.range_succ]

theorem window_cons (b : AesdCircularBuffer P) {s : ℕ} (hs : s < 10) (n : ℕ) :
    window b s (n+1) = b.slot s :: window b ((s + 1) % 10) n := by
  simp only [window,List.range_succ_eq_map,List.map_cons,List.map_map,Nat.add_zero,
    Nat.mod_eq_of_lt hs,List.cons.injEq,true_and]
  apply List.map_congr_left
  intro k _
  have hk : ((s + 1) % 10 + k) % 10 = (s + (k + 1)) % 10 := by omega
  simp only [Function.comp_apply,Nat.succ_eq_add_one,hk]

theorem window_congr {b c : AesdCircularBuffer P} {s n : ℕ}
    (h : ∀ k < n, b.slot ((s + k) % 10) = c.slot ((s + k) % 10)) : window b s n = window c s n := by
  apply List.map_congr_left
  intro k hk
  exact h k (List.mem_range.mp hk)

namespace Wf
variable {b : AesdCircularBuffer P}

theorem count_full (hf : b.full = true) : count b = 10 := by simp [count,hf]

theorem count_open (h : Wf b) (hf : b.full = false) : count b = b.inOffs := by
  have := h.in_lt
  simp [count,hf,h.unwrapped hf]
  omega

theorem count_le (h : Wf b) : count b ≤ 10 := by
  cases hf : b.full with
  | true => rw [count_full hf]
  | false => rw [h.count_open hf]; exact Nat.le_of_lt h.in_lt

theorem full_iff (h : Wf b) : b.full = true ↔ count b = 10 := by
  constructor
  · exact count_full
  · intro hc
    by_contra hn
    have hf : b.full = false := by simpa using hn
    have := h.in_lt
    rw [h.count_open hf] at hc
    omega

theorem vacant_of_not_mem (h : Wf b) {i : ℕ}
    (hi : ∀ k < count b, (b.outOffs + k) % 10 ≠ i) (hlt : i < 10) : b.slot i = vacant := by
  have hout := h.out_lt
  cases hf : b.full with
  | true =>
    rw [count_full hf] at hi
    refine absurd ?_ (hi ((i + 10 - b.outOffs) % 10) (by omega))
    omega
  | false =>
    apply h.unused hf
    by_contra hn
    rw [h.count_open hf,h.unwrapped hf] at hi
    refine hi i (by omega) (by omega)

end Wf

theorem content_length (b : AesdCircularBuffer P) : (content b).length = count b :=
  window_length _ _ _

theorem slot_held {b : AesdCircularBuffer P} (h : Wf b) (i : ℕ) :
    b.slot i ∈ content b ∨ b.slot i = vacant := by
  by_cases hi : i < 10
  · by_cases hk : ∃ k < count b, (b.outOffs + k) % 10 = i
    · obtain ⟨k,hk,rfl⟩ := hk
      exact Or.inl (List.mem_of_getElem? (window_getElem? b hk))
    · push Not at hk
      exact Or.inr (h.vacant_of_not_mem hk hi)
  · exact Or.inr (slot_of_ge b (by omega))

theorem wf_init : Wf (aesdCircularBufferInit : AesdCircularBuffer P) where
  in_lt := by simp [aesdCircularBufferInit]
  out_lt := by simp [aesdCircularBufferInit]
  full := by simp [aesdCircularBufferInit]
  unwrapped := by simp [aesdCircularBufferInit]
  unused := by
    intro _ i _
    by_cases hi : i < maxWriteOperationsSupported <;> simp [slot,aesdCircularBufferInit,hi]

@[simp] theorem content_init : content (aesdCircularBufferInit : AesdCircularBuffer P) = [] := by
  simp [content,count,window,aesdCircularBufferInit]

structure Added (b : AesdCircularBuffer P) (e : AesdBufferEntry P) (old : Option P)
    (b' : AesdCircularBuffer P) : Prop where
  wf : Wf b'
  content : content b' = (content b ++ [e]).rtake 10
  returned : old = if b.full then (CircularBuffer.content b).head?.bind (·.buffptr) else none

theorem add_entry_open {b : AesdCircularBuffer P} (h : Wf b) (hf : b.full = false)
    (e : AesdBufferEntry P) :
    Added b e (aesdCircularBufferAddEntry b e).1 (aesdCircularBufferAddEntry b e).2 := by
  have hin := h.in_lt
  have hout := h.unwrapped hf
  have hcount := h.count_open hf
  have hslots : window (b.setSlot b.inOffs e) 0 (b.inOffs + 1) = content b ++ [e] := by
    rw [window_succ,content,hcount,hout,slot_setSlot b hin,if_pos (by omega)]
    congr 1
    apply window_congr
    intro k hk
    rw [slot_setSlot b hin,if_neg (by omega)]
  have hlast : (content b ++ [e]).rtake 10 = content b ++ [e] :=
    Recent.rtake_snoc_lt (by rw [content_length,hcount]; exact hin) e
  by_cases hw : b.inOffs + 1 = 10
  · have hadd : aesdCircularBufferAddEntry b e =
        (none,{ b.setSlot b.inOffs e with inOffs := 0, full := true }) := by
      simp [aesdCircularBufferAddEntry,hf,hout,maxWriteOperationsSupported,hw]
    rw [hadd]
    refine ⟨⟨by simp,by simp [hout],by simp [hout],by simp,by simp⟩,?_,by simp [hf]⟩
    rw [hlast,← hslots,hw]
    simp [content,count,window,slot,hout]
  · have hmod : (b.inOffs + 1) % 10 = b.inOffs + 1 := Nat.mod_eq_of_lt (by omega)
    have hadd : aesdCircularBufferAddEntry b e =
        (none,{ b.setSlot b.inOffs e with inOffs := b.inOffs + 1 }) := by
      simp [aesdCircularBufferAddEntry,hf,hout,maxWriteOperationsSupported,hmod]
    rw [hadd]
    refine ⟨⟨by simp; omega,by simp [hout],by simp [hf],by simp [hout],?_⟩,?_,by simp [hf]⟩
    · intro _ i hi
      have hi' : b.inOffs + 1 ≤ i := hi
      change (b.setSlot b.inOffs e).slot i = vacant
      rw [slot_setSlot b hin,if_neg (by omega)]
      exact h.unused hf i (by omega)
    · rw [hlast,← hslots]
      have hc : (b.inOffs + 1 + 10) % 10 = b.inOffs + 1 := by omega
      simp [content,count,window,slot,hout,hf,hc]

theorem add_entry_full {b : AesdCircularBuffer P} (h : Wf b) (hf : b.full = true)
    (e : AesdBufferEntry P) :
    Added b e (aesdCircularBufferAddEntry b e).1 (aesdCircularBufferAddEntry b e).2 := by
  have hin := h.in_lt
  have hio := h.full hf
  have hadd : aesdCircularBufferAddEntry b e = ((b.slot b.inOffs).buffptr,
      { b.setSlot b.inOffs e with inOffs := (b.inOffs + 1) % 10, outOffs := (b.inOffs + 1) % 10 }) := by
    simp [aesdCircularBufferAddEntry,hf,hio,maxWriteOperationsSupported,setSlot,slot]
  have hold : content b = b.slot b.inOffs :: window b ((b.inOffs + 1) % 10) 9 := by
    rw [content,Wf.count_full hf,← hio,window_cons b hin]
  rw [hadd]
  refine ⟨⟨by simp; omega,by simp; omega,by simp,by simp [hf],by simp [hf]⟩,?_,by simp [hf,hold]⟩
  rw [hold,Recent.rtake_snoc_full (by simp [window_length])]
  have hnew : window (b.setSlot b.inOffs e) ((b.inOffs + 1) % 10) 10 =
      window b ((b.inOffs + 1) % 10) 9 ++ [e] := by
    rw [window_succ,slot_setSlot b hin,if_pos (by omega)]
    congr 1
    apply window_congr
    intro k hk
    rw [slot_setSlot b hin,if_neg (by omega)]
  rw [← hnew]
  simp [content,count,window,slot,hf]

theorem add_entry {b : AesdCircularBuffer P} (h : Wf b) (e : AesdBufferEntry P) :
    Added b e (aesdCircularBufferAddEntry b e).1 (aesdCircularBufferAddEntry b e).2 := by
  cases hf : b.full with
  | false => exact add_entry_open h hf e
  | true => exact add_entry_full h hf e

theorem find_loop_locate (b : AesdCircularBuffer P) (n : ℕ) {i : ℕ} (hi : i < 10) (temp : ℕ) :
    findEntryLoop b n i temp =
      (Concat.locate ((window b i n).map (·.size)) temp).map fun x => ((i + x.1) % 10,x.2) := by
  induction n generalizing i temp with
  | zero => simp [findEntryLoop,window,Concat.locate]
  | succ n ih =>
    rw [window_cons b hi,List.map_cons]
    simp only [findEntryLoop,Concat.locate,maxWriteOperationsSupported]
    split_ifs with ht
    · simp [Nat.mod_eq_of_lt hi]
    · rw [ih (by omega),Option.map_map]
      congr 1
      funext x
      simp only [Function.comp_apply,Prod.mk.injEq,and_true]
      omega

theorem slots_from_out {b : AesdCircularBuffer P} (h : Wf b) :
    window b b.outOffs 10 = content b ++ List.replicate (10 - count b) vacant := by
  have hle := h.count_le
  apply List.ext_getElem?
  intro k
  by_cases hk : k < count b
  · rw [window_getElem? b (by omega),List.getElem?_append_left (by simpa [content_length] using hk),
      content,window_getElem? b hk]
  · rw [List.getElem?_append_right (by simpa [content_length] using hk),content_length,
      List.getElem?_replicate]
    split_ifs with hr
    · rw [window_getElem? b (by omega)]
      have hf : b.full = false := by
        by_contra hn
        rw [Wf.count_full (by simpa using hn)] at hr
        omega
      have hc := h.count_open hf
      rw [h.unwrapped hf,h.unused hf _ (by omega)]
    · exact List.getElem?_eq_none (by rw [window_length]; omega)

theorem slots_perm_content {b : AesdCircularBuffer P} (h : Wf b) :
    ((List.range 10).map b.slot).Perm (content b ++ List.replicate (10 - count b) vacant) := by
  have hrot : ∀ s < 10, ((List.range 10).map fun k => (s + k) % 10).Perm (List.range 10) := by
    decide
  rw [← slots_from_out h]
  have := ((hrot b.outOffs h.out_lt).map b.slot).symm
  rwa [List.map_map] at this

theorem find_entry_locate {b : AesdCircularBuffer P} (h : Wf b) (charOffset : ℕ) :
    aesdCircularBufferFindEntryOffsetForFpos b charOffset =
      (Concat.locate ((content b).map (·.size)) charOffset).map
        fun x => ((b.outOffs + x.1) % 10,x.2) := by
  rw [aesdCircularBufferFindEntryOffsetForFpos,maxWriteOperationsSupported,
    find_loop_locate b 10 h.out_lt,slots_from_out h]
  simp [vacant,Concat.locate_append_zeros]

end CircularBuffer
