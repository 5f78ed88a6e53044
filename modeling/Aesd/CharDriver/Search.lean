import Aesd.CharDriver.RingHistory
import Mathlib.Algebra.Ring.Int.Defs

namespace CircularBuffer
open AesdCircularBuffer

variable {P : Type}

-- as findEntryLoop, with *entry_offset_byte_rtn passed along and returned beside the entry's index
def findEntryLoopInto (buffer : AesdCircularBuffer P) : ℕ → ℕ → ℕ → ℕ → Option ℕ × ℕ
  | 0, _, _, entryOffsetByteRtn => (none,entryOffsetByteRtn)
  | n+1, index, temp, entryOffsetByteRtn =>
      if temp < (buffer.slot index).size then (some index,temp)
      else findEntryLoopInto buffer n ((index + 1) % maxWriteOperationsSupported)
        (temp - (buffer.slot index).size) entryOffsetByteRtn

def findEntryInto (buffer : AesdCircularBuffer P) (charOffset entryOffsetByteRtn : ℕ) :
    Option ℕ × ℕ :=
  findEntryLoopInto buffer maxWriteOperationsSupported buffer.outOffs charOffset entryOffsetByteRtn

def toSsize (n : ℤ) : ℤ := n.bmod (2^64)

-- the parameter cb of aesd_size is never read: the loop goes over aesd_device.circular_buffer
def aesdSize (circularBuffer : AesdCircularBuffer P) : ℤ :=
  (List.range maxWriteOperationsSupported).foldl
    (fun bytes index => toSsize (bytes + (circularBuffer.slot index).size)) 0

def totalSize (b : AesdCircularBuffer P) : ℕ := ((content b).map (·.size)).sum

structure EntryAt (b : AesdCircularBuffer P) (charOffset j : ℕ) (e : AesdBufferEntry P) (k : ℕ) :
    Prop where
  held : (content b)[j]? = some e
  inside : k < e.size
  older : (((content b).take j).map (·.size)).sum = charOffset - k
  reached : k ≤ charOffset
  byte : ∀ {A : Type} (blocks : List (List A)), blocks.map List.length = (content b).map (·.size) →
    ∃ block, blocks[j]? = some block ∧ block[k]?.isSome ∧ blocks.flatten[charOffset]? = block[k]?

structure FindExact (b : AesdCircularBuffer P) (charOffset rtn : ℕ) (found : Option ℕ × ℕ) :
    Prop where
  missing : found.1 = none ↔ totalSize b ≤ charOffset
  untouched : found.1 = none → found.2 = rtn
  located : ∀ index, found.1 = some index → ∃ j, EntryAt b charOffset j (b.slot index) found.2

theorem find_loop_into (b : AesdCircularBuffer P) (n index temp rtn : ℕ) :
    findEntryLoopInto b n index temp rtn =
      (findEntryLoop b n index temp).elim (none,rtn) fun x => (some x.1,x.2) := by
  induction n generalizing index temp with
  | zero => rfl
  | succ n ih =>
    simp only [findEntryLoopInto,findEntryLoop]
    split_ifs
    · rfl
    · exact ih _ _

theorem entry_at {b : AesdCircularBuffer P} {charOffset j k : ℕ}
    (h : Concat.locate ((content b).map (·.size)) charOffset = some (j,k)) :
    EntryAt b charOffset j (b.slot ((b.outOffs + j) % 10)) k := by
  obtain ⟨hsum,n,hn,hk⟩ := Concat.locate_some h
  rw [List.getElem?_map,Option.map_eq_some_iff] at hn
  obtain ⟨e,he,rfl⟩ := hn
  have hj : j < count b := by
    rw [← content_length]
    exact (List.getElem?_eq_some_iff.mp he).1
  have hslot : b.slot ((b.outOffs + j) % 10) = e := by
    rw [content,window_getElem? b hj] at he
    exact Option.some.inj he
  rw [hslot]
  rw [← List.map_take] at hsum
  refine ⟨he,hk,by omega,by omega,?_⟩
  intro A blocks hblocks
  rw [← hblocks] at h
  obtain ⟨block,hblock,hlt,hdrop⟩ := Concat.drop_flatten h
  have hbyte : blocks.flatten[charOffset]? = (blocks.flatten.drop charOffset)[0]? := by
    rw [List.getElem?_drop,Nat.add_zero]
  refine ⟨block,hblock,by simp [hlt],?_⟩
  rw [hbyte,hdrop,List.getElem?_append_left (by rw [List.length_drop]; omega),List.getElem?_drop,
    Nat.add_zero]

theorem find_exact {b : AesdCircularBuffer P} (h : Wf b) (charOffset rtn : ℕ) :
    FindExact b charOffset rtn (findEntryInto b charOffset rtn) := by
  have hfind : findEntryInto b charOffset rtn =
      (aesdCircularBufferFindEntryOffsetForFpos b charOffset).elim (none,rtn)
        fun x => (some x.1,x.2) := find_loop_into b _ _ _ _
  rw [hfind,find_entry_locate h]
  cases hloc : Concat.locate ((content b).map (·.size)) charOffset with
  | none =>
    have htotal : totalSize b ≤ charOffset := (Concat.locate_eq_none _ _).mp hloc
    exact ⟨by simp [htotal],fun _ => rfl,by simp⟩
  | some x =>
    obtain ⟨j,k⟩ := x
    have htotal : ¬ totalSize b ≤ charOffset := by
      intro hle
      rw [(Concat.locate_eq_none _ _).mpr hle] at hloc
      cases hloc
    refine ⟨by simp [htotal],by simp,?_⟩
    intro index hi
    cases hi
    exact ⟨j,entry_at hloc⟩

theorem sizes_wrapped (b : AesdCircularBuffer P) (indices : List ℕ) (acc : ℤ) :
    indices.foldl (fun bytes index => toSsize (bytes + (b.slot index).size)) (toSsize acc) =
      toSsize (acc + ((indices.map fun i => (b.slot i).size).sum : ℕ)) := by
  induction indices generalizing acc with
  | nil => simp
  | cons i indices ih =>
    have hone : toSsize (toSsize acc + (b.slot i).size) = toSsize (acc + (b.slot i).size) :=
      Int.bmod_add_bmod
    rw [List.foldl_cons,hone,ih,List.map_cons,List.sum_cons,Nat.cast_add,Int.add_assoc]

theorem aesd_size_wrapped {b : AesdCircularBuffer P} (h : Wf b) :
    aesdSize b = toSsize (totalSize b) := by
  have hsum : ((List.range 10).map fun i => (b.slot i).size).sum = totalSize b := by
    have hp := ((slots_perm_content h).map (·.size)).sum_nat
    rw [List.map_map,List.map_append,List.sum_append] at hp
    simpa [totalSize,vacant,Function.comp_def] using hp
  have hloop := sizes_wrapped b (List.range 10) 0
  rw [hsum] at hloop
  simpa [aesdSize,maxWriteOperationsSupported,toSsize] using hloop

theorem to_ssize_exact (n : ℕ) : toSsize n = n ↔ n < 2^63 := by
  rw [toSsize]
  constructor
  · intro h
    have := Int.bmod_lt (x := (n : ℤ)) (m := 2^64) (by norm_num)
    omega
  · intro h
    exact Int.bmod_eq_of_le_mul_two (by norm_num; omega) (by norm_num; omega)

theorem search_exact (es : List (AesdBufferEntry P)) (charOffset rtn : ℕ) :
    FindExact (addEntries aesdCircularBufferInit es).2 charOffset rtn
        (findEntryInto (addEntries aesdCircularBufferInit es).2 charOffset rtn) ∧
      (aesdSize (addEntries aesdCircularBufferInit es).2 =
          totalSize (addEntries aesdCircularBufferInit es).2 ↔
        totalSize (addEntries aesdCircularBufferInit es).2 < 2^63) := by
  have hw := (add_entries_content (b := aesdCircularBufferInit) wf_init es).1
  refine ⟨find_exact hw charOffset rtn,?_⟩
  rw [aesd_size_wrapped hw]
  exact to_ssize_exact _

def hugeRing : AesdCircularBuffer ℕ := (addEntries aesdCircularBufferInit [⟨some 0,2^63⟩]).2

theorem aesd_size_wraps : findEntryInto hugeRing 0 0 = (some 0,0) ∧ totalSize hugeRing = 2^63 ∧
    aesdSize hugeRing = -2^63 ∧
    ¬ ((findEntryInto hugeRing 0 0).1 = none ↔ aesdSize hugeRing ≤ (0 : ℕ)) := by
  have hfound : findEntryInto hugeRing 0 0 = (some 0,0) := by decide
  have hsize : aesdSize hugeRing = -2^63 := by decide
  refine ⟨hfound,by decide,hsize,?_⟩
  rw [hfound,hsize]
  simp

end CircularBuffer
