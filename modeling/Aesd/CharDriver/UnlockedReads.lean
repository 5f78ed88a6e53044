import Aesd.CharDriver.Llseek
import Aesd.CharDriver.Seek
import Aesd.Library.Gather

namespace Device
open Kernel CircularBuffer AesdCircularBuffer Gather

-- the sizes are all that aesd_llseek and aesd_adjust_file_offset read of the ring, without dev->lock
def sizes {P : Type} (b : AesdCircularBuffer P) (i : ℕ) : ℕ := (b.slot i).size

def aesdSizeReads : List ℕ → ℤ → Reader ℕ ℕ ℤ
  | [], bytes => .done bytes
  | index :: rest, bytes => .read index fun size => aesdSizeReads rest (toSsize (bytes + size))

def aesdLlseekReads (fixedSizeLlseek : ℤ → ℤ → ℤ → ℤ → ℤ × ℤ) (fPos off whence : ℤ) :
    Reader ℕ ℕ (ℤ × ℤ) :=
  (aesdSizeReads (List.range maxWriteOperationsSupported) 0).map fun cbSize =>
    let (retval,fPos) := fixedSizeLlseek fPos off whence cbSize
    (toInt retval,fPos)

def calculateOffsetReads (writeCmd writeCmdOffset : ℕ) : List ℕ → ℕ → Reader ℕ ℕ ℕ
  | [], calculated => .done calculated
  | index :: rest, calculated =>
      if index < writeCmd then .read index fun size =>
        calculateOffsetReads writeCmd writeCmdOffset rest (calculated + size)
      else if index = writeCmd then .done (calculated + writeCmdOffset)
      else calculateOffsetReads writeCmd writeCmdOffset rest calculated

def aesdAdjustFileOffsetReads (fPos : ℕ) (writeCmd writeCmdOffset : UInt32) :
    Reader ℕ ℕ (ℤ × ℕ) :=
  if ¬ writeCmd.toNat < maxWriteOperationsSupported then .done (-einval,fPos)
  else .read writeCmd.toNat fun size =>
    if ¬ writeCmdOffset.toNat < size then .done (-einval,fPos)
    else (calculateOffsetReads writeCmd.toNat writeCmdOffset.toNat
      (List.range maxWriteOperationsSupported) 0).map fun position => (0,position)

-- a call that reads the ring while aesd_write adds entries to it
structure Call (R : Type) where
  ring : AesdCircularBuffer ℕ
  reads : Reader ℕ ℕ R

inductive CallAct where
  | read
  | add (e : AesdBufferEntry ℕ)

variable {R : Type}

def unlockedStep (s : Call R) : CallAct → Option (Call R)
  | .read => match s.reads with
      | .done _ => none
      | .read index next => some { s with reads := next (s.ring.slot index).size }
  | .add e => some { s with ring := (aesdCircularBufferAddEntry s.ring e).2 }

def adds : List CallAct → List (AesdBufferEntry ℕ)
  | [] => []
  | .read :: acts => adds acts
  | .add e :: acts => e :: adds acts

def Driver.withRing (d : Driver) (ring : AesdCircularBuffer ℕ) : Driver :=
  { d with dev := { d.dev with circularBuffer := ring } }

-- the ring after the first n additions
def Driver.later (d : Driver) (acts : List CallAct) (n : ℕ) : Driver :=
  d.withRing (addEntries d.dev.circularBuffer ((adds acts).take n)).2

def LlseekAtomic (n : ℕ) : Prop := ∀ fixedSizeLlseek (d : Driver) fPos off whence acts ring x,
  Wf d.dev.circularBuffer → Runs.run unlockedStep ⟨d.dev.circularBuffer,
    aesdLlseekReads fixedSizeLlseek fPos off whence⟩ acts = some ⟨ring,.done x⟩ →
  (adds acts).length ≤ n → ∃ k, x = aesdLlseek fixedSizeLlseek (d.later acts k) fPos off whence

def SeekAtomic (n : ℕ) : Prop := ∀ (d : Driver) fPos writeCmd writeCmdOffset acts ring x,
  Wf d.dev.circularBuffer → Runs.run unlockedStep ⟨d.dev.circularBuffer,
    aesdAdjustFileOffsetReads fPos writeCmd writeCmdOffset⟩ acts = some ⟨ring,.done x⟩ →
  (adds acts).length ≤ n → ∃ k, x = aesdAdjustFileOffset (d.later acts k) fPos writeCmd writeCmdOffset

section Evaluation
variable {b : AesdCircularBuffer ℕ} {d : Driver}

theorem size_reads_eval (b : AesdCircularBuffer ℕ) (indices : List ℕ) (bytes : ℤ) :
    (aesdSizeReads indices bytes).eval (sizes b) =
      indices.foldl (fun bytes index => toSsize (bytes + (b.slot index).size)) bytes := by
  induction indices generalizing bytes with
  | nil => rfl
  | cons i indices ih => exact ih _

theorem llseek_reads_eval (fixedSizeLlseek : ℤ → ℤ → ℤ → ℤ → ℤ × ℤ) (d : Driver)
    (fPos off whence : ℤ) :
    (aesdLlseekReads fixedSizeLlseek fPos off whence).eval (sizes d.dev.circularBuffer) =
      aesdLlseek fixedSizeLlseek d fPos off whence := by
  rw [aesdLlseekReads,Reader.eval_map,size_reads_eval]
  rfl

theorem offset_reads_eval (b : AesdCircularBuffer ℕ) (w o : ℕ) (indices : List ℕ)
    (calculated : ℕ) : (calculateOffsetReads w o indices calculated).eval (sizes b) =
      calculateOffset b w o indices calculated := by
  induction indices generalizing calculated with
  | nil => rfl
  | cons i indices ih =>
    simp only [calculateOffsetReads,calculateOffset]
    split_ifs
    · exact ih _
    · rfl
    · exact ih _

theorem adjust_reads_eval (d : Driver) (fPos : ℕ) (w o : UInt32) :
    (aesdAdjustFileOffsetReads fPos w o).eval (sizes d.dev.circularBuffer) =
      aesdAdjustFileOffset d fPos w o := by
  unfold aesdAdjustFileOffsetReads aesdAdjustFileOffset
  by_cases hw : w.toNat < maxWriteOperationsSupported
  · rw [if_neg (not_not_intro hw),if_neg (not_not_intro hw),Reader.eval,sizes]
    by_cases ho : o.toNat < (d.dev.circularBuffer.slot w.toNat).size
    · rw [if_neg (not_not_intro ho),if_neg (not_not_intro ho),Reader.eval_map,offset_reads_eval]
    · rw [if_pos ho,if_pos ho]
      rfl
  · rw [if_pos hw,if_pos hw]
    rfl

theorem size_reads_fresh {indices used : List ℕ} (hn : indices.Nodup)
    (hd : ∀ i ∈ indices, i ∉ used) (bytes : ℤ) : (aesdSizeReads indices bytes).Fresh used := by
  induction indices generalizing used bytes with
  | nil => trivial
  | cons i indices ih =>
    obtain ⟨hi,hn⟩ := List.nodup_cons.mp hn
    refine ⟨hd i (List.mem_cons_self ..),fun size => ih hn (fun j hj hused => ?_) _⟩
    rcases List.mem_cons.mp hused with rfl | hused
    · exact hi hj
    · exact hd j (List.mem_cons_of_mem i hj) hused

theorem offset_reads_fresh {indices used : List ℕ} {w : ℕ} (hn : indices.Nodup)
    (hd : ∀ i ∈ indices, i < w → i ∉ used) (o calculated : ℕ) :
    (calculateOffsetReads w o indices calculated).Fresh used := by
  induction indices generalizing used calculated with
  | nil => trivial
  | cons i indices ih =>
    obtain ⟨hi,hn⟩ := List.nodup_cons.mp hn
    have hrest (j : ℕ) (hj : j ∈ indices) := hd j (List.mem_cons_of_mem i hj)
    rw [calculateOffsetReads]
    split_ifs with hlt
    · refine ⟨hd i (List.mem_cons_self ..) hlt,fun size => ih hn (fun j hj hw hused => ?_) _⟩
      rcases List.mem_cons.mp hused with rfl | hused
      · exact hi hj
      · exact hrest j hj hw hused
    · trivial
    · exact ih hn hrest _

theorem llseek_reads_fresh (fixedSizeLlseek : ℤ → ℤ → ℤ → ℤ → ℤ × ℤ) (fPos off whence : ℤ) :
    (aesdLlseekReads fixedSizeLlseek fPos off whence).Fresh [] :=
  (size_reads_fresh List.nodup_range (by simp) 0).map _

theorem adjust_reads_fresh (fPos : ℕ) (w o : UInt32) :
    (aesdAdjustFileOffsetReads fPos w o).Fresh [] := by
  unfold aesdAdjustFileOffsetReads
  by_cases hw : w.toNat < maxWriteOperationsSupported
  · rw [if_neg (not_not_intro hw)]
    refine ⟨by simp,fun size => ?_⟩
    beta_reduce
    by_cases ho : o.toNat < size
    · rw [if_neg (not_not_intro ho)]
      refine Reader.Fresh.map (offset_reads_fresh List.nodup_range ?_ _ _) _
      intro i _ hlt hmem
      exact absurd (List.mem_singleton.mp hmem) (Nat.ne_of_lt hlt)
    · rw [if_pos ho]
      trivial
  · rw [if_pos hw]
    trivial

end Evaluation

section Moments
variable {b b' : AesdCircularBuffer ℕ} {r r' : Reader ℕ ℕ R} {acts : List CallAct} {x : R}
  {d : Driver}

theorem slot_add (b : AesdCircularBuffer ℕ) (e : AesdBufferEntry ℕ) (i : ℕ) :
    (aesdCircularBufferAddEntry b e).2.slot i = (b.setSlot b.inOffs e).slot i := by
  unfold aesdCircularBufferAddEntry
  cases b.full with
  | false =>
    dsimp only
    split_ifs <;> rfl
  | true =>
    dsimp only
    split_ifs <;> rfl

theorem sizes_add (h : Wf b) (e : AesdBufferEntry ℕ) :
    sizes (aesdCircularBufferAddEntry b e).2 = Function.update (sizes b) b.inOffs e.size := by
  funext i
  rw [sizes,slot_add,slot_setSlot b h.in_lt]
  by_cases hi : b.inOffs = i
  · rw [if_pos hi,← hi,Function.update_self]
  · rw [if_neg hi,Function.update_of_ne (Ne.symm hi)]
    rfl

-- the same run, seen as one of a reader of sizes and the stores of others
def gathered (b : AesdCircularBuffer ℕ) : List CallAct → List (Act ℕ ℕ)
  | [] => []
  | .read :: acts => .read :: gathered b acts
  | .add e :: acts =>
      .store b.inOffs e.size :: gathered (aesdCircularBufferAddEntry b e).2 acts

theorem gathered_stores (b : AesdCircularBuffer ℕ) (acts : List CallAct) :
    (stores (gathered b acts)).length = (adds acts).length := by
  induction acts generalizing b with
  | nil => rfl
  | cons act acts ih =>
    cases act with
    | read => exact ih b
    | add e => exact congrArg (· + 1) (ih _)

theorem gathered_run (h : Wf b) (hr : Runs.run unlockedStep ⟨b,r⟩ acts = some ⟨b',r'⟩) :
    Runs.run Gather.step ⟨sizes b,r⟩ (gathered b acts) = some ⟨sizes b',r'⟩ ∧
      b' = (addEntries b (adds acts)).2 := by
  induction acts generalizing b r with
  | nil =>
    cases hr
    exact ⟨rfl,rfl⟩
  | cons act acts ih =>
    obtain ⟨s,hs,hrun⟩ := Runs.run_cons hr
    cases act with
    | add e =>
      cases hs
      obtain ⟨hg,hb⟩ := ih (add_entry h e).wf hrun
      refine ⟨?_,hb⟩
      rw [sizes_add h] at hg
      exact hg
    | read =>
      cases r with
      | done => cases hs
      | read index next =>
        cases hs
        exact ih (r := next (sizes b index)) h hrun

theorem call_moment (h : Wf b) (hf : r.Fresh [])
    (hr : Runs.run unlockedStep ⟨b,r⟩ acts = some ⟨b',.done x⟩) (hn : (adds acts).length ≤ 1) :
    ∃ k, x = r.eval (sizes (addEntries b ((adds acts).take k)).2) := by
  obtain ⟨hg,hb⟩ := gathered_run h hr
  rcases one_moment hf hg (by rwa [gathered_stores]) with hx | hx
  · exact ⟨0,hx⟩
  · refine ⟨(adds acts).length,?_⟩
    rw [List.take_length,← hb]
    exact hx

theorem LlseekAtomic.mono {m n : ℕ} (h : LlseekAtomic n) (hm : m ≤ n) : LlseekAtomic m :=
  fun f d fPos off whence acts ring x hwf hr hn =>
    h f d fPos off whence acts ring x hwf hr (hn.trans hm)

theorem SeekAtomic.mono {m n : ℕ} (h : SeekAtomic n) (hm : m ≤ n) : SeekAtomic m :=
  fun d fPos w o acts ring x hwf hr hn => h d fPos w o acts ring x hwf hr (hn.trans hm)

theorem llseek_atomic_one : LlseekAtomic 1 := by
  intro f d fPos off whence acts ring x hwf hr hn
  obtain ⟨k,hk⟩ := call_moment hwf (llseek_reads_fresh f fPos off whence) hr hn
  exact ⟨k,hk.trans (llseek_reads_eval f (d.later acts k) fPos off whence)⟩

theorem seek_atomic_one : SeekAtomic 1 := by
  intro d fPos w o acts ring x hwf hr hn
  obtain ⟨k,hk⟩ := call_moment hwf (adjust_reads_fresh fPos w o) hr hn
  exact ⟨k,hk.trans (adjust_reads_eval (d.later acts k) fPos w o)⟩

theorem later_all {k : ℕ} (h : (adds acts).length ≤ k) :
    d.later acts k = d.later acts (adds acts).length := by
  rw [Driver.later,Driver.later,List.take_of_length_le h,List.take_length]

def callResult (s : Call R) : Option R :=
  match s.reads with
  | .done x => some x
  | .read _ _ => none

theorem run_result {s : Call R} (h : (Runs.run unlockedStep s acts).bind callResult = some x) :
    ∃ ring, Runs.run unlockedStep s acts = some ⟨ring,.done x⟩ := by
  obtain ⟨t,ht,hf⟩ := Option.bind_eq_some_iff.mp h
  obtain ⟨ring,reads⟩ := t
  cases reads with
  | done y =>
    cases hf
    exact ⟨ring,ht⟩
  | read => cases hf

end Moments

def ofSize (n : ℕ) : AesdBufferEntry ℕ := ⟨some n,n⟩

-- slot 0 is read before it is filled and slot 1 after it is filled
def passed : List CallAct :=
  [.read,.add (ofSize 1),.add (ofSize 2)] ++ List.replicate 9 .read

theorem llseek_torn : ¬ LlseekAtomic 2 := by
  intro h
  obtain ⟨ring,hr⟩ := run_result (show (Runs.run unlockedStep ⟨aesdCircularBufferInit,
    aesdLlseekReads (fun _ _ _ size => (size,size)) 0 0 2⟩ passed).bind callResult = some (2,2) by
      decide)
  obtain ⟨k,hk⟩ := h _ aesdInitModule 0 0 2 passed ring _ wf_init hr (by decide)
  have hmoments : ∀ k ≤ 2, ((2 : ℤ),(2 : ℤ)) ≠
      aesdLlseek (fun _ _ _ size => (size,size)) (aesdInitModule.later passed k) 0 0 2 := by decide
  rcases Nat.le_total k 2 with hle | hge
  · exact hmoments k hle hk
  · rw [later_all hge] at hk
    exact hmoments 2 (Nat.le_refl 2) hk

def fullDriver : Driver :=
  aesdInitModule.withRing (addEntries aesdCircularBufferInit (List.replicate 10 (ofSize 1))).2

-- slots 9 and 0 are read before the two additions
def wrapped : List CallAct :=
  [.read,.read,.add (ofSize 5),.add (ofSize 7)] ++ List.replicate 8 .read

theorem seek_torn : ¬ SeekAtomic 2 := by
  intro h
  obtain ⟨ring,hr⟩ := run_result (show (Runs.run unlockedStep ⟨fullDriver.dev.circularBuffer,
    aesdAdjustFileOffsetReads 0 9 0⟩ wrapped).bind callResult = some (0,15) by decide)
  have hwf := (add_entries_content wf_init (List.replicate 10 (ofSize 1))).1
  obtain ⟨k,hk⟩ := h fullDriver 0 9 0 wrapped ring _ hwf hr (by decide)
  have hmoments : ∀ k ≤ 2, ((0 : ℤ),15) ≠ aesdAdjustFileOffset (fullDriver.later wrapped k) 0 9 0 := by
    decide
  rcases Nat.le_total k 2 with hle | hge
  · exact hmoments k hle hk
  · rw [later_all hge] at hk
    exact hmoments 2 (Nat.le_refl 2) hk

-- aesd_llseek and the seek ioctl do not take dev->lock: they are as if at one moment of the call
-- only where no more than one command is added during it
theorem unlocked_atomic_iff (n : ℕ) :
    (LlseekAtomic n ↔ n ≤ 1) ∧ (SeekAtomic n ↔ n ≤ 1) := by
  constructor
  · refine ⟨fun h => ?_,llseek_atomic_one.mono⟩
    by_contra hn
    exact llseek_torn (h.mono (Nat.lt_of_not_le hn))
  · refine ⟨fun h => ?_,seek_atomic_one.mono⟩
    by_contra hn
    exact seek_torn (h.mono (Nat.lt_of_not_le hn))

end Device
