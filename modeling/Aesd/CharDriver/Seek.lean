import Aesd.CharDriver.Reading

namespace Device
open BlockHeap CircularBuffer AesdCircularBuffer Kernel Cutting

def olderSize (d : Driver) (writeCmd : ℕ) : ℕ :=
  (((content d.dev.circularBuffer).take writeCmd).map (·.size)).sum

structure SeekExact (d : Driver) (fPos : ℕ) (arg : AesdSeekto) (result : ℤ × ℕ) : Prop where
  succeeds : result.1 = 0 ↔ ∃ e, (content d.dev.circularBuffer)[arg.writeCmd.toNat]? = some e ∧
    arg.writeCmdOffset.toNat < e.size
  position : result.1 = 0 → result.2 = olderSize d arg.writeCmd.toNat + arg.writeCmdOffset.toNat
  finds : result.1 = 0 → ∃ index, aesdCircularBufferFindEntryOffsetForFpos d.dev.circularBuffer
      result.2 = some (index,arg.writeCmdOffset.toNat) ∧
    (content d.dev.circularBuffer)[arg.writeCmd.toNat]? = some (d.dev.circularBuffer.slot index)
  drains : result.1 = 0 → ∀ env, Served env → ∀ count, 0 < count → ∀ out,
    Drains env d count result.2 out ↔ out = (contentBytes d).drop
      (olderSize d arg.writeCmd.toNat + arg.writeCmdOffset.toNat)
  failure : result.1 ≠ 0 → result.2 = fPos

def arrayPrefix (ring : AesdCircularBuffer ℕ) (n : ℕ) : ℕ :=
  ((List.range n).map fun i => (ring.slot i).size).sum

def rotatedPrefix (ring : AesdCircularBuffer ℕ) (n : ℕ) : ℕ :=
  ((List.range n).map fun i => (ring.slot ((ring.outOffs + i) % 10)).size).sum

structure OrdersAgree (ring : AesdCircularBuffer ℕ) (writeCmd writeCmdOffset : ℕ) : Prop where
  inside : writeCmdOffset < (ring.slot writeCmd).size ↔
    writeCmdOffset < (ring.slot ((ring.outOffs + writeCmd) % 10)).size
  before : writeCmdOffset < (ring.slot writeCmd).size →
    arrayPrefix ring writeCmd = rotatedPrefix ring writeCmd

section Offsets
variable {ring : AesdCircularBuffer ℕ}

theorem calculate_offset_sum {w s n : ℕ} (o : ℕ) (hs : s ≤ w) (hw : w < s + n) (acc : ℕ) :
    calculateOffset ring w o (List.range' s n) acc =
      acc + ((List.range' s (w - s)).map fun i => (ring.slot i).size).sum + o := by
  induction n generalizing s acc with
  | zero => omega
  | succ n ih =>
    rw [List.range'_succ,calculateOffset]
    rcases Nat.lt_or_eq_of_le hs with hlt | rfl
    · have hrest : w - s = (w - (s + 1)) + 1 := by omega
      rw [if_pos hlt,ih (by omega) (by omega),hrest,List.range'_succ,List.map_cons,List.sum_cons]
      omega
    · simp

theorem calculate_offset_total {w : ℕ} (hw : w < 10) (o : ℕ) :
    calculateOffset ring w o (List.range maxWriteOperationsSupported) 0 =
      arrayPrefix ring w + o := by
  rw [List.range_eq_range',maxWriteOperationsSupported,
    calculate_offset_sum o (Nat.zero_le _) (by omega),arrayPrefix,List.range_eq_range']
  simp

theorem window_take {s n w : ℕ} (hw : w ≤ n) : (window ring s n).take w = window ring s w := by
  rw [window,← List.map_take,List.take_range,Nat.min_eq_left hw]
  rfl

theorem content_at (h : Wf ring) {w o : ℕ} :
    (∃ e, (content ring)[w]? = some e ∧ o < e.size) ↔
      w < 10 ∧ o < (ring.slot ((ring.outOffs + w) % 10)).size := by
  have hle := h.count_le
  by_cases hw : w < count ring
  · rw [content,window_getElem? ring hw]
    simp
    omega
  · rw [List.getElem?_eq_none (by rw [content_length]; omega)]
    simp only [reduceCtorEq,false_and,exists_false,false_iff,not_and]
    intro hlt
    have hslot : (window ring ring.outOffs 10)[w]? = some vacant := by
      rw [slots_from_out h,List.getElem?_append_right (by rw [content_length]; omega),
        content_length,List.getElem?_replicate,if_pos (by omega)]
    rw [window_getElem? ring hlt] at hslot
    rw [Option.some.inj hslot]
    simp [vacant]

end Offsets

section Seeking
variable {d : Driver} {held : List (ℕ × Bytes)} {fPos : ℕ} {arg : AesdSeekto}

theorem older_size_rotated {w : ℕ} (hw : w ≤ count d.dev.circularBuffer) :
    olderSize d w = rotatedPrefix d.dev.circularBuffer w := by
  rw [olderSize,content,window_take hw,window,List.map_map]
  rfl

theorem adjust_file_offset_cases (d : Driver) (fPos : ℕ) (w o : UInt32) :
    (w.toNat < 10 ∧ o.toNat < (d.dev.circularBuffer.slot w.toNat).size ∧
      aesdAdjustFileOffset d fPos w o = (0,arrayPrefix d.dev.circularBuffer w.toNat + o.toNat)) ∨
    (¬ (w.toNat < 10 ∧ o.toNat < (d.dev.circularBuffer.slot w.toNat).size) ∧
      aesdAdjustFileOffset d fPos w o = (-einval,fPos)) := by
  unfold aesdAdjustFileOffset
  by_cases hw : w.toNat < 10
  · by_cases ho : o.toNat < (d.dev.circularBuffer.slot w.toNat).size
    · left
      refine ⟨hw,ho,?_⟩
      rw [calculate_offset_total hw]
      simp [maxWriteOperationsSupported,hw,ho]
    · right
      simp [maxWriteOperationsSupported,hw,ho]
  · right
    simp [maxWriteOperationsSupported,hw]

theorem located (h : RingHolds d held) {w o : ℕ} {e : AesdBufferEntry ℕ}
    (he : (content d.dev.circularBuffer)[w]? = some e) (ho : o < e.size) :
    ∃ index, aesdCircularBufferFindEntryOffsetForFpos d.dev.circularBuffer (olderSize d w + o) =
        some (index,o) ∧
      (content d.dev.circularBuffer)[w]? = some (d.dev.circularBuffer.slot index) := by
  have hsize : ((content d.dev.circularBuffer).map (·.size))[w]? = some e.size := by
    rw [List.getElem?_map,he]
    rfl
  have hloc := Concat.locate_at hsize ho
  rw [← List.map_take] at hloc
  have hw : w < count d.dev.circularBuffer := by
    rw [← content_length]
    exact (List.getElem?_eq_some_iff.mp he).1
  refine ⟨(d.dev.circularBuffer.outOffs + w) % 10,?_,?_⟩
  · rw [find_entry_locate h.wf,olderSize,hloc]
    rfl
  · rw [content,window_getElem? _ hw]

theorem seek_adjusts (h : RingHolds d held) :
    SeekExact d fPos arg (aesdAdjustFileOffset d fPos arg.writeCmd arg.writeCmdOffset) ↔
      (arg.writeCmd.toNat < 10 →
        OrdersAgree d.dev.circularBuffer arg.writeCmd.toNat arg.writeCmdOffset.toNat) := by
  have hheld := content_at h.wf (w := arg.writeCmd.toNat) (o := arg.writeCmdOffset.toNat)
  have holder : (∃ e, (content d.dev.circularBuffer)[arg.writeCmd.toNat]? = some e ∧
      arg.writeCmdOffset.toNat < e.size) → olderSize d arg.writeCmd.toNat =
        rotatedPrefix d.dev.circularBuffer arg.writeCmd.toNat := by
    rintro ⟨e,he,-⟩
    have hlt := (List.getElem?_eq_some_iff.mp he).1
    rw [content_length] at hlt
    exact older_size_rotated (Nat.le_of_lt hlt)
  rcases adjust_file_offset_cases d fPos arg.writeCmd arg.writeCmdOffset with
    ⟨hw,ho,heq⟩ | ⟨hn,heq⟩
  · rw [heq]
    constructor
    · intro hs _
      have hin := hs.succeeds.mp rfl
      have hpos := hs.position rfl
      rw [holder hin] at hpos
      simp only [Nat.add_right_cancel_iff] at hpos
      exact ⟨⟨fun _ => (hheld.mp hin).2,fun _ => ho⟩,fun _ => hpos⟩
    · intro ha
      obtain ⟨hinside,hbefore⟩ := ha hw
      have hin := hheld.mpr ⟨hw,hinside.mp ho⟩
      obtain ⟨e,he,hoe⟩ := hin
      have hpos : arrayPrefix d.dev.circularBuffer arg.writeCmd.toNat =
          olderSize d arg.writeCmd.toNat := by rw [hbefore ho,holder ⟨e,he,hoe⟩]
      rw [hpos]
      exact ⟨⟨fun _ => ⟨e,he,hoe⟩,fun _ => rfl⟩,fun _ => rfl,fun _ => located h he hoe,
        fun _ env hs count hc out => drains_iff h hs hc _ out,fun hne => absurd rfl hne⟩
  · rw [heq]
    have hfail : (-einval,fPos).1 ≠ (0 : ℤ) := by simp [einval]
    constructor
    · intro hs hw
      have hout : ¬ arg.writeCmdOffset.toNat <
          (d.dev.circularBuffer.slot ((d.dev.circularBuffer.outOffs + arg.writeCmd.toNat) % 10)).size :=
        fun ho => hfail (hs.succeeds.mpr (hheld.mpr ⟨hw,ho⟩))
      have hin : ¬ arg.writeCmdOffset.toNat < (d.dev.circularBuffer.slot arg.writeCmd.toNat).size :=
        fun ho => hn ⟨hw,ho⟩
      exact ⟨iff_of_false hin hout,fun ho => absurd ho hin⟩
    · intro ha
      refine ⟨⟨fun h0 => absurd h0 hfail,fun hin => ?_⟩,fun h0 => absurd h0 hfail,
        fun h0 => absurd h0 hfail,fun h0 => absurd h0 hfail,fun _ => rfl⟩
      obtain ⟨hw,ho⟩ := hheld.mp hin
      exact absurd ⟨hw,(ha hw).inside.mpr ho⟩ hn

end Seeking

theorem ioctl_adjusts {env : CallEnv} (hu : env.uncopied = false) (d : Driver) (fPos : ℕ)
    (arg : AesdSeekto) : aesdUnlockedIoctl env d fPos aesdcharIocseekto arg =
      aesdAdjustFileOffset d fPos arg.writeCmd arg.writeCmdOffset := by
  simp [aesdUnlockedIoctl,hu]

theorem seek_exact_iff {d : Driver} (hd : Runs.Reachable writeStep aesdInitModule d)
    {env : CallEnv} (hu : env.uncopied = false) (fPos : ℕ) (arg : AesdSeekto) :
    SeekExact d fPos arg (aesdUnlockedIoctl env d fPos aesdcharIocseekto arg) ↔
      (arg.writeCmd.toNat < 10 →
        OrdersAgree d.dev.circularBuffer arg.writeCmd.toNat arg.writeCmdOffset.toNat) := by
  obtain ⟨L,hL⟩ := reachable_shown hd
  obtain ⟨held,h,-⟩ := hL.ring
  rw [ioctl_adjusts hu]
  exact seek_adjusts h

theorem seek_exact_unrotated {d : Driver} (hd : Runs.Reachable writeStep aesdInitModule d)
    (hout : d.dev.circularBuffer.outOffs = 0) {env : CallEnv} (hu : env.uncopied = false)
    (fPos : ℕ) (arg : AesdSeekto) :
    SeekExact d fPos arg (aesdUnlockedIoctl env d fPos aesdcharIocseekto arg) := by
  obtain ⟨L,hL⟩ := reachable_shown hd
  obtain ⟨held,h,-⟩ := hL.ring
  rw [ioctl_adjusts hu]
  refine (seek_adjusts h).mpr fun hw => ?_
  have hslot (i : ℕ) (hi : i < 10) : (d.dev.circularBuffer.outOffs + i) % 10 = i := by omega
  refine ⟨by rw [hslot _ hw],fun _ => ?_⟩
  rw [arrayPrefix,rotatedPrefix]
  congr 1
  refine List.map_congr_left fun i hi => ?_
  rw [hslot i (by have := List.mem_range.mp hi; omega)]

def elevenWrites : List WriteCall := List.replicate 10 ⟨calm,[10]⟩ ++ [⟨calm,[97,98,10]⟩]

theorem seek_exact_iff_after_eleven :
    ∃ d, Runs.run writeStep aesdInitModule elevenWrites = some d ∧
      (SeekExact d 0 ⟨1,0⟩ (aesdUnlockedIoctl calm d 0 aesdcharIocseekto ⟨1,0⟩) ↔
        ((1 : UInt32).toNat < 10 →
          OrdersAgree d.dev.circularBuffer (1 : UInt32).toNat (0 : UInt32).toNat)) := by
  obtain ⟨d,hd⟩ := Option.isSome_iff_exists.mp
    (show (Runs.run writeStep aesdInitModule elevenWrites).isSome by decide)
  exact ⟨d,hd,seek_exact_iff ⟨_,hd⟩ rfl 0 ⟨1,0⟩⟩

-- array slot 0 holds the newest command, of three bytes; the oldest one has a single byte
theorem eleven_writes_seek :
    ∃ d, Runs.run writeStep aesdInitModule elevenWrites = some d ∧
      (content d.dev.circularBuffer)[0]?.map (·.size) = some 1 ∧
      aesdUnlockedIoctl calm d 0 aesdcharIocseekto ⟨0,2⟩ = (0,2) ∧
      ¬ ∃ e, (content d.dev.circularBuffer)[(0 : UInt32).toNat]? = some e ∧
        (2 : UInt32).toNat < e.size := by
  obtain ⟨d,hd,hobs⟩ := Option.map_eq_some_iff.mp
    (show (Runs.run writeStep aesdInitModule elevenWrites).map (fun d =>
      ((content d.dev.circularBuffer)[0]?.map (·.size),
        aesdUnlockedIoctl calm d 0 aesdcharIocseekto ⟨0,2⟩)) = some (some 1,0,2) by decide)
  simp only [Prod.mk.injEq] at hobs
  obtain ⟨hsize,hresult⟩ := hobs
  refine ⟨d,hd,hsize,hresult,?_⟩
  rintro ⟨e,he,ho⟩
  have hzero : (0 : UInt32).toNat = 0 := rfl
  have htwo : (2 : UInt32).toNat = 2 := rfl
  rw [hzero] at he
  rw [htwo] at ho
  rw [he] at hsize
  simp only [Option.map_some,Option.some.injEq] at hsize
  omega

theorem seek_into_overwritten_slot :
    ∃ d, Runs.run writeStep aesdInitModule elevenWrites = some d ∧
      (content d.dev.circularBuffer)[0]?.map (·.size) = some 1 ∧
      aesdUnlockedIoctl calm d 0 aesdcharIocseekto ⟨0,2⟩ = (0,2) ∧
      ¬ SeekExact d 0 ⟨0,2⟩ (aesdUnlockedIoctl calm d 0 aesdcharIocseekto ⟨0,2⟩) := by
  obtain ⟨d,hd,hsize,hresult,hno⟩ := eleven_writes_seek
  exact ⟨d,hd,hsize,hresult,fun hs => hno (hs.succeeds.mp (by rw [hresult]))⟩

end Device
