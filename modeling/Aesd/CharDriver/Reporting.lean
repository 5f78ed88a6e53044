import Aesd.CharDriver.Seek

namespace Device
open BlockHeap CircularBuffer AesdCircularBuffer Kernel Cutting

inductive FileOp where
  | read (count : ℕ)
  | ioctl (cmd : ℕ) (arg : AesdSeekto)
  deriving DecidableEq, Repr

structure OpResult where
  retval : ℤ
  out : Bytes
  driver : Driver
  fPos : ℕ

def fileOp (env : CallEnv) (d : Driver) (fPos : ℕ) : FileOp → Except Oops OpResult
  | .read count => do
      let (retval,out,fPos) ← aesdRead env d count fPos
      return ⟨retval,out,d,fPos⟩
  | .ioctl cmd arg =>
      let (retval,fPos) := aesdUnlockedIoctl env d fPos cmd arg
      return ⟨retval,[],d,fPos⟩

def Requested (d : Driver) (arg : AesdSeekto) : Prop :=
  ∃ e, (content d.dev.circularBuffer)[arg.writeCmd.toNat]? = some e ∧
    arg.writeCmdOffset.toNat < e.size

def requestedPosition (d : Driver) (arg : AesdSeekto) : ℕ :=
  olderSize d arg.writeCmd.toNat + arg.writeCmdOffset.toNat

-- says nothing of the value returned; a seek is carried out when it ends at the requested byte from
-- wherever it starts
def CarriedOut (env : CallEnv) (d : Driver) (fPos : ℕ) (out : Bytes) : FileOp → Prop
  | .read count => out.length ≤ count ∧ out = ((contentBytes d).drop fPos).take out.length ∧
      (out = [] → count = 0 ∨ env.interrupted = false ∧ (contentBytes d).length ≤ fPos)
  | .ioctl cmd arg => cmd = aesdcharIocseekto ∧ Requested d arg ∧
      ∀ p, (aesdUnlockedIoctl env d p cmd arg).2 = requestedPosition d arg

def Moved (d : Driver) (fPos : ℕ) (r : OpResult) : FileOp → Prop
  | .read _ => r.retval = r.out.length ∧ r.fPos = fPos + r.out.length
  | .ioctl _ arg => r.retval = 0 ∧ r.fPos = requestedPosition d arg

structure Reported (env : CallEnv) (d : Driver) (fPos : ℕ) (op : FileOp) (r : OpResult) : Prop where
  driver : r.driver = d
  negative : r.retval < 0 ↔ ¬ CarriedOut env d fPos r.out op
  unmoved : r.retval < 0 → r.fPos = fPos
  moved : 0 ≤ r.retval → Moved d fPos r op

-- the argument is copied in, and what the check of the array slot admits is the requested byte
def SeekHeld (env : CallEnv) (d : Driver) (arg : AesdSeekto) : Prop :=
  env.uncopied = false ∧
    (arg.writeCmd.toNat < 10 →
      arg.writeCmdOffset.toNat < (d.dev.circularBuffer.slot arg.writeCmd.toNat).size →
      arg.writeCmdOffset.toNat < (d.dev.circularBuffer.slot
          ((d.dev.circularBuffer.outOffs + arg.writeCmd.toNat) % 10)).size ∧
        arrayPrefix d.dev.circularBuffer arg.writeCmd.toNat =
          rotatedPrefix d.dev.circularBuffer arg.writeCmd.toNat)

def ReportHeld (env : CallEnv) (d : Driver) : FileOp → Prop
  | .read _ => True
  | .ioctl cmd arg => cmd = aesdcharIocseekto → SeekHeld env d arg

section Reporting
variable {env : CallEnv} {d : Driver} {held : List (ℕ × Bytes)} {fPos cmd : ℕ} {arg : AesdSeekto}

theorem ReadOutcome.reported {count : ℕ} {result : ℤ × Bytes × ℕ} (hc : 0 < count)
    (hout : ReadOutcome env (contentBytes d) count fPos result) :
    Reported env d fPos (.read count) ⟨result.1,result.2.1,d,result.2.2⟩ := by
  have hne : count ≠ 0 := by omega
  cases hout with
  | interrupted hi =>
    exact ⟨rfl,by simp [CarriedOut,eintr,hi,hne],by simp,by simp [eintr]⟩
  | finished hi hp =>
    exact ⟨rfl,by simp [CarriedOut,hi,hp],by simp,by simp [Moved]⟩
  | faulted _ _ hp =>
    have hout : ¬ CarriedOut env d fPos [] (.read count) := by
      rintro ⟨-,-,hend⟩
      rcases hend rfl with hz | ⟨-,hle⟩ <;> omega
    exact ⟨rfl,iff_of_true (by simp [efault]) hout,by simp,by simp [efault]⟩
  | @delivered _ n hn hcount hp =>
    have hlen : (((contentBytes d).drop fPos).take n).length = n := by
      rw [List.length_take,List.length_drop]
      omega
    have hout : CarriedOut env d fPos (((contentBytes d).drop fPos).take n) (.read count) := by
      refine ⟨by rw [hlen]; exact hcount,by rw [hlen],fun he => ?_⟩
      rw [he] at hlen
      simp at hlen
      omega
    exact ⟨rfl,iff_of_false (by simp) (not_not_intro hout),fun hneg => by simp at hneg; omega,
      fun _ => ⟨by rw [hlen],by rw [hlen]⟩⟩

theorem read_reported (env : CallEnv) (h : RingHolds d held) (fPos count : ℕ) :
    ∃ r, fileOp env d fPos (.read count) = .ok r ∧ Reported env d fPos (.read count) r := by
  rcases Nat.eq_zero_or_pos count with rfl | hc
  · exact ⟨⟨0,[],d,fPos⟩,rfl,rfl,by simp [CarriedOut],by simp,by simp [Moved]⟩
  · obtain ⟨result,hok,hout⟩ := aesd_read_spec env h hc fPos
    exact ⟨_,by simp only [fileOp,hok]; rfl,hout.reported hc⟩

theorem requested_at (h : RingHolds d held) :
    Requested d arg ↔ arg.writeCmd.toNat < 10 ∧ arg.writeCmdOffset.toNat <
      (d.dev.circularBuffer.slot ((d.dev.circularBuffer.outOffs + arg.writeCmd.toNat) % 10)).size :=
  content_at h.wf

theorem requested_position_rotated (hr : Requested d arg) : requestedPosition d arg =
    rotatedPrefix d.dev.circularBuffer arg.writeCmd.toNat + arg.writeCmdOffset.toNat := by
  obtain ⟨e,he,-⟩ := hr
  have hlt := (List.getElem?_eq_some_iff.mp he).1
  rw [content_length] at hlt
  rw [requestedPosition,older_size_rotated (Nat.le_of_lt hlt)]

theorem unknown_reported (hcmd : cmd ≠ aesdcharIocseekto) :
    Reported env d fPos (.ioctl cmd arg) ⟨-enotty,[],d,fPos⟩ :=
  ⟨rfl,by simp [CarriedOut,hcmd,enotty],fun _ => rfl,by simp [enotty]⟩

theorem fault_unreported :
    ¬ Reported env d fPos (.ioctl cmd arg) ⟨efault,[],d,fPos⟩ := by
  intro h
  have hzero := (h.moved (by simp [efault])).1
  simp [efault] at hzero

theorem seek_refused (hu : env.uncopied = false)
    (hn : ¬ (arg.writeCmd.toNat < 10 ∧
      arg.writeCmdOffset.toNat < (d.dev.circularBuffer.slot arg.writeCmd.toNat).size)) (p : ℕ) :
    aesdUnlockedIoctl env d p aesdcharIocseekto arg = (-einval,p) := by
  rw [ioctl_adjusts hu]
  rcases adjust_file_offset_cases d p arg.writeCmd arg.writeCmdOffset with ⟨hw,ho,-⟩ | ⟨-,heq⟩
  · exact absurd ⟨hw,ho⟩ hn
  · exact heq

theorem seek_lands (hu : env.uncopied = false) (hw : arg.writeCmd.toNat < 10)
    (ho : arg.writeCmdOffset.toNat < (d.dev.circularBuffer.slot arg.writeCmd.toNat).size) (p : ℕ) :
    aesdUnlockedIoctl env d p aesdcharIocseekto arg =
      (0,arrayPrefix d.dev.circularBuffer arg.writeCmd.toNat + arg.writeCmdOffset.toNat) := by
  rw [ioctl_adjusts hu]
  rcases adjust_file_offset_cases d p arg.writeCmd arg.writeCmdOffset with ⟨-,-,heq⟩ | ⟨hn,-⟩
  · exact heq
  · exact absurd ⟨hw,ho⟩ hn

theorem seek_reported_iff (h : RingHolds d held) (hu : env.uncopied = false) :
    Reported env d fPos (.ioctl aesdcharIocseekto arg)
        ⟨(aesdUnlockedIoctl env d fPos aesdcharIocseekto arg).1,[],d,
          (aesdUnlockedIoctl env d fPos aesdcharIocseekto arg).2⟩ ↔ SeekHeld env d arg := by
  by_cases hin : arg.writeCmd.toNat < 10 ∧
      arg.writeCmdOffset.toNat < (d.dev.circularBuffer.slot arg.writeCmd.toNat).size
  · obtain ⟨hw,ho⟩ := hin
    rw [seek_lands hu hw ho]
    constructor
    · intro hr
      obtain ⟨-,hreq,-⟩ := not_not.mp (mt hr.negative.mpr (by simp))
      have hpos := (hr.moved (by simp)).2
      rw [requested_position_rotated hreq] at hpos
      exact ⟨hu,fun _ _ => ⟨((requested_at h).mp hreq).2,Nat.add_right_cancel hpos⟩⟩
    · rintro ⟨-,hheld⟩
      obtain ⟨hslot,horder⟩ := hheld hw ho
      have hreq := (requested_at h).mpr ⟨hw,hslot⟩
      have hpos : arrayPrefix d.dev.circularBuffer arg.writeCmd.toNat + arg.writeCmdOffset.toNat =
          requestedPosition d arg := by rw [requested_position_rotated hreq,horder]
      have hout : CarriedOut env d fPos [] (.ioctl aesdcharIocseekto arg) :=
        ⟨rfl,hreq,fun p => by rw [seek_lands hu hw ho,hpos]⟩
      exact ⟨rfl,iff_of_false (by simp) (not_not_intro hout),by simp,fun _ => ⟨rfl,hpos⟩⟩
  · rw [seek_refused hu hin]
    -- a refused seek leaves f_pos where it was, so one of two starts is not the requested byte
    have hout : ¬ CarriedOut env d fPos [] (.ioctl aesdcharIocseekto arg) := by
      rintro ⟨-,-,hall⟩
      have h0 := hall 0
      have h1 := hall 1
      rw [seek_refused hu hin] at h0 h1
      omega
    exact iff_of_true ⟨rfl,iff_of_true (by simp [einval]) hout,fun _ => rfl,by simp [einval]⟩
      ⟨hu,fun hw ho => absurd ⟨hw,ho⟩ hin⟩

end Reporting

theorem failures_reported_iff {d : Driver} (hd : Runs.Reachable writeStep aesdInitModule d)
    (env : CallEnv) (fPos : ℕ) (op : FileOp) :
    (∃ r, fileOp env d fPos op = .ok r ∧ Reported env d fPos op r) ↔ ReportHeld env d op := by
  obtain ⟨L,hL⟩ := reachable_shown hd
  obtain ⟨held,h,-⟩ := hL.ring
  cases op with
  | read count => exact iff_of_true (read_reported env h fPos count) trivial
  | ioctl cmd arg =>
    have hop : fileOp env d fPos (.ioctl cmd arg) = .ok ⟨(aesdUnlockedIoctl env d fPos cmd arg).1,[],d,
        (aesdUnlockedIoctl env d fPos cmd arg).2⟩ := rfl
    simp only [hop,Except.ok.injEq,exists_eq_left',ReportHeld]
    by_cases hcmd : cmd = aesdcharIocseekto
    · subst hcmd
      cases hu : env.uncopied with
      | true =>
        have hfault : aesdUnlockedIoctl env d fPos aesdcharIocseekto arg = (efault,fPos) := by
          simp [aesdUnlockedIoctl,hu]
        rw [hfault]
        refine iff_of_false fault_unreported fun hheld => ?_
        have hcopied := (hheld rfl).1
        rw [hu] at hcopied
        cases hcopied
      | false =>
        rw [seek_reported_iff h hu]
        exact ⟨fun hheld _ => hheld,fun hheld => hheld rfl⟩
    · have hunknown : aesdUnlockedIoctl env d fPos cmd arg = (-enotty,fPos) := by
        simp [aesdUnlockedIoctl,hcmd]
      rw [hunknown]
      exact iff_of_true (unknown_reported hcmd) fun he => absurd he hcmd

theorem failures_reported_iff_init :
    (∃ r, fileOp calm aesdInitModule 5 (.ioctl aesdcharIocseekto ⟨0,0⟩) = .ok r ∧
        Reported calm aesdInitModule 5 (.ioctl aesdcharIocseekto ⟨0,0⟩) r) ↔
      ReportHeld calm aesdInitModule (.ioctl aesdcharIocseekto ⟨0,0⟩) :=
  failures_reported_iff (Runs.Reachable.refl _) calm 5 _

theorem faulting_and_misplaced_seek :
    (aesdUnlockedIoctl ⟨false,true,fun _ => true,fun _ _ => 0⟩ aesdInitModule 0 aesdcharIocseekto
        ⟨0,0⟩ = (14,0) ∧
      ¬ ∃ r, fileOp ⟨false,true,fun _ => true,fun _ _ => 0⟩ aesdInitModule 0
          (.ioctl aesdcharIocseekto ⟨0,0⟩) = .ok r ∧
        Reported ⟨false,true,fun _ => true,fun _ _ => 0⟩ aesdInitModule 0
          (.ioctl aesdcharIocseekto ⟨0,0⟩) r) ∧
    ∃ d, Runs.run writeStep aesdInitModule elevenWrites = some d ∧
      aesdUnlockedIoctl calm d 0 aesdcharIocseekto ⟨0,2⟩ = (0,2) ∧
      ¬ ∃ r, fileOp calm d 0 (.ioctl aesdcharIocseekto ⟨0,2⟩) = .ok r ∧
        Reported calm d 0 (.ioctl aesdcharIocseekto ⟨0,2⟩) r := by
  constructor
  · refine ⟨rfl,?_⟩
    rintro ⟨r,hr,h⟩
    cases hr
    exact absurd (h.moved (by decide)).1 (by decide)
  · obtain ⟨d,hd,-,hresult,hno⟩ := eleven_writes_seek
    refine ⟨d,hd,hresult,?_⟩
    rintro ⟨r,hr,h⟩
    simp only [fileOp,hresult] at hr
    cases hr
    obtain ⟨-,hreq,-⟩ := not_not.mp (mt h.negative.mpr (by simp))
    exact hno hreq

end Device
