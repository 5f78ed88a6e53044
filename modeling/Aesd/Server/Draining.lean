import Aesd.Server.Progress

namespace AesdServer
open Kernel Device ClientHandler Delimited

variable {I : Type}

-- nothing more is received
def Label.silent (l : Label I) : Prop := ∀ data, l.act ≠ .thread (.recv data)

def atRest (h : Handler) : Prop := h.pc = .recv ∨ h.pc = .exited

def Free (s : System I) (t : I) : Prop := s.owner = none ∨ s.owner = some t

-- the server has served what its clients sent so far, data packets all of it
structure Ready [DecidableEq I] (packets : I → List Bytes) (s : System I) : Prop where
  run : ∃ ls, Runs.run sysStep (start aesdInitModule) ls = some s ∧
    Runs.Along sysStep Answered (start aesdInitModule) ls ∧
    ∀ t, received (eventsOf aesdInitModule t ls) <+: stream (packets t)
  packets : ∀ t, DataPackets (packets t)

def phaseLeft (h : Handler) (fPos : ℕ) : ℕ :=
  match h.pc with
  | .byte => 2 * contentBound + 8
  | .lock => 2 * contentBound + 7
  | .branch => 2 * contentBound + 6
  | .ioctl _ | .writeData => 2 * contentBound + 5
  | .writeNewline => 2 * contentBound + 4
  | .unlock => 2 * contentBound + 3
  | .reset => 2 * contentBound + 2
  | .read => 2 * (contentBound - fPos)
  | .send _ => 2 * (contentBound - fPos) + 1
  | .recv | .exited | .undefined => 0

def workLeft (h : Handler) (fPos : ℕ) : ℕ :=
  (h.bytesReceived - h.i) * (2 * contentBound + 9) + phaseLeft h fPos

section Readiness
variable [DecidableEq I] {packets : I → List Bytes} {s s' : System I} {l : Label I} {a : Answer}
  {t : I}

theorem Ready.past (h : Ready packets s) : Past s := by
  obtain ⟨ls,hr,hok,-⟩ := h.run
  exact ⟨ls,hr,hok⟩

theorem Ready.next (h : Ready packets s) (hans : Answered s l) (hq : l.silent)
    (hs : sysStep s l = some s') : Ready packets s' := by
  obtain ⟨ls,hr,hok,hin⟩ := h.run
  refine ⟨⟨ls ++ [l],Runs.run_join hr (Runs.run_step hs),(Runs.along_snoc_iff hr).mpr ⟨hok,hans⟩,
    fun t => ?_⟩,h.packets⟩
  obtain ⟨a,hm⟩ := sys_step_moved hs
  rw [events_of_snoc t hr hs]
  by_cases ht : t = l.who
  · subst ht
    have hquiet : a.event.bytes = [] := by
      cases respond_responds hm.answered with
      | @own ev hact =>
        cases ev with
        | recv data => exact absurd hact (hq data)
        | _ => rfl
      | _ => rfl
    rw [hm.event_self,received_snoc,hquiet,List.append_nil]
    exact hin l.who
  · rw [event_other ht,List.append_nil]
    exact hin t

theorem Ready.data (h : Ready packets s) (t : I) :
    (∀ arg, (s.clients t).pc ≠ .ioctl arg) ∧ (s.clients t).pc ≠ .undefined := by
  obtain ⟨ls,hr,hok,hin⟩ := h.run
  have hrun := client_data_run hr hok (h.packets t) (hin t)
  exact ⟨hrun.noSeek,hrun.defined⟩

theorem Ready.stored (h : Ready packets s) : ∃ held frag, Stored s.driver held frag := by
  obtain ⟨ls,hr,hok,-⟩ := h.run
  have hst := storing_of_run hr hok
  obtain ⟨held,frag,hs,-⟩ := stored_stream hst.holds hst.shown
  exact ⟨held,frag,hs⟩

theorem Ready.free_at (h : Ready packets s) (hf : Free s t)
    (hpc : (s.clients t).pc.inSection = false) : s.owner = none := by
  obtain ⟨ls,hr,hok,-⟩ := h.run
  have hfree := (client_disciplined hr hok t).free hpc
  rcases hf with hn | ho
  · exact hn
  · rw [mutex_held hr hok t,hfree] at ho
    cases ho

end Readiness

section Work
variable {h h' : Handler} {p q : ℕ}

theorem phase_left_bound (h : Handler) (p : ℕ) : phaseLeft h p < 2 * contentBound + 9 := by
  unfold phaseLeft
  split <;> omega

theorem same_byte_left (hn : h'.bytesReceived = h.bytesReceived) (hi : h'.i = h.i)
    (hp : phaseLeft h' q < phaseLeft h p) : workLeft h' q < workLeft h p := by
  rw [workLeft,workLeft,hn,hi]
  omega

theorem next_byte_left (hn : h'.bytesReceived = h.bytesReceived) (hi : h'.i = h.i + 1)
    (hlt : h.i < h.bytesReceived) : workLeft h' q < workLeft h p := by
  have hbound := phase_left_bound h' q
  have hsplit : h.bytesReceived - h.i = h.bytesReceived - (h.i + 1) + 1 := by omega
  rw [workLeft,workLeft,hn,hi,hsplit,Nat.add_mul (h.bytesReceived - (h.i + 1)) 1,Nat.one_mul]
  omega

theorem byte_step (hpc : h.pc = .byte) (hx : ∀ h', step h .tau = some h' → h'.pc ≠ .undefined)
    (p : ℕ) : ∃ h', step h .tau = some h' ∧ workLeft h' p < workLeft h p := by
  by_cases hi : h.i < h.bytesReceived
  · by_cases hb : h.readBuffer h.i = newline
    · refine ⟨{ h with pc := .lock },by simp [step,hpc,hi,hb],same_byte_left rfl rfl ?_⟩
      simp [phaseLeft,hpc]
    · by_cases hroom : h.writeBufferIndex < bufferSize
      · refine ⟨{ h with
          pc := .byte, i := h.i + 1,
          writeBuffer := fun k => if k = h.writeBufferIndex then h.readBuffer h.i else h.writeBuffer k,
          writeBufferIndex := h.writeBufferIndex + 1 },?_,next_byte_left rfl rfl hi⟩
        simp [step,hpc,hi,hb,hroom]
      · have hover : step h .tau = some { h with pc := .undefined } := by
          simp [step,hpc,hi,hb,hroom]
        exact absurd rfl (hx _ hover)
  · refine ⟨{ h with pc := .recv },by simp [step,hpc,hi],same_byte_left rfl rfl ?_⟩
    simp [phaseLeft,hpc]

theorem branch_step (hpc : h.pc = .branch)
    (hx : ∀ h', step h (.branch zeroStack) = some h' → ∀ arg, h'.pc ≠ .ioctl arg) (p : ℕ) :
    ∃ h', step h (.branch zeroStack) = some h' ∧ workLeft h' p < workLeft h p := by
  cases hm : Scan.strstr (h.packetText zeroStack) Scan.aesdIoctlSeekto with
  | true =>
    have hseek : step h (.branch zeroStack) =
        some { h with pc := .ioctl (seektoArgs h.readBuffer zeroStack) } := by simp [step,hpc,hm]
    exact absurd rfl (hx _ hseek _)
  | false =>
    refine ⟨{ h with pc := .writeData },by simp [step,hpc,hm],same_byte_left rfl rfl ?_⟩
    simp [phaseLeft,hpc]

theorem reset_step (hpc : h.pc = .reset) (p : ℕ) :
    ∃ h', step h .tau = some h' ∧ workLeft h' p < workLeft h p := by
  refine ⟨{ h with pc := .read, writeBuffer := fun _ => 0, writeBufferIndex := 0 },
    by simp [step,hpc],same_byte_left rfl rfl ?_⟩
  simp only [phaseLeft,hpc]
  omega

theorem send_step {content : Option Bytes} (hpc : h.pc = .send content) (p : ℕ) :
    ∃ h', step h (.send 0) = some h' ∧ workLeft h' p < workLeft h p := by
  refine ⟨{ h with pc := .read },by simp [step,hpc],same_byte_left rfl rfl ?_⟩
  simp [phaseLeft,hpc]

theorem lock_step (hpc : h.pc = .lock) (hf : h.holding = false) (p : ℕ) :
    ∃ h', step h .lock = some h' ∧ workLeft h' p < workLeft h p := by
  refine ⟨{ h with pc := .branch, holding := true },by simp [step,hpc,hf],same_byte_left rfl rfl ?_⟩
  simp [phaseLeft,hpc]

theorem unlock_step (hpc : h.pc = .unlock) (p : ℕ) :
    ∃ h', step h .unlock = some h' ∧ workLeft h' p < workLeft h p := by
  refine ⟨{ h with pc := .reset, holding := false },by simp [step,hpc],same_byte_left rfl rfl ?_⟩
  simp [phaseLeft,hpc]

theorem write_step (hpc : h.pc = .writeData ∨ h.pc = .writeNewline) (p : ℕ) :
    ∃ h', step h (.write true) = some h' ∧ workLeft h' p < workLeft h p := by
  rcases hpc with hpc | hpc
  · refine ⟨{ h with pc := .writeNewline },by simp [step,hpc],same_byte_left rfl rfl ?_⟩
    simp [phaseLeft,hpc]
  · refine ⟨{ h with pc := .unlock },by simp [step,hpc],same_byte_left rfl rfl ?_⟩
    simp [phaseLeft,hpc]

theorem read_step (hpc : h.pc = .read) (hi : h.i < h.bytesReceived) {out : Bytes}
    (hlen : out.length ≤ bufferSize) (hb : p + out.length ≤ contentBound ∨ out = []) :
    ∃ h', step h (.read (some out)) = some h' ∧
      workLeft h' (p + out.length) < workLeft h p := by
  cases out with
  | nil => exact ⟨h.nextByte,by simp [step,hpc],next_byte_left rfl rfl hi⟩
  | cons b out =>
    refine ⟨{ h with pc := .send (some (b :: out)) },?_,same_byte_left rfl rfl ?_⟩
    · simp only [step,hpc]
      rw [if_neg (by simp),if_pos (by simpa using hlen)]
    · have hfit := hb.resolve_right (by simp)
      rw [List.length_cons] at hfit
      simp only [phaseLeft,hpc,List.length_cons]
      omega

end Work

section Steps
variable [DecidableEq I] {s : System I} {t : I}

structure Drained (s : System I) (t : I) (l : Label I) (s' : System I) : Prop where
  who : l.who = t
  silent : l.silent
  step : sysStep s l = some s'
  answered : Answered s l
  less : workLeft (s'.clients t) (s'.fPos t) < workLeft (s.clients t) (s.fPos t)
  free : Free s' t

theorem drained_of {l : Label I} {a : Answer} {h : Handler} {owner : Option I} (hq : l.silent)
    (ha : respond s l = some a) (hok : a.event.failed = false ∧ a.event ≠ .read none)
    (ho : ownerAfter s.owner l.who a.event = some owner)
    (hs : ClientHandler.step (s.clients l.who) a.event = some h)
    (hw : workLeft h a.fPos < workLeft (s.clients l.who) (s.fPos l.who))
    (hf : owner = none ∨ owner = some l.who) : ∃ s', Drained s l.who l s' := by
  have hstep : sysStep s l = some ⟨Function.update s.clients l.who h,
      Function.update s.fPos l.who a.fPos,
      Function.update s.outgoing l.who (outgoingAfter (s.clients l.who) (s.outgoing l.who) a.event),
      owner,a.driver⟩ := by
    simp only [sysStep,ha,Option.bind_eq_bind,Option.bind_some,ho,hs]
    rfl
  refine ⟨_,rfl,hq,hstep,fun b hb => ?_,by simpa using hw,hf⟩
  rw [ha] at hb
  cases hb
  exact hok

theorem drained_own {ev : Event} {h : Handler} {owner : Option I} (hev : Event.own ev = true)
    (hq : ∀ data, ev ≠ .recv data) (ho : ownerAfter s.owner t ev = some owner)
    (hs : ClientHandler.step (s.clients t) ev = some h)
    (hw : workLeft h (s.fPos t) < workLeft (s.clients t) (s.fPos t))
    (hf : owner = none ∨ owner = some t) : ∃ l s', Drained s t l s' := by
  have ha : respond s ⟨t,.thread ev⟩ = some ⟨ev,s.fPos t,s.driver⟩ := by simp [respond,hev]
  have hok : ev.failed = false ∧ ev ≠ .read none := by
    cases ev with
    | ioctl | write | read => cases hev
    | _ => exact ⟨rfl,by simp⟩
  have hsilent : Label.silent ⟨t,.thread ev⟩ := fun data he => hq data (Act.thread.inj he)
  obtain ⟨s',hd⟩ := drained_of (l := ⟨t,.thread ev⟩) hsilent ha hok ho hs hw hf
  exact ⟨_,s',hd⟩

variable {packets : I → List Bytes}

theorem drained_tau (h : Ready packets s) (hf : Free s t)
    (hpc : (s.clients t).pc.inSection = false) {h' : Handler}
    (hs : ClientHandler.step (s.clients t) .tau = some h' ∧
      workLeft h' (s.fPos t) < workLeft (s.clients t) (s.fPos t)) : ∃ l s', Drained s t l s' := by
  have hfree : s.owner = none := h.free_at hf hpc
  exact drained_own rfl (by simp) (by rw [hfree]; rfl) hs.1 hs.2 (Or.inl rfl)

theorem Ready.own_step (h : Ready packets s) {ev : Event} {h' : Handler} {owner : Option I}
    (hev : Event.own ev = true) (hq : ∀ data, ev ≠ .recv data)
    (ho : ownerAfter s.owner t ev = some owner)
    (hs : ClientHandler.step (s.clients t) ev = some h') :
    ∃ s', Ready packets s' ∧ s'.clients t = h' := by
  have ha : respond s ⟨t,.thread ev⟩ = some ⟨ev,s.fPos t,s.driver⟩ := by simp [respond,hev]
  have hans : Answered s ⟨t,.thread ev⟩ := by
    intro a hsome
    rw [ha] at hsome
    cases hsome
    cases ev with
    | ioctl | write | read => cases hev
    | _ => exact ⟨rfl,by simp⟩
  have hstep : sysStep s ⟨t,.thread ev⟩ = some ⟨Function.update s.clients t h',
      Function.update s.fPos t (s.fPos t),
      Function.update s.outgoing t (outgoingAfter (s.clients t) (s.outgoing t) ev),
      owner,s.driver⟩ := by
    simp only [sysStep,ha,Option.bind_eq_bind,Option.bind_some,ho,hs]
    rfl
  exact ⟨_,h.next hans (fun data he => hq data (Act.thread.inj he)) hstep,by simp⟩

theorem drained_write (h : Ready packets s) (hf : Free s t)
    (hpc : (s.clients t).pc = .writeData ∨ (s.clients t).pc = .writeNewline) :
    ∃ l s', Drained s t l s' := by
  obtain ⟨held,frag,hs⟩ := h.stored
  have hwritten (buf : Bytes) : ∃ d, answerWrite s.driver (s.fPos t) calm buf =
      some ⟨.write true,s.fPos t,d⟩ := by
    have hcalm (k : ℕ) : calm.kmallocOk k = true := rfl
    obtain ⟨d,hw⟩ := granted_write hs rfl rfl hcalm buf
    exact ⟨d,by simp [answerWrite,hw]⟩
  obtain ⟨d,ha⟩ : ∃ d, respond s ⟨t,.device calm⟩ = some ⟨.write true,s.fPos t,d⟩ := by
    rcases hpc with hpc | hpc
    · obtain ⟨d,hd⟩ := hwritten (s.clients t).payload
      exact ⟨d,by simpa [respond,answer,hpc] using hd⟩
    · obtain ⟨d,hd⟩ := hwritten [newline]
      exact ⟨d,by simpa [respond,answer,hpc] using hd⟩
  obtain ⟨h',hstep,hw⟩ := write_step hpc (s.fPos t)
  obtain ⟨s',hd⟩ := drained_of (l := ⟨t,.device calm⟩) (fun _ he => by cases he) ha ⟨rfl,by simp⟩
    rfl hstep hw hf
  exact ⟨_,s',hd⟩

theorem drained_read (h : Ready packets s) (hf : Free s t) (hpc : (s.clients t).pc = .read) :
    ∃ l s', Drained s t l s' := by
  obtain ⟨L,hL⟩ := h.past.sound.driver
  obtain ⟨held,hheld,-⟩ := hL.ring
  have hcount : 0 < bufferSize := by decide
  obtain ⟨ls,hr,hok,-⟩ := h.run
  have hi := ((framed_run (client_run t hr)).newline (by rw [hpc]; rfl)).1
  have hbound := h.past.content_bound
  obtain ⟨result,hread,hout⟩ := aesd_read_spec calm hheld hcount (s.fPos t)
  obtain ⟨out,ha,hlen,hfit⟩ : ∃ out : Bytes, respond s ⟨t,.device calm⟩ =
      some ⟨.read (some out),s.fPos t + out.length,s.driver⟩ ∧ out.length ≤ bufferSize ∧
        (s.fPos t + out.length ≤ contentBound ∨ out = []) := by
    cases hout with
    | interrupted hi => cases hi
    | faulted _ hu => cases hu
    | finished => exact ⟨[],by simp [respond,answer,hpc,answerRead,hread],Nat.zero_le _,Or.inr rfl⟩
    | @delivered _ n hn hc hp =>
      have hn' : (((contentBytes s.driver).drop (s.fPos t)).take n).length = n := by
        rw [List.length_take,List.length_drop]
        omega
      refine ⟨((contentBytes s.driver).drop (s.fPos t)).take n,?_,by omega,Or.inl (by omega)⟩
      rw [hn']
      simp [respond,answer,hpc,answerRead,hread]
  obtain ⟨h',hstep,hw⟩ := read_step hpc hi hlen hfit
  obtain ⟨s',hd⟩ := drained_of (l := ⟨t,.device calm⟩) (fun _ he => by cases he) ha ⟨rfl,by simp⟩
    rfl hstep hw hf
  exact ⟨_,s',hd⟩

theorem drained (h : Ready packets s) (hf : Free s t) (hrest : ¬ atRest (s.clients t)) :
    ∃ l s', Drained s t l s' := by
  obtain ⟨hseek,hdef⟩ := h.data t
  have hnone (hq : (s.clients t).pc.inSection = false) : s.owner = none := h.free_at hf hq
  cases hpc : (s.clients t).pc with
  | recv => exact absurd (Or.inl hpc) hrest
  | exited => exact absurd (Or.inr hpc) hrest
  | undefined => exact absurd hpc hdef
  | ioctl arg => exact absurd hpc (hseek arg)
  | byte =>
    have hfree := hnone (by rw [hpc]; rfl)
    obtain ⟨h',hs⟩ := byte_step hpc (fun h' hs hund => by
      obtain ⟨s',hr,rfl⟩ := h.own_step rfl (by simp) (by rw [hfree]; rfl) hs
      exact (hr.data t).2 hund) (s.fPos t)
    exact drained_tau h hf (by rw [hpc]; rfl) hs
  | lock =>
    have hfree := hnone (by rw [hpc]; rfl)
    obtain ⟨ls,hr,hok,-⟩ := h.run
    have hholding := (client_disciplined hr hok t).free (by rw [hpc]; rfl)
    obtain ⟨h',hs,hw⟩ := lock_step hpc hholding (s.fPos t)
    exact drained_own rfl (by simp) (by rw [hfree]; rfl) hs hw (Or.inr rfl)
  | branch =>
    obtain ⟨h',hs,hw⟩ := branch_step hpc (fun h' hs arg harg => by
      obtain ⟨s',hr,rfl⟩ := h.own_step rfl (by simp) rfl hs
      exact (hr.data t).1 arg harg) (s.fPos t)
    exact drained_own rfl (by simp) rfl hs hw hf
  | writeData => exact drained_write h hf (Or.inl hpc)
  | writeNewline => exact drained_write h hf (Or.inr hpc)
  | unlock =>
    obtain ⟨h',hs,hw⟩ := unlock_step hpc (s.fPos t)
    exact drained_own rfl (by simp) rfl hs hw (Or.inl rfl)
  | reset => exact drained_tau h hf (by rw [hpc]; rfl) (reset_step hpc (s.fPos t)).choose_spec
  | read => exact drained_read h hf hpc
  | send content =>
    have hfree := hnone (by rw [hpc]; rfl)
    obtain ⟨h',hs,hw⟩ := send_step hpc (s.fPos t)
    exact drained_own rfl (by simp) (by rw [hfree]; rfl) hs hw (Or.inl rfl)

end Steps

section Runs
variable [DecidableEq I] {packets : I → List Bytes} {s s' : System I} {t u : I}

-- a client at rest stays there while nothing is received
theorem rest_kept {l : Label I} (hq : l.silent) (hs : sysStep s l = some s')
    (hr : atRest (s.clients u)) : atRest (s'.clients u) := by
  obtain ⟨a,hm⟩ := sys_step_moved hs
  by_cases hu : u = l.who
  · subst hu
    have hstep := hm.stepped
    exfalso
    generalize hev : a.event = ev at hstep
    generalize s'.clients l.who = h' at hstep
    cases step_move hstep with
    | closed | received =>
      cases respond_responds hm.answered with
      | own hact =>
        simp only at hev
        rw [hev] at hact
        exact hq _ hact
      | _ => cases hev
    | _ hpc => rcases hr with hr | hr <;> simp [hpc] at hr
  · rw [(hm.others u hu).1]
    exact hr

structure Course (s : System I) (more : List (Label I)) (s' : System I) : Prop where
  silent : ∀ l ∈ more, l.silent
  run : Runs.run sysStep s more = some s'
  answered : Runs.Along sysStep Answered s more

theorem Course.nil (s : System I) : Course s [] s := ⟨by simp,rfl,trivial⟩

theorem Course.cons {l : Label I} {m : System I} {more : List (Label I)} (hq : l.silent)
    (hs : sysStep s l = some m) (ha : Answered s l) (hc : Course m more s') :
    Course s (l :: more) s' := by
  refine ⟨List.forall_mem_cons.mpr ⟨hq,hc.silent⟩,by rw [Runs.run_next hs]; exact hc.run,ha,?_⟩
  intro m' hm'
  rw [hs] at hm'
  cases hm'
  exact hc.answered

theorem Course.append {m : System I} {xs ys : List (Label I)} (hx : Course s xs m)
    (hy : Course m ys s') : Course s (xs ++ ys) s' := by
  refine ⟨List.forall_mem_append.mpr ⟨hx.silent,hy.silent⟩,Runs.run_join hx.run hy.run,
    Runs.along_append.mpr ⟨hx.answered,fun m' hm' => ?_⟩⟩
  rw [hx.run] at hm'
  cases hm'
  exact hy.answered

theorem Course.rest {more : List (Label I)} (hc : Course s more s') (hr : atRest (s.clients u)) :
    atRest (s'.clients u) := by
  induction more generalizing s with
  | nil =>
    cases hc.run
    exact hr
  | cons l more ih =>
    obtain ⟨m,hs,hrest⟩ := Runs.run_cons hc.run
    exact ih ⟨fun x hx => hc.silent x (by simp [hx]),hrest,hc.answered.2 m hs⟩
      (rest_kept (hc.silent l (by simp)) hs hr)

theorem client_drains (h : Ready packets s) (hf : Free s t) :
    ∃ more s', Course s more s' ∧ Ready packets s' ∧ s'.owner = none ∧ atRest (s'.clients t) := by
  induction hn : workLeft (s.clients t) (s.fPos t) using Nat.strongRecOn generalizing s with
  | ind n ih =>
    by_cases hrest : atRest (s.clients t)
    · refine ⟨[],s,.nil s,h,h.free_at hf ?_,hrest⟩
      rcases hrest with hr | hr <;> rw [hr] <;> rfl
    · obtain ⟨l,m,hd⟩ := drained h hf hrest
      have hready := h.next hd.answered hd.silent hd.step
      obtain ⟨more,s',hc,hr,hfree,hrest'⟩ := ih _ (hn ▸ hd.less) hready hd.free rfl
      exact ⟨l :: more,s',hc.cons hd.silent hd.step hd.answered,hr,hfree,hrest'⟩

theorem clients_drain (ts : List I) (h : Ready packets s) (hf : s.owner = none) :
    ∃ more s', Course s more s' ∧ Ready packets s' ∧ s'.owner = none ∧
      ∀ t ∈ ts, atRest (s'.clients t) := by
  induction ts generalizing s with
  | nil => exact ⟨[],s,.nil s,h,hf,by simp⟩
  | cons t ts ih =>
    obtain ⟨first,m,hc,hm,hfree,hrest⟩ := client_drains (t := t) h (Or.inl hf)
    obtain ⟨more,s',hc',hr,hfree',hall⟩ := ih hm hfree
    exact ⟨first ++ more,s',hc.append hc',hr,hfree',
      List.forall_mem_cons.mpr ⟨hc'.rest hrest,hall⟩⟩

-- wherever the handlers stand, they can be run on until each has served what it received and waits
-- for more with file_mutex free: none of them waits for another for ever
theorem server_drains [Fintype I] {ls : List (Label I)}
    (hr : Runs.run sysStep (start aesdInitModule) ls = some s)
    (hok : Runs.Along sysStep Answered (start aesdInitModule) ls)
    (hp : ∀ t, DataPackets (packets t))
    (hs : ∀ t, received (eventsOf aesdInitModule t ls) <+: stream (packets t)) :
    ∃ more s', Course s more s' ∧ s'.owner = none ∧ ∀ t, atRest (s'.clients t) := by
  have hready : Ready packets s := ⟨⟨ls,hr,hok,hs⟩,hp⟩
  obtain ⟨first,m,hc,hm,hfree⟩ : ∃ first m, Course s first m ∧ Ready packets m ∧ m.owner = none := by
    cases ho : s.owner with
    | none => exact ⟨[],s,.nil s,hready,ho⟩
    | some u =>
      obtain ⟨first,m,hc,hm,hfree,-⟩ := client_drains (t := u) hready (Or.inr ho)
      exact ⟨first,m,hc,hm,hfree⟩
  obtain ⟨more,s',hc',-,hfree',hall⟩ := clients_drain Finset.univ.toList hm hfree
  exact ⟨first ++ more,s',hc.append hc',hfree',fun t => hall t (Finset.mem_toList.mpr (Finset.mem_univ t))⟩

end Runs

theorem server_drains_two_clients :
    ∃ s, Runs.run sysStep (start aesdInitModule) (twoClients.take 9) = some s ∧
      s.owner = some true ∧ ∃ more s', Course s more s' ∧ s'.owner = none ∧
        ∀ t, atRest (s'.clients t) := by
  obtain ⟨s,hs,howner⟩ := Option.map_eq_some_iff.mp (show (Runs.checkedRun sysStep answeredCheck
    (start aesdInitModule) (twoClients.take 9)).map System.owner = some (some true) by decide)
  obtain ⟨hr,ha⟩ := Runs.checked_run hs
  have hp (t : Bool) : DataPackets (oneEach t) := (one_each t).1
  have hin (t : Bool) : received (eventsOf aesdInitModule t (twoClients.take 9)) <+:
      stream (oneEach t) := by
    cases t <;> decide
  exact ⟨s,hr,howner,server_drains hr (ha.mono fun _ _ => answered_of_check) hp hin⟩

end AesdServer
