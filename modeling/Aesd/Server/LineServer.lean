import Aesd.CharDriver.OpenFiles
import Aesd.Server.Positions
import Aesd.Server.Traffic

namespace AesdServer
open Kernel Device ClientHandler Delimited

-- what the server is for: one log of lines that all clients append to, and for each client a position
-- from which its requests are answered
structure LineServer (I : Type) where
  written : Bytes
  position : I → ℕ
  waiting : I → Bool

inductive Request (I : Type) where
  | append (t : I) (packet : Bytes)
  | seek (t : I) (arg : AesdSeekto)
  | answer (t : I)

namespace LineServer
variable {I : Type}

def empty : LineServer I := ⟨[],fun _ => 0,fun _ => false⟩

def content (σ : LineServer I) : Bytes := ((pieces newline σ.written).rtake 10).flatten

variable [DecidableEq I]

def await (σ : LineServer I) (t : I) (b : Bool) : LineServer I :=
  { σ with waiting := Function.update σ.waiting t b }

def moveTo (σ : LineServer I) (t : I) (p : ℕ) : LineServer I :=
  { σ with position := Function.update σ.position t p }

-- each request is one step, and so is each answer
def step (σ : LineServer I) : Request I → Option (LineServer I)
  | .append t packet =>
      if σ.waiting t then none
      else some ({ σ with written := σ.written ++ packet ++ [newline] }.await t true)
  | .seek t arg =>
      if σ.waiting t then none
      else (seekPosition σ.written arg.writeCmd.toNat arg.writeCmdOffset.toNat).map fun p =>
        (σ.moveTo t p).await t true
  | .answer t =>
      if σ.waiting t then some ((σ.moveTo t (max (σ.position t) σ.content.length)).await t false)
      else none

def sent (σ : LineServer I) : Request I → List (I × Bytes)
  | .answer t => [(t,σ.content.drop (σ.position t))]
  | _ => []

end LineServer

variable {I : Type}

def requestOf (h : Handler) (t : I) : Event → List (Request I)
  | .ioctl _ => match h.pc with
      | .ioctl arg => [.seek t arg]
      | _ => []
  | .write _ => if h.pc = .writeNewline then [.append t h.payload] else []
  | .read (some []) => [.answer t]
  | _ => []

-- a packet takes effect with its last device call, and is answered by the read that finds no more
def shown (s : System I) (l : Label I) : List (Request I) :=
  (respond s l).toList.flatMap fun a => requestOf (s.clients l.who) l.who a.event

def answered [DecidableEq I] (s : System I) (l : Label I) : List (I × Bytes) :=
  (replyOf l.who s l).map fun r => (l.who,r.1)

inductive Served (σ : LineServer I) (s : System I) (t : I) : Prop
  | idle (hpc : (s.clients t).pc.replying = false) (hu : (s.clients t).pc ≠ .unlock)
      (hw : σ.waiting t = false) (hf : s.fPos t = σ.position t)
  | placed (hpc : (s.clients t).pc = .unlock) (hw : σ.waiting t = true)
      (hf : s.fPos t = σ.position t)
  | replying (hr : Replying (σ.position t) s t) (hw : σ.waiting t = true)

structure Represents (s : System I) (σ : LineServer I) : Prop where
  stream : TurnsStream s.driver (σ.written ++ partialPacket s)
  clients : ∀ t, Served σ s t

section Represented
variable {s s' : System I} {l : Label I} {a : Answer} {σ σ' : LineServer I} {t : I}

theorem pieces_unfinished (w : Bytes) {p : Bytes} (h : newline ∉ p) :
    pieces newline (w ++ p) = pieces newline w := by
  have hnone : newline ∉ residue newline w ++ p := by simp [not_mem_residue,h]
  rw [pieces_append,pieces_of_not_mem hnone,List.append_nil]

theorem Represents.content (h : Represents s σ) (hline : newline ∉ partialPacket s) :
    contentBytes s.driver = σ.content := by
  rw [h.stream.contents,pieces_unfinished _ hline]
  rfl

variable [DecidableEq I]

theorem Served.other (h : Served σ s t) (ht : t ≠ l.who) (hd : ∃ L, Shows s.driver L)
    (hans : Answered s l) (hu : Uncut s l) (hs : sysStep s l = some s')
    (hp : σ'.position t = σ.position t) (hw : σ'.waiting t = σ.waiting t) : Served σ' s' t := by
  obtain ⟨a,hm⟩ := sys_step_moved hs
  obtain ⟨hc,hf,-⟩ := hm.others t ht
  cases h with
  | idle hpc hu hn hfp => exact .idle (hc ▸ hpc) (hc ▸ hu) (hw.trans hn) (hf.trans (hfp.trans hp.symm))
  | placed hpc hn hfp => exact .placed (hc ▸ hpc) (hw.trans hn) (hf.trans (hfp.trans hp.symm))
  | replying hr hn => exact .replying (hp ▸ hr.other ht hd hans hu hs) (hw.trans hn)

theorem Represents.next (h : Represents s σ) (hd : ∃ L, Shows s.driver L) (hans : Answered s l)
    (hu : Uncut s l) (hs : sysStep s l = some s')
    (hstream : TurnsStream s'.driver (σ'.written ++ partialPacket s')) (hown : Served σ' s' l.who)
    (hother : ∀ t, t ≠ l.who → σ'.position t = σ.position t ∧ σ'.waiting t = σ.waiting t) :
    Represents s' σ' := by
  refine ⟨hstream,fun t => ?_⟩
  by_cases ht : t = l.who
  · subst ht
    exact hown
  · obtain ⟨hp,hw⟩ := hother t ht
    exact (h.clients t).other ht hd hans hu hs hp hw

theorem own_event_unlocked {h h' : Handler} {ev : Event} (hs : step h ev = some h')
    (ho : Event.own ev = true) : h'.pc ≠ .unlock := by
  cases step_move hs with
  | sought | seekFailed | wroteData | dataFailed | wroteNewline | newlineFailed | finished
  | fetched => cases ho
  | _ => simp

omit [DecidableEq I] in
theorem own_event_answers {ev : Event} (ho : Event.own ev = true) :
    ev.answers = 0 ∧ ∀ (h : Handler) (t : I), requestOf h t ev = [] := by
  cases ev with
  | ioctl | write | read => cases ho
  | _ => exact ⟨rfl,fun _ _ => rfl⟩

theorem Served.own (h : Served σ s l.who) (hm : Moved s l s' a) (hd : ∃ L, Shows s.driver L)
    (hok : Succeeds s l) (hs : sysStep s l = some s') (ho : Event.own a.event = true)
    (hf : s'.fPos l.who = s.fPos l.who) : Served σ s' l.who := by
  have hstep := hm.stepped
  cases h with
  | idle hpc hu hw hfp =>
    exact .idle (quiet_move hstep hpc hu).1 (own_event_unlocked hstep ho) hw (hf.trans hfp)
  | placed hpc hw hfp => exact .replying (hfp ▸ (hm.unlocked hpc).2) hw
  | replying hr hw =>
    have hseek (arg : AesdSeekto) : (s.clients l.who).pc ≠ .ioctl arg := fun he => by
      have hq := hr.replying
      simp [he,Pc.replying] at hq
    have hmove := reply_move hd hseek hok hs
    rcases hr.move hmove (replying_move hstep hr.replying).2 with ⟨-,hr'⟩ | ⟨hone,-⟩
    · exact .replying hr' hw
    · rw [hm.reply,(own_event_answers (I := I) ho).1] at hone
      cases hone

end Represented

section Soundness
variable {s s' : System I} {l : Label I} {a : Answer} {σ : LineServer I}

structure Sound (s : System I) : Prop where
  mutex : ∀ t, s.owner = some t ↔ (s.clients t).holding = true
  sections : ∀ t, (s.clients t).pc.inSection = true → (s.clients t).holding = true
  lines : ∀ t, newline ∉ (s.clients t).payload
  driver : ∃ L, Shows s.driver L

theorem Sound.held (h : Sound s) {t : I} (hpc : (s.clients t).pc.inSection = true) :
    s.owner = some t := (h.mutex t).mpr (h.sections t hpc)

theorem Sound.partial_line (h : Sound s) : newline ∉ partialPacket s := by
  unfold partialPacket
  cases s.owner with
  | none => simp
  | some t =>
    simp only
    split
    · exact h.lines t
    · simp

variable [DecidableEq I]

theorem sound_run {ls : List (Label I)} (hr : Runs.run sysStep (start aesdInitModule) ls = some s)
    (hok : Runs.Along sysStep Answered (start aesdInitModule) ls) : Sound s where
  mutex := mutex_held hr hok
  sections := fun t => (client_disciplined hr hok t).owned
  lines := fun t => payload_line (client_run t hr)
  driver := driver_shown (reachable_shown (Runs.Reachable.refl _)) hr

theorem Sound.partial_kept (h : Sound s) (hm : Moved s l s' a) (hw : ∀ ok, a.event ≠ .write ok) :
    partialPacket s' = partialPacket s :=
  AesdServer.partial_kept hm hw h.mutex fun hpc => h.sections _ (by rw [hpc]; rfl)

theorem moved_unrequested (hm : Moved s l s' a) (hn : a.event.answers = 0)
    (hq : requestOf (s.clients l.who) l.who a.event = []) (hr : Represents s' σ) :
    ∃ σ', Runs.run LineServer.step σ (shown s l) = some σ' ∧
      Runs.outputs LineServer.step LineServer.sent σ (shown s l) = answered s l ∧
      Represents s' σ' := by
  have hnone : shown s l = [] := by simp [shown,hm.answered,hq]
  refine ⟨σ,by rw [hnone]; rfl,?_,hr⟩
  rw [hnone,answered,hm.reply,hn]
  rfl

theorem moved_requested (hm : Moved s l s' a) (hn : a.event.answers = 0) {r : Request I}
    {σ' : LineServer I} (hq : requestOf (s.clients l.who) l.who a.event = [r])
    (hs : σ.step r = some σ') (hsent : σ.sent r = []) (hr : Represents s' σ') :
    ∃ σ', Runs.run LineServer.step σ (shown s l) = some σ' ∧
      Runs.outputs LineServer.step LineServer.sent σ (shown s l) = answered s l ∧
      Represents s' σ' := by
  have hone : shown s l = [r] := by simp [shown,hm.answered,hq]
  refine ⟨σ',by rw [hone]; exact Runs.run_step hs,?_,hr⟩
  rw [hone,Runs.outputs_cons hs,hsent,answered,hm.reply,hn]
  rfl

theorem Represents.own (h : Represents s σ) (hs : Sound s) (hok : Succeeds s l) (hu : Uncut s l)
    (hstep : sysStep s l = some s') (hm : Moved s l s' a) (ho : Event.own a.event = true)
    (hd : s'.driver = s.driver) (hf : s'.fPos l.who = s.fPos l.who) : Represents s' σ := by
  have hw (ok : Bool) : a.event ≠ .write ok := by
    intro he
    rw [he] at ho
    cases ho
  refine h.next hs.driver hok.answered hu hstep ?_
    ((h.clients l.who).own hm hs.driver hok hstep ho hf) fun _ _ => ⟨rfl,rfl⟩
  rw [hd,hs.partial_kept hm hw]
  exact h.stream

omit [DecidableEq I] in
theorem Served.idle_at (h : Served σ s l.who) (hq : (s.clients l.who).pc.replying = false)
    (hu : (s.clients l.who).pc ≠ .unlock) :
    σ.waiting l.who = false ∧ s.fPos l.who = σ.position l.who := by
  cases h with
  | idle _ _ hw hf => exact ⟨hw,hf⟩
  | placed hpc => exact absurd hpc hu
  | replying hr =>
    rw [hr.replying] at hq
    cases hq

theorem Represents.wrote_data (h : Represents s σ) (hs : Sound s) (hok : Succeeds s l)
    (hu : Uncut s l) (hstep : sysStep s l = some s') (hm : Moved s l s' a) {env : CallEnv}
    (hpc : (s.clients l.who).pc = .writeData) {r : ℤ} {d : Driver}
    (hw : aesdWrite env s.driver (s.clients l.who).payload = .ok (r,d)) (hr : 0 ≤ r)
    (hev : a.event = .write true) (hd : s'.driver = d) (hf : s'.fPos l.who = s.fPos l.who) :
    Represents s' σ := by
  obtain ⟨hwait,hpos⟩ := (h.clients l.who).idle_at (by rw [hpc]; rfl) (by simp [hpc])
  have hheld : s.owner = some l.who := hs.held (by rw [hpc]; rfl)
  have howner : s'.owner = some l.who := by
    have hown := hm.owner
    rw [hev] at hown
    exact (Option.some.inj hown).symm.trans hheld
  have hnext : s'.clients l.who = { s.clients l.who with pc := .writeNewline } := by
    have hmove := hm.stepped
    rw [hev] at hmove
    simpa [ClientHandler.step,hpc] using hmove.symm
  have hbefore : partialPacket s = [] := by simp [partialPacket,hheld,hpc]
  have hafter : partialPacket s' = (s.clients l.who).payload := by
    simp [partialPacket,howner,hnext,Handler.payload]
  have hstream := h.stream
  rw [hbefore,List.append_nil] at hstream
  have hone : (s.clients l.who).payload.count newline ≤ 1 := by
    rw [List.count_eq_zero_of_not_mem (hs.lines l.who)]
    omega
  refine h.next hs.driver hok.answered hu hstep ?_ ?_ fun _ _ => ⟨rfl,rfl⟩
  · rw [hd,hafter]
    exact hstream.write hone hw hr
  · exact .idle (by rw [hnext]; rfl) (by simp [hnext]) hwait (hf.trans hpos)

theorem Represents.wrote_newline (h : Represents s σ) (hs : Sound s) (hok : Succeeds s l)
    (hu : Uncut s l) (hstep : sysStep s l = some s') (hm : Moved s l s' a) {env : CallEnv}
    (hpc : (s.clients l.who).pc = .writeNewline) {r : ℤ} {d : Driver}
    (hw : aesdWrite env s.driver [newline] = .ok (r,d)) (hr : 0 ≤ r)
    (hev : a.event = .write true) (hd : s'.driver = d) (hf : s'.fPos l.who = s.fPos l.who) :
    ∃ σ', σ.step (.append l.who (s.clients l.who).payload) = some σ' ∧ Represents s' σ' := by
  obtain ⟨hwait,hpos⟩ := (h.clients l.who).idle_at (by rw [hpc]; rfl) (by simp [hpc])
  have hheld : s.owner = some l.who := hs.held (by rw [hpc]; rfl)
  have howner : s'.owner = some l.who := by
    have hown := hm.owner
    rw [hev] at hown
    exact (Option.some.inj hown).symm.trans hheld
  have hnext : s'.clients l.who = { s.clients l.who with pc := .unlock } := by
    have hmove := hm.stepped
    rw [hev] at hmove
    simpa [ClientHandler.step,hpc] using hmove.symm
  have hbefore : partialPacket s = (s.clients l.who).payload := by
    simp [partialPacket,hheld,hpc]
  have hafter : partialPacket s' = [] := by simp [partialPacket,howner,hnext]
  have hstream := h.stream
  rw [hbefore] at hstream
  refine ⟨_,by simp only [LineServer.step,hwait]; rfl,h.next hs.driver hok.answered hu hstep ?_ ?_ ?_⟩
  · rw [hd,hafter,List.append_nil]
    exact hstream.write (by simp) hw hr
  · exact .placed (by rw [hnext]) (by simp [LineServer.await]) (hf.trans hpos)
  · intro t ht
    exact ⟨rfl,by simp [LineServer.await,ht]⟩

theorem Represents.sought (h : Represents s σ) (hs : Sound s) (hok : Succeeds s l)
    (hu : Uncut s l) (hstep : sysStep s l = some s') (hm : Moved s l s' a) {env : CallEnv}
    {arg : AesdSeekto} (hpc : (s.clients l.who).pc = .ioctl arg) {p : ℕ}
    (hr : aesdUnlockedIoctl env s.driver (s.fPos l.who) aesdcharIocseekto arg = (0,p))
    (hev : a.event = .ioctl true) (hd : s'.driver = s.driver) (hf : s'.fPos l.who = p) :
    ∃ σ', σ.step (.seek l.who arg) = some σ' ∧ Represents s' σ' := by
  obtain ⟨hwait,-⟩ := (h.clients l.who).idle_at (by rw [hpc]; rfl) (by simp [hpc])
  have hheld : s.owner = some l.who := hs.held (by rw [hpc]; rfl)
  have hpart : partialPacket s = [] := by simp [partialPacket,hheld,hpc]
  have hpart' := hs.partial_kept hm (by simp [hev])
  have hnext : (s'.clients l.who).pc = .unlock := by
    have hmove := hm.stepped
    rw [hev] at hmove
    simp only [ClientHandler.step,hpc,if_true,Option.some.injEq] at hmove
    rw [← hmove]
  have hstream := h.stream
  rw [hpart,List.append_nil] at hstream
  have huncopied : env.uncopied = false := by
    by_contra hno
    rw [Bool.not_eq_false] at hno
    simp [aesdUnlockedIoctl,hno,efault] at hr
  rw [hstream.seek huncopied] at hr
  cases hq : seekPosition σ.written arg.writeCmd.toNat arg.writeCmdOffset.toNat with
  | none => simp [hq,einval] at hr
  | some q =>
    obtain rfl : q = p := by simpa [hq] using hr
    refine ⟨_,by simp only [LineServer.step,hwait,hq]; rfl,
      h.next hs.driver hok.answered hu hstep ?_ ?_ ?_⟩
    · rw [hd,hpart',hpart,List.append_nil]
      exact hstream
    · exact .placed hnext (by simp [LineServer.await]) (by simp [LineServer.await,LineServer.moveTo,hf])
    · intro t ht
      exact ⟨by simp [LineServer.await,LineServer.moveTo,ht],by simp [LineServer.await,LineServer.moveTo,ht]⟩

-- the read that finds no more is the answer, the others are not seen
theorem Represents.read (h : Represents s σ) (hs : Sound s) (hok : Succeeds s l)
    (hu : Uncut s l) (hstep : sysStep s l = some s') (hm : Moved s l s' a)
    (hpc : (s.clients l.who).pc = .read) {out : Bytes} (hev : a.event = .read (some out))
    (hd : s'.driver = s.driver) :
    ∃ σ', Runs.run LineServer.step σ (shown s l) = some σ' ∧
      Runs.outputs LineServer.step LineServer.sent σ (shown s l) = answered s l ∧
      Represents s' σ' := by
  have hpart := hs.partial_kept hm (by simp [hev])
  have hstream : TurnsStream s'.driver (σ.written ++ partialPacket s') := by
    rw [hd,hpart]
    exact h.stream
  have hcontent := h.content hs.partial_line
  cases h.clients l.who with
  | idle hq => simp [hpc,Pc.replying] at hq
  | placed hq => simp [hpc] at hq
  | replying hr hwait =>
    have hmove := reply_move hs.driver (by simp [hpc]) hok hstep
    rcases hr.move hmove (replying_move hm.stepped hr.replying).2 with ⟨hnone,hr'⟩ | ⟨hone,hpc',hf⟩
    · rw [hm.reply] at hnone
      have hzero : a.event.answers = 0 := by simpa using hnone
      refine moved_unrequested hm hzero ?_ (h.next hs.driver hok.answered hu hstep hstream
        (.replying hr' hwait) fun _ _ => ⟨rfl,rfl⟩)
      rw [hev] at hzero ⊢
      cases out with
      | nil => cases hzero
      | cons => rfl
    · have hnil : out = [] := by
        rw [hm.reply,hev] at hone
        cases out with
        | nil => rfl
        | cons => cases hone
      have hseen : shown s l = [.answer l.who] := by
        simp [shown,hm.answered,hev,hnil,requestOf]
      have hnext : σ.step (.answer l.who) = some
          ((σ.moveTo l.who (max (σ.position l.who) σ.content.length)).await l.who false) := by
        simp [LineServer.step,hwait]
      refine ⟨(σ.moveTo l.who (max (σ.position l.who) σ.content.length)).await l.who false,
        by rw [hseen]; exact Runs.run_step hnext,?_,h.next hs.driver hok.answered hu hstep hstream ?_ fun t ht => ?_⟩
      · rw [hseen,Runs.outputs_cons hnext,answered,hone,hcontent]
        rfl
      · refine .idle (by rw [hpc']; rfl) (by simp [hpc']) (by simp [LineServer.await]) ?_
        rw [hf,hcontent]
        simp [LineServer.await,LineServer.moveTo]
      · exact ⟨by simp [LineServer.await,LineServer.moveTo,ht],
          by simp [LineServer.await,LineServer.moveTo,ht]⟩

theorem represented_step (h : Represents s σ) (hs : Sound s) (hok : Succeeds s l) (hu : Uncut s l)
    (hstep : sysStep s l = some s') :
    ∃ σ', Runs.run LineServer.step σ (shown s l) = some σ' ∧
      Runs.outputs LineServer.step LineServer.sent σ (shown s l) = answered s l ∧
      Represents s' σ' := by
  obtain ⟨a,hm⟩ := sys_step_moved hstep
  have hans := hok.answered a hm.answered
  have hdriver := hm.driver
  have hfPos := hm.fPos
  cases respond_responds hm.answered with
  | @own ev _ ho =>
    obtain ⟨hn,hq⟩ := own_event_answers (I := I) ho
    exact moved_unrequested hm hn (hq _ _) (h.own hs hok hu hstep hm ho hdriver hfPos)
  | @sought env _ arg hpc r p hr =>
    obtain rfl : r = 0 := by simpa [Event.failed] using hans.1
    obtain ⟨σ',hσ,hrep⟩ := h.sought hs hok hu hstep hm hpc hr rfl hdriver hfPos
    exact moved_requested hm rfl (by simp [requestOf,hpc]) hσ rfl hrep
  | @wroteData env _ hpc r d hw =>
    have hr : 0 ≤ r := by simpa [Event.failed] using hans.1
    refine moved_unrequested hm rfl (by simp [requestOf,hpc]) ?_
    exact h.wrote_data hs hok hu hstep hm hpc hw hr (by simp [hr]) hdriver hfPos
  | @wroteNewline env _ hpc r d hw =>
    have hr : 0 ≤ r := by simpa [Event.failed] using hans.1
    obtain ⟨σ',hσ,hrep⟩ := h.wrote_newline hs hok hu hstep hm hpc hw hr (by simp [hr]) hdriver hfPos
    exact moved_requested hm rfl (by simp [requestOf,hpc]) hσ rfl hrep
  | @read env _ hpc r out p hread =>
    have hr : 0 ≤ r := by
      by_contra hneg
      exact hans.2 (by rw [if_neg hneg])
    exact h.read hs hok hu hstep hm hpc (by rw [if_pos hr]) hdriver

omit [DecidableEq I] in
theorem represents_start : Represents (start aesdInitModule) (LineServer.empty : LineServer I) :=
  ⟨turns_stream_init,fun _ => .idle rfl (by simp [start,init]) rfl rfl⟩

structure Past (s : System I) : Prop where
  run : ∃ ls, Runs.run sysStep (start aesdInitModule) ls = some s ∧
    Runs.Along sysStep Answered (start aesdInitModule) ls

theorem past_start : Past (start aesdInitModule : System I) := ⟨[],rfl,trivial⟩

theorem Past.sound (h : Past s) : Sound s := by
  obtain ⟨ls,hr,hok⟩ := h.run
  exact sound_run hr hok

theorem Past.next (h : Past s) (hl : Answered s l) (hs : sysStep s l = some s') : Past s' := by
  obtain ⟨ls,hr,hok⟩ := h.run
  exact ⟨ls ++ [l],Runs.run_join hr (Runs.run_step hs),(Runs.along_snoc_iff hr).mpr ⟨hok,hl⟩⟩

-- however the handlers of any number of clients are interleaved, the server takes a run of the line
-- server, and each client is sent what it is sent there
theorem server_refines {ls : List (Label I)}
    (hr : Runs.run sysStep (start aesdInitModule) ls = some s)
    (hok : Runs.Along sysStep (fun m l => Succeeds m l ∧ Uncut m l) (start aesdInitModule) ls) :
    ∃ σ, Runs.run LineServer.step LineServer.empty
        (Runs.outputs sysStep shown (start aesdInitModule) ls) = some σ ∧
      Runs.outputs LineServer.step LineServer.sent LineServer.empty
          (Runs.outputs sysStep shown (start aesdInitModule) ls) =
        Runs.outputs sysStep answered (start aesdInitModule) ls ∧ Represents s σ := by
  have hsim : ∀ (m : System I) (τ : LineServer I) (l : Label I) (m' : System I),
      (Represents m τ ∧ Past m) → Succeeds m l ∧ Uncut m l → sysStep m l = some m' →
      ∃ τ', Runs.run LineServer.step τ (shown m l) = some τ' ∧
        Runs.outputs LineServer.step LineServer.sent τ (shown m l) = answered m l ∧
        Represents m' τ' ∧ Past m' := by
    rintro m τ l m' ⟨hrep,hpast⟩ ⟨hl,hu⟩ hs
    obtain ⟨τ',hrun,hout,hrep'⟩ := represented_step hrep hpast.sound hl hu hs
    exact ⟨τ',hrun,hout,hrep',hpast.next hl.answered hs⟩
  obtain ⟨σ,hrun,hout,hrep,-⟩ := Runs.projected_run hsim ⟨represents_start,past_start⟩ hok hr
  exact ⟨σ,hrun,hout,hrep⟩

end Soundness

theorem server_refines_with_seek :
    ∃ s σ, Runs.run sysStep (start aesdInitModule) dataThenSeek = some s ∧
      Runs.run LineServer.step LineServer.empty
        (Runs.outputs sysStep shown (start aesdInitModule) dataThenSeek) = some σ ∧
      Runs.outputs LineServer.step LineServer.sent LineServer.empty
        (Runs.outputs sysStep shown (start aesdInitModule) dataThenSeek) =
          [((),[97,10]),((),[10])] ∧ Represents s σ := by
  obtain ⟨s,hs⟩ := Option.isSome_iff_exists.mp (show (Runs.checkedRun sysStep uncutCheck
    (start aesdInitModule) dataThenSeek).isSome by decide)
  obtain ⟨hr,hc⟩ := Runs.checked_run hs
  obtain ⟨σ,hσ,hout,hrep⟩ := server_refines hr (hc.mono fun _ _ => succeeds_uncut)
  exact ⟨s,σ,hr,hσ,hout.trans (by decide),hrep⟩

end AesdServer
