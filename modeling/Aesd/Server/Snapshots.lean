import Aesd.Server.Responses
import Mathlib.Data.Fintype.Basic

namespace AesdServer
open Kernel Device ClientHandler Delimited

variable {I : Type}

def written (s : System I) (l : Label I) : Option Bytes :=
  match l.act,(s.clients l.who).pc with
  | .device _,.writeData => some (s.clients l.who).payload
  | .device _,.writeNewline => some [newline]
  | _,_ => none

-- no entry is evicted while another client is between two reads of its response
def Undisturbed (s : System I) (l : Label I) : Prop :=
  ∀ buf ∈ written s l, Evicting s.driver buf →
    ∀ u, u ≠ l.who → (s.clients u).pc.responding = true → s.fPos u = 0

instance [DecidableEq I] [Fintype I] (s : System I) (l : Label I) : Decidable (Undisturbed s l) :=
  inferInstanceAs (Decidable (∀ buf ∈ written s l, _))

variable [DecidableEq I]

-- each response is the content of the device in one state since its packet was committed
def Snapshots (d : Driver) (ls : List (Label I)) : Prop :=
  ∀ done l, done ++ [l] <+: ls → ∀ m, Runs.run sysStep (start d) done = some m →
    ∀ r ∈ replyOf l.who m l, ∃ mid m', mid <+: done ∧ Runs.run sysStep (start d) mid = some m' ∧
      (m'.clients l.who).pc.committed = true ∧ r.1 = contentBytes m'.driver

section Interference
variable {d : Driver} {s s' : System I} {l : Label I} {ls : List (Label I)} {t : I}
  {packets : I → List Bytes}

theorem driver_growth (hd : ∃ L, Shows s.driver L) (hans : Answered s l)
    (hs : sysStep s l = some s') : contentBytes s.driver <+: contentBytes s'.driver ∨
      ∃ buf ∈ written s l, Evicting s.driver buf := by
  obtain ⟨a,hm⟩ := sys_step_moved hs
  obtain ⟨L,hL⟩ := hd
  have hok := (hans a hm.answered).1
  rw [hm.driver]
  cases respond_responds hm.answered with
  | own | sought | read => exact Or.inl (List.prefix_refl _)
  | @wroteData _ hact hpc r _ hw =>
    have hr : 0 ≤ r := by simpa [Event.failed] using hok
    refine or_iff_not_imp_right.mpr fun hno => write_extends hL hw hr fun he => hno ⟨_,?_,he⟩
    simp [written,hact,hpc]
  | @wroteNewline _ hact hpc r _ hw =>
    have hr : 0 ≤ r := by simpa [Event.failed] using hok
    refine or_iff_not_imp_right.mpr fun hno => write_extends hL hw hr fun he => hno ⟨_,?_,he⟩
    simp [written,hact,hpc]

theorem FirstReply.other (hf : FirstReply s t) (ht : t ≠ l.who) (hd : ∃ L, Shows s.driver L)
    (hans : Answered s l) (hu : Undisturbed s l) (hs : sysStep s l = some s') :
    FirstReply s' t := by
  obtain ⟨a,hm⟩ := sys_step_moved hs
  obtain ⟨hc,hp,ho⟩ := hm.others t ht
  refine ⟨by rw [hc,hp]; exact hf.waiting,by rw [hc,ho]; exact hf.emptied,?_⟩
  rw [hc,hp,ho]
  intro hr
  obtain ⟨htaken,hle⟩ := hf.sending hr
  rcases driver_growth hd hans hs with ⟨more,hmore⟩ | ⟨buf,hbuf,he⟩
  · rw [htaken,← hmore,List.take_append_of_le_length hle,List.length_append]
    exact ⟨rfl,by omega⟩
  · have hzero := hu buf hbuf he t ht hr
    rw [hzero] at htaken ⊢
    exact ⟨by simpa using htaken,Nat.zero_le _⟩

omit [DecidableEq I] in
theorem first_reply_start (d : Driver) (t : I) : FirstReply (start d) t :=
  ⟨fun _ => rfl,fun _ => rfl,by simp [start,init,Pc.responding]⟩

theorem first_replies (hd : ∃ L, Shows d L) (hr : Runs.run sysStep (start d) ls = some s)
    (hok : Runs.Along sysStep Succeeds (start d) ls)
    (hu : Runs.Along sysStep Undisturbed (start d) ls) (hp : ∀ t, DataPackets (packets t))
    (hs : ∀ t, received (eventsOf d t ls) <+: stream (packets t)) :
    ∀ t, replies d t ls = [] → FirstReply s t := by
  induction ls using List.reverseRecOn generalizing s with
  | nil =>
    cases hr
    exact fun t _ => first_reply_start d t
  | append_singleton ls l ih =>
    intro t hnone
    obtain ⟨m,hm,hstep⟩ := Runs.run_snoc hr
    obtain ⟨hok',hl⟩ := Runs.along_snoc hm hok
    obtain ⟨hu',hul⟩ := Runs.along_snoc hm hu
    have hpre (t : I) := (received_mono t hm).trans (hs t)
    rw [replies_snoc hm hstep,List.append_eq_nil_iff] at hnone
    have hfirst := ih hm hok' hu' hpre t hnone.1
    have hshown := driver_shown hd hm
    by_cases ht : t = l.who
    · subst ht
      have hrun := client_data_run hm (hok'.mono fun _ _ h => h.answered) (hp l.who) (hpre l.who)
      have hmove := reply_move hshown hrun.noSeek hl hstep
      rw [hnone.2] at hmove
      exact hfirst.move hmove
    · exact hfirst.other ht hshown hl.answered hul hstep

theorem unanswered (hr : Runs.run sysStep (start d) ls = some s)
    (hok : Runs.Along sysStep Answered (start d) ls) (hp : DataPackets (packets t))
    (hone : (packets t).length ≤ 1) (hs : received (eventsOf d t ls) <+: stream (packets t))
    (hpc : (s.clients t).pc.atPacket = true) : replies d t ls = [] := by
  have hat := packet_at hp (framed_run (client_run t hr)) hs hpc
  have hlt := (List.getElem?_eq_some_iff.mp hat).1
  rw [← List.length_eq_zero_iff,replies_length hr hok]
  omega

end Interference

theorem snapshots_of_undisturbed {d : Driver} {ls : List (Label I)} {s : System I}
    {packets : I → List Bytes} (hd : Runs.Reachable writeStep aesdInitModule d)
    (hr : Runs.run sysStep (start d) ls = some s)
    (hok : Runs.Along sysStep Succeeds (start d) ls) (hp : ∀ t, DataPackets (packets t))
    (hone : ∀ t, (packets t).length ≤ 1)
    (hs : ∀ t, received (eventsOf d t ls) <+: stream (packets t))
    (hu : Runs.Along sysStep Undisturbed (start d) ls) : Snapshots d ls := by
  rintro done l ⟨rest,rfl⟩ m hm r hreply
  rw [List.append_assoc] at hr hok hs hu
  have hok' := (Runs.along_append.mp hok).1
  have hu' := (Runs.along_append.mp hu).1
  have hpre (t : I) := (received_mono t hm).trans (hs t)
  obtain ⟨m',hm',hrest⟩ := Runs.run_split hr
  rw [hm] at hm'
  cases hm'
  obtain ⟨next,hstep,-⟩ := Runs.run_cons hrest
  have hl : Succeeds m l := ((Runs.along_append.mp hok).2 m hm).1
  have hans := hok'.mono fun _ _ h => h.answered
  have hrun := client_data_run hm hans (hp l.who) (hpre l.who)
  have hmove := reply_move (driver_shown (reachable_shown hd) hm) hrun.noSeek hl hstep
  rcases hmove.replied with hnone | hsome
  · rw [hnone] at hreply
    cases hreply
  · rw [hsome,List.mem_singleton] at hreply
    rw [hsome] at hmove
    have hpc : (m.clients l.who).pc = .read := by
      cases hmove with
      | finished hpc => exact hpc
    have hfirst := first_replies (reachable_shown hd) hm hok' hu' hp hpre l.who
      (unanswered hm hans (hp l.who) (hone l.who) (hpre l.who) (by rw [hpc]; rfl))
    refine ⟨done,m,List.prefix_refl _,hm,by rw [hpc]; rfl,?_⟩
    rw [hreply]
    exact (hfirst.entire hmove).1

def oneEach (t : Bool) : List Bytes := if t then [[98]] else [[97]]

theorem one_each (t : Bool) : DataPackets (oneEach t) ∧ (oneEach t).length ≤ 1 := by
  cases t <;> exact ⟨⟨by decide,by decide,by decide⟩,by decide⟩

def commit (t : Bool) (data : Bytes) : List (Label Bool) :=
  (.thread (.recv data) :: [.thread .tau,.thread .tau,.thread .lock,.thread (.branch zeroStack),
    .device calm,.device calm,.thread .unlock,.thread .tau]).map (Label.mk t)

def fetch (t : Bool) (accepted : ℕ) : List (Label Bool) := [⟨t,.device calm⟩,⟨t,.thread (.send accepted)⟩]

def withOne : Driver := (Runs.run writeStep aesdInitModule [⟨calm,[120,10]⟩]).get (by decide)

def readsAcrossWrite : List (Label Bool) :=
  commit false [97,10] ++ fetch false 2 ++ commit true [98,10] ++ fetch false 2 ++ fetch false 2 ++
    [⟨false,.device calm⟩]

theorem snapshots_of_undisturbed_across_write :
    ∃ s, Runs.run sysStep (start withOne) readsAcrossWrite = some s ∧
      replies withOne false readsAcrossWrite = [([120,10,97,10,98,10],[120,10,97,10,98,10])] ∧
      Snapshots withOne readsAcrossWrite := by
  obtain ⟨s,hs⟩ := Option.isSome_iff_exists.mp (show (Runs.checkedRun sysStep
    (fun s l => succeedsCheck s l && decide (Undisturbed s l)) (start withOne)
    readsAcrossWrite).isSome by decide)
  obtain ⟨hr,hc⟩ := Runs.checked_run hs
  have hboth (s : System Bool) (l : Label Bool)
      (h : (succeedsCheck s l && decide (Undisturbed s l)) = true) :
      Succeeds s l ∧ Undisturbed s l := by
    rw [Bool.and_eq_true,decide_eq_true_iff] at h
    exact ⟨succeeds_of_check h.1,h.2⟩
  refine ⟨s,hr,by decide,snapshots_of_undisturbed ⟨[⟨calm,[120,10]⟩],by simp [withOne]⟩ hr
    (hc.mono fun s l h => (hboth s l h).1) (fun t => (one_each t).1) (fun t => (one_each t).2)
    (fun t => ?_) (hc.mono fun s l h => (hboth s l h).2)⟩
  cases t <;> decide

def nineWrites : List WriteCall :=
  ⟨calm,List.replicate 11 120 ++ [10]⟩ :: List.replicate 8 ⟨calm,[10]⟩

def withNine : Driver := (Runs.run writeStep aesdInitModule nineWrites).get (by decide)

def readsAcrossEviction : List (Label Bool) :=
  commit false [97,10] ++ fetch false 12 ++ commit true [98,10]

def lastRead : Label Bool := ⟨false,.device calm⟩

def committedContent (t : Bool) (s : System Bool) (_ : Label Bool) : List Bytes :=
  if (s.clients t).pc.committed then [contentBytes s.driver] else []

-- the first client reads the oldest entry, the second evicts it, and the position of the first is
-- then past the end: its response lacks its own packet
theorem evicted_between_reads :
    Runs.Reachable writeStep aesdInitModule withNine ∧
      (∃ s, Runs.run sysStep (start withNine) (readsAcrossEviction ++ [lastRead]) = some s) ∧
      Runs.Along sysStep Succeeds (start withNine) (readsAcrossEviction ++ [lastRead]) ∧
      (∀ t, DataPackets (oneEach t) ∧ (oneEach t).length ≤ 1) ∧
      (∀ t, received (eventsOf withNine t (readsAcrossEviction ++ [lastRead])) =
        stream (oneEach t)) ∧
      replies withNine false (readsAcrossEviction ++ [lastRead]) =
        [(List.replicate 11 120 ++ [10],List.replicate 8 10 ++ [97,10,98,10])] ∧
      ¬ Snapshots withNine (readsAcrossEviction ++ [lastRead]) := by
  obtain ⟨s,hs⟩ := Option.isSome_iff_exists.mp (show (Runs.checkedRun sysStep succeedsCheck
    (start withNine) (readsAcrossEviction ++ [lastRead])).isSome by decide)
  obtain ⟨hr,hc⟩ := Runs.checked_run hs
  refine ⟨⟨nineWrites,by simp [withNine]⟩,⟨s,hr⟩,hc.mono fun _ _ => succeeds_of_check,one_each,
    fun t => by cases t <;> decide,by decide,fun hsnap => ?_⟩
  obtain ⟨m,hm,hreply⟩ := Option.map_eq_some_iff.mp (show (Runs.run sysStep (start withNine)
    readsAcrossEviction).map (fun m => replyOf false m lastRead) =
      some [(List.replicate 11 120 ++ [10],List.replicate 8 10 ++ [97,10,98,10])] by decide)
  obtain ⟨mid,m',hmid,hm',hcom,hcontent⟩ := hsnap readsAcrossEviction lastRead
    (List.prefix_refl _) m hm _ (hreply ▸ List.mem_singleton_self _)
  have hin : contentBytes m'.driver ∈ Runs.outputs sysStep (committedContent false)
      (start withNine) (readsAcrossEviction ++ [lastRead]) :=
    Runs.output_mem hmid hm' (fun l => by
      have hfalse : (m'.clients false).pc.committed = true := hcom
      simp [committedContent,hfalse]) lastRead
  rw [← hcontent] at hin
  exact absurd hin (by decide)

end AesdServer
