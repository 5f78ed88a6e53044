import Aesd.CharDriver.WriteStream
import Aesd.Server.Packets
import Aesd.Server.System

namespace AesdServer
open Kernel Device ClientHandler Delimited

variable {I : Type} [DecidableEq I]

def Answered (s : System I) (l : Label I) : Prop :=
  ∀ a, respond s l = some a → a.event.failed = false ∧ a.event ≠ .read none

def answeredCheck (s : System I) (l : Label I) : Bool :=
  match respond s l with
  | none => true
  | some a => !a.event.failed && match a.event with
      | .read none => false
      | _ => true

omit [DecidableEq I] in
theorem answered_of_check {s : System I} {l : Label I} (h : answeredCheck s l = true) :
    Answered s l := by
  intro a ha
  simp only [answeredCheck,ha,Bool.and_eq_true,Bool.not_eq_true'] at h
  refine ⟨h.1,fun he => ?_⟩
  simp [he] at h

def commitOf (s : System I) (l : Label I) : List (I × Bytes) :=
  (respond s l).toList.flatMap fun a => (storedBy (s.clients l.who) a.event).map fun p => (l.who,p)

def commits (d : Driver) (ls : List (Label I)) : List (I × Bytes) :=
  Runs.outputs sysStep commitOf (start d) ls

def partialPacket (s : System I) : Bytes :=
  match s.owner with
  | none => []
  | some t => if (s.clients t).pc = .writeNewline then (s.clients t).payload else []

section Histories
variable {d : Driver} {s s' : System I} {l : Label I} {ls : List (Label I)} {a : Answer}

theorem commits_snoc (hr : Runs.run sysStep (start d) ls = some s) (hs : sysStep s l = some s') :
    commits d (ls ++ [l]) = commits d ls ++ commitOf s l := Runs.outputs_snoc hr hs

omit [DecidableEq I] in
theorem Moved.commit (hm : Moved s l s' a) :
    commitOf s l = (storedBy (s.clients l.who) a.event).map fun p => (l.who,p) := by
  simp [commitOf,hm.answered]

theorem events_succeed (hr : Runs.run sysStep (start d) ls = some s)
    (hok : Runs.Along sysStep Answered (start d) ls) (t : I) :
    ∀ ev ∈ eventsOf d t ls, ev.failed = false := by
  refine Runs.guarded_induction (P := fun ls _ => ∀ ev ∈ eventsOf d t ls, ev.failed = false)
    (fun ev hev => by simp [eventsOf] at hev) ?_ hr hok
  intro ls l s s' hrun hans ih hs
  obtain ⟨a,hm⟩ := sys_step_moved hs
  rw [events_of_snoc t hrun hs]
  refine List.forall_mem_append.mpr ⟨ih,?_⟩
  by_cases ht : t = l.who
  · subst ht
    rw [hm.event_self]
    simpa using (hans a hm.answered).1
  · simp [event_other ht]

theorem commits_of_client (t : I) (hr : Runs.run sysStep (start d) ls = some s) :
    ((commits d ls).filter fun x => x.1 = t).map Prod.snd = storedPackets (eventsOf d t ls) := by
  refine Runs.run_induction (P := fun ls _ => ((commits d ls).filter fun x => x.1 = t).map Prod.snd =
    storedPackets (eventsOf d t ls)) rfl ?_ hr
  intro ls l s s' hrun ih hs
  obtain ⟨a,hm⟩ := sys_step_moved hs
  rw [commits_snoc hrun hs,hm.commit,List.filter_append,List.map_append,ih,events_of_snoc t hrun hs]
  by_cases ht : t = l.who
  · subst ht
    rw [hm.event_self,stored_packets_snoc (client_run l.who hrun) hm.stepped]
    simp [List.filter_map,Function.comp_def]
  · rw [event_other ht,List.append_nil]
    simp [List.filter_map,Function.comp_def,Ne.symm ht]

theorem client_disciplined (hr : Runs.run sysStep (start d) ls = some s)
    (hok : Runs.Along sysStep Answered (start d) ls) (t : I) :
    Disciplined (eventsOf d t ls) (s.clients t) :=
  disciplined_run (client_run t hr) (events_succeed hr hok t)

end Histories

section Mutex
variable {d : Driver} {s s' : System I} {l : Label I} {ls : List (Label I)}

omit [DecidableEq I] in
theorem owner_kept {owner : Option I} {who : I} {ev : Event} (hl : ev ≠ .lock)
    (hu : ev ≠ .unlock) : ownerAfter owner who ev = some owner := by
  cases ev with
  | lock => exact absurd rfl hl
  | unlock => exact absurd rfl hu
  | _ => rfl

theorem mutex_step (hmutex : ∀ t, s.owner = some t ↔ (s.clients t).holding = true)
    (hs : sysStep s l = some s') (hown : (s.clients l.who).pc = .unlock →
      (s.clients l.who).holding = true) :
    ∀ t, s'.owner = some t ↔ (s'.clients t).holding = true := by
  obtain ⟨a,hm⟩ := sys_step_moved hs
  have howner := hm.owner
  have hstep := hm.stepped
  have hothers (t : I) (ht : t ≠ l.who) : (s'.clients t).holding = (s.clients t).holding := by
    rw [(hm.others t ht).1]
  intro t
  by_cases hlock : a.event = .lock
  · rw [hlock] at howner hstep
    simp only [ownerAfter] at howner
    split_ifs at howner with hnone
    rw [← Option.some.inj howner]
    by_cases ht : t = l.who
    · subst ht
      simp [lock_taken hstep]
    · have hfree : ¬ (s.clients t).holding = true := by simp [← hmutex,hnone]
      rw [hothers t ht]
      simp [Ne.symm ht,hfree]
  · by_cases hunlock : a.event = .unlock
    · rw [hunlock] at howner hstep
      obtain ⟨hpc,hreleased⟩ := lock_released hstep
      rw [← Option.some.inj howner]
      by_cases ht : t = l.who
      · subst ht
        simp [hreleased]
      · have hheld : s.owner = some l.who := (hmutex _).mpr (hown hpc)
        have hfree : ¬ (s.clients t).holding = true := by
          rw [← hmutex,hheld]
          simpa using Ne.symm ht
        rw [hothers t ht]
        simp [hfree]
    · rw [owner_kept hlock hunlock] at howner
      rw [← Option.some.inj howner,hmutex]
      by_cases ht : t = l.who
      · subst ht
        rw [holding_kept hstep hlock hunlock]
      · rw [hothers t ht]

theorem mutex_held (hr : Runs.run sysStep (start d) ls = some s)
    (hok : Runs.Along sysStep Answered (start d) ls) :
    ∀ t, s.owner = some t ↔ (s.clients t).holding = true := by
  induction ls using List.reverseRecOn generalizing s with
  | nil =>
    cases hr
    simp [start,init]
  | append_singleton ls l ih =>
    obtain ⟨m,hm,hs⟩ := Runs.run_snoc hr
    have hok' := (Runs.along_snoc hm hok).1
    refine mutex_step (ih hm hok') hs fun hpc => ?_
    exact (client_disciplined hm hok' l.who).owned (by rw [hpc]; rfl)

end Mutex

section Storing
variable {s s' : System I} {l : Label I} {ls : List (Label I)} {a : Answer} {packets : I → List Bytes}

theorem writing_pcs {h h' : Handler} {ev : Event} (hs : step h ev = some h')
    (hw : ∀ ok, ev ≠ .write ok) : h.pc ≠ .writeNewline ∧ h'.pc ≠ .writeNewline := by
  cases step_move hs with
  | wroteData | dataFailed | wroteNewline | newlineFailed => exact absurd rfl (hw _)
  | _ hpc => simp [hpc,Handler.nextByte]

theorem partial_kept (hm : Moved s l s' a) (hw : ∀ ok, a.event ≠ .write ok)
    (hmutex : ∀ t, s.owner = some t ↔ (s.clients t).holding = true)
    (hown : (s.clients l.who).pc = .unlock → (s.clients l.who).holding = true) :
    partialPacket s' = partialPacket s := by
  obtain ⟨hpc,hpc'⟩ := writing_pcs hm.stepped hw
  have hwho : (if (s'.clients l.who).pc = .writeNewline then (s'.clients l.who).payload else []) =
      if (s.clients l.who).pc = .writeNewline then (s.clients l.who).payload else [] := by
    rw [if_neg hpc,if_neg hpc']
  have howner := hm.owner
  by_cases hlock : a.event = .lock
  · rw [hlock] at howner
    simp only [ownerAfter] at howner
    split_ifs at howner with hnone
    rw [partialPacket,← Option.some.inj howner,partialPacket,hnone]
    exact if_neg hpc'
  · by_cases hunlock : a.event = .unlock
    · have hstep := hm.stepped
      rw [hunlock] at howner hstep
      have hheld : s.owner = some l.who := (hmutex _).mpr (hown (lock_released hstep).1)
      rw [partialPacket,← Option.some.inj howner,partialPacket,hheld]
      exact (if_neg hpc).symm
    · rw [owner_kept hlock hunlock] at howner
      rw [partialPacket,← Option.some.inj howner,partialPacket]
      cases ho : s.owner with
      | none => rfl
      | some t =>
        by_cases ht : t = l.who
        · subst ht
          exact hwho
        · simp only [(hm.others t ht).1]

structure Storing (ls : List (Label I)) (s : System I) : Prop where
  holds : HoldsStream s.driver
    (stream ((commits aesdInitModule ls).map Prod.snd) ++ partialPacket s)
  shown : ∃ L, Shows s.driver L

theorem storing_step (hr : Runs.run sysStep (start aesdInitModule) ls = some s)
    (hok : Runs.Along sysStep Answered (start aesdInitModule) ls) (hst : Storing ls s)
    (hline : ∀ t, newline ∉ (s.clients t).payload) (ha : Answered s l)
    (hs : sysStep s l = some s') : Storing (ls ++ [l]) s' := by
  obtain ⟨a,hm⟩ := sys_step_moved hs
  obtain ⟨hholds,L,hL⟩ := hst
  have hd := client_disciplined hr hok l.who
  have hmutex := mutex_held hr hok
  have hcommits := commits_snoc hr hs
  rw [hm.commit] at hcommits
  have hheld (hsec : (s.clients l.who).pc.inSection = true) : s.owner = some l.who :=
    (hmutex _).mpr (hd.owned hsec)
  have hunlock (hpc : (s.clients l.who).pc = .unlock) : (s.clients l.who).holding = true :=
    hd.owned (by rw [hpc]; rfl)
  have hok' := ha a hm.answered
  have hdriver := hm.driver
  have hstep := hm.stepped
  have howner := hm.owner
  cases respond_responds hm.answered with
  | @own ev _ ho =>
    have hw (ok : Bool) : ev ≠ .write ok := by
      rintro rfl
      cases ho
    have hquiet : storedBy (s.clients l.who) ev = [] := by
      cases ev with
      | write ok => exact absurd rfl (hw ok)
      | _ => rfl
    refine ⟨?_,L,hdriver ▸ hL⟩
    rw [hdriver,hcommits,hquiet,List.map_nil,List.append_nil,partial_kept hm hw hmutex hunlock]
    exact hholds
  | sought | read =>
    refine ⟨?_,L,hdriver ▸ hL⟩
    rw [hdriver,hcommits,partial_kept hm (by simp) hmutex hunlock]
    simpa [storedBy] using hholds
  | @wroteData env hact hpc r d hw =>
    have hr0 : 0 ≤ r := by simpa [Event.failed] using hok'.1
    have howner' : s'.owner = some l.who := by
      rw [← Option.some.inj howner]
      exact hheld (by rw [hpc]; rfl)
    have hpart : partialPacket s = [] := by
      simp [partialPacket,hheld (by rw [hpc]; rfl),hpc]
    have hnext : s'.clients l.who = { s.clients l.who with pc := .writeNewline } := by
      simpa [step,hpc,hr0] using hstep.symm
    have hpart' : partialPacket s' = (s.clients l.who).payload := by
      simp [partialPacket,howner',hnext,Handler.payload]
    rw [hpart,List.append_nil] at hholds
    have hone : (s.clients l.who).payload.count newline ≤ 1 := by
      rw [List.count_eq_zero_of_not_mem (hline l.who)]
      omega
    refine ⟨?_,?_⟩
    · rw [hdriver,hcommits,hpart']
      simpa [storedBy,hpc] using stream_write hholds ⟨L,hL⟩ hone hw hr0
    · rw [hdriver]
      exact shown_write hL hw
  | @wroteNewline env hact hpc r d hw =>
    have hr0 : 0 ≤ r := by simpa [Event.failed] using hok'.1
    have hpart : partialPacket s = (s.clients l.who).payload := by
      simp [partialPacket,hheld (by rw [hpc]; rfl),hpc]
    have hnext : s'.clients l.who = { s.clients l.who with pc := .unlock } := by
      simpa [step,hpc,hr0] using hstep.symm
    have howner' : s'.owner = some l.who := by
      rw [← Option.some.inj howner]
      exact hheld (by rw [hpc]; rfl)
    have hpart' : partialPacket s' = [] := by
      simp [partialPacket,howner',hnext]
    have hbytes : stream ((commits aesdInitModule (ls ++ [l])).map Prod.snd) =
        stream ((commits aesdInitModule ls).map Prod.snd) ++ partialPacket s ++ [newline] := by
      rw [hcommits,hpart]
      simp [storedBy,hpc,hr0,stream]
    refine ⟨?_,?_⟩
    · rw [hdriver,hbytes,hpart',List.append_nil]
      exact stream_write hholds ⟨L,hL⟩ (by simp) hw hr0
    · rw [hdriver]
      exact shown_write hL hw

end Storing

section Merging
variable {s : System I} {ls : List (Label I)} {packets : I → List Bytes}

theorem payload_no_newline {evs : List Event} {h : Handler} (hd : Disciplined evs h)
    (hpc : h.pc ≠ .undefined) : newline ∉ h.payload := by
  cases hr : h.pc.responding with
  | true =>
    rw [(hd.cleared hr).payload]
    simp
  | false =>
    rw [(hd.assembled hpc hr).payload]
    exact not_mem_residue _

theorem received_mono {d : Driver} {m : System I} {done rest : List (Label I)} (t : I)
    (hm : Runs.run sysStep (start d) done = some m) :
    received (eventsOf d t done) <+: received (eventsOf d t (done ++ rest)) := by
  rw [eventsOf,eventsOf,Runs.outputs_append hm,received,received,List.flatMap_append]
  exact List.prefix_append _ _

theorem client_data_run {d : Driver} (hr : Runs.run sysStep (start d) ls = some s)
    (hok : Runs.Along sysStep Answered (start d) ls) {t : I} {ps : List Bytes}
    (hp : DataPackets ps) (hs : received (eventsOf d t ls) <+: stream ps) :
    DataRun ps (eventsOf d t ls) (s.clients t) :=
  data_run hp (client_run t hr) (events_succeed hr hok t) hs

theorem storing_run (hr : Runs.run sysStep (start aesdInitModule) ls = some s)
    (hok : Runs.Along sysStep Answered (start aesdInitModule) ls)
    (hp : ∀ t, DataPackets (packets t))
    (hs : ∀ t, received (eventsOf aesdInitModule t ls) <+: stream (packets t)) : Storing ls s := by
  induction ls using List.reverseRecOn generalizing s with
  | nil =>
    cases hr
    exact ⟨stored_holds_stream stored_init rfl rfl,_,.intact stored_init⟩
  | append_singleton ls l ih =>
    obtain ⟨m,hm,hstep⟩ := Runs.run_snoc hr
    obtain ⟨hok',hans⟩ := Runs.along_snoc hm hok
    have hpre (t : I) := (received_mono t hm).trans (hs t)
    refine storing_step hm hok' (ih hm hok' hpre) (fun t => ?_) hans hstep
    exact payload_no_newline (client_disciplined hm hok' t)
      (client_data_run hm hok' (hp t) (hpre t)).defined

structure Merged (packets : I → List Bytes) (ls : List (Label I)) (s : System I)
    (log : List (I × Bytes)) : Prop where
  order : ∀ t, (log.filter fun x => x.1 = t).map Prod.snd =
    (packets t).take (finished (eventsOf aesdInitModule t ls) (s.clients t))
  drained : ∀ t, (s.clients t).pc = .recv → finished (eventsOf aesdInitModule t ls) (s.clients t) =
    (received (eventsOf aesdInitModule t ls)).count newline
  commands : commands s.driver = ((log.map fun x => x.2 ++ [newline]).rtake 10).map some
  fragment : fragment s.driver = some []
  buffer : s.driver.dev.incompleteCommandBuffer = none ∧ s.driver.dev.incompleteCommandSize = 0

theorem ring_holds_merged_packets (hr : Runs.run sysStep (start aesdInitModule) ls = some s)
    (hok : Runs.Along sysStep Answered (start aesdInitModule) ls)
    (hp : ∀ t, DataPackets (packets t))
    (hs : ∀ t, received (eventsOf aesdInitModule t ls) <+: stream (packets t))
    (hfree : s.owner = none) : ∃ log, Merged packets ls s log := by
  have horder (t : I) := (commits_of_client t hr).trans (client_data_run hr hok (hp t) (hs t)).stored
  have hlines : ∀ p ∈ (commits aesdInitModule ls).map Prod.snd, newline ∉ p := by
    intro p hm
    obtain ⟨x,hx,rfl⟩ := List.mem_map.mp hm
    have hmem : x.2 ∈ ((commits aesdInitModule ls).filter fun y => y.1 = x.1).map Prod.snd :=
      List.mem_map_of_mem (List.mem_filter.mpr ⟨hx,by simp⟩)
    rw [horder] at hmem
    exact (hp x.1).lines _ (List.mem_of_mem_take hmem)
  have hholds := (storing_run hr hok hp hs).holds
  rw [partialPacket,hfree,List.append_nil] at hholds
  have hrest : residue newline (stream ((commits aesdInitModule ls).map Prod.snd)) = [] :=
    residue_lines hlines
  refine ⟨commits aesdInitModule ls,horder,fun t hpc => ?_,?_,?_,hholds.empty hrest⟩
  · have hi := (framed_run (client_run t hr)).drained hpc
    rw [finished,consumed_received hi,hpc]
    rfl
  · rw [hholds.commands,stream,pieces_lines hlines,List.map_map]
    rfl
  · rw [hholds.fragment,hrest]

end Merging

def twoClients : List (Label Bool) :=
  [⟨false,.thread (.recv [97,10])⟩,⟨true,.thread (.recv [98,10])⟩,⟨false,.thread .tau⟩,
    ⟨true,.thread .tau⟩,⟨false,.thread .tau⟩,⟨true,.thread .tau⟩,⟨true,.thread .lock⟩,
    ⟨true,.thread (.branch zeroStack)⟩,⟨true,.device calm⟩,⟨true,.device calm⟩,
    ⟨true,.thread .unlock⟩,⟨false,.thread .lock⟩,⟨false,.thread (.branch zeroStack)⟩,
    ⟨false,.device calm⟩,⟨false,.device calm⟩,⟨false,.thread .unlock⟩]

theorem ring_holds_merged_packets_two_clients :
    ∃ s log, Runs.run sysStep (start aesdInitModule) twoClients = some s ∧
      Merged (fun t => if t then [[98]] else [[97]]) twoClients s log := by
  obtain ⟨s,hs,hfree⟩ := Option.map_eq_some_iff.mp (show (Runs.checkedRun sysStep answeredCheck
    (start aesdInitModule) twoClients).map System.owner = some none by decide)
  obtain ⟨hr,ha⟩ := Runs.checked_run hs
  have hp (t : Bool) : DataPackets (if t then [[98]] else [[97]]) := by
    cases t <;> exact ⟨by decide,by decide,by decide⟩
  have hin (t : Bool) : received (eventsOf aesdInitModule t twoClients) <+:
      stream (if t then [[98]] else [[97]]) := by
    cases t <;> decide
  obtain ⟨log,hm⟩ := ring_holds_merged_packets hr (ha.mono fun s l => answered_of_check) hp hin hfree
  exact ⟨s,log,hr,hm⟩

end AesdServer
