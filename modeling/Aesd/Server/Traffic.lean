import Aesd.Server.Framing
import Aesd.Server.Integrity

namespace ClientHandler
open Kernel Device Scan Delimited

def isData (p : Bytes) : Bool := !strstr (cText p) aesdIoctlSeekto

def lines (s : Bytes) : List Bytes := (pieces newline s).map List.dropLast

def storedOf (cs : List Completion) : List Bytes :=
  (cs.filter fun c => !strstr c.text aesdIoctlSeekto).map (·.packet)

def pendingStore (h : Handler) : List Bytes :=
  match h.pc with
  | .writeData | .writeNewline => [h.payload]
  | _ => []

def unbranched (h : Handler) : List Bytes :=
  match h.pc with
  | .lock | .branch => [h.payload]
  | _ => []

section Packets
variable {evs : List Event} {h h' : Handler} {ev : Event} {s : Bytes}

theorem payload_line (hr : Runs.run step init evs = some h) : newline ∉ h.payload := by
  have hstored : ∀ k < h.writeBufferIndex, h.writeBuffer k ≠ newline := by
    refine Runs.run_invariant (I := fun h : Handler =>
      ∀ k < h.writeBufferIndex, h.writeBuffer k ≠ newline) ?_ (by simp [init]) hr
    intro h ev h' hi hs
    cases step_move hs with
    | stored hpc hlt hb =>
      intro k hk
      simp only at hk ⊢
      split_ifs with he
      · exact hb
      · exact hi k (by omega)
    | cleared => exact fun k hk => absurd hk (Nat.not_lt_zero k)
    | _ => exact hi
  intro hm
  obtain ⟨k,hk,he⟩ := List.mem_map.mp hm
  exact hstored k (List.mem_range.mp hk) he

theorem stored_completions (hr : Runs.run step init evs = some h)
    (he : ∀ ev ∈ evs, ev.failed = false) :
    storedPackets evs ++ pendingStore h = storedOf (completions evs) := by
  refine Runs.run_induction (P := fun evs h => (∀ ev ∈ evs, ev.failed = false) →
    storedPackets evs ++ pendingStore h = storedOf (completions evs)) (fun _ => rfl) ?_ hr he
  intro evs ev h h' hrun ih hs hall
  have hprev := ih fun x hx => hall x (by simp [hx])
  have hev : ev.failed = false := hall ev (by simp)
  rw [stored_packets_snoc hrun hs,completions_snoc hrun hs,storedOf,List.filter_append,
    List.map_append,← storedOf,← hprev,List.append_assoc,List.append_assoc]
  congr 1
  cases step_move hs with
  | seek hpc hm => simp [storedBy,pendingStore,branched,hpc,hm]
  | data hpc hm => simp [storedBy,pendingStore,branched,hpc,hm,Handler.payload]
  | seekFailed | dataFailed | newlineFailed => cases hev
  | _ hpc => simp [storedBy,pendingStore,branched,hpc,Handler.nextByte,Handler.payload]

theorem held_completions (hr : Runs.run step init evs = some h) :
    heldPackets evs = (completions evs).map (·.packet) ++ unbranched h := by
  refine Runs.run_induction (P := fun evs h =>
    heldPackets evs = (completions evs).map (·.packet) ++ unbranched h) rfl ?_ hr
  intro evs ev h h' hrun ih hs
  rw [held_packets_snoc hrun hs,completions_snoc hrun hs,ih,List.map_append,List.append_assoc,
    List.append_assoc]
  congr 1
  cases step_move hs with
  | drained hpc hi =>
    have hn : ¬ h.i < h.bytesReceived := by omega
    simp [unbranched,branched,metNewline,hpc,hn]
  | completed hpc hi hb => simp [unbranched,branched,metNewline,hpc,hi,hb,Handler.payload]
  | stored hpc hi hb | overran hpc hi hb => simp [unbranched,branched,metNewline,hpc,hb]
  | _ hpc => simp [unbranched,branched,metNewline,hpc,Handler.nextByte,Handler.payload]

theorem completed_packets (hr : Runs.run step init evs = some h)
    (he : ∀ ev ∈ evs, ev.failed = false) :
    (completions evs).map (·.packet) <+: lines (received evs) ∧
      (h.pc = .recv → (completions evs).map (·.packet) = lines (received evs)) := by
  have hheld := held_completions hr
  rw [held_packets_run hr he] at hheld
  have hseen : seen evs h <+: received evs := seen_within (framed_run hr) (List.prefix_refl _)
  constructor
  · refine List.IsPrefix.trans ?_ ((pieces_mono newline hseen).map List.dropLast)
    rw [hheld]
    exact List.prefix_append _ _
  · intro hpc
    have hall : seen evs h = received evs := by
      rw [seen,hpc,consumed_received ((framed_run hr).drained hpc)]
      exact List.append_nil _
    rw [hall,unbranched,hpc,List.append_nil] at hheld
    exact hheld.symm

theorem line_short (hs : ShortPackets s) {p : Bytes} (hp : p ∈ lines s) : p.length < bufferSize := by
  obtain ⟨q,hq,rfl⟩ := List.mem_map.mp hp
  obtain ⟨b,-,rfl⟩ := mem_pieces hq
  have hlen := hs.packets _ hq
  rw [List.length_append,List.length_singleton] at hlen
  rw [List.dropLast_concat]
  omega

theorem stored_of_short (hs : ShortPackets s) (hr : Runs.run step init evs = some h)
    (he : ∀ ev ∈ evs, ev.failed = false) (hpre : received evs <+: s) :
    storedOf (completions evs) = ((completions evs).map (·.packet)).filter isData := by
  rw [storedOf,List.filter_map]
  congr 1
  refine List.filter_congr fun c hc => ?_
  have hin : c.packet ∈ lines s := by
    refine ((pieces_mono newline hpre).map List.dropLast).subset ?_
    exact (completed_packets hr he).1.subset (List.mem_map_of_mem hc)
  rw [completion_texts hr he c hc (line_short hs hin)]
  rfl

end Packets

end ClientHandler

namespace AesdServer
open Kernel Device ClientHandler Delimited

variable {I : Type} [DecidableEq I] {s : System I} {ls : List (Label I)} {streams : I → Bytes}

theorem storing_of_run (hr : Runs.run sysStep (start aesdInitModule) ls = some s)
    (hok : Runs.Along sysStep Answered (start aesdInitModule) ls) : Storing ls s := by
  refine Runs.guarded_induction (P := fun ls s =>
    Runs.Along sysStep Answered (start aesdInitModule) ls → Storing ls s)
    (fun _ => ⟨stored_holds_stream stored_init rfl rfl,_,.intact stored_init⟩) ?_ hr hok hok
  intro ls l s s' hrun hans ih hs hall
  have hok' := (Runs.along_snoc hrun hall).1
  exact storing_step hrun hok' (ih hok') (fun t => payload_line (client_run t hrun)) hans hs

theorem commit_lines (hr : Runs.run sysStep (start aesdInitModule) ls = some s) :
    ∀ p ∈ (commits aesdInitModule ls).map Prod.snd, newline ∉ p := by
  refine Runs.run_induction (P := fun ls _ =>
    ∀ p ∈ (commits aesdInitModule ls).map Prod.snd, newline ∉ p)
    (fun p hp => by simp [commits] at hp) ?_ hr
  intro ls l s s' hrun ih hs
  obtain ⟨a,hm⟩ := sys_step_moved hs
  rw [commits_snoc hrun hs,hm.commit,List.map_append]
  refine List.forall_mem_append.mpr ⟨ih,fun p hp => ?_⟩
  simp only [List.map_map,Function.comp_def,List.map_id'] at hp
  have hline := payload_line (client_run l.who hrun)
  unfold storedBy at hp
  split at hp
  · split at hp
    · rw [List.mem_singleton.mp hp]
      exact hline
    · cases hp
  · cases hp

structure Mingled (ls : List (Label I)) (s : System I) (log : List (I × Bytes)) : Prop where
  order : ∀ t, (log.filter fun x => x.1 = t).map Prod.snd <+:
    (lines (received (eventsOf aesdInitModule t ls))).filter isData
  drained : ∀ t, (s.clients t).pc = .recv → (log.filter fun x => x.1 = t).map Prod.snd =
    (lines (received (eventsOf aesdInitModule t ls))).filter isData
  commands : commands s.driver = ((log.map fun x => x.2 ++ [newline]).rtake 10).map some
  fragment : fragment s.driver = some []
  buffer : s.driver.dev.incompleteCommandBuffer = none ∧ s.driver.dev.incompleteCommandSize = 0

theorem client_log (hr : Runs.run sysStep (start aesdInitModule) ls = some s)
    (hok : Runs.Along sysStep Answered (start aesdInitModule) ls) (t : I)
    (hp : ShortPackets (streams t))
    (hs : received (eventsOf aesdInitModule t ls) <+: streams t) :
    ((commits aesdInitModule ls).filter fun x => x.1 = t).map Prod.snd ++
        pendingStore (s.clients t) =
      ((completions (eventsOf aesdInitModule t ls)).map (·.packet)).filter isData := by
  have hrun := client_run t hr
  have he := events_succeed hr hok t
  rw [commits_of_client t hr,stored_completions hrun he,stored_of_short hp hrun he hs]

-- whatever the clients send, the ring holds the last ten of their data packets, merged in an order
-- that keeps the one of each client, and the seeks leave no trace in it
theorem ring_holds_mingled_streams (hr : Runs.run sysStep (start aesdInitModule) ls = some s)
    (hok : Runs.Along sysStep Answered (start aesdInitModule) ls)
    (hp : ∀ t, ShortPackets (streams t))
    (hs : ∀ t, received (eventsOf aesdInitModule t ls) <+: streams t)
    (hfree : s.owner = none) : ∃ log, Mingled ls s log := by
  have hidle (t : I) : pendingStore (s.clients t) = [] := by
    have hnot : (s.clients t).holding = false := by
      rw [Bool.eq_false_iff,ne_eq,← mutex_held hr hok t,hfree]
      simp
    have hpc : (s.clients t).pc.inSection = false := by
      by_contra hin
      rw [(client_disciplined hr hok t).owned (by simpa using hin)] at hnot
      cases hnot
    unfold pendingStore
    split
    · rename_i he
      simp [he,Pc.inSection] at hpc
    · rename_i he
      simp [he,Pc.inSection] at hpc
    · rfl
  have hlog (t : I) := client_log hr hok t (hp t) (hs t)
  simp only [hidle,List.append_nil] at hlog
  have hlines := commit_lines hr
  have hholds := (storing_of_run hr hok).holds
  rw [partialPacket,hfree,List.append_nil] at hholds
  have hrest : residue newline (stream ((commits aesdInitModule ls).map Prod.snd)) = [] :=
    residue_lines hlines
  have hdone (t : I) := completed_packets (client_run t hr) (events_succeed hr hok t)
  refine ⟨commits aesdInitModule ls,fun t => ?_,fun t hpc => ?_,?_,?_,hholds.empty hrest⟩
  · rw [hlog t]
    exact (hdone t).1.filter _
  · rw [hlog t,(hdone t).2 hpc]
  · rw [hholds.commands,stream,pieces_lines hlines,List.map_map]
    rfl
  · rw [hholds.fragment,hrest]

def sentBy (t : Bool) : Bytes := if t then seekPacket '0' '0' else [97,10]

def dataAndSeek : List (Label Bool) :=
  [⟨false,.thread (.recv (sentBy false))⟩,⟨true,.thread (.recv (sentBy true))⟩,
    ⟨false,.thread .tau⟩,⟨false,.thread .tau⟩,⟨false,.thread .lock⟩,
    ⟨false,.thread (.branch zeroStack)⟩,⟨false,.device calm⟩,⟨false,.device calm⟩,
    ⟨false,.thread .unlock⟩] ++
  List.replicate 23 ⟨true,.thread .tau⟩ ++
  [⟨true,.thread .lock⟩,⟨true,.thread (.branch zeroStack)⟩,⟨true,.device calm⟩,
    ⟨true,.thread .unlock⟩]

theorem ring_holds_mingled_streams_with_seek :
    ∃ s log, Runs.run sysStep (start aesdInitModule) dataAndSeek = some s ∧
      Mingled dataAndSeek s log := by
  obtain ⟨s,hs,hfree⟩ := Option.map_eq_some_iff.mp (show (Runs.checkedRun sysStep answeredCheck
    (start aesdInitModule) dataAndSeek).map System.owner = some none by decide)
  obtain ⟨hr,ha⟩ := Runs.checked_run hs
  have hp (t : Bool) : ShortPackets (sentBy t) := by
    cases t <;> exact ⟨by decide,by decide⟩
  have hin (t : Bool) : received (eventsOf aesdInitModule t dataAndSeek) <+: sentBy t := by
    cases t <;> decide
  obtain ⟨log,hm⟩ := ring_holds_mingled_streams hr (ha.mono fun _ _ => answered_of_check) hp hin hfree
  exact ⟨s,log,hr,hm⟩

end AesdServer
