import Aesd.CharDriver.ContentGrowth
import Aesd.Server.Integrity

namespace AesdServer
open Kernel Device ClientHandler Delimited

variable {I : Type}

def shortSend (s : System I) (l : Label I) : Bool :=
  match (s.clients l.who).pc,l.act with
  | .send (some content),.thread (.send accepted) => accepted != content.length
  | _,_ => false

structure Succeeds (s : System I) (l : Label I) : Prop where
  answered : Answered s l
  whole : shortSend s l = false

def succeedsCheck (s : System I) (l : Label I) : Bool := answeredCheck s l && !shortSend s l

theorem succeeds_of_check {s : System I} {l : Label I} (h : succeedsCheck s l = true) :
    Succeeds s l := by
  simp only [succeedsCheck,Bool.and_eq_true,Bool.not_eq_true'] at h
  exact ⟨answered_of_check h.1,h.2⟩

def unsent (h : Handler) : Bytes :=
  match h.pc with
  | .send (some content) => content
  | _ => []

variable [DecidableEq I]

-- what was sent in response to a packet, with the content of the device at its last read
def replyOf (t : I) (s : System I) (l : Label I) : List (Bytes × Bytes) :=
  if l.who = t then
    (respond s l).toList.flatMap fun a =>
      List.replicate a.event.answers (s.outgoing t,contentBytes s.driver)
  else []

def replies (d : Driver) (t : I) (ls : List (Label I)) : List (Bytes × Bytes) :=
  Runs.outputs sysStep (replyOf t) (start d) ls

inductive ReplyMove (s s' : System I) (t : I) : List (Bytes × Bytes) → Prop
  | quiet (hpc : (s.clients t).pc.responding = false) (hpc' : (s'.clients t).pc.responding = false)
      (hr : (s'.clients t).pc ≠ .reset) (hf : s'.fPos t = s.fPos t)
      (hc : (s'.clients t).pc.committed = true → contentBytes s'.driver ≠ []) : ReplyMove s s' t []
  | unlocked (hpc : (s.clients t).pc = .unlock) (hpc' : (s'.clients t).pc = .reset)
      (hf : s'.fPos t = s.fPos t) (ho : s'.outgoing t = []) (hd : s'.driver = s.driver) :
      ReplyMove s s' t []
  | cleared (hpc : (s.clients t).pc = .reset) (hpc' : (s'.clients t).pc = .read)
      (hf : s'.fPos t = s.fPos t) (ho : s'.outgoing t = s.outgoing t)
      (hd : s'.driver = s.driver) : ReplyMove s s' t []
  | fetched {out : Bytes} (hne : out ≠ []) (hpc : (s.clients t).pc = .read)
      (hpc' : (s'.clients t).pc = .send (some out)) (hf : s'.fPos t = s.fPos t + out.length)
      (ho : s'.outgoing t = s.outgoing t) (hd : s'.driver = s.driver)
      (hout : out = ((contentBytes s.driver).drop (s.fPos t)).take out.length) :
      ReplyMove s s' t []
  | sent {content : Option Bytes} (hpc : (s.clients t).pc = .send content)
      (hpc' : (s'.clients t).pc = .read) (hf : s'.fPos t = s.fPos t)
      (ho : s'.outgoing t = s.outgoing t ++ content.getD []) (hd : s'.driver = s.driver) :
      ReplyMove s s' t []
  | finished (hpc : (s.clients t).pc = .read) (hpc' : (s'.clients t).pc = .byte)
      (hf : s'.fPos t = s.fPos t) (hd : s'.driver = s.driver)
      (hend : (contentBytes s.driver).length ≤ s.fPos t) :
      ReplyMove s s' t [(s.outgoing t,contentBytes s.driver)]

section Moves
variable {s s' : System I} {l : Label I} {a : Answer} {t : I}

theorem Moved.reply (hm : Moved s l s' a) : replyOf l.who s l =
    List.replicate a.event.answers (s.outgoing l.who,contentBytes s.driver) := by
  simp [replyOf,hm.answered]

theorem reply_move (hd : ∃ L, Shows s.driver L) (hseek : ∀ arg, (s.clients l.who).pc ≠ .ioctl arg)
    (hok : Succeeds s l) (hs : sysStep s l = some s') :
    ReplyMove s s' l.who (replyOf l.who s l) := by
  obtain ⟨a,hm⟩ := sys_step_moved hs
  obtain ⟨L,hL⟩ := hd
  have hans := hok.answered a hm.answered
  have hdriver := hm.driver
  have hfPos := hm.fPos
  have hout := hm.outgoing
  have hstep := hm.stepped
  rw [hm.reply]
  obtain ⟨h',hh'⟩ : ∃ h', s'.clients l.who = h' := ⟨_,rfl⟩
  rw [hh'] at hstep
  cases respond_responds hm.answered with
  | @own ev hact ho =>
    cases step_move hstep with
    | unlocked hpc => exact .unlocked hpc (by rw [hh']) hfPos hout hdriver
    | cleared hpc => exact .cleared hpc (by rw [hh']) hfPos hout hdriver
    | @sent content hpc accepted hle =>
      refine .sent hpc (by rw [hh']) hfPos ?_ hdriver
      rw [hout]
      cases content with
      | none => simp [outgoingAfter,hpc]
      | some c =>
        have hall : accepted = c.length := by simpa [shortSend,hpc,hact] using hok.whole
        simp [outgoingAfter,hpc,hall]
    | sought | seekFailed | wroteData | dataFailed | wroteNewline | newlineFailed | finished
    | fetched => cases ho
    | closed hpc | received hpc | drained hpc | completed hpc | stored hpc | overran hpc | locked hpc
    | seek hpc | data hpc =>
      exact .quiet (by rw [hpc]; rfl) (by rw [hh']; rfl) (by rw [hh']; simp) hfPos
        (by rw [hh']; simp [Pc.committed])
  | sought hact hpc => exact absurd hpc (hseek _)
  | @wroteData env hact hpc r d hw =>
    have hr : 0 ≤ r := by simpa [Event.failed] using hans.1
    have hnext : h' = { s.clients l.who with pc := .writeNewline } := by
      simpa [step,hpc,hr] using hstep.symm
    exact .quiet (by rw [hpc]; rfl) (by rw [hh',hnext]; rfl) (by rw [hh',hnext]; simp) hfPos
      (by rw [hh',hnext]; simp [Pc.committed])
  | @wroteNewline env hact hpc r d hw =>
    have hr : 0 ≤ r := by simpa [Event.failed] using hans.1
    have hnext : h' = { s.clients l.who with pc := .unlock } := by
      simpa [step,hpc,hr] using hstep.symm
    refine .quiet (by rw [hpc]; rfl) (by rw [hh',hnext]; rfl) (by rw [hh',hnext]; simp) hfPos
      fun _ => ?_
    rw [hdriver]
    exact line_stored hL (by simp) hw hr
  | @read env hact hpc r out p hread =>
    have hr : 0 ≤ r := by
      by_contra hneg
      exact hans.2 (by rw [if_neg hneg])
    rw [if_pos hr] at hstep hout ⊢
    obtain ⟨held,hheld,-⟩ := hL.ring
    obtain ⟨-,hbytes,hp,hend⟩ := read_returns hheld (by decide : 0 < bufferSize) hr hread
    rw [hp] at hfPos
    cases step_move hstep with
    | finished =>
      exact .finished hpc (by rw [hh']; rfl) hfPos hdriver (hend.mp rfl)
    | fetched _ hne =>
      rw [answers_fetched hne]
      exact .fetched (fun hnil => hne (by rw [hnil])) hpc (by rw [hh']) hfPos hout hdriver hbytes

omit [DecidableEq I] in
theorem ReplyMove.replied {rs : List (Bytes × Bytes)} (hm : ReplyMove s s' t rs) :
    rs = [] ∨ rs = [(s.outgoing t,contentBytes s.driver)] := by
  cases hm with
  | finished => exact Or.inr rfl
  | _ => exact Or.inl rfl

end Moves

-- the first response of a connection starts at position 0
structure FirstReply (s : System I) (t : I) : Prop where
  waiting : (s.clients t).pc.responding = false → s.fPos t = 0
  emptied : (s.clients t).pc = .reset → s.outgoing t = []
  sending : (s.clients t).pc.responding = true →
    s.outgoing t ++ unsent (s.clients t) = (contentBytes s.driver).take (s.fPos t) ∧
      s.fPos t ≤ (contentBytes s.driver).length

-- every later one starts where the one before it ended
structure LaterReply (s : System I) (t : I) : Prop where
  moved : 0 < s.fPos t
  emptied : (s.clients t).pc = .reset → s.outgoing t = []
  sending : (s.clients t).pc.responding = true →
    (s.outgoing t ++ unsent (s.clients t)).length < s.fPos t ∧
      (s.outgoing t ++ unsent (s.clients t) ≠ [] → s.fPos t ≤ (contentBytes s.driver).length)

section Positions
variable {s s' : System I} {t : I} {r : Bytes × Bytes}

omit [DecidableEq I]

theorem fetched_inside {content out : Bytes} {p : ℕ} (hne : out ≠ [])
    (hout : out = (content.drop p).take out.length) : p + out.length ≤ content.length := by
  have hpos := List.length_pos_of_ne_nil hne
  have hlen := congrArg List.length hout
  rw [List.length_take,List.length_drop] at hlen
  omega

theorem FirstReply.move (hf : FirstReply s t) (hm : ReplyMove s s' t []) : FirstReply s' t := by
  cases hm with
  | quiet hpc hpc' hr hfp =>
    exact ⟨fun _ => hfp.trans (hf.waiting hpc),fun h => absurd h hr,fun h => by simp [hpc'] at h⟩
  | unlocked hpc hpc' hfp ho hd =>
    have hzero := hf.waiting (by rw [hpc]; rfl)
    exact ⟨fun _ => hfp.trans hzero,fun _ => ho,fun h => by simp [hpc',Pc.responding] at h⟩
  | cleared hpc hpc' hfp ho hd =>
    have hzero := hf.waiting (by rw [hpc]; rfl)
    refine ⟨fun h => by simp [hpc',Pc.responding] at h,fun h => by simp [hpc'] at h,fun _ => ?_⟩
    rw [hfp,hzero,ho,hf.emptied hpc]
    simp [unsent,hpc']
  | @fetched out hne hpc hpc' hfp ho hd hout =>
    obtain ⟨htaken,hle⟩ := hf.sending (by rw [hpc]; rfl)
    have hread : unsent (s.clients t) = [] := by simp [unsent,hpc]
    rw [hread,List.append_nil] at htaken
    refine ⟨fun h => by simp [hpc',Pc.responding] at h,fun h => by simp [hpc'] at h,fun _ => ?_⟩
    rw [hfp,hd,ho,htaken,List.take_add,← hout]
    exact ⟨by simp [unsent,hpc'],fetched_inside hne hout⟩
  | @sent content hpc hpc' hfp ho hd =>
    obtain ⟨htaken,hle⟩ := hf.sending (by rw [hpc]; rfl)
    refine ⟨fun h => by simp [hpc',Pc.responding] at h,fun h => by simp [hpc'] at h,fun _ => ?_⟩
    rw [hfp,hd,ho]
    refine ⟨?_,hle⟩
    rw [← htaken]
    cases content <;> simp [unsent,hpc,hpc']

theorem FirstReply.entire (hf : FirstReply s t) (hm : ReplyMove s s' t [r]) :
    r.1 = r.2 ∧ s'.fPos t = r.2.length ∧ (s'.clients t).pc = .byte := by
  cases hm with
  | finished hpc hpc' hfp hd hend =>
    obtain ⟨htaken,hle⟩ := hf.sending (by rw [hpc]; rfl)
    have hread : unsent (s.clients t) = [] := by simp [unsent,hpc]
    rw [hread,List.append_nil,List.take_of_length_le hend] at htaken
    exact ⟨htaken,by simp only [hfp]; omega,hpc'⟩

theorem FirstReply.moved (hf : FirstReply s t) (hm : ReplyMove s s' t [r])
    (hc : (s.clients t).pc.committed = true → contentBytes s.driver ≠ []) : LaterReply s' t := by
  obtain ⟨-,hpos,hpc'⟩ := hf.entire hm
  refine ⟨?_,by simp [hpc'],by simp [hpc',Pc.responding]⟩
  rw [hpos]
  cases hm with
  | finished hpc => exact List.length_pos_of_ne_nil (hc (by rw [hpc]; rfl))

theorem LaterReply.move {rs : List (Bytes × Bytes)} (hl : LaterReply s t)
    (hm : ReplyMove s s' t rs) : LaterReply s' t := by
  have hpos := hl.moved
  cases hm with
  | quiet hpc hpc' hr hfp =>
    exact ⟨by omega,fun h => absurd h hr,fun h => by simp [hpc'] at h⟩
  | unlocked hpc hpc' hfp ho hd =>
    exact ⟨by omega,fun _ => ho,fun h => by simp [hpc',Pc.responding] at h⟩
  | cleared hpc hpc' hfp ho hd =>
    refine ⟨by omega,fun h => by simp [hpc'] at h,fun _ => ?_⟩
    rw [hfp,ho,hl.emptied hpc]
    simp [unsent,hpc',hpos]
  | @fetched out hne hpc hpc' hfp ho hd hout =>
    obtain ⟨hshort,-⟩ := hl.sending (by rw [hpc]; rfl)
    have hread : unsent (s.clients t) = [] := by simp [unsent,hpc]
    have hsend : unsent (s'.clients t) = out := by simp [unsent,hpc']
    rw [hread,List.append_nil] at hshort
    refine ⟨by omega,fun h => by simp [hpc'] at h,fun _ => ?_⟩
    rw [hfp,hd,ho,hsend,List.length_append]
    exact ⟨by omega,fun _ => fetched_inside hne hout⟩
  | @sent content hpc hpc' hfp ho hd =>
    have hsame : s'.outgoing t ++ unsent (s'.clients t) = s.outgoing t ++ unsent (s.clients t) := by
      rw [ho]
      cases content <;> simp [unsent,hpc,hpc']
    refine ⟨by omega,fun h => by simp [hpc'] at h,fun _ => ?_⟩
    rw [hsame,hfp,hd]
    exact hl.sending (by rw [hpc]; rfl)
  | finished hpc hpc' hfp hd =>
    exact ⟨by omega,fun h => by simp [hpc'] at h,fun h => by simp [hpc',Pc.responding] at h⟩

theorem LaterReply.cut (hl : LaterReply s t) (hm : ReplyMove s s' t [r])
    (hc : (s.clients t).pc.committed = true → contentBytes s.driver ≠ []) : r.1 ≠ r.2 := by
  cases hm with
  | finished hpc hpc' hfp hd hend =>
    obtain ⟨hshort,hle⟩ := hl.sending (by rw [hpc]; rfl)
    have hread : unsent (s.clients t) = [] := by simp [unsent,hpc]
    rw [hread,List.append_nil] at hshort hle
    intro heq
    have hall : s.outgoing t = contentBytes s.driver := heq
    have hin := hle (by rw [hall]; exact hc (by rw [hpc]; rfl))
    rw [← hall] at hin
    omega

theorem ReplyMove.committed_content {rs : List (Bytes × Bytes)} (hm : ReplyMove s s' t rs)
    (hc : (s.clients t).pc.committed = true → contentBytes s.driver ≠ []) :
    (s'.clients t).pc.committed = true → contentBytes s'.driver ≠ [] := by
  cases hm with
  | quiet _ _ _ _ hline => exact hline
  | unlocked hpc _ _ _ hd | cleared hpc _ _ _ hd | fetched _ hpc _ _ _ hd | sent hpc _ _ _ hd =>
    rw [hd]
    exact fun _ => hc (by rw [hpc]; rfl)
  | finished _ hpc' => simp [hpc',Pc.committed]

end Positions

section Sessions
variable {d : Driver} {s s' : System I} {l : Label I} {ls : List (Label I)} {t : I}

theorem replies_snoc (hr : Runs.run sysStep (start d) ls = some s) (hs : sysStep s l = some s') :
    replies d t (ls ++ [l]) = replies d t ls ++ replyOf t s l := Runs.outputs_snoc hr hs

theorem reply_other (ht : t ≠ l.who) : replyOf t s l = [] := if_neg (Ne.symm ht)

theorem driver_shown (hd : ∃ L, Shows d L) (hr : Runs.run sysStep (start d) ls = some s) :
    ∃ L, Shows s.driver L := by
  refine Runs.run_invariant (I := fun s => ∃ L, Shows s.driver L) ?_ hd hr
  rintro s l s' ⟨L,hL⟩ hs
  obtain ⟨a,hm⟩ := sys_step_moved hs
  rw [hm.driver]
  cases respond_responds hm.answered with
  | own | sought | read => exact ⟨L,hL⟩
  | wroteData _ _ hw | wroteNewline _ _ hw => exact shown_write hL hw

theorem replies_length (hr : Runs.run sysStep (start d) ls = some s)
    (hok : Runs.Along sysStep Answered (start d) ls) :
    (replies d t ls).length = (consumed (eventsOf d t ls) (s.clients t)).count newline := by
  refine Runs.guarded_induction (P := fun ls s => (replies d t ls).length =
    (consumed (eventsOf d t ls) (s.clients t)).count newline) rfl ?_ hr hok
  intro ls l s s' hrun hans ih hs
  obtain ⟨a,hm⟩ := sys_step_moved hs
  rw [replies_snoc hrun hs,events_of_snoc t hrun hs,List.length_append,ih]
  by_cases ht : t = l.who
  · subst ht
    have hlines := consumed_lines (framed_run (client_run l.who hrun)) hm.stepped
      (hans a hm.answered).1
    rw [hm.reply,hm.event_self,hlines,List.length_replicate]
  · rw [reply_other ht,event_other ht,List.append_nil,(hm.others t ht).1]
    rfl

end Sessions

section Alone
variable {d : Driver} {s s' : System Unit} {l : Label Unit} {ls : List (Label Unit)}
  {packets : List Bytes}

structure Conversation (d : Driver) (ls : List (Label Unit)) (s : System Unit) : Prop where
  first : replies d () ls = [] → FirstReply s ()
  later : replies d () ls ≠ [] → LaterReply s ()
  stored : (s.clients ()).pc.committed = true → contentBytes s.driver ≠ []
  entire : ∀ k r, (replies d () ls)[k]? = some r → (r.1 = r.2 ↔ k = 0)

theorem conversation_start (d : Driver) : Conversation d [] (start d) :=
  ⟨fun _ => ⟨fun _ => rfl,fun _ => rfl,by simp [start,init,Pc.responding]⟩,fun h => absurd rfl h,
    by simp [start,init,Pc.committed],by simp [replies]⟩

theorem entire_snoc {rs : List (Bytes × Bytes)} {r : Bytes × Bytes}
    (he : ∀ k x, rs[k]? = some x → (x.1 = x.2 ↔ k = 0)) (hr : r.1 = r.2 ↔ rs = []) :
    ∀ k x, (rs ++ [r])[k]? = some x → (x.1 = x.2 ↔ k = 0) := by
  intro k x hk
  rcases Nat.lt_trichotomy k rs.length with hlt | heq | hgt
  · rw [List.getElem?_append_left hlt] at hk
    exact he k x hk
  · subst heq
    rw [List.getElem?_concat_length] at hk
    cases hk
    rw [hr,List.length_eq_zero_iff]
  · rw [List.getElem?_eq_none (by simp only [List.length_append,List.length_singleton]; omega)] at hk
    cases hk

theorem conversation_step (hd : ∃ L, Shows s.driver L) (hr : Runs.run sysStep (start d) ls = some s)
    (hseek : ∀ arg, (s.clients ()).pc ≠ .ioctl arg) (hok : Succeeds s l)
    (hc : Conversation d ls s) (hs : sysStep s l = some s') : Conversation d (ls ++ [l]) s' := by
  have hm : ReplyMove s s' () (replyOf () s l) := reply_move hd hseek hok hs
  have hstored := hm.committed_content hc.stored
  have hsnoc : replies d () (ls ++ [l]) = replies d () ls ++ replyOf () s l := replies_snoc hr hs
  rcases hm.replied with hnone | hone
  · rw [hnone] at hm
    rw [hnone,List.append_nil] at hsnoc
    refine ⟨fun he => ?_,fun he => ?_,hstored,by rw [hsnoc]; exact hc.entire⟩
    · exact (hc.first (hsnoc ▸ he)).move hm
    · exact (hc.later (hsnoc ▸ he)).move hm
  · rw [hone] at hm hsnoc
    refine ⟨by simp [hsnoc],fun _ => ?_,hstored,?_⟩
    · by_cases he : replies d () ls = []
      · exact (hc.first he).moved hm hc.stored
      · exact (hc.later he).move hm
    · rw [hsnoc]
      refine entire_snoc hc.entire ⟨fun heq => ?_,fun he => ((hc.first he).entire hm).1⟩
      by_contra he
      exact (hc.later he).cut hm hc.stored heq

theorem conversation_run (hd : ∃ L, Shows d L) (hr : Runs.run sysStep (start d) ls = some s)
    (hok : Runs.Along sysStep Succeeds (start d) ls) (hp : DataPackets packets)
    (hs : received (eventsOf d () ls) <+: stream packets) : Conversation d ls s := by
  induction ls using List.reverseRecOn generalizing s with
  | nil =>
    cases hr
    exact conversation_start d
  | append_singleton ls l ih =>
    obtain ⟨m,hm,hstep⟩ := Runs.run_snoc hr
    obtain ⟨hok',hl⟩ := Runs.along_snoc hm hok
    have hpre := (received_mono () hm).trans hs
    have hrun := client_data_run hm (hok'.mono fun _ _ h => h.answered) hp hpre
    exact conversation_step (driver_shown hd hm) hm hrun.noSeek hl (ih hm hok' hpre) hstep

-- every packet received is answered, and the answer holds the whole device exactly when the packet is
-- the first of its connection
theorem reply_entire_iff_first (hd : Runs.Reachable writeStep aesdInitModule d)
    (hr : Runs.run sysStep (start d) ls = some s)
    (hok : Runs.Along sysStep Succeeds (start d) ls) (hp : DataPackets packets)
    (hs : received (eventsOf d () ls) <+: stream packets) :
    (∀ k r, (replies d () ls)[k]? = some r → (r.1 = r.2 ↔ k = 0)) ∧
      ((s.clients ()).pc = .recv → (replies d () ls).length =
        (received (eventsOf d () ls)).count newline) := by
  refine ⟨(conversation_run (reachable_shown hd) hr hok hp hs).entire,fun hpc => ?_⟩
  have hdrained := (framed_run (client_run () hr)).drained hpc
  rw [replies_length hr (hok.mono fun _ _ h => h.answered),consumed_received hdrained]

def twoPackets : List (Label Unit) :=
  .mk () (.thread (.recv [97,10,98,10])) ::
    [.thread .tau,.thread .tau,.thread .lock,.thread (.branch zeroStack),.device calm,.device calm,
      .thread .unlock,.thread .tau,.device calm,.thread (.send 2),.device calm,
      .thread .tau,.thread .tau,.thread .lock,.thread (.branch zeroStack),.device calm,.device calm,
      .thread .unlock,.thread .tau,.device calm,.thread (.send 2),.device calm,.thread .tau].map
      (Label.mk ())

theorem reply_entire_iff_first_two_packets :
    ∃ s, Runs.run sysStep (start aesdInitModule) twoPackets = some s ∧
      (∀ k r, (replies aesdInitModule () twoPackets)[k]? = some r → (r.1 = r.2 ↔ k = 0)) ∧
      ((s.clients ()).pc = .recv → (replies aesdInitModule () twoPackets).length =
        (received (eventsOf aesdInitModule () twoPackets)).count newline) := by
  obtain ⟨s,hs⟩ := Option.isSome_iff_exists.mp (show (Runs.checkedRun sysStep succeedsCheck
    (start aesdInitModule) twoPackets).isSome by decide)
  obtain ⟨hr,hc⟩ := Runs.checked_run hs
  have hp : DataPackets [[97],[98]] := ⟨by decide,by decide,by decide⟩
  exact ⟨s,hr,reply_entire_iff_first (Runs.Reachable.refl _) hr
    (hc.mono fun _ _ => succeeds_of_check) hp (by decide)⟩

theorem second_reply_cut :
    ∃ s, Runs.run sysStep (start aesdInitModule) twoPackets = some s ∧
      Runs.Along sysStep Succeeds (start aesdInitModule) twoPackets ∧
      DataPackets [[97],[98]] ∧
      received (eventsOf aesdInitModule () twoPackets) = stream [[97],[98]] ∧
      replies aesdInitModule () twoPackets = [([97,10],[97,10]),([98,10],[97,10,98,10])] ∧
      ¬ ∀ r ∈ replies aesdInitModule () twoPackets, r.1 = r.2 := by
  obtain ⟨s,hs⟩ := Option.isSome_iff_exists.mp (show (Runs.checkedRun sysStep succeedsCheck
    (start aesdInitModule) twoPackets).isSome by decide)
  obtain ⟨hr,hc⟩ := Runs.checked_run hs
  have hreplies : replies aesdInitModule () twoPackets =
      [([97,10],[97,10]),([98,10],[97,10,98,10])] := by decide
  refine ⟨s,hr,hc.mono fun _ _ => succeeds_of_check,⟨by decide,by decide,by decide⟩,by decide,
    hreplies,?_⟩
  rw [hreplies]
  decide

end Alone

end AesdServer
