import Aesd.Server.Segmentation
import Aesd.Server.Snapshots

namespace ClientHandler

def Event.unlocks : Event → ℕ
  | .unlock => 1
  | _ => 0

def Pc.replying : Pc → Bool
  | .reset | .read | .send _ => true
  | _ => false

-- only the unlock after a commit leads into the response, and only its end answers the packet
theorem quiet_move {h h' : Handler} {ev : Event} (hs : step h ev = some h')
    (hq : h.pc.replying = false) (hu : h.pc ≠ .unlock) :
    h'.pc.replying = false ∧ ev.answers = 0 ∧ ev.unlocks = 0 := by
  cases step_move hs with
  | unlocked hpc => exact absurd hpc hu
  | cleared hpc | finished hpc | fetched hpc | sent hpc => simp [hpc,Pc.replying] at hq
  | _ => exact ⟨rfl,rfl,rfl⟩

theorem replying_move {h h' : Handler} {ev : Event} (hs : step h ev = some h')
    (hq : h.pc.replying = true) : ev.unlocks = 0 ∧ (h.pc = .reset → h'.pc = .read) := by
  cases step_move hs with
  | unlocked hpc => simp [hpc,Pc.replying] at hq
  | cleared => exact ⟨rfl,fun _ => rfl⟩
  | _ hpc => exact ⟨rfl,fun he => by simp [hpc] at he⟩

end ClientHandler

namespace AesdServer
open Kernel Device ClientHandler

variable {I : Type}

-- no entry is evicted while another client has a part of its response
def Uncut (s : System I) (l : Label I) : Prop :=
  ∀ buf ∈ written s l, Evicting s.driver buf → ∀ u, u ≠ l.who → (s.clients u).pc.responding = true →
    s.outgoing u ++ unsent (s.clients u) = []

instance [DecidableEq I] [Fintype I] (s : System I) (l : Label I) : Decidable (Uncut s l) :=
  inferInstanceAs (Decidable (∀ buf ∈ written s l, _))

inductive Replying (p : ℕ) (s : System I) (t : I) : Prop
  | emptied (hpc : (s.clients t).pc = .reset) (hf : s.fPos t = p) (ho : s.outgoing t = [])
  | sending (hpc : (s.clients t).pc.responding = true) (hp : p ≤ s.fPos t)
      (hf : s.fPos t ≤ max p (contentBytes s.driver).length)
      (ho : s.outgoing t ++ unsent (s.clients t) =
        ((contentBytes s.driver).drop p).take (s.fPos t - p))

section Phases
variable {s s' : System I} {t : I} {p : ℕ} {rs : List (Bytes × Bytes)}

theorem responding_replying {pc : Pc} (h : pc.responding = true) : pc.replying = true := by
  cases pc with
  | read | send => rfl
  | _ => cases h

theorem Replying.replying (h : Replying p s t) : (s.clients t).pc.replying = true := by
  cases h with
  | emptied hpc => rw [hpc]; rfl
  | sending hpc => exact responding_replying hpc

theorem fetched_tail {content out : Bytes} {q : ℕ} (hp : p ≤ q)
    (hout : out = (content.drop q).take out.length) :
    (content.drop p).take (q - p) ++ out = (content.drop p).take (q + out.length - p) := by
  have hsplit : q + out.length - p = (q - p) + out.length := by omega
  rw [hsplit,List.take_add,List.drop_drop,Nat.add_sub_cancel' hp,← hout]

theorem Replying.move (h : Replying p s t) (hm : ReplyMove s s' t rs)
    (hread : (s.clients t).pc = .reset → (s'.clients t).pc = .read) :
    (rs = [] ∧ Replying p s' t) ∨
      (rs = [((contentBytes s.driver).drop p,contentBytes s.driver)] ∧
        (s'.clients t).pc = .byte ∧ s'.fPos t = max p (contentBytes s.driver).length) := by
  cases hm with
  | quiet hpc hpc' =>
    cases h with
    | emptied he => simp [hread he,Pc.responding] at hpc'
    | sending hr => simp [hpc] at hr
  | unlocked hpc =>
    have hq := h.replying
    simp [hpc,Pc.replying] at hq
  | cleared hpc hpc' hf ho hd =>
    cases h with
    | sending hr => simp [hpc,Pc.responding] at hr
    | emptied _ hfp hout =>
      refine Or.inl ⟨rfl,.sending (by rw [hpc']; rfl) (by omega) (by omega) ?_⟩
      rw [ho,hf,hout,hfp,unsent,hpc',Nat.sub_self]
      rfl
  | @fetched out hne hpc hpc' hf ho hd hout =>
    cases h with
    | emptied he => simp [hpc] at he
    | sending _ hp hle htaken =>
      have hfit := fetched_inside hne hout
      refine Or.inl ⟨rfl,.sending (by rw [hpc']; rfl) (by omega) (by rw [hf,hd]; omega) ?_⟩
      have hread : unsent (s.clients t) = [] := by simp [unsent,hpc]
      rw [hread,List.append_nil] at htaken
      rw [ho,hd,hf,htaken,← fetched_tail hp hout,unsent,hpc']
  | @sent content hpc hpc' hf ho hd =>
    cases h with
    | emptied he => simp [hpc] at he
    | sending _ hp hle htaken =>
      refine Or.inl ⟨rfl,.sending (by rw [hpc']; rfl) (by omega) (by rw [hf,hd]; omega) ?_⟩
      rw [ho,hd,hf,← htaken]
      cases content <;> simp [unsent,hpc,hpc']
  | finished hpc hpc' hf hd hend =>
    cases h with
    | emptied he => simp [hpc] at he
    | sending _ hp hle htaken =>
      have hread : unsent (s.clients t) = [] := by simp [unsent,hpc]
      rw [hread,List.append_nil] at htaken
      have hall : ((contentBytes s.driver).drop p).take (s.fPos t - p) =
          (contentBytes s.driver).drop p :=
        List.take_of_length_le (by rw [List.length_drop]; omega)
      exact Or.inr ⟨by rw [htaken,hall],hpc',by omega⟩

variable {l : Label I}

theorem Moved.unlocked {a : Answer} (hm : Moved s l s' a) (hpc : (s.clients l.who).pc = .unlock) :
    a.event = .unlock ∧ Replying (s.fPos l.who) s' l.who := by
  have hstep := hm.stepped
  have hout := hm.outgoing
  have hfPos := hm.fPos
  have hevent : a.event = .unlock ∧ (s'.clients l.who).pc = .reset := by
    generalize he : a.event = ev at hstep
    generalize s'.clients l.who = h' at hstep
    cases step_move hstep with
    | unlocked => exact ⟨rfl,rfl⟩
    | _ hq => simp [hpc] at hq
  obtain ⟨he,hpc'⟩ := hevent
  rw [he] at hout
  refine ⟨he,.emptied hpc' ?_ hout⟩
  rw [hfPos]
  cases respond_responds hm.answered with
  | own => rfl
  | _ => cases he

variable [DecidableEq I]

theorem Replying.other (h : Replying p s t) (ht : t ≠ l.who) (hd : ∃ L, Shows s.driver L)
    (hans : Answered s l) (hu : Uncut s l) (hs : sysStep s l = some s') : Replying p s' t := by
  obtain ⟨a,hm⟩ := sys_step_moved hs
  obtain ⟨hc,hfp,hout⟩ := hm.others t ht
  cases h with
  | emptied hpc hf ho => exact .emptied (hc ▸ hpc) (hfp.trans hf) (hout.trans ho)
  | sending hpc hp hf ho =>
    rcases driver_growth hd hans hs with ⟨more,hmore⟩ | ⟨buf,hbuf,he⟩
    · refine .sending (hc ▸ hpc) (hfp ▸ hp) ?_ ?_
      · rw [hfp,← hmore,List.length_append]
        omega
      · rw [hfp,hc,hout,ho,← hmore]
        rcases Nat.lt_or_ge (s.fPos t) p with hlt | hge
        · omega
        · rcases Nat.le_total p (contentBytes s.driver).length with hin | hpast
          · rw [List.drop_append_of_le_length hin,List.take_append_of_le_length]
            rw [List.length_drop]
            omega
          · have hz : s.fPos t - p = 0 := by omega
            rw [hz]
            rfl
    · have hnone := hu buf hbuf he t ht hpc
      have hlen := congrArg List.length ho
      rw [hnone,List.length_nil,List.length_take,List.length_drop] at hlen
      have hstill : s.fPos t = p := by omega
      refine .sending (hc ▸ hpc) (hfp ▸ hp) (by omega) ?_
      rw [hfp,hc,hout,hnone,hstill,Nat.sub_self]
      rfl

end Phases

def suffix (p : ℕ) (content : Bytes) : Bytes × Bytes := (content.drop p,content)

inductive Tracked (rs : List (Bytes × Bytes)) (s : System I) (t : I) : List ℕ → Prop
  | quiet {ps : List ℕ} (hpc : (s.clients t).pc.replying = false) (hn : ps.length = rs.length)
      (hl : rs = List.zipWith suffix ps (rs.map Prod.snd)) : Tracked rs s t ps
  | replying {ps : List ℕ} {p : ℕ} (hr : Replying p s t) (hn : ps.length = rs.length)
      (hl : rs = List.zipWith suffix ps (rs.map Prod.snd)) : Tracked rs s t (ps ++ [p])

theorem Tracked.law {rs : List (Bytes × Bytes)} {s : System I} {t : I} {ps : List ℕ}
    (h : Tracked rs s t ps) :
    rs = List.zipWith suffix ps (rs.map Prod.snd) := by
  cases h with
  | quiet _ _ hl => exact hl
  | @replying ps p _ hn hl =>
    have happend : List.zipWith suffix (ps ++ [p]) (rs.map Prod.snd ++ []) =
        List.zipWith suffix ps (rs.map Prod.snd) ++ List.zipWith suffix [p] [] :=
      List.zipWith_append (by simp [hn])
    rw [List.append_nil,← hl] at happend
    simpa using happend.symm

variable [DecidableEq I]

-- where the client stood in the content when it released file_mutex
def placedAt (t : I) (s : System I) (l : Label I) : List ℕ :=
  if l.who = t then
    (respond s l).toList.flatMap fun a => List.replicate a.event.unlocks (s.fPos t)
  else []

def placements (d : Driver) (t : I) (ls : List (Label I)) : List ℕ :=
  Runs.outputs sysStep (placedAt t) (start d) ls

section Laws
variable {d : Driver} {s s' : System I} {l : Label I} {ls : List (Label I)} {a : Answer} {t : I}

theorem placements_snoc (hr : Runs.run sysStep (start d) ls = some s) (hs : sysStep s l = some s') :
    placements d t (ls ++ [l]) = placements d t ls ++ placedAt t s l := Runs.outputs_snoc hr hs

theorem Moved.placed (hm : Moved s l s' a) :
    placedAt l.who s l = List.replicate a.event.unlocks (s.fPos l.who) := by
  simp [placedAt,hm.answered]

theorem placed_other (ht : t ≠ l.who) : placedAt t s l = [] := if_neg (Ne.symm ht)

theorem Tracked.own {rs : List (Bytes × Bytes)} {ps : List ℕ} (h : Tracked rs s l.who ps)
    (hd : ∃ L, Shows s.driver L) (hok : Succeeds s l) (hs : sysStep s l = some s') :
    Tracked (rs ++ replyOf l.who s l) s' l.who (ps ++ placedAt l.who s l) := by
  obtain ⟨a,hm⟩ := sys_step_moved hs
  have hstep := hm.stepped
  cases h with
  | quiet hpc hn hl =>
    by_cases hu : (s.clients l.who).pc = .unlock
    · obtain ⟨he,hr⟩ := hm.unlocked hu
      rw [hm.reply,hm.placed,he]
      simp only [Event.answers,Event.unlocks,List.replicate_zero,List.append_nil]
      exact .replying hr hn hl
    · obtain ⟨hpc',hans,hun⟩ := quiet_move hstep hpc hu
      rw [hm.reply,hm.placed,hans,hun,List.replicate_zero,List.replicate_zero,List.append_nil,
        List.append_nil]
      exact .quiet hpc' hn hl
  | @replying ps p hr hn hl =>
    obtain ⟨hun,hread⟩ := replying_move hstep hr.replying
    have hseek (arg : AesdSeekto) : (s.clients l.who).pc ≠ .ioctl arg := fun he => by
      have hq := hr.replying
      simp [he,Pc.replying] at hq
    rw [hm.placed,hun,List.replicate_zero,List.append_nil]
    rcases hr.move (reply_move hd hseek hok hs) hread with ⟨hnone,hr'⟩ | ⟨hone,hpc',-⟩
    · rw [hnone,List.append_nil]
      exact .replying hr' hn hl
    · rw [hone]
      refine .quiet (by rw [hpc']; rfl) (by simp [hn]) ?_
      rw [List.map_append,List.zipWith_append (by simp [hn]),← hl]
      rfl

theorem Tracked.other {rs : List (Bytes × Bytes)} {ps : List ℕ} (h : Tracked rs s t ps)
    (ht : t ≠ l.who) (hd : ∃ L, Shows s.driver L) (hans : Answered s l) (hu : Uncut s l)
    (hs : sysStep s l = some s') : Tracked rs s' t ps := by
  obtain ⟨a,hm⟩ := sys_step_moved hs
  cases h with
  | quiet hpc hn hl => exact .quiet (by rw [(hm.others t ht).1]; exact hpc) hn hl
  | replying hr hn hl => exact .replying (hr.other ht hd hans hu hs) hn hl

theorem tracked_run (hd : ∃ L, Shows d L) (hr : Runs.run sysStep (start d) ls = some s)
    (hok : Runs.Along sysStep (fun m l => Succeeds m l ∧ Uncut m l) (start d) ls) (t : I) :
    Tracked (replies d t ls) s t (placements d t ls) := by
  refine Runs.guarded_induction (P := fun ls s => Tracked (replies d t ls) s t (placements d t ls))
    (.quiet rfl rfl rfl) ?_ hr hok
  rintro ls l s s' hrun ⟨hl,hu⟩ ih hs
  rw [replies_snoc hrun hs,placements_snoc hrun hs]
  by_cases ht : t = l.who
  · subst ht
    exact ih.own (driver_shown hd hrun) hl hs
  · rw [reply_other ht,placed_other ht,List.append_nil,List.append_nil]
    exact ih.other ht (driver_shown hd hrun) hl.answered hu hs

end Laws

-- the answer to a packet, be it data or a seek, is the content of the device from the position the
-- client had when it released file_mutex
theorem replies_from_positions {d : Driver} {s : System I} {ls : List (Label I)}
    (hd : Runs.Reachable writeStep aesdInitModule d)
    (hr : Runs.run sysStep (start d) ls = some s)
    (hok : Runs.Along sysStep (fun m l => Succeeds m l ∧ Uncut m l) (start d) ls) (t : I) :
    replies d t ls = List.zipWith suffix (placements d t ls) ((replies d t ls).map Prod.snd) :=
  (tracked_run (reachable_shown hd) hr hok t).law

def alone (acts : List Act) : List (Label Unit) := acts.map (Label.mk ())

def dataThenSeek : List (Label Unit) :=
  alone [.thread (.recv [97,10]),.thread .tau,.thread .tau,.thread .lock,.thread (.branch zeroStack),
    .device calm,.device calm,.thread .unlock,.thread .tau,.device calm,.thread (.send 2),
    .device calm,.thread .tau,.thread (.recv (seekPacket '0' '1'))] ++
  alone (List.replicate 23 (.thread .tau)) ++
  alone [.thread .lock,.thread (.branch zeroStack),.device calm,.thread .unlock,.thread .tau,
    .device calm,.thread (.send 1),.device calm]

def uncutCheck [Fintype I] (s : System I) (l : Label I) : Bool :=
  succeedsCheck s l && decide (Uncut s l)

theorem succeeds_uncut [Fintype I] {s : System I} {l : Label I}
    (h : uncutCheck s l = true) : Succeeds s l ∧ Uncut s l := by
  rw [uncutCheck,Bool.and_eq_true,decide_eq_true_iff] at h
  exact ⟨succeeds_of_check h.1,h.2⟩

theorem replies_from_positions_of_seek :
    placements aesdInitModule () dataThenSeek = [0,1] ∧
      replies aesdInitModule () dataThenSeek = List.zipWith suffix
        (placements aesdInitModule () dataThenSeek)
        ((replies aesdInitModule () dataThenSeek).map Prod.snd) := by
  obtain ⟨s,hs⟩ := Option.isSome_iff_exists.mp (show (Runs.checkedRun sysStep uncutCheck
    (start aesdInitModule) dataThenSeek).isSome by decide)
  obtain ⟨hr,hc⟩ := Runs.checked_run hs
  exact ⟨by decide,replies_from_positions (Runs.Reachable.refl _) hr
    (hc.mono fun _ _ => succeeds_uncut) ()⟩

-- a client that sends no seek gets the content from where its last response ended
def follow (p : ℕ) : List Bytes → List Bytes
  | [] => []
  | content :: contents => content.drop p :: follow (max p content.length) contents

def standing (contents : List Bytes) : ℕ := contents.foldl (fun p content => max p content.length) 0

section Following
variable {d : Driver} {s s' : System I} {l : Label I} {ls : List (Label I)} {t : I}

theorem follow_snoc (p : ℕ) (contents : List Bytes) (content : Bytes) :
    follow p (contents ++ [content]) = follow p contents ++
      [content.drop (contents.foldl (fun p content => max p content.length) p)] := by
  induction contents generalizing p with
  | nil => rfl
  | cons c contents ih => exact congrArg (c.drop p :: ·) (ih (max p c.length))

structure Follows (rs : List (Bytes × Bytes)) (s : System I) (t : I) : Prop where
  law : rs.map Prod.fst = follow 0 (rs.map Prod.snd)
  waiting : (s.clients t).pc.replying = false → s.fPos t = standing (rs.map Prod.snd)
  replying : (s.clients t).pc.replying = true → Replying (standing (rs.map Prod.snd)) s t

omit [DecidableEq I] in
theorem Follows.waited {rs more : List (Bytes × Bytes)} (h : Follows rs s t)
    (hq : (s.clients t).pc.replying = false) (hm : ReplyMove s s' t more)
    (hu : (s.clients t).pc = .unlock → Replying (s.fPos t) s' t) : Follows (rs ++ more) s' t := by
  have hstill := h.waiting hq
  cases hm with
  | quiet hpc hpc' hreset hf =>
    rw [List.append_nil]
    refine ⟨h.law,fun _ => hf.trans hstill,fun hr => ?_⟩
    exfalso
    generalize (s'.clients t).pc = pc at hpc' hreset hr
    cases pc with
    | reset => exact hreset rfl
    | read | send => cases hpc'
    | _ => cases hr
  | unlocked hpc hpc' =>
    rw [List.append_nil]
    exact ⟨h.law,fun hr => by simp [hpc',Pc.replying] at hr,fun _ => hstill ▸ hu hpc⟩
  | cleared hpc | fetched _ hpc | sent hpc | finished hpc => simp [hpc,Pc.replying] at hq

omit [DecidableEq I] in
theorem Follows.replied {rs more : List (Bytes × Bytes)} (h : Follows rs s t)
    (hq : (s.clients t).pc.replying = true) (hm : ReplyMove s s' t more)
    (hread : (s.clients t).pc = .reset → (s'.clients t).pc = .read) : Follows (rs ++ more) s' t := by
  rcases (h.replying hq).move hm hread with ⟨rfl,hr⟩ | ⟨rfl,hpc',hf⟩
  · rw [List.append_nil]
    refine ⟨h.law,fun hn => ?_,fun _ => hr⟩
    rw [hr.replying] at hn
    cases hn
  · refine ⟨?_,fun _ => ?_,fun hr => by simp [hpc',Pc.replying] at hr⟩
    · rw [List.map_append,List.map_append,h.law]
      exact (follow_snoc 0 _ _).symm
    · rw [hf,List.map_append,standing,standing,List.foldl_append]
      rfl

variable {packets : List Bytes}

theorem Follows.own {rs : List (Bytes × Bytes)} (h : Follows rs s l.who)
    (hd : ∃ L, Shows s.driver L) (hseek : ∀ arg, (s.clients l.who).pc ≠ .ioctl arg)
    (hok : Succeeds s l) (hs : sysStep s l = some s') :
    Follows (rs ++ replyOf l.who s l) s' l.who := by
  obtain ⟨a,hm⟩ := sys_step_moved hs
  have hmove := reply_move hd hseek hok hs
  cases hq : (s.clients l.who).pc.replying with
  | true => exact h.replied hq hmove (replying_move hm.stepped hq).2
  | false => exact h.waited hq hmove fun hpc => (hm.unlocked hpc).2

theorem Follows.other {rs : List (Bytes × Bytes)} (h : Follows rs s t) (ht : t ≠ l.who)
    (hd : ∃ L, Shows s.driver L) (hans : Answered s l) (hu : Uncut s l)
    (hs : sysStep s l = some s') : Follows rs s' t := by
  obtain ⟨a,hm⟩ := sys_step_moved hs
  obtain ⟨hc,hf,-⟩ := hm.others t ht
  refine ⟨h.law,by rw [hc,hf]; exact h.waiting,fun hq => ?_⟩
  rw [hc] at hq
  exact (h.replying hq).other ht hd hans hu hs

theorem follows_run (hd : ∃ L, Shows d L) (hr : Runs.run sysStep (start d) ls = some s)
    (hok : Runs.Along sysStep (fun m l => Succeeds m l ∧ Uncut m l) (start d) ls)
    (hp : DataPackets packets) (hs : received (eventsOf d t ls) <+: stream packets) :
    Follows (replies d t ls) s t := by
  induction ls using List.reverseRecOn generalizing s with
  | nil =>
    cases hr
    exact ⟨rfl,fun _ => rfl,fun hq => by cases hq⟩
  | append_singleton ls l ih =>
    obtain ⟨m,hm,hstep⟩ := Runs.run_snoc hr
    obtain ⟨hok',hl,hu⟩ := Runs.along_snoc hm hok
    have hpre := (received_mono t hm).trans hs
    have hfollows := ih hm hok' hpre
    rw [replies_snoc hm hstep]
    by_cases ht : t = l.who
    · subst ht
      have hrun := client_data_run hm (hok'.mono fun _ _ h => h.1.answered) hp hpre
      exact hfollows.own (driver_shown hd hm) hrun.noSeek hl hstep
    · rw [reply_other ht,List.append_nil]
      exact hfollows.other ht (driver_shown hd hm) hl.answered hu hstep

theorem replies_follow_on (hd : Runs.Reachable writeStep aesdInitModule d)
    (hr : Runs.run sysStep (start d) ls = some s)
    (hok : Runs.Along sysStep (fun m l => Succeeds m l ∧ Uncut m l) (start d) ls)
    (hp : DataPackets packets) (hs : received (eventsOf d t ls) <+: stream packets) :
    (replies d t ls).map Prod.fst = follow 0 ((replies d t ls).map Prod.snd) :=
  (follows_run (reachable_shown hd) hr hok hp hs).law

end Following

theorem replies_follow_on_two_packets :
    (replies aesdInitModule () twoPackets).map Prod.fst =
      follow 0 ((replies aesdInitModule () twoPackets).map Prod.snd) := by
  obtain ⟨s,hs⟩ := Option.isSome_iff_exists.mp (show (Runs.checkedRun sysStep uncutCheck
    (start aesdInitModule) twoPackets).isSome by decide)
  obtain ⟨hr,hc⟩ := Runs.checked_run hs
  have hp : DataPackets [[97],[98]] := ⟨by decide,by decide,by decide⟩
  exact replies_follow_on (Runs.Reachable.refl _) hr (hc.mono fun _ _ => succeeds_uncut) hp
    (by decide)

end AesdServer
