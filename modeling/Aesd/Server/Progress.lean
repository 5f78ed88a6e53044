import Aesd.Server.LineServer

namespace ClientHandler
open Kernel

theorem index_bound {evs : List Event} {h : Handler} (hr : Runs.run step init evs = some h) :
    h.writeBufferIndex ≤ bufferSize := by
  refine Runs.run_invariant (I := fun h : Handler => h.writeBufferIndex ≤ bufferSize) ?_
    (Nat.zero_le _) hr
  intro h ev h' hi hs
  cases step_move hs with
  | stored _ _ _ hx => exact hx
  | cleared => exact Nat.zero_le _
  | _ => exact hi

end ClientHandler

namespace AesdServer
open Kernel Device ClientHandler Delimited

variable {I : Type}

def contentBound : ℕ := 10 * (bufferSize + 1)

section Bounds
variable {s s' : System I} {l : Label I} {ls : List (Label I)}

theorem flatten_bound {A : Type} {xs : List (List A)} {b : ℕ} (h : ∀ x ∈ xs, x.length ≤ b) :
    xs.flatten.length ≤ xs.length * b := by
  induction xs with
  | nil => simp
  | cons x xs ih =>
    have hx := h x (by simp)
    have hrest := ih fun y hy => h y (by simp [hy])
    rw [List.flatten_cons,List.length_append,List.length_cons,Nat.succ_mul]
    omega

variable [DecidableEq I]

theorem commit_bound (hr : Runs.run sysStep (start aesdInitModule) ls = some s) :
    ∀ p ∈ (commits aesdInitModule ls).map Prod.snd, p.length ≤ bufferSize := by
  refine Runs.run_induction (P := fun ls _ =>
    ∀ p ∈ (commits aesdInitModule ls).map Prod.snd, p.length ≤ bufferSize)
    (fun p hp => by simp [commits] at hp) ?_ hr
  intro ls l s s' hrun ih hs
  obtain ⟨a,hm⟩ := sys_step_moved hs
  rw [commits_snoc hrun hs,hm.commit,List.map_append]
  refine List.forall_mem_append.mpr ⟨ih,fun p hp => ?_⟩
  simp only [List.map_map,Function.comp_def,List.map_id'] at hp
  have hindex := index_bound (client_run l.who hrun)
  unfold storedBy at hp
  split at hp
  · split at hp
    · rw [List.mem_singleton.mp hp,Handler.payload,List.length_map,List.length_range]
      exact hindex
    · cases hp
  · cases hp

theorem content_bound (hr : Runs.run sysStep (start aesdInitModule) ls = some s)
    (hok : Runs.Along sysStep Answered (start aesdInitModule) ls) :
    (contentBytes s.driver).length ≤ contentBound := by
  have hst := storing_of_run hr hok
  obtain ⟨held,frag,hs,hc,-⟩ := stored_stream hst.holds hst.shown
  obtain ⟨held',hring,hcmds⟩ := (Shows.intact hs).ring
  have hline := (sound_run hr hok).partial_line
  rw [hring.content_bytes,hcmds]
  simp only
  rw [hc,pieces_unfinished _ hline,stream,pieces_lines (commit_lines hr)]
  have hlines : ∀ x ∈ (((commits aesdInitModule ls).map Prod.snd).map (· ++ [newline])).rtake 10,
      x.length ≤ bufferSize + 1 := by
    intro x hx
    obtain ⟨p,hp,rfl⟩ := List.mem_map.mp (List.mem_of_mem_drop hx)
    have hlen := commit_bound hr p hp
    rw [List.length_append,List.length_singleton]
    omega
  refine (flatten_bound hlines).trans (Nat.mul_le_mul_right _ ?_)
  rw [Recent.length_rtake]
  omega

end Bounds

section Responses
variable {s s' : System I} {l : Label I} {t : I}

-- the reads and sends that the client can still make before its response ends
def responseLeft (s : System I) (t : I) : ℕ :=
  2 * (contentBound - s.fPos t) + if (s.clients t).pc = .read then 0 else 1

theorem own_position {a : Answer} (hm : Moved s l s' a) (ho : Event.own a.event = true) :
    s'.fPos l.who = s.fPos l.who ∧ s'.driver = s.driver := by
  rw [hm.fPos,hm.driver]
  cases respond_responds hm.answered with
  | own => exact ⟨rfl,rfl⟩
  | _ => cases ho

theorem read_position {a : Answer} (hm : Moved s l s' a) (hd : ∃ L, Shows s.driver L)
    {out : Bytes} (hev : a.event = .read (some out)) :
    s'.fPos l.who = s.fPos l.who + out.length ∧ s'.driver = s.driver ∧
      out = ((contentBytes s.driver).drop (s.fPos l.who)).take out.length := by
  obtain ⟨L,hL⟩ := hd
  obtain ⟨held,hheld,-⟩ := hL.ring
  have hfPos := hm.fPos
  have hdriver := hm.driver
  cases respond_responds hm.answered with
  | own _ ho =>
    simp only at hev
    rw [hev] at ho
    cases ho
  | sought | wroteData | wroteNewline => cases hev
  | @read env _ hpc r got p hread =>
    by_cases hr : 0 ≤ r
    · simp only [if_pos hr,Event.read.injEq,Option.some.injEq] at hev
      subst hev
      obtain ⟨-,hbytes,hp,-⟩ := read_returns hheld (by decide : 0 < bufferSize) hr hread
      exact ⟨hfPos.trans hp,hdriver,hbytes⟩
    · simp [if_neg hr] at hev

-- each step of a client in its response ends it or brings the end nearer
theorem response_step {a : Answer} (hm : Moved s l s' a) (hd : ∃ L, Shows s.driver L)
    (hans : Answered s l) (hpc : (s.clients l.who).pc.replying = true)
    (hb : (contentBytes s.driver).length ≤ contentBound) :
    a.event.answers = 1 ∨ (s'.clients l.who).pc.replying = true ∧
      responseLeft s' l.who < responseLeft s l.who := by
  have hok := (hans a hm.answered).2
  have hstep := hm.stepped
  have hown := own_position hm
  have hread : ∀ out,a.event = .read (some out) → _ := fun _ => read_position hm hd
  unfold responseLeft
  generalize hev : a.event = ev at hstep hok hown hread
  generalize hh : s'.clients l.who = h' at hstep
  cases step_move hstep with
  | cleared hp =>
    obtain ⟨hf,-⟩ := hown rfl
    exact Or.inr ⟨rfl,by simp [hp,hf]⟩
  | finished hp => exact Or.inl rfl
  | @fetched hp content hne hlen =>
    cases content with
    | none => exact absurd rfl hok
    | some out =>
      obtain ⟨hf,-,hout⟩ := hread out rfl
      have hnil : out ≠ [] := fun he => hne (by rw [he])
      have hfit := fetched_inside hnil hout
      have hpos := List.length_pos_of_ne_nil hnil
      refine Or.inr ⟨rfl,?_⟩
      rw [hf,hp,if_pos rfl,if_neg (by simp)]
      omega
  | sent hp =>
    obtain ⟨hf,-⟩ := hown rfl
    refine Or.inr ⟨rfl,?_⟩
    rw [hf,hp,if_pos rfl,if_neg (by simp)]
    omega
  | closed hp | received hp | drained hp | completed hp | stored hp | overran hp | locked hp
  | seek hp | data hp | sought hp | seekFailed hp | wroteData hp | dataFailed hp | wroteNewline hp
  | newlineFailed hp | unlocked hp => simp [hp,Pc.replying] at hpc

theorem response_left_bound (s : System I) (t : I) :
    responseLeft s t ≤ 2 * contentBound + 1 := by
  unfold responseLeft
  split <;> omega

variable [DecidableEq I]

theorem Past.content_bound (h : Past s) : (contentBytes s.driver).length ≤ contentBound := by
  obtain ⟨ls,hr,hok⟩ := h.run
  exact AesdServer.content_bound hr hok

theorem response_other (hs : sysStep s l = some s') (ht : t ≠ l.who) :
    s'.clients t = s.clients t ∧ responseLeft s' t = responseLeft s t := by
  obtain ⟨a,hm⟩ := sys_step_moved hs
  obtain ⟨hc,hf,-⟩ := hm.others t ht
  exact ⟨hc,by rw [responseLeft,hc,hf,responseLeft]⟩

theorem response_steps {more : List (Label I)} (hp : Past s) (hr : Runs.run sysStep s more = some s')
    (hok : Runs.Along sysStep Answered s more) (hpc : (s.clients t).pc.replying = true)
    (hno : Runs.outputs sysStep (replyOf t) s more = []) :
    more.countP (fun l => l.who = t) ≤ responseLeft s t := by
  induction more generalizing s with
  | nil => simp
  | cons l more ih =>
    obtain ⟨m,hs,hrest⟩ := Runs.run_cons hr
    obtain ⟨hl,hok'⟩ := hok
    rw [Runs.outputs_cons hs,List.append_eq_nil_iff] at hno
    have hpm := hp.next hl hs
    by_cases ht : l.who = t
    · subst ht
      obtain ⟨a,hm⟩ := sys_step_moved hs
      rw [List.countP_cons_of_pos (by simp)]
      rcases response_step hm hp.sound.driver hl hpc hp.content_bound with hone | ⟨hpc',hlt⟩
      · have hreply := hno.1
        rw [hm.reply,hone] at hreply
        cases hreply
      · have hrest := ih hpm hrest (hok' m hs) hpc' hno.2
        omega
    · obtain ⟨hc,hleft⟩ := response_other hs (Ne.symm ht)
      rw [List.countP_cons_of_neg (by simpa using ht),← hleft]
      exact ih hpm hrest (hok' m hs) (by rw [hc]; exact hpc) hno.2

-- however much the others write meanwhile, a client is not kept in its response: the content is
-- bounded and each of its reads moves it forward
theorem response_bounded {ls more : List (Label I)}
    (hr : Runs.run sysStep (start aesdInitModule) ls = some s)
    (hm : Runs.run sysStep s more = some s')
    (hok : Runs.Along sysStep Answered (start aesdInitModule) (ls ++ more))
    (hpc : (s.clients t).pc.replying = true)
    (hno : Runs.outputs sysStep (replyOf t) s more = []) :
    more.countP (fun l => l.who = t) ≤ 2 * contentBound + 1 := by
  obtain ⟨hbefore,hafter⟩ := Runs.along_append.mp hok
  exact (response_steps ⟨ls,hr,hbefore⟩ hm (hafter s hr) hpc hno).trans (response_left_bound s t)

end Responses

theorem response_bounded_of_one :
    ∃ s s', Runs.run sysStep (start aesdInitModule) (dataThenSeek.take 9) = some s ∧
      Runs.run sysStep s ((dataThenSeek.drop 9).take 2) = some s' ∧
      ((dataThenSeek.drop 9).take 2).countP (fun l => l.who = ()) ≤ 2 * contentBound + 1 := by
  obtain ⟨s,hs,hpc⟩ := Option.map_eq_some_iff.mp (show (Runs.checkedRun sysStep answeredCheck
    (start aesdInitModule) (dataThenSeek.take 9)).map (fun s => (s.clients ()).pc) = some .read by
      decide)
  obtain ⟨s',hs'⟩ := Option.isSome_iff_exists.mp (show (Runs.checkedRun sysStep answeredCheck
    (start aesdInitModule) (dataThenSeek.take 9 ++ (dataThenSeek.drop 9).take 2)).isSome by decide)
  obtain ⟨hr,-⟩ := Runs.checked_run hs
  obtain ⟨hall,ha⟩ := Runs.checked_run hs'
  obtain ⟨m,hm,hmore⟩ := Runs.run_split hall
  rw [hr] at hm
  cases hm
  refine ⟨s,s',hr,hmore,response_bounded hr hmore (ha.mono fun _ _ => answered_of_check)
    (by rw [hpc]; rfl) ?_⟩
  have hnone : replies aesdInitModule ()
      (dataThenSeek.take 9 ++ (dataThenSeek.drop 9).take 2) = [] := by decide
  rw [replies,Runs.outputs_append hr] at hnone
  exact (List.append_eq_nil_iff.mp hnone).2

end AesdServer
