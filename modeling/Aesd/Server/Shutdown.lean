import Aesd.Server.HandlerStack

namespace AesdSocket
open Kernel ThreadManager ClientHandler Ledger

def absent (s : Program) : Resource → Prop
  | .addrinfo => s.line = .getaddrinfo
  | .socket => s.line = .getaddrinfo ∨ s.line = .socket
  | .entry p => s.process.server.manager.next ≤ p

-- some cleanup_server has released n of the socket and the address list, or the process has ended
def past (s : Program) (n : ℕ) : Prop :=
  match s.line with
  | .exited => True
  | .cleanupServer pc => n ≤ stage pc
  | .acceptConnections => ∃ t, ∃ f ∈ s.process.frames t, n ≤ stage f.pc
  | _ => False

def gone (s : Program) : Resource → Prop
  | .addrinfo => past s 2
  | .socket => past s 1
  | .entry p => s.process.server.manager.entries p = none

structure Orderly (s : Program) : Prop where
  line : s.line ≠ .exitSocketBind ∧ s.line ≠ .exitFreeAddrinfoStruct
  idle : s.line ≠ .acceptConnections → ∀ t, s.process.frames t = []
  serving : Serving s.process

section Program
variable {dev : Bool} {s s' : Program} {acts : List (Action Resource)}

-- the resources that are not entries
def kept (s s' : Program) (r : Resource) : Prop := (absent s r ↔ absent s' r) ∧ (gone s r → gone s' r)

theorem EntryChange.change
    (h : EntryChange s.process.server.manager s'.process.server.manager acts)
    (ha : kept s s' .addrinfo) (hs : kept s s' .socket) :
    Change (absent s) (gone s) (absent s') (gone s') acts := by
  cases h with
  | quiet hn hk =>
    refine .quiet fun r => ?_
    cases r with
    | addrinfo => exact ha
    | socket => exact hs
    | entry p => exact ⟨by simp only [absent,hn],hk p⟩
  | created hn hk =>
    refine .acquired _ (Nat.le_refl _) (fun hle => ?_) fun r hr => ?_
    · simp only [absent,hn] at hle
      omega
    · cases r with
      | addrinfo => exact ha
      | socket => exact hs
      | entry p =>
        have hne : p ≠ s.process.server.manager.next := fun he => hr (by rw [he])
        refine ⟨?_,hk p hne⟩
        simp only [absent,hn]
        omega
  | removed p hp ha' hn hf hk =>
    refine .released _ (Nat.not_le.mpr hp) ha' (by simpa only [absent,hn] using Nat.not_le.mpr hp)
      hf fun r hr => ?_
    cases r with
    | addrinfo => exact ha
    | socket => exact hs
    | entry q => exact ⟨by simp only [absent,hn],hk q⟩
  | spent hn hf hk =>
    refine .spent _ (Nat.le_refl _) (fun hle => ?_) hf fun r hr => ?_
    · simp only [absent,hn] at hle
      omega
    · cases r with
      | addrinfo => exact ha
      | socket => exact hs
      | entry p =>
        have hne : p ≠ s.process.server.manager.next := fun he => hr (by rw [he])
        refine ⟨?_,hk p⟩
        simp only [absent,hn]
        omega

theorem serve_kept (hl : s.line = .acceptConnections) (hl' : s'.line = .acceptConnections)
    (h : ∀ n, 1 ≤ n → (∃ t, ∃ f ∈ s.process.frames t, n ≤ stage f.pc) →
      ∃ t, ∃ f ∈ s'.process.frames t, n ≤ stage f.pc) :
    kept s s' .addrinfo ∧ kept s s' .socket := by
  have hpast (n : ℕ) (hn : 1 ≤ n) (hp : past s n) : past s' n := by
    unfold past at hp ⊢
    rw [hl] at hp
    rw [hl']
    exact h n hn hp
  exact ⟨⟨by simp [absent,hl,hl'],hpast 2 (by decide)⟩,⟨by simp [absent,hl,hl'],hpast 1 (by decide)⟩⟩

theorem past_one (h : past s 2) : past s 1 := by
  unfold past at h ⊢
  split at h
  · trivial
  · exact Nat.le_of_succ_le h
  · obtain ⟨t,f,hf,hs⟩ := h
    exact ⟨t,f,hf,Nat.le_of_succ_le hs⟩
  · cases h

def started (s : Program) : Prop := s.line ≠ .getaddrinfo ∧ s.line ≠ .socket

theorem entries_kept (hm : s'.process.server = s.process.server) (p : ℕ) :
    kept s s' (.entry p) := by
  simp only [kept,absent,gone,hm]
  exact ⟨trivial,fun h => h⟩

theorem socket_released (hl : started s) (hl' : started s')
    (hm : s'.process.server = s.process.server) (hbefore : ¬ past s 1) (hafter : past s' 1) :
    Change (absent s) (gone s) (absent s') (gone s') [.release .socket] := by
  refine .released Resource.socket (by simp [absent,hl.1,hl.2]) hbefore (by simp [absent,hl'.1,hl'.2])
    hafter fun r hr => ?_
  cases r with
  | socket => exact absurd rfl hr
  | addrinfo => exact ⟨by simp [absent,hl.1,hl'.1],fun hp => absurd (past_one hp) hbefore⟩
  | entry p => exact entries_kept hm p

theorem addrinfo_released (hl : started s) (hl' : started s')
    (hm : s'.process.server = s.process.server) (hbefore : ¬ past s 2) (hafter : past s' 2) :
    Change (absent s) (gone s) (absent s') (gone s') [.release .addrinfo] := by
  refine .released Resource.addrinfo (by simp [absent,hl.1]) hbefore (by simp [absent,hl'.1])
    hafter fun r hr => ?_
  cases r with
  | addrinfo => exact absurd rfl hr
  | socket => exact ⟨by simp [absent,hl.1,hl.2,hl'.1,hl'.2],fun _ => past_one hafter⟩
  | entry p => exact entries_kept hm p

theorem line_change (hm : s'.process.server = s.process.server)
    (ha : s.line = .getaddrinfo ↔ s'.line = .getaddrinfo) (hs : s.line = .socket ↔ s'.line = .socket)
    (hp : ∀ n, 1 ≤ n → past s n → past s' n) : Change (absent s) (gone s) (absent s') (gone s') [] := by
  refine .quiet fun r => ?_
  cases r with
  | addrinfo => exact ⟨ha,hp 2 (by decide)⟩
  | socket => exact ⟨or_congr ha hs,hp 1 (by decide)⟩
  | entry p => exact entries_kept hm p

section Serving
variable {process : Process} {l : Label} {t : Thread} {f : Frame} {below : List Frame}

theorem frame_change (h : Serving s.process) (hl : s.line = .acceptConnections)
    (hf : s.process.frames t = f :: below) (hm : FrameMove s.process t f below process) :
    Change (absent s) (gone s) (absent { s with process := process })
      (gone { s with process := process }) (cleanupActions s.process.server.manager f.pc) := by
  have hstarted : started s := by simp [started,hl]
  have hkept : kept s { s with process := process } .addrinfo ∧
      kept s { s with process := process } .socket :=
    serve_kept hl hl fun n hn => (frame_shape hm).past hf hn
  have hquiet (hm : process.server = s.process.server) : Change (absent s) (gone s)
      (absent { s with process := process }) (gone { s with process := process }) [] := by
    refine EntryChange.change (.quiet ?_ ?_) hkept.1 hkept.2
    · simp only [hm]
    · simp only [hm]
      exact fun _ hq => hq
  have hsig (hpc : f.pc.timestamp = false) : f.sig ≠ .sigalrm := by
    rw [Ne,h.handled.kinds t f (hf ▸ List.mem_cons_self ..),hpc]
    simp
  have hbefore (hpc : f.pc.timestamp = false) {n : ℕ} (hn : stage f.pc < n) : ¬ past s n := by
    unfold past
    rw [hl]
    rintro ⟨u,g,hg,hgs⟩
    have := h.handled.foremost hf (hsig hpc) hg (by omega)
    omega
  have hafter {pc' : FramePc} (n : ℕ) (hn : n ≤ stage pc') :
      past { s with process := s.process.setFrames t (⟨f.sig,pc'⟩ :: below) } n := by
    unfold past
    simp only [hl]
    exact ⟨t,⟨f.sig,pc'⟩,by simp [Process.setFrames],hn⟩
  cases hm with
  | opened hpc | openFailed hpc | locked hpc | wrote hpc | unlocked hpc | closed hpc | freed hpc
  | logClosed hpc | exited hpc =>
    rw [hpc]
    exact hquiet rfl
  | freeing hpc hm =>
    obtain ⟨hc,-⟩ := freeall_change h.entries hm
    rw [hpc]
    exact EntryChange.change hc hkept.1 hkept.2
  | serverClosed hpc =>
    rw [hpc]
    exact socket_released hstarted hstarted rfl
      (hbefore (by rw [hpc]; rfl) (by rw [hpc]; decide)) (hafter 1 (by decide))
  | addrinfoFreed hpc =>
    rw [hpc]
    exact addrinfo_released hstarted hstarted rfl
      (hbefore (by rw [hpc]; rfl) (by rw [hpc]; decide)) (hafter 2 (by decide))

theorem serve_change (h : Serving s.process) (hl : s.line = .acceptConnections)
    (hm : ProcessMove dev s.process l process) :
    Change (absent s) (gone s) (absent { s with process := process })
      (gone { s with process := process }) (processActions s.process l) := by
  cases hm with
  | @thread l server hne hfree hs =>
    obtain ⟨hc,-⟩ := server_change h.entries hne h.accepting hs
    have hkept : kept s { s with process := { s.process with server := server } } .addrinfo ∧
        kept s { s with process := { s.process with server := server } } .socket :=
      serve_kept hl hl fun _ _ hp => hp
    exact EntryChange.change hc hkept.1 hkept.2
  | @client k ev h' s₁ hfree hk hcl hf =>
    have hsame := file_step_same hf
    have heq : s₁.server = s.process.server ∧ s₁.frames = s.process.frames := by
      rw [hsame]
      exact ⟨rfl,rfl⟩
    refine line_change heq.1 Iff.rfl Iff.rfl fun n _ hp => ?_
    unfold past at hp ⊢
    simp only [hl,heq.2] at hp ⊢
    exact hp
  | @delivered t sig _ ha hb =>
    refine line_change rfl Iff.rfl Iff.rfl fun n _ hp => ?_
    unfold past at hp ⊢
    simp only [hl] at hp ⊢
    obtain ⟨u,g,hg,hgs⟩ := hp
    refine ⟨u,g,?_,hgs⟩
    by_cases hu : u = t
    · subst hu
      simp only [Process.setFrames,Function.update_self]
      exact List.mem_cons_of_mem _ hg
    · simpa only [Process.setFrames,Function.update_of_ne hu] using hg
  | @handler t ok f below s' hf hm =>
    have hacts : processActions s.process (.handler t ok) =
        cleanupActions s.process.server.manager f.pc := by
      simp only [processActions,hf]
      rfl
    rw [hacts]
    exact frame_change h hl hf hm

end Serving

section Lines
variable {c : Call}

theorem Orderly.moved (h : Orderly s) (hpre : s.line ≠ .acceptConnections)
    (hline : s'.line ≠ .exitSocketBind ∧ s'.line ≠ .exitFreeAddrinfoStruct)
    (hp : s'.process = s.process) : Orderly s' :=
  ⟨hline,fun _ => hp ▸ h.idle hpre,hp ▸ h.serving⟩

theorem call_orderly {ok : Bool} (h : Orderly s) (hc : exitsOnce s (.call ok) = true)
    (hs : programStep dev s (.call ok) = some s') : Orderly s' ∧
      Change (absent s) (gone s) (absent s') (gone s') (programActions s (.call ok)) := by
  have hok : ok = true := hc
  subst hok
  obtain ⟨line,hline,rfl⟩ := Option.map_eq_some_iff.mp hs
  obtain ⟨pc,process⟩ := s
  cases pc with
  | getaddrinfo =>
    cases hline
    refine ⟨h.moved (by simp) (by simp) rfl,.acquired Resource.addrinfo rfl (by simp [absent]) ?_⟩
    intro r hr
    cases r with
    | addrinfo => exact absurd rfl hr
    | socket => exact ⟨by simp [absent],fun hp => hp.elim⟩
    | entry p => exact entries_kept rfl p
  | socket =>
    cases hline
    refine ⟨h.moved (by simp) (by simp) rfl,.acquired Resource.socket (Or.inr rfl) (by simp [absent]) ?_⟩
    intro r hr
    cases r with
    | addrinfo => exact ⟨by simp [absent],fun hp => hp.elim⟩
    | socket => exact absurd rfl hr
    | entry p => exact entries_kept rfl p
  | bind | listen =>
    cases hline
    exact ⟨h.moved (by simp) (by simp) rfl,line_change rfl (by simp) (by simp) fun _ _ hp => hp.elim⟩
  | _ => cases hline

theorem daemon_orderly {line : Line} (h : Orderly s) (hpre : s.line ∈ [Line.startDaemon,.firstFork,
    .secondFork]) (hline : line ∈ [Line.exited,.firstFork,.secondFork,.acceptConnections,
      .cleanupServer (.freeall .check)]) : Orderly { s with line := line } ∧
      Change (absent s) (gone s) (absent { s with line := line }) (gone { s with line := line }) [] := by
  obtain ⟨pc,process⟩ := s
  simp only [List.mem_cons,List.not_mem_nil,or_false] at hpre hline
  have hstart : pc ≠ .acceptConnections ∧ pc ≠ .getaddrinfo ∧ pc ≠ .socket ∧
      ∀ n, ¬ past ⟨pc,process⟩ n := by
    rcases hpre with rfl | rfl | rfl <;> simp [past]
  have hend : line ≠ .exitSocketBind ∧ line ≠ .exitFreeAddrinfoStruct ∧ line ≠ .getaddrinfo ∧
      line ≠ .socket := by
    rcases hline with rfl | rfl | rfl | rfl | rfl <;> simp
  refine ⟨h.moved hstart.1 ⟨hend.1,hend.2.1⟩ rfl,line_change rfl ?_ ?_ fun n _ hp => ?_⟩
  · exact iff_of_false hstart.2.1 hend.2.2.1
  · exact iff_of_false hstart.2.2.1 hend.2.2.2
  · exact absurd hp (hstart.2.2.2 n)

theorem cleanup_orderly {pc pc' : FramePc} {m : Manager} {process : Process}
    (h : Orderly ⟨.cleanupServer pc,process⟩)
    (hs : cleanupServer .main process.server.manager pc = some (pc',m)) :
    Orderly ⟨.cleanupServer pc',process.setManager m⟩ ∧
      Change (absent ⟨.cleanupServer pc,process⟩) (gone ⟨.cleanupServer pc,process⟩)
        (absent ⟨.cleanupServer pc',process.setManager m⟩)
        (gone ⟨.cleanupServer pc',process.setManager m⟩)
        (cleanupActions process.server.manager pc) := by
  have hsame {pc' : FramePc} : Orderly ⟨.cleanupServer pc',process⟩ :=
    h.moved (by simp) (by simp) rfl
  have hstarted {pc : FramePc} {process : Process} : started ⟨.cleanupServer pc,process⟩ := by
    simp [started]
  unfold cleanupServer at hs
  split at hs
  · cases hs
    refine ⟨hsame,line_change rfl (by simp) (by simp) fun n hn hp => ?_⟩
    have hle : n ≤ 0 := hp
    omega
  · obtain ⟨x,hx,heq⟩ := Option.map_eq_some_iff.mp hs
    cases heq
    obtain ⟨hc,hi⟩ := freeall_change h.serving.entries (freeall_step_move hx)
    refine ⟨⟨by simp,fun _ t => h.idle (by simp) t,⟨hi,h.serving.accepting,h.serving.handled.server rfl hc.next⟩⟩,
      EntryChange.change hc ?_ ?_⟩
    · exact ⟨by simp [absent],fun hp => by simp [gone,past,stage] at hp⟩
    · exact ⟨by simp [absent],fun hp => by simp [gone,past,stage] at hp⟩
  · cases hs
    exact ⟨hsame,socket_released hstarted hstarted rfl (by simp [past,stage]) (by simp [past,stage])⟩
  · cases hs
    exact ⟨hsame,addrinfo_released hstarted hstarted rfl (by simp [past,stage]) (by simp [past,stage])⟩
  · cases hs
    exact ⟨hsame,line_change rfl (by simp) (by simp) fun _ _ hp => hp⟩
  · cases hs

theorem program_step_orderly (h : Orderly s) (hc : exitsOnce s c = true)
    (hs : programStep dev s c = some s') : Orderly s' ∧
      Change (absent s) (gone s) (absent s') (gone s') (programActions s c) := by
  cases c with
  | call ok => exact call_orderly h hc hs
  | getopt isDaemon =>
    simp only [programStep] at hs
    split_ifs at hs with hline
    cases hs
    refine daemon_orderly h (by simp [hline]) ?_
    cases isDaemon with
    | none => simp [startDaemon]
    | some isDaemon => cases isDaemon <;> simp [startDaemon]
  | fork result =>
    simp only [programStep] at hs
    split_ifs at hs with hfirst hsecond
    · cases hs
      refine daemon_orderly h (by simp [hfirst]) ?_
      cases result <;> simp [afterFork]
    · cases hs
      refine daemon_orderly h (by simp [hsecond]) ?_
      cases result <;> simp [afterFork]
  | main =>
    obtain ⟨pc,process⟩ := s
    have hs : exitLine ⟨pc,process⟩ = some s' := hs
    unfold exitLine at hs
    split at hs
    · exact absurd ‹_› h.line.1
    · exact absurd ‹_› h.line.2
    · rename_i hline
      simp only at hline
      subst hline
      cases hs
      refine ⟨h.moved (by simp) (by simp) rfl,line_change rfl (by simp) (by simp) ?_⟩
      exact fun _ _ _ => trivial
    · rename_i pc' _ hline
      simp only at hline
      subst hline
      obtain ⟨x,hx,rfl⟩ := Option.map_eq_some_iff.mp hs
      exact cleanup_orderly h hx
    · cases hs
  | serve l =>
    simp only [programStep] at hs
    split_ifs at hs with hline
    obtain ⟨process,hp,rfl⟩ := Option.map_eq_some_iff.mp hs
    have hm := process_step_move hp
    have hserving := process_serving h.serving hm (by cases l <;> exact hc)
    exact ⟨⟨h.line,fun hne => absurd hline hne,hserving⟩,serve_change h.serving hline hm⟩

end Lines

end Program

section Runs
variable {dev : Bool} {s : Program} {ls : List Call}

theorem program_start_orderly : Orderly programStart where
  line := by simp [programStart]
  idle := by simp [programStart,processStart]
  serving := by
    refine ⟨⟨fun _ _ => ⟨rfl,rfl⟩,?_,?_,?_⟩,?_,⟨?_,?_,?_,fun _ => trivial⟩⟩ <;>
      simp [programStart,processStart,serverStart,initializeServer,cleaning]

theorem program_run_orderly (hr : Runs.run (programStep dev) programStart ls = some s)
    (ha : Runs.Along (programStep dev) (fun s c => exitsOnce s c = true) programStart ls) :
    Orderly s :=
  Runs.guarded_induction (P := fun _ s => Orderly s) program_start_orderly
    (fun _ _ _ _ _ hc h hs => (program_step_orderly h hc hs).1) hr ha

theorem released_once (hr : Runs.run (programStep dev) programStart ls = some s)
    (ha : Runs.Along (programStep dev) (fun s c => exitsOnce s c = true) programStart ls) :
    Once (Runs.outputs (programStep dev) programActions programStart ls) := by
  refine run_once absent gone (fun r => ?_) (fun done c m m' hm hals hc hs => ?_) hr ha
  · cases r with
    | addrinfo => rfl
    | socket => exact Or.inl rfl
    | entry p => exact Nat.zero_le p
  · exact (program_step_orderly (program_run_orderly hm hals) hc hs).2

end Runs

def listening : List Call := List.replicate 4 (.call true)

-- one client has come and gone when SIGINT ends the daemon
def interrupted : List Call :=
  listening ++ [.getopt (some true),.fork .child,.fork .child] ++
    (connected ++ disconnected ++ handled .sigint 11).map .serve

theorem released_once_of_interrupted :
    (∃ s, Runs.run (programStep false) programStart interrupted = some s ∧
      s.process.exited = true) ∧
    Once (Runs.outputs (programStep false) programActions programStart interrupted) := by
  have hexit : (Runs.checkedRun (programStep false) exitsOnce programStart interrupted).map
      (·.process.exited) = some true := by decide
  obtain ⟨s,hs,he⟩ := Option.map_eq_some_iff.mp hexit
  obtain ⟨hr,ha⟩ := Runs.checked_run hs
  exact ⟨⟨s,hr,he⟩,released_once hr ha⟩

def socketFails : List Call := .call true :: .call false :: List.replicate 7 .main

def portInUse : List Call := .call true :: .call true :: .call false :: List.replicate 8 .main

def interruptedTwice : List Call :=
  listening ++ .getopt (some false) ::
    (handled .sigint 3 ++ handled .sigterm 3).map .serve

theorem released_twice :
    (∃ s, Runs.run (programStep true) programStart socketFails = some s ∧ s.line = .exited) ∧
    ¬ Once (Runs.outputs (programStep true) programActions programStart socketFails) ∧
    ¬ Once (Runs.outputs (programStep true) programActions programStart portInUse) ∧
    ¬ Once (Runs.outputs (programStep false) programActions programStart interruptedTwice) := by
  have hexit : (Runs.run (programStep true) programStart socketFails).map (·.line) =
      some .exited := by decide
  have hsocket : Runs.outputs (programStep true) programActions programStart socketFails =
      [.acquire .addrinfo,.release .addrinfo,.release .socket,.release .addrinfo] := by decide
  have hport : Runs.outputs (programStep true) programActions programStart portInUse =
      [.acquire .addrinfo,.acquire .socket,.release .socket,.release .addrinfo,.release .socket,
        .release .addrinfo] := by decide
  have htwice : Runs.outputs (programStep false) programActions programStart interruptedTwice =
      [.acquire .addrinfo,.acquire .socket,.release .socket,.release .socket] := by decide
  refine ⟨Option.map_eq_some_iff.mp hexit,fun h => ?_,fun h => ?_,fun h => ?_⟩
  · have hcount := (h _ (List.prefix_refl _) .addrinfo).1
    rw [hsocket] at hcount
    exact absurd hcount (by decide)
  · have hcount := (h _ (List.prefix_refl _) .addrinfo).1
    rw [hport] at hcount
    exact absurd hcount (by decide)
  · have hcount := (h _ (List.prefix_refl _) .socket).1
    rw [htwice] at hcount
    exact absurd hcount (by decide)

end AesdSocket
