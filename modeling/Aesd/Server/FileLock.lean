import Aesd.Library.Mutex
import Aesd.Server.FileClient

namespace AesdFile
open Kernel Device ClientHandler AesdSocket Delimited

-- what the file has of a line that is not complete
def unfinished (h : Handler) : Bytes := if h.pc = .writeNewline then h.payload else []

-- file_mutex is taken by the handler of a client and by append_timestamp, which may run on its thread
inductive Party where
  | handler (k : ℕ)
  | frame (t : ThreadManager.Thread)

namespace Party

def thread : Party → ThreadManager.Thread
  | .handler k => .worker k
  | .frame t => t

def holds (p : Process) : Party → Prop
  | .handler k => (p.handlers k).holding = true
  | .frame t => ∃ f ∈ p.frames t, f.pc.inFile = true

-- a handler whose write failed holds the mutex, but is not in its section
def within (p : Process) : Party → Prop
  | .handler k => (p.handlers k).pc.inSection = true
  | .frame t => ∃ f ∈ p.frames t, f.pc.inFile = true

def pending (p : Process) : Party → Bytes
  | .handler k => unfinished (p.handlers k)
  | .frame _ => []

end Party

def alarmed : Option FramePc → List Frame
  | none => []
  | some pc => [⟨.sigalrm,pc⟩]

def AlarmFrames (p : Process) : Prop :=
  ∀ t, ∃ a, p.frames t = alarmed a ∧ ∀ pc ∈ a, pc.timestamp = true

inductive StampMove (before : Option ThreadManager.Thread) (t : ThreadManager.Thread) :
    FramePc → Option FramePc → Option ThreadManager.Thread → Prop
  | opened : StampMove before t .openFile (some .lockFile) before
  | openFailed : StampMove before t .openFile none before
  | locked (hf : before = none) : StampMove before t .lockFile (some .writeFile) (some t)
  | wrote : StampMove before t .writeFile (some .unlockFile) before
  | unlocked : StampMove before t .unlockFile (some .closeFile) none
  | closed : StampMove before t .closeFile none before

structure Stamped (p : Process) (t : ThreadManager.Thread) (pc : FramePc) (next : Option FramePc)
    (p' : Process) : Prop where
  before : p.frames t = [⟨.sigalrm,pc⟩]
  handlers : p'.handlers = p.handlers
  frames : p'.frames = Function.update p.frames t (alarmed next)
  move : StampMove p.fileMutex t pc next p'.fileMutex

inductive Shift (s : FileServer) : Step → Process → Prop
  | still {l : ThreadManager.Label} {server : ThreadManager.Server} :
      Shift s (.thread l) { s.process with server := server }
  | client {l : Step} {k : ℕ} {ev : Event} {p : Process} (he : eventAt s l = some (k,ev))
      (hm : ClientMoved s.process k ev p) : Shift s l p
  | alarm {t : ThreadManager.Thread} (hb : ∀ f ∈ s.process.frames t, f.sig ≠ .sigalrm) :
      Shift s (.alarm t)
        (s.process.setFrames t (signalHandler .sigalrm :: s.process.frames t))
  | stamp {t : ThreadManager.Thread} {result : Option ℕ} {tm : Tm} {f : Frame} {below : List Frame}
      {p : Process} (hf : s.process.frames t = f :: below) (hm : FrameMove s.process t f below p) :
      Shift s (.stamp t result tm) p

section Shifts
variable {s s' : FileServer} {l : Step} {p p' : Process} {k : ℕ} {t : ThreadManager.Thread}
  {ls : List Step} {old : Bytes}

theorem file_shift (h : fileServerStep s l = some s') : Shift s l s'.process := by
  cases hl : eventAt s l with
  | some x => exact .client hl (client_at h hl)
  | none =>
    cases l with
    | client | write | read => cases hl
    | thread l =>
      obtain ⟨p,hp,rfl⟩ := Option.map_eq_some_iff.mp h
      cases process_step_move hp with
      | thread => exact .still
    | alarm t =>
      obtain ⟨p,hp,rfl⟩ := Option.map_eq_some_iff.mp h
      cases process_step_move hp with
      | delivered _ _ hb => exact .alarm hb
    | stamp t result tm =>
      obtain ⟨p,hp,rfl⟩ := Option.map_eq_some_iff.mp h
      have hkeep : (if s.stamping t then
          { s with process := p }.append ((timestamp tm).take (result.getD 0))
        else { s with process := p }).process = p := by split_ifs <;> rfl
      cases process_step_move hp with
      | handler hf hm =>
        rw [hkeep]
        exact .stamp hf hm

theorem event_self {ev : Event} (he : eventAt s l = some (k,ev)) : eventOf k s l = [ev] := by
  simp [eventOf,he]

theorem event_other {j : ℕ} {ev : Event} (he : eventAt s l = some (j,ev)) (hne : k ≠ j) :
    eventOf k s l = [] := by simp [eventOf,he,Ne.symm hne]

theorem event_none (he : eventAt s l = none) : eventOf k s l = [] := by simp [eventOf,he]

theorem events_of_snoc (hr : Runs.run fileServerStep (fileStart old) ls = some s)
    (hs : fileServerStep s l = some s') :
    eventsOf old k (ls ++ [l]) = eventsOf old k ls ++ eventOf k s l :=
  Runs.outputs_snoc hr hs

theorem frame_handlers {f : Frame} {below : List Frame} (hm : FrameMove p t f below p') :
    p'.handlers = p.handlers := by
  cases hm <;> rfl

theorem silent_handlers (hs : fileServerStep s l = some s') (he : eventAt s l = none) :
    s'.process.handlers = s.process.handlers := by
  have hshift := file_shift hs
  generalize s'.process = p at hshift
  cases hshift with
  | still | alarm => rfl
  | client hsome =>
    rw [he] at hsome
    cases hsome
  | stamp _ hm => exact frame_handlers hm

theorem client_file_run (k : ℕ) (hr : Runs.run fileServerStep (fileStart old) ls = some s) :
    Runs.run (clientStep false) init (eventsOf old k ls) = some (s.process.handlers k) := by
  refine Runs.run_induction (P := fun ls s => Runs.run (clientStep false) init (eventsOf old k ls) =
    some (s.process.handlers k)) rfl ?_ hr
  intro ls l s s' hrun ih hs
  have hquiet (he : eventOf k s l = []) (hk : s'.process.handlers k = s.process.handlers k) :
      Runs.run (clientStep false) init (eventsOf old k (ls ++ [l])) =
        some (s'.process.handlers k) := by
    rw [events_of_snoc hrun hs,he,List.append_nil,hk]
    exact ih
  cases hshift : eventAt s l with
  | none =>
    exact hquiet (event_none hshift) (congrFun (silent_handlers hs hshift) k)
  | some x =>
    obtain ⟨j,ev⟩ := x
    have hm := client_at hs hshift
    by_cases hk : k = j
    · subst hk
      rw [events_of_snoc hrun hs,event_self hshift]
      exact Runs.run_join ih (Runs.run_step hm.stepped)
    · exact hquiet (event_other hshift hk) (hm.others k hk)

theorem section_line (k : ℕ) (hr : Runs.run fileServerStep (fileStart old) ls = some s)
    (hi : (s.process.handlers k).pc.inSection = true) :
    (s.process.handlers k).holding = true ∧ newline ∉ (s.process.handlers k).payload := by
  cases stage_run (client_file_run k hr) with
  | calm _ ht =>
    have hpc : (s.process.handlers k).pc ≠ .undefined ∧
        (s.process.handlers k).pc.responding = false := by
      revert hi
      cases (s.process.handlers k).pc <;> simp [Pc.inSection,Pc.responding]
    refine ⟨ht.disciplined.owned hi,?_⟩
    rw [(ht.disciplined.assembled hpc.1 hpc.2).payload]
    exact not_mem_residue _
  | jammed _ hout =>
    rw [hi] at hout
    cases hout

theorem AlarmFrames.stamped {f : Frame} {below : List Frame} (hfr : AlarmFrames p)
    (hf : p.frames t = f :: below) (hm : FrameMove p t f below p') :
    ∃ pc next, Stamped p t pc next p' := by
  obtain ⟨a,ha,hpc⟩ := hfr t
  rw [hf] at ha
  cases a with
  | none => cases ha
  | some pc =>
    cases ha
    have hstamp : pc.timestamp = true := hpc pc rfl
    cases hm with
    | opened hk =>
      cases hk
      exact ⟨_,some .lockFile,hf,rfl,rfl,.opened⟩
    | openFailed hk =>
      cases hk
      exact ⟨_,none,hf,rfl,rfl,.openFailed⟩
    | locked hk hfree =>
      cases hk
      exact ⟨_,some .writeFile,hf,rfl,rfl,.locked hfree⟩
    | wrote hk =>
      cases hk
      exact ⟨_,some .unlockFile,hf,rfl,rfl,.wrote⟩
    | unlocked hk =>
      cases hk
      exact ⟨_,some .closeFile,hf,rfl,rfl,.unlocked⟩
    | closed hk =>
      cases hk
      exact ⟨_,none,hf,rfl,rfl,.closed⟩
    | freed hk | freeing hk | serverClosed hk | addrinfoFreed hk | logClosed hk | exited hk =>
      cases hk
      cases hstamp

theorem frames_set {u : ThreadManager.Thread} {a : Option FramePc} (hfr : AlarmFrames p)
    (hf : p'.frames = Function.update p.frames t (alarmed a))
    (ha : ∀ pc ∈ a, pc.timestamp = true) :
    ∃ a, p'.frames u = alarmed a ∧ ∀ pc ∈ a, pc.timestamp = true := by
  by_cases hu : u = t
  · subst hu
    exact ⟨a,frames_self hf,ha⟩
  · rw [frames_other hf hu]
    exact hfr u

theorem StampMove.timestamp {before after : Option ThreadManager.Thread} {pc : FramePc}
    {next : Option FramePc} (hm : StampMove before t pc next after) :
    ∀ pc ∈ next, pc.timestamp = true := by
  cases hm <;> simp [FramePc.timestamp]

theorem alarm_frames_step (hfr : AlarmFrames s.process) (h : Shift s l p') : AlarmFrames p' := by
  intro u
  cases h with
  | still => exact hfr u
  | client _ hm =>
    rw [hm.frames]
    exact hfr u
  | @alarm t hb =>
    have hnone : s.process.frames t = [] := by
      obtain ⟨a,ha,-⟩ := hfr t
      cases a with
      | none => exact ha
      | some pc => exact absurd rfl (hb ⟨.sigalrm,pc⟩ (by simp [ha,alarmed]))
    refine frames_set (t := t) (a := some .openFile) hfr ?_ (by simp [FramePc.timestamp])
    rw [hnone]
    rfl
  | stamp hf hm =>
    obtain ⟨pc,next,hstamped⟩ := hfr.stamped hf hm
    exact frames_set hfr hstamped.frames hstamped.move.timestamp

end Shifts

section Locking
variable {s s' : FileServer} {l : Step} {p p' : Process} {k : ℕ} {t : ThreadManager.Thread}
  {ls : List Step} {old : Bytes} {h h' : Handler} {ev : Event}

theorem file_holding_kept (hm : FileMove h ev h') (hl : ev ≠ .lock) (hu : ev ≠ .unlock) :
    h'.holding = h.holding := by
  cases hm with
  | data => rfl
  | step hs => exact holding_kept hs hl hu

theorem unlock_move (hm : FileMove h .unlock h') : h.pc = .unlock ∧ h'.holding = false := by
  cases hm with
  | step hs => exact lock_released hs

theorem ClientMoved.holds_other (hm : ClientMoved p k ev p') {a : Party} (ha : a ≠ .handler k) :
    a.holds p' ↔ a.holds p := by
  cases a with
  | frame t => rw [Party.holds,Party.holds,hm.frames]
  | handler j =>
    have hj : j ≠ k := fun he => ha (congrArg Party.handler he)
    rw [Party.holds,Party.holds,hm.others j hj]

theorem client_lock_move (hm : ClientMoved p k ev p')
    (hsec : (p.handlers k).pc.inSection = true → (p.handlers k).holding = true) :
    Mutex.Move Party.thread (Party.holds p) p.fileMutex (Party.holds p') p'.fileMutex := by
  have hmove := file_move hm.stepped
  have hother {a : Party} (ha : a ≠ .handler k) := hm.holds_other ha
  have hmutex := hm.mutex
  generalize p'.fileMutex = owner at hmutex
  cases hmutex with
  | locked hf =>
    refine .lock (Party.handler k) hf fun b hb => ?_
    by_cases hbk : b = .handler k
    · exact Or.inl hbk
    · exact Or.inr ((hother hbk).mp hb)
  | unlocked =>
    obtain ⟨hpc,hfree⟩ := unlock_move hmove
    refine .unlock (.handler k) (hsec (by rw [hpc]; rfl)) fun b hb => ?_
    have hbk : b ≠ .handler k := by
      rintro rfl
      rw [Party.holds,hfree] at hb
      cases hb
    exact ⟨(hother hbk).mp hb,hbk⟩
  | kept hl hu =>
    refine .kept fun b hb => ?_
    by_cases hbk : b = .handler k
    · subst hbk
      exact (file_holding_kept hmove hl hu).symm.trans hb
    · exact (hother hbk).mp hb

theorem frame_holds {fs : List Frame} {b : Party} (hb : b.holds p')
    (hfs : p'.frames = Function.update p.frames t fs) (hh : p'.handlers = p.handlers) :
    b = .frame t ∧ (∃ f ∈ fs, f.pc.inFile = true) ∨ b ≠ .frame t ∧ b.holds p := by
  cases b with
  | handler k =>
    rw [Party.holds,hh] at hb
    exact Or.inr ⟨by simp,hb⟩
  | frame u =>
    by_cases hu : u = t
    · subst hu
      rw [Party.holds,frames_self hfs] at hb
      exact Or.inl ⟨rfl,hb⟩
    · rw [Party.holds,frames_other hfs hu] at hb
      exact Or.inr ⟨by simpa using hu,hb⟩

theorem Stamped.holds {pc : FramePc} {next : Option FramePc} (hs : Stamped p t pc next p')
    (hin : pc.inFile = true) : Party.holds p (.frame t) :=
  ⟨⟨.sigalrm,pc⟩,by rw [hs.before]; exact List.mem_singleton_self _,hin⟩

theorem Stamped.left {pc : FramePc} {next : Option FramePc} {b : Party}
    (hs : Stamped p t pc next p') (hno : ∀ pc ∈ next, pc.inFile = false) (hb : b.holds p') :
    b.holds p ∧ b ≠ .frame t := by
  rcases frame_holds hb hs.frames hs.handlers with ⟨-,f,hmem,hin⟩ | ⟨hne,hold⟩
  · cases next with
    | none => cases hmem
    | some pc' =>
      cases List.mem_singleton.mp hmem
      rw [hno pc' rfl] at hin
      cases hin
  · exact ⟨hold,hne⟩

theorem stamp_lock_move {pc : FramePc} {next : Option FramePc} (hs : Stamped p t pc next p') :
    Mutex.Move Party.thread (Party.holds p) p.fileMutex (Party.holds p') p'.fileMutex := by
  have hmove := hs.move
  generalize p'.fileMutex = owner at hmove
  cases hmove with
  | opened | openFailed | closed => exact .kept fun b hb => (hs.left (by simp [FramePc.inFile]) hb).1
  | locked hfree =>
    refine .lock (Party.frame t) hfree fun b hb => ?_
    rcases frame_holds hb hs.frames hs.handlers with ⟨rfl,-⟩ | ⟨-,hold⟩
    · exact Or.inl rfl
    · exact Or.inr hold
  | wrote =>
    refine .kept fun b hb => ?_
    rcases frame_holds hb hs.frames hs.handlers with ⟨rfl,-⟩ | ⟨-,hold⟩
    · exact hs.holds rfl
    · exact hold
  | unlocked => exact .unlock (.frame t) (hs.holds rfl) fun b hb => hs.left (by simp [FramePc.inFile]) hb

theorem file_lock_move (hfr : AlarmFrames s.process)
    (hsec : ∀ k, (s.process.handlers k).pc.inSection = true →
      (s.process.handlers k).holding = true) (hs : Shift s l p') :
    Mutex.Move Party.thread (Party.holds s.process) s.process.fileMutex (Party.holds p')
      p'.fileMutex := by
  cases hs with
  | still => exact .kept fun b hb => by cases b <;> exact hb
  | client _ hm => exact client_lock_move hm (hsec _)
  | alarm =>
    refine .kept fun b hb => ?_
    rcases frame_holds (p := s.process) hb rfl rfl with ⟨rfl,f,hmem,hin⟩ | ⟨-,hold⟩
    · rcases List.mem_cons.mp hmem with rfl | hmem
      · cases hin
      · exact ⟨f,hmem,hin⟩
    · exact hold
  | stamp hf hm =>
    obtain ⟨pc,next,hstamped⟩ := hfr.stamped hf hm
    exact stamp_lock_move hstamped

structure Locked (p : Process) : Prop where
  frames : AlarmFrames p
  exclusive : Mutex.Exclusive Party.thread (Party.holds p) p.fileMutex

theorem file_locked (hr : Runs.run fileServerStep (fileStart old) ls = some s) : Locked s.process := by
  refine Runs.run_induction (P := fun _ s => Locked s.process) ⟨fun _ => ⟨none,rfl,by simp⟩,?_⟩ ?_ hr
  · refine Mutex.exclusive_start fun a ha => ?_
    cases a <;> simp [Party.holds,fileStart,processStart,init] at ha
  intro ls l s s' hrun ih hs
  have hsec (k : ℕ) := fun hi => (section_line k hrun hi).1
  exact ⟨alarm_frames_step ih.frames (file_shift hs),
    ih.exclusive.move (file_lock_move ih.frames hsec (file_shift hs))⟩

end Locking

end AesdFile
