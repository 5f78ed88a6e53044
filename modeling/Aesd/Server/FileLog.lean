import Aesd.Server.FileLock

namespace AesdFile
open Kernel Device ClientHandler AesdSocket Delimited

def writtenBy (h : Handler) : Event → Bytes
  | .write ok => if ok then (bufferOf h).getD [] else []
  | _ => []

structure Contents (old : Bytes) (entries : List (Option ℕ × Bytes)) (s : FileServer)
    (part : Bytes) : Prop where
  file : s.file = old ++ entries.flatMap Prod.snd ++ part
  line : newline ∉ part
  free : s.process.fileMutex = none → part = []
  held : ∀ a : Party, a.within s.process → part = a.pending s.process

section Text
variable {s s' : FileServer} {l : Step} {p p' : Process} {k : ℕ} {t : ThreadManager.Thread}
  {ls : List Step} {h h' : Handler} {ev : Event} {entries : List (Option ℕ × Bytes)} {old part : Bytes}

theorem unfinished_quiet (hm : FileMove h ev h') (hw : ev ≠ .write true) (hl : ev ≠ .lock)
    (hi : h'.pc.inSection = true) :
    h.pc.inSection = true ∧ unfinished h = [] ∧ unfinished h' = [] := by
  cases hm with
  | data hpc => exact ⟨by rw [hpc]; rfl,by simp [unfinished,hpc],by simp [unfinished]⟩
  | step hs hb =>
    cases step_move hs with
    | locked => exact absurd rfl hl
    | wroteData | wroteNewline => exact absurd rfl hw
    | seek hpc | data hpc => exact absurd hpc hb
    | sought hpc => exact ⟨by rw [hpc]; rfl,by simp [unfinished,hpc],by simp [unfinished]⟩
    | _ => cases hi

theorem lock_unfinished (hm : FileMove h .lock h') : unfinished h' = [] := by
  cases hm with
  | step hs =>
    cases step_move hs with
    | locked => rfl

theorem write_move (hm : FileMove h (.write true) h') :
    h.pc = .writeData ∧ h' = { h with pc := .writeNewline } ∨
      h.pc = .writeNewline ∧ h' = { h with pc := .unlock } := by
  cases hm with
  | step hs =>
    cases step_move hs with
    | wroteData hpc => exact Or.inl ⟨hpc,rfl⟩
    | wroteNewline hpc => exact Or.inr ⟨hpc,rfl⟩

theorem client_added (hs : fileServerStep s l = some s') (he : eventAt s l = some (k,ev))
    (hw : Whole s l) : added s l = writtenBy (s.process.handlers k) ev := by
  cases l with
  | thread | alarm | stamp => cases he
  | read => cases he; rfl
  | client j ev' =>
    cases he
    simp only [fileServerStep] at hs
    split_ifs at hs with hown
    cases ev with
    | write => cases hown
    | _ => rfl
  | write j result =>
    cases he
    cases result with
    | none => rfl
    | some n =>
      cases hb : bufferOf (s.process.handlers k) with
      | none => simp [added,writtenBy,hb]
      | some buf =>
        have hn : n = buf.length := hw buf (by simp [hb])
        simp [added,writtenBy,hb,hn]

theorem client_committed (hs : fileServerStep s l = some s') (he : eventAt s l = some (k,ev)) :
    committed s l = (lineBy (s.process.handlers k) ev).map fun p => (some k,p) := by
  cases l with
  | thread | alarm | stamp => cases he
  | read => cases he; rfl
  | client j ev' =>
    cases he
    simp only [fileServerStep] at hs
    split_ifs at hs with hown
    cases ev with
    | write => cases hown
    | _ => rfl
  | write j result =>
    cases he
    cases result with
    | none => simp [committed,lineBy,storedBy]
    | some n => by_cases hpc : (s.process.handlers k).pc = .writeNewline <;>
        simp [committed,lineBy,storedBy,hpc]

theorem within_holds (hsec : ∀ k, (p.handlers k).pc.inSection = true → (p.handlers k).holding = true)
    {a : Party} (ha : a.within p) : a.holds p := by
  cases a with
  | handler k => exact hsec k ha
  | frame t => exact ha

theorem ClientMoved.within_other (hm : ClientMoved p k ev p') {a : Party} (ha : a ≠ .handler k) :
    (a.within p' ↔ a.within p) ∧ a.pending p' = a.pending p := by
  cases a with
  | frame t => exact ⟨by rw [Party.within,Party.within,hm.frames],rfl⟩
  | handler j =>
    have hj : j ≠ k := fun he => ha (congrArg Party.handler he)
    rw [Party.within,Party.within,Party.pending,Party.pending,hm.others j hj]
    exact ⟨Iff.rfl,rfl⟩

-- a step of the one party that holds the mutex
theorem Contents.owned {bytes rest : Bytes} {new : List (Option ℕ × Bytes)} (a : Party)
    (hc : Contents old entries s part) (hx : Mutex.Exclusive Party.thread (Party.holds s'.process)
      s'.process.fileMutex)
    (hsec : ∀ k, (s'.process.handlers k).pc.inSection = true →
      (s'.process.handlers k).holding = true)
    (hfile : s'.file = s.file ++ bytes) (hb : part ++ bytes = new.flatMap Prod.snd ++ rest)
    (hline : newline ∉ rest) (ha : a.holds s'.process) (hrest : rest = a.pending s'.process) :
    Contents old (entries ++ new) s' rest := by
  refine ⟨?_,hline,fun hf => absurd ha (hx.not_holds hf a),fun b hb => ?_⟩
  · rw [hfile,hc.file,List.append_assoc,hb,List.flatMap_append]
    simp only [List.append_assoc]
  · rw [hx.alone b a (within_holds hsec hb) ha]
    exact hrest

theorem Contents.still (hc : Contents old entries s part) (hfile : s'.file = s.file)
    (hfree : s'.process.fileMutex = none → s.process.fileMutex = none ∨ part = [])
    (hheld : ∀ a : Party, a.within s'.process →
      a.within s.process ∧ a.pending s'.process = a.pending s.process ∨ part = a.pending s'.process) :
    Contents old entries s' part := by
  refine ⟨hfile.trans hc.file,hc.line,fun hf => (hfree hf).elim hc.free id,fun a ha => ?_⟩
  rcases hheld a ha with ⟨hold,hsame⟩ | hpart
  · rw [hsame]
    exact hc.held a hold
  · exact hpart

theorem quiet_event (hev : ev ≠ .write true) : writtenBy h ev = [] ∧ lineBy h ev = [] := by
  cases ev with
  | write ok =>
    have hok : ok = false := by simpa using hev
    simp [writtenBy,lineBy,storedBy,hok]
  | _ => exact ⟨rfl,rfl⟩

theorem MutexMove.released {before : Option ThreadManager.Thread}
    (hm : MutexMove before k ev none) : ev = .unlock ∨ before = none := by
  cases hm with
  | unlocked => exact Or.inl rfl
  | kept => exact Or.inr rfl

theorem MutexMove.taken {before after : Option ThreadManager.Thread}
    (hm : MutexMove before k .lock after) : before = none := by
  cases hm with
  | locked hf => exact hf
  | kept hl => exact absurd rfl hl

theorem client_quiet (hc : Contents old entries s part) (hfile : s'.file = s.file)
    (hm : ClientMoved s.process k ev s'.process) (hev : ev ≠ .write true) :
    Contents old entries s' part := by
  have hmove := file_move hm.stepped
  refine hc.still hfile (fun hf => ?_) fun a ha => ?_
  · have hmutex := hm.mutex
    rw [hf] at hmutex
    rcases hmutex.released with rfl | hfree
    · obtain ⟨hpc,-⟩ := unlock_move hmove
      have hpart := hc.held (.handler k) (by rw [Party.within,hpc]; rfl)
      exact Or.inr (hpart.trans (by simp [Party.pending,unfinished,hpc]))
    · exact Or.inl hfree
  · by_cases hak : a = .handler k
    · subst hak
      refine Or.inr ?_
      by_cases hl : ev = .lock
      · subst hl
        exact (hc.free hm.mutex.taken).trans (lock_unfinished hmove).symm
      · obtain ⟨hin,hbefore,hafter⟩ := unfinished_quiet hmove hev hl ha
        exact (hc.held (.handler k) hin).trans (hbefore.trans hafter.symm)
    · obtain ⟨hin,hsame⟩ := hm.within_other hak
      exact Or.inl ⟨hin.mp ha,hsame⟩

theorem client_contents (hc : Contents old entries s part) (hs : fileServerStep s l = some s')
    (he : eventAt s l = some (k,ev)) (hw : Whole s l)
    (hx : Mutex.Exclusive Party.thread (Party.holds s'.process) s'.process.fileMutex)
    (hsec : ∀ j, (s'.process.handlers j).pc.inSection = true →
      (s'.process.handlers j).holding = true)
    (hline : (s.process.handlers k).pc.inSection = true →
      newline ∉ (s.process.handlers k).payload) :
    ∃ rest, Contents old (entries ++ committed s l) s' rest := by
  have hm := client_at hs he
  have hfile := file_added hs
  rw [client_added hs he hw] at hfile
  rw [client_committed hs he]
  by_cases hev : ev = .write true
  · subst hev
    rcases write_move (file_move hm.stepped) with ⟨hpc,hnext⟩ | ⟨hpc,hnext⟩
    · have hin : (s.process.handlers k).pc.inSection = true := by rw [hpc]; rfl
      have hpart : part = [] :=
        (hc.held (.handler k) hin).trans (by simp [Party.pending,unfinished,hpc])
      refine ⟨(s.process.handlers k).payload,hc.owned (.handler k) hx hsec hfile ?_ (hline hin)
        (hsec k (by rw [hnext]; rfl)) (by simp [Party.pending,unfinished,hnext,Handler.payload])⟩
      simp [hpart,writtenBy,bufferOf,lineBy,storedBy,hpc]
    · have hin : (s.process.handlers k).pc.inSection = true := by rw [hpc]; rfl
      have hpart : part = (s.process.handlers k).payload :=
        (hc.held (.handler k) hin).trans (by simp [Party.pending,unfinished,hpc])
      refine ⟨[],hc.owned (.handler k) hx hsec hfile ?_ (by simp) (hsec k (by rw [hnext]; rfl))
        (by simp [Party.pending,unfinished,hnext])⟩
      simp [hpart,writtenBy,bufferOf,lineBy,storedBy,hpc]
  · obtain ⟨hwritten,hby⟩ := quiet_event (h := s.process.handlers k) hev
    rw [hwritten,List.append_nil] at hfile
    rw [hby,List.map_nil,List.append_nil]
    exact ⟨part,client_quiet hc hfile hm hev⟩

theorem frame_within {fs : List Frame} {b : Party} (hb : b.within p')
    (hfs : p'.frames = Function.update p.frames t fs) (hh : p'.handlers = p.handlers) :
    b = .frame t ∧ (∃ f ∈ fs, f.pc.inFile = true) ∨
      b ≠ .frame t ∧ b.within p ∧ b.pending p' = b.pending p := by
  cases b with
  | handler k =>
    rw [Party.within,hh] at hb
    exact Or.inr ⟨by simp,hb,by rw [Party.pending,Party.pending,hh]⟩
  | frame u =>
    rcases frame_holds (b := .frame u) hb hfs hh with hself | ⟨hne,hold⟩
    · exact Or.inl hself
    · exact Or.inr ⟨hne,hold,rfl⟩

theorem stamp_frame {result : Option ℕ} {tm : Tm} (hfr : AlarmFrames s.process)
    (hs : fileServerStep s (.stamp t result tm) = some s') :
    ∃ pc next, Stamped s.process t pc next s'.process := by
  cases file_shift hs with
  | client he => cases he
  | stamp hf hm => exact hfr.stamped hf hm

theorem StampMove.entered {before after : Option ThreadManager.Thread} {pc : FramePc}
    {next : Option FramePc} (hm : StampMove before t pc next after)
    (hin : ∃ f ∈ alarmed next, f.pc.inFile = true) : before = none ∨ pc.inFile = true := by
  cases hm with
  | locked hf => exact Or.inl hf
  | wrote | unlocked => exact Or.inr rfl
  | opened | openFailed | closed => simp [alarmed,FramePc.inFile] at hin

theorem StampMove.released {before : Option ThreadManager.Thread} {pc : FramePc}
    {next : Option FramePc} (hm : StampMove before t pc next none) :
    before = none ∨ pc.inFile = true := by
  cases hm with
  | opened | openFailed | closed => exact Or.inl rfl
  | wrote | unlocked => exact Or.inr rfl

theorem stamp_contents {result : Option ℕ} {tm : Tm} (hc : Contents old entries s part)
    (hs : fileServerStep s (.stamp t result tm) = some s') (hw : Whole s (.stamp t result tm))
    (hfr : AlarmFrames s.process)
    (hx : Mutex.Exclusive Party.thread (Party.holds s'.process) s'.process.fileMutex)
    (hsec : ∀ j, (s'.process.handlers j).pc.inSection = true →
      (s'.process.handlers j).holding = true) :
    ∃ rest, Contents old (entries ++ committed s (.stamp t result tm)) s' rest := by
  obtain ⟨pc,next,hstamp⟩ := stamp_frame hfr hs
  have hfile := file_added hs
  have hstamping : s.stamping t = decide (pc = .writeFile) := by
    simp [FileServer.stamping,hstamp.before]
  have hempty (hfree : s.process.fileMutex = none ∨ pc.inFile = true) : part = [] :=
    hfree.elim hc.free fun hin => hc.held (.frame t) (hstamp.holds hin)
  by_cases hput : pc = .writeFile ∧ result.isSome = true
  · obtain ⟨rfl,hsome⟩ := hput
    obtain ⟨n,rfl⟩ := Option.isSome_iff_exists.mp hsome
    have hn : n = (timestamp tm).length := hw (by simp [hstamping])
    have hself : Party.holds s'.process (.frame t) := by
      have hmove := hstamp.move
      generalize s'.process.fileMutex = owner at hmove
      cases hmove with
      | wrote =>
        rw [Party.holds,frames_self hstamp.frames]
        exact ⟨_,List.mem_singleton_self _,rfl⟩
    refine ⟨[],hc.owned (.frame t) hx hsec hfile ?_ (by simp) hself rfl⟩
    simp [hempty (Or.inr rfl),added,committed,hstamping,hn]
  · have hno : added s (.stamp t result tm) = [] ∧ committed s (.stamp t result tm) = [] := by
      cases result <;> simp_all [added,committed]
    rw [hno.1,List.append_nil] at hfile
    rw [hno.2,List.append_nil]
    refine ⟨part,hc.still hfile (fun hf => ?_) fun a ha => ?_⟩
    · have hmove := hstamp.move
      rw [hf] at hmove
      exact Or.inr (hempty hmove.released)
    · rcases frame_within ha hstamp.frames hstamp.handlers with ⟨rfl,hin⟩ | ⟨-,hold⟩
      · exact Or.inr (hempty (hstamp.move.entered hin))
      · exact Or.inl hold

theorem silent_contents (hc : Contents old entries s part) (hs : fileServerStep s l = some s')
    (he : eventAt s l = none) (hw : Whole s l) (hfr : AlarmFrames s.process)
    (hx : Mutex.Exclusive Party.thread (Party.holds s'.process) s'.process.fileMutex)
    (hsec : ∀ j, (s'.process.handlers j).pc.inSection = true →
      (s'.process.handlers j).holding = true) :
    ∃ rest, Contents old (entries ++ committed s l) s' rest := by
  cases l with
  | client | write | read => cases he
  | stamp t result tm => exact stamp_contents hc hs hw hfr hx hsec
  | thread l =>
    obtain ⟨p,hp,rfl⟩ := Option.map_eq_some_iff.mp hs
    rw [show committed s _ = [] from rfl,List.append_nil]
    cases process_step_move hp with
    | thread => exact ⟨part,hc.still rfl Or.inl fun a ha => Or.inl ⟨ha,by cases a <;> rfl⟩⟩
  | alarm t =>
    obtain ⟨p,hp,rfl⟩ := Option.map_eq_some_iff.mp hs
    rw [show committed s _ = [] from rfl,List.append_nil]
    cases process_step_move hp with
    | delivered =>
      refine ⟨part,hc.still rfl Or.inl fun a ha => Or.inl ?_⟩
      rcases frame_within (p := s.process) ha rfl rfl with ⟨rfl,f,hmem,hin⟩ | ⟨-,hold⟩
      · rcases List.mem_cons.mp hmem with rfl | hmem
        · cases hin
        · exact ⟨⟨f,hmem,hin⟩,rfl⟩
      · exact hold

theorem log_snoc (hr : Runs.run fileServerStep (fileStart old) ls = some s)
    (hs : fileServerStep s l = some s') : log old (ls ++ [l]) = log old ls ++ committed s l :=
  Runs.outputs_snoc hr hs

theorem contents_run (hr : Runs.run fileServerStep (fileStart old) ls = some s)
    (hw : Runs.Along fileServerStep Whole (fileStart old) ls) :
    ∃ part, Contents old (log old ls) s part := by
  refine Runs.guarded_induction (P := fun ls s => ∃ part, Contents old (log old ls) s part)
    ⟨[],by simp [log,fileStart],by simp,fun _ => rfl,fun a _ => by cases a <;> rfl⟩ ?_ hr hw
  intro ls l s s' hrun hwhole ih hs
  obtain ⟨part,hc⟩ := ih
  have hrun' := Runs.run_join hrun (Runs.run_step hs)
  have hsec (j : ℕ) := fun hi => (section_line j hrun' hi).1
  have hx := (file_locked hrun').exclusive
  rw [log_snoc hrun hs]
  cases he : eventAt s l with
  | none => exact silent_contents hc hs he hwhole (file_locked hrun).frames hx hsec
  | some x =>
    obtain ⟨k,ev⟩ := x
    exact client_contents hc hs he hwhole hx hsec fun hi => (section_line k hrun hi).2

end Text

def ofClient (k : ℕ) (entries : List (Option ℕ × Bytes)) : List Bytes :=
  (entries.filter fun e => e.1 = some k).map Prod.snd

structure Lines (old : Bytes) (ls : List Step) (s : FileServer)
    (entries : List (Option ℕ × Bytes)) : Prop where
  order : ∀ k, ofClient k entries <+: pieces newline (received (eventsOf old k ls))
  drained : ∀ k, (s.process.handlers k).holding = false → (s.process.handlers k).pc = .recv →
    ofClient k entries = pieces newline (received (eventsOf old k ls))
  stamps : ∀ e ∈ entries, e.1 = none → ∃ tm, e.2 = timestamp tm
  lines : ∀ e ∈ entries, ∃ text, newline ∉ text ∧ e.2 = text ++ [newline]
  file : ∃ part, newline ∉ part ∧ s.file = old ++ entries.flatMap Prod.snd ++ part ∧
    (s.process.fileMutex = none → part = [])

section Lines
variable {s s' : FileServer} {l : Step} {ls : List Step} {old : Bytes}

theorem committed_silent (he : eventAt s l = none) {e : Option ℕ × Bytes} (hm : e ∈ committed s l) :
    ∃ tm, e = (none,timestamp tm) := by
  cases l with
  | client | write | read => cases he
  | thread | alarm => cases hm
  | stamp t result tm =>
    cases result with
    | none => cases hm
    | some n =>
      simp only [committed] at hm
      split_ifs at hm
      · exact ⟨tm,List.mem_singleton.mp hm⟩
      · cases hm

theorem of_client_append (k : ℕ) (xs ys : List (Option ℕ × Bytes)) :
    ofClient k (xs ++ ys) = ofClient k xs ++ ofClient k ys := by
  rw [ofClient,List.filter_append,List.map_append]
  rfl

theorem committed_own {k : ℕ} {ev : Event} (hs : fileServerStep s l = some s')
    (he : eventAt s l = some (k,ev)) :
    ofClient k (committed s l) = lineBy (s.process.handlers k) ev := by
  simp [client_committed hs he,ofClient,List.filter_map,Function.comp_def]

theorem committed_other {k : ℕ} (hs : fileServerStep s l = some s')
    (hne : ∀ ev, eventAt s l ≠ some (k,ev)) : ofClient k (committed s l) = [] := by
  rw [ofClient,List.map_eq_nil_iff]
  refine List.filter_eq_nil_iff.mpr fun e hmem => ?_
  cases he : eventAt s l with
  | none =>
    obtain ⟨tm,rfl⟩ := committed_silent he hmem
    simp
  | some x =>
    rw [client_committed hs he] at hmem
    obtain ⟨text,-,rfl⟩ := List.mem_map.mp hmem
    have hk : x.1 ≠ k := fun hk => hne x.2 (by rw [he,← hk])
    simpa using hk

theorem event_apart {k : ℕ} (hne : ∀ ev, eventAt s l ≠ some (k,ev)) : eventOf k s l = [] := by
  cases he : eventAt s l with
  | none => exact event_none he
  | some x => exact event_other he fun hk => hne x.2 (by rw [he,hk])

theorem client_lines (k : ℕ) (hr : Runs.run fileServerStep (fileStart old) ls = some s) :
    ofClient k (log old ls) = linesBy (eventsOf old k ls) := by
  refine Runs.run_induction (P := fun ls _ => ofClient k (log old ls) = linesBy (eventsOf old k ls))
    rfl ?_ hr
  intro ls l s s' hrun ih hs
  rw [log_snoc hrun hs,of_client_append,ih,events_of_snoc hrun hs]
  by_cases hk : ∃ ev, eventAt s l = some (k,ev)
  · obtain ⟨ev,he⟩ := hk
    rw [committed_own hs he,event_self he,
      lines_by_snoc (client_file_run k hrun) (client_at hs he).stepped]
  · have hne := not_exists.mp hk
    rw [committed_other hs hne,event_apart hne,List.append_nil,List.append_nil]

theorem log_lines (hr : Runs.run fileServerStep (fileStart old) ls = some s) : ∀ e ∈ log old ls,
    (e.1 = none → ∃ tm, e.2 = timestamp tm) ∧ ∃ text, newline ∉ text ∧ e.2 = text ++ [newline] := by
  refine Runs.run_induction (P := fun ls _ => ∀ e ∈ log old ls, (e.1 = none →
    ∃ tm, e.2 = timestamp tm) ∧ ∃ text, newline ∉ text ∧ e.2 = text ++ [newline]) (by simp [log]) ?_ hr
  intro ls l s s' hrun ih hs e hmem
  rw [log_snoc hrun hs] at hmem
  rcases List.mem_append.mp hmem with hmem | hmem
  · exact ih e hmem
  cases he : eventAt s l with
  | none =>
    obtain ⟨tm,rfl⟩ := committed_silent he hmem
    exact ⟨fun _ => ⟨tm,rfl⟩,timestampText tm,text_line (timestamp_printed tm),rfl⟩
  | some x =>
    obtain ⟨k,ev⟩ := x
    rw [client_committed hs he] at hmem
    obtain ⟨text,hby,rfl⟩ := List.mem_map.mp hmem
    refine ⟨by simp,?_⟩
    by_cases hin : (s.process.handlers k).pc.inSection = true
    · obtain ⟨payload,hp,rfl⟩ := List.mem_map.mp hby
      have hpayload : payload = (s.process.handlers k).payload := by
        unfold storedBy at hp
        split at hp
        · split_ifs at hp
          · exact List.mem_singleton.mp hp
          · cases hp
        · cases hp
      exact ⟨payload,hpayload ▸ (section_line k hrun hin).2,rfl⟩
    · rw [line_by_outside (by simpa using hin)] at hby
      cases hby

-- without the device the file keeps what it held and every line of every client and every timestamp whole, in the
-- order in which they took file_mutex
theorem file_holds_lines (hr : Runs.run fileServerStep (fileStart old) ls = some s)
    (hw : Runs.Along fileServerStep Whole (fileStart old) ls) : Lines old ls s (log old ls) := by
  obtain ⟨part,hc⟩ := contents_run hr hw
  refine ⟨fun k => ?_,fun k hj hpc => ?_,fun e he => (log_lines hr e he).1,
    fun e he => (log_lines hr e he).2,part,hc.line,hc.file,hc.free⟩
  · rw [client_lines k hr]
    exact lines_within (client_file_run k hr)
  · rw [client_lines k hr]
    exact lines_drained (client_file_run k hr) hj hpc

end Lines

def noon : Tm := ⟨0,0,12,1,0,126,4,3600,by decide,by decide⟩

def dataPacket (k : ℕ) (b : UInt8) : List Step :=
  [.client k (.recv [b,newline]),.client k .tau,.client k .tau,.client k .lock,
    .client k (.branch zeroStack),.write k (some 1),.write k (some 1),.client k .unlock,
    .client k .tau,.read k (some 0),.client k .tau]

def twoConnections : List ThreadManager.Label :=
  AesdSocket.accepted ++ ThreadManager.connection 6 7 71 ++ [.main,.main,.worker 1]

-- the timer goes off on main between the packets of two clients
def stampedPackets : List Step :=
  twoConnections.map .thread ++ dataPacket 0 97 ++ .alarm .main ::
    [.stamp .main (some 0) noon,.stamp .main none noon,
      .stamp .main (some (timestamp noon).length) noon,.stamp .main none noon,
      .stamp .main none noon] ++ dataPacket 1 98

theorem file_holds_lines_stamped :
    ∃ s, Runs.run fileServerStep (fileStart [120,10]) stampedPackets = some s ∧
      s.file = [120,10,97,10] ++ timestamp noon ++ [98,10] ∧
      Lines [120,10] stampedPackets s (log [120,10] stampedPackets) := by
  obtain ⟨s,hs,hfile⟩ := Option.map_eq_some_iff.mp (show (Runs.checkedRun fileServerStep
    (fun s l => decide (Whole s l)) (fileStart [120,10]) stampedPackets).map FileServer.file =
      some ([120,10,97,10] ++ timestamp noon ++ [98,10]) by decide)
  obtain ⟨hr,hw⟩ := Runs.checked_run hs
  exact ⟨s,hr,hfile,file_holds_lines hr (hw.mono fun _ _ => of_decide_eq_true)⟩

end AesdFile
