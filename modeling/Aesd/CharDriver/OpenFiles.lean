import Aesd.CharDriver.LineDevice
import Aesd.Library.Simulation

namespace Device
open BlockHeap CircularBuffer AesdCircularBuffer Kernel Cutting Delimited LineStore

-- the driver with the files that are open on it, each with its f_pos
structure OpenFiles (F : Type) where
  driver : Driver
  fPos : F → Option ℕ

namespace OpenFiles
variable {F : Type} [DecidableEq F]

def loaded : OpenFiles F := ⟨aesdInitModule,fun _ => none⟩

def setPos (t : OpenFiles F) (f : F) (p : Option ℕ) : OpenFiles F :=
  { t with fPos := Function.update t.fPos f p }

-- none: the file is not open, or the call faults in the kernel
def perform (fixedSizeLlseek : ℤ → ℤ → ℤ → ℤ → ℤ × ℤ) (t : OpenFiles F) :
    FileCall F → Option (OpenFiles F × Reply)
  | .openFile f => if t.fPos f = none then some (t.setPos f (some aesdOpen),⟨0,[]⟩) else none
  | .release f => (t.fPos f).map fun _ => (t.setPos f none,⟨0,[]⟩)
  | .read f env count => (t.fPos f).bind fun p =>
      match aesdRead env t.driver count p with
      | .ok (r,out,p') => some (t.setPos f (some p'),⟨r,out⟩)
      | .error _ => none
  | .write f env buf => (t.fPos f).bind fun _ =>
      match aesdWrite env t.driver buf with
      | .ok (r,d) => some ({ t with driver := d },⟨r,[]⟩)
      | .error _ => none
  | .llseek f off whence => (t.fPos f).map fun (p : ℕ) =>
      let moved := aesdLlseek fixedSizeLlseek t.driver p off whence
      (t.setPos f (some moved.2.toNat),⟨moved.1,[]⟩)
  | .ioctl f env cmd arg => (t.fPos f).map fun p =>
      let moved := aesdUnlockedIoctl env t.driver p cmd arg
      (t.setPos f (some moved.2),⟨moved.1,[]⟩)

end OpenFiles

section Runs
variable {S F : Type}

def callStep (perform : S → FileCall F → Option (S × Reply)) (s : S) (c : FileCall F) : Option S :=
  (perform s c).map Prod.fst

def callReply (perform : S → FileCall F → Option (S × Reply)) (s : S) (c : FileCall F) :
    List Reply := (perform s c).toList.map Prod.snd

end Runs

-- no kmalloc fails in a write, it has one newline at most, and its data can be copied unless there
-- is no fragment to lose
def HandledWrite (d : Driver) (env : CallEnv) (buf : Bytes) : Prop :=
  (∀ k, env.kmallocOk k = true) ∧ buf.count newline ≤ 1 ∧
    ((env.uncopied && !buf.isEmpty) = true → d.dev.incompleteCommandBuffer = none)

def Handled {F : Type} (t : OpenFiles F) : FileCall F → Prop
  | .write _ env buf => HandledWrite t.driver env buf
  | _ => True

section Reads
variable {env : CallEnv} {d : Driver} {held : List (ℕ × Bytes)} {count p : ℕ}

theorem read_at_spec (h : RingHolds d held) (hc : 0 < count) (hi : env.interrupted = false) :
    aesdRead env d count p = .ok (
      if readAt (held.map Prod.snd) p count = [] then (0,[],p)
      else if env.uncopied then (-efault,[],p)
      else ((readAt (held.map Prod.snd) p count).length,readAt (held.map Prod.snd) p count,
        p + (readAt (held.map Prod.snd) p count).length)) := by
  have hne : count ≠ 0 := by omega
  have hfind := h.find p
  cases hloc : Concat.locate ((held.map Prod.snd).map List.length) p with
  | none =>
    rw [hloc] at hfind
    have hnil : readAt (held.map Prod.snd) p count = [] := by rw [readAt,hloc]
    simp [aesdRead,hne,hi,hfind,hnil]
  | some found =>
    obtain ⟨k,r⟩ := found
    rw [hloc,Option.map_some] at hfind
    obtain ⟨-,n,hn,hr⟩ := Concat.locate_some hloc
    obtain ⟨b,hb,rfl⟩ := Option.map_eq_some_iff.mp ((List.getElem?_map ..).symm.trans hn)
    obtain ⟨x,hx,rfl⟩ := Option.map_eq_some_iff.mp ((List.getElem?_map ..).symm.trans hb)
    have hslot := h.slot hx
    have hblock := h.blocks x (List.mem_of_getElem? hx)
    have hout : readAt (held.map Prod.snd) p count = (x.2.drop r).take count := by
      rw [readAt,hloc]
      simp [hx]
    have hlen : ((x.2.drop r).take count).length = min count (x.2.length - r) := by
      rw [List.length_take,List.length_drop]
    have hfull : (x.2.drop r).take count ≠ [] := by
      rw [← List.length_pos_iff,hlen]
      omega
    have hsame : (x.2.drop r).take (min count (x.2.length - r)) = (x.2.drop r).take count := by
      rw [← hlen,List.length_take,List.take_eq_take_min]
      simp
    have hfit : r + min count (x.2.length - r) ≤ x.2.length := by omega
    have hpos : min count (x.2.length - r) ≠ 0 := by omega
    rw [hout,if_neg hfull,hlen]
    cases hu : env.uncopied with
    | true =>
      simp [aesdRead,hne,hi,hfind,hslot,toEntry,load,hblock,hu]
      omega
    | false =>
      simp [aesdRead,hne,hi,hfind,hslot,toEntry,load,hblock,hu,extent_inside hfit,hsame]

end Reads

section Writes
variable {env : CallEnv} {d : Driver} {s buf : Bytes}

theorem TurnsStream.fault (h : TurnsStream d s) (hi : env.interrupted = false)
    (hk : env.kmallocOk 0 = true) (hu : (env.uncopied && !buf.isEmpty) = true)
    (hn : d.dev.incompleteCommandBuffer = none) :
    ∃ d', aesdWrite env d buf = .ok (-efault,d') ∧ TurnsStream d' s := by
  obtain ⟨held,frag,hs,hc,hf⟩ := h.stored
  obtain ⟨q,m₁,m₂,hm₁,hm₂,-,hh₂⟩ := buffer_assembled env hs hk buf
  obtain ⟨m₃,b,hm₃,-,hh₃,-⟩ := user_copied env hh₂
  rw [← hs.size,hu] at hm₃
  obtain ⟨m₄,hm₄,-,hh₄⟩ := kfree_live hh₃
  obtain rfl : frag = none := by
    have hbuf := hs.buffer
    rw [hn] at hbuf
    exact Option.map_eq_none_iff.mp hbuf.symm
  refine ⟨{ d with heap := m₄.heap },by simp [aesdWrite,hi,hm₁,hm₂,hm₃,hm₄],?_,h.turned⟩
  exact ⟨held,none,⟨hs.wf,hs.entries,hs.buffer,hs.size,by simp,hh₄⟩,hc,hf⟩

theorem TurnsStream.granted (h : TurnsStream d s) (hi : env.interrupted = false)
    (hk : ∀ k, env.kmallocOk k = true) (hu : (env.uncopied && !buf.isEmpty) = false)
    (hb : buf.count newline ≤ 1) :
    ∃ d', aesdWrite env d buf = .ok (buf.length,d') ∧ TurnsStream d' (s ++ buf) := by
  obtain ⟨held,frag,hs,-,-⟩ := h.stored
  rcases aesd_write_spec env hs buf with ⟨-,k,hfail⟩ | ⟨d',hok,-⟩
  · rw [hk k] at hfail
    cases hfail
  · obtain ⟨⟨start,kmallocs⟩,hstop⟩ := cut_granted hk (fragBytes frag ++ buf)
      (fragBytes frag ++ buf).length 1 0 (fragBytes frag ++ buf).length
    have hr : (logicalWrite env (held.map Prod.snd) (fragBytes frag) buf).1 = buf.length := by
      simp only [logicalWrite,hi,hu,hk,hstop,Bool.false_eq_true,if_false,reduceCtorEq,and_false]
    rw [hr] at hok
    exact ⟨d',hok,h.write hb hok (Int.natCast_nonneg _)⟩

end Writes

section Relation
variable {F : Type}

structure Serves (t : OpenFiles F) (s : LineStore F) : Prop where
  stream : TurnsStream t.driver s.written
  positions : t.fPos = s.position

def Agrees (x : Option (OpenFiles F × Reply)) (y : Option (LineStore F × Reply)) : Prop :=
  Option.Rel (fun a b => Serves a.1 b.1 ∧ a.2 = b.2) x y

theorem serves_loaded : Serves (OpenFiles.loaded : OpenFiles F) LineStore.empty :=
  ⟨turns_stream_init,rfl⟩

theorem Serves.held {t : OpenFiles F} {s : LineStore F} (h : Serves t s) :
    ∃ held, RingHolds t.driver held ∧ held.map Prod.snd = s.kept := by
  obtain ⟨held,frag,hs,hc,-⟩ := h.stream.stored
  obtain ⟨held',hring,hcmds⟩ := (Shows.intact hs).ring
  exact ⟨held',hring,hcmds.trans hc⟩

end Relation

section Steps
variable {F : Type} [DecidableEq F] {t : OpenFiles F} {s : LineStore F}
  {fixedSizeLlseek : ℤ → ℤ → ℤ → ℤ → ℤ × ℤ}

theorem Serves.moved (h : Serves t s) (f : F) (p : Option ℕ) :
    Serves (t.setPos f p) (s.moveTo f p) :=
  ⟨h.stream,by simp [OpenFiles.setPos,LineStore.moveTo,h.positions]⟩

theorem Serves.unmoved (h : Serves t s) {f : F} {p : ℕ} (hp : s.position f = some p) :
    Serves (t.setPos f (some p)) s := by
  refine ⟨h.stream,?_⟩
  rw [OpenFiles.setPos,h.positions,← hp]
  exact Function.update_eq_self f s.position

theorem Serves.read (h : Serves t s) (f : F) (env : CallEnv) (count : ℕ) :
    Agrees (t.perform fixedSizeLlseek (.read f env count))
      (s.perform fixedSizeLlseek (.read f env count)) := by
  have hpos : t.fPos f = s.position f := congrFun h.positions f
  simp only [OpenFiles.perform,LineStore.perform,hpos]
  cases hp : s.position f with
  | none => exact .none
  | some p =>
    simp only [Option.bind_some,Option.map_some]
    by_cases hc : count = 0
    · simp only [aesdRead,hc,if_true,pure_ok]
      exact .some ⟨h.unmoved hp,rfl⟩
    · cases hi : env.interrupted with
      | true =>
        simp only [aesdRead,hc,hi,if_true,if_false,pure_ok]
        exact .some ⟨h.unmoved hp,rfl⟩
      | false =>
        obtain ⟨held,hring,hkept⟩ := h.held
        rw [read_at_spec hring (Nat.pos_of_ne_zero hc) hi,hkept]
        by_cases hnil : readAt s.kept p count = []
        · simp only [hnil,if_true,hc,if_false,Bool.false_eq_true]
          exact .some ⟨h.unmoved hp,rfl⟩
        · cases hu : env.uncopied with
          | true =>
            simp only [hnil,if_true,hc,if_false,Bool.false_eq_true]
            exact .some ⟨h.unmoved hp,rfl⟩
          | false =>
            simp only [hnil,hc,if_false,Bool.false_eq_true]
            exact .some ⟨h.moved f _,rfl⟩

theorem Serves.write (h : Serves t s) (f : F) {env : CallEnv} {buf : Bytes}
    (hh : HandledWrite t.driver env buf) :
    Agrees (t.perform fixedSizeLlseek (.write f env buf))
      (s.perform fixedSizeLlseek (.write f env buf)) := by
  obtain ⟨hk,hone,hkept⟩ := hh
  have hpos : t.fPos f = s.position f := congrFun h.positions f
  simp only [OpenFiles.perform,LineStore.perform,hpos]
  cases hp : s.position f with
  | none => exact .none
  | some p =>
    simp only [Option.bind_some,Option.map_some]
    cases hi : env.interrupted with
    | true =>
      simp only [aesdWrite,hi,if_true,pure_ok]
      exact .some ⟨h,rfl⟩
    | false =>
      cases hu : env.uncopied && !buf.isEmpty with
      | true =>
        obtain ⟨d',hw,hs⟩ := h.stream.fault hi (hk 0) hu (hkept hu)
        rw [hw]
        exact .some ⟨⟨hs,h.positions⟩,rfl⟩
      | false =>
        obtain ⟨d',hw,hs⟩ := h.stream.granted hi hk hu hone
        rw [hw]
        exact .some ⟨⟨hs,h.positions⟩,rfl⟩

theorem Serves.seek (h : Serves t s) (f : F) (off whence : ℤ) :
    Agrees (t.perform fixedSizeLlseek (.llseek f off whence))
      (s.perform fixedSizeLlseek (.llseek f off whence)) := by
  have hpos : t.fPos f = s.position f := congrFun h.positions f
  simp only [OpenFiles.perform,LineStore.perform,hpos]
  cases hp : s.position f with
  | none => exact .none
  | some p =>
    obtain ⟨held,hring,hkept⟩ := h.held
    have hsize : aesdSize t.driver.dev.circularBuffer = toSsize s.kept.flatten.length := by
      rw [aesd_size_wrapped hring.wf,hring.total_size,hring.content_bytes,hkept]
    simp only [Option.map_some,aesdLlseek,hsize]
    exact .some ⟨h.moved f _,rfl⟩

theorem Serves.ioctl (h : Serves t s) (f : F) (env : CallEnv) (cmd : ℕ) (arg : AesdSeekto) :
    Agrees (t.perform fixedSizeLlseek (.ioctl f env cmd arg))
      (s.perform fixedSizeLlseek (.ioctl f env cmd arg)) := by
  have hpos : t.fPos f = s.position f := congrFun h.positions f
  simp only [OpenFiles.perform,LineStore.perform,hpos]
  cases hp : s.position f with
  | none => exact .none
  | some p =>
    simp only [Option.map_some]
    by_cases hcmd : cmd = aesdcharIocseekto
    · subst hcmd
      cases hu : env.uncopied with
      | true =>
        simp only [aesdUnlockedIoctl,hu,if_true,ne_eq,not_true,if_false]
        exact .some ⟨h.unmoved hp,rfl⟩
      | false =>
        rw [h.stream.seek hu]
        cases seekPosition s.written arg.writeCmd.toNat arg.writeCmdOffset.toNat with
        | none => exact .some ⟨h.unmoved hp,rfl⟩
        | some q => exact .some ⟨h.moved f _,rfl⟩
    · simp only [aesdUnlockedIoctl,hcmd,if_false,ne_eq,not_false_eq_true,if_true]
      exact .some ⟨h.unmoved hp,rfl⟩

theorem Serves.perform (h : Serves t s) {c : FileCall F} (hc : Handled t c) :
    Agrees (t.perform fixedSizeLlseek c) (s.perform fixedSizeLlseek c) := by
  cases c with
  | openFile f =>
    have hpos : t.fPos f = s.position f := congrFun h.positions f
    simp only [OpenFiles.perform,LineStore.perform,hpos]
    split
    · exact .some ⟨h.moved f _,rfl⟩
    · exact .none
  | release f =>
    have hpos : t.fPos f = s.position f := congrFun h.positions f
    simp only [OpenFiles.perform,LineStore.perform,hpos]
    cases s.position f with
    | none => exact .none
    | some p => exact .some ⟨h.moved f _,rfl⟩
  | read f env count => exact h.read f env count
  | write f env buf => exact h.write f hc
  | llseek f off whence => exact h.seek f off whence
  | ioctl f env cmd arg => exact h.ioctl f env cmd arg

end Steps

section Calls
variable {F : Type} [DecidableEq F] {fixedSizeLlseek : ℤ → ℤ → ℤ → ℤ → ℤ × ℤ}

theorem serves_step (t : OpenFiles F) (s : LineStore F) (c : FileCall F) (h : Serves t s)
    (hc : Handled t c) :
    Option.Rel Serves (callStep (OpenFiles.perform fixedSizeLlseek) t c)
        (callStep (LineStore.perform fixedSizeLlseek) s c) ∧
      callReply (OpenFiles.perform fixedSizeLlseek) t c =
        callReply (LineStore.perform fixedSizeLlseek) s c := by
  have hagree : Agrees (t.perform fixedSizeLlseek c) (s.perform fixedSizeLlseek c) := h.perform hc
  unfold callStep callReply
  cases ht : t.perform fixedSizeLlseek c with
  | none =>
    rw [ht] at hagree
    cases hs : s.perform fixedSizeLlseek c with
    | none => exact ⟨.none,rfl⟩
    | some y => simp [hs,Agrees] at hagree
  | some x =>
    rw [ht] at hagree
    cases hs : s.perform fixedSizeLlseek c with
    | none => simp [hs,Agrees] at hagree
    | some y =>
      rw [hs,Agrees,Option.rel_some_some] at hagree
      refine ⟨.some hagree.1,?_⟩
      simp only [Option.toList_some,List.map_cons,List.map_nil,hagree.2]

def OpenFiles.run (fixedSizeLlseek : ℤ → ℤ → ℤ → ℤ → ℤ × ℤ) (calls : List (FileCall F)) :
    Option (OpenFiles F) :=
  Runs.run (callStep (OpenFiles.perform fixedSizeLlseek)) OpenFiles.loaded calls

def OpenFiles.replies (fixedSizeLlseek : ℤ → ℤ → ℤ → ℤ → ℤ × ℤ) (calls : List (FileCall F)) :
    List Reply :=
  Runs.outputs (callStep (OpenFiles.perform fixedSizeLlseek))
    (callReply (OpenFiles.perform fixedSizeLlseek)) OpenFiles.loaded calls

def LineStore.run (fixedSizeLlseek : ℤ → ℤ → ℤ → ℤ → ℤ × ℤ) (calls : List (FileCall F)) :
    Option (LineStore F) :=
  Runs.run (callStep (LineStore.perform fixedSizeLlseek)) LineStore.empty calls

def LineStore.replies (fixedSizeLlseek : ℤ → ℤ → ℤ → ℤ → ℤ × ℤ) (calls : List (FileCall F)) :
    List Reply :=
  Runs.outputs (callStep (LineStore.perform fixedSizeLlseek))
    (callReply (LineStore.perform fixedSizeLlseek)) LineStore.empty calls

-- calls on any number of open files go as on the line store: none faults in the kernel, and each
-- returns what it returns there
theorem open_files_refine (fixedSizeLlseek : ℤ → ℤ → ℤ → ℤ → ℤ × ℤ) {calls : List (FileCall F)}
    (h : Runs.Along (callStep (OpenFiles.perform fixedSizeLlseek)) Handled OpenFiles.loaded calls) :
    Option.Rel Serves (OpenFiles.run fixedSizeLlseek calls) (LineStore.run fixedSizeLlseek calls) ∧
      OpenFiles.replies fixedSizeLlseek calls = LineStore.replies fixedSizeLlseek calls :=
  Runs.lockstep_run serves_step serves_loaded h

end Calls

def twoFiles : List (FileCall Bool) :=
  [.openFile false,.openFile true,.write false calm [97],.write true calm [98,10],
    .read false calm 1,.ioctl false calm aesdcharIocseekto ⟨0,1⟩,.llseek true 2 0,.read false calm 9]

theorem calm_handled {d : Driver} {buf : Bytes} (h : buf.count newline ≤ 1) :
    HandledWrite d calm buf := ⟨fun _ => rfl,h,by simp [calm]⟩

theorem two_files_handled : ∀ c ∈ twoFiles, ∀ t, Handled t c := by
  intro c hc t
  simp only [twoFiles,List.mem_cons,List.not_mem_nil,or_false] at hc
  rcases hc with rfl | rfl | rfl | rfl | rfl | rfl | rfl | rfl
  all_goals first | trivial | exact calm_handled (by decide)

theorem open_files_refine_of_two :
    (OpenFiles.run boundedLlseek twoFiles).isSome ∧
      OpenFiles.replies boundedLlseek twoFiles = LineStore.replies boundedLlseek twoFiles ∧
      (LineStore.replies boundedLlseek twoFiles).map (·.out) =
        [[],[],[],[],[97],[],[],[98,10]] := by
  have hsome : (OpenFiles.run boundedLlseek twoFiles).isSome := by decide
  obtain ⟨t,ht⟩ := Option.isSome_iff_exists.mp hsome
  have hcalls : Runs.Along (callStep (OpenFiles.perform boundedLlseek)) Handled OpenFiles.loaded
      twoFiles := ((Runs.along_forall_iff ht).mpr two_files_handled).mono fun t _ h => h t
  exact ⟨hsome,(open_files_refine boundedLlseek hcalls).2,by decide⟩

end Device
