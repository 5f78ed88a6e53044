import Aesd.Server.FileLog
import Mathlib.Data.List.Forall2

namespace AesdFile
open Kernel Device ClientHandler AesdSocket Delimited

-- where the lines of client k end in the file
def markOf (k : ℕ) (s : FileServer) : Step → List ℕ
  | .write j (some _) =>
      if j = k ∧ (s.process.handlers j).pc = .writeNewline then [s.file.length + 1] else []
  | _ => []

def marks (old : Bytes) (k : ℕ) (ls : List Step) : List ℕ :=
  Runs.outputs fileServerStep (markOf k) (fileStart old) ls

-- what client k was sent after a packet, and the length of the file when read gave 0
def replyOf (k : ℕ) (s : FileServer) : Step → List (Bytes × ℕ)
  | .read j (some 0) => if j = k then [(s.outgoing k,s.file.length)] else []
  | _ => []

def replies (old : Bytes) (k : ℕ) (ls : List Step) : List (Bytes × ℕ) :=
  Runs.outputs fileServerStep (replyOf k) (fileStart old) ls

-- no read fails, and send takes all it is given
def Answered (s : FileServer) : Step → Prop
  | .client k (.send n) => ∀ content, (s.process.handlers k).pc = .send (some content) →
      n = content.length
  | .read _ none => False
  | l => Whole s l

structure Stored (file : Bytes) (m : ℕ) (line : Bytes) : Prop where
  within : m ≤ file.length
  last : line <:+ file.take m

structure Sent (file : Bytes) (m : ℕ) (reply : Bytes × ℕ) : Prop where
  after : m ≤ reply.2
  within : reply.2 ≤ file.length
  bytes : reply.1 = (file.take reply.2).drop m

-- what the handler has read of its answer
def fetched (s : FileServer) (k : ℕ) : Bytes :=
  match (s.process.handlers k).pc with
  | .unlock => []
  | .send content => s.outgoing k ++ content.getD []
  | _ => s.outgoing k

structure Fetching (s : FileServer) (k m : ℕ) : Prop where
  after : m ≤ s.offset k
  within : s.offset k ≤ s.file.length
  bytes : fetched s k = (s.file.take (s.offset k)).drop m
  read : (s.process.handlers k).pc ≠ .send none

inductive Cycle (s : FileServer) (k : ℕ) (ms : List ℕ) (rs : List (Bytes × ℕ)) : Prop
  | idle (hpc : (s.process.handlers k).pc.committed = false)
      (hs : List.Forall₂ (Sent s.file) ms rs)
  | busy {done : List ℕ} {m : ℕ} (hpc : (s.process.handlers k).pc.committed = true)
      (hm : ms = done ++ [m]) (hs : List.Forall₂ (Sent s.file) done rs) (hf : Fetching s k m)

section Positions
variable {s s' : FileServer} {l : Step} {k m n : ℕ} {ev : Event} {old file file' : Bytes}
  {ls : List Step} {ms : List ℕ} {rs : List (Bytes × ℕ)}

theorem Stored.mono {line : Bytes} (h : Stored file m line) (hp : file <+: file') :
    Stored file' m line := by
  obtain ⟨rest,rfl⟩ := hp
  refine ⟨h.within.trans (by simp),?_⟩
  rw [List.take_append_of_le_length h.within]
  exact h.last

theorem Sent.mono {reply : Bytes × ℕ} (h : Sent file m reply) (hp : file <+: file') :
    Sent file' m reply := by
  obtain ⟨rest,rfl⟩ := hp
  refine ⟨h.after,h.within.trans (by simp),?_⟩
  rw [List.take_append_of_le_length h.within]
  exact h.bytes

theorem file_grows (hs : fileServerStep s l = some s') : s.file <+: s'.file :=
  ⟨added s l,(file_added hs).symm⟩

theorem Fetching.kept (h : Fetching s k m) (hp : s.file <+: s'.file)
    (ho : s'.offset k = s.offset k) (hf : fetched s' k = fetched s k)
    (hn : (s'.process.handlers k).pc ≠ .send none) : Fetching s' k m := by
  obtain ⟨rest,hrest⟩ := hp
  refine ⟨ho ▸ h.after,?_,?_,hn⟩
  · rw [ho,← hrest]
    exact h.within.trans (by simp)
  · rw [hf,ho,← hrest,List.take_append_of_le_length h.within]
    exact h.bytes

theorem answered_whole (h : Answered s l) : Whole s l := by
  cases l with
  | client => trivial
  | write | stamp | thread | alarm => exact h
  | read => trivial

theorem write_some (hs : fileServerStep s (.write k (some n)) = some s') (hn : n ≠ 0) :
    s'.offset k = s'.file.length ∧ s'.outgoing k = s.outgoing k := by
  simp only [fileServerStep] at hs
  split at hs
  · cases ‹some _ = none›
  · cases ‹some n = some _›
    split_ifs at hs
    obtain ⟨s₁,h₁,rfl⟩ := Option.map_eq_some_iff.mp hs
    obtain ⟨-,-,-,hout⟩ := client_move_some h₁
    refine ⟨(Function.update_self ..).trans (if_neg hn),?_⟩
    exact (congrFun hout k).trans (Function.update_self ..)
  · cases hs

theorem read_some (hs : fileServerStep s (.read k (some n)) = some s') :
    s'.offset k = s.offset k + n ∧ s'.outgoing k = s.outgoing k ∧ n ≤ (s.unread k).length ∧
      (n = 0 → s.unread k = []) := by
  simp only [fileServerStep] at hs
  split_ifs at hs with hn
  obtain ⟨s₁,h₁,rfl⟩ := Option.map_eq_some_iff.mp hs
  obtain ⟨-,-,hoff,hout⟩ := client_move_some h₁
  refine ⟨?_,(congrFun hout k).trans (Function.update_self ..),hn.2.1,hn.2.2⟩
  rw [← hoff]
  exact Function.update_self ..

theorem client_own (hs : fileServerStep s (.client k ev) = some s') :
    s'.offset k = s.offset k ∧
      s'.outgoing k = AesdServer.outgoingAfter (s.process.handlers k) (s.outgoing k) ev := by
  simp only [fileServerStep] at hs
  split_ifs at hs
  obtain ⟨-,-,hoff,hout⟩ := client_move_some hs
  exact ⟨congrFun hoff k,(congrFun hout k).trans (Function.update_self ..)⟩

theorem other_kept (hs : fileServerStep s l = some s') (hne : ∀ ev, eventAt s l ≠ some (k,ev)) :
    s'.process.handlers k = s.process.handlers k ∧ s'.offset k = s.offset k ∧
      s'.outgoing k = s.outgoing k := by
  have hhandlers : s'.process.handlers k = s.process.handlers k := by
    cases he : eventAt s l with
    | none => exact congrFun (silent_handlers hs he) k
    | some x => exact (client_at hs he).others k fun hk => hne x.2 (by rw [he,hk])
  refine ⟨hhandlers,?_⟩
  have hmoved {s₁ : FileServer} {j : ℕ} {ev : Event} (hj : k ≠ j) (h₁ : s.clientMove j ev = some s₁) :
      s₁.offset k = s.offset k ∧ s₁.outgoing k = s.outgoing k := by
    obtain ⟨-,-,hoff,hout⟩ := client_move_some h₁
    exact ⟨congrFun hoff k,(congrFun hout k).trans (Function.update_of_ne hj ..)⟩
  cases l with
  | thread | alarm =>
    obtain ⟨p,-,rfl⟩ := Option.map_eq_some_iff.mp hs
    exact ⟨rfl,rfl⟩
  | stamp t result tm =>
    obtain ⟨p,-,rfl⟩ := Option.map_eq_some_iff.mp hs
    split_ifs <;> exact ⟨rfl,rfl⟩
  | client j ev =>
    simp only [fileServerStep] at hs
    split_ifs at hs
    exact hmoved (fun hk => hne ev (by rw [hk]; rfl)) hs
  | write j result =>
    have hj : k ≠ j := fun hk => hne (.write result.isSome) (by rw [hk]; rfl)
    simp only [fileServerStep] at hs
    split at hs
    · exact hmoved hj hs
    · split_ifs at hs
      obtain ⟨s₁,h₁,rfl⟩ := Option.map_eq_some_iff.mp hs
      exact ⟨(Function.update_of_ne hj ..).trans (hmoved hj h₁).1,(hmoved hj h₁).2⟩
    · cases hs
  | read j result =>
    have hj : k ≠ j := fun hk => hne _ (by rw [hk]; rfl)
    simp only [fileServerStep] at hs
    split at hs
    · exact hmoved hj hs
    · split_ifs at hs
      obtain ⟨s₁,h₁,rfl⟩ := Option.map_eq_some_iff.mp hs
      exact ⟨(Function.update_of_ne hj ..).trans (hmoved hj h₁).1,(hmoved hj h₁).2⟩

theorem mark_other (hne : ∀ ev, eventAt s l ≠ some (k,ev)) :
    markOf k s l = [] ∧ replyOf k s l = [] := by
  constructor
  · unfold markOf
    split
    · exact if_neg fun hc => hne _ (by rw [hc.1]; rfl)
    · rfl
  · unfold replyOf
    split
    · exact if_neg fun hc => hne _ (by rw [hc]; rfl)
    · rfl

theorem Cycle.other (h : Cycle s k ms rs) (hs : fileServerStep s l = some s')
    (hne : ∀ ev, eventAt s l ≠ some (k,ev)) : Cycle s' k ms rs := by
  obtain ⟨hh,hoff,hout⟩ := other_kept hs hne
  have hgrow := file_grows hs
  cases h with
  | idle hpc hsent => exact .idle (hh ▸ hpc) (hsent.imp fun _ _ h => h.mono hgrow)
  | busy hpc hm hsent hf =>
    refine .busy (hh ▸ hpc) hm (hsent.imp fun _ _ h => h.mono hgrow) (hf.kept hgrow hoff ?_ ?_)
    · rw [fetched,fetched,hh,hout]
    · rw [hh]
      exact hf.read

-- the steps of a handler that are not calls on the file
inductive OwnMove (h : Handler) : Event → Handler → Prop
  | apart {ev : Event} {h' : Handler} (hpc : h.pc.committed = false)
      (hpc' : h'.pc.committed = false) : OwnMove h ev h'
  | unlocked {h' : Handler} (hpc : h.pc = .unlock) (hpc' : h'.pc = .reset) : OwnMove h .unlock h'
  | cleared {h' : Handler} (hpc : h.pc = .reset) (hpc' : h'.pc = .read) : OwnMove h .tau h'
  | sent {h' : Handler} {content : Option Bytes} {n : ℕ} (hpc : h.pc = .send content)
      (hpc' : h'.pc = .read) : OwnMove h (.send n) h'

theorem own_move {h h' : Handler} (hm : FileMove h ev h') (ho : AesdServer.Event.own ev = true) :
    OwnMove h ev h' := by
  cases hm with
  | data hpc => exact .apart (by rw [hpc]; rfl) rfl
  | step hs =>
    cases step_move hs with
    | unlocked hpc => exact .unlocked hpc rfl
    | cleared hpc => exact .cleared hpc rfl
    | sent hpc => exact .sent hpc rfl
    | sought | seekFailed | wroteData | dataFailed | wroteNewline | newlineFailed | finished
    | fetched => cases ho
    | _ hpc => exact .apart (by rw [hpc]; rfl) rfl

theorem Cycle.own (h : Cycle s k ms rs) (hs : fileServerStep s (.client k ev) = some s')
    (ha : Answered s (.client k ev)) : Cycle s' k ms rs := by
  have hgrow := file_grows hs
  obtain ⟨hoff,hout⟩ := client_own hs
  have hm := client_at hs rfl
  have hown : AesdServer.Event.own ev = true := by
    simp only [fileServerStep] at hs
    split_ifs at hs with hown
    exact hown
  cases h with
  | idle hpc hsent =>
    refine .idle ?_ (hsent.imp fun _ _ h => h.mono hgrow)
    cases own_move (file_move hm.stepped) hown with
    | apart _ hpc' => exact hpc'
    | unlocked hk | cleared hk | sent hk =>
      rw [hk] at hpc
      cases hpc
  | busy hpc hms hsent hf =>
    have hnext (hpc' : (s'.process.handlers k).pc = .reset ∨ (s'.process.handlers k).pc = .read)
        (hsame : s'.outgoing k = fetched s k) : Cycle s' k ms rs := by
      refine .busy ?_ hms (hsent.imp fun _ _ h => h.mono hgrow) (hf.kept hgrow hoff ?_ ?_)
      · rcases hpc' with hk | hk <;> rw [hk] <;> rfl
      · rw [fetched]
        rcases hpc' with hk | hk <;> simp only [hk] <;> exact hsame
      · rcases hpc' with hk | hk <;> rw [hk] <;> simp
    cases own_move (file_move hm.stepped) hown with
    | apart hno =>
      rw [hpc] at hno
      cases hno
    | unlocked hk hk' => exact hnext (Or.inl hk') (by rw [hout,fetched,hk]; rfl)
    | cleared hk hk' => exact hnext (Or.inr hk') (by rw [hout,fetched,hk]; rfl)
    | @sent _ content n hk hk' =>
      cases content with
      | none => exact absurd hk hf.read
      | some b =>
        have hn : n = b.length := ha b hk
        refine hnext (Or.inr hk') ?_
        simp [hout,fetched,hk,AesdServer.outgoingAfter,hn]

theorem failed_write {h h' : Handler} (hm : FileMove h (.write false) h') :
    h.pc.committed = false ∧ h'.pc.committed = false := by
  cases hm with
  | step hs =>
    cases step_move hs with
    | dataFailed hpc | newlineFailed hpc => exact ⟨by rw [hpc]; rfl,rfl⟩

theorem Cycle.written {result : Option ℕ} (h : Cycle s k ms rs)
    (hs : fileServerStep s (.write k result) = some s') (hw : Whole s (.write k result)) :
    Cycle s' k (ms ++ markOf k s (.write k result)) rs := by
  have hgrow := file_grows hs
  have hm := client_at hs rfl
  have hfile := file_added hs
  have hstill (hpc : (s.process.handlers k).pc.committed = false)
      (hpc' : (s'.process.handlers k).pc.committed = false) : Cycle s' k ms rs := by
    cases h with
    | idle _ hsent => exact .idle hpc' (hsent.imp fun _ _ h => h.mono hgrow)
    | busy hbusy =>
      rw [hpc] at hbusy
      cases hbusy
  cases result with
  | none =>
    obtain ⟨hpc,hpc'⟩ := failed_write (file_move hm.stepped)
    rw [show markOf k s (.write k none) = [] from rfl,List.append_nil]
    exact hstill hpc hpc'
  | some n =>
    rcases write_move (file_move hm.stepped) with ⟨hpc,hnext⟩ | ⟨hpc,hnext⟩
    · rw [markOf,if_neg (by simp [hpc]),List.append_nil]
      exact hstill (by rw [hpc]; rfl) (by rw [hnext]; rfl)
    · have hn : n = 1 := hw [newline] (by simp [bufferOf,hpc])
      have hlen : s'.file.length = s.file.length + 1 := by
        simp [hfile,added,bufferOf,hpc,hn]
      rw [markOf,if_pos ⟨rfl,hpc⟩,← hlen]
      cases h with
      | busy hbusy =>
        rw [hpc] at hbusy
        cases hbusy
      | idle _ hsent =>
        have hoff := (write_some hs (by omega)).1
        refine .busy (by rw [hnext]; rfl) rfl (hsent.imp fun _ _ h => h.mono hgrow)
          ⟨hoff.ge,hoff.le,?_,by rw [hnext]; simp⟩
        rw [hoff,List.take_length,List.drop_length,fetched,hnext]

theorem read_move {h h' : Handler} {content : Bytes} (hm : FileMove h (.read (some content)) h') :
    h.pc = .read ∧ (content = [] ∧ h'.pc = .byte ∨ content ≠ [] ∧ h'.pc = .send (some content)) := by
  cases hm with
  | step hs =>
    cases step_move hs with
    | finished hpc => exact ⟨hpc,Or.inl ⟨rfl,rfl⟩⟩
    | fetched hpc hne => exact ⟨hpc,Or.inr ⟨fun hc => hne (congrArg some hc),rfl⟩⟩

theorem Fetching.fetched_more (h : Fetching s k m) (n : ℕ) :
    fetched s k ++ (s.unread k).take n = (s.file.take (s.offset k + n)).drop m := by
  have hlen : (s.file.take (s.offset k)).length = s.offset k := by
    rw [List.length_take]
    exact Nat.min_eq_left h.within
  rw [h.bytes,List.take_add,List.drop_append_of_le_length (hlen.symm ▸ h.after)]
  rfl

theorem Cycle.read (h : Cycle s k ms rs) (hs : fileServerStep s (.read k (some n)) = some s') :
    Cycle s' k ms (rs ++ replyOf k s (.read k (some n))) := by
  have hfile : s'.file = s.file := (file_added hs).trans (List.append_nil _)
  obtain ⟨hoff,hout,hn,hzero⟩ := read_some hs
  obtain ⟨hpc,hmove⟩ := read_move (file_move (client_at hs rfl).stepped)
  cases h with
  | idle hidle =>
    rw [hpc] at hidle
    cases hidle
  | @busy done m _ hms hsent hf =>
    have hfetched : fetched s k = s.outgoing k := by rw [fetched,hpc]
    rcases hmove with ⟨hnone,hpc'⟩ | ⟨hsome,hpc'⟩
    · have hn0 : n = 0 := by
        have hlen := congrArg List.length hnone
        rw [List.length_take,List.length_nil] at hlen
        omega
      subst hn0
      have hend : s.offset k = s.file.length :=
        Nat.le_antisymm hf.within (List.drop_eq_nil_iff.mp (hzero rfl))
      refine .idle (by rw [hpc']; rfl) ?_
      rw [hms,hfile,replyOf,if_pos rfl]
      refine List.rel_append hsent (.cons ⟨?_,Nat.le_refl _,?_⟩ .nil)
      · exact hend ▸ hf.after
      · rw [← hfetched,hf.bytes,hend]
    · have hpos : n ≠ 0 := fun hn0 => hsome (by rw [hn0]; rfl)
      have hnil : replyOf k s (.read k (some n)) = [] := by
        cases n with
        | zero => exact absurd rfl hpos
        | succ n => rfl
      rw [hnil,List.append_nil]
      have hmore := hf.fetched_more n
      refine .busy (by rw [hpc']; rfl) hms (hfile.symm ▸ hsent) ⟨?_,?_,?_,by simp [hpc']⟩
      · rw [hoff]
        exact hf.after.trans (Nat.le_add_right ..)
      · rw [hoff,hfile]
        have hwithin := hf.within
        rw [FileServer.unread,List.length_drop] at hn
        omega
      · rw [hoff,hfile,← hmore,hfetched,fetched,hpc']
        exact congrArg (· ++ _) hout

theorem cycle_step (h : Cycle s k ms rs) (hs : fileServerStep s l = some s') (ha : Answered s l) :
    Cycle s' k (ms ++ markOf k s l) (rs ++ replyOf k s l) := by
  by_cases hk : ∃ ev, eventAt s l = some (k,ev)
  · obtain ⟨ev,he⟩ := hk
    cases l with
    | thread | alarm | stamp => cases he
    | client =>
      cases he
      rw [show markOf k s (.client k ev) = [] from rfl,
        show replyOf k s (.client k ev) = [] from rfl,List.append_nil,List.append_nil]
      exact h.own hs ha
    | write j result =>
      cases he
      rw [show replyOf k s (.write k result) = [] from rfl,List.append_nil]
      exact h.written hs ha
    | read j result =>
      cases he
      rw [show markOf k s (.read k result) = [] from rfl,List.append_nil]
      cases result with
      | none => cases ha
      | some n => exact h.read hs
  · obtain ⟨hmark,hreply⟩ := mark_other (not_exists.mp hk)
    rw [hmark,hreply,List.append_nil,List.append_nil]
    exact h.other hs (not_exists.mp hk)

theorem cycle_run (k : ℕ) (hr : Runs.run fileServerStep (fileStart old) ls = some s)
    (ha : Runs.Along fileServerStep Answered (fileStart old) ls) :
    Cycle s k (marks old k ls) (replies old k ls) := by
  refine Runs.guarded_induction (P := fun ls s => Cycle s k (marks old k ls) (replies old k ls))
    (.idle rfl .nil) ?_ hr ha
  intro ls l s s' hrun hans ih hs
  rw [show marks old k (ls ++ [l]) = marks old k ls ++ markOf k s l from Runs.outputs_snoc hrun hs,
    show replies old k (ls ++ [l]) = replies old k ls ++ replyOf k s l from Runs.outputs_snoc hrun hs]
  exact cycle_step ih hs hans

theorem line_stored (hr : Runs.run fileServerStep (fileStart old) ls = some s)
    (hw : Runs.Along fileServerStep Whole (fileStart old) ls) (hs : fileServerStep s l = some s')
    (hl : Whole s l) (he : eventAt s l = some (k,ev)) :
    List.Forall₂ (Stored s'.file) (markOf k s l) (lineBy (s.process.handlers k) ev) := by
  cases l with
  | thread | alarm | stamp => cases he
  | read =>
    cases he
    exact .nil
  | client j ev' =>
    cases he
    have hev : ev ≠ .write true := by
      simp only [fileServerStep] at hs
      split_ifs at hs with hown
      rintro rfl
      cases hown
    rw [(quiet_event hev).2]
    exact .nil
  | write j result =>
    cases he
    cases result with
    | none =>
      rw [(quiet_event (by simp)).2]
      exact .nil
    | some n =>
      by_cases hpc : (s.process.handlers k).pc = .writeNewline
      · obtain ⟨part,hc⟩ := contents_run hr hw
        have hin : Party.within s.process (.handler k) := by rw [Party.within,hpc]; rfl
        have hpart : part = (s.process.handlers k).payload :=
          (hc.held (.handler k) hin).trans (by simp [Party.pending,unfinished,hpc])
        have hn : n = 1 := hl [newline] (by simp [bufferOf,hpc])
        have hfile : s'.file = old ++ (log old ls).flatMap Prod.snd ++
            ((s.process.handlers k).payload ++ [newline]) := by
          rw [file_added hs,hc.file,hpart,List.append_assoc]
          simp [added,bufferOf,hpc,hn]
        have hlen : s.file.length + 1 = s'.file.length := by
          rw [file_added hs]
          simp [added,bufferOf,hpc,hn]
        rw [markOf,if_pos ⟨rfl,hpc⟩,hlen]
        simp only [lineBy,storedBy,hpc,Option.isSome_some,and_self,if_true,List.map_cons,
          List.map_nil]
        refine .cons ⟨Nat.le_refl _,?_⟩ .nil
        rw [List.take_length,hfile]
        exact List.suffix_append ..
      · simp [markOf,lineBy,storedBy,hpc]

theorem marks_stored (k : ℕ) (hr : Runs.run fileServerStep (fileStart old) ls = some s)
    (hw : Runs.Along fileServerStep Whole (fileStart old) ls) :
    List.Forall₂ (Stored s.file) (marks old k ls) (ofClient k (log old ls)) := by
  have hall := Runs.guarded_induction (P := fun ls s =>
    Runs.Along fileServerStep Whole (fileStart old) ls →
      List.Forall₂ (Stored s.file) (marks old k ls) (ofClient k (log old ls))) (fun _ => .nil) ?_ hr hw
  · exact hall hw
  intro ls l s s' hrun hl ih hs hw'
  have hbefore := (Runs.along_snoc hrun hw').1
  rw [show marks old k (ls ++ [l]) = marks old k ls ++ markOf k s l from Runs.outputs_snoc hrun hs,
    log_snoc hrun hs,of_client_append]
  refine List.rel_append ((ih hbefore).imp fun _ _ h => h.mono (file_grows hs)) ?_
  by_cases hk : ∃ ev, eventAt s l = some (k,ev)
  · obtain ⟨ev,he⟩ := hk
    rw [committed_own hs he]
    exact line_stored hrun hbefore hs hl he
  · rw [committed_other hs (not_exists.mp hk),(mark_other (not_exists.mp hk)).1]
    exact .nil

structure Replied (old : Bytes) (k : ℕ) (ls : List Step) (s : FileServer) : Prop where
  stored : List.Forall₂ (Stored s.file) (marks old k ls) (ofClient k (log old ls))
  sent : List.Forall₂ (Sent s.file) ((marks old k ls).take (replies old k ls).length) (replies old k ls)
  all : (s.process.handlers k).pc.committed = false → (marks old k ls).length = (replies old k ls).length

-- O_APPEND leaves the offset at the end of the file, so the answer to a packet is not the contents
-- of the file but what was appended to it after the line of that packet
theorem replies_follow_line (hr : Runs.run fileServerStep (fileStart old) ls = some s)
    (ha : Runs.Along fileServerStep Answered (fileStart old) ls) (k : ℕ) : Replied old k ls s := by
  have hstored := marks_stored k hr (ha.mono fun _ _ => answered_whole)
  cases cycle_run k hr ha with
  | idle hpc hsent =>
    have hlen := hsent.length_eq
    refine ⟨hstored,?_,fun _ => hlen⟩
    rw [← hlen,List.take_length]
    exact hsent
  | busy hpc hm hsent =>
    refine ⟨hstored,?_,fun hno => ?_⟩
    · rw [hm,← hsent.length_eq,List.take_left']
      · exact hsent
      · rfl
    · rw [hpc] at hno
      cases hno

end Positions

def answeredCheck (s : FileServer) : Step → Bool
  | .client k (.send n) => match (s.process.handlers k).pc with
      | .send (some content) => n = content.length
      | _ => true
  | .read _ none => false
  | l => decide (Whole s l)

theorem answered_of_check {s : FileServer} {l : Step} (h : answeredCheck s l = true) :
    Answered s l := by
  cases l with
  | thread | write | stamp | alarm => simpa [answeredCheck,Answered] using h
  | read k result =>
    cases result with
    | none => cases h
    | some n => trivial
  | client k ev =>
    cases ev with
    | send n =>
      intro content hpc
      simpa [answeredCheck,hpc] using h
    | _ => trivial

-- the packet of client 1 comes between that of client 0 and its answer
def overtaken : List Step :=
  twoConnections.map .thread ++ (dataPacket 0 97).take 9 ++ dataPacket 1 98 ++
    [.read 0 (some 2),.client 0 (.send 2),.read 0 (some 0),.client 0 .tau]

theorem replies_follow_line_overtaken :
    ∃ s, Runs.run fileServerStep (fileStart [120,10]) overtaken = some s ∧
      replies [120,10] 0 overtaken = [([98,10],6)] ∧ replies [120,10] 1 overtaken = [([],6)] ∧
      Replied [120,10] 0 overtaken s := by
  obtain ⟨s,hs⟩ := Option.isSome_iff_exists.mp (show (Runs.checkedRun fileServerStep answeredCheck
    (fileStart [120,10]) overtaken).isSome by decide)
  obtain ⟨hr,ha⟩ := Runs.checked_run hs
  have hanswered := ha.mono fun _ _ => answered_of_check
  exact ⟨s,hr,by decide,by decide,replies_follow_line hr hanswered 0⟩

end AesdFile
