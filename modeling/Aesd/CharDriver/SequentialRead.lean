import Aesd.CharDriver.RingHistory
import Aesd.CharDriver.Reading

namespace Device
open BlockHeap CircularBuffer AesdCircularBuffer Kernel Cutting

-- one open file: its position and the bytes its reads have returned so far, in order
structure Session where
  driver : Driver
  fPos : ℕ
  returned : Bytes

inductive Access where
  | read (env : CallEnv) (count : ℕ)
  | add (command : Bytes)

def addCommand (d : Driver) (command : Bytes) : Driver :=
  { heap := d.heap.alloc command
    dev := { d.dev with circularBuffer :=
      (aesdCircularBufferAddEntry d.dev.circularBuffer ⟨some d.heap.next,command.length⟩).2 } }

-- a step is a successful read with a positive count, or an addition that evicts nothing
def sessionStep (s : Session) : Access → Option Session
  | .read env count =>
      if count = 0 then none else
      match aesdRead env s.driver count s.fPos with
      | .ok (r,bytes,fPos) => if 0 ≤ r then some ⟨s.driver,fPos,s.returned ++ bytes⟩ else none
      | .error _ => none
  | .add command =>
      if command = [] ∨ s.driver.dev.circularBuffer.full then none
      else some { s with driver := addCommand s.driver command }

def ValidEntry (h : Heap UInt8) (e : AesdBufferEntry ℕ) : Prop :=
  ∃ p b, e = toEntry (p,b) ∧ h.block p = some b

structure ReadsOnce (p : ℕ) (s : Session) : Prop where
  forward : p ≤ s.fPos
  returned : s.returned = ((contentBytes s.driver).drop p).take (s.fPos - p)
  counted : s.returned.length = s.fPos - p
  finished : ∀ {env count r bytes fPos}, 0 < count →
    aesdRead env s.driver count s.fPos = .ok (r,bytes,fPos) → 0 ≤ r →
      (r = 0 ↔ (contentBytes s.driver).length ≤ s.fPos)
  drained : ∀ reads : ℕ → CallEnv × ℕ, (∀ i, Served (reads i).1 ∧ 0 < (reads i).2) →
    ∃ n s', Runs.run sessionStep s ((List.range n).map fun i => .read (reads i).1 (reads i).2) =
        some s' ∧ s'.driver = s.driver ∧ s'.returned = (contentBytes s.driver).drop p ∧
      aesdRead (reads n).1 s'.driver (reads n).2 s'.fPos = .ok (0,[],s'.fPos)

structure Reads (p : ℕ) (s : Session) : Prop where
  ring : ∃ held, RingHolds s.driver held
  forward : p ≤ s.fPos
  returned : s.returned = ((contentBytes s.driver).drop p).take (s.fPos - p)
  inside : s.fPos ≤ (contentBytes s.driver).length ∨ s.fPos = p

section Sessions
variable {d : Driver} {s s' : Session} {p : ℕ}

theorem ring_holds_of_valid (hw : Wf d.dev.circularBuffer)
    (hv : ∀ e ∈ content d.dev.circularBuffer, ValidEntry d.heap e) : ∃ held, RingHolds d held := by
  have hlist : ∀ es : List (AesdBufferEntry ℕ), (∀ e ∈ es, ValidEntry d.heap e) →
      ∃ held : List (ℕ × Bytes), es = held.map toEntry ∧ ∀ x ∈ held, d.heap.block x.1 = some x.2 := by
    intro es
    induction es with
    | nil => exact fun _ => ⟨[],rfl,by simp⟩
    | cons e es ih =>
      intro he
      obtain ⟨p,b,rfl,hb⟩ := he e (by simp)
      obtain ⟨held,rfl,hheld⟩ := ih fun x hx => he x (by simp [hx])
      exact ⟨(p,b) :: held,rfl,by simpa [hb] using hheld⟩
  obtain ⟨held,he,hheld⟩ := hlist _ hv
  exact ⟨held,hw,he,hheld⟩

theorem add_command_holds {held : List (ℕ × Bytes)} (h : RingHolds d held)
    (hf : d.dev.circularBuffer.full = false) (command : Bytes) :
    RingHolds (addCommand d command) (held ++ [(d.heap.next,command)]) := by
  have ha := add_entry h.wf ⟨some d.heap.next,command.length⟩
  refine ⟨ha.wf,?_,?_⟩
  · refine (ha.content_open h.wf hf).2.trans ?_
    rw [h.entries,List.map_append]
    rfl
  · intro x hx
    simp only [addCommand,Heap.alloc]
    rcases List.mem_append.mp hx with hx | hx
    · have hb := h.blocks x hx
      rw [if_neg (Nat.ne_of_lt (Heap.lt_next hb)),hb]
    · rw [List.mem_singleton] at hx
      simp [hx]

theorem add_command_extends {held : List (ℕ × Bytes)} (h : RingHolds d held)
    (hf : d.dev.circularBuffer.full = false) (command : Bytes) :
    contentBytes (addCommand d command) = contentBytes d ++ command := by
  rw [(add_command_holds h hf command).content_bytes,h.content_bytes]
  simp

theorem Reads.advance (h : Reads p s) {env : CallEnv} {count fPos : ℕ} {r : ℤ} {bytes : Bytes}
    (hc : 0 < count) (hread : aesdRead env s.driver count s.fPos = .ok (r,bytes,fPos))
    (hr : 0 ≤ r) : Reads p ⟨s.driver,fPos,s.returned ++ bytes⟩ := by
  obtain ⟨held,hring⟩ := h.ring
  obtain ⟨-,hbytes,hpos,hend⟩ := read_returns hring hc hr hread
  have hforward := h.forward
  have hat : (contentBytes s.driver).drop s.fPos =
      ((contentBytes s.driver).drop p).drop (s.fPos - p) := by
    rw [List.drop_drop]
    congr 1
    omega
  refine ⟨h.ring,by simp only; omega,?_,?_⟩
  · have hlen : fPos - p = (s.fPos - p) + bytes.length := by omega
    calc
      s.returned ++ bytes = ((contentBytes s.driver).drop p).take (s.fPos - p) ++
          (((contentBytes s.driver).drop p).drop (s.fPos - p)).take bytes.length := by
        rw [← hat,← hbytes,← h.returned]
      _ = ((contentBytes s.driver).drop p).take (fPos - p) := by rw [hlen,List.take_add]
  · rcases h.inside with hin | hin
    · left
      have hlen := congrArg List.length hbytes
      rw [List.length_take,List.length_drop] at hlen
      simp only
      omega
    · by_cases hnil : bytes = []
      · exact Or.inr (by simp [hpos,hin,hnil])
      · left
        have hlen := congrArg List.length hbytes
        rw [List.length_take,List.length_drop] at hlen
        have hmore := hend.not.mp hnil
        simp only
        omega

theorem Reads.step (h : Reads p s) {a : Access} (hs : sessionStep s a = some s') : Reads p s' := by
  cases a with
  | read env count =>
    simp only [sessionStep] at hs
    split_ifs at hs with hc
    cases hread : aesdRead env s.driver count s.fPos with
    | error e => simp [hread] at hs
    | ok result =>
      obtain ⟨r,bytes,fPos⟩ := result
      simp only [hread,Option.ite_none_right_eq_some,Option.some.injEq] at hs
      obtain ⟨hr,rfl⟩ := hs
      exact h.advance (by omega) hread hr
  | add command =>
    simp only [sessionStep,Option.ite_none_left_eq_some,not_or,Option.some.injEq] at hs
    obtain ⟨⟨-,hf⟩,rfl⟩ := hs
    obtain ⟨held,hring⟩ := h.ring
    have hfull : s.driver.dev.circularBuffer.full = false := by simpa using hf
    have hgrow := add_command_extends hring hfull command
    refine ⟨⟨_,add_command_holds hring hfull command⟩,h.forward,?_,?_⟩
    · simp only
      rw [hgrow,h.returned]
      rcases h.inside with hin | hin
      · rw [List.drop_append,List.take_append_of_le_length]
        rw [List.length_drop]
        omega
      · simp [hin]
    · simp only
      rw [hgrow,List.length_append]
      exact h.inside.imp (fun hle => Nat.le_add_right_of_le hle) id

theorem Reads.served (h : Reads p s) {env : CallEnv} {count : ℕ} (he : Served env)
    (hc : 0 < count) :
    (contentBytes s.driver).length ≤ s.fPos ∧
        aesdRead env s.driver count s.fPos = .ok (0,[],s.fPos) ∨
      ∃ s', sessionStep s (.read env count) = some s' ∧ s'.driver = s.driver ∧
        s.fPos < s'.fPos ∧ s'.fPos ≤ (contentBytes s.driver).length := by
  obtain ⟨held,hring⟩ := h.ring
  obtain ⟨result,hok,hout⟩ := aesd_read_spec env hring hc s.fPos
  have hne : count ≠ 0 := by omega
  cases hout with
  | interrupted hi => simp [he.locked] at hi
  | finished _ hp => exact Or.inl ⟨hp,hok⟩
  | faulted _ hu => simp [he.copied] at hu
  | @delivered _ n hn _ hp =>
    refine Or.inr ⟨⟨s.driver,s.fPos + n,s.returned ++ ((contentBytes s.driver).drop s.fPos).take n⟩,
      ?_,rfl,Nat.lt_add_of_pos_right hn,hp⟩
    simp [sessionStep,hok,hne]

theorem Reads.drain (h : Reads p s) (reads : ℕ → CallEnv × ℕ)
    (hreads : ∀ i, Served (reads i).1 ∧ 0 < (reads i).2) : ∃ n s', Runs.run sessionStep s
        ((List.range n).map fun i => .read (reads i).1 (reads i).2) = some s' ∧
      s'.driver = s.driver ∧ Reads p s' ∧ (contentBytes s.driver).length ≤ s'.fPos ∧
      aesdRead (reads n).1 s'.driver (reads n).2 s'.fPos = .ok (0,[],s'.fPos) := by
  obtain ⟨k,hk⟩ : ∃ k, (contentBytes s.driver).length - s.fPos ≤ k := ⟨_,Nat.le_refl _⟩
  induction k generalizing s reads with
  | zero =>
    rcases h.served (hreads 0).1 (hreads 0).2 with ⟨hp,hend⟩ | ⟨s',hs',hd,hlt,hle⟩
    · exact ⟨0,s,rfl,rfl,h,hp,hend⟩
    · omega
  | succ k ih =>
    rcases h.served (hreads 0).1 (hreads 0).2 with ⟨hp,hend⟩ | ⟨s',hs',hd,hlt,hle⟩
    · exact ⟨0,s,rfl,rfl,h,hp,hend⟩
    · obtain ⟨n,t,hrun,hdt,ht,hp,hend⟩ := ih (h.step hs') (fun i => reads (i + 1))
        (fun i => hreads (i + 1)) (by rw [hd]; omega)
      refine ⟨n + 1,t,?_,hdt.trans hd,ht,hd ▸ hp,hend⟩
      rw [List.range_succ_eq_map,List.map_cons,List.map_map]
      exact (Runs.run_next hs' _).trans hrun

theorem Reads.once (h : Reads p s) : ReadsOnce p s := by
  obtain ⟨held,hring⟩ := h.ring
  refine ⟨h.forward,h.returned,?_,?_,?_⟩
  · have hforward := h.forward
    rw [h.returned,List.length_take,List.length_drop]
    rcases h.inside with hin | hin
    · omega
    · omega
  · intro env count r bytes fPos hc hread hr
    obtain ⟨hlen,-,-,hend⟩ := read_returns hring hc hr hread
    rw [← hend,hlen]
    simp
  · intro reads hreads
    obtain ⟨n,s',hrun,hd,ht,hp,hend⟩ := h.drain reads hreads
    refine ⟨n,s',hrun,hd,?_,hend⟩
    rw [ht.returned,hd,List.take_of_length_le]
    rw [List.length_drop]
    omega

end Sessions

theorem sequential_reads {d : Driver} {es : List (AesdBufferEntry ℕ)}
    (hring : d.dev.circularBuffer = (addEntries aesdCircularBufferInit es).2)
    (hv : ∀ e ∈ content d.dev.circularBuffer, ValidEntry d.heap e) (p : ℕ)
    {accesses : List Access} {s : Session}
    (hr : Runs.run sessionStep ⟨d,p,[]⟩ accesses = some s) : ReadsOnce p s := by
  have hw : Wf d.dev.circularBuffer := by
    rw [hring]
    exact (add_entries_content wf_init es).1
  have hstart : Reads p ⟨d,p,[]⟩ :=
    ⟨ring_holds_of_valid hw hv,Nat.le_refl _,by simp,Or.inr rfl⟩
  exact (Runs.run_invariant (fun _ _ _ h hs => Reads.step h hs) hstart hr).once

def twoCommands : Driver := addCommand (addCommand aesdInitModule [97,98,10]) [10]

def readsWithAddition : List Access := [.read calm 1,.read calm 5,.add [99,10],.read calm 4]

theorem sequential_reads_of_two_commands :
    ∃ s, Runs.run sessionStep ⟨twoCommands,1,[]⟩ readsWithAddition = some s ∧
      s.returned = [98,10,10] ∧ ReadsOnce 1 s := by
  obtain ⟨s,hs,hbytes⟩ := Option.map_eq_some_iff.mp
    (show (Runs.run sessionStep ⟨twoCommands,1,[]⟩ readsWithAddition).map (·.returned) =
      some [98,10,10] by decide)
  have hring : twoCommands.dev.circularBuffer =
      (addEntries aesdCircularBufferInit [toEntry (0,[97,98,10]),toEntry (1,[10])]).2 := rfl
  refine ⟨s,hs,hbytes,sequential_reads hring ?_ 1 hs⟩
  have hc : content twoCommands.dev.circularBuffer = [toEntry (0,[97,98,10]),toEntry (1,[10])] := by
    decide
  rw [hc]
  intro e he
  rcases List.mem_cons.mp he with rfl | he
  · exact ⟨0,[97,98,10],rfl,by decide⟩
  · rw [List.mem_singleton] at he
    exact ⟨1,[10],he,by decide⟩

end Device
