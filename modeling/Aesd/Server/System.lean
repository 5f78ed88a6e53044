import Aesd.CharDriver.Reading
import Aesd.Server.LockDiscipline
import Mathlib.Logic.Function.Basic

namespace AesdServer
open Kernel Device ClientHandler

-- outgoing is what a client was sent since its last packet was committed; owner holds file_mutex
structure System (I : Type) where
  clients : I → Handler
  fPos : I → ℕ
  outgoing : I → Bytes
  owner : Option I
  driver : Driver

inductive Act where
  | thread (ev : Event)
  | device (env : CallEnv)

structure Label (I : Type) where
  who : I
  act : Act

def start {I : Type} (d : Driver) : System I := ⟨fun _ => init,fun _ => 0,fun _ => [],none,d⟩

variable {I : Type}

structure Answer where
  event : Event
  fPos : ℕ
  driver : Driver

def answerWrite (d : Driver) (fPos : ℕ) (env : CallEnv) (buf : Bytes) : Option Answer :=
  match aesdWrite env d buf with
  | .ok (r,d') => some ⟨.write (decide (0 ≤ r)),fPos,d'⟩
  | .error _ => none

def answerRead (d : Driver) (fPos : ℕ) (env : CallEnv) : Option Answer :=
  match aesdRead env d bufferSize fPos with
  | .ok (r,out,fPos') => some ⟨.read (if 0 ≤ r then some out else none),fPos',d⟩
  | .error _ => none

-- none: the thread is not at a device call, or the call faults in the kernel and never returns
def answer (d : Driver) (h : Handler) (fPos : ℕ) (env : CallEnv) : Option Answer :=
  match h.pc with
  | .ioctl arg =>
      let result := aesdUnlockedIoctl env d fPos aesdcharIocseekto arg
      some ⟨.ioctl (decide (result.1 = 0)),result.2,d⟩
  | .writeData => answerWrite d fPos env h.payload
  | .writeNewline => answerWrite d fPos env [newline]
  | .read => answerRead d fPos env
  | _ => none

def Event.own : Event → Bool
  | .ioctl _ | .write _ | .read _ => false
  | _ => true

def ownerAfter (owner : Option I) (who : I) : Event → Option (Option I)
  | .lock => if owner = none then some (some who) else none
  | .unlock => some none
  | _ => some owner

def outgoingAfter (h : Handler) (sent : Bytes) : Event → Bytes
  | .unlock => []
  | .send accepted => match h.pc with
      | .send (some content) => sent ++ content.take accepted
      | _ => sent
  | _ => sent

def respond (s : System I) (l : Label I) : Option Answer :=
  match l.act with
  | .thread ev => if Event.own ev then some ⟨ev,s.fPos l.who,s.driver⟩ else none
  | .device env => answer s.driver (s.clients l.who) (s.fPos l.who) env

inductive Responds (s : System I) (l : Label I) : Answer → Prop
  | own {ev : Event} (hact : l.act = .thread ev) (ho : Event.own ev = true) :
      Responds s l ⟨ev,s.fPos l.who,s.driver⟩
  | sought {env : CallEnv} (hact : l.act = .device env) {arg : AesdSeekto}
      (hpc : (s.clients l.who).pc = .ioctl arg) {r : ℤ} {p : ℕ}
      (hr : aesdUnlockedIoctl env s.driver (s.fPos l.who) aesdcharIocseekto arg = (r,p)) :
      Responds s l ⟨.ioctl (decide (r = 0)),p,s.driver⟩
  | wroteData {env : CallEnv} (hact : l.act = .device env) (hpc : (s.clients l.who).pc = .writeData)
      {r : ℤ} {d : Driver} (hr : aesdWrite env s.driver (s.clients l.who).payload = .ok (r,d)) :
      Responds s l ⟨.write (decide (0 ≤ r)),s.fPos l.who,d⟩
  | wroteNewline {env : CallEnv} (hact : l.act = .device env)
      (hpc : (s.clients l.who).pc = .writeNewline) {r : ℤ} {d : Driver}
      (hr : aesdWrite env s.driver [newline] = .ok (r,d)) :
      Responds s l ⟨.write (decide (0 ≤ r)),s.fPos l.who,d⟩
  | read {env : CallEnv} (hact : l.act = .device env) (hpc : (s.clients l.who).pc = .read)
      {r : ℤ} {out : Bytes} {p : ℕ}
      (hr : aesdRead env s.driver bufferSize (s.fPos l.who) = .ok (r,out,p)) :
      Responds s l ⟨.read (if 0 ≤ r then some out else none),p,s.driver⟩

theorem answer_write_ok {d : Driver} {fPos : ℕ} {env : CallEnv} {buf : Bytes} {a : Answer}
    (h : answerWrite d fPos env buf = some a) :
    ∃ r d', aesdWrite env d buf = .ok (r,d') ∧ a = ⟨.write (decide (0 ≤ r)),fPos,d'⟩ := by
  unfold answerWrite at h
  cases hw : aesdWrite env d buf with
  | error e => simp [hw] at h
  | ok x =>
    simp only [hw,Option.some.injEq] at h
    exact ⟨x.1,x.2,rfl,h.symm⟩

theorem answer_read_ok {d : Driver} {fPos : ℕ} {env : CallEnv} {a : Answer}
    (h : answerRead d fPos env = some a) :
    ∃ r out p, aesdRead env d bufferSize fPos = .ok (r,out,p) ∧
      a = ⟨.read (if 0 ≤ r then some out else none),p,d⟩ := by
  unfold answerRead at h
  cases hw : aesdRead env d bufferSize fPos with
  | error e => simp [hw] at h
  | ok x =>
    simp only [hw,Option.some.injEq] at h
    exact ⟨x.1,x.2.1,x.2.2,rfl,h.symm⟩

theorem respond_responds {s : System I} {l : Label I} {a : Answer} (h : respond s l = some a) :
    Responds s l a := by
  unfold respond at h
  cases hact : l.act with
  | thread ev =>
    rw [hact] at h
    simp only at h
    split_ifs at h with ho
    cases h
    exact .own hact ho
  | device env =>
    rw [hact] at h
    simp only [answer] at h
    split at h
    · cases h
      exact .sought hact ‹_› rfl
    · obtain ⟨r,d,hr,rfl⟩ := answer_write_ok h
      exact .wroteData hact ‹_› hr
    · obtain ⟨r,d,hr,rfl⟩ := answer_write_ok h
      exact .wroteNewline hact ‹_› hr
    · obtain ⟨r,out,p,hr,rfl⟩ := answer_read_ok h
      exact .read hact ‹_› hr
    · cases h

variable [DecidableEq I]

def sysStep (s : System I) (l : Label I) : Option (System I) := do
  let a ← respond s l
  let owner ← ownerAfter s.owner l.who a.event
  let h ← step (s.clients l.who) a.event
  return ⟨Function.update s.clients l.who h,Function.update s.fPos l.who a.fPos,
    Function.update s.outgoing l.who (outgoingAfter (s.clients l.who) (s.outgoing l.who) a.event),
    owner,a.driver⟩

structure Moved (s : System I) (l : Label I) (s' : System I) (a : Answer) : Prop where
  answered : respond s l = some a
  stepped : step (s.clients l.who) a.event = some (s'.clients l.who)
  owner : ownerAfter s.owner l.who a.event = some s'.owner
  fPos : s'.fPos l.who = a.fPos
  outgoing : s'.outgoing l.who = outgoingAfter (s.clients l.who) (s.outgoing l.who) a.event
  driver : s'.driver = a.driver
  others : ∀ u, u ≠ l.who → s'.clients u = s.clients u ∧ s'.fPos u = s.fPos u ∧
    s'.outgoing u = s.outgoing u

theorem sys_step_moved {s s' : System I} {l : Label I} (h : sysStep s l = some s') :
    ∃ a, Moved s l s' a := by
  simp only [sysStep,Option.bind_eq_bind,Option.bind_eq_some_iff,Option.pure_def,
    Option.some.injEq] at h
  obtain ⟨a,ha,owner,ho,h',hh,rfl⟩ := h
  refine ⟨a,ha,by simpa using hh,ho,by simp,by simp,rfl,fun u hu => ?_⟩
  simp [Function.update_of_ne hu]

def eventOf (t : I) (s : System I) (l : Label I) : List Event :=
  if l.who = t then (respond s l).toList.map Answer.event else []

def eventsOf (d : Driver) (t : I) (ls : List (Label I)) : List Event :=
  Runs.outputs sysStep (eventOf t) (start d) ls

section Projection
variable {d : Driver} {s s' : System I} {l : Label I} {ls : List (Label I)} {a : Answer}

theorem events_of_snoc (t : I) (hr : Runs.run sysStep (start d) ls = some s)
    (hs : sysStep s l = some s') : eventsOf d t (ls ++ [l]) = eventsOf d t ls ++ eventOf t s l :=
  Runs.outputs_snoc hr hs

theorem Moved.event_self (hm : Moved s l s' a) : eventOf l.who s l = [a.event] := by
  simp [eventOf,hm.answered]

theorem event_other {t : I} (ht : t ≠ l.who) : eventOf t s l = [] := if_neg (Ne.symm ht)

theorem client_run (t : I) (hr : Runs.run sysStep (start d) ls = some s) :
    Runs.run step init (eventsOf d t ls) = some (s.clients t) := by
  refine Runs.run_induction (P := fun ls s => Runs.run step init (eventsOf d t ls) =
    some (s.clients t)) rfl ?_ hr
  intro ls l s s' hrun ih hs
  obtain ⟨a,hm⟩ := sys_step_moved hs
  rw [events_of_snoc t hrun hs]
  by_cases ht : t = l.who
  · subst ht
    rw [hm.event_self]
    exact Runs.run_join ih (Runs.run_step hm.stepped)
  · rw [event_other ht,List.append_nil,(hm.others t ht).1]
    exact ih

end Projection

end AesdServer
