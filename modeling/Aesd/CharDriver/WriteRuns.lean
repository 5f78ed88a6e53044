import Aesd.CharDriver.WriteRefinement
import Aesd.Library.Runs

namespace Device
open BlockHeap CircularBuffer AesdCircularBuffer Kernel Cutting

structure WriteCall where
  env : CallEnv
  buf : Bytes

-- a call that faults in the kernel never returns, and leaves the device lock held
def writeStep (d : Driver) (c : WriteCall) : Option Driver :=
  match aesdWrite c.env d c.buf with
  | .ok (_,d') => some d'
  | .error _ => none

def storeStep (d : Driver) (c : WriteCall) : Option Driver :=
  match aesdWrite c.env d c.buf with
  | .ok (r,d') => if 0 ≤ r then some d' else none
  | .error _ => none

def outcome : Except Oops (ℤ × Driver) → Option (ℤ × List (Option Bytes) × Option Bytes)
  | .ok (r,d) => some (r,commands d,fragment d)
  | .error _ => none

theorem outcome_ok {x : Except Oops (ℤ × Driver)} {r : ℤ} {cs : List (Option Bytes)}
    {f : Option Bytes} (h : outcome x = some (r,cs,f)) :
    ∃ d, x = .ok (r,d) ∧ commands d = cs ∧ fragment d = f := by
  cases x with
  | error e => simp [outcome] at h
  | ok y =>
    simp only [outcome,Option.some.injEq,Prod.mk.injEq] at h
    exact ⟨y.2,by rw [← h.1],h.2.1,h.2.2⟩

section Observed
variable {d : Driver} {held : List (ℕ × Bytes)} {frag : Option (ℕ × Bytes)}

theorem entry_bytes_holds {h : Heap UInt8} {cells : List (ℕ × Bytes)} (hc : h.Holds cells)
    {x : ℕ × Bytes} (hx : x ∈ cells) : entryBytes h (toEntry x) = some x.2 := by
  simp [entryBytes,toEntry,hc.read (p := x.1) (b := x.2) hx]

theorem commands_held {cells : List (ℕ × Bytes)}
    (he : content d.dev.circularBuffer = held.map toEntry) (hc : d.heap.Holds cells)
    (hs : ∀ x ∈ held, x ∈ cells) : commands d = (held.map Prod.snd).map some := by
  rw [commands,he,List.map_map,List.map_map]
  exact List.map_congr_left fun x hx => entry_bytes_holds hc (hs x hx)

theorem Stored.commands (h : Stored d held frag) : commands d = (held.map Prod.snd).map some :=
  commands_held h.entries h.heap fun _ hx => List.mem_append_right _ hx

theorem Stored.fragment (h : Stored d held frag) : fragment d = some (fragBytes frag) := by
  have hs := h.size
  cases frag with
  | none =>
    have hs' : d.dev.incompleteCommandSize = 0 := hs
    simp [Device.fragment,h.buffer,hs',fragBytes]
  | some x =>
    have hr : d.heap.block x.1 = some x.2 := h.heap.read (by simp)
    have hs' : d.dev.incompleteCommandSize = x.2.length := hs
    simp [Device.fragment,h.buffer,hr,hs',fragBytes]

theorem Stored.buffer_none (h : Stored d held frag) :
    d.dev.incompleteCommandBuffer = none ↔ fragBytes frag = [] := by
  rw [h.buffer]
  cases frag with
  | none => simp [fragBytes]
  | some x => simpa [fragBytes] using h.nonempty x rfl

theorem Stale.commands {p : ℕ} (h : Stale d held p) :
    commands d = (held.map Prod.snd).map some := commands_held h.entries h.heap fun _ hx => hx

theorem Stale.fragment {p : ℕ} (h : Stale d held p) : fragment d = none := by
  simp [Device.fragment,h.buffer,h.heap.dead h.dead]

theorem Shows.commands {L : Logical} (h : Shows d L) : commands d = L.commands.map some := by
  cases h with
  | intact h => exact h.commands
  | stale h => exact h.commands

theorem Shows.fragment {L : Logical} (h : Shows d L) : fragment d = L.fragment := by
  cases h with
  | intact h => exact h.fragment
  | stale h => exact h.fragment

theorem Shows.stored {cmds : List Bytes} {f : Bytes} (h : Shows d ⟨cmds,some f⟩) :
    ∃ held frag, Stored d held frag ∧ held.map Prod.snd = cmds ∧ fragBytes frag = f := by
  cases h with
  | intact h => exact ⟨_,_,h,rfl,rfl⟩

theorem stored_init : Stored aesdInitModule [] none :=
  ⟨wf_init,content_init,rfl,rfl,by simp,Heap.Holds.empty⟩

end Observed

section Inversion
variable {env : CallEnv} {d d' : Driver} {buf : Bytes} {r : ℤ}

theorem stored_write {held : List (ℕ × Bytes)} {frag : Option (ℕ × Bytes)}
    (h : Stored d held frag) (hw : aesdWrite env d buf = .ok (r,d')) :
    r = (logicalWrite env (held.map Prod.snd) (fragBytes frag) buf).1 ∧
      Shows d' (logicalWrite env (held.map Prod.snd) (fragBytes frag) buf).2 := by
  rcases aesd_write_spec env h buf with ⟨herr,-⟩ | ⟨d₁,hok,hs⟩
  · rw [herr] at hw
    cases hw
  · rw [hok] at hw
    cases hw
    exact ⟨rfl,hs⟩

theorem stored_oops {held : List (ℕ × Bytes)} {frag : Option (ℕ × Bytes)} {e : Oops}
    (h : Stored d held frag) (hw : aesdWrite env d buf = .error e) : e = .nullWrite := by
  rcases aesd_write_spec env h buf with ⟨herr,-⟩ | ⟨d₁,hok,-⟩
  · rw [herr] at hw
    exact (Except.error.inj hw).symm
  · rw [hok] at hw
    cases hw

theorem stale_write_returns {held : List (ℕ × Bytes)} {p : ℕ} (h : Stale d held p)
    (hw : aesdWrite env d buf = .ok (r,d')) : env.interrupted = true ∧ r = -eintr ∧ d' = d := by
  cases hi : env.interrupted with
  | false =>
    rw [stale_write env h hi buf] at hw
    cases hw
  | true =>
    simp only [aesdWrite,hi,if_true,pure_ok,Except.ok.injEq,Prod.mk.injEq] at hw
    exact ⟨rfl,hw.1.symm,hw.2.symm⟩

theorem shown_write {L : Logical} (h : Shows d L) (hw : aesdWrite env d buf = .ok (r,d')) :
    ∃ L', Shows d' L' := by
  cases h with
  | intact h => exact ⟨_,(stored_write h hw).2⟩
  | stale h =>
    obtain ⟨-,-,rfl⟩ := stale_write_returns h hw
    exact ⟨_,.stale h⟩

theorem write_step_returns {c : WriteCall} (h : writeStep d c = some d') :
    ∃ r, aesdWrite c.env d c.buf = .ok (r,d') := by
  unfold writeStep at h
  cases hw : aesdWrite c.env d c.buf with
  | error e => simp [hw] at h
  | ok x =>
    simp only [hw,Option.some.injEq] at h
    exact ⟨x.1,by rw [← h]⟩

theorem store_step_returns {c : WriteCall} (h : storeStep d c = some d') :
    ∃ r, 0 ≤ r ∧ aesdWrite c.env d c.buf = .ok (r,d') := by
  unfold storeStep at h
  cases hw : aesdWrite c.env d c.buf with
  | error e => simp [hw] at h
  | ok x =>
    simp only [hw] at h
    split_ifs at h with hr
    cases h
    exact ⟨x.1,hr,rfl⟩

theorem reachable_shown (h : Runs.Reachable writeStep aesdInitModule d) : ∃ L, Shows d L := by
  refine h.invariant (I := fun d => ∃ L, Shows d L) ?_ ⟨_,.intact stored_init⟩
  rintro d c d' ⟨L,hL⟩ hs
  obtain ⟨r,hw⟩ := write_step_returns hs
  exact shown_write hL hw

end Inversion

def cutAll (env : CallEnv) (data : Bytes) : Cut := cutLoop env data data.length 1 0 data.length

section Outcomes
variable {env : CallEnv} {cmds : List Bytes} {f buf : Bytes}

theorem logical_write_interrupted (hi : env.interrupted = true) :
    logicalWrite env cmds f buf = (-eintr,⟨cmds,some f⟩) := by simp [logicalWrite,hi]

theorem logical_write_fault (hi : env.interrupted = false)
    (hu : (env.uncopied && !buf.isEmpty) = true) :
    logicalWrite env cmds f buf = (-efault,⟨cmds,if f = [] then some [] else none⟩) := by
  simp only [logicalWrite,hi,hu,if_true,Bool.false_eq_true,if_false]

theorem logical_write_cut (cmds : List Bytes) (f : Bytes) (hi : env.interrupted = false)
    (hu : (env.uncopied && !buf.isEmpty) = false) :
    (logicalWrite env cmds f buf =
        (-enomem,⟨(cmds ++ (cutAll env (f ++ buf)).pushed).rtake 10,some (f ++ buf)⟩)) ∨
      ∃ start kmallocs, (cutAll env (f ++ buf)).stop = some (start,kmallocs) ∧
        logicalWrite env cmds f buf = ((buf.length : ℤ),
          Logical.mk ((cmds ++ (cutAll env (f ++ buf)).pushed).rtake 10) (some ((f ++ buf).drop start))) := by
  simp only [logicalWrite,hi,hu,Bool.false_eq_true,if_false,cutAll]
  cases hs : (cutLoop env (f ++ buf) (f ++ buf).length 1 0 (f ++ buf).length).stop with
  | none => exact Or.inl rfl
  | some x =>
    simp only [Option.some.injEq]
    split_ifs
    · exact Or.inl rfl
    · exact Or.inr ⟨x.1,x.2,rfl,rfl⟩

theorem logical_write_success (h : 0 ≤ (logicalWrite env cmds f buf).1) :
    ∃ start kmallocs, (cutAll env (f ++ buf)).stop = some (start,kmallocs) ∧
      logicalWrite env cmds f buf = ((buf.length : ℤ),
        Logical.mk ((cmds ++ (cutAll env (f ++ buf)).pushed).rtake 10) (some ((f ++ buf).drop start))) := by
  cases hi : env.interrupted with
  | true =>
    rw [logical_write_interrupted hi] at h
    simp [eintr] at h
  | false =>
    cases hu : env.uncopied && !buf.isEmpty with
    | true =>
      rw [logical_write_fault hi hu] at h
      simp [efault] at h
    | false =>
      rcases logical_write_cut cmds f hi hu with hw | hw
      · rw [hw] at h
        simp [enomem] at h
      · exact hw

theorem stored_write_success {d d' : Driver} {r : ℤ} {held : List (ℕ × Bytes)}
    {frag : Option (ℕ × Bytes)} (h : Stored d held frag) (hw : aesdWrite env d buf = .ok (r,d'))
    (hr : 0 ≤ r) : ∃ start kmallocs,
      (cutAll env (fragBytes frag ++ buf)).stop = some (start,kmallocs) ∧ r = buf.length ∧
        Shows d' ⟨(held.map Prod.snd ++ (cutAll env (fragBytes frag ++ buf)).pushed).rtake 10,
          some ((fragBytes frag ++ buf).drop start)⟩ := by
  obtain ⟨hres,hshow⟩ := stored_write h hw
  rw [hres] at hr
  obtain ⟨start,kmallocs,hstop,hlog⟩ := logical_write_success hr
  rw [hlog] at hres hshow
  exact ⟨start,kmallocs,hstop,hres,hshow⟩

theorem logical_write_fragment (cmds : List Bytes) (f : Bytes) :
    (logicalWrite env cmds f buf).2.fragment = none ↔
      env.interrupted = false ∧ (env.uncopied && !buf.isEmpty) = true ∧ f ≠ [] := by
  cases hi : env.interrupted with
  | true => simp [logical_write_interrupted hi]
  | false =>
    cases hu : env.uncopied && !buf.isEmpty with
    | true => simp [logical_write_fault hi hu]
    | false =>
      rcases logical_write_cut cmds f hi hu with hlog | ⟨start,kmallocs,-,hlog⟩ <;>
        simp [hlog]

end Outcomes

end Device
