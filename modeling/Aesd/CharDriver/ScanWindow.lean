import Aesd.CharDriver.Device
import Aesd.Library.Loops

namespace Device
open CircularBuffer Kernel

-- newlineLoop without its fuel
def newlineBody (env : CallEnv) (buffer : Option ℕ) (s : LoopState) :
    Except Oops (Bool × LoopState) ⊕ LoopState :=
  match memchr env s.mem buffer s.cmdStart s.readSize with
  | .error e => .inl (.error e)
  | .ok none => .inl (.ok (true,s))
  | .ok (some cmdBreak) =>
      match pushCommand env buffer s cmdBreak with
      | .error e => .inl (.error e)
      | .ok (more,s') => if more then .inr s' else .inl (.ok (false,s'))

structure WindowInside (totalSize : ℕ) (s : LoopState) : Prop where
  start : s.cmdStart ≤ totalSize
  window : s.cmdStart + s.readSize ≤ totalSize

section Inversion
variable {env : CallEnv} {buffer : Option ℕ} {s s' : LoopState} {cmdBreak : ℕ} {more : Bool}

theorem memchr_inside {m : Memory} {off n : ℕ} (h : memchr env m buffer off n = .ok (some cmdBreak)) :
    off ≤ cmdBreak ∧ cmdBreak < off + n := by
  by_cases hn : n = 0
  · simp [memchr,hn] at h
  · cases hl : load env m off n buffer with
    | error e => simp [memchr,hn,hl] at h
    | ok bytes =>
      have hlen : bytes.length = n := by
        cases buffer with
        | none => simp [load,hn] at hl
        | some p =>
          cases hb : m.heap.block p with
          | none => simp [load,hb] at hl
          | some b =>
            simp only [load,hb,Except.ok.injEq] at hl
            rw [← hl,extent_length]
      simp only [memchr,if_neg hn,hl,ok_bind,pure_ok,Except.ok.injEq] at h
      obtain ⟨i,hi,rfl⟩ := Option.map_eq_some_iff.mp h
      obtain ⟨hlt,-⟩ := List.findIdx?_eq_some_iff_getElem.mp hi
      omega

theorem push_command_moves (h : pushCommand env buffer s cmdBreak = .ok (more,s')) :
    more = true ∧ s'.cmdStart = cmdBreak + 1 ∧ s'.readSize = s.readSize - (cmdBreak + 1) ∨
      more = false ∧ s'.cmdStart = s.cmdStart ∧ s'.readSize = s.readSize := by
  unfold pushCommand at h
  simp only at h
  obtain ⟨m₁,-,h⟩ := bind_some h
  split at h
  · obtain ⟨m₂,-,h⟩ := bind_some h
    cases h
    exact Or.inr ⟨rfl,rfl,rfl⟩
  · obtain ⟨m₂,-,h⟩ := bind_some h
    obtain ⟨m₃,-,h⟩ := bind_some h
    obtain ⟨m₄,-,h⟩ := bind_some h
    cases h
    refine Or.inl ⟨rfl,rfl,?_⟩
    simp only
    split_ifs <;> omega

theorem newline_body_next (h : newlineBody env buffer s = .inr s') : ∃ cmdBreak,
    s.cmdStart ≤ cmdBreak ∧ cmdBreak < s.cmdStart + s.readSize ∧ s'.cmdStart = cmdBreak + 1 ∧
      s'.readSize = s.readSize - (cmdBreak + 1) := by
  unfold newlineBody at h
  split at h
  · cases h
  · cases h
  · split at h
    · cases h
    · split_ifs at h with hmore
      cases h
      obtain ⟨hlo,hhi⟩ := memchr_inside ‹_›
      rcases push_command_moves ‹_› with ⟨-,hstart,hread⟩ | ⟨hf,-⟩
      · exact ⟨_,hlo,hhi,hstart,hread⟩
      · rw [hmore] at hf
        cases hf

theorem newline_body_exit {s₁ : LoopState}
    (h : newlineBody env buffer s = .inl (.ok (more,s₁))) :
    s₁.cmdStart = s.cmdStart ∧ s₁.readSize = s.readSize := by
  unfold newlineBody at h
  split at h
  · cases h
  · cases h
    exact ⟨rfl,rfl⟩
  · split at h
    · cases h
    · split_ifs at h with hmore
      cases h
      rcases push_command_moves ‹_› with ⟨ht,-⟩ | ⟨-,hkept⟩
      · exact absurd ht hmore
      · exact hkept

end Inversion

section Loop
variable {env : CallEnv} {buffer : Option ℕ} {s s' : LoopState} {totalSize : ℕ}

theorem newline_body_shrinks (h : newlineBody env buffer s = .inr s') : s'.readSize < s.readSize := by
  obtain ⟨cmdBreak,hlo,hhi,-,hread⟩ := newline_body_next h
  omega

theorem WindowInside.next (hw : WindowInside totalSize s) (h : newlineBody env buffer s = .inr s') :
    WindowInside totalSize s' := by
  obtain ⟨cmdBreak,-,hhi,hstart,hread⟩ := newline_body_next h
  have hwin := hw.window
  exact ⟨by omega,by omega⟩

theorem newline_loop_returns {fuel : ℕ} (hf : s.readSize ≤ fuel) :
    Loops.Returns (newlineBody env buffer) s (newlineLoop env buffer fuel s) := by
  induction fuel generalizing s with
  | zero =>
    have hz : s.readSize = 0 := by omega
    exact .stop (by simp [newlineBody,newlineLoop,memchr,hz])
  | succ fuel ih =>
    cases hm : memchr env s.mem buffer s.cmdStart s.readSize with
    | error e => exact .stop (by simp [newlineBody,newlineLoop,hm])
    | ok found =>
      cases found with
      | none => exact .stop (by simp [newlineBody,newlineLoop,hm])
      | some cmdBreak =>
        cases hp : pushCommand env buffer s cmdBreak with
        | error e => exact .stop (by simp [newlineBody,newlineLoop,hm,hp])
        | ok x =>
          obtain ⟨more,s'⟩ := x
          cases more with
          | false => exact .stop (by simp [newlineBody,newlineLoop,hm,hp])
          | true =>
            have hb : newlineBody env buffer s = .inr s' := by simp [newlineBody,hm,hp]
            have hshrink := newline_body_shrinks hb
            have hloop : newlineLoop env buffer (fuel + 1) s = newlineLoop env buffer fuel s' := by
              simp [newlineLoop,hm,hp]
            rw [hloop]
            exact .next hb (ih (by omega))

end Loop

theorem scan_window_inside (env : CallEnv) (buffer : Option ℕ) (totalSize : ℕ)
    (ring : AesdCircularBuffer ℕ) (m : Memory) :
    Loops.Returns (newlineBody env buffer) ⟨0,totalSize,ring,m⟩
        (newlineLoop env buffer totalSize ⟨0,totalSize,ring,m⟩) ∧
      (∀ s, Loops.Head (newlineBody env buffer) ⟨0,totalSize,ring,m⟩ s →
        s.cmdStart ≤ totalSize ∧ s.cmdStart + s.readSize ≤ totalSize) ∧
      ∀ more s, newlineLoop env buffer totalSize ⟨0,totalSize,ring,m⟩ = .ok (more,s) →
        0 ≤ (totalSize : ℤ) - s.cmdStart ∧ (totalSize : ℤ) - s.cmdStart ≤ totalSize := by
  have hstart : WindowInside totalSize ⟨0,totalSize,ring,m⟩ := ⟨Nat.zero_le _,by simp⟩
  have hreturns : Loops.Returns (newlineBody env buffer) ⟨0,totalSize,ring,m⟩
      (newlineLoop env buffer totalSize ⟨0,totalSize,ring,m⟩) := newline_loop_returns (Nat.le_refl _)
  refine ⟨hreturns,fun s hs => ?_,fun more s hs => ?_⟩
  · have hw := hs.invariant (I := WindowInside totalSize) (fun _ _ hw h => hw.next h) hstart
    exact ⟨hw.start,hw.window⟩
  · rw [hs] at hreturns
    have hend := Loops.returns_invariant (I := WindowInside totalSize)
      (Q := fun r => ∀ more s, r = .ok (more,s) → s.cmdStart ≤ totalSize) (fun _ _ hw h => hw.next h)
      (fun s r hw h more s₁ hr => ?_) hstart hreturns
    · have hle := hend more s rfl
      omega
    · rw [hr] at h
      rw [(newline_body_exit h).1]
      exact hw.start

end Device
