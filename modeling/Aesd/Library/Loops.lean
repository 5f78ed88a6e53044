import Mathlib.Data.Nat.Notation
import Mathlib.Data.Option.Basic

namespace Loops

variable {S R : Type}

-- body evaluates the condition and, where it holds, the loop once; it leaves the loop with inl
inductive Returns (body : S → R ⊕ S) : S → R → Prop
  | stop {s : S} {r : R} (h : body s = .inl r) : Returns body s r
  | next {s s' : S} {r : R} (h : body s = .inr s') (hr : Returns body s' r) : Returns body s r

inductive Head (body : S → R ⊕ S) (s₀ : S) : S → Prop
  | start : Head body s₀ s₀
  | next {s s' : S} (hs : Head body s₀ s) (h : body s = .inr s') : Head body s₀ s'

def iterate (body : S → R ⊕ S) : ℕ → S → Option R
  | 0, _ => none
  | n+1, s => match body s with
      | .inl r => some r
      | .inr s' => iterate body n s'

variable {body : S → R ⊕ S} {s₀ s s' : S} {r r' : R}

theorem Returns.unique (h : Returns body s r) (h' : Returns body s r') : r = r' := by
  induction h with
  | stop h =>
    cases h' with
    | stop h' =>
      rw [h] at h'
      exact Sum.inl.inj h'
    | next h' _ => simp [h] at h'
  | next h _ ih =>
    cases h' with
    | stop h' => simp [h] at h'
    | next h' hr =>
      rw [h] at h'
      cases h'
      exact ih hr

theorem iterate_returns {n : ℕ} (h : iterate body n s = some r) : Returns body s r := by
  induction n generalizing s with
  | zero => cases h
  | succ n ih =>
    rw [iterate] at h
    cases hb : body s with
    | inl x =>
      simp only [hb,Option.some.injEq] at h
      exact .stop (h ▸ hb)
    | inr s' =>
      rw [hb] at h
      exact .next hb (ih h)

theorem Head.trans (h : Head body s₀ s) (h' : Head body s s') : Head body s₀ s' := by
  induction h' with
  | start => exact h
  | next _ hb ih => exact .next ih hb

theorem Head.returns (h : Head body s₀ s) : Returns body s₀ r ↔ Returns body s r := by
  induction h with
  | start => rfl
  | @next s s' _ hb ih =>
    rw [ih]
    constructor
    · intro hr
      cases hr with
      | stop hs => simp [hb] at hs
      | next hn hr =>
        rw [hb] at hn
        cases hn
        exact hr
    · exact .next hb

theorem Head.invariant {I : S → Prop} (keep : ∀ s s', I s → body s = .inr s' → I s')
    (hs : I s₀) (h : Head body s₀ s) : I s := by
  induction h with
  | start => exact hs
  | next _ hb ih => exact keep _ _ ih hb

theorem returns_invariant {I : S → Prop} {Q : R → Prop}
    (keep : ∀ s s', I s → body s = .inr s' → I s') (stop : ∀ s r, I s → body s = .inl r → Q r)
    (hs : I s) (h : Returns body s r) : Q r := by
  induction h with
  | stop hb => exact stop _ _ hs hb
  | next hb _ ih => exact ih (keep _ _ hs hb)

end Loops
