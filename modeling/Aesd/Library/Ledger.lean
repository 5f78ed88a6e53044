import Aesd.Library.Runs

namespace Ledger

inductive Action (R : Type) where
  | acquire (r : R)
  | release (r : R)
  deriving DecidableEq

inductive Status where
  | absent
  | held
  | released

variable {R : Type} [DecidableEq R]

-- every resource is released at most once, and not before it has been acquired
def Once (acts : List (Action R)) : Prop :=
  ∀ done, done <+: acts → ∀ r, done.count (.release r) ≤ 1 ∧
    done.count (.release r) ≤ done.count (.acquire r)

def advance (r : R) (st : Status) : Action R → Option Status
  | .acquire q => if q = r then (match st with
      | .absent => some .held
      | _ => none) else some st
  | .release q => if q = r then (match st with
      | .held => some .released
      | _ => none) else some st

def trace (r : R) (st : Status) : List (Action R) → Option Status
  | [] => some st
  | a :: acts => (advance r st a).bind fun st' => trace r st' acts

def Status.acquired : Status → ℕ
  | .absent => 0
  | _ => 1

def Status.releases : Status → ℕ
  | .released => 1
  | _ => 0

section Traces
variable {r : R} {st st' : Status} {acts xs ys : List (Action R)}

theorem trace_append : trace r st (xs ++ ys) = (trace r st xs).bind fun st' => trace r st' ys := by
  induction xs generalizing st with
  | nil => rfl
  | cons a xs ih =>
    simp only [List.cons_append,trace]
    cases advance r st a with
    | none => rfl
    | some st' => exact ih

theorem advance_counts {a : Action R} (h : advance r st a = some st') :
    st'.acquired = st.acquired + [a].count (.acquire r) ∧
    st'.releases = st.releases + [a].count (.release r) := by
  cases a with
  | acquire q =>
    simp only [advance] at h
    split_ifs at h with hq
    · subst hq
      cases st <;> cases h
      simp [Status.acquired,Status.releases]
    · cases h
      simp [hq]
  | release q =>
    simp only [advance] at h
    split_ifs at h with hq
    · subst hq
      cases st <;> cases h
      simp [Status.acquired,Status.releases]
    · cases h
      simp [hq]

theorem trace_counts (h : trace r st acts = some st') :
    st'.acquired = st.acquired + acts.count (.acquire r) ∧
    st'.releases = st.releases + acts.count (.release r) := by
  induction acts generalizing st with
  | nil =>
    cases h
    simp
  | cons a acts ih =>
    obtain ⟨m,hm,ht⟩ := Option.bind_eq_some_iff.mp h
    obtain ⟨h₁,h₂⟩ := advance_counts hm
    obtain ⟨h₃,h₄⟩ := ih ht
    rw [← List.singleton_append,List.count_append,List.count_append]
    omega

theorem once_of_traces (h : ∀ r, ∃ st, trace r .absent acts = some st) : Once acts := by
  rintro done ⟨rest,rfl⟩ r
  obtain ⟨st,hst⟩ := h r
  rw [trace_append] at hst
  obtain ⟨m,hm,-⟩ := Option.bind_eq_some_iff.mp hst
  obtain ⟨h₁,h₂⟩ := trace_counts hm
  simp only [Status.acquired,Status.releases,Nat.zero_add] at h₁ h₂
  rw [← h₁,← h₂]
  cases m <;> decide

end Traces

-- what one step may do to the resources, told by which are absent and which are given up
inductive Change (absent gone absent' gone' : R → Prop) : List (Action R) → Prop
  | quiet (h : ∀ r, (absent r ↔ absent' r) ∧ (gone r → gone' r)) : Change absent gone absent' gone' []
  | acquired (q : R) (ha : absent q) (ha' : ¬ absent' q)
      (h : ∀ r, r ≠ q → (absent r ↔ absent' r) ∧ (gone r → gone' r)) :
      Change absent gone absent' gone' [.acquire q]
  | released (q : R) (ha : ¬ absent q) (hg : ¬ gone q) (ha' : ¬ absent' q) (hg' : gone' q)
      (h : ∀ r, r ≠ q → (absent r ↔ absent' r) ∧ (gone r → gone' r)) :
      Change absent gone absent' gone' [.release q]
  | spent (q : R) (ha : absent q) (ha' : ¬ absent' q) (hg' : gone' q)
      (h : ∀ r, r ≠ q → (absent r ↔ absent' r) ∧ (gone r → gone' r)) :
      Change absent gone absent' gone' [.acquire q,.release q]

def Fits (absent gone : R → Prop) (r : R) : Status → Prop
  | .absent => absent r
  | .held => ¬ absent r
  | .released => ¬ absent r ∧ gone r

section Changes
variable {absent gone absent' gone' : R → Prop} {acts : List (Action R)} {r : R} {st : Status}

omit [DecidableEq R] in
theorem Fits.kept (h : Fits absent gone r st) (hk : (absent r ↔ absent' r) ∧ (gone r → gone' r)) :
    Fits absent' gone' r st := by
  cases st with
  | absent => exact hk.1.mp h
  | held => exact fun ha => h (hk.1.mpr ha)
  | released => exact ⟨fun ha => h.1 (hk.1.mpr ha),hk.2 h.2⟩

theorem Change.fits (hc : Change absent gone absent' gone' acts) (h : Fits absent gone r st) :
    ∃ st', trace r st acts = some st' ∧ Fits absent' gone' r st' := by
  cases hc with
  | quiet hk => exact ⟨st,rfl,h.kept (hk r)⟩
  | acquired q ha ha' hk =>
    by_cases hq : q = r
    · subst hq
      cases st with
      | absent => exact ⟨.held,by simp [trace,advance],ha'⟩
      | held => exact absurd ha h
      | released => exact absurd ha h.1
    · exact ⟨st,by simp [trace,advance,hq],h.kept (hk r (Ne.symm hq))⟩
  | released q ha hg ha' hg' hk =>
    by_cases hq : q = r
    · subst hq
      cases st with
      | absent => exact absurd h ha
      | held => exact ⟨.released,by simp [trace,advance],ha',hg'⟩
      | released => exact absurd h.2 hg
    · exact ⟨st,by simp [trace,advance,hq],h.kept (hk r (Ne.symm hq))⟩
  | spent q ha ha' hg' hk =>
    by_cases hq : q = r
    · subst hq
      cases st with
      | absent => exact ⟨.released,by simp [trace,advance],ha',hg'⟩
      | held => exact absurd ha h
      | released => exact absurd ha h.1
    · exact ⟨st,by simp [trace,advance,hq],h.kept (hk r (Ne.symm hq))⟩

end Changes

theorem run_once {S L : Type} {step : S → L → Option S} {cond : S → L → Prop}
    {out : S → L → List (Action R)} (absent gone : S → R → Prop) {s₀ s : S} {ls : List L}
    (start : ∀ r, absent s₀ r)
    (next : ∀ ls l s s', Runs.run step s₀ ls = some s → Runs.Along step cond s₀ ls → cond s l →
      step s l = some s' → Change (absent s) (gone s) (absent s') (gone s') (out s l))
    (hr : Runs.run step s₀ ls = some s) (ha : Runs.Along step cond s₀ ls) :
    Once (Runs.outputs step out s₀ ls) := by
  have hfits : ∀ r, ∃ st, trace r .absent (Runs.outputs step out s₀ ls) = some st ∧
      Fits (absent s) (gone s) r st := by
    induction ls using List.reverseRecOn generalizing s with
    | nil =>
      cases hr
      exact fun r => ⟨.absent,rfl,start r⟩
    | append_singleton ls l ih =>
      obtain ⟨m,hm,hs⟩ := Runs.run_snoc hr
      obtain ⟨hals,hl⟩ := Runs.along_snoc hm ha
      intro r
      obtain ⟨st,hst,hf⟩ := ih hm hals r
      obtain ⟨st',hst',hf'⟩ := (next ls l m s hm hals hl hs).fits hf
      refine ⟨st',?_,hf'⟩
      rw [Runs.outputs_snoc hm hs,trace_append,hst]
      exact hst'
  exact once_of_traces fun r => (hfits r).imp fun _ h => h.1

end Ledger
