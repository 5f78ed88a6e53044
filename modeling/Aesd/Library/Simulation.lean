import Aesd.Library.Runs

namespace Runs

variable {S T L M O : Type} {step : S → L → Option S}

section Lockstep
variable {spec : T → L → Option T} {out : S → L → List O} {want : T → L → List O}
  {cond : S → L → Prop} {R : S → T → Prop}

-- where two deterministic systems take the same steps from related states, with the same outputs,
-- they take the same runs
theorem lockstep_run (h : ∀ s t l, R s t → cond s l →
      Option.Rel R (step s l) (spec t l) ∧ out s l = want t l)
    {s : S} {t : T} {ls : List L} (hr : R s t) (ha : Along step cond s ls) :
    Option.Rel R (run step s ls) (run spec t ls) ∧
      outputs step out s ls = outputs spec want t ls := by
  induction ls generalizing s t with
  | nil => exact ⟨.some hr,rfl⟩
  | cons l ls ih =>
    obtain ⟨hc,hrest⟩ := ha
    obtain ⟨hstep,hout⟩ := h s t l hr hc
    cases hs : step s l with
    | none =>
      rw [hs] at hstep
      cases ht : spec t l with
      | none => exact ⟨by simp [run,hs,ht],by simp [outputs,hs,ht,hout]⟩
      | some t' => simp [ht] at hstep
    | some s' =>
      rw [hs] at hstep
      cases ht : spec t l with
      | none => simp [ht] at hstep
      | some t' =>
        rw [ht,Option.rel_some_some] at hstep
        obtain ⟨hrun,houts⟩ := ih hstep (hrest s' hs)
        rw [run_next hs,run_next ht,outputs_cons hs,outputs_cons ht,hout,houts]
        exact ⟨hrun,rfl⟩

end Lockstep

section Projection
variable {spec : T → M → Option T} {shown : S → L → List M} {R : S → T → Prop}
  {cond : S → L → Prop} {out : S → L → List O} {want : T → M → List O}

-- every step of the one system shows a list of steps of the other, none where the other does not
-- move, and they have the same outputs
theorem projected_run (h : ∀ s t l s', R s t → cond s l → step s l = some s' →
      ∃ t', run spec t (shown s l) = some t' ∧ outputs spec want t (shown s l) = out s l ∧ R s' t')
    {s s' : S} {t : T} {ls : List L} (hr : R s t) (ha : Along step cond s ls)
    (hrun : run step s ls = some s') :
    ∃ t', run spec t (outputs step shown s ls) = some t' ∧
      outputs spec want t (outputs step shown s ls) = outputs step out s ls ∧ R s' t' := by
  induction ls generalizing s t with
  | nil =>
    cases hrun
    exact ⟨t,rfl,rfl,hr⟩
  | cons l ls ih =>
    obtain ⟨m,hs,hrest⟩ := run_cons hrun
    obtain ⟨t₁,ht,hout,hr₁⟩ := h s t l m hr ha.1 hs
    obtain ⟨t',ht',hout',hr'⟩ := ih hr₁ (ha.2 m hs) hrest
    refine ⟨t',?_,?_,hr'⟩
    · rw [outputs_cons hs]
      exact run_join ht ht'
    · rw [outputs_cons hs,outputs_cons hs,outputs_append ht,hout,hout']

theorem shown_run (h : ∀ s t l s', R s t → step s l = some s' →
      ∃ t', run spec t (shown s l) = some t' ∧ R s' t')
    {s s' : S} {t : T} {ls : List L} (hr : R s t) (hrun : run step s ls = some s') :
    ∃ t', run spec t (outputs step shown s ls) = some t' ∧ R s' t' := by
  induction ls generalizing s t with
  | nil =>
    cases hrun
    exact ⟨t,rfl,hr⟩
  | cons l ls ih =>
    obtain ⟨m,hs,hrest⟩ := run_cons hrun
    obtain ⟨t₁,ht,hr₁⟩ := h s t l m hr hs
    obtain ⟨t',ht',hr'⟩ := ih hr₁ hrest
    refine ⟨t',?_,hr'⟩
    rw [outputs_cons hs]
    exact run_join ht ht'

end Projection

end Runs
