import Mathlib.Data.List.Basic
import Mathlib.Data.List.Induction

namespace Runs

variable {S L O : Type} (step : S → L → Option S)

def run (s : S) : List L → Option S
  | [] => some s
  | l :: ls => (step s l).bind fun s' => run s' ls

def outputs (out : S → L → List O) (s : S) : List L → List O
  | [] => []
  | l :: ls => out s l ++ ((step s l).elim [] fun s' => outputs out s' ls)

def Along (cond : S → L → Prop) (s : S) : List L → Prop
  | [] => True
  | l :: ls => cond s l ∧ ∀ s', step s l = some s' → Along cond s' ls

def Reachable (s₀ s : S) : Prop := ∃ ls, run step s₀ ls = some s

variable {step}

@[simp] theorem run_nil (s : S) : run step s [] = some s := rfl

theorem run_cons {s t : S} {l : L} {ls : List L} (h : run step s (l :: ls) = some t) :
    ∃ s', step s l = some s' ∧ run step s' ls = some t :=
  Option.bind_eq_some_iff.mp h

theorem run_append (s : S) (xs ys : List L) :
    run step s (xs ++ ys) = (run step s xs).bind fun s' => run step s' ys := by
  induction xs generalizing s with
  | nil => rfl
  | cons l xs ih =>
    simp only [List.cons_append,run]
    cases step s l with
    | none => rfl
    | some s' => exact ih s'

theorem run_split {s t : S} {xs ys : List L} (h : run step s (xs ++ ys) = some t) :
    ∃ m, run step s xs = some m ∧ run step m ys = some t := by
  rw [run_append] at h
  exact Option.bind_eq_some_iff.mp h

theorem run_join {s m t : S} {xs ys : List L} (hx : run step s xs = some m)
    (hy : run step m ys = some t) : run step s (xs ++ ys) = some t := by
  rw [run_append,hx]
  exact hy

theorem run_snoc {s t : S} {ls : List L} {l : L} (h : run step s (ls ++ [l]) = some t) :
    ∃ m, run step s ls = some m ∧ step m l = some t := by
  obtain ⟨m,hm,ht⟩ := run_split h
  obtain ⟨t',ht',he⟩ := run_cons ht
  exact ⟨m,hm,ht'.trans he⟩

theorem run_next {s s' : S} {l : L} (h : step s l = some s') (ls : List L) :
    run step s (l :: ls) = run step s' ls := by simp [run,h]

theorem run_step {s t : S} {l : L} (h : step s l = some t) : run step s [l] = some t := by
  simp [run,h]

theorem run_induction {s₀ : S} {P : List L → S → Prop} (start : P [] s₀)
    (next : ∀ ls l s s', run step s₀ ls = some s → P ls s → step s l = some s' → P (ls ++ [l]) s')
    {ls : List L} {s : S} (h : run step s₀ ls = some s) : P ls s := by
  induction ls using List.reverseRecOn generalizing s with
  | nil => cases h; exact start
  | append_singleton ls l ih =>
    obtain ⟨m,hm,hs⟩ := run_snoc h
    exact next ls l m s hm (ih hm) hs

theorem run_invariant {I : S → Prop} (keep : ∀ s l s', I s → step s l = some s' → I s')
    {s t : S} {ls : List L} (hs : I s) (h : run step s ls = some t) : I t :=
  run_induction (P := fun _ s => I s) hs (fun _ l s s' _ hi hl => keep s l s' hi hl) h

theorem Reachable.refl (s : S) : Reachable step s s := ⟨[],rfl⟩

theorem Reachable.tail {s₀ s t : S} {l : L} (h : Reachable step s₀ s) (hl : step s l = some t) :
    Reachable step s₀ t := by
  obtain ⟨ls,hls⟩ := h
  exact ⟨ls ++ [l],run_join hls (run_step hl)⟩

theorem Reachable.invariant {I : S → Prop} (keep : ∀ s l s', I s → step s l = some s' → I s')
    {s₀ s : S} (hs : I s₀) (h : Reachable step s₀ s) : I s := by
  obtain ⟨ls,hls⟩ := h
  exact run_invariant keep hs hls

def checkedRun (step : S → L → Option S) (test : S → L → Bool) (s : S) : List L → Option S
  | [] => some s
  | l :: ls => if test s l then (step s l).bind fun s' => checkedRun step test s' ls else none

theorem checked_run {test : S → L → Bool} {s t : S} {ls : List L}
    (h : checkedRun step test s ls = some t) :
    run step s ls = some t ∧ Along step (fun s l => test s l = true) s ls := by
  induction ls generalizing s with
  | nil => exact ⟨h,trivial⟩
  | cons l ls ih =>
    rw [checkedRun] at h
    split_ifs at h with ht
    obtain ⟨m,hm,hr⟩ := Option.bind_eq_some_iff.mp h
    obtain ⟨hrun,ha⟩ := ih hr
    refine ⟨by simp [run,hm,hrun],ht,fun s' hs' => ?_⟩
    rw [hm] at hs'
    cases hs'
    exact ha

section Conditions

variable {cond : S → L → Prop}

theorem along_append {s : S} {xs ys : List L} :
    Along step cond s (xs ++ ys) ↔
      Along step cond s xs ∧ ∀ m, run step s xs = some m → Along step cond m ys := by
  induction xs generalizing s with
  | nil => simp [Along,run]
  | cons l xs ih =>
    simp only [List.cons_append,Along,ih,run]
    constructor
    · rintro ⟨hc,hall⟩
      refine ⟨⟨hc,fun s' hs' => (hall s' hs').1⟩,?_⟩
      intro m hm
      obtain ⟨s',hs',hr⟩ := Option.bind_eq_some_iff.mp hm
      exact (hall s' hs').2 m hr
    · rintro ⟨⟨hc,hx⟩,hy⟩
      refine ⟨hc,fun s' hs' => ⟨hx s' hs',fun m hm => hy m ?_⟩⟩
      simp [hs',hm]

theorem along_snoc {s m : S} {ls : List L} {l : L} (hm : run step s ls = some m)
    (h : Along step cond s (ls ++ [l])) : Along step cond s ls ∧ cond m l :=
  have ha := along_append.mp h
  ⟨ha.1,(ha.2 m hm).1⟩

theorem along_snoc_iff {s m : S} {ls : List L} {l : L} (hm : run step s ls = some m) :
    Along step cond s (ls ++ [l]) ↔ Along step cond s ls ∧ cond m l := by
  refine ⟨along_snoc hm,fun h => along_append.mpr ⟨h.1,fun m' hm' => ⟨?_,fun _ _ => trivial⟩⟩⟩
  rw [hm] at hm'
  cases hm'
  exact h.2

theorem along_forall_iff {p : L → Prop} {s t : S} {ls : List L} (h : run step s ls = some t) :
    Along step (fun _ l => p l) s ls ↔ ∀ l ∈ ls, p l := by
  induction ls generalizing s with
  | nil => simp [Along]
  | cons l ls ih =>
    obtain ⟨s',hs,hr⟩ := run_cons h
    simp [Along,hs,ih hr]

-- where a step from a good state ends in a good state exactly when it meets its condition, the
-- states of a run are all good exactly when all its steps meet it
theorem prefixes_iff_steps {s₀ t : S} {I : List L → S → Prop} {guard : List L → L → Prop}
    (start : I [] s₀)
    (next : ∀ ls l s s', run step s₀ ls = some s → I ls s → step s l = some s' →
      (I (ls ++ [l]) s' ↔ guard ls l))
    {ls : List L} (h : run step s₀ ls = some t) :
    (∀ done, done <+: ls → ∀ m, run step s₀ done = some m → I done m) ↔
      ∀ done l, done ++ [l] <+: ls → guard done l := by
  induction ls using List.reverseRecOn generalizing t with
  | nil =>
    refine ⟨fun _ done l hd => by simp at hd,fun _ done hd m hm => ?_⟩
    rw [List.prefix_nil] at hd
    subst hd
    cases hm
    exact start
  | append_singleton ls l ih =>
    obtain ⟨m,hm,hs⟩ := run_snoc h
    constructor
    · intro hall done l' hd
      have hbefore : ∀ done, done <+: ls → ∀ m, run step s₀ done = some m → I done m :=
        fun done hd => hall done (hd.trans (List.prefix_append _ _))
      rcases List.prefix_concat_iff.mp hd with he | hd
      · obtain ⟨rfl,hl⟩ := List.append_inj' he rfl
        cases hl
        exact (next done l m t hm (hbefore done (List.prefix_refl _) m hm) hs).mp
          (hall _ (List.prefix_refl _) t h)
      · exact (ih hm).mp hbefore done l' hd
    · intro hall done hd m' hm'
      have hbefore := (ih hm).mpr fun done l' hd => hall done l' (hd.trans (List.prefix_append _ _))
      rcases List.prefix_concat_iff.mp hd with rfl | hd
      · rw [h] at hm'
        cases hm'
        exact (next ls l m t hm (hbefore ls (List.prefix_refl _) m hm) hs).mpr
          (hall ls l (List.prefix_refl _))
      · exact hbefore done hd m' hm'

theorem along_iff_steps {s t : S} {ls : List L} (h : run step s ls = some t) :
    Along step cond s ls ↔
      ∀ done l, done ++ [l] <+: ls → ∀ m, run step s done = some m → cond m l := by
  induction ls using List.reverseRecOn generalizing t with
  | nil => exact ⟨fun _ done l hd => by simp at hd,fun _ => trivial⟩
  | append_singleton ls l ih =>
    obtain ⟨m,hm,-⟩ := run_snoc h
    rw [along_snoc_iff hm,ih hm]
    constructor
    · rintro ⟨hall,hc⟩ done l' hd m' hm'
      rcases List.prefix_concat_iff.mp hd with he | hd
      · obtain ⟨rfl,hl⟩ := List.append_inj' he rfl
        cases hl
        rw [hm] at hm'
        cases hm'
        exact hc
      · exact hall done l' hd m' hm'
    · intro hall
      exact ⟨fun done l' hd => hall done l' (hd.trans (List.prefix_append _ _)),
        hall ls l (List.prefix_refl _) m hm⟩

theorem prefixes_iff_along {s₀ t : S} {I : List L → S → Prop} (start : I [] s₀)
    (next : ∀ ls l s s', run step s₀ ls = some s → I ls s → step s l = some s' →
      (I (ls ++ [l]) s' ↔ cond s l))
    {ls : List L} (h : run step s₀ ls = some t) :
    (∀ done, done <+: ls → ∀ m, run step s₀ done = some m → I done m) ↔ Along step cond s₀ ls := by
  rw [along_iff_steps h]
  refine prefixes_iff_steps start (fun ls l s s' hr hi hs => ?_) h
  rw [next ls l s s' hr hi hs]
  constructor
  · intro hc m hm
    rw [hr] at hm
    cases hm
    exact hc
  · intro hc
    exact hc s hr

theorem Along.mono {cond' : S → L → Prop} (hc : ∀ s l, cond s l → cond' s l) {s : S} {ls : List L}
    (h : Along step cond s ls) : Along step cond' s ls := by
  induction ls generalizing s with
  | nil => trivial
  | cons l ls ih => exact ⟨hc s l h.1,fun s' hs => ih (h.2 s' hs)⟩

theorem guarded_induction {s₀ : S} {P : List L → S → Prop} (start : P [] s₀)
    (next : ∀ ls l s s', run step s₀ ls = some s → cond s l → P ls s → step s l = some s' →
      P (ls ++ [l]) s')
    {ls : List L} {s : S} (h : run step s₀ ls = some s) (ha : Along step cond s₀ ls) : P ls s := by
  induction ls using List.reverseRecOn generalizing s with
  | nil => cases h; exact start
  | append_singleton ls l ih =>
    obtain ⟨m,hm,hs⟩ := run_snoc h
    obtain ⟨hp,hc⟩ := along_snoc hm ha
    exact next ls l m s hm hc (ih hm hp) hs

end Conditions

section Outputs

variable {out : S → L → List O}

@[simp] theorem outputs_nil (s : S) : outputs step out s [] = [] := rfl

theorem outputs_cons {s s' : S} {l : L} (h : step s l = some s') (ls : List L) :
    outputs step out s (l :: ls) = out s l ++ outputs step out s' ls := by
  simp [outputs,h]

theorem outputs_append {s m : S} {xs : List L} (h : run step s xs = some m) (ys : List L) :
    outputs step out s (xs ++ ys) = outputs step out s xs ++ outputs step out m ys := by
  induction xs generalizing s with
  | nil => cases h; rfl
  | cons l xs ih =>
    obtain ⟨s',hs,hr⟩ := run_cons h
    rw [List.cons_append,outputs_cons hs,outputs_cons hs,ih hr,List.append_assoc]

theorem outputs_snoc {s m t : S} {ls : List L} {l : L} (h : run step s ls = some m)
    (hl : step m l = some t) :
    outputs step out s (ls ++ [l]) = outputs step out s ls ++ out m l := by
  rw [outputs_append h,outputs_cons hl,outputs_nil,List.append_nil]

theorem output_mem {s m : S} {xs ls : List L} {o : O} (hp : xs <+: ls)
    (hm : run step s xs = some m) (ho : ∀ l, o ∈ out m l) (l : L) :
    o ∈ outputs step out s (ls ++ [l]) := by
  obtain ⟨rest,rfl⟩ := hp
  rw [List.append_assoc,outputs_append hm]
  refine List.mem_append_right _ ?_
  cases rest with
  | nil => exact List.mem_append_left _ (ho l)
  | cons x rest => exact List.mem_append_left _ (ho x)

end Outputs

section Ranked
variable {I : S → Prop} {rank : S → ℕ}

theorem ranked_run {within : L → Bool} (own : L → Bool)
    (keep : ∀ s l s', I s → within l = true → step s l = some s' → I s')
    (down : ∀ s l s', I s → within l = true → step s l = some s' →
      rank s' + (if own l then 1 else 0) ≤ rank s) {ls : List L} {s t : S} (hi : I s)
    (hl : ∀ l ∈ ls, within l = true) (hr : run step s ls = some t) :
    rank t + (ls.filter own).length ≤ rank s := by
  induction ls generalizing s with
  | nil =>
    cases hr
    exact Nat.le_refl _
  | cons l ls ih =>
    obtain ⟨m,hm,hrest⟩ := run_cons hr
    have hw : within l = true := hl l (by simp)
    have htail := ih (keep s l m hi hw hm) (fun x hx => hl x (by simp [hx])) hrest
    have hhead := down s l m hi hw hm
    rw [List.filter_cons]
    split_ifs at hhead ⊢
    · rw [List.length_cons]
      omega
    · omega

theorem ranked_goal (goal : S → Prop) {cond : S → L → Prop}
    (down : ∀ s, I s → ¬ goal s → ∃ ls t, run step s ls = some t ∧ Along step cond s ls ∧ I t ∧
      rank t < rank s) {s : S} (hi : I s) :
    ∃ ls t, run step s ls = some t ∧ Along step cond s ls ∧ goal t := by
  induction hn : rank s using Nat.strongRecOn generalizing s with
  | ind n ih =>
    by_cases hg : goal s
    · exact ⟨[],s,rfl,trivial,hg⟩
    · obtain ⟨xs,m,hx,hcx,him,hlt⟩ := down s hi hg
      obtain ⟨ys,t,hy,hcy,ht⟩ := ih (rank m) (hn ▸ hlt) him rfl
      exact ⟨xs ++ ys,t,run_join hx hy,along_append.mpr ⟨hcx,fun m' hm' => by
        rw [hx] at hm'
        cases hm'
        exact hcy⟩,ht⟩

end Ranked

end Runs
