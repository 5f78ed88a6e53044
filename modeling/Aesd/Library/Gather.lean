import Aesd.Library.Runs
import Mathlib.Logic.Function.Basic

namespace Gather

-- a program that reads shared cells one at a time, while others store into them
inductive Reader (A V R : Type) where
  | done (result : R)
  | read (cell : A) (next : V → Reader A V R)

variable {A V R S : Type}

namespace Reader

def map (f : R → S) : Reader A V R → Reader A V S
  | .done result => .done (f result)
  | .read cell next => .read cell fun value => (next value).map f

def eval (mem : A → V) : Reader A V R → R
  | .done result => result
  | .read cell next => (next (mem cell)).eval mem

-- no cell of used is read, and none is read twice
def Fresh (used : List A) : Reader A V R → Prop
  | .done _ => True
  | .read cell next => cell ∉ used ∧ ∀ value, (next value).Fresh (cell :: used)

@[simp] theorem eval_map (f : R → S) (mem : A → V) (r : Reader A V R) :
    (r.map f).eval mem = f (r.eval mem) := by
  induction r with
  | done => rfl
  | read cell next ih => exact ih (mem cell)

theorem Fresh.map {used : List A} {r : Reader A V R} (h : r.Fresh used) (f : R → S) :
    (r.map f).Fresh used := by
  induction r generalizing used with
  | done => trivial
  | read cell next ih => exact ⟨h.1,fun value => ih value (h.2 value)⟩

end Reader

structure State (A V R : Type) where
  mem : A → V
  reader : Reader A V R

inductive Act (A V : Type) where
  | read
  | store (cell : A) (value : V)

def stores : List (Act A V) → List (A × V)
  | [] => []
  | .read :: acts => stores acts
  | .store cell value :: acts => (cell,value) :: stores acts

theorem stores_one {acts : List (Act A V)} (hn : (stores acts).length ≤ 1) :
    stores acts = [] ∨ ∃ cell value, stores acts = [(cell,value)] := by
  rcases Nat.le_one_iff_eq_zero_or_eq_one.mp hn with h | h
  · exact Or.inl (List.length_eq_zero_iff.mp h)
  · obtain ⟨x,hx⟩ := List.length_eq_one_iff.mp h
    exact Or.inr ⟨x.1,x.2,hx⟩

variable [DecidableEq A]

def step (s : State A V R) : Act A V → Option (State A V R)
  | .read => match s.reader with
      | .done _ => none
      | .read cell next => some { s with reader := next (s.mem cell) }
  | .store cell value => some { s with mem := Function.update s.mem cell value }

def stored (mem : A → V) (xs : List (A × V)) : A → V :=
  xs.foldl (fun mem x => Function.update mem x.1 x.2) mem

section Moments
variable {mem mem' : A → V} {r r' : Reader A V R} {used : List A} {acts : List (Act A V)} {x : R}

theorem Reader.Fresh.eval_store (h : r.Fresh used) {cell : A} (hc : cell ∈ used) (value : V) :
    r.eval (Function.update mem cell value) = r.eval mem := by
  induction r generalizing used with
  | done => rfl
  | read c next ih =>
    have hne : c ≠ cell := fun he => h.1 (he ▸ hc)
    rw [Reader.eval,Reader.eval,Function.update_of_ne hne]
    exact ih (mem c) (h.2 (mem c)) (List.mem_cons_of_mem c hc)

theorem run_stored (h : Runs.run step ⟨mem,r⟩ acts = some ⟨mem',r'⟩) :
    mem' = stored mem (stores acts) := by
  induction acts generalizing mem r with
  | nil =>
    cases h
    rfl
  | cons act acts ih =>
    obtain ⟨m,hm,hrun⟩ := Runs.run_cons h
    cases act with
    | store cell value =>
      cases hm
      exact ih hrun
    | read =>
      cases r with
      | done => cases hm
      | read cell next =>
        cases hm
        exact ih (r := next (mem cell)) hrun

theorem undisturbed (h : Runs.run step ⟨mem,r⟩ acts = some ⟨mem',.done x⟩)
    (hn : stores acts = []) : x = r.eval mem := by
  induction acts generalizing mem r with
  | nil =>
    cases h
    rfl
  | cons act acts ih =>
    obtain ⟨m,hm,hrun⟩ := Runs.run_cons h
    cases act with
    | store => cases hn
    | read =>
      cases r with
      | done => cases hm
      | read cell next =>
        cases hm
        exact ih (r := next (mem cell)) hrun hn

-- a reader that one store comes between has seen the memory before it or the memory after it
theorem one_moment (hf : r.Fresh used)
    (h : Runs.run step ⟨mem,r⟩ acts = some ⟨mem',.done x⟩) (hn : (stores acts).length ≤ 1) :
    x = r.eval mem ∨ x = r.eval mem' := by
  induction acts generalizing mem r used with
  | nil =>
    cases h
    exact Or.inl rfl
  | cons act acts ih =>
    obtain ⟨m,hm,hrun⟩ := Runs.run_cons h
    cases act with
    | store cell value =>
      cases hm
      have hnone : stores acts = [] :=
        List.length_eq_zero_iff.mp (Nat.le_zero.mp (Nat.le_of_succ_le_succ hn))
      have hmem := run_stored hrun
      rw [hnone] at hmem
      rw [hmem]
      exact Or.inr (undisturbed hrun hnone)
    | read =>
      cases r with
      | done => cases hm
      | read cell next =>
        cases hm
        rcases ih (r := next (mem cell)) (hf.2 (mem cell)) hrun hn with hx | hx
        · exact Or.inl hx
        have hmem : mem' = stored mem (stores acts) := run_stored hrun
        have hone : (stores acts).length ≤ 1 := hn
        rcases stores_one hone with hnone | ⟨c,value,hsome⟩
        · rw [hnone] at hmem
          rw [hx,hmem]
          exact Or.inl rfl
        rw [hsome] at hmem
        by_cases hc : c = cell
        · subst hc
          rw [hx,hmem]
          exact Or.inl ((hf.2 (mem c)).eval_store (List.mem_cons_self ..) value)
        · have hsame : mem' cell = mem cell := by
            rw [hmem]
            exact Function.update_of_ne (Ne.symm hc) ..
          rw [hx]
          exact Or.inr (congrArg (fun value => (next value).eval mem') hsame.symm)

end Moments

end Gather
