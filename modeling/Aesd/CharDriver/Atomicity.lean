import Aesd.CharDriver.WriteRuns

namespace Device
open BlockHeap CircularBuffer AesdCircularBuffer Kernel Cutting

structure SameState (d d' : Driver) : Prop where
  commands : commands d' = commands d
  fragment : fragment d' = fragment d

structure Untroubled (env : CallEnv) : Prop where
  locked : env.interrupted = false
  copied : env.uncopied = false
  allocated : ∀ k, env.kmallocOk k = true

structure Atomic (d : Driver) (buf : Bytes) (d' : Driver) : Prop where
  same : SameState d d'
  retry : ∀ env, Untroubled env → ∀ r₁ d₁, aesdWrite env d buf = .ok (r₁,d₁) →
    ∃ d₂, aesdWrite env d' buf = .ok (r₁,d₂) ∧ SameState d₁ d₂

def copyFaults (env : CallEnv) (buf : Bytes) : Bool := env.uncopied && !buf.isEmpty

-- a full ring in which each command is the one as many places further on as there are commands cut,
-- so that adding these leaves it as it is
def Repeats (ring cut : List (Option Bytes)) : Prop :=
  ring.length = 10 ∧ ∀ i < 10, (ring ++ cut)[i + cut.length]? = ring[i]?

-- the last case is a call with count 0 that meets a kmalloc failure while it cuts a fragment kept
-- back by an earlier failure
def FailsQuietly (env : CallEnv) (d : Driver) (buf : Bytes) : Prop :=
  env.interrupted = true ∨
  (copyFaults env buf = true ∧ d.dev.incompleteCommandBuffer = none) ∨
  (copyFaults env buf = false ∧ buf = [] ∧ ((cutAll env ((fragment d).getD [])).pushed = [] ∨
    Repeats (commands d) ((cutAll env ((fragment d).getD [])).pushed.map some)))

variable {env : CallEnv} {d d' : Driver} {buf : Bytes} {r : ℤ}

theorem shows_same {d₁ d₂ : Driver} {L : Logical} (h₁ : Shows d₁ L) (h₂ : Shows d₂ L) :
    SameState d₁ d₂ := ⟨h₂.commands.trans h₁.commands.symm,h₂.fragment.trans h₁.fragment.symm⟩

theorem untroubled_write {held : List (ℕ × Bytes)} {frag : Option (ℕ × Bytes)}
    (h : Stored d held frag) (he : Untroubled env) (buf : Bytes) :
    ∃ d', aesdWrite env d buf =
        .ok ((logicalWrite env (held.map Prod.snd) (fragBytes frag) buf).1,d') ∧
      Shows d' (logicalWrite env (held.map Prod.snd) (fragBytes frag) buf).2 := by
  rcases aesd_write_spec env h buf with ⟨-,k,hk⟩ | hok
  · rw [he.allocated k] at hk
    cases hk
  · exact hok

theorem shows_stored_same {held : List (ℕ × Bytes)} {frag : Option (ℕ × Bytes)} {L : Logical}
    (h : Stored d held frag) (h' : Shows d' L) (hs : SameState d d') :
    L = ⟨held.map Prod.snd,some (fragBytes frag)⟩ := by
  have hc := hs.commands
  have hf := hs.fragment
  rw [h'.commands,h.commands] at hc
  rw [h'.fragment,h.fragment] at hf
  cases L
  congr 1
  exact List.map_injective_iff.mpr (Option.some_injective _) hc

theorem same_state_retries {held : List (ℕ × Bytes)} {frag : Option (ℕ × Bytes)}
    (h : Stored d held frag) (h' : Shows d' ⟨held.map Prod.snd,some (fragBytes frag)⟩)
    (buf : Bytes) : Atomic d buf d' := by
  refine ⟨shows_same (.intact h) h',?_⟩
  intro env he r₁ d₁ hw
  obtain ⟨held',frag',hs',hc,hf⟩ := h'.stored
  obtain ⟨hr₁,hshow₁⟩ := stored_write h hw
  obtain ⟨d₂,hok,hshow₂⟩ := untroubled_write hs' he buf
  rw [hc,hf] at hok hshow₂
  exact ⟨d₂,by rw [hok,← hr₁],shows_same hshow₁ hshow₂⟩

theorem stored_ring_kept {held : List (ℕ × Bytes)} {frag : Option (ℕ × Bytes)}
    (h : Stored d held frag) (cut : List Bytes) :
    (held.map Prod.snd ++ cut).rtake 10 = held.map Prod.snd ↔
      cut = [] ∨ Repeats (commands d) (cut.map some) := by
  have hle : (commands d).length ≤ 10 := by
    rw [h.commands,List.length_map]
    exact held_length_le h.wf h.entries
  rw [← (List.map_injective_iff.mpr (Option.some_injective _)).eq_iff,Recent.map_rtake,
    List.map_append,← h.commands,Recent.rtake_append_self hle,List.map_eq_nil_iff,Repeats]

theorem failed_write_shows {held : List (ℕ × Bytes)} {frag : Option (ℕ × Bytes)}
    (h : Stored d held frag) (hw : aesdWrite env d buf = .ok (r,d')) (hneg : r < 0) :
    Shows d' ⟨held.map Prod.snd,some (fragBytes frag)⟩ ↔ FailsQuietly env d buf := by
  obtain ⟨hres,hshow⟩ := stored_write h hw
  cases hi : env.interrupted with
  | true =>
    rw [logical_write_interrupted hi] at hshow
    exact ⟨fun _ => Or.inl hi,fun _ => hshow⟩
  | false =>
    cases hu : copyFaults env buf with
    | true =>
      rw [logical_write_fault hi hu] at hshow
      have hiff : FailsQuietly env d buf ↔ fragBytes frag = [] := by
        simp [FailsQuietly,hi,hu,h.buffer_none]
      rw [hiff]
      constructor
      · intro hs
        by_contra hne
        rw [if_neg hne] at hshow
        have := hshow.fragment.symm.trans hs.fragment
        simp at this
      · intro he
        simpa [he] using hshow
    | false =>
      have hiff : FailsQuietly env d buf ↔ buf = [] ∧
          (held.map Prod.snd ++ (cutAll env (fragBytes frag)).pushed).rtake 10 =
            held.map Prod.snd := by
        simp only [FailsQuietly,hi,hu,Bool.false_eq_true,false_and,true_and,false_or,h.fragment,
          Option.getD_some]
        rw [stored_ring_kept h]
      rw [hiff]
      rcases logical_write_cut _ _ hi hu with hlog | ⟨start,kmallocs,-,hlog⟩
      · rw [hlog] at hshow
        constructor
        · intro hs
          have hc := hshow.commands.symm.trans hs.commands
          have hf := hshow.fragment.symm.trans hs.fragment
          have hbuf : buf = [] := by simpa using hf
          subst hbuf
          rw [List.append_nil] at hc
          exact ⟨rfl,List.map_injective_iff.mpr (Option.some_injective _) hc⟩
        · rintro ⟨rfl,hsame⟩
          rwa [List.append_nil,hsame] at hshow
      · rw [hlog] at hres
        simp only at hres
        omega

theorem failed_write_atomic_iff (hd : Runs.Reachable writeStep aesdInitModule d)
    (hw : aesdWrite env d buf = .ok (r,d')) (hneg : r < 0) :
    Atomic d buf d' ↔ FailsQuietly env d buf := by
  obtain ⟨L,hL⟩ := reachable_shown hd
  cases hL with
  | intact h =>
    rw [← failed_write_shows h hw hneg]
    constructor
    · intro ha
      have hshow := (stored_write h hw).2
      rwa [shows_stored_same h hshow ha.same] at hshow
    · intro hs
      exact same_state_retries h hs buf
  | stale h =>
    obtain ⟨hi,-,rfl⟩ := stale_write_returns h hw
    exact ⟨fun _ => Or.inl hi,fun _ => ⟨⟨rfl,rfl⟩,fun _ _ _ d₁ hok => ⟨d₁,hok,⟨rfl,rfl⟩⟩⟩⟩

def secondKmallocFails : CallEnv := { calm with kmallocOk := fun k => k != 1 }

theorem failed_write_atomic_iff_first_write :
    ∃ d', aesdWrite secondKmallocFails aesdInitModule [97] = .ok (-enomem,d') ∧
      (Atomic aesdInitModule [97] d' ↔ FailsQuietly secondKmallocFails aesdInitModule [97]) := by
  obtain ⟨d',hw,-⟩ := outcome_ok (show outcome (aesdWrite secondKmallocFails aesdInitModule [97]) =
    some (-enomem,[],some [97]) by decide)
  exact ⟨d',hw,failed_write_atomic_iff (Runs.Reachable.refl _) hw (by decide)⟩

theorem failed_write_repeated_doubles :
    ∃ d' d₁ d₂, aesdWrite secondKmallocFails aesdInitModule [97] = .ok (-enomem,d') ∧
      aesdWrite calm aesdInitModule [97] = .ok (1,d₁) ∧ fragment d₁ = some [97] ∧
      aesdWrite calm d' [97] = .ok (1,d₂) ∧ fragment d₂ = some [97,97] ∧
      ¬ Atomic aesdInitModule [97] d' := by
  obtain ⟨d',hw,-,hf⟩ := outcome_ok (show outcome (aesdWrite secondKmallocFails aesdInitModule
    [97]) = some (-enomem,[],some [97]) by decide)
  obtain ⟨d₁,hw₁,-,hf₁⟩ := outcome_ok (show outcome (aesdWrite calm aesdInitModule [97]) =
    some (1,[],some [97]) by decide)
  have htwice : outcome ((aesdWrite secondKmallocFails aesdInitModule [97]).bind
      fun x => aesdWrite calm x.2 [97]) = some (1,[],some [97,97]) := by decide
  rw [hw] at htwice
  obtain ⟨d₂,hw₂,-,hf₂⟩ := outcome_ok htwice
  refine ⟨d',d₁,d₂,hw,hw₁,hf₁,hw₂,hf₂,fun ha => ?_⟩
  have hsame := ha.same.fragment
  rw [hf] at hsame
  revert hsame
  decide

end Device
