import Aesd.CharDriver.Atomicity

namespace Device
open BlockHeap CircularBuffer AesdCircularBuffer Kernel Cutting

-- for each iteration of newlineLoop the source range of its first memcpy, as cmd_start with
-- subcmd_size
def copyRanges (env : CallEnv) (buffer : Option ℕ) : ℕ → LoopState → List (ℕ × ℕ)
  | 0, _ => []
  | fuel+1, s =>
      match memchr env s.mem buffer s.cmdStart s.readSize with
      | .ok (some cmdBreak) =>
          (s.cmdStart,cmdBreak + 1) :: (match pushCommand env buffer s cmdBreak with
            | .ok (true,s') => copyRanges env buffer fuel s'
            | _ => [])
      | _ => []

-- none for a call that stops at an oops before the loop; where that is the read of a freed fragment
-- the source goes on to the loop with what it found there, and CopiesInside.live fails
def writeRanges (env : CallEnv) (d : Driver) (buf : Bytes) : List (ℕ × ℕ) :=
  if env.interrupted then [] else
  let totalSize := d.dev.incompleteCommandSize + buf.length
  let (toWrite,m) := kmalloc env ⟨d.heap,0⟩ totalSize
  let copied := do
    let m ← mergeFragment env d.dev toWrite m
    copyFromUser env m toWrite d.dev.incompleteCommandSize buf
  match copied with
  | .ok (false,m) => copyRanges env toWrite totalSize ⟨0,totalSize,d.dev.circularBuffer,m⟩
  | _ => []

structure CopiesInside (env : CallEnv) (d : Driver) (buf : Bytes) : Prop where
  live : ∀ p, aesdWrite env d buf ≠ .error (.deadRead p)
  ranges : ∀ x ∈ writeRanges env d buf, x.1 + x.2 ≤ d.dev.incompleteCommandSize + buf.length
  stored : ∀ r d', aesdWrite env d buf = .ok (r,d') → ∀ cmd ∈ commands d', cmd ∈ commands d ∨
    ∃ f start n, fragment d = some f ∧ start + n ≤ (f ++ buf).length ∧
      cmd = some (((f ++ buf).drop start).take n)

-- sum of position + 1 over the newlines before position n
def newlineSum (data : Bytes) : ℕ → ℕ
  | 0 => 0
  | n+1 => newlineSum data n + if data[n]? = some newline then n + 1 else 0

def CopiesFit (data : Bytes) : Prop :=
  ∀ p q, p < q → data[p]? = some newline → data[q]? = some newline →
    (∀ i, p < i → i < q → data[i]? ≠ some newline) →
    q + newlineSum data p < data.length → p + q + 2 ≤ data.length

def cutRanges (data : Bytes) : ℕ → ℕ → ℕ → List (ℕ × ℕ)
  | 0, _, _ => []
  | fuel+1, start, readSize =>
      match nextBreak data start readSize with
      | none => []
      | some brk => (start,brk + 1) :: cutRanges data fuel (brk + 1) (readSize - (brk + 1))

section Positions
variable {data : Bytes}

theorem newline_sum_mono {m n : ℕ} (h : m ≤ n) : newlineSum data m ≤ newlineSum data n := by
  induction h with
  | refl => exact Nat.le_refl _
  | step _ ih => exact Nat.le_trans ih (Nat.le_add_right _ _)

theorem newline_sum_skip {start q : ℕ} (h : start ≤ q)
    (hn : ∀ i, start ≤ i → i < q → data[i]? ≠ some newline) :
    newlineSum data q = newlineSum data start := by
  induction h with
  | refl => rfl
  | @step q hle ih =>
    have hq := hn q hle (Nat.lt_succ_self q)
    rw [newlineSum,if_neg hq,Nat.add_zero]
    exact ih fun i hi hlt => hn i hi (Nat.lt_succ_of_lt hlt)

theorem newline_sum_break {start n brk : ℕ} (h : nextBreak data start n = some brk) :
    newlineSum data (brk + 1) = newlineSum data start + (brk + 1) := by
  obtain ⟨hlo,-,hat,hbefore⟩ := next_break_some h
  rw [newlineSum,if_pos hat,newline_sum_skip hlo hbefore]

theorem next_break_of_first {start n brk : ℕ} (hlo : start ≤ brk) (hhi : brk < start + n)
    (hat : data[brk]? = some newline) (hbefore : ∀ i, start ≤ i → i < brk → data[i]? ≠ some newline) :
    nextBreak data start n = some brk := by
  have hlt := (List.getElem?_eq_some_iff.mp hat).1
  cases hb : nextBreak data start n with
  | none =>
    refine absurd ?_ (next_break_none hb)
    refine List.mem_of_getElem? (i := brk - start) ?_
    rw [List.getElem?_take,if_pos (by omega),List.getElem?_drop]
    have hs : start + (brk - start) = brk := by omega
    rw [hs,hat]
  | some b =>
    obtain ⟨hblo,-,hbat,hbbefore⟩ := next_break_some hb
    rcases Nat.lt_trichotomy b brk with hlt | rfl | hgt
    · exact absurd hbat (hbefore b hblo hlt)
    · rfl
    · exact absurd hat (hbbefore brk hlo hgt)

-- every later iteration starts just after a newline
theorem ranges_fit (hfit : CopiesFit data) (fuel : ℕ) {start : ℕ}
    (hstart : ∀ p, start = p + 1 → data[p]? = some newline) :
    ∀ x ∈ cutRanges data fuel start (data.length - newlineSum data start),
      x.1 + x.2 ≤ data.length := by
  induction fuel generalizing start with
  | zero => simp [cutRanges]
  | succ fuel ih =>
    rw [cutRanges]
    cases hb : nextBreak data start (data.length - newlineSum data start) with
    | none => simp
    | some brk =>
      obtain ⟨hlo,hhi,hat,hbefore⟩ := next_break_some hb
      have hlt := (List.getElem?_eq_some_iff.mp hat).1
      have hrest : data.length - newlineSum data start - (brk + 1) =
          data.length - newlineSum data (brk + 1) := by
        rw [newline_sum_break hb]
        omega
      intro x hx
      simp only [hrest] at hx
      rcases List.mem_cons.mp hx with rfl | hx
      · cases start with
        | zero =>
          simp only
          omega
        | succ p =>
          have hp := hstart p rfl
          have hsum : newlineSum data (p + 1) = newlineSum data p + (p + 1) := by
            rw [newlineSum,if_pos hp]
          have := hfit p brk (by omega) hp hat (fun i hi => hbefore i (by omega)) (by omega)
          simp only
          omega
      · refine ih ?_ x hx
        intro p hp
        cases hp
        exact hat

theorem range_reached {p q : ℕ} (hpq : p < q) (hp : data[p]? = some newline)
    (hq : data[q]? = some newline) (hbetween : ∀ i, p < i → i < q → data[i]? ≠ some newline)
    (hin : q + newlineSum data p < data.length) {fuel start : ℕ} (hle : start ≤ p)
    (hfuel : data.length - newlineSum data start ≤ fuel) :
    (p + 1,q + 1) ∈ cutRanges data fuel start (data.length - newlineSum data start) := by
  have hsum : newlineSum data start ≤ newlineSum data p := newline_sum_mono hle
  induction fuel generalizing start with
  | zero => omega
  | succ fuel ih =>
    obtain ⟨b,hb,hblo,hbp⟩ : ∃ b, nextBreak data start (data.length - newlineSum data start) =
        some b ∧ start ≤ b ∧ b ≤ p := by
      cases hb : nextBreak data start (data.length - newlineSum data start) with
      | none =>
        refine absurd ?_ (next_break_none hb)
        refine List.mem_of_getElem? (i := p - start) ?_
        have hs : start + (p - start) = p := by omega
        rw [List.getElem?_take,if_pos (by omega),List.getElem?_drop,hs,hp]
      | some b =>
        obtain ⟨hlo,-,-,hbefore⟩ := next_break_some hb
        refine ⟨b,rfl,hlo,?_⟩
        by_contra hgt
        exact hbefore p hle (by omega) hp
    have hrest : data.length - newlineSum data start - (b + 1) =
        data.length - newlineSum data (b + 1) := by
      rw [newline_sum_break hb]
      omega
    rw [cutRanges,hb]
    simp only [hrest]
    refine List.mem_cons_of_mem _ ?_
    rcases Nat.lt_or_eq_of_le hbp with hlt | rfl
    · exact ih hlt (by omega) (newline_sum_mono hlt)
    · have hsplit : newlineSum data (b + 1) = newlineSum data b + (b + 1) := by
        rw [newlineSum,if_pos hp]
      have hnext : nextBreak data (b + 1) (data.length - newlineSum data (b + 1)) = some q :=
        next_break_of_first hpq (by omega) hq fun i hi => hbetween i (by omega)
      obtain ⟨fuel,rfl⟩ : ∃ n, fuel = n + 1 := ⟨fuel - 1,by omega⟩
      rw [cutRanges,hnext]
      exact List.mem_cons_self ..

end Positions

theorem pushed_in_range {env : CallEnv} {data : Bytes} {fuel kmallocs start n : ℕ} {cmd : Bytes}
    (h : cmd ∈ (cutLoop env data fuel kmallocs start n).pushed) :
    ∃ x ∈ cutRanges data fuel start n, ∃ k, cmd = extent data (env.beyond k) x.1 x.2 := by
  induction fuel generalizing kmallocs start n with
  | zero => simp [cutLoop] at h
  | succ fuel ih =>
    rw [cutLoop] at h
    rw [cutRanges]
    cases hb : nextBreak data start n with
    | none => simp [hb] at h
    | some brk =>
      simp only [hb] at h
      split_ifs at h
      · rcases List.mem_cons.mp h with rfl | h
        · exact ⟨_,List.mem_cons_self ..,_,rfl⟩
        · obtain ⟨x,hx,hcmd⟩ := ih h
          exact ⟨x,List.mem_cons_of_mem _ hx,hcmd⟩
      · simp at h

section Ranges
variable (env : CallEnv) {d : Driver} {held : List (ℕ × Bytes)} {frag : Option (ℕ × Bytes)}

theorem loop_ranges {s : LoopState} {q : ℕ} {data : Bytes} (h : AtLoop s q data held) (fuel : ℕ) :
    copyRanges env (some q) fuel s <+: cutRanges data fuel s.cmdStart s.readSize ∧
      ((∀ k, env.kmallocOk k = true) →
        copyRanges env (some q) fuel s = cutRanges data fuel s.cmdStart s.readSize) := by
  induction fuel generalizing s held with
  | zero => exact ⟨List.prefix_refl _,fun _ => rfl⟩
  | succ fuel ih =>
    have hmem : memchr env s.mem (some q) s.cmdStart s.readSize =
        .ok (nextBreak data s.cmdStart s.readSize) :=
      memchr_live h.heap (List.mem_cons_self ..) h.within
    cases hb : nextBreak data s.cmdStart s.readSize with
    | none => simp [copyRanges,cutRanges,hmem,hb]
    | some brk =>
      rw [hb] at hmem
      obtain ⟨-,hhi,-,-⟩ := next_break_some hb
      cases hk : env.kmallocOk s.mem.kmallocs with
      | false =>
        refine ⟨?_,fun hall => by simp [hall] at hk⟩
        simp [copyRanges,cutRanges,hmem,hb,push_command_oops h hk brk]
      | true =>
        cases hk' : env.kmallocOk (s.mem.kmallocs + 1) with
        | false =>
          obtain ⟨m,hp,-⟩ := push_command_enomem h hk hk' brk
          refine ⟨?_,fun hall => by simp [hall] at hk'⟩
          simp [copyRanges,cutRanges,hmem,hb,hp]
        | true =>
          obtain ⟨p,s₁,hp,hstart,hread,-,ha⟩ := push_command_ok h hk hk' hhi
          obtain ⟨hpre,hall⟩ := ih ha
          rw [hstart,hread] at hpre hall
          have hcopy : copyRanges env (some q) (fuel + 1) s =
              (s.cmdStart,brk + 1) :: copyRanges env (some q) fuel s₁ := by
            simp [copyRanges,hmem,hp]
          have hcut : cutRanges data (fuel + 1) s.cmdStart s.readSize = (s.cmdStart,brk + 1) ::
              cutRanges data fuel (brk + 1) (s.readSize - (brk + 1)) := by
            simp [cutRanges,hb]
          rw [hcopy,hcut]
          exact ⟨(List.prefix_cons_inj _).mpr hpre,fun hok => by rw [hall hok]⟩

theorem ranges_without_buffer (h : Stored d held frag) (hi : env.interrupted = false)
    (hk : env.kmallocOk 0 = false) (buf : Bytes) : writeRanges env d buf = [] := by
  have hsize := h.size
  have hbuf := h.buffer
  have hnone (n : ℕ) : kmalloc env ⟨d.heap,0⟩ n = (none,⟨d.heap,1⟩) := by simp [kmalloc,hk]
  cases frag with
  | some x =>
    obtain ⟨p,f⟩ := x
    have hpos : 0 < d.dev.incompleteCommandSize := by
      rw [hsize]
      exact List.length_pos_iff.mpr (h.nonempty (p,f) rfl)
    have hn : memcpy env ⟨d.heap,1⟩ none (some p) 0 d.dev.incompleteCommandSize =
        .error .nullWrite := memcpy_null (m := ⟨d.heap,1⟩) h.heap
        (show (p,f) ∈ (some (p,f)).toList ++ held by simp) hpos
    simp [writeRanges,hi,hnone,mergeFragment,hbuf,hn]
  | none =>
    have hsize' : d.dev.incompleteCommandSize = 0 := hsize
    cases buf with
    | cons a buf =>
      cases hu : env.uncopied <;>
        simp [writeRanges,hi,hnone,mergeFragment,hbuf,copyFromUser,hu,save,List.replicate_succ]
    | nil => simp [writeRanges,hi,hnone,mergeFragment,hbuf,copyFromUser,save,hsize',copyRanges]

theorem stored_ranges (h : Stored d held frag) (buf : Bytes) :
    writeRanges env d buf <+: cutRanges (fragBytes frag ++ buf) (fragBytes frag ++ buf).length 0
        (fragBytes frag ++ buf).length ∧
      (Untroubled env → writeRanges env d buf = cutRanges (fragBytes frag ++ buf)
        (fragBytes frag ++ buf).length 0 (fragBytes frag ++ buf).length) := by
  cases hi : env.interrupted with
  | true => exact ⟨by simp [writeRanges,hi],fun he => by simp [he.locked] at hi⟩
  | false =>
    cases hk : env.kmallocOk 0 with
    | false =>
      rw [ranges_without_buffer env h hi hk]
      exact ⟨List.nil_prefix,fun he => by simp [he.allocated] at hk⟩
    | true =>
      obtain ⟨q,m₁,m₂,hm₁,hm₂,-,hh₂⟩ := buffer_assembled env h hk buf
      obtain ⟨m₃,b,hm₃,-,hh₃,hb⟩ := user_copied env hh₂
      rw [← h.size] at hm₃
      cases hu : env.uncopied && !buf.isEmpty with
      | true =>
        rw [hu] at hm₃
        refine ⟨by simp [writeRanges,hi,hm₁,hm₂,hm₃],fun he => ?_⟩
        simp [he.copied] at hu
      | false =>
        obtain rfl := hb hu
        rw [hu] at hm₃
        have htotal : d.dev.incompleteCommandSize + buf.length = (fragBytes frag ++ buf).length := by
          rw [h.size,List.length_append]
        have hat : AtLoop ⟨0,(fragBytes frag ++ buf).length,d.dev.circularBuffer,m₃⟩ q
            (fragBytes frag ++ buf) held := ⟨h.wf,h.entries,hh₃,by simp⟩
        have hranges : writeRanges env d buf = copyRanges env (some q) (fragBytes frag ++ buf).length
            ⟨0,(fragBytes frag ++ buf).length,d.dev.circularBuffer,m₃⟩ := by
          rw [htotal] at hm₁
          simp only [writeRanges,hi,htotal,hm₁,hm₂,hm₃,ok_bind,Bool.false_eq_true,if_false]
        obtain ⟨hpre,hall⟩ := loop_ranges env hat (fragBytes frag ++ buf).length
        rw [hranges]
        exact ⟨hpre,fun he => hall he.allocated⟩

theorem logical_commands {cmds : List Bytes} {f buf cmd : Bytes}
    (h : cmd ∈ (logicalWrite env cmds f buf).2.commands) :
    cmd ∈ cmds ∨ cmd ∈ (cutAll env (f ++ buf)).pushed := by
  have hrecent {pushed : List Bytes} (hm : cmd ∈ (cmds ++ pushed).rtake 10) :
      cmd ∈ cmds ∨ cmd ∈ pushed := List.mem_append.mp (List.mem_of_mem_drop hm)
  cases hi : env.interrupted with
  | true => exact Or.inl (by simpa [logical_write_interrupted hi] using h)
  | false =>
    cases hu : env.uncopied && !buf.isEmpty with
    | true => exact Or.inl (by simpa [logical_write_fault hi hu] using h)
    | false =>
      rcases logical_write_cut cmds f hi hu with hlog | ⟨start,kmallocs,-,hlog⟩
      · rw [hlog] at h
        exact hrecent h
      · rw [hlog] at h
        exact hrecent h

theorem fitting_copies (h : Stored d held frag) {buf : Bytes}
    (hfit : CopiesFit (fragBytes frag ++ buf)) : CopiesInside env d buf := by
  have hinside : ∀ x ∈ cutRanges (fragBytes frag ++ buf) (fragBytes frag ++ buf).length 0
      (fragBytes frag ++ buf).length, x.1 + x.2 ≤ (fragBytes frag ++ buf).length :=
    ranges_fit hfit _ (by simp)
  refine ⟨fun p hdead => ?_,?_,?_⟩
  · cases stored_oops h hdead
  · intro x hx
    rw [h.size,← List.length_append]
    exact hinside x ((stored_ranges env h buf).1.subset hx)
  · intro r d' hw cmd hcmd
    obtain ⟨-,hshow⟩ := stored_write h hw
    rw [hshow.commands] at hcmd
    obtain ⟨b,hb,rfl⟩ := List.mem_map.mp hcmd
    rcases logical_commands env hb with hold | hnew
    · left
      rw [h.commands]
      exact List.mem_map_of_mem hold
    · right
      obtain ⟨x,hx,k,rfl⟩ := pushed_in_range hnew
      have hle := hinside x hx
      exact ⟨_,x.1,x.2,h.fragment,hle,by rw [extent_inside hle]⟩

omit env in
theorem inside_copies_fit (h : Stored d held frag) {buf : Bytes}
    (hall : ∀ env, CopiesInside env d buf) : CopiesFit (fragBytes frag ++ buf) := by
  intro p q hpq hp hq hbetween hin
  have hranges := (stored_ranges calm h buf).2 ⟨rfl,rfl,fun _ => rfl⟩
  have hmem := range_reached hpq hp hq hbetween hin (Nat.zero_le p) (Nat.le_refl _)
  have hle := (hall calm).ranges (p + 1,q + 1) (by rw [hranges]; exact hmem)
  rw [h.size,← List.length_append] at hle
  simp only at hle
  omega

omit env in
theorem stale_not_inside {p : ℕ} (h : Stale d held p) (buf : Bytes) : ¬ CopiesInside calm d buf :=
  fun hinside => hinside.live p (stale_write calm h rfl buf)

end Ranges

theorem copies_inside_iff {d : Driver} (hd : Runs.Reachable writeStep aesdInitModule d)
    (buf : Bytes) :
    (∀ env, CopiesInside env d buf) ↔ ∃ f, fragment d = some f ∧ CopiesFit (f ++ buf) := by
  obtain ⟨L,hL⟩ := reachable_shown hd
  cases hL with
  | intact h =>
    constructor
    · intro hall
      exact ⟨_,h.fragment,inside_copies_fit h hall⟩
    · rintro ⟨f,hf,hfit⟩ env
      rw [h.fragment] at hf
      cases hf
      exact fitting_copies env h hfit
  | stale h =>
    constructor
    · intro hall
      exact absurd (hall calm) (stale_not_inside h buf)
    · rintro ⟨f,hf,-⟩
      rw [h.fragment] at hf
      cases hf

theorem copies_inside_iff_at_init :
    (∀ env, CopiesInside env aesdInitModule [97,10,98]) ↔
      ∃ f, fragment aesdInitModule = some f ∧ CopiesFit (f ++ [97,10,98]) :=
  copies_inside_iff (Runs.Reachable.refl _) _

theorem second_line_overruns :
    writeRanges calm aesdInitModule [97,10,98,10] = [(0,2),(2,4)] ∧
      ¬ ∀ env, CopiesInside env aesdInitModule [97,10,98,10] := by
  have hranges : writeRanges calm aesdInitModule [97,10,98,10] = [(0,2),(2,4)] := by decide
  refine ⟨hranges,fun hall => ?_⟩
  have hle := (hall calm).ranges (2,4) (by rw [hranges]; simp)
  simp [aesdInitModule] at hle

end Device
