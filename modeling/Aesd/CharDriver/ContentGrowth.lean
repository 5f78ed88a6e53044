import Aesd.CharDriver.Reading
import Aesd.CharDriver.WriteStream

namespace Device
open BlockHeap CircularBuffer AesdCircularBuffer Kernel Cutting

-- the ring has no room for as many commands as the newlines of the write and the stored fragment
def Evicting (d : Driver) (buf : Bytes) : Prop :=
  10 < (content d.dev.circularBuffer).length + ((fragment d).getD [] ++ buf).count newline

instance (d : Driver) (buf : Bytes) : Decidable (Evicting d buf) :=
  inferInstanceAs (Decidable (_ < _))

section Pushed
variable {env : CallEnv} {data : Bytes} {fuel kmallocs start n : ℕ}

theorem break_counted {brk : ℕ} (h : nextBreak data start n = some brk) :
    (data.drop (brk + 1)).count newline + 1 ≤ (data.drop start).count newline := by
  obtain ⟨hlo,-,hat,-⟩ := next_break_some h
  obtain ⟨hlt,hbyte⟩ := List.getElem?_eq_some_iff.mp hat
  have hbrk : data.drop brk = newline :: data.drop (brk + 1) := by
    rw [← hbyte,List.getElem_cons_drop]
  have hsuffix : data.drop brk <:+ data.drop start := by
    have hsplit : start + (brk - start) = brk := by omega
    rw [← hsplit,← List.drop_drop]
    exact List.drop_suffix _ _
  have hcount := hsuffix.sublist.count_le newline
  rw [hbrk,List.count_cons_self] at hcount
  exact hcount

theorem pushed_count : (cutLoop env data fuel kmallocs start n).pushed.length ≤
    (data.drop start).count newline := by
  induction fuel generalizing kmallocs start n with
  | zero => simp [cutLoop]
  | succ fuel ih =>
    rw [cutLoop]
    cases hb : nextBreak data start n with
    | none => simp
    | some brk =>
      have hone := break_counted hb
      simp only
      split_ifs with hk
      · have hrest : (cutLoop env data fuel (kmallocs + 2) (brk + 1) (n - (brk + 1))).pushed.length ≤
            (data.drop (brk + 1)).count newline := ih
        rw [List.length_cons]
        omega
      · simp

theorem pushed_nonempty : ∀ c ∈ (cutLoop env data fuel kmallocs start n).pushed, c ≠ [] := by
  induction fuel generalizing kmallocs start n with
  | zero => simp [cutLoop]
  | succ fuel ih =>
    intro c hc
    rw [cutLoop] at hc
    cases hb : nextBreak data start n with
    | none => simp [hb] at hc
    | some brk =>
      rw [hb] at hc
      simp only at hc
      split_ifs at hc
      · rcases List.mem_cons.mp hc with rfl | hc
        · rw [← List.length_pos_iff,extent_length]
          omega
        · exact ih c hc
      · simp at hc

end Pushed

section Contents
variable {env : CallEnv} {d d' : Driver} {buf : Bytes} {r : ℤ} {L : Logical}

theorem Shows.content_length (h : Shows d L) :
    (content d.dev.circularBuffer).length = L.commands.length := by
  have hc := congrArg List.length h.commands
  simpa [Device.commands] using hc

theorem write_returned (h : Shows d L) (hw : aesdWrite env d buf = .ok (r,d')) (hr : 0 ≤ r) :
    ∃ f start kmallocs, L.fragment = some f ∧
      (cutAll env (f ++ buf)).stop = some (start,kmallocs) ∧
      Shows d' ⟨(L.commands ++ (cutAll env (f ++ buf)).pushed).rtake 10,
        some ((f ++ buf).drop start)⟩ := by
  cases h with
  | @intact held frag h =>
    obtain ⟨start,kmallocs,hstop,-,hshow⟩ := stored_write_success h hw hr
    exact ⟨_,start,kmallocs,rfl,hstop,hshow⟩
  | stale h =>
    obtain ⟨-,rfl,-⟩ := stale_write_returns h hw
    simp [eintr] at hr

theorem write_extends (h : Shows d L) (hw : aesdWrite env d buf = .ok (r,d')) (hr : 0 ≤ r)
    (he : ¬ Evicting d buf) : contentBytes d <+: contentBytes d' := by
  obtain ⟨f,start,kmallocs,hf,-,hshow⟩ := write_returned h hw hr
  have hpushed : (cutAll env (f ++ buf)).pushed.length ≤ (f ++ buf).count newline := pushed_count
  have hroom : (L.commands ++ (cutAll env (f ++ buf)).pushed).length ≤ 10 := by
    rw [Evicting,h.content_length,h.fragment,hf,Option.getD_some] at he
    rw [List.length_append]
    omega
  rw [h.content_bytes,hshow.content_bytes,Recent.rtake_of_le hroom,List.flatten_append]
  exact List.prefix_append _ _

theorem line_stored (h : Shows d L) (hb : newline ∈ buf)
    (hw : aesdWrite env d buf = .ok (r,d')) (hr : 0 ≤ r) : contentBytes d' ≠ [] := by
  obtain ⟨f,start,kmallocs,hf,hstop,hshow⟩ := write_returned h hw hr
  cases hbrk : nextBreak (f ++ buf) 0 (f ++ buf).length with
  | none =>
    have hnone : newline ∉ f ++ buf := (no_break_iff 0).mp hbrk
    exact absurd (List.mem_append_right f hb) hnone
  | some brk =>
    obtain ⟨rest,hp,-,-⟩ := cut_at_break hbrk hstop
    rcases List.eq_nil_or_concat' (cutAll env (f ++ buf)).pushed with hnil | ⟨init,c,hsnoc⟩
    · simp [hp] at hnil
    · have hc : c ≠ [] := by
        refine pushed_nonempty c (?_ : c ∈ (cutAll env (f ++ buf)).pushed)
        simp [hsnoc]
      have hmem : c ∈ (L.commands ++ (cutAll env (f ++ buf)).pushed).rtake 10 := by
        rw [hsnoc,← List.append_assoc]
        exact Recent.last_mem_rtake _ c (by omega)
      rw [hshow.content_bytes]
      intro hflat
      exact hc (List.flatten_eq_nil_iff.mp hflat c hmem)

end Contents

end Device
