import Aesd.CharDriver.Search
import Aesd.CharDriver.WriteStream
import Aesd.CharDriver.Reading

namespace Device
open BlockHeap CircularBuffer AesdCircularBuffer Kernel Cutting Delimited

def toInt (n : ℤ) : ℤ := n.bmod (2^32)

-- SEEK_SET, SEEK_CUR and SEEK_END
def seekBase (fPos size whence : ℤ) : Option ℤ :=
  if whence = 0 then some 0
  else if whence = 1 then some fPos
  else if whence = 2 then some size
  else none

structure SeekTarget (fPos off whence size p : ℤ) : Prop where
  based : seekBase fPos size whence = some (p - off)
  nonneg : 0 ≤ p
  inside : p ≤ size

-- fixed_size_llseek takes f_pos, off, whence and size to the value it returns and the new f_pos
structure FixedSizeLlseek (fixedSizeLlseek : ℤ → ℤ → ℤ → ℤ → ℤ × ℤ) : Prop where
  moves : ∀ {fPos off whence size p : ℤ}, SeekTarget fPos off whence size p →
    fixedSizeLlseek fPos off whence size = (p,p)
  refuses : ∀ {fPos off whence size : ℤ}, (∀ p, ¬ SeekTarget fPos off whence size p) →
    ∃ errno, 0 < errno ∧ errno ≤ 4095 ∧ fixedSizeLlseek fPos off whence size = (-errno,fPos)

def aesdLlseek (fixedSizeLlseek : ℤ → ℤ → ℤ → ℤ → ℤ × ℤ) (d : Driver) (fPos off whence : ℤ) :
    ℤ × ℤ :=
  let (retval,fPos) := fixedSizeLlseek fPos off whence (aesdSize d.dev.circularBuffer)
  (toInt retval,fPos)

structure ReadsFrom (d : Driver) (position : ℤ) (env : CallEnv) (r : ℤ) (out : Bytes) : Prop where
  served : Served env → 0 ≤ r
  ends : 0 ≤ r → (r = 0 ↔ position = (contentBytes d).length)
  bytes : 0 ≤ r → r = out.length ∧
    out = ((contentBytes d).drop position.toNat).take out.length

structure LlseekExact (d : Driver) (fPos off whence : ℤ) (result : ℤ × ℤ) : Prop where
  success : ∀ p, SeekTarget fPos off whence (contentBytes d).length p → result = (p,p)
  failure : (∀ p, ¬ SeekTarget fPos off whence (contentBytes d).length p) →
    result.1 < 0 ∧ result.2 = fPos
  reads : ∀ p, SeekTarget fPos off whence (contentBytes d).length p → ∀ env count, 0 < count →
    ∃ r out fPos', aesdRead env d count result.2.toNat = .ok (r,out,fPos') ∧
      ReadsFrom d result.1 env r out

section Seeks
variable {fixedSizeLlseek : ℤ → ℤ → ℤ → ℤ → ℤ × ℤ} {d : Driver} {held : List (ℕ × Bytes)}
  {fPos off whence : ℤ}

theorem to_int_small {n : ℤ} (hlo : -2^31 ≤ n) (hhi : n < 2^31) : toInt n = n :=
  Int.bmod_eq_of_le_mul_two (by norm_num; omega) (by norm_num; omega)

theorem to_int_exact {n : ℤ} (h : 0 ≤ n) : toInt n = n ↔ n < 2^31 := by
  constructor
  · intro he
    have hlt := Int.bmod_lt (x := n) (m := 2^32) (by norm_num)
    rw [toInt] at he
    omega
  · intro hlt
    exact to_int_small (by omega) hlt

theorem RingHolds.total_size (h : RingHolds d held) :
    totalSize d.dev.circularBuffer = (contentBytes d).length := by
  rw [totalSize,h.entries,h.content_bytes,List.length_flatten,List.map_map,List.map_map]
  rfl

theorem aesd_size_content (h : RingHolds d held) (hsize : (contentBytes d).length < 2^63) :
    aesdSize d.dev.circularBuffer = (contentBytes d).length := by
  rw [aesd_size_wrapped h.wf,h.total_size,(to_ssize_exact _).mpr hsize]

theorem llseek_moves (hf : FixedSizeLlseek fixedSizeLlseek) (h : RingHolds d held)
    (hsize : (contentBytes d).length < 2^63) {p : ℤ}
    (ht : SeekTarget fPos off whence (contentBytes d).length p) :
    aesdLlseek fixedSizeLlseek d fPos off whence = (toInt p,p) := by
  simp only [aesdLlseek,aesd_size_content h hsize,hf.moves ht]

theorem llseek_refuses (hf : FixedSizeLlseek fixedSizeLlseek) (h : RingHolds d held)
    (hsize : (contentBytes d).length < 2^63)
    (hn : ∀ p, ¬ SeekTarget fPos off whence (contentBytes d).length p) :
    (aesdLlseek fixedSizeLlseek d fPos off whence).1 < 0 ∧
      (aesdLlseek fixedSizeLlseek d fPos off whence).2 = fPos := by
  obtain ⟨errno,hpos,hle,heq⟩ := hf.refuses hn
  have hint : toInt (-errno) = -errno := to_int_small (by omega) (by omega)
  simp only [aesdLlseek,aesd_size_content h hsize,heq,hint]
  exact ⟨by omega,trivial⟩

theorem reads_from (h : RingHolds d held) {p : ℤ} (h0 : 0 ≤ p) (hp : p ≤ (contentBytes d).length)
    (env : CallEnv) {count : ℕ} (hc : 0 < count) :
    ∃ r out fPos', aesdRead env d count p.toNat = .ok (r,out,fPos') ∧ ReadsFrom d p env r out := by
  obtain ⟨⟨r,out,fPos'⟩,hok,hout⟩ := aesd_read_spec env h hc p.toNat
  refine ⟨r,out,fPos',hok,fun hs => ?_,fun hr => ?_,fun hr => ?_⟩
  · cases hout with
    | interrupted hi => simp [hs.locked] at hi
    | faulted _ hu => simp [hs.copied] at hu
    | finished | delivered => omega
  · obtain ⟨hlen,-,-,hend⟩ := read_returns h hc hr hok
    have hzero : r = 0 ↔ out = [] := by
      rw [hlen]
      simp
    rw [hzero,hend]
    omega
  · obtain ⟨hlen,hbytes,-,-⟩ := read_returns h hc hr hok
    exact ⟨hlen,hbytes⟩

theorem llseek_exact_iff (hf : FixedSizeLlseek fixedSizeLlseek)
    (hd : Runs.Reachable writeStep aesdInitModule d) (hsize : (contentBytes d).length < 2^63)
    (fPos off whence : ℤ) :
    LlseekExact d fPos off whence (aesdLlseek fixedSizeLlseek d fPos off whence) ↔
      ∀ p, SeekTarget fPos off whence (contentBytes d).length p → p < 2^31 := by
  obtain ⟨L,hL⟩ := reachable_shown hd
  obtain ⟨held,h,-⟩ := hL.ring
  constructor
  · intro he p ht
    have hp := he.success p ht
    rw [llseek_moves hf h hsize ht] at hp
    exact (to_int_exact ht.nonneg).mp (congrArg Prod.fst hp)
  · intro hsmall
    have hmoves (p : ℤ) (ht : SeekTarget fPos off whence (contentBytes d).length p) :
        aesdLlseek fixedSizeLlseek d fPos off whence = (p,p) := by
      rw [llseek_moves hf h hsize ht,(to_int_exact ht.nonneg).mpr (hsmall p ht)]
    refine ⟨hmoves,llseek_refuses hf h hsize,fun p ht env count hc => ?_⟩
    rw [hmoves p ht]
    exact reads_from h ht.nonneg ht.inside env hc

end Seeks

def boundedLlseek (fPos off whence size : ℤ) : ℤ × ℤ :=
  match seekBase fPos size whence with
  | some base => if 0 ≤ base + off ∧ base + off ≤ size then (base + off,base + off) else (-einval,fPos)
  | none => (-einval,fPos)

theorem bounded_llseek : FixedSizeLlseek boundedLlseek where
  moves := by
    rintro fPos off whence size p ⟨hbase,h0,hp⟩
    simp [boundedLlseek,hbase,h0,hp]
  refuses := by
    intro fPos off whence size hn
    refine ⟨einval,by decide,by decide,?_⟩
    rw [boundedLlseek]
    cases hbase : seekBase fPos size whence with
    | none => rfl
    | some base =>
      have hout : ¬ (0 ≤ base + off ∧ base + off ≤ size) := fun ⟨h0,hp⟩ =>
        hn (base + off) ⟨by rw [hbase,Int.add_sub_cancel],h0,hp⟩
      simp only [if_neg hout]

theorem llseek_exact_iff_two_lines :
    ∃ d, Runs.run writeStep aesdInitModule [⟨calm,[97,10]⟩,⟨calm,[98,99,10]⟩] = some d ∧
      (LlseekExact d 1 3 1 (aesdLlseek boundedLlseek d 1 3 1) ↔
        ∀ p, SeekTarget 1 3 1 (contentBytes d).length p → p < 2^31) := by
  obtain ⟨d,hd,hbytes⟩ := Option.map_eq_some_iff.mp
    (show (Runs.run writeStep aesdInitModule [⟨calm,[97,10]⟩,⟨calm,[98,99,10]⟩]).map contentBytes =
      some [97,10,98,99,10] by decide)
  exact ⟨d,hd,llseek_exact_iff bounded_llseek ⟨_,hd⟩ (by rw [hbytes]; decide) 1 3 1⟩

theorem lines_content {lines : List Bytes} (h : ∀ line ∈ lines, newline ∉ line)
    (hlen : lines.length ≤ 10) : ∃ d, Runs.run writeStep aesdInitModule
        (lines.map fun line => ⟨calm,line ++ [newline]⟩) = some d ∧
      contentBytes d = (lines.map (· ++ [newline])).flatten := by
  obtain ⟨d,hd,hs⟩ := lines_written h
  refine ⟨d,hd,?_⟩
  have hall : (pieces newline (lines.map (· ++ [newline])).flatten).rtake 10 =
      lines.map (· ++ [newline]) := by
    rw [pieces_lines h]
    exact Recent.rtake_of_le (by rw [List.length_map]; exact hlen)
  rw [contentBytes,hs.commands,hall]
  simp [Function.comp_def]

def longLines (k n : ℕ) : List WriteCall :=
  (List.replicate k (List.replicate n 97)).map fun line => ⟨calm,line ++ [newline]⟩

theorem long_lines_length {k : ℕ} (hk : k ≤ 10) (n : ℕ) :
    ∃ d, Runs.run writeStep aesdInitModule (longLines k n) = some d ∧
      (contentBytes d).length = k * (n + 1) := by
  have hlines : ∀ line ∈ List.replicate k (List.replicate n 97), newline ∉ line := by
    intro line hl
    rw [List.eq_of_mem_replicate hl]
    simp [newline]
  obtain ⟨d,hd,hbytes⟩ := lines_content hlines (by rw [List.length_replicate]; exact hk)
  refine ⟨d,hd,?_⟩
  rw [hbytes]
  simp

-- eight lines of 2^28 bytes, then SEEK_END
theorem llseek_past_int :
    ∃ d, Runs.run writeStep aesdInitModule (longLines 8 (2^28 - 1)) = some d ∧
      (contentBytes d).length = 2^31 ∧ aesdLlseek boundedLlseek d 0 0 2 = (-2^31,2^31) ∧
      ¬ LlseekExact d 0 0 2 (aesdLlseek boundedLlseek d 0 0 2) := by
  obtain ⟨d,hd,hbytes⟩ := long_lines_length (k := 8) (by omega) (2^28 - 1)
  have hlen : (contentBytes d).length = 2^31 := by
    omega
  obtain ⟨L,hL⟩ := reachable_shown ⟨_,hd⟩
  obtain ⟨held,h,-⟩ := hL.ring
  have htarget : SeekTarget 0 0 2 (contentBytes d).length (2^31) := by
    rw [hlen]
    exact ⟨rfl,by decide,by decide⟩
  have hmoves := llseek_moves bounded_llseek h (by omega) htarget
  have hint : toInt (2^31) = -2^31 := by decide
  rw [hint] at hmoves
  refine ⟨d,hd,hlen,hmoves,fun he => ?_⟩
  have hsame := he.success _ htarget
  rw [hmoves] at hsame
  exact absurd (congrArg Prod.fst hsame) (by decide)

end Device
