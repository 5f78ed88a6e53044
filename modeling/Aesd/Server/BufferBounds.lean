import Aesd.Server.Framing

namespace ClientHandler
open Kernel Device Scan Delimited

structure InBounds (h : Handler) : Prop where
  store : h.pc = .byte → h.i < h.bytesReceived → h.readBuffer h.i ≠ newline →
    h.writeBufferIndex < bufferSize
  terminated : h.pc = .branch → ∃ k < bufferSize, h.writeBuffer k = 0

-- after a device call fails its packet stays in write_buffer and the next one is stored behind it
structure Fits (s : Bytes) : Prop where
  run : ∀ r, newline ∉ r → r <:+: s → r.length ≤ bufferSize
  pair : ∀ r₁ r₂, newline ∉ r₁ → newline ∉ r₂ → r₁ ++ newline :: r₂ <:+: s →
    r₁.length + r₂.length ≤ bufferSize
  zero : ∀ r, newline ∉ r → r ++ [newline] <:+: s → r.length = bufferSize → 0 ∈ r

structure Jammed (evs : List Event) (h : Handler) : Prop where
  holding : h.holding = true
  pc : h.pc = .byte ∨ h.pc = .recv ∨ h.pc = .lock ∨ h.pc = .exited
  held : ∃ before p r, consumed evs h = before ++ p ++ newline :: r ∧ newline ∉ p ∧ newline ∉ r ∧
    Holds h (p ++ r)

section Bounds
variable {evs : List Event} {h h' : Handler} {ev : Event} {s : Bytes}

theorem next_within (hf : Framed evs h) (hi : h.i < h.bytesReceived) (hs : received evs <+: s) :
    consumed evs h ++ [h.readBuffer h.i] <+: s := by
  have hnext : consumed evs { h with i := h.i + 1 } = consumed evs h ++ [h.readBuffer h.i] :=
    consumed_next hf hi rfl rfl rfl
  rw [← hnext]
  exact consumed_within hs

theorem residue_room (hfit : Fits s) {q : Bytes} {b : UInt8} (hq : q ++ [b] <+: s)
    (hb : b ≠ newline) : (residue newline q).length < bufferSize := by
  obtain ⟨before,hbefore⟩ := residue_suffix newline q
  have hrun : newline ∉ residue newline q ++ [b] := by simp [not_mem_residue,Ne.symm hb]
  have hsub : residue newline q ++ [b] <:+: q ++ [b] :=
    ⟨before,[],by rw [List.append_nil,← List.append_assoc,hbefore]⟩
  have hle := hfit.run _ hrun (hsub.trans hq.isInfix)
  rw [List.length_append,List.length_singleton] at hle
  exact hle

theorem Disciplined.inBounds (hd : Disciplined evs h) (hf : Framed evs h) (hfit : Fits s)
    (hs : received evs <+: s) : InBounds h := by
  constructor
  · intro hpc hi hb
    rw [index_payload (hd.assembled (by simp [hpc]) (by rw [hpc]; rfl))]
    exact residue_room hfit (next_within hf hi hs) hb
  · intro hpc
    have hh := hd.assembled (by simp [hpc]) (by rw [hpc]; rfl)
    obtain ⟨hi,hb⟩ := hf.newline (by rw [hpc]; rfl)
    have hnext := next_within hf hi hs
    rw [hb] at hnext
    obtain ⟨before,hbefore⟩ := residue_suffix newline (consumed evs h)
    have hsub : residue newline (consumed evs h) ++ [newline] <:+: s :=
      List.IsInfix.trans ⟨before,[],by rw [List.append_nil,← List.append_assoc,hbefore]⟩
        hnext.isInfix
    have hle := hfit.run _ (not_mem_residue _) ((List.prefix_append _ _).isInfix.trans hsub)
    rcases Nat.lt_or_eq_of_le hle with hlt | heq
    · exact ⟨h.writeBufferIndex,by rw [index_payload hh]; exact hlt,hh.rest _ (Nat.le_refl _)⟩
    · have hzero := hfit.zero _ (not_mem_residue _) hsub heq
      rw [← hh.payload,Handler.payload,List.mem_map] at hzero
      obtain ⟨k,hk,hbyte⟩ := hzero
      have hidx := index_payload hh
      exact ⟨k,by have := List.mem_range.mp hk; omega,hbyte⟩

theorem Jammed.room (hj : Jammed evs h) (hf : Framed evs h) (hfit : Fits s)
    (hs : received evs <+: s) (hi : h.i < h.bytesReceived) (hb : h.readBuffer h.i ≠ newline) :
    h.writeBufferIndex < bufferSize := by
  obtain ⟨before,p,r,hq,hp,hr,hh⟩ := hj.held
  have hnext := next_within hf hi hs
  rw [hq] at hnext
  have hsub : p ++ newline :: (r ++ [h.readBuffer h.i]) <:+: s :=
    List.IsInfix.trans ⟨before,[],by simp⟩ hnext.isInfix
  have hle := hfit.pair p _ hp (by simp [hr,Ne.symm hb]) hsub
  rw [index_payload hh]
  simp only [List.length_append,List.length_singleton] at hle ⊢
  omega

theorem Jammed.inBounds (hj : Jammed evs h) (hf : Framed evs h) (hfit : Fits s)
    (hs : received evs <+: s) : InBounds h := by
  refine ⟨fun _ hi hb => hj.room hf hfit hs hi hb,fun hpc => ?_⟩
  rcases hj.pc with h' | h' | h' | h' <;> simp [h'] at hpc

theorem jammed_by_failure (hf : Framed evs h) (hd : Disciplined evs h) (hs : step h ev = some h')
    (he : ev.failed = true) : Jammed (evs ++ [ev]) h' := by
  have hjam (hq : ev.bytes = []) (hin : h.pc.inSection = true) (hr : h.pc.responding = false)
      (hne : h.pc ≠ .undefined) : Jammed (evs ++ [ev]) h.nextByte := by
    obtain ⟨hi,hb⟩ := hf.newline (by rw [Pc.atPacket,hin]; rfl)
    obtain ⟨before,hbefore⟩ := residue_suffix newline (consumed evs h)
    have hnext : consumed evs h.nextByte = consumed evs h ++ [h.readBuffer h.i] :=
      consumed_next hf hi rfl rfl rfl
    refine ⟨hd.owned hin,Or.inl rfl,before,residue newline (consumed evs h),[],?_,
      not_mem_residue _,by simp,?_⟩
    · rw [consumed_quiet hq,hnext,hb,hbefore]
    · rw [List.append_nil]
      exact holds_congr (hd.assembled hne hr) rfl rfl
  cases step_move hs with
  | seekFailed hpc | dataFailed hpc | newlineFailed hpc =>
    exact hjam rfl (by rw [hpc]; rfl) (by rw [hpc]; rfl) (by simp [hpc])
  | _ => cases he

theorem Jammed.step (hj : Jammed evs h) (hf : Framed evs h) (hfit : Fits s)
    (hpre : received evs <+: s) (hs : ClientHandler.step h ev = some h') :
    Jammed (evs ++ [ev]) h' := by
  obtain ⟨hhold,hpcs,before,p,r,hq,hp,hr,hh⟩ := hj
  cases step_move hs with
  | closed hpc | drained hpc | completed hpc =>
    exact ⟨hhold,by simp,before,p,r,(consumed_quiet rfl).trans hq,hp,hr,holds_congr hh rfl rfl⟩
  | received hpc =>
    refine ⟨hhold,by simp,before,p,r,?_,hp,hr,holds_congr hh rfl rfl⟩
    rw [consumed_recv (hf.drained hpc) rfl rfl,hq]
  | stored hpc hi hb =>
    have hnext : consumed evs { h with i := h.i + 1 } = consumed evs h ++ [h.readBuffer h.i] :=
      consumed_next hf hi rfl rfl rfl
    refine ⟨hhold,by simp,before,p,r ++ [h.readBuffer h.i],?_,hp,by simp [hr,Ne.symm hb],?_⟩
    · refine (consumed_quiet rfl).trans (hnext.trans ?_)
      rw [hq]
      simp
    · rw [← List.append_assoc]
      exact holds_stored hh _ rfl rfl
  | overran hpc hi hb hx =>
    have hroom := Jammed.room ⟨hhold,hpcs,before,p,r,hq,hp,hr,hh⟩ hf hfit hpre hi hb
    omega
  | locked hpc hfree => simp [hhold] at hfree
  | _ hpc => simp [hpc] at hpcs

theorem bounded_run (hfit : Fits s) (hr : Runs.run step init evs = some h)
    (hs : received evs <+: s) : Disciplined evs h ∨ Jammed evs h := by
  refine Runs.run_induction (P := fun evs h => received evs <+: s → Disciplined evs h ∨ Jammed evs h)
    (fun _ => Or.inl disciplined_init) ?_ hr hs
  intro evs ev h h' hrun ih hstep hpre
  rw [received_snoc] at hpre
  have hprev := (List.prefix_append _ _).trans hpre
  rcases ih hprev with hd | hj
  · cases he : ev.failed with
    | false => exact Or.inl (disciplined_step (framed_run hrun) hd hstep he)
    | true => exact Or.inr (jammed_by_failure (framed_run hrun) hd hstep he)
  · exact Or.inr (hj.step (framed_run hrun) hfit hprev hstep)

theorem fits_in_bounds (hfit : Fits s) (hr : Runs.run step init evs = some h)
    (hs : received evs <+: s) : InBounds h := by
  have hf := framed_run hr
  rcases bounded_run hfit hr hs with hd | hj
  · exact hd.inBounds hf hfit hs
  · exact hj.inBounds hf hfit hs

end Bounds

-- the byte loop stands behind the bytes q of the stream, with p in write_buffer
structure Reach (cut : List Bytes) (evs : List Event) (h : Handler) (q p : Bytes) : Prop where
  run : Runs.run step init evs = some h
  chunks : chunksOf evs <+: cut
  pc : h.pc = .byte
  consumed : consumed evs h = q
  holds : Holds h p

structure Pending (cut : List Bytes) (evs : List Event) (h : Handler) (q p : Bytes) (x : UInt8) :
    Prop extends Reach cut evs h q p where
  inside : h.i < h.bytesReceived
  byte : h.readBuffer h.i = x

section Reaching
variable {cut : List Bytes} {evs es : List Event} {h h' : Handler} {s q p : Bytes} {x : UInt8}

theorem received_within (hc : Cutting s cut) (h : chunksOf evs <+: cut) : received evs <+: s := by
  obtain ⟨rest,rfl⟩ := h
  rw [received_chunks,← hc.whole,List.flatten_append]
  exact List.prefix_append _ _

theorem next_chunk (hc : Cutting s cut) (h : chunksOf evs <+: cut) (hs : received evs ≠ s) :
    ∃ data, chunksOf evs ++ [data] <+: cut ∧ data ≠ [] ∧ data.length ≤ bufferSize := by
  obtain ⟨rest,rfl⟩ := h
  cases rest with
  | nil =>
    refine absurd ?_ hs
    rw [received_chunks,← hc.whole,List.append_nil]
  | cons data rest =>
    obtain ⟨hne,hlen⟩ := hc.sizes data (by simp)
    exact ⟨data,⟨rest,by simp⟩,hne,hlen⟩

theorem pending_byte (hc : Cutting s cut) (hr : Reach cut evs h q p) (hi : h.i < h.bytesReceived)
    (hq : q ++ [x] <+: s) : Pending cut evs h q p x := by
  have hnext := next_within (framed_run hr.run) hi (received_within hc hr.chunks)
  rw [hr.consumed] at hnext
  have heq := List.prefix_of_prefix_length_le hnext hq (by simp)
  have hlast := heq.eq_of_length (by simp)
  exact ⟨hr,hi,by simpa using hlast⟩

theorem Reach.pending (hc : Cutting s cut) (hr : Reach cut evs h q p) (hq : q ++ [x] <+: s) :
    ∃ es h', (∀ ev ∈ es, ev.failed = false) ∧ Pending cut (evs ++ es) h' q p x := by
  have hf := framed_run hr.run
  rcases Nat.lt_or_eq_of_le hf.within with hi | hi
  · exact ⟨[],h,by simp,by simpa using pending_byte hc hr hi hq⟩
  · have hall : received evs = q := by rw [← hr.consumed,consumed_received hi]
    have hmore : received evs ≠ s := by
      rintro heq
      have hlen := hq.length_le
      rw [← heq,hall,List.length_append,List.length_singleton] at hlen
      omega
    obtain ⟨data,hcut,hne,hlen⟩ := next_chunk hc hr.chunks hmore
    have htau : step h .tau = some { h with pc := .recv } := by simp [step,hr.pc,hi]
    have hrecv : step { h with pc := .recv } (.recv data) = some { h with
        pc := .byte, readBuffer := fun k => data[k]?.getD (h.readBuffer k),
        bytesReceived := data.length, i := 0 } := by
      simp [step,hne,hlen]
    have hrun := Runs.run_join hr.run ((Runs.run_next htau _).trans (Runs.run_step hrecv))
    have hchunks : chunksOf (evs ++ [.tau,.recv data]) = chunksOf evs ++ [data] := by
      simp [chunksOf,Event.chunks,hne]
    have hbytes : received (evs ++ [.tau,.recv data]) = q ++ data := by
      rw [received_chunks,hchunks,List.flatten_append,← received_chunks,hall]
      simp
    refine ⟨[.tau,.recv data],_,by simp [Event.failed],pending_byte hc
      ⟨hrun,by rw [hchunks]; exact hcut,rfl,?_,holds_congr hr.holds rfl rfl⟩
      (List.length_pos_iff.mpr hne) hq⟩
    rw [ClientHandler.consumed,hbytes]
    simp

theorem Pending.store (hp : Pending cut evs h q p x) (hx : x ≠ newline)
    (hroom : p.length < bufferSize) : ∃ h', Reach cut (evs ++ [.tau]) h' (q ++ [x]) (p ++ [x]) := by
  have hidx : h.writeBufferIndex < bufferSize := by rw [index_payload hp.holds]; exact hroom
  have hb : h.readBuffer h.i ≠ newline := by rw [hp.byte]; exact hx
  have hstep : step h .tau = some { h with
      pc := .byte, i := h.i + 1,
      writeBuffer := fun k => if k = h.writeBufferIndex then h.readBuffer h.i else h.writeBuffer k,
      writeBufferIndex := h.writeBufferIndex + 1 } := by simp [step,hp.pc,hp.inside,hb,hidx]
  have hnext : ClientHandler.consumed evs { h with i := h.i + 1 } =
      ClientHandler.consumed evs h ++ [h.readBuffer h.i] :=
    consumed_next (framed_run hp.run) hp.inside rfl rfl rfl
  rw [hp.consumed,hp.byte] at hnext
  refine ⟨_,Runs.run_join hp.run (Runs.run_step hstep),?_,rfl,(consumed_quiet rfl).trans hnext,?_⟩
  · simpa [Event.chunks] using hp.chunks
  · rw [← hp.byte]
    exact holds_stored hp.holds _ rfl rfl

theorem Reach.stores (hc : Cutting s cut) (hr : Reach cut evs h q p) {t : Bytes}
    (ht : newline ∉ t) (hq : q ++ t <+: s) (hroom : p.length + t.length ≤ bufferSize) :
    ∃ es h', (∀ ev ∈ es, ev.failed = false) ∧ Reach cut (evs ++ es) h' (q ++ t) (p ++ t) := by
  induction t using List.reverseRecOn with
  | nil => exact ⟨[],h,by simp,by simpa using hr⟩
  | append_singleton t x ih =>
    simp only [List.mem_append,List.mem_singleton,not_or] at ht
    rw [List.length_append,List.length_singleton] at hroom
    rw [← List.append_assoc] at hq
    obtain ⟨es,m,hok,hm⟩ := ih ht.1 ((List.prefix_append _ _).trans hq) (by omega)
    obtain ⟨es',m',hok',hm'⟩ := hm.pending hc hq
    obtain ⟨h',hh⟩ := hm'.store (Ne.symm ht.2) (by rw [List.length_append]; omega)
    refine ⟨es ++ es' ++ [.tau],h',?_,by simpa [List.append_assoc] using hh⟩
    exact List.forall_mem_append.mpr
      ⟨List.forall_mem_append.mpr ⟨hok,hok'⟩,by simp [Event.failed]⟩

theorem Pending.branch (hp : Pending cut evs h q p newline) (hf : h.holding = false) :
    ∃ h', Runs.run step init (evs ++ [.tau,.lock]) = some h' ∧ h'.pc = .branch ∧
      h' = { h with pc := .branch, holding := true } := by
  have htau : step h .tau = some { h with pc := .lock } := by
    simp [step,hp.pc,hp.inside,hp.byte]
  have hlock : step { h with pc := .lock } .lock = some { h with pc := .branch, holding := true } := by
    simp [step,hf]
  exact ⟨_,Runs.run_join hp.run ((Runs.run_next htau _).trans (Runs.run_step hlock)),rfl,rfl⟩

theorem Pending.passed (hp : Pending cut evs h q p x) {r : Bytes} (hq : chunksOf es = [])
    (hrun : Runs.run step init (evs ++ es) = some h') (hpc : h'.pc = .byte)
    (hn : h'.bytesReceived = h.bytesReceived) (hi : h'.i = h.i + 1) (hh : Holds h' r) :
    Reach cut (evs ++ es) h' (q ++ [x]) r := by
  have hsame : received (evs ++ es) = received evs := by
    rw [received_chunks,received_chunks,chunksOf,List.flatMap_append,← chunksOf,← chunksOf,hq,
      List.append_nil]
  have hnext : ClientHandler.consumed evs { h with i := h.i + 1 } =
      ClientHandler.consumed evs h ++ [h.readBuffer h.i] :=
    consumed_next (framed_run hp.run) hp.inside rfl rfl rfl
  rw [hp.consumed,hp.byte] at hnext
  refine ⟨hrun,?_,hpc,?_,hh⟩
  · rw [chunksOf,List.flatMap_append,← chunksOf,← chunksOf,hq,List.append_nil]
    exact hp.chunks
  · rw [← hnext,ClientHandler.consumed,ClientHandler.consumed,hsame,hn,hi]

theorem Pending.served (hp : Pending cut evs h q p newline) (hf : h.holding = false) :
    ∃ es h', (∀ ev ∈ es, ev.failed = false) ∧ Reach cut (evs ++ es) h' (q ++ [newline]) [] := by
  have htau : step h .tau = some { h with pc := .lock } := by
    simp [step,hp.pc,hp.inside,hp.byte]
  obtain ⟨es,hquiet,hrun⟩ := serve_packet (h := { h with pc := .lock }) zeroStack rfl hf
  have hq := (quiet_tau zeroStack).append hquiet
  exact ⟨_,_,hq.succeeded,hp.passed hq.chunks
    (Runs.run_join hp.run (Runs.run_join (Runs.run_step htau) hrun)) rfl rfl rfl (holds_nil rfl rfl)⟩

theorem Pending.refused (hp : Pending cut evs h q p newline) (hf : h.holding = false) :
    ∃ es h', Reach cut (evs ++ es) h' (q ++ [newline]) p := by
  obtain ⟨m,hrun,-,rfl⟩ := hp.branch hf
  cases hm : strstr (h.packetText zeroStack) aesdIoctlSeekto with
  | true =>
    have hbranch : step { h with pc := .branch, holding := true } (.branch zeroStack) = some { h with
        pc := .ioctl (seektoArgs h.readBuffer zeroStack), holding := true } := if_pos hm
    have hall := Runs.run_join hrun ((Runs.run_next hbranch [.ioctl false]).trans
      (Runs.run_step rfl))
    rw [List.append_assoc] at hall
    exact ⟨_,_,hp.passed rfl hall rfl rfl rfl (holds_congr hp.holds rfl rfl)⟩
  | false =>
    have hbranch : step { h with pc := .branch, holding := true } (.branch zeroStack) = some { h with
        pc := .writeData, holding := true } := if_neg (Bool.eq_false_iff.mp hm)
    have hall := Runs.run_join hrun ((Runs.run_next hbranch [.write false]).trans
      (Runs.run_step rfl))
    rw [List.append_assoc] at hall
    exact ⟨_,_,hp.passed rfl hall rfl rfl rfl (holds_congr hp.holds rfl rfl)⟩

theorem reach (hc : Cutting s cut) (hs : s ≠ []) (hq : q <+: s)
    (hroom : ∀ q', q' <+: q → (residue newline q').length ≤ bufferSize) :
    ∃ evs h, (∀ ev ∈ evs, ev.failed = false) ∧ Reach cut evs h q (residue newline q) := by
  induction q using List.reverseRecOn with
  | nil =>
    have hstart : chunksOf [] <+: cut := List.nil_prefix
    obtain ⟨data,hcut,hne,hlen⟩ := next_chunk hc hstart (Ne.symm hs)
    have hrecv : step init (.recv data) = some { init with
        pc := .byte, readBuffer := fun k => data[k]?.getD (init.readBuffer k),
        bytesReceived := data.length, i := 0 } := by
      simp [step,init,hne,hlen]
    refine ⟨[.recv data],_,by simp [Event.failed],Runs.run_step hrecv,?_,rfl,?_,holds_nil rfl rfl⟩
    · simpa [chunksOf,Event.chunks,hne] using hcut
    · simp [consumed,received,Event.bytes]
  | append_singleton q x ih =>
    obtain ⟨evs,h,hok,hr⟩ := ih ((List.prefix_append _ _).trans hq)
      fun q' hq' => hroom q' (hq'.trans (List.prefix_append _ _))
    obtain ⟨es,m,hok',hp⟩ := hr.pending hc hq
    have hall : ∀ ev ∈ evs ++ es, ev.failed = false := List.forall_mem_append.mpr ⟨hok,hok'⟩
    by_cases hx : x = newline
    · subst hx
      have hfree := (disciplined_run hp.run hall).free (by rw [hp.pc]; rfl)
      obtain ⟨es',h',hok'',hr'⟩ := hp.served hfree
      exact ⟨_,h',List.forall_mem_append.mpr ⟨hall,hok''⟩,by simpa using hr'⟩
    · have hlast := hroom (q ++ [x]) (List.prefix_refl _)
      rw [residue_snoc,if_neg hx] at hlast ⊢
      rw [List.length_append,List.length_singleton] at hlast
      obtain ⟨h',hr'⟩ := hp.store hx hlast
      exact ⟨_,h',List.forall_mem_append.mpr ⟨hall,by simp [Event.failed]⟩,hr'⟩

theorem reach_pending (hc : Cutting s cut) (hq : q ++ [x] <+: s)
    (hroom : ∀ q', q' <+: q → (residue newline q').length ≤ bufferSize) :
    ∃ evs h, h.holding = false ∧ Pending cut evs h q (residue newline q) x := by
  have hs : s ≠ [] := by
    rintro rfl
    simp at hq
  obtain ⟨evs,h,hok,hr⟩ := reach hc hs ((List.prefix_append _ _).trans hq) hroom
  obtain ⟨es,m,hok',hp⟩ := hr.pending hc hq
  have hd := disciplined_run hp.run (List.forall_mem_append.mpr ⟨hok,hok'⟩)
  exact ⟨_,m,hd.free (by rw [hp.pc]; rfl),hp⟩

end Reaching

section Necessity
variable {cut : List Bytes} {s : Bytes}

theorem runs_fit (hc : Cutting s cut) (hall : ∀ evs h, Runs.run step init evs = some h →
    chunksOf evs <+: cut → InBounds h) {q : Bytes} (hq : q <+: s) :
    ∀ q', q' <+: q → (residue newline q').length ≤ bufferSize := by
  induction q using List.reverseRecOn with
  | nil =>
    intro q' hq'
    rw [List.prefix_nil.mp hq']
    exact Nat.zero_le _
  | append_singleton q x ih =>
    have hprev := ih ((List.prefix_append _ _).trans hq)
    intro q' hq'
    rcases List.prefix_concat_iff.mp hq' with rfl | hq'
    · rw [residue_snoc]
      split_ifs with hx
      · exact Nat.zero_le _
      · obtain ⟨evs,h,-,hp⟩ := reach_pending hc hq hprev
        have hlt := (hall evs h hp.run hp.chunks).store hp.pc hp.inside (by rw [hp.byte]; exact hx)
        rw [index_payload hp.holds] at hlt
        rw [List.length_append,List.length_singleton]
        exact hlt
    · exact hprev q' hq'

theorem residue_extended {a r : Bytes} (hr : newline ∉ r) :
    residue newline (a ++ r) = residue newline a ++ r := by
  rw [residue_append,residue_of_not_mem (by simp [not_mem_residue,hr])]

theorem in_bounds_fits (hc : Cutting s cut) (hall : ∀ evs h, Runs.run step init evs = some h →
    chunksOf evs <+: cut → InBounds h) : Fits s := by
  have hruns {a r : Bytes} (hr : newline ∉ r) (hpre : a ++ r <+: s) :
      (residue newline a).length + r.length ≤ bufferSize := by
    have hle := runs_fit hc hall hpre (a ++ r) (List.prefix_refl _)
    rwa [residue_extended hr,List.length_append] at hle
  constructor
  · rintro r hr ⟨a,b,hab⟩
    have := hruns (a := a) hr ⟨b,hab⟩
    omega
  · rintro r₁ r₂ hr₁ hr₂ ⟨a,b,hab⟩
    have hq : a ++ r₁ ++ [newline] <+: s := ⟨r₂ ++ b,by simp [← hab]⟩
    obtain ⟨evs,h,hfree,hp⟩ := reach_pending hc hq
      (runs_fit hc hall ((List.prefix_append _ _).trans hq))
    obtain ⟨es,m,hm⟩ := hp.refused hfree
    rw [residue_extended hr₁] at hm
    have hfirst := hruns hr₁ ((List.prefix_append _ _).trans hq)
    by_contra hlong
    -- the byte of the second run that finds the buffer filled up
    obtain ⟨n,hn⟩ : ∃ n, (residue newline a ++ r₁).length + n = bufferSize :=
      ⟨bufferSize - (residue newline a ++ r₁).length,by rw [List.length_append]; omega⟩
    rw [List.length_append] at hn
    have hlt : n < r₂.length := by omega
    have htake : newline ∉ r₂.take n := fun hm => hr₂ (List.mem_of_mem_take hm)
    have hnext : a ++ r₁ ++ [newline] ++ r₂.take n ++ [r₂[n]] <+: s := by
      refine ⟨r₂.drop (n + 1) ++ b,?_⟩
      rw [← hab]
      simp only [List.append_assoc,List.cons_append,List.nil_append]
      congr 3
      rw [← List.cons_append,List.getElem_cons_drop,← List.append_assoc,List.take_append_drop]
    obtain ⟨es',m',-,hm'⟩ := hm.stores hc htake ((List.prefix_append _ _).trans hnext)
      (by rw [List.length_take,List.length_append]; omega)
    obtain ⟨es'',m'',-,hm''⟩ := hm'.pending hc hnext
    have hx : r₂[n] ≠ newline := fun he => hr₂ (he ▸ List.getElem_mem hlt)
    have hin := (hall _ m'' hm''.run hm''.chunks).store hm''.pc hm''.inside
      (by rw [hm''.byte]; exact hx)
    rw [index_payload hm''.holds] at hin
    simp only [List.length_append,List.length_take] at hin
    omega
  · rintro r hr ⟨a,b,hab⟩ hlen
    have hq : a ++ r ++ [newline] <+: s := ⟨b,by simp [← hab]⟩
    obtain ⟨evs,h,hfree,hp⟩ := reach_pending hc hq
      (runs_fit hc hall ((List.prefix_append _ _).trans hq))
    have hle := hruns hr ((List.prefix_append _ _).trans hq)
    have hnil : residue newline a = [] := List.length_eq_zero_iff.mp (by omega)
    obtain ⟨m,hrun,hpc,hm⟩ := hp.branch hfree
    have hchunks : chunksOf (evs ++ [.tau,.lock]) <+: cut := by
      simpa [chunksOf,Event.chunks] using hp.chunks
    obtain ⟨k,hk,hzero⟩ := (hall _ m hrun hchunks).terminated hpc
    have hpay := hp.holds.payload
    have hidx := index_payload hp.holds
    rw [residue_extended hr,hnil,List.nil_append] at hpay hidx
    rw [← hpay,Handler.payload,List.mem_map]
    refine ⟨k,List.mem_range.mpr (by omega),?_⟩
    rw [hm] at hzero
    exact hzero

end Necessity

theorem buffer_bounds_iff {s : Bytes} {cut : List Bytes} (hc : Cutting s cut) :
    (∀ evs h, Runs.run step init evs = some h → chunksOf evs <+: cut → InBounds h) ↔ Fits s :=
  ⟨in_bounds_fits hc,fun hfit _ _ hr hcut => fits_in_bounds hfit hr (received_within hc hcut)⟩

theorem buffer_bounds_iff_two_chunks :
    (∀ evs h, Runs.run step init evs = some h → chunksOf evs <+: [[97,10],[98]] → InBounds h) ↔
      Fits [97,10,98] :=
  buffer_bounds_iff ⟨by decide,by decide⟩

def fillingChunks : List Bytes := [List.replicate bufferSize 97,[97]]

theorem unterminated_stream_overruns : ¬ ∀ evs h, Runs.run step init evs = some h →
    chunksOf evs <+: fillingChunks → InBounds h := by
  intro hall
  have hcut : Cutting (List.replicate (bufferSize + 1) 97) fillingChunks := by
    refine ⟨?_,?_⟩
    · simp [fillingChunks,List.replicate_succ']
    · intro data hdata
      rcases List.mem_cons.mp hdata with rfl | hdata
      · exact ⟨List.ne_nil_of_length_pos (by rw [List.length_replicate]; decide),by simp⟩
      · rw [List.mem_singleton.mp hdata]
        exact ⟨by simp,by decide⟩
  have hrun : newline ∉ List.replicate (bufferSize + 1) (97 : UInt8) := by
    rw [List.mem_replicate]
    exact fun h => absurd h.2 (by decide)
  have hle := (in_bounds_fits hcut hall).run _ hrun (List.infix_refl _)
  simp at hle

end ClientHandler
