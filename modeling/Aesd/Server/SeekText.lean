import Aesd.CharDriver.Reporting
import Aesd.Server.DeviceOps
import Aesd.Server.Numerals

namespace ClientHandler
open Kernel Device Scan Delimited CircularBuffer AesdCircularBuffer

def Event.quiet : Event → Bool
  | .recv _ => false
  | _ => true

-- between two packets, with none of the next one buffered
structure Idle (h : Handler) : Prop where
  waiting : h.pc = .recv
  empty : h.writeBufferIndex = 0
  free : h.holding = false

-- the device calls that the packet leads to when it arrives alone in one chunk
def Leads (h : Handler) (packet : Bytes) (op : DeviceOp) : Prop :=
  ∃ evs h', (∀ ev ∈ evs, ev.quiet = true) ∧
    Runs.run step h (.recv (packet ++ [newline]) :: evs) = some h' ∧ op ∈ pending h'

def Names (arg : AesdSeekto) (x y : ℤ) : Prop :=
  (arg.writeCmd.toNat : ℤ) = x ∧ (arg.writeCmdOffset.toNat : ℤ) = y

def Refused (env : CallEnv) (d : Driver) (fPos : ℕ) (arg : AesdSeekto) : Prop :=
  (aesdUnlockedIoctl env d fPos aesdcharIocseekto arg).1 ≠ 0 ∧
    (aesdUnlockedIoctl env d fPos aesdcharIocseekto arg).2 = fPos

def FitsCommand (n : ℤ) : Prop := 0 ≤ n ∧ n < 2^32

instance (n : ℤ) : Decidable (FitsCommand n) := inferInstanceAs (Decidable (0 ≤ n ∧ n < 2^32))

structure SeekFaithful (h : Handler) (packet : Bytes) (d : Driver) (fPos : ℕ) (x y : ℤ) : Prop where
  asks : ∃ op, Leads h packet op
  faithful : ∀ op, Leads h packet op → ∃ arg, op = .seekto arg ∧
    ∀ env, Names arg x y ∨ Refused env d fPos arg
  outside : ¬ (FitsCommand x ∧ FitsCommand y) → ∀ arg, Leads h packet (.seekto arg) →
    ∀ env, (aesdUnlockedIoctl env d fPos aesdcharIocseekto arg).1 ≠ 0

def low (n : ℤ) : ℕ := (n % 2^32).toNat

structure Chunk (packet : Bytes) (h : Handler) : Prop where
  received : h.bytesReceived = packet.length + 1
  buffer : ∀ j, j < packet.length + 1 → (packet ++ [newline])[j]? = some (h.readBuffer j)

structure AsksFor (packet : Bytes) (arg : AesdSeekto) : Prop where
  single : newline ∉ packet
  short : packet.length < bufferSize
  seeks : strstr (cText packet) aesdIoctlSeekto = true
  scanned : ∀ h stack, Chunk packet h → seektoArgs h.readBuffer stack = arg

def Phase (packet : Bytes) (arg : AesdSeekto) (h : Handler) : Prop :=
  match h.pc with
  | .recv => True
  | .byte => h.i ≤ packet.length ∧ Holds h (packet.take h.i) ∨ h.i = packet.length + 1
  | .lock | .branch => h.i = packet.length ∧ Holds h packet
  | .ioctl asked => asked = arg ∧ h.i = packet.length
  | .unlock | .reset | .read | .send _ => h.i = packet.length
  | .writeData | .writeNewline | .exited | .undefined => False

section Arriving
variable {evs : List Event} {h h' : Handler} {ev : Event} {packet : Bytes} {arg : AesdSeekto}

theorem rest_zero (hr : Runs.run step init evs = some h) :
    ∀ k, h.writeBufferIndex ≤ k → h.writeBuffer k = 0 := by
  refine Runs.run_invariant (I := fun h : Handler => ∀ k, h.writeBufferIndex ≤ k → h.writeBuffer k = 0)
    ?_ (fun _ _ => rfl) hr
  intro h ev h' hrest hs
  cases step_move hs with
  | stored =>
    intro k hk
    simp only at hk ⊢
    rw [if_neg (by omega)]
    exact hrest k (by omega)
  | cleared => exact fun _ _ => rfl
  | _ => exact hrest

theorem Idle.holds (hi : Idle h) (hr : Runs.run step init evs = some h) : Holds h [] :=
  ⟨by simp [Handler.payload,hi.empty],rest_zero hr⟩

theorem Chunk.at_newline (hc : Chunk packet h) (hn : newline ∉ packet) {j : ℕ}
    (hj : j ≤ packet.length) : h.readBuffer j = newline ↔ j = packet.length := by
  have hb := hc.buffer j (by omega)
  constructor
  · intro he
    by_contra hne
    rw [List.getElem?_append_left (by omega)] at hb
    exact hn (he ▸ List.mem_of_getElem? hb)
  · rintro rfl
    simpa using hb.symm

theorem Chunk.take_succ (hc : Chunk packet h) {j : ℕ} (hj : j < packet.length) :
    packet.take (j + 1) = packet.take j ++ [h.readBuffer j] := by
  have hb := hc.buffer j (by omega)
  rw [List.getElem?_append_left hj] at hb
  rw [List.take_add_one,hb]
  rfl

theorem Chunk.congr (hc : Chunk packet h) (hn : h'.bytesReceived = h.bytesReceived)
    (hb : h'.readBuffer = h.readBuffer) : Chunk packet h' :=
  ⟨hn.trans hc.received,by rw [hb]; exact hc.buffer⟩

theorem phase_step (ha : AsksFor packet arg) (hc : Chunk packet h) (hp : Phase packet arg h)
    (hq : ev.quiet = true) (hs : step h ev = some h') : Chunk packet h' ∧ Phase packet arg h' := by
  cases step_move hs with
  | closed | received => cases hq
  | drained hpc => exact ⟨hc.congr rfl rfl,trivial⟩
  | completed hpc hi hb =>
    rw [Phase,hpc] at hp
    rcases hp with ⟨hle,hh⟩ | hend
    · have hlen := (hc.at_newline ha.single hle).mp hb
      rw [hlen,List.take_length] at hh
      exact ⟨hc.congr rfl rfl,hlen,holds_congr hh rfl rfl⟩
    · rw [hc.received] at hi
      omega
  | stored hpc hi hb hx =>
    rw [Phase,hpc] at hp
    rw [hc.received] at hi
    rcases hp with ⟨hle,hh⟩ | hend
    · have hlt : h.i < packet.length :=
        Nat.lt_of_le_of_ne hle fun he => hb ((hc.at_newline ha.single hle).mpr he)
      refine ⟨hc.congr rfl rfl,Or.inl ⟨hlt,?_⟩⟩
      rw [hc.take_succ hlt]
      exact holds_stored hh _ rfl rfl
    · omega
  | overran hpc hi hb hx =>
    rw [Phase,hpc] at hp
    rw [hc.received] at hi
    rcases hp with ⟨hle,hh⟩ | hend
    · have hlen := index_payload hh
      rw [List.length_take] at hlen
      have hshort := ha.short
      omega
    · omega
  | locked hpc =>
    rw [Phase,hpc] at hp
    exact ⟨hc.congr rfl rfl,hp.1,holds_congr hp.2 rfl rfl⟩
  | @seek hpc stack hm =>
    rw [Phase,hpc] at hp
    exact ⟨hc.congr rfl rfl,ha.scanned h stack hc,hp.1⟩
  | @data hpc stack hm =>
    rw [Phase,hpc] at hp
    rw [packet_text hp.2 ha.short stack,ha.seeks] at hm
    cases hm
  | sought hpc =>
    rw [Phase,hpc] at hp
    exact ⟨hc.congr rfl rfl,hp.2⟩
  | seekFailed hpc =>
    rw [Phase,hpc] at hp
    exact ⟨hc.congr rfl rfl,Or.inr (congrArg (· + 1) hp.2)⟩
  | wroteData hpc | dataFailed hpc | wroteNewline hpc | newlineFailed hpc =>
    rw [Phase,hpc] at hp
    cases hp
  | unlocked hpc | cleared hpc | fetched hpc | sent hpc =>
    rw [Phase,hpc] at hp
    exact ⟨hc.congr rfl rfl,hp⟩
  | finished hpc =>
    rw [Phase,hpc] at hp
    exact ⟨hc.congr rfl rfl,Or.inr (congrArg (· + 1) hp)⟩

theorem phase_run (ha : AsksFor packet arg) (hc : Chunk packet h) (hp : Phase packet arg h)
    (hq : ∀ ev ∈ evs, ev.quiet = true) (hr : Runs.run step h evs = some h') :
    Chunk packet h' ∧ Phase packet arg h' := by
  refine Runs.guarded_induction (P := fun _ h => Chunk packet h ∧ Phase packet arg h) ⟨hc,hp⟩ ?_ hr
    ((Runs.along_forall_iff hr).mpr hq)
  intro _ ev m m' _ hquiet hm hs
  exact phase_step ha hm.1 hm.2 hquiet hs

theorem pending_seek (hp : Phase packet arg h) : ∀ op ∈ pending h, op = .seekto arg := by
  intro op hop
  rw [pending] at hop
  split at hop
  · rename_i asked hpc
    rw [Phase,hpc] at hp
    rw [List.mem_singleton.mp hop,hp.1]
  · rename_i hpc
    rw [Phase,hpc] at hp
    cases hp
  · rename_i hpc
    rw [Phase,hpc] at hp
    cases hp
  · cases hop

theorem command_received (ha : AsksFor packet arg) (hi : Idle h)
    (hr : Runs.run step init evs = some h) : ∃ h', step h (.recv (packet ++ [newline])) = some h' ∧
      Chunk packet h' ∧ h'.pc = .byte ∧ h'.i = 0 ∧ h'.holding = false ∧ Holds h' [] := by
  have hlen : (packet ++ [newline]).length ≤ bufferSize := by
    rw [List.length_append]
    exact ha.short
  refine ⟨{ h with
    pc := .byte, readBuffer := fun k => (packet ++ [newline])[k]?.getD (h.readBuffer k),
    bytesReceived := (packet ++ [newline]).length, i := 0 },?_,⟨by simp,fun j hj => ?_⟩,rfl,rfl,
    hi.free,holds_congr (hi.holds hr) rfl rfl⟩
  · simp only [step,hi.waiting,if_pos hlen]
    rw [if_neg (by simp)]
  · have hlt : j < (packet ++ [newline]).length := by simpa using hj
    simp only [List.getElem?_eq_getElem hlt,Option.getD_some]

theorem scan_packet (ha : AsksFor packet arg) (hc : Chunk packet h) (hpc : h.pc = .byte)
    (hi : h.i = 0) (hf : h.holding = false) (hh : Holds h []) {n : ℕ} (hn : n ≤ packet.length) :
    ∃ h', Runs.run step h (List.replicate n .tau) = some h' ∧ Chunk packet h' ∧ h'.pc = .byte ∧
      h'.i = n ∧ h'.holding = false ∧ Holds h' (packet.take n) := by
  induction n with
  | zero => exact ⟨h,rfl,hc,hpc,hi,hf,hh⟩
  | succ n ih =>
    obtain ⟨m,hr,hcm,hpm,rfl,hfm,hhm⟩ := ih (by omega)
    have hx : m.writeBufferIndex = m.i := by
      rw [index_payload hhm,List.length_take]
      omega
    have hshort := ha.short
    have hbyte : m.readBuffer m.i ≠ newline := fun he => by
      have := (hcm.at_newline ha.single (by omega)).mp he
      omega
    refine ⟨{ m with
      pc := .byte, i := m.i + 1,
      writeBuffer := fun k => if k = m.writeBufferIndex then m.readBuffer m.i else m.writeBuffer k,
      writeBufferIndex := m.writeBufferIndex + 1 },?_,hcm.congr rfl rfl,rfl,rfl,hfm,?_⟩
    · rw [List.replicate_succ']
      refine Runs.run_join hr (Runs.run_step ?_)
      simp only [step,hpm]
      rw [if_pos (by rw [hcm.received]; omega),if_neg hbyte,if_pos (by omega)]
    · rw [hcm.take_succ (by omega)]
      exact holds_stored hhm _ rfl rfl

theorem seek_asked (ha : AsksFor packet arg) (hi : Idle h)
    (hr : Runs.run step init evs = some h) : Leads h packet (.seekto arg) := by
  obtain ⟨m,hm,hc,hpc,hi0,hf,hh⟩ := command_received ha hi hr
  obtain ⟨b,hb,hcb,hpb,hib,hfb,hhb⟩ := scan_packet ha hc hpc hi0 hf hh (Nat.le_refl _)
  rw [List.take_length] at hhb
  have hnl : b.readBuffer b.i = newline := (hcb.at_newline ha.single (by omega)).mpr hib
  have hdone : step b .tau = some { b with pc := .lock } := by
    simp only [step,hpb]
    rw [if_pos (by rw [hcb.received]; omega),if_pos hnl]
  have hlock : step { b with pc := .lock } .lock = some { b with pc := .branch, holding := true } := by
    simp [step,hfb]
  have htext : { b with pc := .branch, holding := true }.packetText ⟨0,0,[],[]⟩ = cText packet :=
    packet_text (holds_congr hhb rfl rfl) ha.short _
  have hargs := ha.scanned b ⟨0,0,[],[]⟩ hcb
  have hbranch : step { b with pc := .branch, holding := true } (.branch ⟨0,0,[],[]⟩) =
      some { b with pc := .ioctl arg, holding := true } := by
    simp only [step,htext,ha.seeks,if_true,hargs]
  refine ⟨List.replicate packet.length .tau ++ [.tau,.lock,.branch ⟨0,0,[],[]⟩],
    { b with pc := .ioctl arg, holding := true },?_,?_,?_⟩
  · intro ev hev
    rcases List.mem_append.mp hev with hev | hev
    · rw [List.eq_of_mem_replicate hev]
      rfl
    · simp only [List.mem_cons,List.not_mem_nil,or_false] at hev
      rcases hev with rfl | rfl | rfl <;> rfl
  · rw [Runs.run_next hm]
    refine Runs.run_join hb ?_
    rw [Runs.run_next hdone,Runs.run_next hlock,Runs.run_next hbranch]
    rfl
  · simp [pending]

theorem leads_iff (ha : AsksFor packet arg) (hi : Idle h) (hr : Runs.run step init evs = some h)
    (op : DeviceOp) : Leads h packet op ↔ op = .seekto arg := by
  constructor
  · rintro ⟨es,h',hq,hrun,hop⟩
    obtain ⟨m,hm,hc,hpc,hi0,-,hh⟩ := command_received ha hi hr
    rw [Runs.run_next hm] at hrun
    have hp : Phase packet arg m := by
      rw [Phase,hpc]
      exact Or.inl ⟨by omega,by rw [hi0]; exact hh⟩
    exact pending_seek (phase_run ha hc hp hq hrun).2 op hop
  · rintro rfl
    exact seek_asked ha hi hr

end Arriving

section Commands
variable {evs : List Event} {h : Handler} {tx ty : Bytes} {x y : ℤ}

theorem seek_command_asks (hx : Numeral tx x) (hy : Numeral ty y) (hfx : FitsLong x)
    (hfy : FitsLong y) (hlen : (seekCommand tx ty).length < bufferSize) :
    AsksFor (seekCommand tx ty) ⟨(toSize x).toUInt32,(toSize y).toUInt32⟩ := by
  have hbytes := seek_command_bytes hx hy
  refine ⟨fun hm => (hbytes _ hm).2 rfl,hlen,?_,fun h stack hc => ?_⟩
  · have htext : cText (seekCommand tx ty) = seekCommand tx ty :=
      List.takeWhile_eq_self_iff.mpr fun c hm => by simpa using (hbytes c hm).1
    rw [htext]
    exact strstr_prefix (List.prefix_append _ _)
  · have hnonzero : ∀ c ∈ seekCommand tx ty ++ [newline], c ≠ 0 :=
      List.forall_mem_append.mpr
        ⟨fun c hm => (hbytes c hm).1,List.forall_mem_singleton.mpr (by decide)⟩
    have hstring := c_string_append (n := bufferSize) (k := 0) stack.afterRead
      (fun j hj => by rw [Nat.zero_add]; exact hc.buffer j (by simpa using hj)) hnonzero
      (by rw [List.length_append]; exact hlen)
    have hend (rest : Bytes) : Ends ([newline] ++ rest) := by
      intro c hm
      cases hm
      decide
    rw [seektoArgs,hstring,List.append_assoc]
    simp only [sscanf_seek_command hx hy (hend _),clamp_long_fits hfx,clamp_long_fits hfy]
    rfl

theorem seek_command_exists (hfx : FitsLong x) (hfy : FitsLong y) : ∃ tx ty, Numeral tx x ∧
    Numeral ty y ∧ (seekCommand tx ty ++ [newline]).length ≤ bufferSize := by
  obtain ⟨tx,hx,hlx⟩ := numeral_exists hfx
  obtain ⟨ty,hy,hly⟩ := numeral_exists hfy
  refine ⟨tx,ty,hx,hy,?_⟩
  simp only [seekCommand,aesdIoctlSeekto,ascii,List.length_append,List.length_map,List.length_cons,
    List.length_nil,bufferSize]
  omega

theorem to_size_low (n : ℤ) : (toSize n).toUInt32.toNat = low n := by
  rw [UInt64.toNat_toUInt32,toSize,low,UInt64.toNat_ofNat']
  omega

theorem names_iff : Names ⟨(toSize x).toUInt32,(toSize y).toUInt32⟩ x y ↔
    FitsCommand x ∧ FitsCommand y := by
  have hone (n : ℤ) : (((toSize n).toUInt32.toNat : ℕ) : ℤ) = n ↔ FitsCommand n := by
    rw [to_size_low,low,FitsCommand]
    omega
  exact and_congr (hone x) (hone y)

theorem refused_iff (d : Driver) (fPos : ℕ) (arg : AesdSeekto) :
    (∀ env, Refused env d fPos arg) ↔ ¬ (arg.writeCmd.toNat < 10 ∧
      arg.writeCmdOffset.toNat < (d.dev.circularBuffer.slot arg.writeCmd.toNat).size) := by
  constructor
  · rintro hall ⟨hw,ho⟩
    have hr := (hall calm).1
    rw [seek_lands rfl hw ho] at hr
    exact hr rfl
  · intro hn env
    cases hu : env.uncopied with
    | true => simp [Refused,aesdUnlockedIoctl,hu,efault]
    | false => simp [Refused,seek_refused hu hn,einval]

theorem seek_faithful_iff (hr : Runs.run step init evs = some h) (hi : Idle h)
    (hx : Numeral tx x) (hy : Numeral ty y) (hfx : FitsLong x) (hfy : FitsLong y)
    (hlen : (seekCommand tx ty ++ [newline]).length ≤ bufferSize) (d : Driver) (fPos : ℕ) :
    SeekFaithful h (seekCommand tx ty) d fPos x y ↔
      FitsCommand x ∧ FitsCommand y ∨
        ¬ (low x < 10 ∧ low y < (d.dev.circularBuffer.slot (low x)).size) := by
  rw [List.length_append] at hlen
  have hleads := leads_iff (seek_command_asks hx hy hfx hfy hlen) hi hr
  have hrefused := refused_iff d fPos ⟨(toSize x).toUInt32,(toSize y).toUInt32⟩
  simp only [to_size_low] at hrefused
  rw [← hrefused,← names_iff]
  constructor
  · intro hs
    obtain ⟨arg,harg,hall⟩ := hs.faithful _ ((hleads _).mpr rfl)
    cases harg
    by_cases hn : Names ⟨(toSize x).toUInt32,(toSize y).toUInt32⟩ x y
    · exact Or.inl hn
    · exact Or.inr fun env => (hall env).resolve_left hn
  · intro hcond
    refine ⟨⟨_,(hleads _).mpr rfl⟩,fun op hop => ?_,fun hout arg harg env => ?_⟩
    · rw [hleads] at hop
      exact ⟨_,hop,fun env => hcond.imp_right fun hall => hall env⟩
    · rw [hleads] at harg
      cases harg
      rw [← names_iff] at hout
      exact (hcond.resolve_left hout env).1

end Commands

def digitOne : Bytes := ascii ['1']
def digitZero : Bytes := ascii ['0']
def pastUInt32 : Bytes := ascii ['4','2','9','4','9','6','7','2','9','6']

theorem idle_init : Idle init := ⟨rfl,rfl,rfl⟩

theorem numeral_one : Numeral digitOne 1 := Numeral.unsigned ⟨by decide,List.all_eq_true.mp (by decide)⟩

theorem numeral_zero : Numeral digitZero 0 := Numeral.unsigned ⟨by decide,List.all_eq_true.mp (by decide)⟩

theorem numeral_past : Numeral pastUInt32 4294967296 :=
  Numeral.unsigned ⟨by decide,List.all_eq_true.mp (by decide)⟩

theorem seek_faithful_iff_of_one_zero :
    SeekFaithful init (seekCommand digitOne digitZero) aesdInitModule 0 1 0 ↔
      FitsCommand 1 ∧ FitsCommand 0 ∨
        ¬ (low 1 < 10 ∧ low 0 < (aesdInitModule.dev.circularBuffer.slot (low 1)).size) :=
  seek_faithful_iff (Runs.run_nil init) idle_init numeral_one numeral_zero (by decide) (by decide)
    (by decide) aesdInitModule 0

theorem seek_wraps_to_command_zero :
    ∃ d, Runs.run writeStep aesdInitModule [⟨calm,[97,10]⟩] = some d ∧
      Leads init (seekCommand pastUInt32 digitZero) (.seekto ⟨0,0⟩) ∧
      aesdUnlockedIoctl calm d 2 aesdcharIocseekto ⟨0,0⟩ = (0,0) ∧
      ¬ SeekFaithful init (seekCommand pastUInt32 digitZero) d 2 4294967296 0 := by
  obtain ⟨d,hd,hresult⟩ := Option.map_eq_some_iff.mp
    (show (Runs.run writeStep aesdInitModule [⟨calm,[97,10]⟩]).map (fun d =>
      aesdUnlockedIoctl calm d 2 aesdcharIocseekto ⟨0,0⟩) = some (0,0) by decide)
  have hleads : Leads init (seekCommand pastUInt32 digitZero) (.seekto ⟨0,0⟩) :=
    seek_asked (seek_command_asks numeral_past numeral_zero (by decide) (by decide) (by decide))
      idle_init (Runs.run_nil init)
  refine ⟨d,hd,hleads,hresult,fun hs => ?_⟩
  have hne := hs.outside (by decide) ⟨0,0⟩ hleads calm
  rw [hresult] at hne
  exact hne rfl

end ClientHandler
