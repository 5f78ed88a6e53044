import Aesd.CharDriver.WriteRuns

namespace Device
open BlockHeap CircularBuffer AesdCircularBuffer Kernel Cutting

structure RingHolds (d : Driver) (held : List (ℕ × Bytes)) : Prop where
  wf : Wf d.dev.circularBuffer
  entries : content d.dev.circularBuffer = held.map toEntry
  blocks : ∀ x ∈ held, d.heap.block x.1 = some x.2

def contentBytes (d : Driver) : Bytes := ((commands d).map (·.getD [])).flatten

structure Served (env : CallEnv) : Prop where
  locked : env.interrupted = false
  copied : env.uncopied = false

section Reads
variable {env : CallEnv} {d : Driver} {held : List (ℕ × Bytes)}

theorem Shows.ring {L : Logical} (h : Shows d L) :
    ∃ held, RingHolds d held ∧ held.map Prod.snd = L.commands := by
  cases h with
  | intact h =>
    exact ⟨_,⟨h.wf,h.entries,fun x hx => h.heap.read (List.mem_append_right _ hx)⟩,rfl⟩
  | stale h => exact ⟨_,⟨h.wf,h.entries,fun x hx => h.heap.read hx⟩,rfl⟩

theorem Shows.content_bytes {L : Logical} (h : Shows d L) : contentBytes d = L.commands.flatten := by
  simp [contentBytes,h.commands]

theorem RingHolds.content_bytes (h : RingHolds d held) :
    contentBytes d = (held.map Prod.snd).flatten := by
  have hc : commands d = (held.map Prod.snd).map some := by
    rw [commands,h.entries,List.map_map,List.map_map]
    exact List.map_congr_left fun x hx => by simp [entryBytes,toEntry,h.blocks x hx]
  rw [contentBytes,hc]
  simp [List.map_map,Function.comp_def]

theorem RingHolds.slot (h : RingHolds d held) {k : ℕ} {x : ℕ × Bytes} (hx : held[k]? = some x) :
    d.dev.circularBuffer.slot ((d.dev.circularBuffer.outOffs + k) % 10) = toEntry x := by
  have hk : k < count d.dev.circularBuffer := by
    rw [← content_length,h.entries,List.length_map]
    exact (List.getElem?_eq_some_iff.mp hx).1
  have hc : (content d.dev.circularBuffer)[k]? = some (toEntry x) := by
    rw [h.entries,List.getElem?_map,hx]
    rfl
  rw [content,window_getElem? _ hk] at hc
  exact Option.some.inj hc

theorem RingHolds.find (h : RingHolds d held) (p : ℕ) :
    aesdCircularBufferFindEntryOffsetForFpos d.dev.circularBuffer p =
      (Concat.locate ((held.map Prod.snd).map List.length) p).map
        fun x => ((d.dev.circularBuffer.outOffs + x.1) % 10,x.2) := by
  rw [find_entry_locate h.wf,h.entries,List.map_map,List.map_map]
  rfl

theorem find_past_end (h : RingHolds d held) {p : ℕ} (hp : (contentBytes d).length ≤ p) :
    aesdCircularBufferFindEntryOffsetForFpos d.dev.circularBuffer p = none := by
  rw [h.find,Option.map_eq_none_iff,Concat.locate_eq_none,← List.length_flatten,← h.content_bytes]
  exact hp

theorem find_inside (h : RingHolds d held) {p : ℕ} (hp : p < (contentBytes d).length) :
    ∃ x ∈ held, ∃ index r tail, r < x.2.length ∧
      aesdCircularBufferFindEntryOffsetForFpos d.dev.circularBuffer p = some (index,r) ∧
      d.dev.circularBuffer.slot index = toEntry x ∧
      (contentBytes d).drop p = x.2.drop r ++ tail := by
  have hsome : Concat.locate ((held.map Prod.snd).map List.length) p ≠ none := by
    rw [ne_eq,Concat.locate_eq_none,← List.length_flatten,← h.content_bytes]
    omega
  obtain ⟨⟨k,r⟩,hloc⟩ := Option.ne_none_iff_exists'.mp hsome
  obtain ⟨b,hb,hr,hdrop⟩ := Concat.drop_flatten hloc
  rw [List.getElem?_map,Option.map_eq_some_iff] at hb
  obtain ⟨x,hx,rfl⟩ := hb
  rw [← h.content_bytes] at hdrop
  exact ⟨x,List.mem_of_getElem? hx,_,r,_,hr,by rw [h.find,hloc]; rfl,h.slot hx,hdrop⟩

inductive ReadOutcome (env : CallEnv) (bytes : Bytes) (count p : ℕ) : ℤ × Bytes × ℕ → Prop
  | interrupted (hi : env.interrupted = true) : ReadOutcome env bytes count p (-eintr,[],p)
  | finished (hi : env.interrupted = false) (hp : bytes.length ≤ p) :
      ReadOutcome env bytes count p (0,[],p)
  | faulted (hi : env.interrupted = false) (hu : env.uncopied = true) (hp : p < bytes.length) :
      ReadOutcome env bytes count p (-efault,[],p)
  | delivered (hs : Served env) {n : ℕ} (hn : 0 < n) (hc : n ≤ count) (hp : p + n ≤ bytes.length) :
      ReadOutcome env bytes count p (n,(bytes.drop p).take n,p + n)

theorem aesd_read_spec (env : CallEnv) (h : RingHolds d held) {count : ℕ} (hc : 0 < count) (p : ℕ) :
    ∃ result, aesdRead env d count p = .ok result ∧
      ReadOutcome env (contentBytes d) count p result := by
  have hne : count ≠ 0 := by omega
  cases hi : env.interrupted with
  | true => exact ⟨_,by simp only [aesdRead,if_neg hne,hi,if_true]; rfl,.interrupted hi⟩
  | false =>
    by_cases hp : (contentBytes d).length ≤ p
    · exact ⟨_,by simp only [aesdRead,if_neg hne,hi,Bool.false_eq_true,if_false,find_past_end h hp]; rfl,
        .finished hi hp⟩
    · have hlt : p < (contentBytes d).length := by omega
      obtain ⟨x,hx,index,r,tail,hr,hfind,hslot,hdrop⟩ := find_inside h hlt
      have hblock := h.blocks x hx
      have hlen := congrArg List.length hdrop
      simp only [List.length_drop,List.length_append] at hlen
      have hfit : r + min count (x.2.length - r) ≤ x.2.length := by omega
      have hpos : min count (x.2.length - r) ≠ 0 := by omega
      cases hu : env.uncopied with
      | true =>
        refine ⟨_,?_,.faulted hi hu hlt⟩
        simp [aesdRead,hne,hi,hfind,hslot,toEntry,load,hblock,hu]
        omega
      | false =>
        refine ⟨_,?_,.delivered ⟨hi,hu⟩ (n := min count (x.2.length - r)) (by omega) (by omega)
          (by omega)⟩
        rw [hdrop,List.take_append_of_le_length (by rw [List.length_drop]; omega)]
        simp [aesdRead,hne,hi,hfind,hslot,toEntry,load,hblock,hu,extent_inside hfit]

theorem read_returns (h : RingHolds d held) {p count p' : ℕ} {r : ℤ} {out : Bytes}
    (hc : 0 < count) (hr : 0 ≤ r) (hread : aesdRead env d count p = .ok (r,out,p')) :
    r = out.length ∧ out = ((contentBytes d).drop p).take out.length ∧ p' = p + out.length ∧
      (out = [] ↔ (contentBytes d).length ≤ p) := by
  obtain ⟨result,hok,hout⟩ := aesd_read_spec env h hc p
  rw [hok] at hread
  cases hread
  cases hout with
  | interrupted => simp [eintr] at hr
  | finished hi hp => simp [hp]
  | faulted => simp [efault] at hr
  | @delivered _ n hn hcount hp =>
    have hlen : (((contentBytes d).drop p).take n).length = n := by
      rw [List.length_take,List.length_drop]
      omega
    refine ⟨by rw [hlen],by rw [hlen],by rw [hlen],?_⟩
    constructor
    · intro he
      rw [he] at hlen
      simp at hlen
      omega
    · intro hle
      omega

inductive Drains (env : CallEnv) (d : Driver) (count : ℕ) : ℕ → Bytes → Prop
  | done {p : ℕ} (h : aesdRead env d count p = .ok (0,[],p)) : Drains env d count p []
  | more {p p' : ℕ} {r : ℤ} {out rest : Bytes} (h : aesdRead env d count p = .ok (r,out,p'))
      (hr : 0 < r) (ht : Drains env d count p' rest) : Drains env d count p (out ++ rest)

theorem drains_iff (h : RingHolds d held) (hs : Served env) {count : ℕ} (hc : 0 < count) (p : ℕ)
    (out : Bytes) : Drains env d count p out ↔ out = (contentBytes d).drop p := by
  constructor
  · intro hd
    induction hd with
    | @done p hread =>
      obtain ⟨-,-,-,hend⟩ := read_returns h hc (by omega) hread
      exact (List.drop_eq_nil_of_le (hend.mp rfl)).symm
    | @more p p' r out rest hread hr _ ih =>
      obtain ⟨-,hout,rfl,-⟩ := read_returns h hc (by omega) hread
      calc
        out ++ rest = ((contentBytes d).drop p).take out.length ++
            ((contentBytes d).drop p).drop out.length := by rw [← hout,ih,List.drop_drop]
        _ = (contentBytes d).drop p := List.take_append_drop _ _
  · rintro rfl
    obtain ⟨k,hk⟩ : ∃ k, (contentBytes d).length - p ≤ k := ⟨_,Nat.le_refl _⟩
    induction k generalizing p with
    | zero =>
      obtain ⟨result,hok,hout⟩ := aesd_read_spec env h hc p
      rw [List.drop_eq_nil_of_le (by omega)]
      cases hout with
      | interrupted hi => simp [hs.locked] at hi
      | finished => exact .done hok
      | faulted _ hu => simp [hs.copied] at hu
      | delivered _ hn _ hp => omega
    | succ k ih =>
      obtain ⟨result,hok,hout⟩ := aesd_read_spec env h hc p
      cases hout with
      | interrupted hi => simp [hs.locked] at hi
      | finished _ hp =>
        rw [List.drop_eq_nil_of_le hp]
        exact .done hok
      | faulted _ hu => simp [hs.copied] at hu
      | @delivered _ n hn _ hp =>
        have hrest := ih (p + n) (by omega)
        rw [← List.drop_drop] at hrest
        rw [← List.take_append_drop n ((contentBytes d).drop p)]
        exact .more hok (by omega) hrest

end Reads

end Device
