import Aesd.Library.LinkedList
import Aesd.Library.Loops
import Aesd.Server.ReapScan

namespace ThreadManager
open Kernel LinkedList Loops

structure Node where
  entry : ThreadEntry
  next : Option ℕ
  deriving DecidableEq, Repr

inductive ReapEffect where
  | join (threadId : ℕ)
  | close (fd : ℕ)
  | free (entry : ℕ)
  deriving DecidableEq, Repr

-- slh_first and the nodes in memory, a freed one without a value; freedReads lists the freed nodes
-- of which a field has been read
structure Chain where
  first : Option ℕ
  nodes : ℕ → Option Node
  effects : List ReapEffect
  freedReads : List ℕ

namespace Chain

def start (first : Option ℕ) (nodes : ℕ → Option Node) : Chain := ⟨first,nodes,[],[]⟩

def get (freed : ℕ → Node) (c : Chain) (p : ℕ) : Node := (c.nodes p).getD (freed p)

def reading (c : Chain) (p : ℕ) : Chain :=
  if (c.nodes p).isSome then c else { c with freedReads := c.freedReads ++ [p] }

def emit (c : Chain) (e : ReapEffect) : Chain := { c with effects := c.effects ++ [e] }

def setFirst (c : Chain) (first : Option ℕ) : Chain := { c with first := first }

def setNext (c : Chain) (p : ℕ) (next : Option ℕ) : Chain :=
  { c with nodes := Function.update c.nodes p ((c.nodes p).map fun n => { n with next := next }) }

def threadEntryFree (c : Chain) (entry : ℕ) : Chain :=
  Chain.emit { c with nodes := Function.update c.nodes entry none } (.free entry)

def nextOf (c : Chain) (p : ℕ) : Option (Option ℕ) := (c.nodes p).map (·.next)

def entryOf (c : Chain) (p : ℕ) : Option ThreadEntry := (c.nodes p).map (·.entry)

def idOf (c : Chain) (p : ℕ) : Option ℕ := (c.entryOf p).map (·.threadId)

def complete (c : Chain) (p : ℕ) : Bool := (c.entryOf p).any (·.isComplete)

def reaping (c : Chain) (p : ℕ) : List ReapEffect :=
  (c.entryOf p).elim [] fun e => [.join e.threadId,.close e.tmpdataFd,.free p]

end Chain

-- search, unlink, walk and release are thread_entry_remove, walk being the loop of SLIST_REMOVE
inductive ReapPc where
  | test (currentEntry : Option ℕ)
  | join (currentEntry : ℕ)
  | closeData (currentEntry : ℕ)
  | remove (currentEntry : ℕ)
  | search (currentEntry threadId : ℕ) (found : Option ℕ)
  | unlink (currentEntry found : ℕ)
  | walk (currentEntry found : ℕ) (curelm : Option ℕ)
  | release (currentEntry found : ℕ)
  | advance (currentEntry : ℕ)
  deriving DecidableEq, Repr

-- freed is what a read of a freed node gives; none: the walk went through NULL
def reapBody (freed : ℕ → Node) : ReapPc × Chain → Option Chain ⊕ (ReapPc × Chain)
  | (.test none,c) => .inl (some c)
  | (.test (some p),c) =>
      .inr (if (c.get freed p).entry.isComplete then .join p else .advance p,c.reading p)
  | (.join p,c) => .inr (.closeData p,(c.reading p).emit (.join (c.get freed p).entry.threadId))
  | (.closeData p,c) => .inr (.remove p,(c.reading p).emit (.close (c.get freed p).entry.tmpdataFd))
  | (.remove p,c) => .inr (.search p (c.get freed p).entry.threadId c.first,c.reading p)
  | (.search p _ none,c) => .inr (.advance p,c)
  | (.search p threadId (some q),c) =>
      .inr (if (c.get freed q).entry.threadId = threadId then .unlink p q
        else .search p threadId (c.get freed q).next,c.reading q)
  | (.unlink p q,c) =>
      if c.first = some q then .inr (.release p q,(c.reading q).setFirst (c.get freed q).next)
      else .inr (.walk p q c.first,c)
  | (.walk _ _ none,_) => .inl none
  | (.walk p q (some curelm),c) =>
      if (c.get freed curelm).next = some q then
        .inr (.release p q,((c.reading curelm).reading q).setNext curelm (c.get freed q).next)
      else .inr (.walk p q (c.get freed curelm).next,c.reading curelm)
  | (.release p q,c) => .inr (.advance p,(c.reading q).threadEntryFree q)
  | (.advance p,c) => .inr (.test (c.get freed p).next,c.reading p)

structure ReapExact (c : Chain) (ps : List ℕ) (c' : Chain) : Prop where
  reaped : c'.effects = c.effects ++ (ps.filter c.complete).flatMap c.reaping
  left : Segment c'.nextOf c'.first (ps.filter fun p => !c.complete p) none
  kept : ∀ p ∈ ps, c.complete p = false → c'.entryOf p = c.entryOf p
  gone : ∀ p ∈ ps, c.complete p = true → c'.nodes p = none
  fresh : c'.freedReads = []

section Steps
variable {freed : ℕ → Node} {c c' : Chain} {p q : ℕ} {n : Node}

theorem get_live (h : c.nodes p = some n) : c.get freed p = n := by simp [Chain.get,h]

theorem reading_live (h : c.nodes p = some n) : c.reading p = c := by simp [Chain.reading,h]

theorem reading_freed (h : c.nodes p = none) :
    c.reading p = { c with freedReads := c.freedReads ++ [p] } := by simp [Chain.reading,h]

theorem next_live (h : c.nodes p = some n) : c.nextOf p = some n.next := by simp [Chain.nextOf,h]

theorem entry_live (h : c.nodes p = some n) : c.entryOf p = some n.entry := by
  simp [Chain.entryOf,h]

theorem complete_live (h : c.nodes p = some n) : c.complete p = n.entry.isComplete := by
  simp [Chain.complete,entry_live h]

theorem id_live (h : c.nodes p = some n) : c.idOf p = some n.entry.threadId := by
  simp [Chain.idOf,entry_live h]

theorem link_live {link : Option ℕ} (h : c.nextOf p = some link) :
    ∃ n, c.nodes p = some n ∧ n.next = link := Option.map_eq_some_iff.mp h

theorem reading_keeps (c : Chain) (p : ℕ) : c.freedReads ⊆ (c.reading p).freedReads := by
  rw [Chain.reading]
  split_ifs
  · exact List.Subset.refl _
  · exact List.subset_append_left _ _

theorem reap_body_outcome (freed : ℕ → Node) (pc : ReapPc) (c : Chain) :
    Sum.elim (fun r => ∀ c', r = some c' → c' = c) (fun s => c.freedReads ⊆ s.2.freedReads)
      (reapBody freed (pc,c)) := by
  cases pc with
  | test currentEntry =>
    cases currentEntry with
    | none => exact fun _ h => (Option.some.inj h).symm
    | some p => exact reading_keeps c p
  | join p | closeData p | remove p | release _ p | advance p => exact reading_keeps c p
  | search p threadId found =>
    cases found with
    | none => exact List.Subset.refl _
    | some q => exact reading_keeps c q
  | unlink p q =>
    rw [reapBody]
    split_ifs
    · exact reading_keeps c q
    · exact List.Subset.refl _
  | walk p q curelm =>
    cases curelm with
    | none => exact fun _ h => by cases h
    | some curelm =>
      rw [reapBody]
      split_ifs
      · exact List.Subset.trans (reading_keeps c curelm) (reading_keeps _ q)
      · exact reading_keeps c curelm

theorem reap_returns_keeps {pc : ReapPc} (h : p ∈ c.freedReads)
    (hr : Returns (reapBody freed) (pc,c) (some c')) : p ∈ c'.freedReads := by
  refine returns_invariant (I := fun s : ReapPc × Chain => p ∈ s.2.freedReads)
    (Q := fun r => ∀ c, r = some c → p ∈ c.freedReads) ?_ ?_ h hr c' rfl
  · rintro ⟨pc,c⟩ s hs hb
    have hout := reap_body_outcome freed pc c
    rw [hb] at hout
    exact hout hs
  · rintro ⟨pc,c⟩ r hs hb c' hr
    have hout := reap_body_outcome freed pc c
    rw [hb] at hout
    rw [hout c' hr]
    exact hs

end Steps

section Searching
variable {freed : ℕ → Node} {c c' : Chain} {current p r id : ℕ} {n : Node} {first last : Option ℕ}
  {ps kept : List ℕ}

theorem test_passes (hn : c.nodes p = some n) (hc : n.entry.isComplete = false) :
    Head (reapBody freed) (.test (some p),c) (.test n.next,c) := by
  have htest : reapBody freed (.test (some p),c) = .inr (.advance p,c) := by
    simp [reapBody,get_live hn,reading_live hn,hc]
  have hadvance : reapBody freed (.advance p,c) = .inr (.test n.next,c) := by
    simp [reapBody,get_live hn,reading_live hn]
  exact .next (.next .start htest) hadvance

theorem tests_pass (hs : Segment c.nextOf first ps last) (hc : ∀ p ∈ ps, c.complete p = false) :
    Head (reapBody freed) (.test first,c) (.test last,c) := by
  induction ps generalizing first with
  | nil =>
    cases hs
    exact .start
  | cons p ps ih =>
    obtain ⟨rfl,link,hlink,hrest⟩ := hs
    obtain ⟨n,hn,rfl⟩ := link_live hlink
    have hpass := hc p (by simp)
    rw [complete_live hn] at hpass
    exact (test_passes hn hpass).trans (ih hrest fun q hq => hc q (by simp [hq]))

theorem search_finds (hs : Segment c.nextOf first kept (some p))
    (hk : ∀ q ∈ kept, c.idOf q ≠ some id) (hp : c.idOf p = some id) :
    Head (reapBody freed) (.search current id first,c) (.unlink current p,c) := by
  induction kept generalizing first with
  | nil =>
    cases hs
    obtain ⟨e,he,hid⟩ := Option.map_eq_some_iff.mp hp
    obtain ⟨n,hn,rfl⟩ := Option.map_eq_some_iff.mp he
    have hstep : reapBody freed (.search current id (some p),c) = .inr (.unlink current p,c) := by
      simp [reapBody,get_live hn,reading_live hn,hid]
    exact .next .start hstep
  | cons q kept ih =>
    obtain ⟨rfl,link,hlink,hrest⟩ := hs
    obtain ⟨n,hn,rfl⟩ := link_live hlink
    have hne : n.entry.threadId ≠ id := by
      have hq := hk q (by simp)
      rw [id_live hn] at hq
      simpa using hq
    have hstep : reapBody freed (.search current id (some q),c) =
        .inr (.search current id n.next,c) := by
      simp [reapBody,get_live hn,reading_live hn,hne]
    exact (Head.next .start hstep).trans (ih hrest fun q hq => hk q (by simp [hq]))

theorem walk_finds (hs : Segment c.nextOf first (kept ++ [r]) (some p)) (hp : p ∉ kept ++ [r])
    (hn : c.nodes p = some n) : Head (reapBody freed) (.walk current p first,c)
      (.release current p,c.setNext r n.next) := by
  induction kept generalizing first with
  | nil =>
    obtain ⟨rfl,link,hlink,hlast⟩ := hs
    cases hlast
    obtain ⟨m,hm,hnext⟩ := link_live hlink
    have hstep : reapBody freed (.walk current p (some r),c) =
        .inr (.release current p,c.setNext r n.next) := by
      simp [reapBody,get_live hm,get_live hn,reading_live hm,reading_live hn,hnext]
    exact .next .start hstep
  | cons q kept ih =>
    obtain ⟨rfl,link,hlink,hrest⟩ := hs
    obtain ⟨m,hm,rfl⟩ := link_live hlink
    have hne : m.next ≠ some p := by
      intro he
      rw [he] at hrest
      exact hp (List.mem_cons_of_mem _ (segment_head_mem hrest (by simp)))
    have hstep : reapBody freed (.walk current p (some q),c) = .inr (.walk current p m.next,c) := by
      simp [reapBody,get_live hm,reading_live hm,hne]
    exact (Head.next .start hstep).trans (ih hrest fun hmem => hp (List.mem_cons_of_mem _ hmem))

structure Unlinked (c c' : Chain) (kept : List ℕ) (last : Option ℕ) : Prop where
  segment : Segment c'.nextOf c'.first kept last
  others : ∀ q, q ∉ kept → c'.nodes q = c.nodes q
  entries : c'.entryOf = c.entryOf
  effects : c'.effects = c.effects
  freedReads : c'.freedReads = c.freedReads

theorem set_next_entries (c : Chain) (p : ℕ) (next : Option ℕ) :
    (c.setNext p next).entryOf = c.entryOf := by
  funext q
  by_cases hq : q = p
  · subst hq
    simp [Chain.entryOf,Chain.setNext,Option.map_map,Function.comp_def]
  · simp [Chain.entryOf,Chain.setNext,hq]

theorem set_next_other {q : ℕ} (hq : q ≠ p) (next : Option ℕ) :
    (c.setNext p next).nodes q = c.nodes q := Function.update_of_ne hq ..

theorem unlinks (hs : Segment c.nextOf c.first kept (some p)) (hp : p ∉ kept) (hk : kept.Nodup)
    (hn : c.nodes p = some n) : ∃ c', Head (reapBody freed) (.unlink current p,c)
      (.release current p,c') ∧ Unlinked c c' kept n.next := by
  rcases List.eq_nil_or_concat' kept with rfl | ⟨before,r,rfl⟩
  · have hfirst : c.first = some p := hs
    have hstep : reapBody freed (.unlink current p,c) =
        .inr (.release current p,c.setFirst n.next) := by
      simp [reapBody,hfirst,get_live hn,reading_live hn]
    exact ⟨c.setFirst n.next,.next .start hstep,rfl,fun _ _ => rfl,rfl,rfl,rfl⟩
  · have hfirst : c.first ≠ some p := by
      intro he
      rw [he] at hs
      exact hp (segment_head_mem hs (by simp))
    have hstep : reapBody freed (.unlink current p,c) = .inr (.walk current p c.first,c) := by
      simp [reapBody,hfirst]
    obtain ⟨link,-,-,m,hm,-⟩ := segment_append.mp hs
    obtain ⟨node,hnode,-⟩ := link_live hm
    refine ⟨c.setNext r n.next,(Head.next .start hstep).trans (walk_finds hs hp hn),?_,?_,
      set_next_entries c r n.next,rfl,rfl⟩
    · refine segment_relink hs (fun q hq => ?_) (by simp [Chain.nextOf,Chain.setNext,hnode])
      have hqr : q ≠ r := by
        rintro rfl
        exact (List.nodup_append.mp hk).2.2 q hq q (by simp) rfl
      rw [Chain.nextOf,set_next_other hqr,Chain.nextOf]
    · exact fun q hq => set_next_other (fun he => hq (by simp [he])) n.next

structure Reaped (c c' : Chain) (kept : List ℕ) (p : ℕ) (n : Node) : Prop where
  segment : Segment c'.nextOf c'.first kept n.next
  gone : c'.nodes p = none
  others : ∀ q, q ∉ kept → q ≠ p → c'.nodes q = c.nodes q
  entries : ∀ q, q ≠ p → c'.entryOf q = c.entryOf q
  effects : c'.effects =
    c.effects ++ [.join n.entry.threadId,.close n.entry.tmpdataFd,.free p]
  freedReads : c'.freedReads = c.freedReads ++ [p]

-- the last step reads the next field of the entry that has just been freed
theorem reaps (hs : Segment c.nextOf c.first kept (some p)) (hp : p ∉ kept) (hk : kept.Nodup)
    (hn : c.nodes p = some n) (hc : n.entry.isComplete = true)
    (hid : ∀ q ∈ kept, c.idOf q ≠ some n.entry.threadId) :
    ∃ c', Head (reapBody freed) (.test (some p),c) (.test (freed p).next,c') ∧
      Reaped c c' kept p n := by
  let joined := c.emit (.join n.entry.threadId)
  let closed := joined.emit (.close n.entry.tmpdataFd)
  have htest : reapBody freed (.test (some p),c) = .inr (.join p,c) := by
    simp [reapBody,get_live hn,reading_live hn,hc]
  have hjoin : reapBody freed (.join p,c) = .inr (.closeData p,joined) := by
    simp [reapBody,get_live hn,reading_live hn,joined]
  have hclose : reapBody freed (.closeData p,joined) = .inr (.remove p,closed) := by
    have hlive : joined.nodes p = some n := hn
    simp [reapBody,get_live hlive,reading_live hlive,closed]
  have hlive : closed.nodes p = some n := hn
  have hremove : reapBody freed (.remove p,closed) =
      .inr (.search p n.entry.threadId closed.first,closed) := by
    simp [reapBody,get_live hlive,reading_live hlive]
  have hsegment : Segment closed.nextOf closed.first kept (some p) := hs
  have hfound : Head (reapBody freed) (.search p n.entry.threadId closed.first,closed)
      (.unlink p p,closed) := search_finds hsegment hid (id_live hlive)
  obtain ⟨c₁,hunlink,hu⟩ : ∃ c₁, Head (reapBody freed) (.unlink p p,closed) (.release p p,c₁) ∧
      Unlinked closed c₁ kept n.next := unlinks hsegment hp hk hlive
  have hlive₁ : c₁.nodes p = some n := (hu.others p hp).trans hlive
  have hrelease : reapBody freed (.release p p,c₁) = .inr (.advance p,c₁.threadEntryFree p) := by
    simp [reapBody,reading_live hlive₁]
  have hother (q : ℕ) (hq : q ≠ p) : (c₁.threadEntryFree p).nodes q = c₁.nodes q :=
    Function.update_of_ne hq ..
  have hgone : (c₁.threadEntryFree p).nodes p = none := Function.update_self ..
  have hadvance : reapBody freed (.advance p,c₁.threadEntryFree p) =
      .inr (.test (freed p).next,(c₁.threadEntryFree p).reading p) := by
    simp [reapBody,Chain.get,hgone]
  rw [reading_freed hgone] at hadvance
  have hstart : Head (reapBody freed) (.test (some p),c)
      (.search p n.entry.threadId closed.first,closed) :=
    .next (.next (.next (.next .start htest) hjoin) hclose) hremove
  refine ⟨_,.next (.next ((hstart.trans hfound).trans hunlink) hrelease) hadvance,?_,hgone,?_,?_,?_,?_⟩
  · refine segment_congr (fun q hq => ?_) hu.segment
    exact congrArg (Option.map Node.next) (hother q fun he => hp (he ▸ hq))
  · exact fun q hq hne => (hother q hne).trans (hu.others q hq)
  · intro q hne
    rw [← show closed.entryOf q = c.entryOf q from rfl,← hu.entries]
    exact congrArg (Option.map Node.entry) (hother q hne)
  · simp [Chain.threadEntryFree,Chain.emit,hu.effects,closed,joined]
  · simp [Chain.threadEntryFree,Chain.emit,hu.freedReads,closed,joined]

end Searching

structure Passed (c c' : Chain) (kept rest : List ℕ) : Prop where
  linked : Segment c'.nextOf c'.first (kept ++ rest.filter fun p => !c.complete p) none
  entries : ∀ q, (q ∈ rest → c.complete q = false) → c'.entryOf q = c.entryOf q
  gone : ∀ q ∈ rest, c.complete q = true → c'.nodes q = none
  effects : c'.effects = c.effects ++ (rest.filter c.complete).flatMap c.reaping
  freedReads : c'.freedReads = c.freedReads ++ rest.filter c.complete

section Passing
variable {freed : ℕ → Node} {c c' : Chain} {p : ℕ} {n : Node} {cur : Option ℕ}
  {ps kept rest : List ℕ}

theorem listed_apart (hid : ((kept ++ p :: rest).map c.idOf).Nodup) :
    p ∉ kept ∧ p ∉ rest ∧ kept.Nodup ∧ (∀ q ∈ rest, q ∉ kept) ∧ ∀ q ∈ kept, c.idOf q ≠ c.idOf p := by
  obtain ⟨hk,hr,hkr⟩ := List.nodup_append.mp hid.of_map
  refine ⟨fun hm => hkr p hm p (by simp) rfl,(List.nodup_cons.mp hr).1,hk,?_,?_⟩
  · exact fun q hq hm => hkr q hm q (by simp [hq]) rfl
  · intro q hq
    rw [List.map_append] at hid
    exact (List.nodup_append.mp hid).2.2 _ (List.mem_map_of_mem hq) _ (by simp)

theorem passed_skip (hc : c.complete p = false) (h : Passed c c' (kept ++ [p]) rest) :
    Passed c c' kept (p :: rest) where
  linked := by simpa [hc] using h.linked
  entries := fun q hq => h.entries q fun hm => hq (List.mem_cons_of_mem _ hm)
  gone := by
    intro q hq hqc
    rcases List.mem_cons.mp hq with rfl | hq
    · rw [hc] at hqc
      cases hqc
    · exact h.gone q hq hqc
  effects := by simpa [hc] using h.effects
  freedReads := by simpa [hc] using h.freedReads

theorem complete_congr {q : ℕ} (h : c'.entryOf q = c.entryOf q) : c'.complete q = c.complete q := by
  rw [Chain.complete,h,Chain.complete]

theorem passed_reap {c₁ : Chain} (hn : c.nodes p = some n) (hc : c.complete p = true)
    (hp : p ∉ rest) (hr : Reaped c c₁ kept p n) (h : Passed c₁ c' kept rest) :
    Passed c c' kept (p :: rest) := by
  have hne {q : ℕ} (hq : q ∈ rest) : q ≠ p := fun he => hp (he ▸ hq)
  have hsame (q : ℕ) (hq : q ∈ rest) : c₁.complete q = c.complete q :=
    complete_congr (hr.entries q (hne hq))
  have hfilter : rest.filter c₁.complete = rest.filter c.complete := List.filter_congr hsame
  have hreap : (rest.filter c₁.complete).flatMap c₁.reaping =
      (rest.filter c.complete).flatMap c.reaping := by
    rw [hfilter]
    refine List.flatMap_congr fun q hq => ?_
    rw [Chain.reaping,hr.entries q (hne (List.mem_of_mem_filter hq)),Chain.reaping]
  refine ⟨?_,fun q hq => ?_,fun q hq hqc => ?_,?_,?_⟩
  · rw [List.filter_cons_of_neg (by simp [hc]),
      ← List.filter_congr fun q hq => congrArg (! ·) (hsame q hq)]
    exact h.linked
  · have hqp : q ≠ p := by
      rintro rfl
      rw [hq (by simp)] at hc
      cases hc
    rw [h.entries q fun hm => (hsame q hm).trans (hq (List.mem_cons_of_mem _ hm)),hr.entries q hqp]
  · rcases List.mem_cons.mp hq with rfl | hq
    · have hgone : c₁.entryOf q = none := by rw [Chain.entryOf,hr.gone]; rfl
      have hkept := h.entries q fun hm => absurd hm hp
      rw [hgone] at hkept
      exact Option.map_eq_none_iff.mp hkept
    · exact h.gone q hq ((hsame q hq).trans hqc)
  · rw [h.effects,hr.effects,hreap,List.filter_cons_of_pos hc,List.flatMap_cons,List.append_assoc]
    simp [Chain.reaping,entry_live hn]
  · rw [h.freedReads,hr.freedReads,hfilter,List.filter_cons_of_pos hc,List.append_assoc]
    rfl

-- where the freed entries still hold their links, only the reads of them are wrong
theorem scan_passes (hk : Segment c.nextOf c.first kept cur) (hr : Segment c.nextOf cur rest none)
    (hid : ((kept ++ rest).map c.idOf).Nodup)
    (hi : ∀ p ∈ rest, c.complete p = true → c.nextOf p = some (freed p).next) :
    ∃ c', Returns (reapBody freed) (.test cur,c) (some c') ∧ Passed c c' kept rest := by
  induction rest generalizing c kept cur with
  | nil =>
    cases hr
    refine ⟨c,.stop rfl,?_,fun _ _ => rfl,by simp,by simp,by simp⟩
    simpa using hk
  | cons p rest ih =>
    obtain ⟨rfl,link,hlink,hrest⟩ := hr
    obtain ⟨n,hn,rfl⟩ := link_live hlink
    cases hc : n.entry.isComplete with
    | false =>
      have hk' : Segment c.nextOf c.first (kept ++ [p]) n.next :=
        segment_append.mpr ⟨_,hk,rfl,n.next,next_live hn,rfl⟩
      obtain ⟨c',hret,hpass⟩ := ih hk' hrest (by simpa using hid)
        fun q hq => hi q (List.mem_cons_of_mem _ hq)
      exact ⟨c',(test_passes hn hc).returns.mpr hret,
        passed_skip ((complete_live hn).trans hc) hpass⟩
    | true =>
      obtain ⟨hpk,hpr,hkn,hrk,hids⟩ := listed_apart hid
      rw [id_live hn] at hids
      obtain ⟨c₁,hhead,hreaped⟩ : ∃ c₁, Head (reapBody freed) (.test (some p),c)
          (.test (freed p).next,c₁) ∧ Reaped c c₁ kept p n := reaps hk hpk hkn hn hc hids
      have hcomplete : c.complete p = true := (complete_live hn).trans hc
      have hnext : (freed p).next = n.next := by
        have hlive := hi p (by simp) hcomplete
        rw [next_live hn] at hlive
        exact (Option.some.inj hlive).symm
      rw [hnext] at hhead
      have hnodes (q : ℕ) (hq : q ∈ rest) : c₁.nodes q = c.nodes q :=
        hreaped.others q (hrk q hq) fun he => hpr (he ▸ hq)
      have hlinks (q : ℕ) (hq : q ∈ rest) : c₁.nextOf q = c.nextOf q :=
        congrArg (Option.map Node.next) (hnodes q hq)
      have hsame (q : ℕ) (hq : q ≠ p) : c₁.idOf q = c.idOf q :=
        congrArg (Option.map ThreadEntry.threadId) (hreaped.entries q hq)
      have hid' : ((kept ++ rest).map c₁.idOf).Nodup := by
        rw [List.map_congr_left fun q hq => hsame q ?_]
        · exact hid.sublist ((List.Sublist.append_left (List.sublist_cons_self p rest) kept).map _)
        · rintro rfl
          exact (List.mem_append.mp hq).elim hpk hpr
      obtain ⟨c',hret,hpass⟩ := ih hreaped.segment (segment_congr hlinks hrest) hid' fun q hq hqc => by
        rw [hlinks q hq]
        refine hi q (List.mem_cons_of_mem _ hq) ?_
        rw [← complete_congr (hreaped.entries q fun he => hpr (he ▸ hq))]
        exact hqc
      exact ⟨c',hhead.returns.mpr hret,passed_reap hn hcomplete hpr hreaped hpass⟩

end Passing

structure Represents (c : Chain) (m : Manager) : Prop where
  listed : Segment c.nextOf c.first m.threadManager none
  entries : ∀ p, c.entryOf p = m.entries p

theorem removal_represents {freed : ℕ → Node} {c : Chain} {m : Manager} {p : ℕ} {e : ThreadEntry}
    (h : Represents c m) (hid : (m.threadManager.map m.idOf).Nodup) (hp : p ∈ m.threadManager)
    (he : m.entries p = some e) (hc : e.isComplete = true) :
    ∃ c', Head (reapBody freed) (.test (some p),c) (.test (freed p).next,c') ∧
      Represents c' (m.threadEntryRemove e.threadId).2 ∧ c.nextOf p = some (m.successor p) := by
  have hids : m.threadManager.map c.idOf = m.threadManager.map m.idOf :=
    List.map_congr_left fun q _ => congrArg (Option.map ThreadEntry.threadId) (h.entries q)
  obtain ⟨before,rest,hl,hnext,-⟩ := listed_split hp hid.of_map
  obtain ⟨-,herase⟩ := erase_middle (hl ▸ hid.of_map)
  rw [← hids,hl] at hid
  obtain ⟨hpk,hpr,hkn,hrk,hids'⟩ := listed_apart hid
  have hsegment := h.listed
  rw [hl] at hsegment
  obtain ⟨_,hkept,rfl,link,hlink,hrest⟩ := segment_append.mp hsegment
  obtain ⟨n,hn,rfl⟩ := link_live hlink
  have hentry : n.entry = e := by
    have hlive := h.entries p
    rw [entry_live hn,he] at hlive
    exact Option.some.inj hlive
  subst hentry
  rw [id_live hn] at hids'
  obtain ⟨c',hhead,hreaped⟩ : ∃ c', Head (reapBody freed) (.test (some p),c)
      (.test (freed p).next,c') ∧ Reaped c c' before p n := reaps hkept hpk hkn hn hc hids'
  have hfound : m.findEntry n.entry.threadId = some p :=
    find_entry_some (by rw [← hids,hl]; exact hid) hp (by simp [Manager.idOf,he])
  have hremove : (m.threadEntryRemove n.entry.threadId).2 = (m.unlink p).threadEntryFree p := by
    rw [Manager.threadEntryRemove,hfound]
  refine ⟨c',hhead,?_,by rw [hlink,hnext,segment_first hrest]⟩
  rw [hremove]
  constructor
  · have hlist : ((m.unlink p).threadEntryFree p).threadManager = before ++ rest := by
      rw [← herase,← hl]
      rfl
    rw [hlist]
    refine segment_append.mpr ⟨_,hreaped.segment,segment_congr (fun q hq => ?_) hrest⟩
    exact congrArg (Option.map Node.next) (hreaped.others q (hrk q hq) fun hqp => hpr (hqp ▸ hq))
  · intro q
    by_cases hq : q = p
    · subst hq
      simp [Chain.entryOf,hreaped.gone,Manager.threadEntryFree,Manager.setEntry]
    · rw [hreaped.entries q hq,h.entries q]
      simp [Manager.threadEntryFree,Manager.setEntry,Manager.unlink,hq]

section Pass
variable {freed : ℕ → Node} {first : Option ℕ} {nodes : ℕ → Option Node} {ps : List ℕ}

theorem first_complete_read (hl : Segment (Chain.start first nodes).nextOf first ps none)
    (hid : (ps.map (Chain.start first nodes).idOf).Nodup) {p : ℕ} (hp : p ∈ ps)
    (hc : (Chain.start first nodes).complete p = true) {c' : Chain}
    (hret : Returns (reapBody freed) (.test first,Chain.start first nodes) (some c')) :
    c'.freedReads ≠ [] := by
  obtain ⟨q,hq⟩ := Option.isSome_iff_exists.mp
    (List.find?_isSome.mpr ⟨p,hp,hc⟩ : (ps.find? (Chain.start first nodes).complete).isSome = true)
  obtain ⟨hqc,before,after,rfl,hbefore⟩ := List.find?_eq_some_iff_append.mp hq
  obtain ⟨_,hkept,rfl,link,hlink,-⟩ := segment_append.mp hl
  obtain ⟨n,hn,rfl⟩ := link_live hlink
  obtain ⟨hqk,-,hkn,-,hids⟩ := listed_apart hid
  rw [id_live hn] at hids
  rw [complete_live hn] at hqc
  have hpassed : Head (reapBody freed) (.test first,Chain.start first nodes)
      (.test (some q),Chain.start first nodes) :=
    tests_pass hkept fun r hr => by simpa using hbefore r hr
  obtain ⟨c₁,hhead,hreaped⟩ : ∃ c₁, Head (reapBody freed) (.test (some q),Chain.start first nodes)
      (.test (freed q).next,c₁) ∧ Reaped (Chain.start first nodes) c₁ before q n :=
    reaps hkept hqk hkn hn hqc hids
  have hread : q ∈ c₁.freedReads := by
    rw [hreaped.freedReads]
    simp
  have hkeep := reap_returns_keeps hread ((hpassed.trans hhead).returns.mp hret)
  exact List.ne_nil_of_mem hkeep

theorem reap_exact_iff (freed : ℕ → Node)
    (hl : Segment (Chain.start first nodes).nextOf first ps none)
    (hid : (ps.map (Chain.start first nodes).idOf).Nodup) :
    (∃ c', Returns (reapBody freed) (.test first,Chain.start first nodes) (some c') ∧
      ReapExact (Chain.start first nodes) ps c') ↔
        ∀ p ∈ ps, (Chain.start first nodes).complete p = false := by
  constructor
  · rintro ⟨c',hret,hexact⟩ p hp
    by_contra hc
    exact first_complete_read hl hid hp (by simpa using hc) hret hexact.fresh
  · intro hall
    have hnone : ps.filter (Chain.start first nodes).complete = [] :=
      List.filter_eq_nil_iff.mpr fun p hp => by simp [hall p hp]
    obtain ⟨c',hret,hpass⟩ : ∃ c', Returns (reapBody freed) (.test first,Chain.start first nodes)
        (some c') ∧ Passed (Chain.start first nodes) c' [] ps :=
      scan_passes rfl hl hid fun p hp hc => by
        rw [hall p hp] at hc
        cases hc
    refine ⟨c',hret,hpass.effects,hpass.linked,?_,hpass.gone,by rw [hpass.freedReads,hnone]; rfl⟩
    exact fun p hp hc => hpass.entries p fun _ => hc

end Pass

def listedNode (threadId : ℕ) (isComplete : Bool) (next : Option ℕ) : Node :=
  ⟨⟨threadId,[],4,isComplete,5⟩,next⟩

def twoListed : ℕ → Option Node
  | 0 => some (listedNode 70 false (some 1))
  | 1 => some (listedNode 71 false none)
  | _ => none

theorem reap_exact_iff_two_listed :
    (∃ c', Returns (reapBody fun _ => listedNode 0 false none)
        (.test (some 0),Chain.start (some 0) twoListed) (some c') ∧
      ReapExact (Chain.start (some 0) twoListed) [0,1] c') ↔
        ∀ p ∈ [0,1], (Chain.start (some 0) twoListed).complete p = false :=
  reap_exact_iff _ ⟨rfl,some 1,rfl,rfl,none,rfl,rfl⟩ (by decide)

def oneComplete : ℕ → Option Node
  | 0 => some (listedNode 70 true none)
  | _ => none

-- the memory of the freed entry is still as it was
theorem reap_reads_freed_entry :
    (∃ c', Returns (reapBody fun _ => listedNode 70 true none)
        (.test (some 0),Chain.start (some 0) oneComplete) (some c') ∧
      c'.effects = [.join 70,.close 5,.free 0] ∧ c'.first = none ∧ c'.freedReads = [0]) ∧
    ¬ ∃ c', Returns (reapBody fun _ => listedNode 70 true none)
        (.test (some 0),Chain.start (some 0) oneComplete) (some c') ∧
      ReapExact (Chain.start (some 0) oneComplete) [0] c' := by
  have hrun : ∃ c', iterate (reapBody fun _ => listedNode 70 true none) 9
      (.test (some 0),Chain.start (some 0) oneComplete) = some (some c') ∧
      c'.effects = [.join 70,.close 5,.free 0] ∧ c'.first = none ∧ c'.freedReads = [0] :=
    ⟨_,rfl,rfl,rfl,rfl⟩
  obtain ⟨c',hiter,heffects,hfirst,hreads⟩ := hrun
  refine ⟨⟨c',iterate_returns hiter,heffects,hfirst,hreads⟩,?_⟩
  rintro ⟨c₁,hret,hexact⟩
  have hsame := (iterate_returns hiter).unique hret
  cases hsame
  rw [hexact.fresh] at hreads
  cases hreads

end ThreadManager
