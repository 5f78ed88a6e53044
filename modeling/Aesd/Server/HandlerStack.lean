import Aesd.Server.Releases

namespace AesdSocket
open Kernel ThreadManager ClientHandler Ledger

-- only the innermost SIGINT or SIGTERM handler has left thread_entry_freeall and the close after it
def Nested : List Frame → Prop
  | [] => True
  | f :: below => (f.sig ≠ .sigalrm → ∀ g ∈ below, stage g.pc = 0) ∧ Nested below

structure Handled (s : Process) : Prop where
  kinds : ∀ t, ∀ f ∈ s.frames t, f.sig = .sigalrm ↔ f.pc.timestamp = true
  started : ∀ k, s.frames (.worker k) ≠ [] → k < s.server.manager.next
  sole : ∀ t u, cleaning (s.frames t) = true → cleaning (s.frames u) = true → t = u
  nested : ∀ t, Nested (s.frames t)

structure Serving (s : Process) : Prop where
  entries : EntryInv s.server
  accepting : ∀ pc, s.server.main ≠ .freeall pc
  handled : Handled s

section Frames
variable {s s' : Process} {t : Thread} {f : Frame} {below : List Frame}

theorem cleaning_iff {fs : List Frame} : cleaning fs = true ↔ ∃ f ∈ fs, f.sig ≠ .sigalrm := by
  simp [cleaning]

theorem stage_timestamp {pc : FramePc} (h : 1 ≤ stage pc) : pc.timestamp = false := by
  cases pc <;> simp [stage,FramePc.timestamp] at h ⊢

theorem Handled.signal (h : Handled s) (hf : f ∈ s.frames t) (hs : 1 ≤ stage f.pc) :
    f.sig ≠ .sigalrm := by
  rw [Ne,h.kinds t f hf,stage_timestamp hs]
  simp

inductive Shape (s : Process) (t : Thread) (f : Frame) (below : List Frame) (s' : Process) : Prop
  | same (hf : s'.frames = s.frames)
  | popped (hpc : f.pc.timestamp = true) (hf : s'.frames = Function.update s.frames t below)
  | moved (pc' : FramePc) (hpc : pc'.timestamp = f.pc.timestamp) (hs : stage f.pc ≤ stage pc')
      (hf : s'.frames = Function.update s.frames t (⟨f.sig,pc'⟩ :: below))

theorem frame_shape (hm : FrameMove s t f below s') : Shape s t f below s' := by
  cases hm with
  | openFailed hpc | closed hpc => exact .popped (by rw [hpc]; rfl) rfl
  | exited => exact .same rfl
  | opened hpc | locked hpc | wrote hpc | unlocked hpc | freed hpc | freeing hpc | serverClosed hpc
  | addrinfoFreed hpc | logClosed hpc =>
    exact .moved _ (by rw [hpc]; rfl) (by simp [hpc,stage]) rfl

theorem Handled.replaced (h : Handled s) {fs : List Frame}
    (hframes : s'.frames = Function.update s.frames t fs)
    (hn : s.server.manager.next ≤ s'.server.manager.next)
    (hkinds : ∀ g ∈ fs, g.sig = .sigalrm ↔ g.pc.timestamp = true)
    (hstarted : ∀ k, t = .worker k → k < s.server.manager.next)
    (hclean : cleaning fs = true → ∀ u, u ≠ t → cleaning (s.frames u) = false)
    (hnested : Nested fs) : Handled s' := by
  have hself := frames_self hframes
  have hother {u : Thread} (hu : u ≠ t) := frames_other hframes hu
  refine ⟨fun u g hg => ?_,fun k hk => ?_,fun u v hu hv => ?_,fun u => ?_⟩
  · by_cases hu : u = t
    · subst hu
      rw [hself] at hg
      exact hkinds g hg
    · rw [hother hu] at hg
      exact h.kinds u g hg
  · by_cases hu : Thread.worker k = t
    · exact Nat.lt_of_lt_of_le (hstarted k hu.symm) hn
    · rw [hother hu] at hk
      exact Nat.lt_of_lt_of_le (h.started k hk) hn
  · by_cases hut : u = t
    · by_cases hvt : v = t
      · rw [hut,hvt]
      · rw [hut,hself] at hu
        rw [hother hvt,hclean hu v hvt] at hv
        cases hv
    · rw [hother hut] at hu
      by_cases hvt : v = t
      · rw [hvt,hself] at hv
        rw [hclean hv u hut] at hu
        cases hu
      · rw [hother hvt] at hv
        exact h.sole u v hu hv
  · by_cases hu : u = t
    · rw [hu,hself]
      exact hnested
    · rw [hother hu]
      exact h.nested u

theorem Handled.alone (h : Handled s) (hc : cleaning (s.frames t) = true) {u : Thread}
    (hu : u ≠ t) : cleaning (s.frames u) = false := by
  by_contra hn
  exact hu (h.sole u t (by simpa using hn) hc)

theorem Shape.handled (hs : Shape s t f below s') (h : Handled s) (hf : s.frames t = f :: below)
    (hn : s.server.manager.next ≤ s'.server.manager.next) : Handled s' := by
  have hmem : f ∈ s.frames t := hf ▸ List.mem_cons_self ..
  have hold := frame_below hf
  have hnested := h.nested t
  rw [hf] at hnested
  have hstarted (k : ℕ) (hk : t = .worker k) : k < s.server.manager.next :=
    h.started k (hk ▸ List.ne_nil_of_mem hmem)
  cases hs with
  | same hframes =>
    refine ⟨by rw [hframes]; exact h.kinds,fun k hk => ?_,by rw [hframes]; exact h.sole,
      by rw [hframes]; exact h.nested⟩
    rw [hframes] at hk
    exact Nat.lt_of_lt_of_le (h.started k hk) hn
  | popped hpc hframes =>
    refine h.replaced hframes hn (fun g hg => h.kinds t g (hold hg)) hstarted (fun hc u hu => ?_)
      hnested.2
    obtain ⟨g,hg,hsig⟩ := cleaning_iff.mp hc
    exact h.alone (cleaning_iff.mpr ⟨g,hold hg,hsig⟩) hu
  | moved pc' hpc hs hframes =>
    refine h.replaced hframes hn (fun g hg => ?_) hstarted (fun hc u hu => ?_) hnested
    · rcases List.mem_cons.mp hg with rfl | hg
      · rw [hpc]
        exact h.kinds t f hmem
      · exact h.kinds t g (hold hg)
    · refine h.alone ?_ hu
      rw [hf]
      exact hc

theorem Shape.past (hs : Shape s t f below s') (hf : s.frames t = f :: below) {n : ℕ} (hn : 1 ≤ n)
    (h : ∃ u, ∃ g ∈ s.frames u, n ≤ stage g.pc) : ∃ u, ∃ g ∈ s'.frames u, n ≤ stage g.pc := by
  obtain ⟨u,g,hg,hgs⟩ := h
  cases hs with
  | same hframes => exact ⟨u,g,hframes ▸ hg,hgs⟩
  | popped hpc hframes =>
    rcases frame_before hf (List.Subset.refl _) hframes hg with ⟨rfl,rfl⟩ | hg
    · rw [stage_timestamp (Nat.le_trans hn hgs)] at hpc
      cases hpc
    · exact ⟨u,g,hg,hgs⟩
  | moved pc' hpc hs hframes =>
    rcases frame_before hf (List.subset_cons_self ..) hframes hg with ⟨rfl,rfl⟩ | hg
    · refine ⟨u,⟨g.sig,pc'⟩,?_,Nat.le_trans hgs hs⟩
      rw [frames_self hframes]
      exact List.mem_cons_self ..
    · exact ⟨u,g,hg,hgs⟩

theorem Handled.foremost (h : Handled s) (hf : s.frames t = f :: below) (hsig : f.sig ≠ .sigalrm)
    {u : Thread} {g : Frame} (hg : g ∈ s.frames u) (hgs : 1 ≤ stage g.pc) :
    stage g.pc ≤ stage f.pc := by
  have hmem : f ∈ s.frames t := hf ▸ List.mem_cons_self ..
  have hu : u = t := h.sole u t (cleaning_iff.mpr ⟨g,hg,h.signal hg hgs⟩)
    (cleaning_iff.mpr ⟨f,hmem,hsig⟩)
  subst hu
  have hnested := h.nested u
  rw [hf] at hnested hg
  rcases List.mem_cons.mp hg with rfl | hg
  · exact Nat.le_refl _
  · rw [hnested.1 hsig g hg]
    exact Nat.zero_le _

end Frames

section Process
variable {dev : Bool} {s s' : Process} {l : Label} {t : Thread} {sig : Signal} {f : Frame}
  {below : List Frame}

theorem EntryChange.next {m m' : Manager} {acts : List (Action Resource)}
    (h : EntryChange m m' acts) : m.next ≤ m'.next := by
  cases h with
  | quiet hn | removed _ _ _ hn => exact hn.ge
  | created hn | spent hn => exact hn ▸ Nat.le_succ _

theorem Handled.server (h : Handled s) (hf : s'.frames = s.frames)
    (hn : s.server.manager.next ≤ s'.server.manager.next) : Handled s' :=
  ⟨by rw [hf]; exact h.kinds,
    fun k hk => Nat.lt_of_lt_of_le (h.started k (by rwa [hf] at hk)) hn,
    by rw [hf]; exact h.sole,by rw [hf]; exact h.nested⟩

theorem delivered_serving (h : Serving s) (ha : s.alive t = true)
    (hc : exitsOnce ⟨.acceptConnections,s⟩ (.serve (.deliver t sig)) = true) :
    Serving (s.setFrames t (signalHandler sig :: s.frames t)) := by
  have hcond : sig ≠ .sigalrm → (∀ u ∈ threads s, u ≠ t → cleaning (s.frames u) = false) ∧
      ∀ g ∈ s.frames t, stage g.pc = 0 := by
    intro hsig
    simp only [exitsOnce,Bool.or_eq_true,decide_eq_true_eq,hsig,false_or,Bool.and_eq_true,
      List.all_eq_true,Bool.not_eq_true'] at hc
    exact ⟨fun u hu hne => (hc.1 u hu).resolve_left hne,hc.2⟩
  have hstarted (k : ℕ) (hk : t = .worker k) : k < s.server.manager.next :=
    alive_started (fun p hp => (h.entries.fresh p hp).2) (hk ▸ ha)
  refine ⟨h.entries,h.accepting,h.handled.replaced rfl (Nat.le_refl _) (fun g hg => ?_) hstarted
    (fun hclean u hu => ?_) ⟨fun hsig => (hcond hsig).2,h.handled.nested t⟩⟩
  · rcases List.mem_cons.mp hg with rfl | hg
    · exact signal_handler_kind sig
    · exact h.handled.kinds t g hg
  · by_cases hsig : sig = .sigalrm
    · obtain ⟨g,hg,hgs⟩ := cleaning_iff.mp hclean
      rcases List.mem_cons.mp hg with rfl | hg
      · exact absurd hsig hgs
      · exact h.handled.alone (cleaning_iff.mpr ⟨g,hg,hgs⟩) hu
    · by_contra hn
      have hmem : u ∈ threads s := by
        cases u with
        | main => exact List.mem_cons_self ..
        | worker k =>
          refine List.mem_cons_of_mem _ (List.mem_map.mpr ⟨k,List.mem_range.mpr ?_,rfl⟩)
          refine h.handled.started k fun he => hn ?_
          rw [he]
          rfl
      exact hn ((hcond hsig).1 u hmem hu)

theorem frame_serving (h : Serving s) (hf : s.frames t = f :: below)
    (hm : FrameMove s t f below s') : Serving s' := by
  have hshape := frame_shape hm
  cases hm with
  | freeing hpc hm =>
    obtain ⟨hc,hi⟩ := freeall_change h.entries hm
    exact ⟨hi,h.accepting,hshape.handled h.handled hf hc.next⟩
  | opened | openFailed | locked | wrote | unlocked | closed | freed | serverClosed | addrinfoFreed
  | logClosed | exited =>
    exact ⟨h.entries,h.accepting,hshape.handled h.handled hf (Nat.le_refl _)⟩

theorem process_serving (h : Serving s) (hm : ProcessMove dev s l s')
    (hc : exitsOnce ⟨.acceptConnections,s⟩ (.serve l) = true) : Serving s' := by
  cases hm with
  | thread hl hfree hs =>
    obtain ⟨hchange,hi,ha⟩ := server_change h.entries hl h.accepting hs
    exact ⟨hi,ha,h.handled.server rfl hchange.next⟩
  | @client k ev h' s₁ hfree hk hcl hf =>
    have hsame := file_step_same hf
    have heq : s₁.server = s.server ∧ s₁.frames = s.frames := by
      rw [hsame]
      exact ⟨rfl,rfl⟩
    refine ⟨?_,?_,h.handled.server heq.2 ?_⟩
    · simp only [heq.1]
      exact h.entries
    · simp only [heq.1]
      exact h.accepting
    · simp only [heq.1]
      exact Nat.le_refl _
  | delivered _ ha => exact delivered_serving h ha hc
  | handler hf hm => exact frame_serving h hf hm

end Process

end AesdSocket
