import Aesd.Server.Program

namespace AesdProgram
open Kernel Device ClientHandler ThreadManager AesdSocket AesdServer Delimited

def ownerOf : Option Thread → Option ℕ
  | some (.worker k) => some k
  | _ => none

def view (s : Program) : System ℕ :=
  ⟨s.process.handlers,fun k => s.fPos (s.tmpdataClientFd k),s.outgoing,
    ownerOf s.process.fileMutex,s.driver⟩

-- no device call fails, no send is short, and no entry is evicted under another client's response
def Calm (s : Program) (l : Step) : Prop :=
  ∀ a ∈ traffic s l, Succeeds (view s) a ∧ Uncut (view s) a

def requests (s : Program) (l : Step) : List (Request ℕ) := (traffic s l).flatMap (shown (view s))

def responses (s : Program) (l : Step) : List (ℕ × Bytes) :=
  (traffic s l).flatMap (answered (view s))

section Refinement
variable {s s' : Program} {v v' : System ℕ} {σ : LineServer ℕ} {k : ℕ} {act : Act} {l : Step}

structure Alike (v u : System ℕ) (a : AesdServer.Label ℕ) : Prop where
  answer : respond v a = respond u a
  clients : v.clients = u.clients
  outgoing : v.outgoing = u.outgoing
  driver : v.driver = u.driver

section Congruence
variable {u : System ℕ} {a : AesdServer.Label ℕ}

theorem Alike.shown (h : Alike v u a) : shown v a = shown u a := by
  rw [AesdServer.shown,h.answer,h.clients,AesdServer.shown]

theorem Alike.answered (h : Alike v u a) : answered v a = answered u a := by
  rw [AesdServer.answered,replyOf,h.answer,h.outgoing,h.driver,AesdServer.answered,replyOf]

theorem Alike.succeeds (h : Alike v u a) (hs : Succeeds v a) : Succeeds u a := by
  refine ⟨fun x hx => hs.answered x (h.answer.trans hx),?_⟩
  have hw := hs.whole
  rw [shortSend,h.clients] at hw
  exact hw

theorem Alike.uncut (h : Alike v u a) (hu : Uncut v a) : Uncut u a := by
  unfold Uncut written at hu ⊢
  rw [h.clients,h.outgoing,h.driver] at hu
  exact hu

end Congruence

theorem view_alike (hv : View s v) (hk : IsServing s.process.server.manager k) :
    Alike (view s) v ⟨k,act⟩ := by
  refine ⟨?_,hv.clients.symm,hv.outgoing.symm,hv.driver.symm⟩
  rw [respond_viewed hv hk]
  cases act <;> rfl

theorem client_serving (h : programStep s (.client k act) = some s') :
    IsServing s.process.server.manager k := by
  simp only [programStep,Option.bind_eq_bind,Option.bind_eq_some_iff] at h
  obtain ⟨a,-,p,hp,-⟩ := h
  cases process_step_move hp with
  | client _ hserving => exact serving_iff.mp hserving

structure Refined (s : Program) (σ : LineServer ℕ) (v : System ℕ) : Prop where
  view : View s v
  sound : Sound s
  past : Past v
  represents : Represents v σ

theorem refined_step (h : Refined s σ v) (hc : Calm s l) (hs : programStep s l = some s') :
    ∃ σ' v', Runs.run LineServer.step σ (requests s l) = some σ' ∧
      Runs.outputs LineServer.step LineServer.sent σ (requests s l) = responses s l ∧
      Refined s' σ' v' := by
  have hsound := sound_step h.sound hs
  cases l with
  | thread l => exact ⟨σ,v,rfl,rfl,thread_viewed h.view h.sound hs,hsound,h.past,h.represents⟩
  | client k act =>
    obtain ⟨-,v',hv,hview⟩ := client_viewed h.view h.sound hs
    have halike : Alike (view s) v ⟨k,act⟩ := view_alike h.view (client_serving hs)
    obtain ⟨hok,huncut⟩ := hc _ (List.mem_singleton_self _)
    have hok' := halike.succeeds hok
    obtain ⟨σ',hrun,hout,hrep⟩ :=
      represented_step h.represents h.past.sound hok' (halike.uncut huncut) hv
    refine ⟨σ',v',?_,?_,hview,hsound,h.past.next hok'.answered hv,hrep⟩
    · simpa [requests,traffic,halike.shown] using hrun
    · simpa [requests,responses,traffic,halike.shown,halike.answered] using hout

-- the whole program, threads and descriptors included, does what the line server does
theorem program_refines {ls : List Step} (hr : Runs.run programStep programStart ls = some s)
    (hok : Runs.Along programStep Calm programStart ls) :
    ∃ σ, Runs.run LineServer.step LineServer.empty
        (Runs.outputs programStep requests programStart ls) = some σ ∧
      Runs.outputs LineServer.step LineServer.sent LineServer.empty
          (Runs.outputs programStep requests programStart ls) =
        Runs.outputs programStep responses programStart ls ∧
      ∃ v, View s v ∧ Represents v σ := by
  have hsim : ∀ (m : Program) (τ : LineServer ℕ) (l : Step) (m' : Program),
      (∃ v, Refined m τ v) → Calm m l → programStep m l = some m' →
      ∃ τ', Runs.run LineServer.step τ (requests m l) = some τ' ∧
        Runs.outputs LineServer.step LineServer.sent τ (requests m l) = responses m l ∧
        ∃ v, Refined m' τ' v := by
    rintro m τ l m' ⟨v,h⟩ hc hs
    obtain ⟨τ',v',hrun,hout,h'⟩ := refined_step h hc hs
    exact ⟨τ',hrun,hout,v',h'⟩
  have hstart : ∃ v, Refined programStart LineServer.empty v :=
    ⟨start aesdInitModule,program_start_view,program_start_sound,past_start,represents_start⟩
  obtain ⟨σ,hrun,hout,v,h⟩ := Runs.projected_run hsim hstart hok hr
  exact ⟨σ,hrun,hout,v,h.view,h.represents⟩

end Refinement

def unevicting (s : Program) (a : AesdServer.Label ℕ) : Bool :=
  (written (view s) a).all fun buf => !decide (Evicting s.driver buf)

def calmCheck (s : Program) (l : Step) : Bool :=
  (traffic s l).all fun a => succeedsCheck (view s) a && unevicting s a

theorem calm_of_check {s : Program} {l : Step} (h : calmCheck s l = true) : Calm s l := by
  intro a ha
  have hc := List.all_eq_true.mp h a ha
  simp only [Bool.and_eq_true] at hc
  refine ⟨succeeds_of_check hc.1,fun buf hbuf hev => ?_⟩
  have hno := hc.2
  rw [unevicting,Option.mem_def.mp hbuf] at hno
  simp only [Option.all_some,Bool.not_eq_true',decide_eq_false_iff_not] at hno
  exact absurd hev hno

theorem program_refines_three_clients :
    ∃ s σ, Runs.run programStep programStart threeClients = some s ∧
      Runs.run LineServer.step LineServer.empty
        (Runs.outputs programStep requests programStart threeClients) = some σ ∧
      Runs.outputs LineServer.step LineServer.sent LineServer.empty
        (Runs.outputs programStep requests programStart threeClients) =
          [(0,[97,10]),(2,[97,10,98,10])] := by
  obtain ⟨s,hs⟩ := Option.isSome_iff_exists.mp (show (Runs.checkedRun programStep calmCheck
    programStart threeClients).isSome by decide)
  obtain ⟨hr,hc⟩ := Runs.checked_run hs
  obtain ⟨σ,hσ,hout,-⟩ := program_refines hr (hc.mono fun _ _ => calm_of_check)
  exact ⟨s,σ,hr,hσ,hout.trans (by decide)⟩

end AesdProgram
