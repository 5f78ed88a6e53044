import Aesd.CharDriver.OpenFiles
import Aesd.CharDriver.Ownership
import Mathlib.Data.Fintype.Basic

namespace Device
open BlockHeap CircularBuffer AesdCircularBuffer Kernel

-- a dev_t has the minor number in its low 20 bits
def mkdev (major minor : ℕ) : ℕ := major <<< 20 ||| minor

def majorOf (dev : ℕ) : ℕ := dev >>> 20

def aesdMinor : ℕ := 0

-- what alloc_chrdev_region gives, a major number or its negative result, and what cdev_add returns
structure LoadEnv where
  region : Except ℤ ℕ
  cdevAdd : ℤ

structure LoadedModule where
  dev : AesdDev
  aesdMajor : ℕ

-- the kernel as the module sees it: its own blocks, the device numbers that are registered, those
-- that a cdev answers for, and the files that are open on the device
structure Host (F : Type) where
  heap : Heap UInt8
  chrdevs : List ℕ
  cdevs : List ℕ
  loaded : Option LoadedModule
  fPos : F → Option ℕ

inductive HostEvent (F : Type) where
  | insmod (env : LoadEnv)
  | rmmod
  | call (c : FileCall F)

namespace Host
variable {F : Type}

def booted (chrdevs cdevs : List ℕ) : Host F := ⟨Heap.empty,chrdevs,cdevs,none,fun _ => none⟩

def aesdSetupCdev (env : LoadEnv) (aesdMajor : ℕ) (h : Host F) : ℤ × Host F :=
  let devno := mkdev aesdMajor aesdMinor
  if env.cdevAdd = 0 then (0,{ h with cdevs := devno :: h.cdevs }) else (env.cdevAdd,h)

def aesdInitModule (env : LoadEnv) (h : Host F) : ℤ × Host F :=
  match env.region with
  | .error result => (result,h)
  | .ok major =>
      let dev := mkdev major aesdMinor
      let aesdMajor := majorOf dev
      let registered := { h with chrdevs := dev :: h.chrdevs }
      let (result,h) := aesdSetupCdev env aesdMajor registered
      if result ≠ 0 then (result,{ h with chrdevs := h.chrdevs.erase dev })
      else (result,{ h with loaded := some ⟨⟨aesdCircularBufferInit,none,0⟩,aesdMajor⟩ })

def driverOf (h : Host F) (m : LoadedModule) : Driver := ⟨h.heap,m.dev⟩

def aesdCleanupModule (h : Host F) (m : LoadedModule) : Except Oops (Host F) := do
  let devno := mkdev m.aesdMajor aesdMinor
  let d ← Device.aesdCleanupModule (h.driverOf m)
  return { h with
    heap := d.heap
    chrdevs := h.chrdevs.erase devno
    cdevs := h.cdevs.erase devno
    loaded := none }

def openFiles (h : Host F) (m : LoadedModule) : OpenFiles F := ⟨h.driverOf m,h.fPos⟩

def after (h : Host F) (m : LoadedModule) (t : OpenFiles F) : Host F :=
  { h with heap := t.driver.heap, loaded := some { m with dev := t.driver.dev }, fPos := t.fPos }

-- an open file holds the module, which rmmod then refuses to unload
def step [DecidableEq F] [Fintype F] (fixedSizeLlseek : ℤ → ℤ → ℤ → ℤ → ℤ × ℤ) (h : Host F) :
    HostEvent F → Option (Host F)
  | .insmod env => if h.loaded.isNone then some (h.aesdInitModule env).2 else none
  | .rmmod => h.loaded.bind fun m =>
      if ∀ f, h.fPos f = none then (h.aesdCleanupModule m).toOption else none
  | .call c => h.loaded.bind fun m =>
      (callStep (OpenFiles.perform fixedSizeLlseek) (h.openFiles m) c).map (h.after m)

end Host

theorem major_of_mkdev (major : ℕ) : majorOf (mkdev major aesdMinor) = major := by
  simp [majorOf,mkdev,aesdMinor,Nat.shiftLeft_shiftRight]

section States
variable {F : Type}

structure Unloaded (chrdevs cdevs : List ℕ) (h : Host F) : Prop where
  loaded : h.loaded = none
  freed : ∀ p, ¬ h.heap.Live p
  chrdevs : h.chrdevs = chrdevs
  cdevs : h.cdevs = cdevs

structure Registered (chrdevs cdevs : List ℕ) (h : Host F) (m : LoadedModule) : Prop where
  loaded : h.loaded = some m
  chrdevs : h.chrdevs = mkdev m.aesdMajor aesdMinor :: chrdevs
  cdevs : h.cdevs = mkdev m.aesdMajor aesdMinor :: cdevs

-- nothing of the module is left when it is out, and when it is in it can be taken out
inductive Tidy (chrdevs cdevs : List ℕ) (h : Host F) : Prop
  | out (hu : Unloaded chrdevs cdevs h)
  | inside {m : LoadedModule} (hr : Registered chrdevs cdevs h m) (hc : Clean (h.driverOf m))
      (ho : ∃ h', h.aesdCleanupModule m = .ok h' ∧ Unloaded chrdevs cdevs h')

-- what holds whatever the calls do
inductive Known (chrdevs cdevs : List ℕ) (h : Host F) : Prop
  | out (hu : Unloaded chrdevs cdevs h)
  | inside {m : LoadedModule} {L : Logical} (hr : Registered chrdevs cdevs h m)
      (hs : Shows (h.driverOf m) L)

def LosesFragment (h : Host F) : HostEvent F → Prop
  | .call (.write f env buf) => ∃ m, h.loaded = some m ∧ h.fPos f ≠ none ∧
      FaultsWithFragment (h.driverOf m) ⟨env,buf⟩
  | _ => False

end States

section Loading
variable {F : Type} {chrdevs cdevs : List ℕ} {h h' : Host F} {m : LoadedModule}

theorem holds_nothing {A : Type} {heap : Heap A} (h : ∀ p, ¬ heap.Live p) : heap.Holds [] := by
  refine ⟨List.nodup_nil,fun p b => ?_⟩
  have hdead : heap.block p = none := by simpa [Heap.Live] using h p
  simp [hdead]

theorem booted_unloaded (chrdevs cdevs : List ℕ) :
    Unloaded chrdevs cdevs (Host.booted chrdevs cdevs : Host F) :=
  ⟨rfl,fun p hp => by simp [Host.booted,Heap.empty,Heap.Live] at hp,rfl,rfl⟩

theorem init_module_cases (env : LoadEnv) (hu : Unloaded chrdevs cdevs h) :
    (h.aesdInitModule env).2 = h ∨ ∃ m, Registered chrdevs cdevs (h.aesdInitModule env).2 m ∧
      Stored ((h.aesdInitModule env).2.driverOf m) [] none := by
  unfold Host.aesdInitModule
  cases env.region with
  | error result => exact Or.inl rfl
  | ok major =>
    simp only [Host.aesdSetupCdev]
    by_cases hadd : env.cdevAdd = 0
    · right
      rw [if_pos hadd]
      refine ⟨⟨⟨aesdCircularBufferInit,none,0⟩,majorOf (mkdev major aesdMinor)⟩,?_,?_⟩
      · refine ⟨rfl,?_,?_⟩
        · simp [hu.chrdevs,major_of_mkdev]
        · simp [hu.cdevs]
      · exact ⟨wf_init,content_init,rfl,rfl,by simp,holds_nothing hu.freed⟩
    · left
      simp [hadd]

theorem cleanup_unregisters (hr : Registered chrdevs cdevs h m) {d : Driver}
    (hd : Device.aesdCleanupModule (h.driverOf m) = .ok d) (hf : ∀ p, ¬ d.heap.Live p) :
    ∃ h', h.aesdCleanupModule m = .ok h' ∧ Unloaded chrdevs cdevs h' := by
  refine ⟨_,by rw [Host.aesdCleanupModule,hd]; rfl,rfl,hf,?_,?_⟩
  · simp [hr.chrdevs]
  · simp [hr.cdevs]

theorem stale_cleanup {d : Driver} {held : List (ℕ × Bytes)} {p : ℕ} (hs : Stale d held p) :
    Device.aesdCleanupModule d = .error (.deadFree p) := by
  have hdead : ¬ d.heap.Live p := fun hl => hs.dead ((hs.heap.live_iff p).mp hl)
  simp [Device.aesdCleanupModule,hs.buffer,kfree,hdead]

theorem cleanup_module_cases {L : Logical} (hr : Registered chrdevs cdevs h m)
    (hs : Shows (h.driverOf m) L) (hc : h.aesdCleanupModule m = .ok h') :
    Unloaded chrdevs cdevs h' := by
  cases hs with
  | intact hs =>
    obtain ⟨d,hd,hf⟩ := cleanup_holds hs
    obtain ⟨h₁,hok,hu⟩ := cleanup_unregisters hr hd hf
    rw [hc] at hok
    cases hok
    exact hu
  | stale hs =>
    rw [Host.aesdCleanupModule,stale_cleanup hs] at hc
    cases hc

theorem tidy_iff (hr : Registered chrdevs cdevs h m) :
    Tidy chrdevs cdevs h ↔ Clean (h.driverOf m) := by
  constructor
  · rintro (hu | ⟨hr',hc,-⟩)
    · have hn := hu.loaded
      rw [hr.loaded] at hn
      cases hn
    · have he := hr'.loaded
      rw [hr.loaded] at he
      cases he
      exact hc
  · intro hc
    obtain ⟨d,hd,hf⟩ := hc.cleanup
    exact .inside hr hc (cleanup_unregisters hr hd hf)

end Loading

section Steps
variable {F : Type} [DecidableEq F] {fixedSizeLlseek : ℤ → ℤ → ℤ → ℤ → ℤ × ℤ} {t t' : OpenFiles F}

theorem write_call_driver {f : F} {env : CallEnv} {buf : Bytes}
    (h : callStep (OpenFiles.perform fixedSizeLlseek) t (.write f env buf) = some t') :
    t.fPos f ≠ none ∧ writeStep t.driver ⟨env,buf⟩ = some t'.driver := by
  simp only [callStep,OpenFiles.perform] at h
  cases hp : t.fPos f with
  | none => simp [hp] at h
  | some p =>
    rw [hp,Option.bind_some] at h
    refine ⟨by simp,?_⟩
    cases hw : aesdWrite env t.driver buf with
    | error e => simp [hw] at h
    | ok x =>
      simp only [hw,Option.map_some,Option.some.injEq] at h
      simp [writeStep,hw,← h]

theorem other_call_driver {c : FileCall F}
    (h : callStep (OpenFiles.perform fixedSizeLlseek) t c = some t')
    (hc : ∀ f env buf, c ≠ .write f env buf) : t'.driver = t.driver := by
  cases c with
  | write f env buf => exact absurd rfl (hc f env buf)
  | openFile f =>
    simp only [callStep,OpenFiles.perform] at h
    split at h
    · cases h
      rfl
    · cases h
  | read f env count =>
    simp only [callStep,OpenFiles.perform,Option.map_eq_some_iff,Option.bind_eq_some_iff] at h
    obtain ⟨x,⟨p,-,hx⟩,rfl⟩ := h
    split at hx
    · cases hx
      rfl
    · cases hx
  | release f | llseek f off whence | ioctl f env cmd arg =>
    simp only [callStep,OpenFiles.perform,Option.map_map,Option.map_eq_some_iff] at h
    obtain ⟨p,-,rfl⟩ := h
    rfl

theorem call_driver {c : FileCall F}
    (h : callStep (OpenFiles.perform fixedSizeLlseek) t c = some t') :
    (∃ f env buf, c = .write f env buf ∧ t.fPos f ≠ none ∧
        writeStep t.driver ⟨env,buf⟩ = some t'.driver) ∨
      (∀ f env buf, c ≠ .write f env buf) ∧ t'.driver = t.driver := by
  by_cases hc : ∃ f env buf, c = .write f env buf
  · obtain ⟨f,env,buf,rfl⟩ := hc
    exact Or.inl ⟨f,env,buf,rfl,write_call_driver h⟩
  · have hother : ∀ f env buf, c ≠ .write f env buf := fun f env buf he => hc ⟨f,env,buf,he⟩
    exact Or.inr ⟨hother,other_call_driver h hother⟩

theorem call_shows {c : FileCall F} {L : Logical} (hs : Shows t.driver L)
    (h : callStep (OpenFiles.perform fixedSizeLlseek) t c = some t') : ∃ L', Shows t'.driver L' := by
  rcases call_driver h with ⟨f,env,buf,-,-,hw⟩ | ⟨-,he⟩
  · obtain ⟨r,hok⟩ := write_step_returns hw
    exact shown_write hs hok
  · exact ⟨L,he ▸ hs⟩

theorem call_clean {c : FileCall F} {L : Logical} (hs : Shows t.driver L) (hc : Clean t.driver)
    (h : callStep (OpenFiles.perform fixedSizeLlseek) t c = some t') :
    Clean t'.driver ↔ ¬ ∃ f env buf, c = .write f env buf ∧ t.fPos f ≠ none ∧
      FaultsWithFragment t.driver ⟨env,buf⟩ := by
  rcases call_driver h with ⟨f,env,buf,rfl,hp,hw⟩ | ⟨hother,he⟩
  · rw [clean_step hs hc hw,not_iff_not]
    constructor
    · intro hf
      exact ⟨f,env,buf,rfl,hp,hf⟩
    · rintro ⟨f',env',buf',he,-,hf⟩
      cases he
      exact hf
  · rw [he]
    refine ⟨?_,fun _ => hc⟩
    rintro - ⟨f,env,buf,rfl,-⟩
    exact hother f env buf rfl

variable [Fintype F] {chrdevs cdevs : List ℕ} {h h' : Host F}

-- a step from a state with the module in: it is taken out, or its files are used
theorem inside_step {e : HostEvent F} {m : LoadedModule} (hm : h.loaded = some m)
    (hs : h.step fixedSizeLlseek e = some h') :
    (e = .rmmod ∧ h.aesdCleanupModule m = .ok h') ∨ ∃ c t, e = .call c ∧
      callStep (OpenFiles.perform fixedSizeLlseek) (h.openFiles m) c = some t ∧ h' = h.after m t := by
  cases e with
  | insmod env => simp [Host.step,hm] at hs
  | rmmod =>
    simp only [Host.step,hm,Option.bind_some] at hs
    split at hs
    · cases hc : h.aesdCleanupModule m with
      | error e => simp [hc,Except.toOption] at hs
      | ok h₁ =>
        simp only [hc,Except.toOption,Option.some.injEq] at hs
        exact Or.inl ⟨rfl,congrArg Except.ok hs⟩
    · cases hs
  | call c =>
    simp only [Host.step,hm,Option.bind_some,Option.map_eq_some_iff] at hs
    obtain ⟨t,ht,rfl⟩ := hs
    exact Or.inr ⟨c,t,rfl,ht,rfl⟩

theorem outside_step {e : HostEvent F} (hn : h.loaded = none)
    (hs : h.step fixedSizeLlseek e = some h') :
    ∃ env, e = .insmod env ∧ h' = (h.aesdInitModule env).2 := by
  cases e with
  | insmod env =>
    simp only [Host.step,hn,Option.isNone_none,if_true,Option.some.injEq] at hs
    exact ⟨env,rfl,hs.symm⟩
  | rmmod | call c => simp [Host.step,hn] at hs

theorem known_step {e : HostEvent F} (hk : Known chrdevs cdevs h)
    (hs : h.step fixedSizeLlseek e = some h') : Known chrdevs cdevs h' := by
  cases hk with
  | out hu =>
    obtain ⟨env,rfl,rfl⟩ := outside_step hu.loaded hs
    rcases init_module_cases env hu with hsame | ⟨m,hr,hstored⟩
    · exact .out (hsame.symm ▸ hu)
    · exact .inside hr (.intact hstored)
  | inside hr hshows =>
    rcases inside_step hr.loaded hs with ⟨rfl,hc⟩ | ⟨c,t,rfl,ht,rfl⟩
    · exact .out (cleanup_module_cases hr hshows hc)
    · obtain ⟨L',hL⟩ := call_shows hshows ht
      exact .inside ⟨rfl,hr.chrdevs,hr.cdevs⟩ hL

theorem tidy_step {e : HostEvent F} (hk : Known chrdevs cdevs h) (ht : Tidy chrdevs cdevs h)
    (hs : h.step fixedSizeLlseek e = some h') : Tidy chrdevs cdevs h' ↔ ¬ LosesFragment h e := by
  cases hk with
  | out hu =>
    obtain ⟨env,rfl,rfl⟩ := outside_step hu.loaded hs
    refine ⟨fun _ hl => hl,fun _ => ?_⟩
    rcases init_module_cases env hu with hsame | ⟨m,hr,hstored⟩
    · exact .out (hsame.symm ▸ hu)
    · exact (tidy_iff hr).mpr (stored_clean hstored)
  | inside hr hshows =>
    have hclean := (tidy_iff hr).mp ht
    rcases inside_step hr.loaded hs with ⟨rfl,hc⟩ | ⟨c,t,rfl,ht,rfl⟩
    · exact ⟨fun _ hl => hl,fun _ => .out (cleanup_module_cases hr hshows hc)⟩
    · rename_i m L
      have hreg : Registered chrdevs cdevs (h.after m t) { m with dev := t.driver.dev } :=
        ⟨rfl,hr.chrdevs,hr.cdevs⟩
      have hcall := call_clean hshows hclean ht
      rw [tidy_iff hreg]
      refine hcall.trans (not_congr ⟨?_,?_⟩)
      · rintro ⟨f,env,buf,rfl,hp,hf⟩
        exact ⟨m,hr.loaded,hp,hf⟩
      · intro hl
        cases c with
        | write f env buf =>
          obtain ⟨m',hm',hp,hf⟩ := hl
          rw [hr.loaded] at hm'
          cases hm'
          exact ⟨f,env,buf,rfl,hp,hf⟩
        | openFile | release | read | llseek | ioctl => exact absurd hl (fun h => h)

theorem known_run {events : List (HostEvent F)}
    (hr : Runs.run (Host.step fixedSizeLlseek) (Host.booted chrdevs cdevs) events = some h) :
    Known chrdevs cdevs h :=
  Runs.run_invariant (fun _ _ _ hk hs => known_step hk hs) (.out (booted_unloaded chrdevs cdevs)) hr

-- the module can be loaded, used and unloaded any number of times, with loads that fail half-way
theorem module_cycle_exact {events : List (HostEvent F)}
    (hr : Runs.run (Host.step fixedSizeLlseek) (Host.booted chrdevs cdevs) events = some h) :
    (∀ done, done <+: events → ∀ m,
        Runs.run (Host.step fixedSizeLlseek) (Host.booted chrdevs cdevs) done = some m →
        Tidy chrdevs cdevs m) ↔
      Runs.Along (Host.step fixedSizeLlseek) (fun m e => ¬ LosesFragment m e)
        (Host.booted chrdevs cdevs) events :=
  Runs.prefixes_iff_along (I := fun _ m => Tidy chrdevs cdevs m) (.out (booted_unloaded _ _))
    (fun _ _ _ _ hm ht hs => tidy_step (known_run hm) ht hs) hr

end Steps

def loadedTwice : List (HostEvent Unit) :=
  [.insmod ⟨.ok 240,0⟩,.call (.openFile ()),.call (.write () calm [97]),.call (.release ()),.rmmod,
    .insmod ⟨.ok 240,-enomem⟩,.insmod ⟨.error (-einval),0⟩,.insmod ⟨.ok 241,0⟩]

theorem module_cycle_exact_of_two :
    ∃ h, Runs.run (Host.step boundedLlseek) (Host.booted [7] [7]) loadedTwice = some h ∧
      ((∀ done, done <+: loadedTwice → ∀ m,
          Runs.run (Host.step boundedLlseek) (Host.booted [7] [7]) done = some m →
          Tidy [7] [7] m) ↔
        Runs.Along (Host.step boundedLlseek) (fun m e => ¬ LosesFragment m e)
          (Host.booted [7] [7]) loadedTwice) := by
  obtain ⟨h,hh⟩ := Option.isSome_iff_exists.mp
    (show (Runs.run (Host.step boundedLlseek) (Host.booted [7] [7]) loadedTwice).isSome by decide)
  exact ⟨h,hh,module_cycle_exact hh⟩

end Device
