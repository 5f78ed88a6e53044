import Aesd.Library.BlockHeap
import Mathlib.Data.List.Basic
import Mathlib.Data.Int.Notation

namespace Kernel
open BlockHeap

abbrev Bytes := List UInt8

def newline : UInt8 := 10

def eintr : ℤ := 4
def enomem : ℤ := 12
def efault : ℤ := 14
def einval : ℤ := 22
def enotty : ℤ := 25

inductive Oops where
  | nullRead
  | nullWrite
  | deadRead (p : ℕ)
  | deadWrite (p : ℕ)
  | overrun (p : ℕ)
  | deadFree (p : ℕ)
  deriving DecidableEq, Repr

-- what one system call can meet: a signal while it waits for the lock, a fault in its user copy,
-- the outcome of each of its kmalloc calls, and the bytes that lie past the end of a block
structure CallEnv where
  interrupted : Bool
  uncopied : Bool
  kmallocOk : ℕ → Bool
  beyond : ℕ → ℕ → UInt8

def calm : CallEnv := ⟨false,false,fun _ => true,fun _ _ => 0⟩

def AllocFails (env : CallEnv) : Prop := ∃ k, env.kmallocOk k = false

structure Memory where
  heap : Heap UInt8
  kmallocs : ℕ

def kmalloc (env : CallEnv) (m : Memory) (size : ℕ) : Option ℕ × Memory :=
  if env.kmallocOk m.kmallocs then
    (some m.heap.next,⟨m.heap.alloc (List.replicate size 0),m.kmallocs + 1⟩)
  else (none,{ m with kmallocs := m.kmallocs + 1 })

def kfree (m : Memory) : Option ℕ → Except Oops Memory
  | none => .ok m
  | some p => if m.heap.Live p then .ok { m with heap := m.heap.free p } else .error (.deadFree p)

def extent (b : Bytes) (beyond : ℕ → UInt8) (off n : ℕ) : Bytes :=
  (List.range n).map fun i => b[off + i]?.getD (beyond (off + i))

def load (env : CallEnv) (m : Memory) (off n : ℕ) : Option ℕ → Except Oops Bytes
  | none => if n = 0 then .ok [] else .error .nullRead
  | some p =>
      match m.heap.block p with
      | none => .error (.deadRead p)
      | some b => .ok (extent b (env.beyond m.kmallocs) off n)

def save (m : Memory) (off : ℕ) (src : Bytes) : Option ℕ → Except Oops Memory
  | none => if src = [] then .ok m else .error .nullWrite
  | some p =>
      match m.heap.block p with
      | none => .error (.deadWrite p)
      | some b =>
          if off + src.length ≤ b.length then
            .ok { m with heap := m.heap.store p (b.take off ++ src ++ b.drop (off + src.length)) }
          else .error (.overrun p)

def memcpy (env : CallEnv) (m : Memory) (dest : Option ℕ) (src : Option ℕ) (srcOff n : ℕ) :
    Except Oops Memory := do
  let bytes ← load env m srcOff n src
  save m 0 bytes dest

-- the bytes that could not be copied are zero-filled in the destination, as the kernel does
def copyFromUser (env : CallEnv) (m : Memory) (dest : Option ℕ) (off : ℕ) (buf : Bytes) :
    Except Oops (Bool × Memory) := do
  if env.uncopied && !buf.isEmpty then
    let m ← save m off (List.replicate buf.length 0) dest
    return (true,m)
  let m ← save m off buf dest
  return (false,m)

def memchr (env : CallEnv) (m : Memory) (src : Option ℕ) (off n : ℕ) : Except Oops (Option ℕ) := do
  if n = 0 then return none
  let bytes ← load env m off n src
  return (bytes.findIdx? (· == newline)).map (off + ·)

theorem extent_length (b : Bytes) (beyond : ℕ → UInt8) (off n : ℕ) :
    (extent b beyond off n).length = n := by simp [extent]

theorem extent_inside {b : Bytes} {off n : ℕ} (h : off + n ≤ b.length) (beyond : ℕ → UInt8) :
    extent b beyond off n = (b.drop off).take n := by
  apply List.ext_getElem?
  intro i
  by_cases hi : i < n
  · have hb : off + i < b.length := by omega
    simp [extent,hi,hb]
  · rw [List.getElem?_eq_none (by simpa [extent] using hi),
      List.getElem?_eq_none (by simp only [List.length_take]; omega)]

theorem extent_all (b : Bytes) (beyond : ℕ → UInt8) : extent b beyond 0 b.length = b := by
  rw [extent_inside (by omega)]
  simp

@[simp] theorem ok_bind {A B : Type} (a : A) (f : A → Except Oops B) :
    (Except.ok a >>= f) = f a := rfl

@[simp] theorem error_bind {A B : Type} (e : Oops) (f : A → Except Oops B) :
    (Except.error e >>= f) = Except.error e := rfl

theorem bind_some {A B : Type} {x : Except Oops A} {f : A → Except Oops B} {b : B}
    (h : x >>= f = .ok b) : ∃ a, x = .ok a ∧ f a = .ok b := by
  cases x with
  | error e => cases h
  | ok a => exact ⟨a,rfl,h⟩

@[simp] theorem pure_ok {A : Type} (a : A) : (pure a : Except Oops A) = Except.ok a := rfl

section Frontier
variable {env : CallEnv} {m m' : Memory}

theorem kmalloc_next (env : CallEnv) (m : Memory) (size : ℕ) :
    m.heap.next ≤ (kmalloc env m size).2.heap.next := by
  unfold kmalloc
  split_ifs
  · exact Nat.le_succ _
  · exact Nat.le_refl _

theorem kfree_next {p : Option ℕ} (h : kfree m p = .ok m') : m'.heap.next = m.heap.next := by
  cases p with
  | none => cases h; rfl
  | some p =>
    simp only [kfree] at h
    split_ifs at h
    cases h
    rfl

theorem save_next {off : ℕ} {src : Bytes} {p : Option ℕ} (h : save m off src p = .ok m') :
    m'.heap.next = m.heap.next := by
  cases p with
  | none =>
    simp only [save] at h
    split_ifs at h
    cases h
    rfl
  | some p =>
    simp only [save] at h
    cases hb : m.heap.block p with
    | none => simp [hb] at h
    | some b =>
      simp only [hb] at h
      split_ifs at h
      cases h
      rfl

theorem memcpy_next {dest src : Option ℕ} {off n : ℕ} (h : memcpy env m dest src off n = .ok m') :
    m'.heap.next = m.heap.next := by
  unfold memcpy at h
  cases hl : load env m off n src with
  | error e => simp [hl] at h
  | ok bytes =>
    rw [hl,ok_bind] at h
    exact save_next h

theorem copy_from_user_next {dest : Option ℕ} {off : ℕ} {buf : Bytes} {r : Bool}
    (h : copyFromUser env m dest off buf = .ok (r,m')) : m'.heap.next = m.heap.next := by
  cases hu : env.uncopied && !buf.isEmpty with
  | true =>
    cases hs : save m off (List.replicate buf.length 0) dest with
    | error e => simp [copyFromUser,hu,hs] at h
    | ok m₁ =>
      simp only [copyFromUser,hu,hs,if_true,ok_bind,pure_ok,Except.ok.injEq,Prod.mk.injEq] at h
      rw [← h.2]
      exact save_next hs
  | false =>
    cases hs : save m off buf dest with
    | error e => simp [copyFromUser,hu,hs] at h
    | ok m₁ =>
      simp [copyFromUser,hu,hs] at h
      rw [← h.2]
      exact save_next hs

end Frontier

section Specifications
variable {env : CallEnv} {m : Memory} {cells : List (ℕ × Bytes)}

theorem kmalloc_fails (h : env.kmallocOk m.kmallocs = false) (size : ℕ) :
    kmalloc env m size = (none,{ m with kmallocs := m.kmallocs + 1 }) := by simp [kmalloc,h]

theorem kmalloc_succeeds (h : env.kmallocOk m.kmallocs = true) (hc : m.heap.Holds cells)
    (size : ℕ) : ∃ p m', kmalloc env m size = (some p,m') ∧ m'.kmallocs = m.kmallocs + 1 ∧
      m'.heap.Holds ((p,List.replicate size 0) :: cells) :=
  ⟨m.heap.next,⟨m.heap.alloc (List.replicate size 0),m.kmallocs + 1⟩,by simp [kmalloc,h],rfl,
    hc.alloc _⟩

theorem kfree_live {p : ℕ} {b : Bytes} (hc : m.heap.Holds ((p,b) :: cells)) :
    ∃ m', kfree m (some p) = .ok m' ∧ m'.kmallocs = m.kmallocs ∧ m'.heap.Holds cells := by
  have hl : m.heap.Live p := (hc.live_iff p).mpr (by simp)
  exact ⟨{ m with heap := m.heap.free p },by simp [kfree,hl],rfl,hc.free⟩

theorem load_live {p : ℕ} {b : Bytes} (hc : m.heap.Holds cells) (hp : (p,b) ∈ cells) (off n : ℕ) :
    load env m off n (some p) = .ok (extent b (env.beyond m.kmallocs) off n) := by
  simp [load,hc.read hp]

theorem save_live {p : ℕ} {b : Bytes} (hc : m.heap.Holds ((p,b) :: cells)) {off : ℕ} {src : Bytes}
    (hs : off + src.length ≤ b.length) :
    ∃ m', save m off src (some p) = .ok m' ∧ m'.kmallocs = m.kmallocs ∧
      m'.heap.Holds ((p,b.take off ++ src ++ b.drop (off + src.length)) :: cells) := by
  refine ⟨{ m with heap := m.heap.store p _ },?_,rfl,hc.store _⟩
  simp only [save,hc.read (List.mem_cons_self ..),if_pos hs]

theorem save_whole {p : ℕ} {b : Bytes} (hc : m.heap.Holds ((p,b) :: cells)) {src : Bytes}
    (hs : src.length = b.length) :
    ∃ m', save m 0 src (some p) = .ok m' ∧ m'.kmallocs = m.kmallocs ∧
      m'.heap.Holds ((p,src) :: cells) := by
  have hz : 0 + src.length ≤ b.length := by omega
  obtain ⟨m',hm,hk,hh⟩ := save_live hc hz
  refine ⟨m',hm,hk,?_⟩
  simpa [hs] using hh

theorem memcpy_fill (env : CallEnv) {p q : ℕ} {b src : Bytes} (off : ℕ) {n : ℕ}
    (hc : m.heap.Holds ((p,b) :: cells))
    (hq : (q,src) ∈ cells) (hb : b.length = n) :
    ∃ m', memcpy env m (some p) (some q) off n = .ok m' ∧ m'.kmallocs = m.kmallocs ∧
      m'.heap.Holds ((p,extent src (env.beyond m.kmallocs) off n) :: cells) := by
  have hl : (extent src (env.beyond m.kmallocs) off n).length = b.length := by rw [extent_length,hb]
  obtain ⟨m',hm,hk,hh⟩ := save_whole hc hl
  refine ⟨m',?_,hk,hh⟩
  rw [memcpy,load_live hc (List.mem_cons_of_mem _ hq)]
  exact hm

theorem memcpy_front (env : CallEnv) {p q : ℕ} {b src : Bytes}
    (hc : m.heap.Holds ((p,b) :: cells)) (hq : (q,src) ∈ cells) (hb : src.length ≤ b.length) :
    ∃ m', memcpy env m (some p) (some q) 0 src.length = .ok m' ∧ m'.kmallocs = m.kmallocs ∧
      m'.heap.Holds ((p,src ++ b.drop src.length) :: cells) := by
  have hz : 0 + src.length ≤ b.length := by omega
  obtain ⟨m',hm,hk,hh⟩ := save_live hc hz
  refine ⟨m',?_,hk,by simpa using hh⟩
  rw [memcpy,load_live hc (List.mem_cons_of_mem _ hq),extent_all]
  exact hm

theorem memcpy_block (env : CallEnv) {p q : ℕ} {b src : Bytes}
    (hc : m.heap.Holds ((p,b) :: cells)) (hq : (q,src) ∈ cells) (hb : b.length = src.length) :
    ∃ m', memcpy env m (some p) (some q) 0 src.length = .ok m' ∧ m'.kmallocs = m.kmallocs ∧
      m'.heap.Holds ((p,src) :: cells) := by
  obtain ⟨m',hm,hk,hh⟩ := memcpy_front env hc hq (by omega)
  rw [← hb,List.drop_length,List.append_nil] at hh
  exact ⟨m',hm,hk,hh⟩

theorem memcpy_null {q : ℕ} {src : Bytes} {off n : ℕ} (hc : m.heap.Holds cells)
    (hq : (q,src) ∈ cells) (hn : 0 < n) :
    memcpy env m none (some q) off n = .error .nullWrite := by
  have hne : extent src (env.beyond m.kmallocs) off n ≠ [] := by
    intro he
    have := congrArg List.length he
    simp [extent_length] at this
    omega
  rw [memcpy,load_live hc hq]
  change save m 0 (extent src (env.beyond m.kmallocs) off n) none = _
  simp only [save,if_neg hne]

theorem memchr_live {p : ℕ} {b : Bytes} (hc : m.heap.Holds cells) (hp : (p,b) ∈ cells) {off n : ℕ}
    (hin : off + n ≤ b.length) :
    memchr env m (some p) off n =
      .ok ((((b.drop off).take n).findIdx? (· == newline)).map (off + ·)) := by
  by_cases hn : n = 0
  · simp [memchr,hn]
  · simp [memchr,hn,load_live hc hp,extent_inside hin]

end Specifications

end Kernel
