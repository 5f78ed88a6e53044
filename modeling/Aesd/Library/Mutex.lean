import Mathlib.Data.Option.Basic

namespace Mutex

-- parties that share one mutex, more than one of them on a thread
variable {P T : Type} {thread : P → T} {holds holds' : P → Prop} {owner owner' : Option T}

structure Exclusive (thread : P → T) (holds : P → Prop) (owner : Option T) : Prop where
  owned : ∀ a, holds a → owner = some (thread a)
  alone : ∀ a b, holds a → holds b → a = b

inductive Move (thread : P → T) (holds : P → Prop) (owner : Option T) (holds' : P → Prop) :
    Option T → Prop
  | lock (a : P) (hf : owner = none) (h : ∀ b, holds' b → b = a ∨ holds b) :
      Move thread holds owner holds' (some (thread a))
  | unlock (a : P) (ha : holds a) (h : ∀ b, holds' b → holds b ∧ b ≠ a) :
      Move thread holds owner holds' none
  | kept (h : ∀ b, holds' b → holds b) : Move thread holds owner holds' owner

theorem Exclusive.not_holds (he : Exclusive thread holds owner) (hf : owner = none) (a : P) :
    ¬ holds a := by
  intro ha
  have hown := he.owned a ha
  rw [hf] at hown
  cases hown

theorem exclusive_start (hn : ∀ a, ¬ holds a) : Exclusive thread holds owner :=
  ⟨fun a ha => absurd ha (hn a),fun a _ ha => absurd ha (hn a)⟩

theorem Exclusive.move (he : Exclusive thread holds owner)
    (hm : Move thread holds owner holds' owner') : Exclusive thread holds' owner' := by
  cases hm with
  | lock a hf h =>
    have hall (b : P) (hb : holds' b) : b = a := (h b hb).resolve_right (he.not_holds hf b)
    refine ⟨fun b hb => ?_,fun b c hb hc => ?_⟩
    · rw [hall b hb]
    · rw [hall b hb,hall c hc]
  | unlock a ha h =>
    exact exclusive_start fun b hb => (h b hb).2 (he.alone b a (h b hb).1 ha)
  | kept h =>
    exact ⟨fun b hb => he.owned b (h b hb),fun b c hb hc => he.alone b c (h b hb) (h c hc)⟩

end Mutex
