import Mathlib.Data.List.Perm.Basic
import Mathlib.Data.List.Nodup
import Mathlib.Data.List.Pairwise

namespace Holdings

variable {R : Type} {opened opened' : R → Prop} {inUse inUse' : List R} {r : R}

-- every resource in use is open and has one user
structure Held (opened : R → Prop) (inUse : List R) : Prop where
  distinct : inUse.Nodup
  live : ∀ r ∈ inUse, opened r

theorem Held.nil : Held opened [] := ⟨List.nodup_nil,by simp⟩

theorem Held.kept (h : Held opened inUse) (hs : inUse'.Subperm inUse)
    (ho : ∀ r, opened r → opened' r) : Held opened' inUse' := by
  obtain ⟨l,hp,hl⟩ := hs
  exact ⟨hp.nodup_iff.mp (h.distinct.sublist hl),
    fun r hr => ho r (h.live r (hl.subset (hp.mem_iff.mpr hr)))⟩

theorem Held.acquired (h : Held opened inUse) (hr : ¬ opened r) (hp : inUse'.Perm (r :: inUse))
    (ho : ∀ q, opened q ∨ q = r → opened' q) : Held opened' inUse' := by
  refine ⟨hp.nodup_iff.mpr (List.nodup_cons.mpr ⟨fun hm => hr (h.live r hm),h.distinct⟩),?_⟩
  intro q hq
  rcases List.mem_cons.mp (hp.mem_iff.mp hq) with rfl | hq
  · exact ho q (Or.inr rfl)
  · exact ho q (Or.inl (h.live q hq))

theorem Held.released (h : Held opened inUse) (hp : inUse.Perm (r :: inUse'))
    (ho : ∀ q, q ≠ r → opened q → opened' q) : Held opened' inUse' := by
  obtain ⟨hfree,hn⟩ := List.nodup_cons.mp (hp.nodup_iff.mp h.distinct)
  refine ⟨hn,fun q hq => ho q (fun he => hfree (he ▸ hq)) (h.live q ?_)⟩
  exact hp.mem_iff.mpr (List.mem_cons_of_mem r hq)

section Users
variable {U : Type} {users : List U} {u v : U} {uses uses' : U → List R}

-- one user of a list gives up one resource
theorem flat_map_released (hn : users.Nodup) (hu : u ∈ users)
    (hself : (uses u).Perm (r :: uses' u)) (hothers : ∀ v, v ≠ u → uses v = uses' v) :
    (users.flatMap uses).Perm (r :: users.flatMap uses') := by
  obtain ⟨before,after,rfl⟩ := List.append_of_mem hu
  have hfree : u ∉ before ++ after := (List.nodup_cons.mp (List.nodup_middle.mp hn)).1
  have hne {v : U} (hv : v ∈ before ++ after) : v ≠ u := fun he => hfree (he ▸ hv)
  have hbefore : before.flatMap uses = before.flatMap uses' :=
    List.flatMap_congr fun v hv => hothers v (hne (List.mem_append_left _ hv))
  have hafter : after.flatMap uses = after.flatMap uses' :=
    List.flatMap_congr fun v hv => hothers v (hne (List.mem_append_right _ hv))
  rw [List.flatMap_append,List.flatMap_append,List.flatMap_cons,List.flatMap_cons,hbefore,hafter]
  exact ((hself.append_right _).append_left _).trans List.perm_middle

theorem Held.one_user (h : Held opened (users.flatMap uses)) (hu : u ∈ users) (hv : v ∈ users)
    (hne : u ≠ v) (hr : r ∈ uses u) : r ∉ uses v := by
  have hpair := (List.nodup_flatMap.mp h.distinct).2
  have : Std.Symm (Function.onFun List.Disjoint uses) := ⟨fun _ _ hd _ ha hb => hd hb ha⟩
  exact fun hr' => hpair.forall hu hv hne hr hr'

end Users

end Holdings
