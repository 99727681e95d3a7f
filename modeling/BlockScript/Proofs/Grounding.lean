import BlockScript.Proofs.Heap
import BlockScript.Proofs.Precedence

namespace BlockScript.Proofs.Grounding

open Faulting Heap Precedence Writable Writing

variable {σ : Store} {s : ScopeId} {M : List ScopeId}

/-- Every search in the store has an end: looking for a name comes to an answer, and so does going
through the parents, which the chain of a scope does not cut short. -/
structure Grounded (σ : Store) : Prop where
  owner : ∀ s n, ∃ owner, σ.owner? s n = .ok owner
  chain : ∀ s, σ.chain s = s :: (σ.get s).parent.elim [] σ.chain

theorem grounded_of_wellFormed (h : WellFormed M σ) : Grounded σ := by
  have hparent : OlderParents σ := fun s p hp => (h.parent s p hp).1
  have hleaf (m) (hm : IsLeaf (σ.get m)) : Acc (fun t s => t ∈ σ.nexts s) m := by
    refine ⟨m, fun t ht => ?_⟩
    rw [Store.nexts, hm.1, hm.2] at ht
    cases ht
  have hacc (s) : Acc (fun t s => t ∈ σ.nexts s) s := by
    -- mixins lead no further, and parents are older
    induction s using Nat.strongRecOn with
    | ind s ih =>
        refine ⟨s, fun t ht => ?_⟩
        rcases List.mem_append.1 ht with ht | ht
        · exact hleaf t (h.mixins s t ht).2
        · exact ih t (hparent s t (Option.mem_toList.1 ht))
  have hσ := acyclic_of_wellFounded ⟨hacc⟩
  exact ⟨fun s n => ⟨_, owner?_eq hσ s n⟩, chain_eq hparent⟩

section Texts

variable {width : Nat} {t : Term} {f : Fault}

theorem numeral_bounded (k : Int) : Faults (fun f => f.isExhaustion = false) (σ.numeral k) := by
  rw [Store.numeral]
  split
  · exact .ok _
  · exact .error rfl

theorem circular_of_source {level : Int} (h : σ.source width level t = .error f)
    (hf : f.isExhaustion = true) : Circular σ t := by
  by_contra hc
  rw [source_faults level hc (fun k _ => numeral_bounded k) f h] at hf
  cases hf

theorem circular_of_display (h : σ.display width t = .error f) (hf : f.isExhaustion = true) :
    Circular σ t := by
  by_contra hc
  rw [display_faults hc (fun k _ => numeral_bounded k) f h] at hf
  cases hf

theorem inspectWithin_bounded (depth : Nat) (within : List ScopeId) (s : ScopeId) :
    Faults (fun f => f.isExhaustion = false) (σ.inspectWithin depth within s) := by
  induction depth generalizing within s with
  | zero => exact .ok _
  | succ depth ih =>
      rw [Store.inspectWithin]
      split
      · split
        · exact .ok _
        · refine (Faults.mapM fun x _ => ?_).bind fun _ _ => .pure _
          exact inspectWith_faults numeral_bounded (fun u => ih _ u) x
      · exact .ok _

theorem inspect_bounded (h : σ.inspect t = .error f) : f.isExhaustion = false :=
  inspectWith_faults numeral_bounded (fun u => inspectWithin_bounded _ _ u) t f h

end Texts

end BlockScript.Proofs.Grounding
