import BlockScript.Proofs.Running

namespace BlockScript.Proofs.Parameters

open Eval Evaluator Running

variable {σ : Store} {n : String} {v : Term} {b : Bindings} {st : State}

def bound : Nat → List (String × Term) → Bindings → Bindings
  | _, [], b => b
  | marks, (n, v) :: ps, b => bound (marks + 1) ps (b.set n (.var v false n (marks + 1)))

theorem setBinding_alloc (σ : Store) (c : Scope) (n : String) (f : Term) :
    (σ.alloc c).setBinding σ.size n f = σ.alloc { c with bindings := c.bindings.set n f } := by
  rw [Store.setBinding, Store.modify, Store.alloc, Store.alloc, Store.size]
  congr 1
  apply Array.ext
  · simp
  · intro k hk hk'
    rw [Array.getElem_modify, Array.getElem_push, Array.getElem_push]
    grind

theorem define_alloc {c : Scope} (hitems : c.kind.items? = none)
    (hconst : c.bindings.isConstant n = false) (f : Term) :
    (σ.alloc c).define σ.size n f = .ok (σ.alloc { c with bindings := c.bindings.set n f }) := by
  have hget : (σ.alloc c).get σ.size = c := by rw [Store.get_alloc, if_pos rfl]
  rw [Store.define, Store.items?, hget, hitems]
  simp only [Store.defineBinding, hget, hconst, setBinding_alloc]
  rfl

theorem isConstant_set (hb : ∀ m, b.isConstant m = false) (marks : Nat) (m : String) :
    (b.set n (.var v false n marks)).isConstant m = false := by
  rw [Bindings.isConstant, Bindings.get?_set]
  by_cases hm : m = n
  · rw [if_pos hm]
  · rw [if_neg hm]
    exact hb m

theorem bindParams_apply (c : Scope) (hitems : c.kind.items? = none)
    (hconst : ∀ m, c.bindings.isConstant m = false) (hst : st.store = σ.alloc c)
    (ps : List (String × Term)) : bindParams σ.size ps st = (.ok (), { st with
      store := σ.alloc { c with bindings := bound st.marks ps c.bindings }
      marks := st.marks + ps.length }) := by
  induction ps generalizing st c with
  | nil =>
      obtain ⟨store, _⟩ := st
      cases hst
      rfl
  | cons q ps ih =>
      obtain ⟨n, v⟩ := q
      have hmark : freshMark st = (.ok (st.marks + 1), { st with marks := st.marks + 1 }) := rfl
      have hdefine : Eval.define σ.size n (.var v false n (st.marks + 1)) { st with marks := st.marks + 1 } =
          (.ok (), { st with
            store := σ.alloc { c with bindings := c.bindings.set n (.var v false n (st.marks + 1)) }
            marks := st.marks + 1 }) := by
        rw [Eval.define, updateStore_apply, hst, define_alloc hitems (hconst n)]
      rw [bindParams, bind_of_ok hmark, bind_of_ok hdefine,
        ih { c with bindings := c.bindings.set n (.var v false n (st.marks + 1)) } hitems
          (isConstant_set hconst (st.marks + 1)) rfl,
        List.length_cons, bound, Nat.add_right_comm, Nat.add_assoc]

end BlockScript.Proofs.Parameters
