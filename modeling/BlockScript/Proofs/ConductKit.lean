import BlockScript.Kit
import BlockScript.Proofs.Conduct

namespace BlockScript.Proofs

open Eval Kit

section Plain

theorem plain_refuse {α : Type} (message : String) : Plain (refuse message : Eval α) := .fail _

theorem plain_sum (ts : List Term) : Plain (sum ts) := by
  rw [sum]
  split
  · exact .pure _
  · exact plain_refuse _

theorem plain_operands (name : String) (ts : List Term) : Plain (operands name ts) := by
  rw [operands.eq_def]
  split
  · exact .pure _
  · exact plain_refuse _

theorem plain_divide (a b : Int) : Plain (divide a b) := by
  rw [divide]
  split
  · exact .fail _
  · exact .pure _

theorem plain_equality (ts : List Term) : Plain (equality ts) := by
  rw [equality.eq_def]
  split
  · refine .bind .getStore fun _ => ?_
    split
    · exact .pure _
    · exact .fail _
  · exact plain_refuse _

theorem plain_memoryArg (name : String) (ts : List Term) : Plain (Kit.memoryArg name ts) := by
  rw [Kit.memoryArg.eq_def]
  split
  · exact .pure _
  · exact plain_refuse _

theorem plain_raise (ts : List Term) : Plain (raise ts) := by
  rw [raise.eq_def]
  split
  · refine .bind .getStore fun _ => ?_
    split
    · exact .fail _
    · exact plain_refuse _
  · exact plain_refuse _
  · exact .fail _

end Plain

namespace Conduct

variable {K : Conduct} {host : Host} {call : Caller} {i : Invocation} (U : K.Upheld host)
include U

theorem forM_keeps {α : Type} (xs : List α) {k : α → Eval Unit} (h : ∀ x, K.keeps (k x)) :
    K.keeps (xs.forM k) := by
  induction xs with
  | nil => exact U.value _
  | cons x xs ih => exact U.bind (h x) fun _ => ih

theorem mapM_keeps {α β : Type} (xs : List α) {k : α → Eval β} (h : ∀ x, K.keeps (k x)) :
    K.keeps (xs.mapM k) := by
  induction xs with
  | nil => exact U.value _
  | cons x xs ih =>
      rw [List.mapM_cons]
      exact U.bind (h x) fun _ => U.bind ih fun _ => U.value _

theorem functionOf_keeps (s : ScopeId) (n : String) : K.keeps (functionOf s n) := by
  refine U.next (.lookup s n) fun r => ?_
  split
  · exact U.bind (U.aside .freshMark) fun _ => U.value _
  · exact U.value _

theorem mixInto_keeps (s : ScopeId) (t : Term) : K.keeps (mixInto s t) := by
  rw [mixInto.eq_def]
  split
  · exact U.update (.addMixin s _)
  · exact U.value _

theorem branch_keeps (hc : K.Calls call) : K.keeps (branch call i) := by
  rw [branch]
  split
  · exact U.plain (plain_refuse _)
  · split
    · exact hc _ _
    · exact U.value _

theorem each_keeps (hc : K.Calls call) : K.keeps (each call i) := by
  refine U.next .getStore fun σ => ?_
  split
  · split
    · exact U.bind (mapM_keeps U _ fun _ => hc _ _) fun _ => U.newList _
    · exact U.plain (plain_refuse _)
  · exact U.plain (plain_refuse _)

theorem native_keeps (hc : K.Calls call) {p : String × (Invocation → Eval Term)}
    (hp : p ∈ natives call)
    (hclear : p.1 = "clear-stack" → K.keeps (modify fun st => { st with frames := [] })) :
    K.keeps (p.2 i) := by
  have binary (name : String) {k : Int × Int → Eval Term} (hk : ∀ ab, Plain (k ab)) :
      K.keeps (operands name i.args >>= k) := U.plain ((plain_operands _ _).bind hk)
  revert hclear
  revert p
  simp only [natives, List.forall_mem_cons]
  refine ⟨fun _ => U.plain (plain_sum _), fun _ => binary "sub" fun _ => .pure _,
    fun _ => binary "mul" fun _ => .pure _, fun _ => binary "div" fun _ => plain_divide _ _,
    fun _ => binary "lt" fun _ => .pure _, fun _ => U.plain (plain_sum _),
    fun _ => U.plain (plain_equality _), fun _ => branch_keeps U hc, fun _ => each_keeps U hc,
    fun _ => hc _ _,
    fun _ => U.next (plain_memoryArg _ _) fun _ => functionOf_keeps U _ _, fun _ => ?bind,
    fun _ => U.plain (plain_raise _),
    fun _ => U.next (.displayLine _) fun _ => U.bind (U.aside (.emit _)) fun _ => U.value _,
    fun _ => ?mixin, fun hclear => U.bind (hclear trivial) fun _ => U.value _,
    fun _ => U.value _, fun _ => ?parent, fun _ => U.newList _,
    fun _ => U.bind (U.alloc _) fun _ => U.value _, fun _ => U.bind (U.alloc _) fun _ => U.value _,
    fun _ => U.value _, fun _ => U.value _, fun _ => U.value _,
    fun _ => U.next .get fun _ => U.value _, fun _ => U.next .get fun _ => U.newList _,
    fun _ => U.next (.typeName _) fun _ => U.value _, fun _ => U.value _, by simp⟩
  case bind =>
    exact U.next (plain_memoryArg _ _) fun _ => U.bind (U.define _ _ _) fun _ => U.value _
  case mixin =>
    refine U.bind ?_ fun _ => U.value _
    cases i.scope with
    | none => exact U.value _
    | some s => exact forM_keeps U _ fun t => mixInto_keeps U s t
  case parent =>
    split
    · exact U.next .getStore fun _ => U.value _
    · exact U.plain (plain_refuse _)

theorem kitNative_keeps (hc : K.Calls call) {key : String}
    (hclear : key = "clear-stack" → K.keeps (modify fun st => { st with frames := [] })) :
    K.keeps (Kit.native call key i) := by
  rw [Kit.native]
  split
  next native h =>
      obtain ⟨before, after, hnatives, -⟩ := List.lookup_eq_some_iff.1 h
      have hmem : (key, native) ∈ natives call := by simp [hnatives]
      exact native_keeps U hc hmem hclear
  next => exact U.plain (plain_refuse _)

end Conduct

end BlockScript.Proofs
