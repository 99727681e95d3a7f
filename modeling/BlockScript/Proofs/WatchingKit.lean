import BlockScript.Proofs.ConductKit
import BlockScript.Proofs.LawfulKit
import BlockScript.Proofs.Watching

namespace BlockScript.Proofs.Watching

open Eval Evaluator Kit Law LikenessKit

variable {L : Law} {σ : Store} {call call' : Caller} {i : Invocation} {key : String}

theorem frameless_operands (name : String) (ts : List Term) {k : Int × Int → Eval Term}
    (hk : ∀ ab, Plain (k ab)) : Frameless (operands name ts >>= k) :=
  .plain ((plain_operands name ts).bind hk)

theorem frameless_functionOf (s : ScopeId) (n : String) : Frameless (functionOf s n) := by
  refine (Frameless.plain (.lookup s n)).bind fun r => ?_
  split
  · exact (Frameless.aside .freshMark).bind fun _ => .value _
  · exact .value _

theorem frameless_mixInto (s : ScopeId) (t : Term) : Frameless (mixInto s t) := by
  rw [mixInto.eq_def]
  split
  · exact .updateStore _
  · exact .value _

theorem frameless_forM {α : Type} (xs : List α) {k : α → Eval Unit} (h : ∀ x, Frameless (k x)) :
    Frameless (xs.forM k) := by
  induction xs with
  | nil => exact .value _
  | cons x xs ih => exact (h x).bind fun _ => ih

theorem frameless_native {p : String × (Invocation → Eval Term)} (hp : p ∈ natives call)
    (hkey : p.1 ∉ ["if", "each", "invoke", "clear-stack"]) : Frameless (p.2 i) := by
  revert hkey
  revert p
  simp only [natives, List.forall_mem_cons]
  refine ⟨fun _ => .plain (plain_sum _), fun _ => frameless_operands _ _ fun _ => .pure _,
    fun _ => frameless_operands _ _ fun _ => .pure _,
    fun _ => frameless_operands _ _ fun _ => plain_divide _ _,
    fun _ => frameless_operands _ _ fun _ => .pure _, fun _ => .plain (plain_sum _),
    fun _ => .plain (plain_equality _), fun h => absurd h (by simp), fun h => absurd h (by simp),
    fun h => absurd h (by simp),
    fun _ => (Frameless.plain (plain_memoryArg _ _)).bind fun _ => frameless_functionOf _ _,
    fun _ => ?bind, fun _ => .plain (plain_raise _),
    fun _ => (Frameless.plain (.displayLine _)).bind fun _ => (Frameless.aside (.emit _)).bind
      fun _ => .value _,
    fun _ => ?mixin, fun h => absurd h (by simp), fun _ => .value _, fun _ => ?parent,
    fun _ => .newList _, fun _ => (Frameless.alloc _).bind fun _ => .value _,
    fun _ => (Frameless.alloc _).bind fun _ => .value _, fun _ => .value _, fun _ => .value _,
    fun _ => .value _, fun _ => (Frameless.plain .get).bind fun _ => .value _,
    fun _ => (Frameless.plain .get).bind fun _ => .newList _,
    fun _ => (Frameless.plain (.typeName _)).bind fun _ => .value _, fun _ => .value _, by simp⟩
  case bind =>
    refine (Frameless.plain (plain_memoryArg _ _)).bind fun _ => ?_
    exact (Frameless.updateStore _).bind fun _ => .value _
  case mixin =>
    refine Frameless.bind ?_ fun _ => .value _
    cases i.scope with
    | none => exact .value _
    | some s => exact frameless_forM _ fun t => frameless_mixInto s t
  case parent =>
    split
    · exact (Frameless.plain .getStore).bind fun _ => .value _
    · exact .plain (plain_refuse _)

theorem frameless_kitNative (hkey : key ∉ ["if", "each", "invoke", "clear-stack"]) :
    Frameless (Kit.native call key i) := by
  rw [Kit.native]
  split
  next native h =>
      obtain ⟨before, after, hnatives, -⟩ := List.lookup_eq_some_iff.1 h
      have hmem : (key, native) ∈ natives call := by simp [hnatives]
      exact frameless_native hmem hkey
  next => exact .plain (plain_refuse _)

section Calling

variable (U : L.Upheld)
include U

theorem mapM_tracks {α : Type} {xs : List α} {k k' : α → Eval Term}
    (h : ∀ x ∈ xs, ∀ τ, L.Later σ τ → Tracks L τ (k x) (k' x) L.value) :
    Tracks L σ (xs.mapM k) (xs.mapM k') fun τ ys => ∀ y ∈ ys, L.value τ y := by
  induction xs generalizing σ with
  | nil => exact .value U fun _ _ => by simp
  | cons x xs ih =>
      rw [List.mapM_cons, List.mapM_cons]
      have hx : Tracks L σ (k x) (k' x) L.value :=
        .start U fun τ hτ => h x List.mem_cons_self τ hτ
      refine .bind U hx fun τ hτ y hy => ?_
      refine .bind U (ih fun z hz υ hυ => h z (List.mem_cons_of_mem _ hz) υ ?_) fun υ hυ ys hys => ?_
      · exact ⟨U.trans hτ.step hυ.step, hυ.inv⟩
      · refine .value U fun ρ hρ => List.forall_mem_cons.2 ⟨?_, fun z hz => ?_⟩
        · exact U.value_later hρ.step (U.value_later hυ.step hy)
        · exact U.value_later hρ.step (hys z hz)

variable (hc : TracksCalls L call call') (hi : L.Served σ i)
include hc hi

theorem branch_tracks : Tracks L σ (branch call i) (branch call' i) L.value := by
  rw [branch, branch]
  split
  next => exact .fail U _
  next b hb =>
      split
      next args h =>
          have hargs : ∀ t ∈ args, L.value σ t := fun t ht => hi.args t (by simp [h, ht])
          exact hc σ b _ (hi.callable_plainly U (U.value_of_block (hi.block b hb)) args hargs)
      next => exact .value U fun _ _ => U.null

theorem each_tracks (A : L.Accommodating) :
    Tracks L σ (each call i) (each call' i) L.value := by
  refine .bind U (.of_meets U (.getStore U) (.plain .getStore)) fun τ hτ ρ hρ => ?_
  subst hρ
  have hiτ := hi.later U hτ
  split
  next s hs =>
      split
      next xs hxs =>
          have hx : ∀ t ∈ xs, L.value ρ t := A.listed hτ.inv (hs ▸ U.value_first hiτ.args) hxs
          refine .bind U (mapM_tracks U fun x hx' υ hυ => ?_) fun _ _ ys hys =>
            .of_meets U (.newList U hys) (.newList ys)
          have hiυ := hiτ.later U hυ
          refine hc υ _ _ (hiυ.callable_plainly U (value_block U hiυ) _ fun t ht => ?_)
          rcases List.mem_cons.1 ht with rfl | ht
          · exact U.value_later hυ.step (hx _ (List.fst_mem_of_mem_zipIdx hx'))
          · exact List.mem_singleton.1 ht ▸ U.num _
      next => exact .fail U _
  next => exact .fail U _

end Calling

theorem kit_tracked (U : L.Upheld) (A : L.Accommodating) (hallows : ∀ key, L.Allows key) :
    TrackedBy L Kit.host := by
  intro call call' hc key σ i hi
  change Tracks L σ (Kit.native call key i) (Kit.native call' key i) L.value
  by_cases hback : key ∈ ["if", "each", "invoke"]
  · simp only [List.mem_cons, List.not_mem_nil, or_false] at hback
    rcases hback with rfl | rfl | rfl
    · exact branch_tracks U hc hi
    · exact each_tracks U hc hi A
    · exact hc σ _ _ (hi.callable U (U.value_first hi.args) _ fun t ht =>
        hi.args t (List.mem_of_mem_tail ht))
  · rw [native_alone hback call fun _ _ => Eval.fail .endless,
      native_alone hback call' fun _ _ => Eval.fail .endless]
    have hmeets := kitNative_meets U A (calls_fail U) hi (hallows key)
    by_cases hclear : key = "clear-stack"
    · subst hclear
      exact fun st hst _ => ⟨rfl, (hmeets st hst).1, (hmeets st hst).2, List.forall_mem_nil _, nofun⟩
    · refine .of_meets U hmeets (frameless_kitNative ?_)
      simp only [List.mem_cons, List.not_mem_nil, or_false, not_or] at hback ⊢
      exact ⟨hback.1, hback.2.1, hback.2.2, hclear⟩

end BlockScript.Proofs.Watching
