import BlockScript.Kit
import BlockScript.Proofs.Likeness
import Mathlib.Data.List.Forall2

namespace BlockScript.Proofs.LikenessKit

open Eval Kit

variable {K : Likeness} {call call' : Caller} {i : Invocation}

structure Indistinct (σ τ : Store) : Prop where
  items : ∀ s, σ.items? s = τ.items? s
  parent : ∀ s, (σ.get s).parent = (τ.get s).parent
  equal : ∀ a b, σ.equal? a b = τ.equal? a b
  inspect : ∀ t, σ.inspect t = τ.inspect t

structure Equipped (K : Likeness) : Prop where
  read : ∀ {α : Type} {P : α → α → Prop} {k k' : Store → Eval α},
    (∀ σ τ, Indistinct σ τ → K.rel P (k σ) (k' τ)) → K.rel P (getStore >>= k) (getStore >>= k')
  watch : ∀ {k : Nat → Eval Term}, (∀ d, K.Same (k d)) → K.Same (do let st ← get; k st.depth)
  emit : ∀ e, K.Same (emit e)
  addMixin : ∀ s source, K.Same (updateStore (·.addMixin s source))
  newScope : ∀ p, K.Same (alloc { parent := p })

structure Framing (K : Likeness) (key : String) : Prop where
  clear : key = "clear-stack" → K.Same (modify fun st => { st with frames := [] })
  stack : ∀ {k : List Frame → Eval Term}, key = "stack" → (∀ fs, K.Same (k fs)) →
    K.Same (do let st ← get; k st.frames)

theorem forM_same (H : K.Kept) {α : Type} (xs : List α) {k : α → Eval Unit}
    (h : ∀ x, K.Same (k x)) : K.Same (xs.forM k) := by
  induction xs with
  | nil => exact H.value _
  | cons x xs ih => exact H.next (h x) fun _ => ih

theorem mapM_like (H : K.Kept) {α β : Type} (xs : List α) {k k' : α → Eval β}
    (h : ∀ x, K.rel Eq (k x) (k' x)) : K.rel Eq (xs.mapM k) (xs.mapM k') := by
  induction xs with
  | nil => exact H.value _
  | cons x xs ih =>
      rw [List.mapM_cons, List.mapM_cons]
      refine H.bind (h x) fun y _ hy => ?_
      cases hy
      refine H.bind ih fun ys _ hys => ?_
      cases hys
      exact H.value _

theorem refuse_same (H : K.Kept) {α : Type} (message : String) :
    K.Same (refuse message : Eval α) :=
  H.fail _ (by simp)

theorem sum_same (H : K.Kept) (ts : List Term) : K.Same (sum ts) := by
  rw [sum]
  split
  · exact H.value _
  · exact refuse_same H _

theorem operands_same (H : K.Kept) (name : String) (ts : List Term) :
    K.Same (operands name ts) := by
  rw [operands.eq_def]
  split
  · exact H.value _
  · exact refuse_same H _

theorem divide_same (H : K.Kept) (a b : Int) : K.Same (divide a b) := by
  rw [divide]
  split
  · exact H.fail _ (by simp)
  · exact H.value _

theorem equality_same (H : K.Kept) (F : Equipped K) (ts : List Term) : K.Same (equality ts) := by
  rw [equality.eq_def]
  split
  · refine F.read fun σ τ h => ?_
    rw [h.equal]
    split
    · exact H.value _
    · exact H.fail _ (by simp [Fault.endless])
  · exact refuse_same H _

theorem memoryArg_same (H : K.Kept) (name : String) (ts : List Term) :
    K.Same (memoryArg name ts) := by
  rw [memoryArg.eq_def]
  split
  · exact H.value _
  · exact refuse_same H _

theorem functionOf_same (H : K.Kept) (s : ScopeId) (n : String) : K.Same (functionOf s n) := by
  refine H.next (H.lookup s n) fun r => ?_
  split
  · exact H.next H.freshMark fun _ => H.value _
  · exact H.value _

theorem fault_ne_depthExceeded {σ : Store} {name : String} {t : Term} {f : Fault}
    (h : fault? σ name t = some f) (limit depth : Nat) : f ≠ .depthExceeded limit depth := by
  rw [fault?] at h
  split at h
  next message _ =>
      obtain ⟨before, after, hf, -⟩ := List.lookup_eq_some_iff.1 h
      have hmem : (name, f) ∈ faults message := by simp [hf]
      rintro rfl
      simp [faults] at hmem
  next reason _ =>
      obtain ⟨g, -, rfl⟩ := Option.map_eq_some_iff.1 h
      rintro ⟨⟩

theorem raise_same (H : K.Kept) (F : Equipped K) (ts : List Term) : K.Same (raise ts) := by
  rw [raise.eq_def]
  split
  next name t _ =>
      refine F.read fun σ τ h => ?_
      have hmessage : messageOf σ t = messageOf τ t := by
        rw [messageOf.eq_def, messageOf.eq_def]
        split
        · rfl
        · exact h.inspect t
      have hfault : fault? σ name t = fault? τ name t := by
        rw [fault?, fault?, hmessage]
      rw [hfault]
      split
      next f hf => exact H.fail f (fault_ne_depthExceeded hf)
      next => exact refuse_same H _
  next => exact refuse_same H _
  next => exact H.fail _ (by simp [Fault.noPosition])

theorem mixInto_same (H : K.Kept) (F : Equipped K) (s : ScopeId) (t : Term) :
    K.Same (mixInto s t) := by
  rw [mixInto.eq_def]
  split
  · exact F.addMixin s _
  · exact H.value _

theorem branch_like (H : K.Kept) (hc : K.Calls call call') :
    K.rel Eq (branch call i) (branch call' i) := by
  rw [branch, branch]
  cases i.block with
  | none => exact refuse_same H _
  | some b =>
      simp only
      split
      · exact hc.same b (by simp [Invocation.plainly])
      · exact H.value _

theorem each_like (H : K.Kept) (F : Equipped K) (hc : K.Calls call call') :
    K.rel Eq (each call i) (each call' i) := by
  refine F.read fun σ τ h => ?_
  cases i.first
  case scope s =>
      simp only [h.items]
      cases τ.items? s with
      | none => exact refuse_same H _
      | some xs =>
          refine H.bind (mapM_like H xs.zipIdx fun p => ?_) fun ys _ hys => ?_
          · exact hc.same _ (by simp [Invocation.plainly])
          · cases hys
            exact H.newList ys
  all_goals exact refuse_same H _

theorem natives_like (H : K.Kept) (F : Equipped K) (hc : K.Calls call call')
    (hi : ∀ t ∈ i.block, K.block t) {key : String} (S : Framing K key) :
    List.Forall₂ (fun p q => p.1 = q.1 ∧ (p.1 = key → K.rel Eq (p.2 i) (q.2 i)))
      (natives call) (natives call') := by
  have binary (name : String) {k : Int × Int → Eval Term} (hk : ∀ ab, K.Same (k ab)) :
      K.Same (operands name i.args >>= k) := H.next (operands_same H name i.args) hk
  simp only [natives, List.forall₂_cons, List.forall₂_nil_left_iff, and_true, true_and]
  refine ⟨fun _ => sum_same H _, fun _ => binary "sub" fun _ => H.value _,
    fun _ => binary "mul" fun _ => H.value _, fun _ => binary "div" fun _ => divide_same H _ _,
    fun _ => binary "lt" fun _ => H.value _, fun _ => sum_same H _, fun _ => equality_same H F _,
    fun _ => branch_like H hc, fun _ => each_like H F hc, fun _ => hc.same _ hi,
    fun _ => H.next (memoryArg_same H _ _) fun _ => functionOf_same H _ _, ?bind,
    fun _ => raise_same H F _, ?emit, ?mixin, ?clear, fun _ => H.value _, ?parent,
    fun _ => H.newList _, fun _ => H.next (F.newScope _) fun _ => H.value _,
    fun _ => H.next (F.newScope _) fun _ => H.value _, fun _ => H.value _, fun _ => H.value _,
    fun _ => H.value _, ?depth, ?stack, fun _ => H.next (H.typeName _) fun _ => H.value _,
    fun _ => H.value _⟩
  case bind =>
    intro _
    refine H.next (memoryArg_same H _ _) fun p => ?_
    exact H.next (H.define _ _ _) fun _ => H.value _
  case emit =>
    intro _
    exact H.next (H.displayLine _) fun _ => H.next (F.emit _) fun _ => H.value _
  case mixin =>
    intro _
    refine H.next ?_ fun _ => H.value _
    cases i.scope with
    | none => exact H.value _
    | some s => exact forM_same H _ fun t => mixInto_same H F s t
  case clear =>
    intro hkey
    exact H.next (S.clear hkey.symm) fun _ => H.value _
  case parent =>
    intro _
    split
    · refine F.read fun σ τ h => ?_
      rw [h.parent]
      exact H.value _
    · exact refuse_same H _
  case depth =>
    intro _
    exact F.watch (k := fun d => pure (.num d)) fun d => H.value _
  case stack =>
    intro hkey
    have hstack := S.stack (k := fun frames => newList (frames.reverse.map fun f => .str f.name))
      hkey.symm fun frames => H.newList _
    exact hstack

theorem rel_lookup {α : Type} {R : α → α → Prop} {key : String} {xs ys : List (String × α)}
    (h : List.Forall₂ (fun p q => p.1 = q.1 ∧ (p.1 = key → R p.2 q.2)) xs ys) :
    Option.Rel R (xs.lookup key) (ys.lookup key) := by
  induction h with
  | nil => exact .none
  | @cons p q xs ys hpq _ ih =>
      obtain ⟨hname, hrel⟩ := hpq
      rw [List.lookup_cons, List.lookup_cons, ← hname]
      by_cases hkey : key == p.1
      · simp only [hkey]
        exact .some (hrel (beq_iff_eq.1 hkey).symm)
      · simp only [hkey]
        exact ih

theorem native_like (H : K.Kept) (F : Equipped K) (hc : K.Calls call call')
    (hi : ∀ t ∈ i.block, K.block t) {key : String} (S : Framing K key) :
    K.rel Eq (Kit.native call key i) (Kit.native call' key i) := by
  have h := rel_lookup (R := fun m m' : Invocation → Eval Term => K.rel Eq (m i) (m' i))
    (natives_like H F hc hi S)
  rw [Kit.native, Kit.native]
  generalize (natives call).lookup key = r at h ⊢
  generalize (natives call').lookup key = r' at h ⊢
  cases h with
  | none => exact refuse_same H _
  | some h => exact h

theorem native_alone {key : String} (h : key ∉ ["if", "each", "invoke"]) (call call' : Caller) :
    Kit.native call key = Kit.native call' key := by
  simp only [List.mem_cons, List.not_mem_nil, or_false, not_or] at h
  have hnatives : List.Forall₂ (fun p q => p.1 = q.1 ∧ (p.1 = key → p.2 = q.2)) (Kit.natives call)
      (Kit.natives call') := by
    simp [Kit.natives, Ne.symm h.1, Ne.symm h.2.1, Ne.symm h.2.2]
  have hlookup := rel_lookup hnatives
  funext i
  rw [Kit.native, Kit.native]
  generalize (Kit.natives call).lookup key = r at hlookup ⊢
  generalize (Kit.natives call').lookup key = r' at hlookup ⊢
  cases hlookup with
  | none => rfl
  | some h => rw [h]

end BlockScript.Proofs.LikenessKit
