import BlockScript.Proofs.Constants
import BlockScript.Proofs.Records

namespace BlockScript.Proofs.Protection

open Eval Evaluator Running Writing Constants Records

variable {host : Host} {call : Caller} {σ τ : Store} {s : ScopeId} {n : String} {v : Term} {k : Nat}
  {st : State}

/-- The name is bound to a constant in the scope itself, and it stands for its binding there. -/
structure Fixed (σ : Store) (s : ScopeId) (n : String) (v : Term) (k : Nat) : Prop where
  made : s < σ.size
  named : (σ.items? s).isSome → ∀ limit, SlotName.ofName limit n = .binding
  entry : (σ.get s).bindings.get? n = some (.var v true n k)

theorem Fixed.owns (h : Fixed σ s n v k) : σ.owns s n = true := by
  rw [Store.owns, Bindings.owns, h.entry]
  rfl

theorem Fixed.lookup (h : Fixed σ s n v k) : σ.lookup s n = .ok (some (.var v true n k)) := by
  have hbinding : σ.lookupBinding s n = .ok (some (.var v true n k)) := by
    have howner : σ.owner? s n = .ok (some s) := by
      rw [Store.owner?, Store.ownerWithin, if_pos h.owns]
    simp only [Store.lookupBinding, howner]
    change Except.ok (((σ.get s).bindings.get? n).bind Term.present?) = _
    rw [h.entry]
    rfl
  rw [Store.lookup]
  split
  next => exact hbinding
  next xs hx =>
      have hname := h.named (by rw [hx]; rfl) σ.digitLimit
      simp only [hname, hbinding]

theorem Fixed.define (h : Fixed σ s n v k) (f : Term) :
    σ.define s n f = .error (.constantRedefined n) := by
  have hbinding : σ.defineBinding s n f = .error (.constantRedefined n) := by
    rw [Store.defineBinding, if_pos (isConstant_of_get h.entry)]
  rw [Store.define]
  split
  next => exact hbinding
  next xs hx =>
      have hname := h.named (by rw [hx]; rfl) σ.digitLimit
      simp only [hname, hbinding]

theorem isSome_items (h : Enduring σ τ) (hs : s < σ.size) :
    (τ.items? s).isSome = (σ.items? s).isSome := by
  have ho := congrArg Prod.fst (h.origin s hs)
  simp only [origin] at ho
  rw [Store.items?, Store.items?]
  cases hσ : (σ.get s).kind
  all_goals cases hτ : (τ.get s).kind
  all_goals rw [hσ, hτ] at ho
  all_goals first | rfl | cases ho

theorem Fixed.later (h : Fixed σ s n v k) (hkept : Enduring σ τ) (hedits : Edits σ τ)
    (hn : removals τ s n = removals σ s n) : Fixed τ s n v k where
  made := Nat.lt_of_lt_of_le h.made hkept.size
  named hx := h.named (by rw [← isSome_items hkept h.made]; exact hx)
  entry := (hedits.lasting.constants s n v n k h.entry).resolve_right (by omega)

theorem fixed_define (hs : s < σ.size)
    (hname : (σ.items? s).isSome → SlotName.isNumeral n = false)
    (h : σ.define s n (.var v true n k) = .ok τ) : Fixed τ s n v k := by
  obtain ⟨hbinding, -, rfl⟩ | ⟨xs, i, _, _, _, _, hx, hi, -, -, -⟩ := define_cases h
  · have hget : (σ.setBinding s n (.var v true n k)).get s =
        { σ.get s with bindings := (σ.get s).bindings.set n (.var v true n k) } := by
      rw [Store.setBinding, Store.get_modify, if_pos ⟨rfl, hs⟩]
    constructor
    · rw [Store.setBinding, Store.size_modify]
      exact hs
    · intro hx limit
      rw [Store.items?, hget, ← Store.items?] at hx
      obtain ⟨xs, hx⟩ := Option.isSome_iff_exists.1 hx
      exact SlotName.ofName_eq_binding_iff.2 (SlotName.ofName_eq_binding_iff.1 (hbinding xs hx))
    · rw [hget]
      simp only [Bindings.get?_set, if_true]
  · have hnumeral := hname (by rw [hx]; rfl)
    rw [SlotName.ofName, hnumeral] at hi
    split at hi
    · cases hi
    · cases hi

inductive Serves (host : Host) : Caller → Prop
  | outermost : Serves host (caller host)
  | inside (room budget : Nat) : Serves host (dispatch host (enterBlock host room) budget)

theorem Serves.edits (hc : Serves host call) (hh : EditsByName host) (f : Term) (i : Invocation)
    (st : State) : Edits st.store (call f i st).2.store := by
  have hbehind : Law.Behind host call := by
    cases hc with
    | outermost => exact .outermost
    | inside room budget => exact .native room budget
  exact editLaw_dynamic.called hh hbehind f i st

theorem Serves.keeps (hc : Serves host call) (hk : KeepsRecords host) (f : Term) (i : Invocation)
    (st : State) : Enduring st.store (call f i st).2.store := by
  have hcalls : (keeping st.store).Calls call call := by
    cases hc with
    | outermost => exact Records.caller_calls hk st.store
    | inside room budget =>
        exact Likeness.dispatch_calls (keeping_kept st.store) (hk st.store)
          (Records.enterBlock_enters hk st.store room) budget
  exact (hcalls f i i ⟨rfl, rfl, fun _ _ => trivial, .inl rfl⟩ st (.refl _)).2.2

section Binding

variable {op : Builtin} {constant : Bool} {i : Invocation} {rest : List Term} {b r w : Term}
  {st₁ st' : State} (hargs : i.args = .memory s n :: rest) (hblock : i.block = some b)
include hargs hblock

theorem bindValue_apply : Builtin.bindValue call op constant i st =
    (call b (i.plainly []) >>= fun v => freshMark >>= fun k =>
      Eval.define s n (.var v constant n k) >>= fun _ => pure .null) st := by
  rw [Builtin.bindValue, Builtin.memoryArg, hargs, Builtin.blockArg, hblock]
  rfl

theorem bindValue_of_ok (hcall : call b (i.plainly []) st = (.ok w, st₁)) :
    Builtin.bindValue call op constant i st =
      (Eval.define s n (.var w constant n (st₁.marks + 1)) >>= fun _ => pure .null)
        { st₁ with marks := st₁.marks + 1 } := by
  rw [bindValue_apply hargs hblock, bind_of_ok hcall]
  rfl

theorem bindValue_ok (h : Builtin.bindValue call op constant i st = (.ok r, st')) :
    ∃ v k, (call b (i.plainly []) st).1 = .ok v ∧
      (call b (i.plainly []) st).2.store.define s n (.var v constant n k) = .ok st'.store := by
  rcases hcall : call b (i.plainly []) st with ⟨e | v, st₁⟩
  · rw [bindValue_apply hargs hblock, bind_apply, hcall] at h
    cases h
  · refine ⟨v, st₁.marks + 1, rfl, ?_⟩
    rw [bindValue_of_ok hargs hblock hcall, bind_apply, Eval.define, updateStore_apply] at h
    cases hd : st₁.store.define s n (.var v constant n (st₁.marks + 1)) with
    | ok τ =>
        simp only [hd] at h
        cases h
        rfl
    | error e =>
        simp only [hd] at h
        cases h

theorem bindValue_fixed (hcall : (call b (i.plainly []) st).1 = .ok w)
    (hfixed : Fixed (call b (i.plainly []) st).2.store s n v k) :
    (Builtin.bindValue call op constant i st).1 = .error ⟨.constantRedefined n, none⟩ ∧
      Fixed (Builtin.bindValue call op constant i st).2.store s n v k := by
  rcases hr : call b (i.plainly []) st with ⟨e | w', st₁⟩
  all_goals rw [hr] at hcall hfixed
  · cases hcall
  · rw [bindValue_of_ok hargs hblock hr, bind_apply, Eval.define, updateStore_apply]
    simp only [hfixed.define, true_and]
    exact hfixed

theorem fn_fixed (hfixed : Fixed st.store s n v k) :
    (Builtin.fn.run call i st).1 = .error ⟨.constantRedefined n, none⟩ ∧
      Fixed (Builtin.fn.run call i st).2.store s n v k := by
  have hrun : Builtin.fn.run call i st = (Eval.define s n b >>= fun _ => pure .null) st := by
    rw [Builtin.run, Builtin.memoryArg, hargs, Builtin.blockArg, hblock]
    rfl
  rw [hrun, bind_apply, Eval.define, updateStore_apply, hfixed.define]
  exact ⟨rfl, hfixed⟩

end Binding

/-- The builtin's block ends with a value, and meanwhile the entry of the name is not removed from
the scope. -/
structure Harmless (call : Caller) (s : ScopeId) (n : String) (b : Term) (i : Invocation)
    (st : State) : Prop where
  ends : ∃ w, (call b (i.plainly []) st).1 = .ok w
  keeps : removals (call b (i.plainly []) st).2.store s n = removals st.store s n

/-- As long as natives change bindings by definitions and removals alone and leave kinds of scopes as
they are, a constant, other than at a position of a list, cannot be bound again: `let`, `const` and
`fn` fail, and the name still gives the value of the constant's block. -/
theorem const_protects (hh : EditsByName host) (hk : KeepsRecords host) (hc : Serves host call)
    {i : Invocation} {rest : List Term} {b r : Term} {st' : State}
    (hargs : i.args = .memory s n :: rest) (hblock : i.block = some b) (hs : s < st.store.size)
    (hname : (st.store.items? s).isSome → SlotName.isNumeral n = false)
    (h : Builtin.letConst.run call i st = (.ok r, st')) :
    ∃ v k, (call b (i.plainly []) st).1 = .ok v ∧
      ∀ op ∈ [Builtin.letVar, .letConst, .fn], ∀ again, Serves host again →
        ∀ (j : Invocation) rest' b' (st₂ : State), j.args = .memory s n :: rest' →
          j.block = some b' → st₂.store = st'.store →
          (op ≠ .fn → Harmless again s n b' j st₂) →
          (op.run again j st₂).1 = .error ⟨.constantRedefined n, none⟩ ∧
            (op.run again j st₂).2.store.lookup s n = .ok (some (.var v true n k)) := by
  have hbound : Builtin.bindValue call .letConst true i st = (.ok r, st') := h
  obtain ⟨v, k, hv, hdefine⟩ := bindValue_ok hargs hblock hbound
  have hkept := hc.keeps hk b (i.plainly []) st
  have hfixed : Fixed st'.store s n v k := by
    apply fixed_define (Nat.lt_of_lt_of_le hs hkept.size) _ hdefine
    rw [isSome_items hkept hs]
    exact hname
  refine ⟨v, k, hv, ?_⟩
  intro op hop again ha j rest' b' st₂ hargs' hblock' hst₂ hharmless
  rw [← hst₂] at hfixed
  have hvalue (op' : Builtin) (constant : Bool) (hop' : op ≠ .fn) :
      (Builtin.bindValue again op' constant j st₂).1 = .error ⟨.constantRedefined n, none⟩ ∧
        Fixed (Builtin.bindValue again op' constant j st₂).2.store s n v k := by
    obtain ⟨⟨w, hw⟩, hkeeps⟩ := hharmless hop'
    apply bindValue_fixed hargs' hblock' hw
    exact hfixed.later (ha.keeps hk _ _ st₂) (ha.edits hh _ _ st₂) hkeeps
  have hall : (op.run again j st₂).1 = .error ⟨.constantRedefined n, none⟩ ∧
      Fixed (op.run again j st₂).2.store s n v k := by
    cases op with
    | letVar => exact hvalue .letVar false (by simp)
    | letConst => exact hvalue .letConst true (by simp)
    | fn => exact fn_fixed hargs' hblock' hfixed
    | _ => simp at hop
  exact ⟨hall.1, hall.2.lookup⟩

example : (Fault.constantRedefined "c").heading = "ConstantViolation" := rfl

def giving (name : String) (x : Int) : Invocation :=
  { args := [.memory 0 name], block := some (.block ⟨[.num x], []⟩ 0), scope := some 0 }

def given (st : State) (name : String) : Option Int :=
  match st.store.lookup 0 name with
  | .ok (some (.var v _ _ _)) => Kit.integer? v
  | _ => none

def untouched : State :=
  { store := { scopes := #[{}] }, limit := 5 }

theorem exists_ok {ε α : Type} {r : Except ε α} (h : r.toOption.isSome) : ∃ a, r = .ok a := by
  cases r with
  | ok a => exact ⟨a, rfl⟩
  | error e => cases h

theorem const_protects_giving :
    let first := Builtin.letConst.run (caller Kit.host) (giving "c" 2) untouched
    let second := Builtin.letVar.run (caller Kit.host) (giving "c" 3) first.2
    first.1.toOption.isSome ∧ second.1 = .error ⟨.constantRedefined "c", none⟩ ∧
      given second.2 "c" = some 2 := by
  intro first second
  have hsome : first.1.toOption.isSome := by decide +kernel
  have hvalue : (caller Kit.host (.block ⟨[.num 2], []⟩ 0) ((giving "c" 2).plainly [])
      untouched).1.toOption.bind Kit.integer? = some 2 := by decide +kernel
  have hends : (caller Kit.host (.block ⟨[.num 3], []⟩ 0) ((giving "c" 3).plainly [])
      first.2).1.toOption.isSome := by decide +kernel
  have hkeeps : removals (caller Kit.host (.block ⟨[.num 3], []⟩ 0) ((giving "c" 3).plainly [])
      first.2).2.store 0 "c" = removals first.2.store 0 "c" := by decide +kernel
  obtain ⟨r, hr⟩ := exists_ok hsome
  obtain ⟨v, k, hv, hfixed⟩ := const_protects Constants.kit_editsByName kit_keepsRecords .outermost
    (i := giving "c" 2) rfl rfl (by decide) (by decide) (Prod.ext hr rfl)
  obtain ⟨herror, hlookup⟩ := hfixed .letVar (by simp) (caller Kit.host) .outermost
    (giving "c" 3) [] (.block ⟨[.num 3], []⟩ 0) first.2 rfl rfl rfl
    fun _ => ⟨exists_ok hends, hkeeps⟩
  rw [hv] at hvalue
  refine ⟨hsome, herror, ?_⟩
  rw [given, hlookup]
  exact hvalue

def listed : State :=
  { store := { scopes := #[{ kind := .list [.num 1] }] }, limit := 5 }

/-- A position of a list keeps no more than its value: after `const` has put 2 there, `let` can put
3 there. -/
theorem const_yields_in_list :
    let first := Builtin.letConst.run (caller Kit.host) (giving "0" 2) listed
    let second := Builtin.letVar.run (caller Kit.host) (giving "0" 3) first.2
    first.1.toOption.isSome ∧ given first.2 "0" = some 2 ∧
      second.1.toOption.isSome ∧ given second.2 "0" = some 3 := by
  decide +kernel

end BlockScript.Proofs.Protection
