import BlockScript.Proofs.Hosting
import BlockScript.Proofs.LawfulKit
import BlockScript.Proofs.Writing

namespace BlockScript.Proofs.Constants

open Evaluator Faulting Hosting Law Relation Writing

inductive Edit (σ τ : Store) : Prop
  | define {s n f} (h : σ.define s n f = .ok τ) : Edit σ τ
  | remove {s n} (h : σ.remove s n = .ok τ) : Edit σ τ
  | aside (bindings : ∀ s, (τ.get s).bindings = (σ.get s).bindings)
      (removed : ∀ s, (τ.get s).removed = (σ.get s).removed) : Edit σ τ

variable {σ τ : Store} {host : Host}

def Edits : Store → Store → Prop :=
  ReflTransGen Edit

theorem edit_modify {s : ScopeId} {e : Scope → Scope}
    (hb : (e (σ.get s)).bindings = (σ.get s).bindings)
    (hr : (e (σ.get s)).removed = (σ.get s).removed) : Edit σ (σ.modify s e) :=
  .aside (Formal.get_modify (g := Scope.bindings) hb) (Formal.get_modify (g := Scope.removed) hr)

theorem edit_alloc {c : Scope} (hb : c.bindings = []) (hr : c.removed = []) :
    Edit σ (σ.alloc c) := by
  have hnew : σ.get σ.size = {} := get_of_size_le (Nat.le_refl _)
  refine .aside (fun s => ?_) fun s => ?_
  all_goals
    rw [Store.get_alloc]
    split
    next hs => simp [hs, hnew, hb, hr]
    next => rfl

theorem edit_setReturned (s : ScopeId) (t : Term) : Edit σ (σ.setReturned s t) :=
  edit_modify rfl rfl

theorem edit_breakOff (s : ScopeId) : Edit σ (σ.breakOff s) := by
  apply edit_modify
  all_goals
    cases h : (σ.get s).kind <;> rfl

theorem edit_reset (s : ScopeId) : Edit σ (σ.reset s) := by
  apply edit_modify
  all_goals
    cases h : (σ.get s).kind <;> rfl

def editLaw : Law where
  inv _ := True
  step := Edits
  value _ _ := True
  block _ _ := True
  scope _ _ := True
  site _ _ := True

theorem later_edit (h : Edit σ τ) : editLaw.Later σ τ :=
  ⟨.single h, trivial⟩

theorem editLaw_upheld : editLaw.Upheld where
  refl _ := .refl
  trans := .trans
  value_later _ _ := trivial
  block_later _ _ := trivial
  scope_later _ _ := trivial
  site_later _ _ := trivial
  site_of_scope _ := trivial
  value_of_block _ := trivial
  yields _ := .inr fun _ _ => trivial
  literal _ := trivial
  memory _ := trivial
  target _ := trivial
  closure _ := trivial
  var := Iff.rfl
  found _ _ _ := trivial
  returned _ _ _ := trivial
  activation _ _ _ _ := ⟨fun _ _ => trivial, fun _ _ => trivial, fun _ _ => trivial⟩
  define _ _ _ _ h := later_edit (.define h)
  remove _ _ h := later_edit (.remove h)
  setReturned _ _ _ := later_edit (edit_setReturned _ _)
  breakOff _ _ := later_edit (edit_breakOff _)
  newBlock _ _ := ⟨later_edit (edit_alloc rfl rfl), trivial⟩
  newCall _ _ _ _ _ := ⟨later_edit (edit_alloc rfl rfl), trivial⟩
  newList _ _ := ⟨later_edit (edit_alloc rfl rfl), trivial⟩

/-- The host's natives change binding tables by definitions and removals alone, as long as the
evaluator that they call back does. -/
def EditsByName (host : Host) : Prop :=
  editLaw.ObeyedBy host

theorem editLaw_dynamic : editLaw.Dynamic where
  upheld := editLaw_upheld
  inv _ := trivial
  value _ _ := trivial
  block _ _ := trivial
  scope _ _ := trivial
  plain _ _ := .single (edit_alloc rfl rfl)
  mixins _ _ _ := .single (edit_modify rfl rfl)
  reset _ _ := .single (edit_reset _)

theorem kit_editsByName : EditsByName Kit.host :=
  kit_obeys editLaw_upheld editLaw_dynamic.lenient

def removals (σ : Store) (s : ScopeId) (n : String) : Nat :=
  (σ.get s).removed.count n

structure Lasting (σ τ : Store) : Prop where
  grow : ∀ s n, removals σ s n ≤ removals τ s n
  constants : ∀ s n v m k, (σ.get s).bindings.get? n = some (.var v true m k) →
    (τ.get s).bindings.get? n = some (.var v true m k) ∨ removals σ s n < removals τ s n

theorem Lasting.refl (σ : Store) : Lasting σ σ :=
  ⟨fun _ _ => Nat.le_refl _, fun _ _ _ _ _ h => .inl h⟩

theorem Lasting.trans {υ : Store} (h : Lasting σ τ) (h' : Lasting τ υ) : Lasting σ υ where
  grow s n := Nat.le_trans (h.grow s n) (h'.grow s n)
  constants s n v m k hc := by
    rcases h.constants s n v m k hc with hc | hlt
    · refine (h'.constants s n v m k hc).imp_right fun hlt => ?_
      exact Nat.lt_of_le_of_lt (h.grow s n) hlt
    · exact .inr (Nat.lt_of_lt_of_le hlt (h'.grow s n))

theorem lasting_aside (hb : ∀ s, (τ.get s).bindings = (σ.get s).bindings)
    (hr : ∀ s, (τ.get s).removed = (σ.get s).removed) : Lasting σ τ where
  grow s n := Nat.le_of_eq (by rw [removals, removals, hr])
  constants s n v m k hc := .inl (by rw [hb, hc])

theorem isConstant_of_get {b : Bindings} {n m : String} {v : Term} {k : Nat}
    (h : b.get? n = some (.var v true m k)) : b.isConstant n = true := by
  simp [Bindings.isConstant, h]

theorem lasting_define {s : ScopeId} {n : String} {f : Term} (h : σ.define s n f = .ok τ) :
    Lasting σ τ := by
  obtain ⟨-, hfree, rfl⟩ | ⟨xs, i, v, c, m, k, -, -, -, -, rfl⟩ := define_cases h
  · have hr (t) : ((σ.setBinding s n f).get t).removed = (σ.get t).removed :=
      Formal.get_modify (g := Scope.removed) rfl t
    refine ⟨fun t m => Nat.le_of_eq (by rw [removals, removals, hr]), fun t m v l k hc => .inl ?_⟩
    rw [Store.setBinding, Store.get_modify]
    split
    next ht =>
        have hnm : m ≠ n := by
          rintro rfl
          rw [ht.1] at hc
          rw [isConstant_of_get hc] at hfree
          cases hfree
        simp only [Bindings.get?_set, if_neg hnm, hc]
    next => exact hc
  · exact lasting_aside (Formal.get_modify (g := Scope.bindings) rfl)
      (Formal.get_modify (g := Scope.removed) rfl)

theorem lasting_eraseBinding (o : ScopeId) (n : String) : Lasting σ (σ.eraseBinding o n) := by
  refine ⟨fun t m => ?_, fun t m v l k hc => ?_⟩
  all_goals
    simp only [removals, Store.eraseBinding, Store.get_modify]
    split
  · exact List.count_le_count_cons
  · exact Nat.le_refl _
  · by_cases hm : m = n
    · subst hm
      exact .inr (by simp)
    · exact .inl (by simp only [Bindings.get?_erase, if_neg hm, hc])
  · exact .inl hc

theorem lasting_remove {s : ScopeId} {n : String} (h : σ.remove s n = .ok τ) : Lasting σ τ := by
  obtain ⟨-, rfl⟩ | ⟨xs, i, -, -, rfl⟩ := remove_cases h
  · obtain h | ⟨o, -, h⟩ := removeBinding_cases σ s n
    · rw [h]
      exact .refl σ
    · rw [h]
      exact lasting_eraseBinding o n
  · exact lasting_aside (Formal.get_modify (g := Scope.bindings) rfl)
      (Formal.get_modify (g := Scope.removed) rfl)

theorem Edits.lasting (h : Edits σ τ) : Lasting σ τ := by
  induction h with
  | refl => exact .refl σ
  | tail _ hedit ih =>
      refine ih.trans ?_
      cases hedit with
      | define h => exact lasting_define h
      | remove h => exact lasting_remove h
      | aside hb hr => exact lasting_aside hb hr

inductive Happening (host : Host) : Store → Store → Prop
  | step {a b : Stage} (h : Step host a b) : Happening host a.store b.store
  | request (q : Request) (st : State) : Happening host st.store (q.perform host st).2.store

theorem Happening.edits (hh : EditsByName host) (h : Happening host σ τ) : Edits σ τ := by
  cases h with
  | step h => exact step_dynamic editLaw_dynamic hh h
  | request q st => exact editLaw_dynamic.asked hh .outermost q st

/-- Whatever happens, in any order and however it ends, a constant stays in its scope as it is until
its entry is removed. -/
theorem constant_survives (hh : EditsByName host) (h : ReflTransGen (Happening host) σ τ)
    {s : ScopeId} {n : String} {v : Term} {m : String} {k : Nat}
    (hc : (σ.get s).bindings.get? n = some (.var v true m k)) :
    (τ.get s).bindings.get? n = some (.var v true m k) ∨ removals σ s n < removals τ s n := by
  have hlasting : Lasting σ τ := by
    induction h with
    | refl => exact .refl σ
    | tail _ hstep ih => exact ih.trans (hstep.edits hh).lasting
  exact hlasting.constants s n v m k hc

def frozen : State :=
  let bindings := [("c", .var (.num 1) true "c" 1), ("let", .native ⟨0, "let", .builtin .letVar⟩)]
  { store := { scopes := #[{ bindings }] }, limit := 10 }

def rebinding : Request :=
  .eval (.call "let" [.ref "c" none] (some ⟨[.num 2], []⟩)) 0

theorem constant_survives_let :
    (frozen.store.get 0).bindings.get? "c" = some (.var (.num 1) true "c" 1) ∧
      (rebinding.perform Kit.host frozen).1.toOption.isNone ∧
      ((rebinding.perform Kit.host frozen).2.store.get 0).bindings.get? "c" =
        some (.var (.num 1) true "c" 1) := by
  have h := constant_survives kit_editsByName (s := 0) (n := "c")
    (.single (.request rebinding frozen)) rfl
  refine ⟨rfl, by decide +kernel, h.resolve_right ?_⟩
  decide +kernel

end BlockScript.Proofs.Constants
