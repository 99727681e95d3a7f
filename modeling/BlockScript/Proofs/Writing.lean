import BlockScript.Store.Mixin
import Mathlib.Data.List.Perm.Subperm

namespace BlockScript.Proofs.Writing

open Store

variable {σ τ : Store} {s : ScopeId} {n : String} {f : Term} {β : Type}

theorem get_of_size_le (h : σ.size ≤ s) : σ.get s = {} := by
  simp [Store.get, Array.getElem?_eq_none h]

theorem lt_size_of_items {xs : List Term} (h : σ.items? s = some xs) : s < σ.size := by
  by_contra hs
  rw [items?, get_of_size_le (Nat.le_of_not_lt hs)] at h
  cases h

theorem length_le_of_nodup {size : Nat} {within : List ScopeId} (hn : within.Nodup)
    (hlt : ∀ u ∈ within, u < size) : within.length ≤ size := by
  have hsub : within ⊆ List.range size := fun u hu => List.mem_range.2 (hlt u hu)
  have hle := (hn.subperm hsub).length_le
  rwa [List.length_range] at hle

theorem itemEqual_scope {t : ScopeId} (h : σ.items? s = none ∨ σ.items? t = none) :
    itemEqual σ.equal? (.scope s) (.scope t) = some (decide (s = t)) := by
  by_cases hst : s = t
  · simp [itemEqual, Term.same, Store.equal?, Term.equalWith, Store.equalWithin, hst]
  · rcases h with h | h
    all_goals
      simp [itemEqual, Term.same, Store.equal?, Term.equalWith, Store.equalWithin, hst, h]

theorem size_setMixins (σ : Store) (s : ScopeId) (ms : List ScopeId) : (σ.setMixins s ms).size = σ.size :=
  size_modify _

theorem get_setMixins_of_ne {t : ScopeId} (ht : t ≠ s) (ms : List ScopeId) :
    (σ.setMixins s ms).get t = σ.get t := by
  rw [setMixins, get_modify, if_neg fun h => ht h.1]

/-- In the scope the name stands for a binding: it is none that lists read in a way of their own. -/
def NamesBinding (σ : Store) (s : ScopeId) (n : String) : Prop :=
  (σ.items? s).isSome → n ≠ "length" ∧ SlotName.isNumeral n = false

namespace NamesBinding

variable (h : NamesBinding σ s n)
include h

theorem ofName {xs : List Term} (hx : σ.items? s = some xs) :
    SlotName.ofName σ.digitLimit n = .binding :=
  SlotName.ofName_eq_binding_iff.2 (h (by rw [hx]; rfl))

theorem lookup : σ.lookup s n = σ.lookupBinding s n := by
  rw [Store.lookup]
  split
  next => rfl
  next xs hx => rw [h.ofName hx]

theorem define : σ.define s n f = σ.defineBinding s n f := by
  rw [Store.define]
  split
  next => rfl
  next xs hx => rw [h.ofName hx]

theorem remove : σ.remove s n = .ok (σ.removeBinding s n) := by
  rw [Store.remove]
  split
  next => rfl
  next xs hx => rw [h.ofName hx]

end NamesBinding

theorem defineBinding_cases (h : σ.defineBinding s n f = .ok τ) :
    (σ.get s).bindings.isConstant n = false ∧ τ = σ.setBinding s n f := by
  rw [defineBinding] at h
  split at h
  next => cases h
  next hc => exact ⟨by simpa using hc, (Except.ok.inj h).symm⟩

theorem defineItem_cases {xs : List Term} {i : Nat} (h : σ.defineItem s n xs i f = .ok τ) :
    ∃ v c m k, f = .var v c m k ∧ i ≤ xs.length ∧
      τ = σ.setItems s (if i < xs.length then xs.set i v else xs ++ [v]) := by
  cases f with
  | var v c m k =>
      rw [defineItem] at h
      split at h
      next hlt => exact ⟨v, c, m, k, rfl, Nat.le_of_lt hlt, by rw [if_pos hlt, Except.ok.inj h]⟩
      next hlt =>
          split at h
          next he => exact ⟨v, c, m, k, rfl, Nat.le_of_eq he, by rw [if_neg hlt, Except.ok.inj h]⟩
          next => cases h
  | _ => cases h

theorem define_cases (h : σ.define s n f = .ok τ) :
    ((∀ xs, σ.items? s = some xs → SlotName.ofName σ.digitLimit n = .binding) ∧
      (σ.get s).bindings.isConstant n = false ∧ τ = σ.setBinding s n f) ∨
    ∃ xs i v c m k, σ.items? s = some xs ∧ SlotName.ofName σ.digitLimit n = .index i ∧
      f = .var v c m k ∧ i ≤ xs.length ∧
      τ = σ.setItems s (if i < xs.length then xs.set i v else xs ++ [v]) := by
  rw [define] at h
  split at h
  next hx => exact .inl ⟨by simp [hx], defineBinding_cases h⟩
  next xs hx =>
      split at h
      next => cases h
      next i hi =>
          obtain ⟨v, c, m, k, hitem⟩ := defineItem_cases h
          exact .inr ⟨xs, i, v, c, m, k, hx, hi, hitem⟩
      next => cases h
      next hb => exact .inl ⟨fun _ _ => hb, defineBinding_cases h⟩

theorem remove_cases (h : σ.remove s n = .ok τ) :
    ((∀ xs, σ.items? s = some xs → ∀ i, SlotName.ofName σ.digitLimit n ≠ .index i) ∧
      τ = σ.removeBinding s n) ∨
    ∃ xs i, σ.items? s = some xs ∧ SlotName.ofName σ.digitLimit n = .index i ∧
      τ = σ.setItems s (xs.eraseIdx i) := by
  rw [remove] at h
  split at h
  next hx => exact .inl ⟨by simp [hx], by simpa [eq_comm] using h⟩
  next xs hx =>
      split at h
      next i hi => exact .inr ⟨xs, i, hx, hi, by simpa [eq_comm] using h⟩
      next => cases h
      next hl => exact .inl ⟨by simp [hl], by simpa [eq_comm] using h⟩
      next hb => exact .inl ⟨by simp [hb], by simpa [eq_comm] using h⟩

theorem removeBinding_cases (σ : Store) (s : ScopeId) (n : String) :
    σ.removeBinding s n = σ ∨ ∃ o, σ.owns o n = true ∧ σ.removeBinding s n = σ.eraseBinding o n := by
  rw [removeBinding]
  split
  next o ho => exact .inr ⟨o, List.find?_some (p := fun o => σ.owns o n) ho, rfl⟩
  next => exact .inl rfl

/-- A property of scopes that is blind to what bindings and lists hold and held. -/
structure Formal (g : Scope → β) : Prop where
  bindings : ∀ c b r, g { c with bindings := b, removed := r } = g c
  items : ∀ c xs ys, c.kind = .list xs → g { c with kind := .list ys } = g c

theorem kind_of_items {xs : List Term} (h : σ.items? s = some xs) : (σ.get s).kind = .list xs := by
  rw [items?] at h
  cases hk : (σ.get s).kind <;> simp_all [ScopeKind.items?]

theorem Formal.get_modify {g : Scope → β} {e : Scope → Scope} (h : g (e (σ.get s)) = g (σ.get s))
    (t : ScopeId) : g ((σ.modify s e).get t) = g (σ.get t) := by
  rw [Store.get_modify]
  split
  next ht => rw [ht.1, h]
  next => rfl

theorem Formal.get_define {g : Scope → β} (hg : Formal g) (h : σ.define s n f = .ok τ)
    (t : ScopeId) : g (τ.get t) = g (σ.get t) := by
  obtain ⟨-, -, rfl⟩ | ⟨xs, i, v, c, m, k, hx, -, -, -, rfl⟩ := define_cases h
  · exact Formal.get_modify (hg.bindings _ _ _) t
  · exact Formal.get_modify (hg.items _ xs _ (kind_of_items hx)) t

theorem Formal.get_remove {g : Scope → β} (hg : Formal g) (h : σ.remove s n = .ok τ)
    (t : ScopeId) : g (τ.get t) = g (σ.get t) := by
  obtain ⟨-, rfl⟩ | ⟨xs, i, hx, -, rfl⟩ := remove_cases h
  · obtain h | ⟨o, -, h⟩ := removeBinding_cases σ s n
    · rw [h]
    · rw [h]
      exact Formal.get_modify (hg.bindings _ _ _) t
  · exact Formal.get_modify (hg.items _ xs _ (kind_of_items hx)) t

theorem size_define (h : σ.define s n f = .ok τ) : τ.size = σ.size := by
  obtain ⟨-, -, rfl⟩ | ⟨xs, i, v, c, m, k, -, -, -, -, rfl⟩ := define_cases h
  · exact size_modify _
  · exact size_modify _

theorem size_remove (h : σ.remove s n = .ok τ) : τ.size = σ.size := by
  obtain ⟨-, rfl⟩ | ⟨xs, i, -, -, rfl⟩ := remove_cases h
  · obtain h | ⟨o, -, h⟩ := removeBinding_cases σ s n
    · rw [h]
    · rw [h]; exact size_modify _
  · exact size_modify _

theorem addMixin_cases {source : ScopeId} (h : σ.addMixin s source = .ok τ) :
    τ = σ ∨ τ = σ.setMixins s ((σ.get s).mixins ++ [source]) := by
  rw [addMixin] at h
  split at h
  · exact .inl (Except.ok.inj h).symm
  · exact .inr (Except.ok.inj h).symm
  · cases h

theorem install_cases {source : ScopeId} (h : σ.install s source = .ok τ) :
    τ = σ ∨ τ = σ.setMixins s (source :: (σ.get s).mixins) := by
  rw [install] at h
  split at h
  · exact .inl (Except.ok.inj h).symm
  · exact .inr (Except.ok.inj h).symm
  · cases h

theorem size_addMixin {source : ScopeId} (h : σ.addMixin s source = .ok τ) : τ.size = σ.size := by
  obtain rfl | rfl := addMixin_cases h
  · rfl
  · exact size_modify _

end BlockScript.Proofs.Writing
