import BlockScript.Proofs.Holdings
import BlockScript.Proofs.Resemblance

namespace BlockScript.Proofs.Extension

open Heap Holdings Writing

/-- A scope that comes to be the first of another's mixins, and the names that scripts use. -/
structure Addition where
  source : ScopeId
  base : ScopeId
  name : String → Prop

namespace Addition

variable (A : Addition)

def value (t : Term) : Prop :=
  Uses A.name t ∧ Refers (· ≠ A.source) t

def extend (σ : Store) : Store :=
  σ.modify A.base fun c => { c with mixins := A.source :: c.mixins }

/-- The source has none of the names that scripts use, leads nowhere and is out of their reach. -/
structure Fits (σ : Store) : Prop where
  holding : Holding A.value (· ≠ A.source) σ
  source_lt : A.source < σ.size
  base_lt : A.base < σ.size
  base_ne : A.base ≠ A.source
  leaf : IsLeaf (σ.get A.source)
  plain : σ.items? A.source = none
  unused : ∀ n, A.name n → σ.owns A.source n = false

variable {A} {σ τ : Store} {s p : ScopeId} {n : String} {c : Scope}

theorem value_regular : Regular A.value where
  num _ := ⟨trivial, trivial⟩
  var := by simp [value, Uses, Refers]

namespace Fits

theorem later (h : A.Fits σ) (hsize : σ.size ≤ τ.size) (hkept : τ.get A.source = σ.get A.source)
    (hh : Holding A.value (· ≠ A.source) τ) : A.Fits τ where
  holding := hh
  source_lt := Nat.lt_of_lt_of_le h.source_lt hsize
  base_lt := Nat.lt_of_lt_of_le h.base_lt hsize
  base_ne := h.base_ne
  leaf := by
    rw [hkept]
    exact h.leaf
  plain := by
    rw [Store.items?, hkept]
    exact h.plain
  unused n hn := by
    rw [Store.owns, hkept]
    exact h.unused n hn

theorem upkeep (h : A.Fits σ) (hu : Upkeep A.value (· ≠ A.source) σ τ) : A.Fits τ :=
  h.later (Nat.le_of_eq hu.size.symm) (hu.kept A.source fun hne => hne rfl) hu.holding

theorem alloc (h : A.Fits σ) (hc : Holds A.value (· ≠ A.source) c) : A.Fits (σ.alloc c) := by
  apply h.later (by simp) _ (h.holding.alloc hc)
  rw [Store.get_alloc, if_neg (Nat.ne_of_lt h.source_lt)]

end Fits

section Reading

theorem get_extend (A : Addition) (σ : Store) (s : ScopeId) :
    (A.extend σ).get s = σ.get s ∨
      (A.extend σ).get s = { σ.get s with mixins := A.source :: (σ.get s).mixins } := by
  rw [extend, Store.get_modify]
  split
  · exact .inr rfl
  · exact .inl rfl

theorem reading_extend (A : Addition) (σ : Store) (s : ScopeId) {β : Type} {g : Scope → β}
    (hg : ∀ c ms, g { c with mixins := ms } = g c) : g ((A.extend σ).get s) = g (σ.get s) := by
  rcases get_extend A σ s with h | h
  · rw [h]
  · rw [h, hg]

theorem resembles_extend (A : Addition) (σ : Store) : Resembles σ (A.extend σ) where
  size := Store.size_modify _
  digitLimit := rfl
  bindings s := reading_extend A σ s (g := Scope.bindings) fun _ _ => rfl
  parent s := reading_extend A σ s (g := Scope.parent) fun _ _ => rfl
  returned s := reading_extend A σ s (g := Scope.returned) fun _ _ => rfl
  items s := reading_extend A σ s (g := fun c => c.kind.items?) fun _ _ => rfl
  broken s := reading_extend A σ s (g := fun c => c.kind.broken?.getD false) fun _ _ => rfl
  kind s := reading_extend A σ s (g := fun c => c.kind.name) fun _ _ => rfl

theorem nexts_extend (h : A.base < σ.size) (s : ScopeId) :
    (A.extend σ).nexts s = if s = A.base then A.source :: σ.nexts s else σ.nexts s := by
  rw [Store.nexts, extend, Store.get_modify]
  by_cases hs : s = A.base
  · rw [if_pos ⟨hs, h⟩, if_pos hs]
    rfl
  · rw [if_neg fun hb => hs hb.1, if_neg hs]
    rfl

theorem nexts_eq_nil (h : A.Fits σ) (hs : σ.size ≤ s ∨ s = A.source) : σ.nexts s = [] := by
  rcases hs with hs | rfl
  · rw [Store.nexts, get_of_size_le hs]
    rfl
  · rw [Store.nexts, h.leaf.1, h.leaf.2]
    rfl

theorem ownerWithin_source (h : A.Fits σ) (hn : A.name n) (steps : Nat) {within : List ScopeId}
    (hsource : A.source ∉ within) : σ.ownerWithin n (steps + 1) within A.source = .ok none := by
  rw [Store.ownerWithin, if_neg (by simp [h.unused n hn]), if_neg hsource,
    nexts_eq_nil h (.inr rfl)]
  rfl

theorem ownerWithin_extend (h : A.Fits σ) (hn : A.name n) (steps : Nat) (within : List ScopeId)
    (s : ScopeId) (hnodup : within.Nodup) (hlt : ∀ u ∈ within, u < σ.size)
    (hsource : A.source ∉ within) (hsteps : steps + within.length = σ.size + 1) :
    (A.extend σ).ownerWithin n steps within s = σ.ownerWithin n steps within s := by
  induction steps generalizing within s with
  | zero => rfl
  | succ steps ih =>
      rw [Store.ownerWithin, Store.ownerWithin, (resembles_extend A σ).owns, nexts_extend h.base_lt]
      split
      · rfl
      split
      · rfl
      next hin =>
      by_cases hs : σ.size ≤ s ∨ s = A.source
      · have hbase : s ≠ A.base := by
          rintro rfl
          exact hs.elim (Nat.not_le_of_lt h.base_lt) h.base_ne
        rw [if_neg hbase, nexts_eq_nil h hs]
        rfl
      · rw [not_or, Nat.not_le] at hs
        have hlt' : ∀ u ∈ s :: within, u < σ.size := List.forall_mem_cons.2 ⟨hs.1, hlt⟩
        have hnodup' := List.nodup_cons.2 ⟨hin, hnodup⟩
        have hsource' : A.source ∉ s :: within :=
          List.not_mem_cons_of_ne_of_not_mem (Ne.symm hs.2) hsource
        have hrest : (A.extend σ).ownerWithin n steps (s :: within) =
            σ.ownerWithin n steps (s :: within) := by
          funext u
          apply ih _ u hnodup' hlt' hsource'
          rw [List.length_cons]
          omega
        rw [hrest]
        split
        · -- there is a step left for the source, since the scopes in progress are not all there are
          have hle := length_le_of_nodup hnodup' hlt'
          rw [List.length_cons] at hle
          obtain ⟨k, rfl⟩ : ∃ k, steps = k + 1 := ⟨steps - 1, by omega⟩
          rw [List.findSomeM?, ownerWithin_source h hn k hsource']
          rfl
        · rfl

theorem owner_extend (h : A.Fits σ) (hn : A.name n) (s : ScopeId) :
    (A.extend σ).owner? s n = σ.owner? s n := by
  rw [Store.owner?, Store.owner?, (resembles_extend A σ).size]
  exact ownerWithin_extend h hn _ [] s List.nodup_nil (by simp) List.not_mem_nil rfl

theorem lookup_extend (h : A.Fits σ) (hn : A.name n) (s : ScopeId) :
    (A.extend σ).lookup s n = σ.lookup s n :=
  (resembles_extend A σ).lookup (owner_extend h hn s)

theorem binds_extend (h : A.Fits σ) (hn : A.name n) (s : ScopeId) :
    (A.extend σ).binds s n = σ.binds s n :=
  (resembles_extend A σ).binds (owner_extend h hn s)

end Reading

section Writing

theorem modify_extend {e : Scope → Scope} (σ : Store) (s : ScopeId)
    (he : ∀ c, e { c with mixins := A.source :: c.mixins } =
      { e c with mixins := A.source :: (e c).mixins }) :
    (A.extend σ).modify s e = A.extend (σ.modify s e) := by
  apply store_ext
  · rfl
  · simp [extend]
  · intro t
    simp only [extend, Store.get_modify, Store.size_modify]
    by_cases ht : t = s ∧ s < σ.size
    · by_cases hb : t = A.base ∧ A.base < σ.size
      · simp only [if_pos ht, if_pos hb, he]
      · simp only [if_pos ht, if_neg hb]
    · simp only [if_neg ht]

theorem extend_guise (A : Addition) : Guise A.extend where
  resembles := resembles_extend A
  setItems σ s _ := modify_extend σ s fun _ => rfl
  setBinding σ s _ _ := modify_extend σ s fun _ => rfl
  eraseBinding σ s _ := modify_extend σ s fun _ => rfl

theorem alloc_extend (h : A.base < σ.size) (c : Scope) :
    (A.extend σ).alloc c = A.extend (σ.alloc c) := by
  apply store_ext
  · rfl
  · simp [extend]
  · intro t
    have hb : A.base < σ.size + 1 := Nat.lt_succ_of_lt h
    simp only [extend, Store.get_modify, Store.get_alloc, Store.size_modify, Store.size_alloc, h,
      hb, and_true]
    by_cases ht : t = σ.size
    · have hne : t ≠ A.base := ht ▸ Nat.ne_of_gt h
      rw [if_pos ht, if_neg hne, if_pos ht]
    · rw [if_neg ht, if_neg ht]

theorem setReturned_extend (σ : Store) (s : ScopeId) (t : Term) :
    (A.extend σ).setReturned s t = A.extend (σ.setReturned s t) :=
  modify_extend σ s fun _ => rfl

theorem breakOff_extend (σ : Store) (s : ScopeId) :
    (A.extend σ).breakOff s = A.extend (σ.breakOff s) := by
  apply modify_extend
  intro c
  cases h : c.kind <;> simp [h]

end Writing

end Addition

end BlockScript.Proofs.Extension
