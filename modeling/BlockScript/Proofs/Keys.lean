import BlockScript.Proofs.Equivalence
import BlockScript.Proofs.Sources
import BlockScript.Tag
import Mathlib.Data.Set.Card
import Mathlib.Data.Setoid.Basic
import Mathlib.SetTheory.Cardinal.Finite

namespace BlockScript.Proofs.Keys

open BlockScript.Proofs.Equivalence

variable {σ : Store} {a b : Term} {s t : ScopeId} {ts : List Term}

def IsValue (t : Term) : Prop :=
  (Tag.of? t).isSome

instance : DecidablePred IsValue :=
  fun t => inferInstanceAs (Decidable ((Tag.of? t).isSome = true))

/-- Two different lists that compare equal. -/
def Twins (σ : Store) (a b : Term) : Prop :=
  ∃ s t, a = .scope s ∧ b = .scope t ∧ s ≠ t ∧ (σ.items? s).isSome ∧ (σ.items? t).isSome ∧
    σ.equal? a b = some true

/-- The class of a member under equality. Where equality is no equivalence relation, a class is what a
chain of equal members leads to. -/
def Class (σ : Store) (ts : List Term) : Type :=
  Quot fun a b : {t // t ∈ ts} => σ.equal? a b = some true

def classOf (σ : Store) (a : {t // t ∈ ts}) : Class σ ts :=
  Quot.mk _ a

noncomputable def classes (σ : Store) (ts : List Term) : Nat :=
  Nat.card (Class σ ts)

def keyOf (a : {t // t ∈ ts}) : Option Key :=
  a.1.key?

theorem key?_isSome (h : IsValue a) : ∃ k, a.key? = some k := by
  cases a with
  | null | bool | num | str | memory | scope => exact ⟨_, rfl⟩
  | _ => cases h

theorem equal?_scope : σ.equal? (.scope s) (.scope t) = some true ↔
    s = t ∨ Twins σ (.scope s) (.scope t) := by
  constructor
  · intro h
    refine or_iff_not_imp_left.2 fun hst => ⟨s, t, rfl, rfl, hst, ?_⟩
    refine ⟨?_, ?_, h⟩
    all_goals
      rw [Store.equal?, Term.equalWith, Store.equalWithin, if_neg hst] at h
      split at h
      next hs ht => simp [hs, ht]
      next => cases h
  · rintro (rfl | ⟨_, _, -, -, -, -, -, h⟩)
    · rw [Store.equal?, Term.equalWith, Store.equalWithin, if_pos rfl]
    · exact h

theorem equal?_iff_key (ha : IsValue a) (hb : IsValue b) :
    σ.equal? a b = some true ↔ a.key? = b.key? ∨ Twins σ a b := by
  cases a <;> cases b
  all_goals first
    | cases ha; done
    | cases hb; done
    | skip
  case scope.scope s t =>
    rw [equal?_scope]
    simp [Term.key?]
  all_goals simp [Store.equal?, Store.equalWithin, Term.equalWith, Term.key?, Term.magnitude?, Twins]

theorem key?_ne_of_twins (h : Twins σ a b) : a.key? ≠ b.key? := by
  obtain ⟨s, t, rfl, rfl, hst, -⟩ := h
  simpa [Term.key?] using hst

instance : Finite {t // t ∈ ts} :=
  (List.finite_toSet ts).to_subtype

theorem distinct_eq_card (h : ∀ t ∈ ts, IsValue t) :
    distinct ts = Nat.card (Quotient (Setoid.ker (@keyOf ts))) := by
  have hrange : Set.range (@keyOf ts) =
      ((ts.filterMap Term.key?).eraseDups.toFinset.map .some : Finset (Option Key)) := by
    ext k
    constructor
    · rintro ⟨⟨t, ht⟩, rfl⟩
      obtain ⟨k, hk⟩ := key?_isSome (h t ht)
      have hmem : k ∈ ts.filterMap Term.key? := List.mem_filterMap.2 ⟨t, ht, hk⟩
      simpa [keyOf, hk] using hmem
    · intro hk
      simp only [Finset.coe_map, Set.mem_image, Finset.mem_coe, List.mem_toFinset,
        List.mem_eraseDups, List.mem_filterMap] at hk
      obtain ⟨k, ⟨t, ht, hkey⟩, rfl⟩ := hk
      exact ⟨⟨t, ht⟩, hkey⟩
  calc distinct ts
    _ = (ts.filterMap Term.key?).eraseDups.toFinset.card := by
        rw [distinct, List.toFinset_card_of_nodup (Sources.nodup_eraseDups _)]
    _ = Nat.card (Set.range (@keyOf ts)) := by
        rw [hrange, Nat.card_coe_set_eq, Set.ncard_coe_finset, Finset.card_map]
    _ = _ := (Nat.card_congr (Setoid.quotientKerEquivRange _)).symm

section Classes

variable (hts : ∀ t ∈ ts, IsValue t)
include hts

theorem classOf_eq_of_keyOf (a b : {t // t ∈ ts}) (h : keyOf a = keyOf b) :
    classOf σ a = classOf σ b :=
  Quot.sound ((equal?_iff_key (hts a a.2) (hts b b.2)).2 (.inl h))

theorem keyOf_eq_of_classOf (h : ∀ a ∈ ts, ∀ b ∈ ts, ¬Twins σ a b) (a b : {t // t ∈ ts})
    (hab : classOf σ a = classOf σ b) : keyOf a = keyOf b := by
  refine congrArg (Quot.lift keyOf fun a b hequal => ?_) hab
  exact ((equal?_iff_key (hts a a.2) (hts b b.2)).1 hequal).resolve_right (h a a.2 b b.2)

variable (σ)

def classOfKey : Quotient (Setoid.ker (@keyOf ts)) → Class σ ts :=
  Quotient.lift (classOf σ) (classOf_eq_of_keyOf hts)

theorem classOfKey_surjective : Function.Surjective (classOfKey σ hts) := by
  rintro ⟨a⟩
  exact ⟨Quotient.mk _ a, rfl⟩

theorem classOfKey_injective_iff :
    Function.Injective (classOfKey σ hts) ↔ ∀ a ∈ ts, ∀ b ∈ ts, ¬Twins σ a b := by
  constructor
  · intro hinj a ha b hb htwins
    have hequal : @classOf ts σ ⟨a, ha⟩ = classOf σ ⟨b, hb⟩ :=
      Quot.sound ((equal?_iff_key (hts a ha) (hts b hb)).2 (.inr htwins))
    have hkey := Quotient.exact (@hinj (Quotient.mk _ ⟨a, ha⟩) (Quotient.mk _ ⟨b, hb⟩) hequal)
    exact key?_ne_of_twins htwins hkey
  · rintro h ⟨a⟩ ⟨b⟩ hab
    exact Quotient.sound (keyOf_eq_of_classOf hts h a b hab)

theorem classes_le_distinct : classes σ ts ≤ distinct ts := by
  rw [distinct_eq_card hts]
  exact Nat.card_le_card_of_surjective _ (classOfKey_surjective σ hts)

theorem distinct_eq_classes_iff :
    distinct ts = classes σ ts ↔ ∀ a ∈ ts, ∀ b ∈ ts, ¬Twins σ a b := by
  rw [distinct_eq_card hts, ← classOfKey_injective_iff σ hts]
  have hsurj := classOfKey_surjective σ hts
  exact ⟨fun h => (hsurj.bijective_of_nat_card_le h.le).injective,
    fun h => Nat.card_congr (.ofBijective _ ⟨h, hsurj⟩)⟩

end Classes

theorem classOf_eq_iff (hts : ∀ t ∈ ts, Tame σ t) (a b : {t // t ∈ ts}) :
    classOf σ a = classOf σ b ↔ σ.equal? a b = some true := by
  constructor
  · intro h
    rw [equal?_iff (hts a a.2) (hts b b.2)]
    refine congrArg (Quot.lift (fun t => expand σ t.1) fun a b hequal => ?_) h
    exact (equal?_iff (hts a a.2) (hts b b.2)).1 hequal
  · exact fun h => Quot.sound h

theorem distinct_pair (ha : IsValue a) (hb : IsValue b) :
    distinct [a, b] = 1 ↔ a.key? = b.key? := by
  obtain ⟨k, hk⟩ := key?_isSome ha
  obtain ⟨l, hl⟩ := key?_isSome hb
  have hkeys : [a, b].filterMap Term.key? = [k, l] := by simp [hk, hl]
  rw [distinct, hkeys, hk, hl, Option.some.injEq, List.eraseDups_cons]
  by_cases h : l = k
  · simp [h]
  · have hl : [l].filter (fun c => !c == k) = [l] := by simp [h]
    simp [hl, List.eraseDups_cons, Ne.symm h]

/-- A set of values has an element for every class of equal members, except that it keeps apart lists that
are equal without being the same: it never has fewer elements than there are classes, and has more if and
only if there are such lists. -/
theorem set_respects_equality (σ : Store) (hts : ∀ t ∈ ts, IsValue t) :
    (distinct ts = classes σ ts ↔ ∀ a ∈ ts, ∀ b ∈ ts, ¬Twins σ a b) ∧
    classes σ ts ≤ distinct ts ∧
    (∀ a ∈ ts, ∀ b ∈ ts, distinct [a, b] = 1 ↔ σ.equal? a b = some true ∧ ¬Twins σ a b) ∧
    ((∀ t ∈ ts, Tame σ t) → ∀ a b : {t // t ∈ ts},
      classOf σ a = classOf σ b ↔ σ.equal? a b = some true) := by
  refine ⟨distinct_eq_classes_iff σ hts, classes_le_distinct σ hts, fun a ha b hb => ?_,
    classOf_eq_iff⟩
  rw [distinct_pair (hts a ha) (hts b hb), equal?_iff_key (hts a ha) (hts b hb)]
  by_cases h : Twins σ a b
  · simp [h, key?_ne_of_twins h]
  · simp [h]

def shelf : Store where
  scopes := #[{ kind := .list [] }, { kind := .list [] }, { kind := .list [.num 1] }]

theorem set_respects_equality_shelf :
    let ts : List Term := [.num 1, .bool true, .memory 0 "a", .scope 0, .memory 0 "a", .scope 2]
    (∀ t ∈ ts, IsValue t) ∧ (∀ a ∈ ts, ∀ b ∈ ts, ¬Twins shelf a b) ∧ distinct ts = 4 ∧
      classes shelf ts = 4 := by
  intro ts
  have hts : ∀ t ∈ ts, IsValue t := by decide
  obtain ⟨hcount, -, hpair, -⟩ := set_respects_equality shelf hts
  have htwins : ∀ a ∈ ts, ∀ b ∈ ts, ¬Twins shelf a b := by
    rintro a ha b hb ⟨s, t, rfl, rfl, hst, -, -, hequal⟩
    have hs : s = 0 ∨ s = 2 := by simpa [ts] using ha
    have ht : t = 0 ∨ t = 2 := by simpa [ts] using hb
    rcases hs with rfl | rfl <;> rcases ht with rfl | rfl
    · exact hst rfl
    · exact absurd hequal (by decide)
    · exact absurd hequal (by decide)
    · exact hst rfl
  exact ⟨hts, htwins, by decide, (hcount.2 htwins).symm.trans (by decide)⟩

/-- Two empty lists are equal and are two elements of a set. -/
theorem twins_kept_apart :
    (∀ t ∈ [Term.scope 0, .scope 1], IsValue t) ∧
      shelf.equal? (.scope 0) (.scope 1) = some true ∧ distinct [.scope 0, .scope 1] = 2 ∧
      classes shelf [.scope 0, .scope 1] = 1 := by
  have hequal : shelf.equal? (.scope 0) (.scope 1) = some true := by decide
  refine ⟨by decide, hequal, by decide, Nat.card_eq_one_iff_unique.2 ⟨⟨?_⟩, ⟨classOf shelf ⟨_, .head _⟩⟩⟩⟩
  have hzero (a : {t // t ∈ [Term.scope 0, .scope 1]}) :
      classOf shelf ⟨.scope 0, .head _⟩ = classOf shelf a := by
    obtain ⟨a, ha⟩ := a
    have h : a = .scope 0 ∨ a = .scope 1 := by simpa using ha
    rcases h with rfl | rfl
    · rfl
    · exact Quot.sound hequal
  rintro ⟨a⟩ ⟨b⟩
  exact (hzero a).symm.trans (hzero b)

end BlockScript.Proofs.Keys
