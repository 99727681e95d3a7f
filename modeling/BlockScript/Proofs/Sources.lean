import BlockScript.Proofs.Precedence
import BlockScript.Proofs.Resemblance
import Mathlib.Data.List.Nodup

namespace BlockScript.Proofs.Sources

open Faulting Precedence Relation Writing

def asks (σ : Store) (ms : List ScopeId) (source : ScopeId) : Option Bool :=
  σ.contains? (ms.map .scope) (.scope source)

inductive Gathers (σ : Store) : List ScopeId → List ScopeId → List ScopeId → Prop
  | done {ms} : Gathers σ ms [] ms
  | known {ms source sources ms'} (h : asks σ ms source = some true)
      (rest : Gathers σ ms sources ms') : Gathers σ ms (source :: sources) ms'
  | joined {ms source sources ms'} (h : asks σ ms source = some false)
      (rest : Gathers σ (ms ++ [source]) sources ms') : Gathers σ ms (source :: sources) ms'

variable {σ τ : Store} {ms ms' sources : List ScopeId} {s t source : ScopeId}

/-- No source that is named for the first time has an equal among the scopes named before it, be they
mixins or sources. -/
def Distinct (σ : Store) (ms sources : List ScopeId) : Prop :=
  ∀ before source after, sources = before ++ source :: after → source ∉ ms ++ before →
    ∀ t ∈ ms ++ before, σ.equal? (.scope t) (.scope source) = some false

theorem asks_cons (t : ScopeId) (ms : List ScopeId) (source : ScopeId) :
    asks σ (t :: ms) source = (σ.equal? (.scope t) (.scope source)).bind fun b =>
      if b then some true else asks σ ms source := by
  rw [asks, List.map_cons, Store.contains?, itemEqual, if_neg (by simp [Term.same])]
  rfl

theorem asks_eq_false_iff :
    asks σ ms source = some false ↔ ∀ t ∈ ms, σ.equal? (.scope t) (.scope source) = some false := by
  induction ms with
  | nil => exact iff_of_true rfl nofun
  | cons t ms ih =>
      rw [asks_cons, List.forall_mem_cons, ← ih]
      cases σ.equal? (.scope t) (.scope source) with
      | none => simp
      | some b => cases b <;> simp

theorem asks_append (h : asks σ ms source = some true) (more : List ScopeId) :
    asks σ (ms ++ more) source = some true := by
  induction ms with
  | nil => cases h
  | cons t ms ih =>
      rw [List.cons_append, asks_cons]
      rw [asks_cons] at h
      cases ht : σ.equal? (.scope t) (.scope source) with
      | none => simp [ht] at h
      | some b => cases b <;> simp_all

theorem equal?_self (s : ScopeId) : σ.equal? (.scope s) (.scope s) = some true := by
  rw [Store.equal?, Term.equalWith, Store.equalWithin, if_pos rfl]

theorem asks_ne_false (h : source ∈ ms) : asks σ ms source ≠ some false := by
  intro hf
  have hself := asks_eq_false_iff.1 hf source h
  rw [equal?_self] at hself
  cases hself

theorem equal_of_asks (h : asks σ ms source = some true) :
    ∃ t ∈ ms, σ.equal? (.scope t) (.scope source) = some true := by
  induction ms with
  | nil => cases h
  | cons t ms ih =>
      rw [asks_cons] at h
      cases ht : σ.equal? (.scope t) (.scope source) with
      | none => simp [ht] at h
      | some b =>
          cases b with
          | true => exact ⟨t, List.mem_cons_self, ht⟩
          | false =>
              obtain ⟨u, hu, heq⟩ := ih (by simpa [ht] using h)
              exact ⟨u, List.mem_cons_of_mem t hu, heq⟩

theorem asks_isSome (h : ∀ t ∈ ms, σ.equal? (.scope t) (.scope source) ≠ none) :
    ∃ b, asks σ ms source = some b := by
  induction ms with
  | nil => exact ⟨false, rfl⟩
  | cons t ms ih =>
      rw [List.forall_mem_cons] at h
      rw [asks_cons]
      cases ht : σ.equal? (.scope t) (.scope source) with
      | none => exact absurd ht h.1
      | some b =>
          cases b with
          | true => exact ⟨true, rfl⟩
          | false => exact ih h.2

namespace Gathers

theorem kept_prefix (h : Gathers σ ms sources ms') : ms <+: ms' := by
  induction h with
  | done => exact List.prefix_rfl
  | known _ _ ih => exact ih
  | joined _ _ ih => exact (List.prefix_append _ _).trans ih

/-- A source that is taken for another scope joins no more, however often it is named again. -/
theorem lost (h : Gathers σ ms sources ms') (ht : asks σ ms t = some true) (hm : t ∉ ms) :
    t ∉ ms' := by
  induction h with
  | done => exact hm
  | known _ _ ih => exact ih ht hm
  | @joined ms source _ _ hs _ ih =>
      have hne : t ≠ source := by
        rintro rfl
        rw [ht] at hs
        cases hs
      exact ih (asks_append ht _) (by simp [hm, hne])

theorem met (h : Gathers σ ms sources ms') (hs : source ∈ sources) :
    source ∈ ms' ∨ asks σ ms' source = some true := by
  induction h with
  | done => cases hs
  | known hk rest ih =>
      rcases List.mem_cons.1 hs with rfl | hs
      · obtain ⟨more, rfl⟩ := rest.kept_prefix
        exact .inr (asks_append hk more)
      · exact ih hs
  | joined _ rest ih =>
      rcases List.mem_cons.1 hs with rfl | hs
      · exact .inl (rest.kept_prefix.subset (by simp))
      · exact ih hs

end Gathers

theorem Distinct.congr (h : ∀ t, t ∈ ms ↔ t ∈ ms') : Distinct σ ms sources ↔ Distinct σ ms' sources := by
  simp only [Distinct, List.mem_append, h]

theorem distinct_cons : Distinct σ ms (source :: sources) ↔
    (source ∉ ms → ∀ t ∈ ms, σ.equal? (.scope t) (.scope source) = some false) ∧
      Distinct σ (ms ++ [source]) sources := by
  constructor
  · intro h
    refine ⟨fun hs => ?_, fun before t after heq => ?_⟩
    · simpa using h [] source sources rfl (by simpa using hs)
    · simpa using h (source :: before) t after (by rw [heq, List.cons_append])
  · rintro ⟨hfirst, hrest⟩ before t after heq
    cases before with
    | nil =>
        obtain ⟨rfl, -⟩ := List.cons.inj heq
        simpa using hfirst
    | cons u before =>
        obtain ⟨rfl, htail⟩ := List.cons.inj heq
        simpa using hrest before t after htail

theorem distinct_known (hs : source ∈ ms) :
    Distinct σ ms (source :: sources) ↔ Distinct σ ms sources := by
  have hsame : ∀ t, t ∈ ms ++ [source] ↔ t ∈ ms := by
    intro t
    rw [List.mem_append, List.mem_singleton]
    exact or_iff_left_of_imp fun ht => ht ▸ hs
  rw [distinct_cons, Distinct.congr hsame]
  exact and_iff_right fun hn => absurd hs hn

theorem distinct_of_plain (h : ∀ source ∈ sources, σ.items? source = none) :
    Distinct σ ms sources := by
  rintro before source after rfl hs t ht
  have hne : t ≠ source := fun hts => hs (hts ▸ ht)
  have hequal := itemEqual_scope (.inr (h source (by simp)) : σ.items? t = none ∨ _)
  rwa [itemEqual, if_neg (by simp [Term.same]), decide_eq_false hne] at hequal

theorem Gathers.all_iff (h : Gathers σ ms sources ms') :
    (∀ source ∈ sources, source ∈ ms') ↔ Distinct σ ms sources := by
  induction h with
  | done => exact iff_of_true nofun fun before source after heq => by cases before <;> cases heq
  | @known ms source sources ms' hk rest ih =>
      rw [List.forall_mem_cons, ih]
      by_cases hs : source ∈ ms
      · rw [distinct_known hs]
        exact and_iff_right (rest.kept_prefix.subset hs)
      · refine iff_of_false (fun hall => rest.lost hk hs hall.1) fun hd => ?_
        have hfalse := asks_eq_false_iff.2 ((distinct_cons.1 hd).1 hs)
        rw [hk] at hfalse
        cases hfalse
  | @joined ms source sources ms' hj rest ih =>
      rw [List.forall_mem_cons, ih, distinct_cons]
      have hmem : source ∈ ms' := rest.kept_prefix.subset (by simp)
      exact and_congr_left fun _ => iff_of_true hmem fun _ => asks_eq_false_iff.1 hj

theorem Gathers.eq_append (h : Gathers σ ms sources ms') (hd : Distinct σ ms sources) :
    ms' = ms ++ (sources.filter (· ∉ ms)).eraseDups := by
  induction h with
  | done => simp
  | @known ms source sources ms' hk rest ih =>
      have hs : source ∈ ms := by
        by_contra hs
        have hfalse := asks_eq_false_iff.2 ((distinct_cons.1 hd).1 hs)
        rw [hk] at hfalse
        cases hfalse
      rw [ih ((distinct_known hs).1 hd), List.filter_cons_of_neg (by simpa using hs)]
  | @joined ms source sources ms' hj rest ih =>
      have hs : source ∉ ms := fun hs => asks_ne_false hs hj
      rw [ih (distinct_cons.1 hd).2, List.filter_cons_of_pos (by simpa using hs), List.eraseDups_cons,
        List.append_assoc, List.singleton_append, List.filter_filter]
      congr 4
      funext t
      by_cases ht : t = source <;> simp [ht]

theorem nodup_eraseDups {α : Type} [DecidableEq α] (xs : List α) : xs.eraseDups.Nodup := by
  induction h : xs.length using Nat.strongRecOn generalizing xs with
  | ind k ih =>
      cases xs with
      | nil => exact List.nodup_nil
      | cons x xs =>
          rw [List.eraseDups_cons, List.nodup_cons]
          refine ⟨by simp, ih _ ?_ _ rfl⟩
          rw [← h, List.length_cons]
          exact Nat.lt_succ_of_le (List.length_filter_le _ _)

theorem count_gathered (hs : source ∈ sources) (hone : ms.count source ≤ 1) :
    ms.count source + (sources.filter (· ∉ ms)).eraseDups.count source = 1 := by
  by_cases hm : source ∈ ms
  · have hnew : source ∉ (sources.filter (· ∉ ms)).eraseDups := by simp [hm]
    rw [List.count_eq_zero.2 hnew]
    exact Nat.le_antisymm hone (List.one_le_count_iff.2 hm)
  · have hnew : source ∈ (sources.filter (· ∉ ms)).eraseDups := by simp [hm, hs]
    rw [List.count_eq_zero.2 hm, (nodup_eraseDups _).count, if_pos hnew]

section Store

theorem resembles_setMixins (σ : Store) (s : ScopeId) (ms : List ScopeId) :
    Resembles σ (σ.setMixins s ms) := by
  have hget {β : Type} (g : Scope → β) (hg : ∀ c, g { c with mixins := ms } = g c) (t : ScopeId) :
      g ((σ.setMixins s ms).get t) = g (σ.get t) := Formal.get_modify (hg _) t
  exact
    { size := size_setMixins σ s ms
      digitLimit := rfl
      bindings := hget _ fun _ => rfl
      parent := hget _ fun _ => rfl
      returned := hget _ fun _ => rfl
      items := hget (fun c => c.kind.items?) fun _ => rfl
      broken := hget (fun c => c.kind.broken?.getD false) fun _ => rfl
      kind := hget (fun c => c.kind.name) fun _ => rfl }

theorem setMixins_self (σ : Store) (s : ScopeId) : σ.setMixins s (σ.get s).mixins = σ := by
  apply store_ext
  · rfl
  · exact size_setMixins σ s _
  · intro t
    rw [Store.setMixins, Store.get_modify]
    split
    next ht => rw [ht.1]
    next => rfl

variable (hs : s < σ.size)
include hs

theorem mixins_setMixins (ms : List ScopeId) : ((σ.setMixins s ms).get s).mixins = ms := by
  rw [Store.setMixins, Store.get_modify, if_pos ⟨rfl, hs⟩]

theorem setMixins_setMixins (ms ms' : List ScopeId) :
    (σ.setMixins s ms).setMixins s ms' = σ.setMixins s ms' := by
  apply store_ext
  · rfl
  · simp only [size_setMixins]
  · intro t
    by_cases ht : t = s
    · subst ht
      simp [Store.setMixins, Store.get_modify, hs]
    · simp only [get_setMixins_of_ne ht]

theorem addMixin_eq (ms : List ScopeId) (source : ScopeId) : (σ.setMixins s ms).addMixin s source =
    match asks σ ms source with
    | some true => .ok (σ.setMixins s ms)
    | some false => .ok (σ.setMixins s (ms ++ [source]))
    | none => .error .endless := by
  rw [Store.addMixin, Store.hasMixin?, (resembles_setMixins σ s ms).contains, mixins_setMixins hs,
    setMixins_setMixins hs]
  rfl

theorem gathers_of_ok (h : (σ.setMixins s ms).addMixins s sources = .ok τ) :
    ∃ ms', Gathers σ ms sources ms' ∧ τ = σ.setMixins s ms' := by
  induction sources generalizing ms with
  | nil =>
      obtain rfl := Except.ok.inj h
      exact ⟨ms, .done, rfl⟩
  | cons source sources ih =>
      obtain ⟨υ, hadd, hrest⟩ := bind_ok h
      change (σ.setMixins s ms).addMixin s source = .ok υ at hadd
      rw [addMixin_eq hs] at hadd
      split at hadd
      next hk =>
          obtain rfl := Except.ok.inj hadd
          obtain ⟨ms', hg, hτ⟩ := ih hrest
          exact ⟨ms', .known hk hg, hτ⟩
      next hj =>
          obtain rfl := Except.ok.inj hadd
          obtain ⟨ms', hg, hτ⟩ := ih hrest
          exact ⟨ms', .joined hj hg, hτ⟩
      next => cases hadd

theorem addMixins_ends (h : ∀ source ∈ sources, ∀ t ∈ ms ++ sources,
    σ.equal? (.scope t) (.scope source) ≠ none) :
    ∃ τ, (σ.setMixins s ms).addMixins s sources = .ok τ := by
  induction sources generalizing ms with
  | nil => exact ⟨_, rfl⟩
  | cons source sources ih =>
      have hends : ∀ t ∈ ms, σ.equal? (.scope t) (.scope source) ≠ none := fun t ht =>
        h source List.mem_cons_self t (List.mem_append_left _ ht)
      obtain ⟨b, hb⟩ := asks_isSome hends
      have hadd := addMixin_eq hs ms source
      rw [Store.addMixins, List.foldlM_cons, hadd, hb]
      cases b with
      | true =>
          refine ih fun u hu t ht => h u (List.mem_cons_of_mem _ hu) t ?_
          rcases List.mem_append.1 ht with ht | ht <;> simp [ht]
      | false =>
          refine ih fun u hu t ht => h u (List.mem_cons_of_mem _ hu) t ?_
          simpa using ht

end Store

section Names

variable {n : String}

theorem nexts_setMixins (h : (σ.get s).mixins <+: ms) (t : ScopeId) :
    σ.nexts t ⊆ (σ.setMixins s ms).nexts t := by
  intro u hu
  rw [Store.nexts, Store.setMixins, Store.get_modify]
  split
  next ht =>
      obtain ⟨rfl, -⟩ := ht
      rcases List.mem_append.1 hu with hu | hu
      · exact List.mem_append_left _ (h.subset hu)
      · exact List.mem_append_right _ hu
  next => exact hu

theorem resolves_of_mixin (hτ : Acyclic τ) (howns : ∀ t, τ.owns t n = σ.owns t n)
    (hsub : ∀ t, σ.nexts t ⊆ τ.nexts t) (hm : source ∈ (τ.get s).mixins)
    (h : ∃ o, σ.owner? source n = .ok (some o)) : ∃ o, τ.owner? s n = .ok (some o) := by
  have hσ : Acyclic σ := fun t ht => hτ t (TransGen.mono (fun a _ hb => hsub a hb) _ _ ht)
  obtain ⟨o, hway, hown⟩ := (resolves_iff hσ).1 h
  refine (resolves_iff hτ).2 ⟨o, ?_, (howns o).trans hown⟩
  have hfirst : source ∈ τ.nexts s := List.mem_append_left _ hm
  exact .head hfirst (ReflTransGen.mono (fun a _ hb => hsub a hb) _ _ hway)

end Names

/-- Sources join the mixins of a scope, each of them once and in order, and lend it all their names, if
and only if none of them is taken for another scope: a scope that is no list never is, but a list is
taken for any list of equal items, and does not join where there is one. -/
theorem mixins_kept (hs : s < σ.size) :
    ((∀ source ∈ sources, ∀ t ∈ (σ.get s).mixins ++ sources,
        σ.equal? (.scope t) (.scope source) ≠ none) → ∃ τ, σ.addMixins s sources = .ok τ) ∧
    ((∀ source ∈ sources, σ.items? source = none) → Distinct σ (σ.get s).mixins sources) ∧
    ∀ τ, σ.addMixins s sources = .ok τ →
      (∀ t, t ≠ s → τ.get t = σ.get t) ∧
      ((∀ source ∈ sources, source ∈ (τ.get s).mixins) ↔ Distinct σ (σ.get s).mixins sources) ∧
      (Distinct σ (σ.get s).mixins sources →
        (τ.get s).mixins = (σ.get s).mixins ++ (sources.filter (· ∉ (σ.get s).mixins)).eraseDups ∧
        ∀ source ∈ sources, (σ.get s).mixins.count source ≤ 1 → (τ.get s).mixins.count source = 1) ∧
      (∀ source ∈ sources, source ∉ (τ.get s).mixins →
        ∃ t ∈ (τ.get s).mixins, t ≠ source ∧ σ.equal? (.scope t) (.scope source) = some true) ∧
      (Acyclic τ → ∀ source ∈ sources, source ∈ (τ.get s).mixins → ∀ n,
        ((∃ o, σ.owner? source n = .ok (some o)) ∨ ∃ o, τ.owner? source n = .ok (some o)) →
        ∃ o, τ.owner? s n = .ok (some o)) := by
  refine ⟨fun h => ?_, distinct_of_plain, fun τ h => ?_⟩
  · have hends := addMixins_ends hs h
    rwa [setMixins_self] at hends
  · rw [← setMixins_self σ s] at h
    obtain ⟨ms', hg, rfl⟩ := gathers_of_ok hs h
    have hR := resembles_setMixins σ s ms'
    rw [mixins_setMixins hs]
    refine ⟨fun t ht => get_setMixins_of_ne ht ms', hg.all_iff, fun hd => ⟨hg.eq_append hd, ?_⟩, ?_, ?_⟩
    · intro source hsource hone
      rw [hg.eq_append hd, List.count_append]
      exact count_gathered hsource hone
    · intro source hsource hnot
      obtain ⟨t, ht, heq⟩ := equal_of_asks ((hg.met hsource).resolve_left hnot)
      exact ⟨t, ht, fun hts => hnot (hts ▸ ht), heq⟩
    · intro hτ source _ hm n hresolves
      rw [← mixins_setMixins hs ms'] at hm
      have hsub := nexts_setMixins hg.kept_prefix
      rcases hresolves with h | h
      · exact resolves_of_mixin hτ (fun t => hR.owns t n) hsub hm h
      · exact resolves_of_mixin hτ (fun _ => rfl) (fun _ => List.Subset.refl _) hm h

def mixed : Store where
  scopes := #[{ kind := .list [.num 1], bindings := [("a", .num 1)] },
    { kind := .list [.num 2], bindings := [("b", .num 2)] }, { bindings := [("c", .num 3)] },
    { mixins := [0] }]

theorem mixins_kept_mixed :
    3 < mixed.size ∧ Distinct mixed [0] [2, 1, 0, 2] ∧
      ∃ τ, mixed.addMixins 3 [2, 1, 0, 2] = .ok τ ∧ Acyclic τ ∧ (τ.get 3).mixins = [0, 2, 1] ∧
        (∀ source ∈ [2, 1, 0, 2], (τ.get 3).mixins.count source = 1) ∧
        ∃ o, τ.owner? 3 "b" = .ok (some o) := by
  have hs : 3 < mixed.size := by decide
  obtain ⟨-, -, hall⟩ := @mixins_kept mixed [2, 1, 0, 2] 3 hs
  obtain ⟨-, hiff, hkept, -, hnames⟩ := hall (mixed.setMixins 3 [0, 2, 1]) rfl
  have hd : Distinct mixed [0] [2, 1, 0, 2] := hiff.1 (by decide)
  have hτ : Acyclic (mixed.setMixins 3 [0, 2, 1]) := acyclic_of_lt (by decide)
  obtain ⟨hmixins, hcount⟩ := hkept hd
  refine ⟨hs, hd, _, rfl, hτ, hmixins, fun source h => hcount source h ?_, ?_⟩
  · exact List.nodup_iff_count_le_one.1 (by decide) source
  · exact hnames hτ 1 (by decide) (by decide) "b" (.inl ⟨1, rfl⟩)

def twins : Store where
  scopes := #[{ kind := .list [] }, { kind := .list [], bindings := [("x", .num 1)] }, {}]

/-- The second of two equal lists is lost, and its names with it. -/
theorem twin_lost :
    ∃ τ, twins.addMixins 2 [0, 1] = .ok τ ∧ Acyclic τ ∧ 1 ∉ (τ.get 2).mixins ∧
      τ.owner? 1 "x" = .ok (some 1) ∧ τ.owner? 2 "x" = .ok none :=
  ⟨twins.setMixins 2 [0], rfl, acyclic_of_lt (by decide), by decide, rfl, rfl⟩

end BlockScript.Proofs.Sources
