import BlockScript.Proofs.Writable
import Mathlib.Order.RelClasses

namespace BlockScript.Proofs.Precedence

open Relation Writable Writing

variable {σ τ : Store} {s t d : ScopeId} {n m : String} {f : Term}

def Acyclic (σ : Store) : Prop :=
  ∀ s, ¬TransGen (fun s t => t ∈ σ.nexts s) s s

/-- A scope, then each of its mixins and last its parent, every one of them followed by its own. -/
def linearWithin (σ : Store) : Nat → ScopeId → List ScopeId
  | 0, _ => []
  | steps + 1, s => s :: (σ.nexts s).flatMap (linearWithin σ steps)

def linear (σ : Store) (s : ScopeId) : List ScopeId :=
  linearWithin σ (σ.size + 1) s

structure Foremost (p : ScopeId → Bool) (d : ScopeId) (asked : List ScopeId) : Prop where
  mem : d ∈ asked
  first : ∀ o ∈ asked.takeWhile (· ≠ d), p o = false

theorem lt_size_of_nexts (h : t ∈ σ.nexts s) : s < σ.size := by
  refine Nat.lt_of_not_le fun hle => ?_
  rw [Store.nexts, get_of_size_le hle] at h
  cases h

theorem acyclic_of_wellFounded (hw : WellFounded fun t s => t ∈ σ.nexts s) : Acyclic σ := by
  intro s h
  rw [← transGen_swap] at h
  exact hw.transGen.asymmetric s s h h

theorem acyclic_of_lt (h : ∀ s < σ.size, ∀ t ∈ σ.nexts s, t < s) : Acyclic σ := by
  apply acyclic_of_wellFounded
  apply Subrelation.wf ?_ Nat.lt_wfRel.wf
  intro t s ht
  exact h s (lt_size_of_nexts ht) t ht

/-- A search that goes through what the searches in `asked` do comes to the first owner in them. -/
theorem findSomeM?_ok {xs : List ScopeId} {search : ScopeId → Except Fault (Option ScopeId)}
    {asked : ScopeId → List ScopeId} {p : ScopeId → Bool}
    (h : ∀ u ∈ xs, search u = .ok ((asked u).find? p)) :
    xs.findSomeM? search = .ok ((xs.flatMap asked).find? p) := by
  induction xs with
  | nil => rfl
  | cons x xs ih =>
      have hrest := ih fun u hu => h u (List.mem_cons_of_mem x hu)
      rw [List.findSomeM?, h x List.mem_cons_self, List.flatMap_cons, List.find?_append]
      cases (asked x).find? p with
      | none => exact hrest
      | some o => rfl

section Order

variable (hσ : Acyclic σ)
include hσ

/-- What holds of a scope once it holds of those that come after it holds of all. -/
theorem walk {W : Nat → List ScopeId → ScopeId → Prop}
    (hopen : ∀ depth within s, s ∉ within → (∀ u ∈ σ.nexts s, W depth (s :: within) u) →
      W (depth + 1) within s) (s : ScopeId) : W (σ.size + 1) [] s :=
  walk_ends hopen (fun t _ => hσ t) fun _ _ => lt_size_of_nexts

theorem linearWithin_add (more : Nat) (s : ScopeId) :
    linearWithin σ (σ.size + 1 + more) s = linear σ s := by
  refine walk hσ (W := fun depth _ s => linearWithin σ (depth + more) s = linearWithin σ depth s) ?_ s
  intro depth within s _ ih
  rw [Nat.add_right_comm, linearWithin, linearWithin]
  exact congrArg (s :: ·) (List.flatMap_congr ih)

theorem linear_eq_nexts (s : ScopeId) : linear σ s = s :: (σ.nexts s).flatMap (linear σ) := by
  have hmore := linearWithin_add hσ 1
  rw [← hmore, linearWithin]
  rfl

theorem linear_eq (s : ScopeId) :
    linear σ s = s :: ((σ.get s).mixins.flatMap (linear σ) ++ (σ.get s).parent.elim [] (linear σ)) := by
  rw [linear_eq_nexts hσ, Store.nexts, List.flatMap_append]
  cases (σ.get s).parent with
  | none => rfl
  | some p => rw [Option.toList_some, List.flatMap_singleton, Option.elim_some]

theorem mem_linear_iff : t ∈ linear σ s ↔ ReflTransGen (fun s t => t ∈ σ.nexts s) s t := by
  constructor
  · have hwithin (steps : Nat) : ∀ s, t ∈ linearWithin σ steps s →
        ReflTransGen (fun s t => t ∈ σ.nexts s) s t := by
      induction steps with
      | zero => exact fun s h => by cases h
      | succ steps ih =>
          intro s h
          rcases List.mem_cons.1 h with rfl | h
          · exact .refl
          · obtain ⟨u, hu, h⟩ := List.mem_flatMap.1 h
            exact .head hu (ih u h)
    exact hwithin _ s
  · intro h
    induction h using ReflTransGen.head_induction_on with
    | refl =>
        rw [linear_eq_nexts hσ]
        exact List.mem_cons_self
    | head hu _ ih =>
        rw [linear_eq_nexts hσ]
        exact List.mem_cons_of_mem _ (List.mem_flatMap.2 ⟨_, hu, ih⟩)

theorem owner?_eq (s : ScopeId) (n : String) :
    σ.owner? s n = .ok ((linear σ s).find? (σ.owns · n)) := by
  refine walk hσ (W := fun depth within s =>
    σ.ownerWithin n depth within s = .ok ((linear σ s).find? (σ.owns · n))) ?_ s
  intro depth within s hs ih
  rw [Store.ownerWithin, linear_eq_nexts hσ, List.find?_cons]
  by_cases ho : σ.owns s n = true
  · rw [if_pos ho, ho]
  · rw [if_neg ho, if_neg hs, findSomeM?_ok ih]
    simp [ho]

theorem resolves_iff : (∃ o, σ.owner? s n = .ok (some o)) ↔
    ∃ o, ReflTransGen (fun s t => t ∈ σ.nexts s) s o ∧ σ.owns o n = true := by
  simp only [owner?_eq hσ, Except.ok.injEq, ← mem_linear_iff hσ]
  rw [← Option.isSome_iff_exists, List.find?_isSome]

theorem lookupBinding_eq (s : ScopeId) (n : String) :
    σ.lookupBinding s n = .ok (((linear σ s).find? (σ.owns · n)).bind fun o =>
      ((σ.get o).bindings.get? n).bind Term.present?) := by
  rw [Store.lookupBinding, owner?_eq hσ]
  rfl

end Order

section Parents

def OlderParents (σ : Store) : Prop :=
  ∀ s, ∀ p ∈ (σ.get s).parent, p < s

theorem olderParents_of_made (h : ∀ s < σ.size, ∀ p ∈ (σ.get s).parent, p < s) :
    OlderParents σ := by
  intro s p hp
  by_cases hs : s < σ.size
  · exact h s hs p hp
  · rw [get_of_size_le (Nat.le_of_not_lt hs)] at hp
    cases hp

variable (hσ : OlderParents σ)
include hσ

theorem chainWithin_eq {steps : Nat} (hs : s < steps) : σ.chainWithin steps s = σ.chain s := by
  induction s using Nat.strongRecOn generalizing steps with
  | ind s ih =>
      obtain ⟨steps, rfl⟩ := Nat.exists_eq_succ_of_ne_zero (Nat.ne_zero_of_lt hs)
      rw [Store.chain, Store.chainWithin, Store.chainWithin]
      cases hp : (σ.get s).parent with
      | none => rfl
      | some p =>
          have hlt := hσ s p hp
          simp only
          rw [ih p hlt (Nat.lt_of_lt_of_le hlt (Nat.le_of_lt_succ hs)), ih p hlt hlt]

theorem chain_eq (s : ScopeId) : σ.chain s = s :: (σ.get s).parent.elim [] σ.chain := by
  rw [Store.chain, Store.chainWithin]
  cases hp : (σ.get s).parent with
  | none => rfl
  | some p => exact congrArg (s :: ·) (chainWithin_eq hσ (hσ s p hp))

theorem chainWithin_descends (steps : Nat) (s : ScopeId) :
    (σ.chainWithin steps s).Pairwise (· > ·) ∧ ∀ t ∈ σ.chainWithin steps s, t ≤ s := by
  induction steps generalizing s with
  | zero => exact ⟨.nil, nofun⟩
  | succ steps ih =>
      rw [Store.chainWithin]
      cases hp : (σ.get s).parent with
      | none => simp
      | some p =>
          have hlt : p < s := hσ s p hp
          obtain ⟨hpair, hle⟩ := ih p
          have hbelow (t) (ht : t ∈ σ.chainWithin steps p) : t < s := Nat.lt_of_le_of_lt (hle t ht) hlt
          constructor
          · exact List.pairwise_cons.2 ⟨hbelow, hpair⟩
          · rw [List.forall_mem_cons]
            exact ⟨Nat.le_refl s, fun t ht => Nat.le_of_lt (hbelow t ht)⟩

end Parents

section Definition

theorem get_setBinding (hd : d < σ.size) (t : ScopeId) :
    ((σ.setBinding d n f).get t).bindings =
      if t = d then (σ.get t).bindings.set n f else (σ.get t).bindings := by
  rw [Store.setBinding, Store.get_modify]
  by_cases ht : t = d
  · rw [if_pos ⟨ht, hd⟩, if_pos ht]
  · rw [if_neg fun h => ht h.1, if_neg ht]

theorem owns_setBinding (hd : d < σ.size) (t : ScopeId) (m : String) :
    (σ.setBinding d n f).owns t m = (decide (t = d ∧ m = n) || σ.owns t m) := by
  rw [Store.owns, Bindings.owns, get_setBinding hd, Store.owns, Bindings.owns]
  by_cases ht : t = d
  · rw [if_pos ht, Bindings.get?_set]
    by_cases hm : m = n <;> simp [ht, hm]
  · simp [ht]

theorem items?_setBinding (t : ScopeId) : (σ.setBinding d n f).items? t = σ.items? t := by
  rw [Store.items?, Store.items?, Store.setBinding, Store.get_modify]
  split
  · rfl
  · rfl

theorem nexts_setBinding (s : ScopeId) : (σ.setBinding d n f).nexts s = σ.nexts s := by
  rw [Store.nexts, Store.nexts, Store.setBinding, Store.get_modify]
  split
  · rfl
  · rfl

theorem acyclic_setBinding (hσ : Acyclic σ) : Acyclic (σ.setBinding d n f) := by
  intro s
  simp only [nexts_setBinding]
  exact hσ s

theorem linear_setBinding (s : ScopeId) : linear (σ.setBinding d n f) s = linear σ s := by
  have hwithin (steps : Nat) : ∀ s, linearWithin (σ.setBinding d n f) steps s =
      linearWithin σ steps s := by
    induction steps with
    | zero => exact fun _ => rfl
    | succ steps ih =>
        intro s
        rw [linearWithin, linearWithin, nexts_setBinding, funext ih]
  have hsize : (σ.setBinding d n f).size = σ.size := Store.size_modify _
  rw [linear, linear, hsize, hwithin]

section Foremost

variable {p : ScopeId → Bool} {asked : List ScopeId}

theorem foremost_cons_self : Foremost p d (d :: asked) :=
  ⟨List.mem_cons_self, by simp⟩

theorem foremost_cons_of_ne (h : s ≠ d) :
    Foremost p d (s :: asked) ↔ p s = false ∧ Foremost p d asked := by
  constructor
  · rintro ⟨hmem, hfirst⟩
    rw [List.takeWhile_cons_of_pos (by simpa using h), List.forall_mem_cons] at hfirst
    exact ⟨hfirst.1, List.mem_of_ne_of_mem (Ne.symm h) hmem, hfirst.2⟩
  · rintro ⟨hs, hmem, hfirst⟩
    refine ⟨List.mem_cons_of_mem s hmem, ?_⟩
    rw [List.takeWhile_cons_of_pos (by simpa using h), List.forall_mem_cons]
    exact ⟨hs, hfirst⟩

theorem Foremost.find? (h : Foremost p d asked) :
    asked.find? (fun o => decide (o = d) || p o) = some d := by
  induction asked with
  | nil => cases h.mem
  | cons s asked ih =>
      rw [List.find?_cons]
      by_cases hs : s = d
      · simp [hs]
      · obtain ⟨hp, hrest⟩ := (foremost_cons_of_ne hs).1 h
        simp [hs, hp, ih hrest]

theorem find?_of_not_foremost (h : ¬Foremost p d asked) :
    asked.find? (fun o => decide (o = d) || p o) = asked.find? p ∧ asked.find? p ≠ some d := by
  induction asked with
  | nil => simp
  | cons s asked ih =>
      have hs : s ≠ d := fun hs => h (hs ▸ foremost_cons_self)
      rw [List.find?_cons, List.find?_cons]
      by_cases hp : p s = true
      · simp [hs, hp]
      · have hrest : ¬Foremost p d asked := fun hf =>
          h ((foremost_cons_of_ne hs).2 ⟨by simpa using hp, hf⟩)
        simpa [hs, hp] using ih hrest

end Foremost

theorem lookupBinding_setBinding (hσ : Acyclic σ) (hd : d < σ.size) (t : ScopeId) :
    (Foremost (σ.owns · n) d (linear σ t) →
        (σ.setBinding d n f).lookupBinding t n = .ok f.present?) ∧
      (¬Foremost (σ.owns · n) d (linear σ t) →
        (σ.setBinding d n f).lookupBinding t n = σ.lookupBinding t n) := by
  have howns : ((σ.setBinding d n f).owns · n) = fun o => decide (o = d) || σ.owns o n := by
    funext o
    rw [owns_setBinding hd]
    simp
  rw [lookupBinding_eq (acyclic_setBinding hσ), lookupBinding_eq hσ, linear_setBinding, howns]
  constructor
  · intro h
    rw [h.find?]
    simp [get_setBinding hd, Bindings.get?_set]
  · intro h
    obtain ⟨hfind, hne⟩ := find?_of_not_foremost h
    rw [hfind]
    cases ho : (linear σ t).find? (σ.owns · n) with
    | none => rfl
    | some o =>
        have hod : o ≠ d := fun hod => hne (hod ▸ ho)
        simp [get_setBinding hd, hod]

theorem lookupBinding_setBinding_of_ne (hσ : Acyclic σ) (hd : d < σ.size) (hm : m ≠ n)
    (t : ScopeId) : (σ.setBinding d n f).lookupBinding t m = σ.lookupBinding t m := by
  have howns : ((σ.setBinding d n f).owns · m) = (σ.owns · m) := by
    funext o
    rw [owns_setBinding hd]
    simp [hm]
  rw [lookupBinding_eq (acyclic_setBinding hσ), lookupBinding_eq hσ, linear_setBinding, howns]
  congr 2
  funext o
  rw [get_setBinding hd]
  split
  · rw [Bindings.get?_set, if_neg hm]
  · rfl

end Definition

theorem lookup_setBinding (hσ : Acyclic σ) (hd : d < σ.size) (hn : ∀ t, NamesBinding σ t n)
    (t : ScopeId) :
    (Foremost (σ.owns · n) d (linear σ t) → (σ.setBinding d n f).lookup t n = .ok f.present?) ∧
      (¬Foremost (σ.owns · n) d (linear σ t) → (σ.setBinding d n f).lookup t n = σ.lookup t n) := by
  have hn' : NamesBinding (σ.setBinding d n f) t n := fun hlist => hn t (items?_setBinding t ▸ hlist)
  rw [hn'.lookup, (hn t).lookup]
  exact lookupBinding_setBinding hσ hd t

theorem lookup_setBinding_of_ne (hσ : Acyclic σ) (hd : d < σ.size) (hm : m ≠ n) (t : ScopeId) :
    (σ.setBinding d n f).lookup t m = σ.lookup t m := by
  have hlimit : (σ.setBinding d n f).digitLimit = σ.digitLimit := rfl
  rw [Store.lookup, Store.lookup, items?_setBinding, hlimit, lookupBinding_setBinding_of_ne hσ hd hm]

/-- Where the mixins and parents of scopes lead in no circles, a search comes to the first owner in
the order of scopes, mixins, parents. A definition shows from the scopes in whose order it stands
before every owner, and nowhere else. -/
theorem define_linear (hσ : Acyclic σ) :
    (∀ t, linear σ t =
      t :: ((σ.get t).mixins.flatMap (linear σ) ++ (σ.get t).parent.elim [] (linear σ))) ∧
    (∀ t n, σ.owner? t n = .ok ((linear σ t).find? (σ.owns · n))) ∧
    ∀ n, n ≠ "length" → SlotName.isNumeral n = false →
      (∀ t, σ.lookup t n = .ok (((linear σ t).find? (σ.owns · n)).bind fun o =>
        ((σ.get o).bindings.get? n).bind Term.present?)) ∧
      ∀ d < σ.size, ∀ f τ, σ.define d n f = .ok τ → ∀ t,
        (Foremost (σ.owns · n) d (linear σ t) → τ.lookup t n = .ok f.present?) ∧
        (¬Foremost (σ.owns · n) d (linear σ t) → τ.lookup t n = σ.lookup t n) ∧
        ∀ m, m ≠ n → τ.lookup t m = σ.lookup t m := by
  refine ⟨linear_eq hσ, owner?_eq hσ, fun n hlength hnumeral => ?_⟩
  have hn (t) : NamesBinding σ t n := fun _ => ⟨hlength, hnumeral⟩
  constructor
  · intro t
    rw [(hn t).lookup, lookupBinding_eq hσ]
  · intro d hd f τ hdefine t
    rw [(hn d).define] at hdefine
    obtain ⟨-, rfl⟩ := defineBinding_cases hdefine
    obtain ⟨hforemost, helse⟩ := lookup_setBinding hσ hd hn t
    exact ⟨hforemost, helse, fun m hm => lookup_setBinding_of_ne hσ hd hm t⟩

def diamond : Store where
  scopes := #[{ bindings := [("x", .var (.num 1) false "x")] }, { parent := some 0 },
    { bindings := [("x", .var (.num 2) false "x")], parent := some 0 },
    { parent := some 1, mixins := [2] }]

theorem diamond_acyclic : Acyclic diamond :=
  acyclic_of_lt (by decide)

theorem define_linear_diamond :
    Acyclic diamond ∧ linear diamond 3 = [3, 2, 0, 1, 0] ∧
    ∃ τ, diamond.define 1 "x" (.var (.num 5) false "x") = .ok τ ∧
      τ.lookup 1 "x" = .ok (some (.var (.num 5) false "x")) ∧ τ.lookup 3 "x" = diamond.lookup 3 "x" ∧
      ∀ t, τ.lookup t "y" = diamond.lookup t "y" := by
  obtain ⟨-, -, h⟩ := define_linear diamond_acyclic
  obtain ⟨-, h⟩ := h "x" (by decide) (by decide)
  have hd := h 1 (by decide) (.var (.num 5) false "x") _ rfl
  have hforemost : Foremost (diamond.owns · "x") 1 (linear diamond 1) := ⟨by decide, by decide⟩
  have hhidden : ¬Foremost (diamond.owns · "x") 1 (linear diamond 3) := by
    rintro ⟨-, hfirst⟩
    exact absurd (hfirst 2 (by decide)) (by decide)
  exact ⟨diamond_acyclic, by decide, _, rfl, (hd 1).1 hforemost, (hd 3).2.1 hhidden,
    fun t => (hd t).2.2 "y" (by decide)⟩

end BlockScript.Proofs.Precedence
