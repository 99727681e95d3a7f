import BlockScript.Proofs.Precedence
import BlockScript.Proofs.Running

namespace BlockScript.Proofs.Removal

open Eval Faulting Precedence Running Writing

variable {σ τ : Store} {s t o : ScopeId} {n : String} {os : List ScopeId}

def owners (σ : Store) (s : ScopeId) (n : String) : List ScopeId :=
  (σ.chain s).filter (σ.owns · n)

def without (n : String) (c : Scope) : Scope :=
  { c with bindings := c.bindings.filter fun e => e.1 != n, removed := n :: c.removed }

theorem nodup_owners (hσ : OlderParents σ) (s : ScopeId) (n : String) : (owners σ s n).Nodup := by
  apply List.Pairwise.filter
  exact (chainWithin_descends hσ (s + 1) s).1.imp fun h => Nat.ne_of_gt h

section Step

theorem lt_size_of_owns (h : σ.owns s n = true) : s < σ.size := by
  refine Nat.lt_of_not_le fun hle => ?_
  rw [Store.owns, get_of_size_le hle] at h
  cases h

theorem get_eraseBinding (h : σ.owns o n = true) (t : ScopeId) :
    (σ.eraseBinding o n).get t = if t = o then without n (σ.get t) else σ.get t := by
  rw [Store.eraseBinding, Store.get_modify]
  by_cases ht : t = o
  · rw [if_pos ⟨ht, lt_size_of_owns h⟩, if_pos ht]
    rfl
  · rw [if_neg fun h => ht h.1, if_neg ht]

theorem owns_eraseBinding (h : σ.owns o n = true) (t : ScopeId) :
    (σ.eraseBinding o n).owns t n = (σ.owns t n && decide (t ≠ o)) := by
  rw [Store.owns, get_eraseBinding h]
  by_cases ht : t = o
  · have hgone : (without n (σ.get t)).bindings.get? n = none := by
      have hget := Bindings.get?_erase (σ.get t).bindings n n
      rwa [if_pos rfl] at hget
    rw [if_pos ht, Bindings.owns, hgone]
    simp [ht]
  · simp [ht, Store.owns]

theorem parent_eraseBinding (o t : ScopeId) (n : String) :
    ((σ.eraseBinding o n).get t).parent = (σ.get t).parent := by
  rw [Store.eraseBinding]
  exact Formal.get_modify (g := Scope.parent) rfl t

theorem chain_eraseBinding (o s : ScopeId) (n : String) :
    (σ.eraseBinding o n).chain s = σ.chain s := by
  have hwithin (steps : Nat) : ∀ s, (σ.eraseBinding o n).chainWithin steps s =
      σ.chainWithin steps s := by
    induction steps with
    | zero => exact fun _ => rfl
    | succ steps ih =>
        intro s
        rw [Store.chainWithin, Store.chainWithin, parent_eraseBinding]
        cases (σ.get s).parent with
        | none => rfl
        | some p => exact congrArg (s :: ·) (ih p)
  exact hwithin (s + 1) s

theorem olderParents_eraseBinding (hσ : OlderParents σ) (o : ScopeId) (n : String) :
    OlderParents (σ.eraseBinding o n) := by
  intro t p hp
  rw [parent_eraseBinding] at hp
  exact hσ t p hp

theorem removeBinding_eq (σ : Store) (s : ScopeId) (n : String) :
    σ.removeBinding s n = match (owners σ s n).head? with
      | some o => σ.eraseBinding o n
      | none => σ := by
  rw [owners, List.head?_filter]
  rfl

theorem owns_of_owners (h : o ∈ owners σ s n) : σ.owns o n = true :=
  (List.mem_filter.1 h).2

theorem owners_removeBinding (hσ : OlderParents σ) (s : ScopeId) (n : String) :
    owners (σ.removeBinding s n) s n = (owners σ s n).tail := by
  have hnodup := nodup_owners hσ s n
  rw [removeBinding_eq]
  cases hos : owners σ s n with
  | nil => exact hos
  | cons o os =>
      have ho : σ.owns o n = true := owns_of_owners (s := s) (hos ▸ List.mem_cons_self)
      rw [hos, List.nodup_cons] at hnodup
      have hsplit : owners (σ.eraseBinding o n) s n = (owners σ s n).filter fun t => decide (t ≠ o) := by
        rw [owners, chain_eraseBinding, owners, List.filter_filter]
        congr 1
        funext t
        rw [owns_eraseBinding ho, Bool.and_comm]
      rw [List.head?_cons, List.tail_cons, hsplit, hos, List.filter_cons_of_neg (by simp)]
      apply List.filter_eq_self.2
      intro t ht
      simp only [decide_eq_true_eq]
      rintro rfl
      exact hnodup.1 ht

end Step

section Run

def peeled (σ : Store) (s : ScopeId) (n : String) : Nat → Store
  | 0 => σ
  | j + 1 => (peeled σ s n j).removeBinding s n

theorem olderParents_removeBinding (hσ : OlderParents σ) (s : ScopeId) (n : String) :
    OlderParents (σ.removeBinding s n) := by
  obtain h | ⟨o, -, h⟩ := removeBinding_cases σ s n
  · exact h.symm ▸ hσ
  · rw [h]
    exact olderParents_eraseBinding hσ o n

theorem olderParents_peeled (hσ : OlderParents σ) (j : Nat) : OlderParents (peeled σ s n j) := by
  induction j with
  | zero => exact hσ
  | succ j ih => exact olderParents_removeBinding ih s n

theorem owners_peeled (hσ : OlderParents σ) (j : Nat) :
    owners (peeled σ s n j) s n = (owners σ s n).drop j := by
  induction j with
  | zero => rfl
  | succ j ih =>
      rw [peeled, owners_removeBinding (olderParents_peeled hσ j), ih, List.tail_drop]

theorem peeled_succ (hσ : OlderParents σ) (j : Nat) :
    peeled σ s n (j + 1) = match (owners σ s n)[j]? with
      | some o => (peeled σ s n j).eraseBinding o n
      | none => peeled σ s n j := by
  rw [peeled, removeBinding_eq, owners_peeled hσ, List.head?_drop]

theorem owns_peeled (hσ : OlderParents σ) {j : Nat} (ho : (owners σ s n)[j]? = some o) :
    (peeled σ s n j).owns o n = true := by
  refine owns_of_owners (s := s) ?_
  rw [owners_peeled hσ]
  exact List.mem_of_mem_head? (by rw [List.head?_drop, ho]; rfl)

theorem get_peeled (hσ : OlderParents σ) (j : Nat) (t : ScopeId) :
    (peeled σ s n j).get t =
      if t ∈ (owners σ s n).take j then without n (σ.get t) else σ.get t := by
  induction j with
  | zero => simp [peeled]
  | succ j ih =>
      rw [peeled_succ hσ, List.take_add_one]
      cases ho : (owners σ s n)[j]? with
      | none => simpa using ih
      | some o =>
          have hdrop : o ∈ (owners σ s n).drop j :=
            List.mem_of_mem_head? (by rw [List.head?_drop, ho]; rfl)
          have hnew : o ∉ (owners σ s n).take j := fun htake =>
            List.disjoint_take_drop (nodup_owners hσ s n) (Nat.le_refl j) htake hdrop
          rw [get_eraseBinding (owns_peeled hσ ho), ih]
          by_cases ht : t = o
          · simp [ht, hnew]
          · simp [ht]

theorem reading_peeled {β : Type} {g : Scope → β} (hσ : OlderParents σ)
    (hg : ∀ c, g (without n c) = g c) (j : Nat) (t : ScopeId) :
    g ((peeled σ s n j).get t) = g (σ.get t) := by
  rw [get_peeled hσ]
  split
  · exact hg _
  · rfl

theorem chain_peeled (j : Nat) : (peeled σ s n j).chain s = σ.chain s := by
  induction j with
  | zero => rfl
  | succ j ih =>
      rw [peeled, ← ih]
      obtain h | ⟨o, -, h⟩ := removeBinding_cases (peeled σ s n j) s n
      · rw [h]
      · rw [h, chain_eraseBinding]

theorem namesBinding_peeled (hσ : OlderParents σ) (hn : NamesBinding σ s n) (j : Nat) :
    NamesBinding (peeled σ s n j) s n := by
  have hitems : (peeled σ s n j).items? s = σ.items? s :=
    reading_peeled hσ (g := fun c => c.kind.items?) (fun _ => rfl) j s
  rwa [NamesBinding, hitems]

theorem remove_peeled (hσ : OlderParents σ) (hn : NamesBinding σ s n) (j : Nat) :
    (peeled σ s n j).remove s n = .ok (peeled σ s n (j + 1)) := by
  rw [(namesBinding_peeled hσ hn j).remove, peeled]

theorem not_owns_peeled (hσ : OlderParents σ) {j : Nat} (hj : (owners σ s n).length ≤ j)
    {t : ScopeId} (ht : t ∈ σ.chain s) : (peeled σ s n j).owns t n = false := by
  have hnil : owners (peeled σ s n j) s n = [] := by
    rw [owners_peeled hσ, List.drop_eq_nil_of_le hj]
  rw [owners, chain_peeled, List.filter_eq_nil_iff] at hnil
  simpa using hnil t ht

end Run

section Search

theorem findSomeM?_mono {f g : ScopeId → Except Fault (Option ScopeId)} {xs : List ScopeId}
    {r : Option ScopeId} (h : ∀ u r, f u = .ok r → g u = .ok r) (hf : xs.findSomeM? f = .ok r) :
    xs.findSomeM? g = .ok r := by
  induction xs with
  | nil => exact hf
  | cons x xs ih =>
      obtain ⟨found, hx, hrest⟩ := bind_ok hf
      rw [List.findSomeM?, h x found hx]
      cases found with
      | none => exact ih hrest
      | some o => exact hrest

/-- What is found in fewer steps, with more scopes asking, is found anyway. -/
theorem ownerWithin_mono {steps steps' : Nat} {within within' : List ScopeId} {r : Option ScopeId}
    (hsteps : steps ≤ steps') (hwithin : within' ⊆ within)
    (h : σ.ownerWithin n steps within s = .ok r) : σ.ownerWithin n steps' within' s = .ok r := by
  induction steps generalizing steps' within within' s r with
  | zero => cases h
  | succ steps ih =>
      obtain ⟨steps', rfl⟩ := Nat.exists_eq_succ_of_ne_zero (Nat.ne_zero_of_lt hsteps)
      rw [Store.ownerWithin] at h ⊢
      split at h
      next ho => rw [if_pos ho, h]
      next ho =>
          split at h
          next => cases h
          next hs =>
              rw [if_neg ho, if_neg fun hmem => hs (hwithin hmem)]
              apply findSomeM?_mono ?_ h
              intro u r hu
              exact ih (Nat.le_of_succ_le_succ hsteps) (List.cons_subset_cons s hwithin) hu

theorem findSomeM?_some {f : ScopeId → Except Fault (Option ScopeId)} {xs : List ScopeId}
    (h : xs.findSomeM? f = .ok (some o)) : ∃ u ∈ xs, f u = .ok (some o) := by
  induction xs with
  | nil => cases h
  | cons x xs ih =>
      obtain ⟨found, hx, hrest⟩ := bind_ok h
      cases found with
      | none =>
          obtain ⟨u, hu, hfu⟩ := ih hrest
          exact ⟨u, List.mem_cons_of_mem x hu, hfu⟩
      | some o' =>
          cases hrest
          exact ⟨x, List.mem_cons_self, hx⟩

theorem owns_of_ownerWithin {steps : Nat} {within : List ScopeId}
    (h : σ.ownerWithin n steps within s = .ok (some o)) : σ.owns o n = true := by
  induction steps generalizing within s with
  | zero => cases h
  | succ steps ih =>
      rw [Store.ownerWithin] at h
      split at h
      next ho =>
          cases h
          exact ho
      next =>
          split at h
          next => cases h
          next =>
              obtain ⟨u, -, hu⟩ := findSomeM?_some h
              exact ih hu

theorem mixin_of_ownerWithin (hσ : OlderParents σ) {steps : Nat} {within : List ScopeId}
    (hsteps : steps ≤ σ.size + 1) (hnone : ∀ c ∈ σ.chain s, σ.owns c n = false)
    (h : σ.ownerWithin n steps within s = .ok (some o)) :
    ∃ c ∈ σ.chain s, ∃ m ∈ (σ.get c).mixins, σ.owner? m n = .ok (some o) := by
  induction steps generalizing within s with
  | zero => cases h
  | succ steps ih =>
      have hchain := chain_eq hσ s
      have hs : σ.owns s n = false := hnone s (hchain ▸ List.mem_cons_self)
      rw [Store.ownerWithin, hs, if_neg Bool.false_ne_true] at h
      split at h
      next => cases h
      next =>
          obtain ⟨u, hu, hfound⟩ := findSomeM?_some h
          rcases List.mem_append.1 hu with hmixin | hparent
          · refine ⟨s, hchain ▸ List.mem_cons_self, u, hmixin, ?_⟩
            exact ownerWithin_mono (Nat.le_of_succ_le hsteps) (List.nil_subset _) hfound
          · rw [Option.mem_toList.1 hparent, Option.elim_some] at hchain
            have hsub (c) (hc : c ∈ σ.chain u) : c ∈ σ.chain s :=
              hchain ▸ List.mem_cons_of_mem s hc
            obtain ⟨c, hc, hm⟩ := ih (Nat.le_of_succ_le hsteps) (fun c hc => hnone c (hsub c hc)) hfound
            exact ⟨c, hsub c hc, hm⟩

end Search

theorem del_apply {call : Caller} {i : Invocation} {args : List Term} (hn : NamesBinding σ s n)
    (hi : i.args = .memory s n :: args) {st : State} (hst : st.store = σ) :
    Builtin.del.run call i st = (.ok .null, { st with store := σ.removeBinding s n }) := by
  have harg : Builtin.del.memoryArg i st = (.ok (s, n), st) := by
    rw [Builtin.memoryArg, hi]
    rfl
  have hremove : Eval.remove s n st = (.ok (), { st with store := σ.removeBinding s n }) := by
    rw [Eval.remove, updateStore_apply, hst, hn.remove]
  rw [Builtin.run, bind_of_ok harg]
  exact bind_of_ok hremove

theorem peeled_two (hσ : OlderParents σ) :
    peeled σ s n 2 = peeled σ s n 1 ↔ (owners σ s n).length ≤ 1 := by
  have hstep := peeled_succ (s := s) (n := n) hσ 1
  constructor
  · intro h
    by_contra hlen
    obtain ⟨o, ho⟩ : ∃ o, (owners σ s n)[1]? = some o :=
      ⟨_, List.getElem?_eq_getElem (Nat.lt_of_not_le hlen)⟩
    have howns := owns_peeled hσ ho
    have herased : peeled σ s n 2 = (peeled σ s n 1).eraseBinding o n := by rw [hstep, ho]
    have hgone := owns_eraseBinding howns o
    rw [← herased, h, howns] at hgone
    simp at hgone
  · intro hlen
    rw [hstep, List.getElem?_eq_none hlen]

/-- To remove a name from a scope again and again takes it from its owners among the scope and its
parents, one after the other, and changes nothing else. -/
theorem remove_peels (hσ : OlderParents σ) (hn : NamesBinding σ s n) :
    ∃ run : Nat → Store, run 0 = σ ∧ (∀ j, (run j).remove s n = .ok (run (j + 1))) ∧
      (∀ j, run (j + 1) = match (owners σ s n)[j]? with
        | some o => (run j).eraseBinding o n
        | none => run j) ∧
      (∀ j t, (run j).get t =
        if t ∈ (owners σ s n).take j then without n (σ.get t) else σ.get t) ∧
      (∀ call i args st, i.args = .memory s n :: args → st.store = σ →
        let once := Builtin.del.run call i st
        once.1 = .ok .null ∧
          (Builtin.del.run call i once.2 = once ↔ (owners σ s n).length ≤ 1)) ∧
      ∀ j, (owners σ s n).length ≤ j → ∀ o, (run j).owner? s n = .ok (some o) →
        o ∉ σ.chain s ∧
          ∃ c ∈ σ.chain s, ∃ m ∈ (σ.get c).mixins, (run j).owner? m n = .ok (some o) := by
  refine ⟨peeled σ s n, rfl, remove_peeled hσ hn, peeled_succ hσ, get_peeled hσ, ?again, ?mixins⟩
  case again =>
    intro call i args st hi hst once
    have honce : once = (.ok .null, { st with store := peeled σ s n 1 }) := del_apply hn hi hst
    have htwice : Builtin.del.run call i once.2 =
        (.ok .null, { st with store := peeled σ s n 2 }) := by
      rw [honce]
      exact del_apply (namesBinding_peeled hσ hn 1) hi rfl
    rw [htwice, honce]
    refine ⟨rfl, Iff.trans ⟨fun h => ?_, fun h => ?_⟩ (peeled_two hσ)⟩
    · exact congrArg (fun out : Except Failure Term × State => out.2.store) h
    · rw [h]
  case mixins =>
    intro j hj o ho
    have hchain : (peeled σ s n j).chain s = σ.chain s := chain_peeled j
    have hnone (c) (hc : c ∈ σ.chain s) := not_owns_peeled hσ hj hc
    refine ⟨fun hmem => ?_, ?_⟩
    · have howns := owns_of_ownerWithin ho
      rw [hnone o hmem] at howns
      cases howns
    · obtain ⟨c, hc, m, hm, hfound⟩ := mixin_of_ownerWithin (olderParents_peeled hσ j)
        (Nat.le_refl _) (hchain ▸ hnone) ho
      rw [hchain] at hc
      rw [reading_peeled hσ (g := Scope.mixins) fun _ => rfl] at hm
      exact ⟨c, hc, m, hm, hfound⟩

def layered : Store where
  scopes := #[{ bindings := [("x", .var (.num 1) false "x")] }, { parent := some 0, mixins := [3] },
    { bindings := [("x", .var (.num 2) false "x"), ("y", .null)], parent := some 1 },
    { bindings := [("x", .var (.num 3) false "x")] }]

theorem remove_peels_layered :
    OlderParents layered ∧ NamesBinding layered 2 "x" ∧ owners layered 2 "x" = [2, 0] ∧
      ∃ run : Nat → Store, run 0 = layered ∧ (∀ j, (run j).remove 2 "x" = .ok (run (j + 1))) ∧
        (run 1).get 2 = without "x" (layered.get 2) ∧ (run 1).get 0 = layered.get 0 ∧
        (run 2).get 0 = without "x" (layered.get 0) ∧ run 3 = run 2 ∧
        (run 3).get 3 = layered.get 3 := by
  have hparents : OlderParents layered := olderParents_of_made (by decide)
  have hn : NamesBinding layered 2 "x" := by rintro ⟨⟩
  have howners : owners layered 2 "x" = [2, 0] := by decide
  obtain ⟨run, hstart, hremove, hstep, hget, -, -⟩ := remove_peels hparents hn
  rw [howners] at hstep hget
  exact ⟨hparents, hn, howners, run, hstart, hremove, hget 1 2, hget 1 0, hget 2 0, hstep 2, hget 3 3⟩

end BlockScript.Proofs.Removal
