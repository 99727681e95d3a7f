import BlockScript.Proofs.Housing

namespace BlockScript.Proofs.Modules

open Heap Hosting Housing Law

variable {σ : Store} {l : Ledger} {m : Module} {root global : ScopeId} {n : String} {host : Host}

theorem find?_after {ms : List Module} {owns : ScopeId → Bool} (hm : m ∈ ms) (ho : owns m.scope = true)
    (hn : ∀ m' ∈ ms.takeWhile fun m' => m'.scope ≠ m.scope, owns m'.scope = false) :
    (ms.map Module.scope).find? owns = some m.scope := by
  induction ms with
  | nil => cases hm
  | cons m₀ ms ih =>
      by_cases hs : m₀.scope = m.scope
      · simp [hs, ho]
      · have hne : m ≠ m₀ := fun h => hs (by rw [h])
        rw [List.takeWhile_cons_of_pos (by simpa using hs)] at hn
        rw [List.map_cons, List.find?_cons, hn m₀ List.mem_cons_self]
        exact ih (List.mem_of_ne_of_mem hne hm) fun m' hm' => hn m' (List.mem_cons_of_mem _ hm')

section Owners

variable (h : Housed true l root global σ)
include h

theorem ownerWithin_modules {within ms : List ScopeId} (hwithin : ∀ s ∈ within, s ∉ l.scopes)
    (hms : ∀ s ∈ ms, s ∈ l.scopes) (n : String) (steps : Nat) :
    ms.findSomeM? (σ.ownerWithin n (steps + 1) within) = .ok (ms.find? fun s => σ.owns s n) := by
  induction ms with
  | nil => rfl
  | cons s ms ih =>
      have hs := hms s (by simp)
      have hnew : s ∉ within := fun hw => hwithin s hw hs
      have hown : σ.ownerWithin n (steps + 1) within s =
          .ok (if σ.owns s n then some s else none) := by
        rw [Store.ownerWithin, if_neg hnew, nexts_of_shape (h.module_shape s hs)]
        split <;> rfl
      have ih := ih fun t ht => hms t (List.mem_cons_of_mem _ ht)
      rw [List.findSomeM?, hown, List.find?_cons]
      cases σ.owns s n with
      | true => rfl
      | false => exact ih

theorem nexts_root : σ.nexts root = l.installed.map Module.scope := by
  rw [nexts_of_shape h.root_shape]
  exact List.append_nil _

theorem installed_scopes : ∀ s ∈ l.installed.map Module.scope, s ∈ l.scopes :=
  List.map_subset _ h.installed

theorem owner?_root (n : String) : σ.owner? root n = .ok (if σ.owns root n then some root
    else (l.installed.map Module.scope).find? fun s => σ.owns s n) := by
  obtain ⟨steps, hsteps⟩ := Nat.exists_eq_add_one.2 (Nat.zero_lt_of_lt h.root_open.1)
  rw [Store.owner?, hsteps, Store.ownerWithin]
  split
  · rfl
  · rw [if_neg List.not_mem_nil, nexts_root h, ownerWithin_modules h ?_ (installed_scopes h)]
    rw [List.forall_mem_singleton]
    exact h.root_open.2

theorem owner?_global (n : String) : σ.owner? global n = .ok (if σ.owns global n then some global
    else if σ.owns root n then some root
    else (l.installed.map Module.scope).find? fun s => σ.owns s n) := by
  have hglobal : σ.nexts global = [root] := nexts_of_shape h.global_shape
  have two {a b : Nat} (ha : a < σ.size) (hb : b < σ.size) (hne : a ≠ b) : ∃ k, σ.size = k + 2 :=
    ⟨σ.size - 2, by omega⟩
  obtain ⟨steps, hsteps⟩ := two h.root_open.1 h.global_open.1 h.global_ne.symm
  rw [Store.owner?, hsteps, Store.ownerWithin]
  split
  · rfl
  rw [if_neg List.not_mem_nil, hglobal, List.findSomeM?, Store.ownerWithin]
  split
  · rfl
  rw [if_neg (by simpa using h.global_ne.symm), nexts_root h,
    ownerWithin_modules h ?_ (installed_scopes h)]
  · cases (l.installed.map Module.scope).find? fun s => σ.owns s n <;> rfl
  · simp only [List.forall_mem_cons, List.not_mem_nil, false_implies, implies_true, and_true]
    exact ⟨h.root_open.2, h.global_open.2⟩

theorem owns_module (hm : m ∈ l.made) (n : String) : σ.owns m.scope n = (l.native? m n).isSome := by
  rw [Store.owns, Bindings.owns, h.bindings rfl m hm n, Option.isSome_map]

theorem binds_global (hm : m ∈ l.installed) (hn : l.native? m n ≠ none) :
    σ.binds global n = .ok true := by
  rw [Store.binds, items?_of_shape h.global_shape]
  simp only [Store.bindsBinding]
  rw [owner?_global h]
  split
  · rfl
  split
  · rfl
  have hown : σ.owns m.scope n = true := by
    rw [owns_module h (h.installed m hm)]
    exact Option.isSome_iff_ne_none.2 hn
  cases hfind : (l.installed.map Module.scope).find? fun s => σ.owns s n with
  | some s => rfl
  | none => exact absurd hown (List.find?_eq_none.1 hfind _ (List.mem_map_of_mem hm))

theorem lookup_global (hm : m ∈ l.installed) {f : Native} (hf : l.native? m n = some f)
    (hglobal : σ.owns global n = false) (hroot : σ.owns root n = false)
    (hafter : ∀ m' ∈ l.after m, l.native? m' n = none) :
    σ.lookup global n = .ok (some (.native f)) := by
  have hfind : ((l.installed.map Module.scope).find? fun s => σ.owns s n) = some m.scope := by
    refine find?_after hm ?_ fun m' hm' => ?_
    · rw [owns_module h (h.installed m hm), hf]
      rfl
    · have hin := List.takeWhile_subset _ hm'
      rw [owns_module h (h.installed m' hin), hafter m' hm']
      rfl
  rw [Store.lookup, items?_of_shape h.global_shape]
  simp only [Store.lookupBinding]
  rw [owner?_global h, if_neg (by simp [hglobal]), if_neg (by simp [hroot]), hfind]
  have hget := h.bindings rfl m (h.installed m hm) n
  rw [hf] at hget
  change Except.ok (((σ.get m.scope).bindings.get? n).bind Term.present?) = _
  rw [hget]
  rfl

end Owners

/-- The host's natives neither hand out what scripts cannot get at otherwise nor edit mixins, as long as
the evaluator that they call back does not. -/
def KeepsApart (host : Host) (l : Ledger) : Prop :=
  ∀ M ⊆ l.scopes, (heapLaw M).ObeyedBy host

section Ledgers

variable {a b : Stage}

theorem ledger_step (h : Step host a b) :
    a.ledger.registered ⊆ b.ledger.registered ∧ a.ledger.installed ⊆ b.ledger.installed := by
  cases h with
  | make name natives h => exact ⟨List.subset_append_right _ _, List.Subset.refl _⟩
  | register name impl hm h =>
      obtain ⟨f, -, -, hl, -⟩ := registers_cases h
      rw [hl]
      exact ⟨List.subset_cons_self _ _, List.Subset.refl _⟩
  | install hm h =>
      refine ⟨?_, ?_⟩
      all_goals
        rw [Ledger.install]
        split
      · exact List.Subset.refl _
      · exact List.Subset.refl _
      · exact List.Subset.refl _
      · exact List.subset_cons_self _ _
  | run c => exact ⟨List.Subset.refl _, List.Subset.refl _⟩

theorem ledger_path (h : Path host a b) :
    a.ledger.registered ⊆ b.ledger.registered ∧ a.ledger.installed ⊆ b.ledger.installed := by
  induction h with
  | refl => exact ⟨List.Subset.refl _, List.Subset.refl _⟩
  | tail _ hs ih =>
      have hs := ledger_step hs
      exact ⟨List.Subset.trans ih.1 hs.1, List.Subset.trans ih.2 hs.2⟩

theorem native?_of_registered {f : Native} (h : (m, f) ∈ l.registered) :
    ∃ g, l.native? m f.name = some g := by
  have hfind : (l.registered.find? fun e => e.1.scope = m.scope ∧ e.2.name = f.name).isSome :=
    List.find?_isSome.2 ⟨(m, f), h, by simp⟩
  obtain ⟨e, he⟩ := Option.isSome_iff_exists.1 hfind
  exact ⟨e.2, by rw [Ledger.native?, he]; rfl⟩

/-- Whatever a script does, it does nothing to the modules: under the names that an installed module has
registered there is always something, and it is the module's own native once nothing that comes before
it has the name. -/
theorem modules_stay (ha : Reachable host a) :
    (KeepsApart host a.ledger → ∀ c, let τ := (a.session.run host c).2.state.store
      (∀ m ∈ a.ledger.installed, (τ.get m.scope).bindings = (a.store.get m.scope).bindings) ∧
        (τ.get a.session.root).mixins = (a.store.get a.session.root).mixins) ∧
    ∀ b, Path host a b → KeepsApart host b.ledger →
      ∀ m ∈ a.ledger.installed, ∀ f, (m, f) ∈ a.ledger.registered →
      b.store.binds b.session.global f.name = .ok true ∧
      (b.store.owns b.session.global f.name = false → b.store.owns b.session.root f.name = false →
        (∀ m' ∈ b.ledger.after m, b.ledger.native? m' f.name = none) →
        ∃ g, b.ledger.native? m f.name = some g ∧
          b.store.lookup b.session.global f.name = .ok (some (.native g))) := by
  refine ⟨fun hh c => ?_, fun b hpath hh m hm f hf => ?_⟩
  · have h : Housed true _ _ _ _ := Housed.reachable hh ha
    have hl := h.run (hh _ (List.Subset.refl _)) c
    refine ⟨fun m hm => ?_, mixins_of_shape (hl.step.shape _ h.root_open.1)⟩
    rw [hl.step.kept m.scope (List.mem_map_of_mem (h.installed m hm))]
    rfl
  · have h : Housed true _ _ _ _ := Housed.reachable hh (ha.path hpath)
    have hm := (ledger_path hpath).2 hm
    obtain ⟨g, hg⟩ := native?_of_registered ((ledger_path hpath).1 hf)
    refine ⟨binds_global h hm (by simp [hg]), fun hglobal hroot hafter => ⟨g, hg, ?_⟩⟩
    exact lookup_global h hm hg hglobal hroot hafter

end Ledgers

theorem kitWithout_keepsApart (l : Ledger) : KeepsApart (kitWithout ["mixin"]) l :=
  fun M _ => kitWithout_obeys (heapLaw_upheld M) (heapLaw_accommodating M)
    (.inl List.mem_cons_self) (.inr (heapLaw_binding M))

def tools : List Native :=
  [⟨1, "add", .host "add"⟩, ⟨2, "fn", .builtin .fn⟩, ⟨3, "del", .builtin .del⟩]

def tooled : Stage :=
  let m : Module := ⟨"tools", 2⟩
  let scopes := #[{ kind := .root, mixins := [2] }, { kind := .block false, parent := some 0 },
    { bindings := tools.map fun f => (f.name, .native f) }]
  { ledger := (({} : Ledger).make m tools).install m
    session :=
      { state := { store := { scopes }, limit := 10, marks := 3 }
        root := 0, global := 1, modules := [("tools", m)] } }

theorem reachable_tooled (host : Host) : Reachable host tooled := by
  have hmake : Step host ⟨{}, .bare 10 false⟩ _ :=
    .make "tools" (tools.map fun f => (f.name, f.impl)) rfl
  exact ⟨10, false, (Relation.ReflTransGen.single hmake).tail (.install List.mem_cons_self rfl)⟩

def shadowing : Code :=
  ⟨[.call "fn" [.ref "add" none] (some ⟨[.num 1], []⟩), .call "del" [.ref "add" none] none], []⟩

theorem modules_stay_shadowed :
    let host := kitWithout ["mixin"]
    let τ := (tooled.session.run host shadowing).2.state.store
    KeepsApart host tooled.ledger ∧ Reachable host tooled ∧ τ.binds 1 "add" = .ok true ∧
      τ.lookup 1 "add" = .ok (some (.native ⟨1, "add", .host "add"⟩)) := by
  intro host τ
  have hapart : KeepsApart host tooled.ledger := kitWithout_keepsApart _
  obtain ⟨-, hstay⟩ := modules_stay (reachable_tooled host)
  have hrun : Path host tooled ⟨tooled.ledger, _⟩ := .single (.run shadowing)
  have hadd : ((⟨"tools", 2⟩, ⟨1, "add", .host "add"⟩) : Module × Native) ∈
      tooled.ledger.registered := by
    simp [tooled, Ledger.install, Ledger.make, tools]
  obtain ⟨hbinds, hlookup⟩ := hstay _ hrun hapart ⟨"tools", 2⟩ List.mem_cons_self _ hadd
  obtain ⟨g, hg, hlookup⟩ := hlookup (by decide +kernel) (by decide +kernel)
    fun _ h => absurd h List.not_mem_nil
  obtain rfl : ⟨1, "add", .host "add"⟩ = g := Option.some.inj hg
  exact ⟨hapart, reachable_tooled host, hbinds, hlookup⟩

end BlockScript.Proofs.Modules
