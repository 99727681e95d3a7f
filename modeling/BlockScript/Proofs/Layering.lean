import BlockScript.Proofs.Modules

namespace BlockScript.Proofs.Layering

open Faulting Heap Hosting Housing Modules

inductive Event
  | made (m : Module)
  | registered (m : Module) (f : Native)
  | added (m : Module)
  | ran (c : Code)

abbrev Log := List Event

def making (m : Module) (fs : List Native) : Log :=
  fs.reverse.map (.registered m) ++ [.made m]

def ledger : Log → Ledger
  | [] => {}
  | .made m :: log => (ledger log).make m []
  | .registered m f :: log => (ledger log).register m f
  | .added m :: log => (ledger log).install m
  | .ran _ :: log => ledger log

/-- The session is what has become of a bare one by what the log tells. A module registers natives when
it is made and at any time later, and can be added again. -/
inductive Equipped : Log → Session → Prop
  | bare (limit : Nat) (debugging : Bool) : Equipped [] (.bare limit debugging)
  | make {log s m s'} (name : String) (natives : List (String × Impl)) (h : Equipped log s)
      (hm : s.newModule name natives = .ok (m, s')) :
      Equipped (making m (s.mintAll natives).1 ++ log) s'
  | register {log s m σ} (name : String) (impl : Impl) (h : Equipped log s) (hm : .made m ∈ log)
      (hr : m.register s.state.store (s.mint name impl).1 = .ok σ) :
      Equipped (.registered m (s.mint name impl).1 :: log) ((s.mint name impl).2.withStore σ)
  | add {log s m s'} (h : Equipped log s) (hm : .made m ∈ log) (ha : s.addModule m = .ok s') :
      Equipped (.added m :: log) s'
  | run {log s} (host : Host) (hh : KeepsApart host (ledger log)) (c : Code) (h : Equipped log s) :
      Equipped (.ran c :: log) (s.run host c).2

variable {log : Log} {e : Event} {s s' : Session} {m m' : Module} {n : String} {f : Native}
  {fs : List Native}

def Sooner (log : Log) (m m' : Module) : Prop :=
  ∃ past, past <:+ log ∧ .added m ∈ past ∧ .added m' ∉ past

def Registers (log : Log) (m : Module) (n : String) : Prop :=
  ∃ f, .registered m f ∈ log ∧ f.name = n

def Latest (log : Log) (m : Module) (n : String) (f : Native) : Prop :=
  f.name = n ∧ ∃ since past, log = since ++ .registered m f :: past ∧ ¬Registers since m n

def Foremost (log : Log) (m : Module) (n : String) : Prop :=
  .added m ∈ log ∧ ∀ m', .added m' ∈ log → Registers log m' n → m' ≠ m → Sooner log m' m

section Making

@[simp] theorem made_mem_making : .made m ∈ making m' fs ↔ m = m' := by
  simp [making]

@[simp] theorem not_added_mem_making : .added m ∉ making m' fs := by
  simp [making]

end Making

theorem ledger_making (m : Module) (fs : List Native) (log : Log) :
    ledger (making m fs ++ log) = (ledger log).make m fs := by
  rw [making, Ledger.make, ← List.map_reverse]
  induction fs.reverse with
  | nil => rfl
  | cons f fs ih =>
      rw [List.map_cons, List.cons_append, List.cons_append, ledger, ih]
      rfl

theorem install_made (l : Ledger) (m : Module) : (l.install m).made = l.made := by
  rw [Ledger.install]
  split <;> rfl

theorem install_registered (l : Ledger) (m : Module) : (l.install m).registered = l.registered := by
  rw [Ledger.install]
  split <;> rfl

theorem mem_made : m ∈ (ledger log).made ↔ .made m ∈ log := by
  induction log with
  | nil => simp [ledger]
  | cons e log ih =>
      cases e with
      | made m' => simp [ledger, Ledger.make, ih]
      | registered m' f => simpa [ledger, Ledger.register] using ih
      | added m' => simpa [ledger, install_made] using ih
      | ran c => simpa [ledger] using ih

theorem mem_registered : (m, f) ∈ (ledger log).registered ↔ .registered m f ∈ log := by
  induction log with
  | nil => simp [ledger]
  | cons e log ih =>
      cases e with
      | made m' => simpa [ledger, Ledger.make] using ih
      | registered m' g => simp [ledger, Ledger.register, ih]
      | added m' => simpa [ledger, install_registered] using ih
      | ran c => simpa [ledger] using ih

namespace Equipped

theorem housed (h : Equipped log s) : Housed true (ledger log) s.root s.global s.state.store := by
  have step {host : Host} {l l' : Ledger} {s s' : Session} (hh : KeepsApart host l)
      (h : Housed true l s.root s.global s.state.store) (hs : Step host ⟨l, s⟩ ⟨l', s'⟩) :
      Housed true l' s'.root s'.global s'.state.store :=
    Housed.step (a := ⟨l, s⟩) (b := ⟨l', s'⟩) (hh _ (List.Subset.refl _)) h hs
  induction h with
  | bare limit debugging => exact Housed.bare limit debugging
  | make name natives _ hm ih =>
      rw [ledger_making]
      exact step (kitWithout_keepsApart _) ih (.make name natives hm)
  | @register log s m σ name impl _ hm hr ih =>
      refine step (kitWithout_keepsApart _) ih (.register name impl (mem_made.2 hm) ?_)
      rw [Stage.registers]
      change (m.register s.state.store (s.mint name impl).1 >>= _) = _
      rw [hr]
      rfl
  | add _ hm ha ih => exact step (kitWithout_keepsApart _) ih (.install (mem_made.2 hm) ha)
  | run host hh c _ ih => exact step hh ih (.run c)

theorem made_lt (h : Equipped log s) (hm : .made m ∈ log) : m.scope < s.state.store.size :=
  h.housed.module_lt _ (List.mem_map_of_mem (mem_made.2 hm))

theorem made_of_added (h : Equipped log s) (hm : .added m ∈ log) : .made m ∈ log := by
  induction h with
  | bare => cases hm
  | make name natives _ _ ih => exact List.mem_append_right _ (ih (by simpa using hm))
  | register name impl _ _ _ ih => exact List.mem_cons_of_mem _ (ih (by simpa using hm))
  | add _ hmade _ ih =>
      rcases List.mem_cons.1 hm with hm | hm
      · cases hm
        exact List.mem_cons_of_mem _ hmade
      · exact List.mem_cons_of_mem _ (ih hm)
  | run host hh c _ ih => exact List.mem_cons_of_mem _ (ih (by simpa using hm))

theorem made_of_registered (h : Equipped log s) (hf : .registered m f ∈ log) : .made m ∈ log :=
  mem_made.1 (h.housed.registered (m, f) (mem_registered.2 hf))

theorem eq_of_scope (h : Equipped log s) (hm : .made m ∈ log) (hm' : .made m' ∈ log)
    (hs : m.scope = m'.scope) : m = m' := by
  induction h with
  | bare => cases hm
  | make name natives h hmade ih =>
      obtain ⟨rfl, -⟩ := newModule_cases hmade
      simp only [List.mem_append, made_mem_making] at hm hm'
      rcases hm with rfl | hm
      · rcases hm' with rfl | hm'
        · rfl
        · exact absurd hs.symm (Nat.ne_of_lt (h.made_lt hm'))
      · rcases hm' with rfl | hm'
        · exact absurd hs (Nat.ne_of_lt (h.made_lt hm))
        · exact ih hm hm'
  | register name impl _ _ _ ih => exact ih (by simpa using hm) (by simpa using hm')
  | add _ _ _ ih => exact ih (by simpa using hm) (by simpa using hm')
  | run host hh c _ ih => exact ih (by simpa using hm) (by simpa using hm')

end Equipped

section Order

theorem Sooner.later (h : Sooner log m m') (since : Log) : Sooner (since ++ log) m m' := by
  obtain ⟨past, hpast, hm, hm'⟩ := h
  exact ⟨past, hpast.trans (List.suffix_append since log), hm, hm'⟩

theorem Sooner.asymm (h : Sooner log m m') : ¬Sooner log m' m := by
  rintro ⟨past', hpast', hm', hm⟩
  obtain ⟨past, hpast, hm₀, hm₀'⟩ := h
  rcases List.suffix_or_suffix_of_suffix hpast hpast' with hsub | hsub
  · exact hm (hsub.subset hm₀)
  · exact hm₀' (hsub.subset hm')

theorem registers_cons :
    Registers (e :: log) m n ↔ (∃ g, e = .registered m g ∧ g.name = n) ∨ Registers log m n := by
  simp only [Registers, List.mem_cons, or_and_right, exists_or, eq_comm]

theorem latest_cons : Latest (e :: log) m n f ↔ e = .registered m f ∧ f.name = n ∨
    (¬∃ g, e = .registered m g ∧ g.name = n) ∧ Latest log m n f := by
  constructor
  · rintro ⟨hf, since, past, hlog, hsince⟩
    cases since with
    | nil => exact .inl ⟨(List.cons.inj hlog).1, hf⟩
    | cons e' since =>
        obtain ⟨rfl, rfl⟩ := List.cons.inj hlog
        rw [registers_cons, not_or] at hsince
        exact .inr ⟨hsince.1, hf, since, past, rfl, hsince.2⟩
  · rintro (⟨rfl, hf⟩ | ⟨he, hf, since, past, rfl, hsince⟩)
    · exact ⟨hf, [], log, rfl, by rintro ⟨g, hg, -⟩; cases hg⟩
    · exact ⟨hf, e :: since, past, rfl, by rw [registers_cons, not_or]; exact ⟨he, hsince⟩⟩

theorem Latest.registers (h : Latest log m n f) : Registers log m n := by
  obtain ⟨hf, since, past, rfl, -⟩ := h
  exact ⟨f, by simp, hf⟩

end Order

namespace Equipped

theorem mem_installed (h : Equipped log s) : m ∈ (ledger log).installed ↔ .added m ∈ log := by
  induction h with
  | bare => simp [ledger]
  | make name natives _ _ ih => simpa [ledger_making, Ledger.make] using ih
  | register name impl _ _ _ ih => simpa [ledger, Ledger.register] using ih
  | @add log s m₀ s' h hm _ ih =>
      rw [ledger, Ledger.install]
      split
      next hin =>
          -- it stays where it was
          obtain ⟨m₁, hm₁, hs⟩ := List.mem_map.1 hin
          obtain rfl := h.eq_of_scope (mem_made.1 (h.housed.installed m₁ hm₁)) hm hs
          rw [List.mem_cons, ← ih]
          refine (or_iff_right_of_imp fun he => ?_).symm
          cases he
          exact hm₁
      next => simp [ih]
  | run host hh c _ ih => simpa [ledger] using ih

theorem installed_nodup (h : Equipped log s) : ((ledger log).installed.map Module.scope).Nodup := by
  induction h with
  | bare => exact List.nodup_nil
  | make name natives _ _ ih => rwa [ledger_making]
  | register name impl _ _ _ ih => exact ih
  | add _ _ _ ih =>
      rw [ledger, Ledger.install]
      split
      next => exact ih
      next hnew => exact List.nodup_cons.2 ⟨hnew, ih⟩
  | run host hh c _ ih => exact ih

theorem installed_sorted (h : Equipped log s) :
    (ledger log).installed.Pairwise fun m m' => Sooner log m' m := by
  induction h with
  | bare => exact .nil
  | make name natives _ _ ih =>
      rw [ledger_making]
      exact ih.imp fun hs => hs.later _
  | register name impl _ _ _ ih => exact ih.imp fun hs => hs.later [_]
  | @add log s m₀ s' h hm _ ih =>
      rw [ledger, Ledger.install]
      split
      next => exact ih.imp fun hs => hs.later [_]
      next hnew =>
          refine List.pairwise_cons.2 ⟨fun m hm => ?_, ih.imp fun hs => hs.later [_]⟩
          refine ⟨log, List.suffix_cons _ _, h.mem_installed.1 hm, fun h₀ => hnew ?_⟩
          exact List.mem_map_of_mem (h.mem_installed.2 h₀)
  | run host hh c _ ih => exact ih.imp fun hs => hs.later [_]

end Equipped

theorem native?_ledger (hscope : ∀ m' g, .registered m' g ∈ log → m'.scope = m.scope → m' = m) :
    (ledger log).native? m n = some f ↔ Latest log m n f := by
  induction log with
  | nil => exact iff_of_false nofun fun ⟨_, since, past, heq, _⟩ => by simp at heq
  | cons e log ih =>
      have ih := ih fun m' g hg => hscope m' g (List.mem_cons_of_mem e hg)
      rw [latest_cons, ← ih]
      cases e with
      | registered m' g =>
          rw [ledger, Housed.native?_register]
          by_cases hs : m'.scope = m.scope
          · obtain rfl := hscope m' g List.mem_cons_self hs
            by_cases hg : g.name = n
            · simp +contextual [hg, eq_comm]
            · simp only [hg, and_false, if_false, Event.registered.injEq, true_and]
              grind
          · have hne : m' ≠ m := fun hm => hs (by rw [hm])
            simp [hs, hne]
      | made m' => simp [ledger, Ledger.native?, Ledger.make]
      | added m' => simp [ledger, Ledger.native?, install_registered]
      | ran c => simp [ledger]

section Lookup

variable {σ : Store} {l : Ledger} {root global : ScopeId}

theorem lookup_root (h : Housed true l root global σ) (hroot : σ.owns root n = false) :
    σ.lookup root n = .ok ((l.installed.findSome? fun m => l.native? m n).map .native) := by
  have hfind (ms : List Module) (hms : ∀ m ∈ ms, m ∈ l.made) :
      (((ms.map Module.scope).find? fun s => σ.owns s n).bind fun o =>
        ((σ.get o).bindings.get? n).bind Term.present?) =
      (ms.findSome? fun m => l.native? m n).map .native := by
    induction ms with
    | nil => rfl
    | cons m ms ih =>
        rw [List.forall_mem_cons] at hms
        rw [List.map_cons, List.find?_cons, owns_module h hms.1, List.findSome?_cons]
        cases hf : l.native? m n with
        | none => exact ih hms.2
        | some f => simp [h.bindings rfl m hms.1 n, hf, Term.present?]
  rw [Store.lookup, items?_of_shape h.root_shape]
  simp only [Store.lookupBinding]
  rw [owner?_root h, hroot, ← hfind _ h.installed]
  rfl

variable (h : Housed true l root global σ) (hm : m ∈ l.made)
include h hm

theorem register_eq (f : Native) :
    m.register σ f = .ok (σ.setBinding m.scope f.name (.native f)) := by
  have hplain := items?_of_shape (h.module_shape m.scope (List.mem_map_of_mem hm))
  have hconst : (σ.get m.scope).bindings.isConstant f.name = false := by
    rw [Bindings.isConstant, h.bindings rfl m hm]
    cases l.native? m f.name <;> rfl
  rw [Module.register, Store.define, hplain]
  simp only [Store.defineBinding, hconst]
  rfl

theorem registerAll_ends (fs : List Native) : ∃ τ, m.registerAll σ fs = .ok τ := by
  induction fs generalizing l σ with
  | nil => exact ⟨σ, rfl⟩
  | cons f fs ih =>
      have hf := register_eq h hm f
      obtain ⟨τ, hτ⟩ := ih (h.register hm hf) hm
      exact ⟨τ, by rw [Module.registerAll, hf]; exact hτ⟩

theorem install_eq : σ.install root m.scope =
    .ok (if m.scope ∈ l.installed.map Module.scope then σ
      else σ.setMixins root (m.scope :: l.installed.map Module.scope)) := by
  have hplain := items?_of_shape (h.module_shape m.scope (List.mem_map_of_mem hm))
  rw [Store.install, hasMixin?_of_plain hplain, h.root_mixins]
  split
  next hin => rw [if_pos (of_decide_eq_true (Option.some.inj hin))]
  next hnew => rw [if_neg (of_decide_eq_false (Option.some.inj hnew))]
  next hnone => cases hnone

end Lookup

namespace Equipped

variable (h : Equipped log s)
include h

theorem native?_eq (hm : .made m ∈ log) : (ledger log).native? m n = some f ↔ Latest log m n f :=
  native?_ledger fun _ _ hg hs => h.eq_of_scope (h.made_of_registered hg) hm hs

theorem native?_isSome (hm : .made m ∈ log) :
    ((ledger log).native? m n).isSome ↔ Registers log m n := by
  constructor
  · intro hf
    obtain ⟨f, hf⟩ := Option.isSome_iff_exists.1 hf
    exact ((h.native?_eq hm).1 hf).registers
  · rintro ⟨f, hf, rfl⟩
    exact Option.isSome_iff_exists.2 (native?_of_registered (mem_registered.2 hf))

theorem foremost_installed :
    ((ledger log).installed.findSome? fun m => (ledger log).native? m n) = some f ↔
      ∃ m, Foremost log m n ∧ Latest log m n f := by
  have hmade {m} (hm : m ∈ (ledger log).installed) : .made m ∈ log :=
    mem_made.1 (h.housed.installed m hm)
  rw [List.findSome?_eq_some_iff]
  constructor
  · rintro ⟨newer, m, older, heq, hf, hnewer⟩
    have hm : m ∈ (ledger log).installed := by simp [heq]
    refine ⟨m, ⟨h.mem_installed.1 hm, fun m' hm' hr hne => ?_⟩, (h.native?_eq (hmade hm)).1 hf⟩
    have hm' := h.mem_installed.2 hm'
    have hr := (h.native?_isSome (hmade hm')).2 hr
    have hsort := h.installed_sorted
    rw [heq] at hm' hsort
    simp only [List.mem_append, List.mem_cons] at hm'
    rcases hm' with hm' | rfl | hm'
    · simp [hnewer m' hm'] at hr
    · exact absurd rfl hne
    · exact List.rel_of_pairwise_cons (List.pairwise_append.1 hsort).2.1 hm'
  · rintro ⟨m, ⟨hm, hfore⟩, hf⟩
    have hm := h.mem_installed.2 hm
    obtain ⟨newer, older, heq⟩ := List.append_of_mem hm
    refine ⟨newer, m, older, heq, (h.native?_eq (hmade hm)).2 hf, fun m' hm' => ?_⟩
    by_contra hsome
    have hin : m' ∈ (ledger log).installed := by simp [heq, hm']
    have hr := (h.native?_isSome (hmade hin)).1 (Option.isSome_iff_ne_none.2 hsome)
    have hsort := h.installed_sorted
    rw [heq] at hsort
    have hsooner : Sooner log m m' :=
      (List.pairwise_append.1 hsort).2.2 m' hm' m List.mem_cons_self
    by_cases hne : m' = m
    · subst hne
      exact hsooner.asymm hsooner
    · exact hsooner.asymm (hfore m' (h.mem_installed.1 hin) hr hne)

theorem none_installed :
    ((ledger log).installed.findSome? fun m => (ledger log).native? m n) = none ↔
      ∀ m, .added m ∈ log → ¬Registers log m n := by
  rw [List.findSome?_eq_none_iff]
  refine forall_congr' fun m => ?_
  rw [h.mem_installed]
  refine forall_congr' fun hm => ?_
  rw [← h.native?_isSome (h.made_of_added hm), Option.not_isSome_iff_eq_none]

end Equipped

theorem Foremost.later (h : Foremost log m n) (he : ∀ m', e ≠ .added m')
    (hr : ∀ m' f, e = .registered m' f → m' = m) : Foremost (e :: log) m n := by
  refine ⟨List.mem_cons_of_mem e h.1, fun m' hm' hr' hne => ?_⟩
  rw [registers_cons] at hr'
  have hm' := List.mem_of_ne_of_mem (he m').symm hm'
  have hr' := hr'.resolve_left fun ⟨f, hf, _⟩ => hne (hr m' f hf)
  exact (h.2 m' hm' hr' hne).later [e]

namespace Equipped

variable (h : Equipped log s) (hm : .made m ∈ log)
include h hm

theorem addModule_ends : ∃ s', s.addModule m = .ok s' ∧
    (.added m ∈ log → s'.root = s.root ∧ s'.state.store = s.state.store) := by
  have hi := install_eq h.housed (mem_made.2 hm)
  rw [Session.addModule, hi]
  refine ⟨_, Eq.refl (Except.ok _), fun ha => ⟨rfl, ?_⟩⟩
  exact if_pos (List.mem_map_of_mem (h.mem_installed.2 ha))

omit hm in
theorem newModule_ends (name : String) (natives : List (String × Impl)) :
    ∃ m s', s.newModule name natives = .ok (m, s') := by
  obtain ⟨marks, hmint⟩ := mintAll_state s natives
  rw [Session.newModule]
  generalize s.mintAll natives = minted at hmint ⊢
  obtain ⟨fs, t⟩ := minted
  obtain rfl : t = _ := hmint
  obtain ⟨τ, hτ⟩ := registerAll_ends (h.housed.make name) List.mem_cons_self fs
  refine ⟨⟨name, s.state.store.size⟩, ?_⟩
  change ∃ s', (Module.registerAll _ _ _ >>= _) = Except.ok (_, s')
  rw [hτ]
  exact ⟨_, rfl⟩

theorem lookup_registered (n : String) (impl : Impl) (hfore : Foremost log m n)
    (hroot : s.state.store.owns s.root n = false) :
    (s.state.store.setBinding m.scope n (.native (s.mint n impl).1)).lookup s.root n =
      .ok (some (.native (s.mint n impl).1)) := by
  have hhoused := h.housed
  have hlater := h.register n impl hm (register_eq hhoused (mem_made.2 hm) _)
  have hne : s.root ≠ m.scope :=
    (hhoused.module_ne m.scope (List.mem_map_of_mem (mem_made.2 hm))).symm
  have howns : (s.state.store.setBinding m.scope n (.native (s.mint n impl).1)).owns s.root n =
      false := by
    rw [Store.owns, Store.setBinding, Store.get_modify, if_neg fun hs => hne hs.1]
    exact hroot
  have hfind := hlater.foremost_installed.2
    ⟨m, hfore.later (by simp) (by rintro m' g ⟨⟩; rfl), latest_cons.2 (.inl ⟨rfl, rfl⟩)⟩
  have hlookup := lookup_root hlater.housed howns
  rwa [hfind] at hlookup

end Equipped

/-- The mixins of the root are the modules that have been added, each of them once, and the later one
was first added, the earlier it comes. A name that is not the root's own means what was last registered
under it in the foremost of the modules that register it. A module can be added again, which changes
nothing, and can register natives at any time, which takes effect at once. -/
theorem modules_layered (h : Equipped log s) :
    let σ := s.state.store
    (∃ ms : List Module, (σ.get s.root).mixins = ms.map Module.scope ∧
      (σ.get s.root).mixins.Nodup ∧ (∀ m, m ∈ ms ↔ .added m ∈ log) ∧
      ms.Pairwise fun m m' => Sooner log m' m) ∧
    (∀ n, σ.owns s.root n = false → ∃ found : Option Native,
      σ.lookup s.root n = .ok (found.map .native) ∧
      (∀ f, found = some f ↔ ∃ m, Foremost log m n ∧ Latest log m n f) ∧
      (found = none ↔ ∀ m, .added m ∈ log → ¬Registers log m n)) ∧
    (∀ m, .made m ∈ log → ∃ s', s.addModule m = .ok s' ∧
      (.added m ∈ log → s'.root = s.root ∧ s'.state.store = σ)) ∧
    ∀ m, .made m ∈ log → ∀ n impl, let f := (s.mint n impl).1
      ∃ τ, m.register σ f = .ok τ ∧ (Foremost log m n → σ.owns s.root n = false →
        τ.lookup s.root n = .ok (some (.native f))) := by
  have hhoused := h.housed
  have hmixins := hhoused.root_mixins
  refine ⟨⟨_, hmixins, hmixins ▸ h.installed_nodup, fun m => h.mem_installed, h.installed_sorted⟩,
    fun n hroot => ?_, fun m hm => h.addModule_ends hm, fun m hm n impl => ?_⟩
  · exact ⟨_, lookup_root hhoused hroot, fun f => h.foremost_installed, h.none_installed⟩
  · exact ⟨_, register_eq hhoused (mem_made.2 hm) _, h.lookup_registered hm n impl⟩

theorem equipped_new (limit : Nat) (debugging : Bool) :
    ∃ s m fs, Session.new limit debugging = .ok s ∧ Equipped (.added m :: making m fs) s := by
  have hbare := Equipped.bare limit debugging
  obtain ⟨m, s, hmake⟩ := hbare.newModule_ends "runtime"
    (Builtin.all.map fun b => (b.name, .builtin b))
  have h := hbare.make _ _ hmake
  rw [List.append_nil] at h
  have hm {fs} : .made m ∈ making m fs := made_mem_making.2 rfl
  obtain ⟨s', hadd, -⟩ := h.addModule_ends hm
  refine ⟨s', m, _, ?_, h.add hm hadd⟩
  rw [Session.new, hmake]
  exact hadd

def first : Module :=
  ⟨"first", 2⟩

def second : Module :=
  ⟨"second", 3⟩

def twofold : Log :=
  [.registered second ⟨3, "x", .host "mul"⟩, .added first, .added second, .added first,
    .registered second ⟨2, "x", .host "sub"⟩, .made second,
    .registered first ⟨1, "x", .host "add"⟩, .made first]

theorem equipped_twofold : ∃ s, Equipped twofold s ∧ s.state.store.owns s.root "x" = false := by
  have h := (Equipped.bare 10 false).make "first" [("x", .host "add")] rfl
  have h := h.make "second" [("x", .host "sub")] rfl
  have first_made (since : Log) : .made first ∈ since ++ twofold.drop 4 := by simp [twofold]
  have second_made (since : Log) : .made second ∈ since ++ twofold.drop 4 := by simp [twofold]
  have h := h.add (first_made []) rfl
  have h := h.add (second_made [_]) rfl
  have h := h.add (first_made [_, _]) rfl
  have h := h.register "x" (.host "mul") (second_made [_, _, _]) rfl
  exact ⟨_, h, by decide +kernel⟩

theorem modules_layered_twofold : ∃ s, Equipped twofold s ∧
    s.state.store.lookup s.root "x" = .ok (some (.native ⟨3, "x", .host "mul"⟩)) := by
  obtain ⟨s, h, hroot⟩ := equipped_twofold
  obtain ⟨-, hlookup, -⟩ := modules_layered h
  obtain ⟨found, hfound, hiff, -⟩ := hlookup "x" hroot
  have hfore : Foremost twofold second "x" := by
    refine ⟨by simp [twofold], fun m hm _ hne => ?_⟩
    obtain rfl : m = first := by simpa [twofold, hne] using hm
    exact ⟨twofold.drop 3, List.drop_suffix 3 twofold, by simp [twofold],
      by simp [twofold, first, second]⟩
  refine ⟨s, h, ?_⟩
  rw [hfound, (hiff _).2 ⟨second, hfore, latest_cons.2 (.inl ⟨rfl, rfl⟩)⟩]
  rfl

end BlockScript.Proofs.Layering
