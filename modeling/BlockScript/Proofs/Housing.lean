import BlockScript.Proofs.Heap
import BlockScript.Proofs.Hosting

namespace BlockScript.Proofs.Housing

open Faulting Heap Hosting Law Writing

variable {σ τ : Store} {apart : Bool} {l : Ledger} {m : Module} {root global s : ScopeId} {host : Host}

theorem hasMixin?_of_plain (h : σ.items? s = none) (t : ScopeId) :
    σ.hasMixin? t s = some (decide (s ∈ (σ.get t).mixins)) := by
  rw [Store.hasMixin?]
  induction (σ.get t).mixins with
  | nil => rfl
  | cons u us ih =>
      rw [List.map_cons, Store.contains?, itemEqual_scope (.inr h)]
      by_cases hu : u = s
      · simp [hu]
      · simp [hu, ih, Ne.symm hu]

/-- What a session is like between two things that its host does with it, where its modules' scopes
may be kept apart from the others. -/
structure Housed (apart : Bool) (l : Ledger) (root global : ScopeId) (σ : Store) : Prop where
  wellFormed : WellFormed (l.apart apart) σ
  root_open : Open (l.apart apart) σ root
  global_open : Open (l.apart apart) σ global
  global_ne : global ≠ root
  root_shape : shape (σ.get root) = (false, none, none, l.installed.map Module.scope)
  global_shape : shape (σ.get global) = (false, none, some root, [])
  mixins : ∀ s, s ≠ root → (σ.get s).mixins = []
  module_lt : ∀ s ∈ l.scopes, s < σ.size
  module_ne : ∀ s ∈ l.scopes, s ≠ root
  module_shape : ∀ s ∈ l.scopes, shape (σ.get s) = (false, none, none, [])
  installed : ∀ m ∈ l.installed, m ∈ l.made
  registered : ∀ e ∈ l.registered, e.1 ∈ l.made
  bindings : apart = true → ∀ m ∈ l.made, ∀ n,
    (σ.get m.scope).bindings.get? n = (l.native? m n).map .native

theorem items?_of_shape {x : Option Activation × Option ScopeId × List ScopeId}
    (h : shape (σ.get s) = (false, x)) : σ.items? s = none := by
  simpa [Store.items?, shape] using congrArg Prod.fst h

theorem nexts_of_shape {b : Bool} {a : Option Activation} {p : Option ScopeId} {ms : List ScopeId}
    (h : shape (σ.get s) = (b, a, p, ms)) : σ.nexts s = ms ++ p.toList := by
  simp only [shape, Prod.mk.injEq] at h
  rw [Store.nexts, h.2.2.1, h.2.2.2]

theorem isLeaf_of_shape {c : Scope} (h : shape c = (false, none, none, [])) : IsLeaf c := by
  simp only [shape, Prod.mk.injEq] at h
  exact ⟨h.2.2.1, h.2.2.2⟩

namespace Housed

theorem root_mixins (h : Housed apart l root global σ) :
    (σ.get root).mixins = l.installed.map Module.scope :=
  congrArg (fun x => x.2.2.2) h.root_shape

theorem later (h : Housed apart l root global σ) (hl : (heapLaw (l.apart apart)).Later σ τ) :
    Housed apart l root global τ where
  wellFormed := hl.inv
  root_open := h.root_open.later hl.step
  global_open := h.global_open.later hl.step
  global_ne := h.global_ne
  root_shape := (hl.step.shape _ h.root_open.1).trans h.root_shape
  global_shape := (hl.step.shape _ h.global_open.1).trans h.global_shape
  mixins s hs := by
    rcases Nat.lt_or_ge s σ.size with hlt | hge
    · exact (mixins_of_shape (hl.step.shape s hlt)).trans (h.mixins s hs)
    · exact hl.step.fresh s hge
  module_lt s hs := Nat.lt_of_lt_of_le (h.module_lt s hs) hl.step.size
  module_ne := h.module_ne
  module_shape s hs := (hl.step.shape s (h.module_lt s hs)).trans (h.module_shape s hs)
  installed := h.installed
  registered := h.registered
  bindings ha m hm n := by
    subst ha
    rw [hl.step.kept m.scope (List.mem_map_of_mem hm), h.bindings rfl m hm n]

theorem run (hh : (heapLaw (l.apart apart)).ObeyedBy host) {s : Session}
    (h : Housed apart l s.root s.global s.state.store) (c : Code) :
    (heapLaw (l.apart apart)).Later s.state.store (s.run host c).2.state.store := by
  have hU := heapLaw_upheld (l.apart apart)
  have hreset := h.wellFormed.later_reset h.global_open.2
  have hrun := run_later (s := s) hU hh hreset.inv (h.global_open.later hreset.step) c
  exact ⟨hreset.step.trans hrun.step, hrun.inv⟩

theorem make (h : Housed apart l root global σ) (name : String) :
    Housed apart (l.make ⟨name, σ.size⟩ []) root global (σ.alloc {}) := by
  have hold {s} (hs : s < σ.size) : (σ.alloc {}).get s = σ.get s := by
    rw [Store.get_alloc, if_neg (Nat.ne_of_lt hs)]
  have hnew : (σ.alloc {}).get σ.size = {} := by
    rw [Store.get_alloc, if_pos rfl]
  have hM : ∀ s ∈ (l.make ⟨name, σ.size⟩ []).apart apart, s ∈ l.apart apart ∨ s = σ.size := by
    cases apart <;> simp [Ledger.apart, Ledger.scopes, Ledger.make, or_comm]
  have hopen {s} (hs : Open (l.apart apart) σ s) :
      Open ((l.make ⟨name, σ.size⟩ []).apart apart) (σ.alloc {}) s := by
    refine ⟨Nat.lt_of_lt_of_le hs.1 (by simp), fun hs' => ?_⟩
    exact (hM s hs').elim hs.2 (Nat.ne_of_lt hs.1)
  constructor
  case wellFormed => exact h.wellFormed.alloc hM (.fresh nofun nofun) nofun nofun rfl
  case root_open => exact hopen h.root_open
  case global_open => exact hopen h.global_open
  case global_ne => exact h.global_ne
  case root_shape =>
    rw [hold h.root_open.1]
    exact h.root_shape
  case global_shape =>
    rw [hold h.global_open.1]
    exact h.global_shape
  case mixins =>
    intro s hs
    rw [Store.get_alloc]
    split
    · rfl
    · exact h.mixins s hs
  case module_lt =>
    refine List.forall_mem_cons.2 ⟨by simp, fun s hs => ?_⟩
    exact Nat.lt_of_lt_of_le (h.module_lt s hs) (by simp)
  case module_ne =>
    exact List.forall_mem_cons.2 ⟨(Nat.ne_of_lt h.root_open.1).symm, h.module_ne⟩
  case module_shape =>
    refine List.forall_mem_cons.2 ⟨congrArg shape hnew, fun s hs => ?_⟩
    rw [hold (h.module_lt s hs)]
    exact h.module_shape s hs
  case installed => exact fun m hm => List.mem_cons_of_mem _ (h.installed m hm)
  case registered => exact fun e he => List.mem_cons_of_mem _ (h.registered e he)
  case bindings =>
    refine fun ha => List.forall_mem_cons.2 ⟨fun n => ?_, fun m hm n => ?_⟩
    · -- what is registered so far is registered in older modules
      have hnone : (l.make ⟨name, σ.size⟩ []).native? ⟨name, σ.size⟩ n = none := by
        rw [Ledger.native?, Option.map_eq_none_iff, List.find?_eq_none]
        intro e he hscope
        have hlt := h.module_lt e.1.scope (List.mem_map_of_mem (h.registered e he))
        simp only [decide_eq_true_eq] at hscope
        exact Nat.ne_of_lt hlt hscope.1
      rw [hnew, hnone]
      rfl
    · rw [hold (h.module_lt _ (List.mem_map_of_mem hm))]
      exact h.bindings ha m hm n

theorem native?_register (l : Ledger) (m m' : Module) (f : Native) (n : String) :
    (l.register m f).native? m' n =
      if m.scope = m'.scope ∧ f.name = n then some f else l.native? m' n := by
  rw [Ledger.native?, Ledger.register, List.find?_cons]
  by_cases h : m.scope = m'.scope ∧ f.name = n
  · simp [h]
  · simp only [h, decide_false, if_false]
    rfl

theorem register (h : Housed apart l root global σ) (hm : m ∈ l.made) {f : Native}
    (hd : m.register σ f = .ok τ) : Housed apart (l.register m f) root global τ := by
  have hplain := items?_of_shape (h.module_shape m.scope (List.mem_map_of_mem hm))
  obtain ⟨-, -, rfl⟩ | ⟨xs, i, v, c, k, j, hx, -⟩ := define_cases hd
  · have hshape (s) : shape ((σ.setBinding m.scope f.name (.native f)).get s) = shape (σ.get s) :=
      Formal.get_modify rfl s
    have hsize : (σ.setBinding m.scope f.name (.native f)).size = σ.size := Store.size_modify _
    constructor
    case wellFormed => exact h.wellFormed.modify rfl ((h.wellFormed.sound m.scope).set _ trivial)
    case root_open => exact h.root_open.resize hsize
    case global_open => exact h.global_open.resize hsize
    case global_ne => exact h.global_ne
    case root_shape => exact (hshape root).trans h.root_shape
    case global_shape => exact (hshape global).trans h.global_shape
    case mixins => exact fun s hs => (mixins_of_shape (hshape s)).trans (h.mixins s hs)
    case module_lt => exact fun s hs => hsize ▸ h.module_lt s hs
    case module_ne => exact h.module_ne
    case module_shape => exact fun s hs => (hshape s).trans (h.module_shape s hs)
    case installed => exact h.installed
    case registered => exact List.forall_mem_cons.2 ⟨hm, h.registered⟩
    case bindings =>
      intro ha m' hm' n
      have hlt := h.module_lt m.scope (List.mem_map_of_mem hm)
      have hold := h.bindings ha m' hm' n
      rw [native?_register, Store.setBinding, Store.get_modify]
      by_cases hs : m'.scope = m.scope
      · rw [if_pos ⟨hs, hlt⟩]
        by_cases hn : n = f.name
        · simp [Bindings.get?_set, hs, hn]
        · simp [Bindings.get?_set, hn, Ne.symm hn, hold]
      · simp [hs, Ne.symm hs, hold]
  · rw [hplain] at hx
    cases hx

theorem registerAll (h : Housed apart l root global σ) (hm : m ∈ l.made) {fs : List Native}
    (hd : m.registerAll σ fs = .ok τ) :
    Housed apart { l with registered := (fs.map (m, ·)).reverse ++ l.registered } root global τ := by
  induction fs generalizing l σ with
  | nil =>
      obtain rfl := Except.ok.inj hd
      exact h
  | cons f fs ih =>
      obtain ⟨υ, hf, hd⟩ := bind_ok hd
      have hrest := ih (h.register hm hf) hm hd
      simpa [Ledger.register] using hrest

theorem install (h : Housed apart l root global σ) (hm : m ∈ l.made)
    (hi : σ.install root m.scope = .ok τ) : Housed apart (l.install m) root global τ := by
  have hM : m.scope ∈ l.scopes := List.mem_map_of_mem hm
  have hplain := items?_of_shape (h.module_shape m.scope hM)
  rw [Store.install, hasMixin?_of_plain hplain, h.root_mixins] at hi
  by_cases hin : m.scope ∈ l.installed.map Module.scope
  · rw [decide_eq_true hin] at hi
    obtain rfl := Except.ok.inj hi
    rwa [Ledger.install, if_pos hin]
  rw [decide_eq_false hin] at hi
  obtain rfl := Except.ok.inj hi
  rw [Ledger.install, if_neg hin]
  have hsize := size_setMixins σ root (m.scope :: l.installed.map Module.scope)
  constructor
  case wellFormed =>
    refine h.wellFormed.setMixins h.root_open.1 (fun s hs => ?_) fun s hs => ?_
    · have hs : s ∈ l.scopes := by
        rcases List.mem_cons.1 hs with rfl | hs
        · exact hM
        · obtain ⟨m', hm', rfl⟩ := List.mem_map.1 hs
          exact List.mem_map_of_mem (h.installed m' hm')
      exact ⟨h.module_ne s hs, h.module_lt s hs, isLeaf_of_shape (h.module_shape s hs)⟩
    · rw [h.mixins s hs]
      exact List.not_mem_nil
  case root_open => exact h.root_open.resize hsize
  case global_open => exact h.global_open.resize hsize
  case global_ne => exact h.global_ne
  case root_shape =>
    have hroot := h.root_shape
    rw [Store.setMixins, Store.get_modify, if_pos ⟨rfl, h.root_open.1⟩]
    simp only [shape, Prod.mk.injEq] at hroot ⊢
    exact ⟨hroot.1, hroot.2.1, hroot.2.2.1, rfl⟩
  case global_shape =>
    rw [get_setMixins_of_ne h.global_ne]
    exact h.global_shape
  case mixins =>
    intro s hs
    rw [get_setMixins_of_ne hs]
    exact h.mixins s hs
  case module_lt => exact fun s hs => hsize ▸ h.module_lt s hs
  case module_ne => exact h.module_ne
  case module_shape =>
    intro s hs
    rw [get_setMixins_of_ne (h.module_ne s hs)]
    exact h.module_shape s hs
  case installed => exact List.forall_mem_cons.2 ⟨hm, h.installed⟩
  case registered => exact h.registered
  case bindings =>
    intro ha m' hm' n
    rw [get_setMixins_of_ne (h.module_ne _ (List.mem_map_of_mem hm'))]
    exact h.bindings ha m' hm' n

theorem step {a b : Stage} (hh : (heapLaw (a.ledger.apart apart)).ObeyedBy host)
    (h : Housed apart a.ledger a.session.root a.session.global a.store) (hs : Step host a b) :
    Housed apart b.ledger b.session.root b.session.global b.store := by
  cases hs with
  | make name natives hn =>
      obtain ⟨rfl, hr, hroot, hglobal⟩ := newModule_cases hn
      simp only [hroot, hglobal]
      have hall := (h.make name).registerAll List.mem_cons_self hr
      simp only [Ledger.make, List.map_nil, List.reverse_nil, List.nil_append] at hall
      exact hall
  | register name impl hm hr =>
      obtain ⟨f, -, hd, hl, hroot, hglobal⟩ := registers_cases hr
      rw [hl, hroot, hglobal]
      exact h.register hm hd
  | install hm ha =>
      obtain ⟨hi, hroot, hglobal⟩ := addModule_cases ha
      simp only [hroot, hglobal]
      exact h.install hm hi
  | @run l s c =>
      obtain ⟨effects, hrun⟩ := run_state host s c
      have hroot : (s.run host c).2.root = s.root := by rw [hrun]
      have hglobal : (s.run host c).2.global = s.global := by rw [hrun]
      simp only [hroot, hglobal]
      exact h.later (h.run hh c)

theorem bare (limit : Nat) (debugging : Bool) :
    Housed apart {} 0 1 (Session.bare limit debugging).state.store := by
  have hparts (s : ScopeId) : let c := (Session.bare limit debugging).state.store.get s
      Sound (Open [] (Session.bare limit debugging).state.store) c ∧ (∀ p ∈ c.parent, p < s) ∧
        c.kind.activation? = none ∧ c.mixins = [] := by
    match s with
    | 0 => exact ⟨.fresh nofun nofun, nofun, rfl, rfl⟩
    | 1 => exact ⟨.fresh nofun nofun, by rintro _ ⟨⟩; exact Nat.zero_lt_one, rfl, rfl⟩
    | s + 2 =>
        have hget : (Session.bare limit debugging).state.store.get (s + 2) = {} :=
          get_of_size_le (Nat.le_add_left 2 s)
        rw [hget]
        exact ⟨.fresh nofun nofun, nofun, rfl, rfl⟩
  have hM : Ledger.apart {} apart = [] := by cases apart <;> rfl
  have hw : WellFormed [] (Session.bare limit debugging).state.store := by
    refine ⟨fun s => (hparts s).1, fun s p hp => ⟨(hparts s).2.1 p hp, nofun⟩, fun s a ha => ?_,
      fun s m hm => ?_, nofun⟩
    · rw [(hparts s).2.2.1] at ha
      cases ha
    · rw [(hparts s).2.2.2] at hm
      cases hm
  exact ⟨hM ▸ hw, hM ▸ ⟨Nat.zero_lt_two, nofun⟩, hM ▸ ⟨Nat.one_lt_two, nofun⟩, nofun, rfl, rfl,
    fun s _ => (hparts s).2.2.2, nofun, nofun, nofun, nofun, nofun, nofun⟩

theorem reachable {a : Stage} (hh : ∀ M ⊆ a.ledger.apart apart, (heapLaw M).ObeyedBy host)
    (ha : Reachable host a) :
    Housed apart a.ledger a.session.root a.session.global a.store := by
  obtain ⟨limit, debugging, hpath⟩ := ha
  induction hpath with
  | refl => exact bare limit debugging
  | tail _ hs ih =>
      have hsub := apart_step apart hs
      exact (ih fun M hM => hh M (List.Subset.trans hM hsub)).step (hh _ hsub) hs

end Housed

end BlockScript.Proofs.Housing
