import BlockScript.Proofs.Holdings
import BlockScript.Proofs.Hosting
import BlockScript.Proofs.LawfulKit

namespace BlockScript.Proofs.Seclusion

open Faulting Heap Holdings Hosting Law Writing

structure Secluded (M : List ScopeId) (σ : Store) : Prop where
  holding : Holding (Refers (Open M σ)) (Open M σ) σ
  made : ∀ m ∈ M, m < σ.size

structure Retains (M : List ScopeId) (σ τ : Store) : Prop where
  size : σ.size ≤ τ.size
  kept : ∀ m ∈ M, τ.get m = σ.get m

def seclusion (M : List ScopeId) : Law where
  inv := Secluded M
  step := Retains M
  value σ := Refers (Open M σ)
  block σ := Refers (Open M σ)
  scope := Open M
  site := Open M

variable {M M' : List ScopeId} {σ τ υ : Store} {s p root global : ScopeId} {n : String} {c : Scope}
  {t : Term} {m : Module} {host : Host}

theorem refers_regular {P : ScopeId → Prop} : Regular (Refers P) where
  num _ := trivial
  var := by simp [Refers]

theorem open_of_le (h : σ.size ≤ τ.size) : Open M σ s → Open M τ s :=
  And.imp_left fun hs => Nat.lt_of_lt_of_le hs h

theorem Retains.refl (M : List ScopeId) (σ : Store) : Retains M σ σ :=
  ⟨Nat.le_refl _, fun _ _ => rfl⟩

theorem Retains.trans (h : Retains M σ τ) (h' : Retains M τ υ) : Retains M σ υ where
  size := Nat.le_trans h.size h'.size
  kept m hm := (h'.kept m hm).trans (h.kept m hm)

namespace Secluded

theorem resize (hsize : τ.size = σ.size) (h : Secluded M σ)
    (hh : Holding (Refers (Open M σ)) (Open M σ) τ) : Secluded M τ where
  holding := hh.mono (fun _ ht => ht.mono fun _ => open_of_le (Nat.le_of_eq hsize.symm))
    fun _ => open_of_le (Nat.le_of_eq hsize.symm)
  made m hm := hsize ▸ h.made m hm

theorem later_upkeep (h : Secluded M σ) (hu : Upkeep (Refers (Open M σ)) (Open M σ) σ τ) :
    (seclusion M).Later σ τ where
  step := ⟨Nat.le_of_eq hu.size.symm, fun m hm => hu.kept m fun ho => ho.2 hm⟩
  inv := h.resize hu.size hu.holding

theorem alloc (h : Secluded M σ) (hM : ∀ m ∈ M', m ∈ M ∨ m = σ.size)
    (hc : Holds (Refers (Open M σ)) (Open M σ) c) : Secluded M' (σ.alloc c) := by
  have hopen (s : ScopeId) (hs : Open M σ s) : Open M' (σ.alloc c) s := by
    refine ⟨Nat.lt_of_lt_of_le hs.1 (by simp), fun hs' => ?_⟩
    exact (hM s hs').elim hs.2 (Nat.ne_of_lt hs.1)
  constructor
  · exact (h.holding.alloc hc).mono (fun _ ht => ht.mono hopen) hopen
  · intro m hm
    rw [Store.size_alloc]
    rcases hM m hm with hm | rfl
    · exact Nat.lt_succ_of_lt (h.made m hm)
    · exact Nat.lt_succ_self _

theorem later_alloc (h : Secluded M σ) (hc : Holds (Refers (Open M σ)) (Open M σ) c) :
    (seclusion M).Later σ (σ.alloc c) where
  step := by
    refine ⟨by simp, fun m hm => ?_⟩
    rw [Store.get_alloc, if_neg (Nat.ne_of_lt (h.made m hm))]
  inv := h.alloc (fun _ => .inl) hc

theorem open_new (h : Secluded M σ) (c : Scope) : Open M (σ.alloc c) σ.size :=
  ⟨by simp, fun hM => Nat.lt_irrefl _ (h.made _ hM)⟩

end Secluded

theorem seclusion_upheld (M : List ScopeId) : (seclusion M).Upheld where
  refl := .refl M
  trans h h' := h.trans h'
  value_later h ht := ht.mono fun _ => open_of_le h.size
  block_later h ht := ht.mono fun _ => open_of_le h.size
  scope_later h := open_of_le h.size
  site_later h := open_of_le h.size
  site_of_scope h := h
  value_of_block h := h
  yields _ := .inr fun _ h => h
  literal h := by
    obtain rfl | ⟨b, rfl⟩ | ⟨k, rfl⟩ | ⟨x, rfl⟩ := h
    all_goals trivial
  memory h := h
  target h := h
  closure h := h
  var := by simp [seclusion, Refers]
  found h _ hf := h.holding.found refers_regular hf
  returned h _ ht := h.holding.returned ht
  activation h _ _ ha := h.holding.call ha
  define h hm hf _ hd := h.later_upkeep (h.holding.define refers_regular hm hf hd)
  remove h hm hr := h.later_upkeep (h.holding.remove hm hr)
  setReturned h hs ht := h.later_upkeep (h.holding.setReturned hs ht)
  breakOff h hs := h.later_upkeep (h.holding.breakOff hs)
  newBlock h hp := ⟨h.later_alloc (.block hp), h.open_new _⟩
  newCall h hp ha hb hs := ⟨h.later_alloc (.call ha hb hs hp), h.open_new _⟩
  newList h hx := ⟨h.later_alloc (.list hx), h.open_new _⟩

theorem holds_bare {V : Term → Prop} {Q : ScopeId → Prop} {limit : Nat} {debugging : Bool} (s : ScopeId)
    (hQ : 0 < s → Q 0) : Holds V Q ((Session.bare limit debugging).state.store.get s) := by
  match s with
  | 0 => exact ⟨List.forall_mem_nil _, List.forall_mem_nil _⟩
  | 1 => exact ⟨List.forall_mem_nil _, List.forall_mem_singleton.2 (hQ Nat.zero_lt_one)⟩
  | s + 2 =>
      have hget : (Session.bare limit debugging).state.store.get (s + 2) = {} :=
        get_of_size_le (Nat.le_add_left 2 s)
      rw [hget]
      exact .plain (by simp)

structure Lodged (M : List ScopeId) (root global : ScopeId) (σ : Store) : Prop where
  secluded : Secluded M σ
  root_open : Open M σ root
  global_open : Open M σ global
  leaf : ∀ s ∈ M, IsLeaf (σ.get s)
  plain : ∀ s ∈ M, σ.items? s = none

namespace Lodged

theorem later (h : Lodged M root global σ) (hl : (seclusion M).Later σ τ) :
    Lodged M root global τ where
  secluded := hl.inv
  root_open := open_of_le hl.step.size h.root_open
  global_open := open_of_le hl.step.size h.global_open
  leaf s hs := by
    rw [hl.step.kept s hs]
    exact h.leaf s hs
  plain s hs := by
    rw [Store.items?, hl.step.kept s hs]
    exact h.plain s hs

theorem run (hh : (seclusion M).ObeyedBy host) {s : Session}
    (h : Lodged M s.root s.global s.state.store) (c : Code) :
    Lodged M s.root s.global (s.run host c).2.state.store := by
  have hreset := h.later (h.secluded.later_upkeep (h.secluded.holding.reset h.global_open))
  exact hreset.later
    (run_later (seclusion_upheld M) hh hreset.secluded hreset.global_open c)

theorem make (h : Lodged M root global σ) : Lodged (σ.size :: M) root global (σ.alloc {}) := by
  have hopen {s : ScopeId} (hs : Open M σ s) : Open (σ.size :: M) (σ.alloc {}) s := by
    refine ⟨Nat.lt_of_lt_of_le hs.1 (by simp), fun hs' => ?_⟩
    exact (List.mem_cons.1 hs').elim (Nat.ne_of_lt hs.1) hs.2
  have hnew : (σ.alloc {}).get σ.size = {} := by
    rw [Store.get_alloc, if_pos rfl]
  have hold {s : ScopeId} (hs : s ∈ M) : (σ.alloc {}).get s = σ.get s := by
    rw [Store.get_alloc, if_neg (Nat.ne_of_lt (h.secluded.made s hs))]
  constructor
  case secluded =>
    exact h.secluded.alloc (fun m hm => (List.mem_cons.1 hm).symm) (.plain (by simp))
  case root_open => exact hopen h.root_open
  case global_open => exact hopen h.global_open
  case leaf =>
    refine List.forall_mem_cons.2 ⟨?_, fun s hs => ?_⟩
    · rw [hnew]
      exact ⟨rfl, rfl⟩
    · rw [hold hs]
      exact h.leaf s hs
  case plain =>
    refine List.forall_mem_cons.2 ⟨?_, fun s hs => ?_⟩
    · rw [Store.items?, hnew]
      rfl
    · rw [Store.items?, hold hs]
      exact h.plain s hs

theorem register (h : Lodged M root global σ) (hm : m.scope ∈ M) {f : Native}
    (hd : m.register σ f = .ok τ) : Lodged M root global τ := by
  obtain ⟨-, -, rfl⟩ | ⟨xs, i, v, c, k, j, hx, -⟩ := define_cases hd
  · have hsize : (σ.setBinding m.scope f.name (.native f)).size = σ.size := Store.size_modify _
    have hkept {β : Type} {g : Scope → β} (hg : ∀ c b, g { c with bindings := b } = g c)
        (s : ScopeId) :
        g ((σ.setBinding m.scope f.name (.native f)).get s) = g (σ.get s) :=
      Formal.get_modify (hg _ _) s
    constructor
    case secluded => exact h.secluded.resize hsize (h.secluded.holding.set f.name trivial)
    case root_open => exact open_of_le (Nat.le_of_eq hsize.symm) h.root_open
    case global_open => exact open_of_le (Nat.le_of_eq hsize.symm) h.global_open
    case leaf =>
      intro s hs
      rw [hkept (g := IsLeaf) fun _ _ => rfl]
      exact h.leaf s hs
    case plain =>
      intro s hs
      rw [Store.items?, hkept (g := fun c => c.kind.items?) fun _ _ => rfl]
      exact h.plain s hs
  · rw [h.plain m.scope hm] at hx
    cases hx

theorem registerAll (h : Lodged M root global σ) (hm : m.scope ∈ M) {fs : List Native}
    (hd : m.registerAll σ fs = .ok τ) : Lodged M root global τ :=
  registerAll_keeps (fun h hf => h.register hm hf) h hd

theorem install (h : Lodged M root global σ) (hi : σ.install root s = .ok τ) :
    Lodged M root global τ := by
  obtain rfl | rfl := install_cases hi
  · exact h
  · exact h.later (h.secluded.later_upkeep (h.secluded.holding.setMixins h.root_open _))

theorem step {a b : Stage} (hh : (seclusion a.ledger.scopes).ObeyedBy host)
    (h : Lodged a.ledger.scopes a.session.root a.session.global a.store) (hs : Step host a b) :
    Lodged b.ledger.scopes b.session.root b.session.global b.store := by
  cases hs with
  | make name natives hn =>
      obtain ⟨rfl, hr, hroot, hglobal⟩ := newModule_cases hn
      simp only [hroot, hglobal]
      exact h.make.registerAll List.mem_cons_self hr
  | register name impl hm hr =>
      obtain ⟨f, -, hd, hl, hroot, hglobal⟩ := registers_cases hr
      rw [hl, hroot, hglobal]
      exact h.register (List.mem_map_of_mem hm) hd
  | @install l s m s' hm ha =>
      obtain ⟨hi, hroot, hglobal⟩ := addModule_cases ha
      have hscopes : (l.install m).scopes = l.scopes := by
        rw [Ledger.install]
        split <;> rfl
      simp only [hroot, hglobal, hscopes]
      exact h.install hi
  | @run l s c =>
      obtain ⟨effects, hrun⟩ := run_state host s c
      have hroot : (s.run host c).2.root = s.root := by rw [hrun]
      have hglobal : (s.run host c).2.global = s.global := by rw [hrun]
      simp only [hroot, hglobal]
      exact h.run hh c

theorem bare (limit : Nat) (debugging : Bool) :
    Lodged [] 0 1 (Session.bare limit debugging).state.store where
  secluded := ⟨fun s => holds_bare s fun _ => ⟨Nat.zero_lt_two, List.not_mem_nil⟩, List.forall_mem_nil _⟩
  root_open := ⟨Nat.zero_lt_two, List.not_mem_nil⟩
  global_open := ⟨Nat.one_lt_two, List.not_mem_nil⟩
  leaf := List.forall_mem_nil _
  plain := List.forall_mem_nil _

theorem reachable {a : Stage} (hh : ∀ M ⊆ a.ledger.scopes, (seclusion M).ObeyedBy host)
    (ha : Reachable host a) : Lodged a.ledger.scopes a.session.root a.session.global a.store := by
  obtain ⟨limit, debugging, hpath⟩ := ha
  induction hpath with
  | refl => exact bare limit debugging
  | tail _ hs ih =>
      have hsub := scopes_step hs
      exact (ih fun M hM => hh M (List.Subset.trans hM hsub)).step (hh _ hsub) hs

end Lodged

end BlockScript.Proofs.Seclusion
