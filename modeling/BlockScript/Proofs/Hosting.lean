import BlockScript.Proofs.Faulting
import BlockScript.Proofs.LawfulRun
import BlockScript.Proofs.Writing
import BlockScript.Session

namespace BlockScript.Proofs.Hosting

open Evaluator Faulting

/-- What a host has done with a session besides running scripts, the latest first. -/
structure Ledger where
  made : List Module := []
  registered : List (Module × Native) := []
  installed : List Module := []

namespace Ledger

variable (l : Ledger) (m : Module)

def make (fs : List Native) : Ledger :=
  { l with made := m :: l.made, registered := (fs.map (m, ·)).reverse ++ l.registered }

def register (f : Native) : Ledger :=
  { l with registered := (m, f) :: l.registered }

def install : Ledger :=
  if m.scope ∈ l.installed.map Module.scope then l else { l with installed := m :: l.installed }

def scopes : List ScopeId :=
  l.made.map Module.scope

def apart (modules : Bool) : List ScopeId :=
  if modules then l.scopes else []

def native? (n : String) : Option Native :=
  (l.registered.find? fun e => e.1.scope = m.scope ∧ e.2.name = n).map Prod.snd

def after : List Module :=
  l.installed.takeWhile fun m' => m'.scope ≠ m.scope

end Ledger

structure Stage where
  ledger : Ledger := {}
  session : Session

namespace Stage

variable (a : Stage)

def store : Store :=
  a.session.state.store

def registers (m : Module) (name : String) (impl : Impl) : Except Fault Stage := do
  let (f, s) := a.session.mint name impl
  let σ ← m.register s.state.store f
  return ⟨a.ledger.register m f, s.withStore σ⟩

end Stage

/-- One thing that a host does with a session. Nothing is registered in a module or installed that
was not made before. -/
inductive Step (host : Host) : Stage → Stage → Prop
  | make {l s m s'} (name : String) (natives : List (String × Impl))
      (h : s.newModule name natives = .ok (m, s')) :
      Step host ⟨l, s⟩ ⟨l.make m (s.mintAll natives).1, s'⟩
  | register {a b m} (name : String) (impl : Impl) (hm : m ∈ a.ledger.made)
      (h : a.registers m name impl = .ok b) : Step host a b
  | install {l s m s'} (hm : m ∈ l.made) (h : s.addModule m = .ok s') :
      Step host ⟨l, s⟩ ⟨l.install m, s'⟩
  | run {l s} (c : Code) : Step host ⟨l, s⟩ ⟨l, (s.run host c).2⟩

def Path (host : Host) : Stage → Stage → Prop :=
  Relation.ReflTransGen (Step host)

def Reachable (host : Host) (a : Stage) : Prop :=
  ∃ limit debugging, Path host ⟨{}, .bare limit debugging⟩ a

theorem Reachable.path {host : Host} {a b : Stage} (ha : Reachable host a) (h : Path host a b) :
    Reachable host b := by
  obtain ⟨limit, debugging, ha⟩ := ha
  exact ⟨limit, debugging, ha.trans h⟩

section Cases

variable {s s' : Session} {m : Module}

theorem mintAll_state (s : Session) (natives : List (String × Impl)) :
    ∃ marks, (s.mintAll natives).2 = { s with state := { s.state with marks } } := by
  induction natives generalizing s with
  | nil => exact ⟨_, rfl⟩
  | cons e natives ih =>
      obtain ⟨marks, h⟩ := ih (s.mint e.1 e.2).2
      exact ⟨marks, h⟩

theorem newModule_cases {name : String} {natives : List (String × Impl)}
    (h : s.newModule name natives = .ok (m, s')) :
    m = ⟨name, s.state.store.size⟩ ∧
      m.registerAll (s.state.store.alloc {}) (s.mintAll natives).1 = .ok s'.state.store ∧
      s'.root = s.root ∧ s'.global = s.global := by
  obtain ⟨marks, hmint⟩ := mintAll_state s natives
  rw [Session.newModule] at h
  generalize hf : s.mintAll natives = minted at h hmint ⊢
  obtain ⟨fs, t⟩ := minted
  obtain rfl : t = _ := hmint
  obtain ⟨σ, hr, h⟩ := bind_ok h
  obtain ⟨rfl, rfl⟩ := Prod.mk.inj (Except.ok.inj h)
  exact ⟨rfl, hr, rfl, rfl⟩

theorem registers_cases {a b : Stage} {name : String} {impl : Impl}
    (h : a.registers m name impl = .ok b) :
    ∃ f, f.name = name ∧ m.register a.store f = .ok b.store ∧ b.ledger = a.ledger.register m f ∧
      b.session.root = a.session.root ∧ b.session.global = a.session.global := by
  obtain ⟨σ, hr, h⟩ := bind_ok h
  obtain rfl := Except.ok.inj h
  exact ⟨_, rfl, hr, rfl, rfl, rfl⟩

theorem registerAll_keeps {P : Store → Prop} {σ τ : Store} {fs : List Native}
    (hP : ∀ {σ τ f}, P σ → m.register σ f = .ok τ → P τ) (h : P σ)
    (hr : m.registerAll σ fs = .ok τ) : P τ := by
  induction fs generalizing σ with
  | nil =>
      obtain rfl := Except.ok.inj hr
      exact h
  | cons f fs ih =>
      obtain ⟨υ, hf, hr⟩ := bind_ok hr
      exact ih (hP h hf) hr

theorem scopes_step {host : Host} {a b : Stage} (h : Step host a b) :
    a.ledger.scopes ⊆ b.ledger.scopes := by
  cases h with
  | make name natives h => exact List.subset_cons_self _ _
  | register name impl hm h =>
      obtain ⟨f, -, -, hl, -⟩ := registers_cases h
      rw [hl]
      exact List.Subset.refl _
  | install hm h =>
      rw [Ledger.install]
      split <;> exact List.Subset.refl _
  | run c => exact List.Subset.refl _

theorem apart_step {host : Host} {a b : Stage} (modules : Bool) (h : Step host a b) :
    a.ledger.apart modules ⊆ b.ledger.apart modules := by
  cases modules with
  | true => exact scopes_step h
  | false => exact List.Subset.refl _

theorem addModule_cases (h : s.addModule m = .ok s') :
    s.state.store.install s.root m.scope = .ok s'.state.store ∧ s'.root = s.root ∧
      s'.global = s.global := by
  obtain ⟨σ, hi, h⟩ := bind_ok h
  obtain rfl := Except.ok.inj h
  exact ⟨hi, rfl, rfl⟩

end Cases

theorem reachable_new {limit : Nat} {debugging : Bool} {s : Session}
    (h : Session.new limit debugging = .ok s) (host : Host) : ∃ l, Reachable host ⟨l, s⟩ := by
  obtain ⟨made, hm, h⟩ := bind_ok h
  have hmake : Step host ⟨{}, _⟩ _ := .make "runtime" _ hm
  exact ⟨_, limit, debugging, (Relation.ReflTransGen.single hmake).tail
    (.install List.mem_cons_self h)⟩

section Run

variable (host : Host) (s : Session)

theorem run_state (c : Code) : ∃ effects, (s.run host c).2 =
    { s with state := { (runIn (caller host) s.global c s.ready).2 with effects } } := by
  rw [Session.run]
  rcases runIn (caller host) s.global c s.ready with ⟨e | v, st⟩
  · cases h : e.text st.store with
    | ok message => exact ⟨st.effects ++ [⟨["stderr"], message⟩], by simp only [h]⟩
    | error f => exact ⟨st.effects, by simp only [h]⟩
  · exact ⟨st.effects, rfl⟩

theorem store_run (c : Code) :
    (s.run host c).2.state.store = (runIn (caller host) s.global c s.ready).2.store := by
  obtain ⟨effects, h⟩ := run_state host s c
  rw [h]

variable {host s}

theorem run_later {L : Law} (U : L.Upheld) (hh : L.ObeyedBy host) (hinv : L.inv s.ready.store)
    (hs : L.scope s.ready.store s.global) (c : Code) :
    L.Later s.ready.store (s.run host c).2.state.store := by
  have h := Law.runIn_meets U (Law.caller_calls U hh) hs c
  rw [store_run]
  exact (h s.ready ⟨U.refl _, hinv⟩).1

end Run

section Dynamic

variable {host : Host} {L : Law} (D : L.Dynamic) {σ τ : Store} {a b : Stage}
include D

theorem registerAll_dynamic (m : Module) (fs : List Native) (h : m.registerAll σ fs = .ok τ) :
    L.step σ τ := by
  refine registerAll_keeps (fun hstep hf => D.upheld.trans hstep ?_) (D.upheld.refl σ) h
  exact (D.upheld.define (D.inv _) (D.value _ _) (D.value _ _) (.inr (D.block _ _)) hf).step

/-- Between scripts as well, a host changes stores as a law about changes alone says. -/
theorem step_dynamic (hh : L.ObeyedBy host) (h : Step host a b) : L.step a.store b.store := by
  cases h with
  | make name natives h =>
      obtain ⟨-, h, -⟩ := newModule_cases h
      exact D.upheld.trans (D.plain _ _) (registerAll_dynamic D _ _ h)
  | register name impl hm h =>
      obtain ⟨f, -, h, -⟩ := registers_cases h
      exact (D.upheld.define (D.inv _) (D.value _ _) (D.value _ _) (.inr (D.block _ _)) h).step
  | install hm h =>
      obtain ⟨h, -⟩ := addModule_cases h
      rw [Stage.store, Stage.store]
      obtain h | h := Writing.install_cases h
      · rw [h]
        exact D.upheld.refl _
      · rw [h]
        exact D.mixins _ _ _
  | @run l s c =>
      have h := run_later D.upheld hh (s := s) (D.inv _) (D.scope _ _) c
      exact D.upheld.trans (D.reset _ s.global) h.step

end Dynamic

end BlockScript.Proofs.Hosting
