import BlockScript.Proofs.Backtrace
import BlockScript.Proofs.Hosting
import BlockScript.Proofs.LawfulKit
import BlockScript.Proofs.Removal

namespace BlockScript.Proofs.Existence

open Eval Evaluator Faulting Hosting Law Relation Running Writing

variable {σ τ : Store} {s : ScopeId} {n : String} {f : Term} {host : Host} {call : Caller}

def IsFunction : Term → Prop
  | .var _ _ _ _ | .block _ _ | .native _ => True
  | _ => False

structure Functions (c : Scope) : Prop where
  bindings : ∀ n f, c.bindings.get? n = some f → IsFunction f
  yields : ∀ a ∈ c.kind.activation?, ∀ t ∈ a.yieldBlock, IsFunction t

def Functional (σ : Store) : Prop :=
  ∀ s, Functions (σ.get s)

theorem IsFunction.present (h : IsFunction f) : f.present? = some f := by
  cases f
  case null => exact h.elim
  all_goals rfl

section Invariant

theorem functions_empty : Functions {} :=
  ⟨nofun, nofun⟩

theorem Functional.alloc (h : Functional σ) {c : Scope} (hc : Functions c) :
    Functional (σ.alloc c) := by
  intro s
  rw [Store.get_alloc]
  split
  · exact hc
  · exact h s

theorem Functional.modify (h : Functional σ) {e : Scope → Scope}
    (he : Functions (σ.get s) → Functions (e (σ.get s))) : Functional (σ.modify s e) := by
  intro t
  rw [Store.get_modify]
  split
  next ht => rw [ht.1]; exact he (h s)
  next => exact h t

theorem Functional.turn (h : Functional σ) {e : Scope → Scope}
    (hb : (e (σ.get s)).bindings = (σ.get s).bindings)
    (hk : (e (σ.get s)).kind.activation? = (σ.get s).kind.activation?) :
    Functional (σ.modify s e) :=
  h.modify fun hs => ⟨by rw [hb]; exact hs.bindings, by rw [hk]; exact hs.yields⟩

theorem Functional.setItems (h : Functional σ) (xs : List Term) : Functional (σ.setItems s xs) :=
  h.modify fun hs => ⟨hs.bindings, nofun⟩

theorem Functional.define (h : Functional σ) (hf : IsFunction f) (hd : σ.define s n f = .ok τ) :
    Functional τ := by
  obtain ⟨-, -, rfl⟩ | ⟨xs, i, v, c, m, k, -, -, -, -, rfl⟩ := define_cases hd
  · refine h.modify fun hs => ⟨fun m g hg => ?_, hs.yields⟩
    simp only [Bindings.get?_set] at hg
    split at hg
    · obtain rfl := Option.some.inj hg
      exact hf
    · exact hs.bindings m g hg
  · exact h.setItems _

theorem Functional.remove (h : Functional σ) (hr : σ.remove s n = .ok τ) : Functional τ := by
  obtain ⟨-, rfl⟩ | ⟨xs, i, -, -, rfl⟩ := remove_cases hr
  · obtain hsame | ⟨o, -, herase⟩ := removeBinding_cases σ s n
    · rw [hsame]
      exact h
    · rw [herase]
      refine h.modify fun ho => ⟨fun m g hg => ?_, ho.yields⟩
      simp only [Bindings.get?_erase] at hg
      split at hg
      · cases hg
      · exact ho.bindings m g hg
  · exact h.setItems _

theorem Functional.setMixins (h : Functional σ) (ms : List ScopeId) :
    Functional (σ.setMixins s ms) :=
  h.turn rfl rfl

theorem Functional.breakOff (h : Functional σ) : Functional (σ.breakOff s) := by
  apply h.turn
  all_goals
    cases hk : (σ.get s).kind <;> simp [ScopeKind.activation?, hk]

theorem Functional.reset (h : Functional σ) : Functional (σ.reset s) := by
  apply h.turn
  all_goals
    cases hk : (σ.get s).kind <;> simp [ScopeKind.activation?, hk]

def functionLaw : Law where
  inv := Functional
  step _ _ := True
  value _ _ := True
  block _ t := IsFunction t
  scope _ _ := True
  site _ _ := True

theorem later_functional (h : Functional τ) : functionLaw.Later σ τ :=
  ⟨trivial, h⟩

theorem isFunction_of_bindable (h : functionLaw.Bindable σ f) : IsFunction f := by
  obtain ⟨v, c, n, k, rfl⟩ | hf := h
  · trivial
  · exact hf

theorem functionLaw_upheld : functionLaw.Upheld where
  refl _ := trivial
  trans _ _ := trivial
  value_later _ _ := trivial
  block_later _ h := h
  scope_later _ _ := trivial
  site_later _ _ := trivial
  site_of_scope _ := trivial
  value_of_block _ := trivial
  yields _ := .inr fun _ _ => trivial
  literal _ := trivial
  memory _ := trivial
  target _ := trivial
  closure _ := trivial
  var := Iff.rfl
  found _ _ _ := trivial
  returned _ _ _ := trivial
  activation {σ s c a} h _ _ ha := by
    have hmem : a ∈ (σ.get c).kind.activation? := by simp [ha, ScopeKind.activation?]
    exact ⟨fun _ _ => trivial, (h c).yields a hmem, fun _ _ => trivial⟩
  define h _ _ hf hd := later_functional (h.define (isFunction_of_bindable hf) hd)
  remove h _ hr := later_functional (h.remove hr)
  setReturned h _ _ := later_functional (h.turn rfl rfl)
  breakOff h _ := later_functional h.breakOff
  newBlock h _ := ⟨later_functional (h.alloc ⟨nofun, nofun⟩), trivial⟩
  newCall h _ _ hb _ :=
    ⟨later_functional (h.alloc ⟨nofun, by rintro a ⟨⟩; exact hb⟩), trivial⟩
  newList h _ := ⟨later_functional (h.alloc ⟨nofun, nofun⟩), trivial⟩

theorem functionLaw_accommodating : functionLaw.Accommodating where
  scope _ := trivial
  float := trivial
  items _ := trivial
  listed _ _ _ _ _ := trivial
  parent _ _ _ := trivial
  plain h _ := ⟨later_functional (h.alloc ⟨nofun, nofun⟩), trivial⟩

theorem functionLaw_mixing : functionLaw.Mixing := by
  intro σ τ s source h _ _ ha
  obtain rfl | rfl := addMixin_cases ha
  · exact later_functional h
  · exact later_functional (h.setMixins _)

/-- The host's natives bind names to functions only, and give only functions for yield blocks, as long
as the evaluator that they call back does. -/
def BindsFunctions (host : Host) : Prop :=
  functionLaw.ObeyedBy host

end Invariant

section Search

def Loopless (σ : Store) (s : ScopeId) : Prop :=
  ∀ t, ReflTransGen (fun s t => t ∈ σ.nexts s) s t → ¬TransGen (fun s t => t ∈ σ.nexts s) t t

def Overlong (σ : Store) (s : ScopeId) (n : String) : Prop :=
  (σ.items? s).isSome ∧ ∃ digits, SlotName.ofName σ.digitLimit n = .overlong digits

theorem findSomeM?_answers {xs : List ScopeId} {search : ScopeId → Except Fault (Option ScopeId)}
    (h : ∀ x ∈ xs, ∃ r, search x = .ok r) : ∃ r, xs.findSomeM? search = .ok r := by
  induction xs with
  | nil => exact ⟨none, rfl⟩
  | cons x xs ih =>
      obtain ⟨r, hx⟩ := h x List.mem_cons_self
      rw [List.findSomeM?, hx]
      cases r with
      | none => exact ih fun y hy => h y (List.mem_cons_of_mem x hy)
      | some o => exact ⟨some o, rfl⟩

theorem owner?_answers (h : Loopless σ s) : ∃ owner, σ.owner? s n = .ok owner := by
  refine Writable.walk_ends (R := fun s t => t ∈ σ.nexts s)
    (W := fun depth within s => ∃ owner, σ.ownerWithin n depth within s = .ok owner)
    ?_ h fun _ _ => Precedence.lt_size_of_nexts
  intro depth within s hs ih
  rw [Store.ownerWithin]
  split
  · exact ⟨some s, rfl⟩
  · exact findSomeM?_answers ih

theorem binds_answers (h : Loopless σ s) (hn : ¬Overlong σ s n) : ∃ b, σ.binds s n = .ok b := by
  have binding : ∃ b, σ.bindsBinding s n = .ok b := by
    obtain ⟨owner, ho⟩ := owner?_answers h
    exact ⟨owner.isSome, by rw [Store.bindsBinding, ho]; rfl⟩
  rw [Store.binds]
  split
  next => exact binding
  next xs hx =>
      split
      next => exact ⟨_, rfl⟩
      next => exact ⟨_, rfl⟩
      next digits hd => exact absurd ⟨by rw [hx]; rfl, digits, hd⟩ hn
      next => exact binding

theorem bindsBinding_eq (h : Functional σ) (s : ScopeId) (n : String) :
    σ.bindsBinding s n = Option.isSome <$> σ.lookupBinding s n := by
  rw [Store.bindsBinding, Store.lookupBinding]
  cases ho : σ.owner? s n with
  | error f => rfl
  | ok owner =>
      cases owner with
      | none => rfl
      | some o =>
          have howns : ((σ.get o).bindings.get? n).isSome = true := Removal.owns_of_ownerWithin ho
          obtain ⟨f, hf⟩ := Option.isSome_iff_exists.1 howns
          have hpresent : f.present? = some f := ((h o).bindings n f hf).present
          change Except.ok true = Except.ok (((σ.get o).bindings.get? n).bind Term.present?).isSome
          rw [hf, Option.bind_some, hpresent, Option.isSome_some]

/-- A scope says that it binds a name exactly when looking the name up comes to something; and where
it does not say so it is for the same reason. -/
theorem binds_eq (h : Functional σ) (s : ScopeId) (n : String) :
    σ.binds s n = Option.isSome <$> σ.lookup s n := by
  rw [Store.binds, Store.lookup]
  split
  · exact bindsBinding_eq h s n
  next xs hx =>
      split
      · rfl
      next i _ =>
          change Except.ok (decide (i < xs.length)) = Except.ok (xs[i]?.map _).isSome
          exact congrArg Except.ok (Bool.eq_iff_iff.2 (by simp))
      · rfl
      · exact bindsBinding_eq h s n

end Search

section Calls

variable (st : State) (s : ScopeId) (n : String)

def looked (args : List Term) (block : Option Code) : State :=
  { st with node := .call n args block }.note (.visited (.call n args block))

def MemoryReaches (f : Term) : Prop :=
  ∀ (call : Caller) (i : Invocation) rest, i.args = .memory s n :: rest →
    Builtin.call.run call i st = call f { i with args := rest } st

def MemoryUnbound : Prop :=
  ∀ (call : Caller) (i : Invocation) rest, i.args = .memory s n :: rest →
    Builtin.call.run call i st = Eval.fail (.unboundTarget n) st

def NameReaches (f : Term) : Prop :=
  ∀ (call : Caller) args block, evalTerm call s (.call n args block) st =
    Conduct.callTerm call s n f args block (looked st n args block)

def NameUnbound : Prop :=
  ∀ (call : Caller) args block, evalTerm call s (.call n args block) st =
    Eval.fail (.unresolved n) (looked st n args block)

variable {st s n}

theorem memoryArg_apply {i : Invocation} {rest : List Term} (hi : i.args = .memory s n :: rest)
    (op : Builtin) : op.memoryArg i st = (.ok (s, n), st) := by
  rw [Builtin.memoryArg, hi]
  rfl

theorem lookup_apply (st : State) (s : ScopeId) (n : String) :
    Eval.lookup s n st = Eval.ofExcept (st.store.lookup s n) st := rfl

theorem exist_run {i : Invocation} {rest : List Term} (hi : i.args = .memory s n :: rest)
    (call : Caller) : Builtin.exist.run call i st =
      (do return .bool (← Eval.ofExcept (st.store.binds s n)) : Eval Term) st := by
  rw [Builtin.run, bind_of_ok (memoryArg_apply hi .exist)]
  rfl

def proceed (found : Except Fault (Option Term)) (unbound : Fault) (go : Term → Eval Term) :
    Eval Term :=
  match found with
  | .ok (some f) => go f
  | .ok none => Eval.fail unbound
  | .error f => Eval.fail f

theorem lookup_proceed {unbound : Fault} {go : Term → Eval Term} {next : Option Term → Eval Term}
    (hgo : ∀ f, next (some f) = go f) (hunbound : next none = Eval.fail unbound) (st : State) :
    (Eval.lookup s n >>= next) st = proceed (st.store.lookup s n) unbound go st := by
  rw [bind_apply, lookup_apply]
  match st.store.lookup s n with
  | .error f => rfl
  | .ok none => exact congrFun hunbound st
  | .ok (some f) => exact congrFun (hgo f) st

theorem call_run {i : Invocation} {rest : List Term} (hi : i.args = .memory s n :: rest)
    (call : Caller) : Builtin.call.run call i st =
      proceed (st.store.lookup s n) (.unboundTarget n) (call · { i with args := rest }) st := by
  rw [Builtin.run, bind_of_ok (memoryArg_apply hi .call), hi]
  exact lookup_proceed (fun _ => rfl) rfl st

theorem evalTerm_call (call : Caller) (args : List Term) (block : Option Code) :
    evalTerm call s (.call n args block) st = proceed (st.store.lookup s n) (.unresolved n)
      (Conduct.callTerm call s n · args block) (looked st n args block) := by
  have hvisit : visit (.call n args block) st = (.ok (), looked st n args block) := rfl
  rw [evalTerm, bind_of_ok hvisit]
  exact lookup_proceed (fun _ => rfl) rfl (looked st n args block)

section Proceed

variable {found : Except Fault (Option Term)} {unbound : Fault} {go : Term → Eval Term}
  (hgo : ∀ f, ∃ v, (go f st).1 = .ok v)
include hgo

theorem found_of_proceed (h : proceed found unbound go st = go f st) : ∃ g, found = .ok (some g) := by
  obtain ⟨v, hv⟩ := hgo f
  rw [← h] at hv
  match found, hv with
  | .ok (some g), _ => exact ⟨g, rfl⟩

theorem unbound_of_proceed (hfound : ∀ g, found = .error g → g ≠ unbound)
    (h : proceed found unbound go st = Eval.fail unbound st) : found = .ok none := by
  match found, h, hfound with
  | .ok none, _, _ => rfl
  | .ok (some g), h, _ =>
      obtain ⟨v, hv⟩ := hgo g
      have hfail : (go g st).1 = .error ⟨unbound, none⟩ := congrArg Prod.fst h
      rw [hv] at hfail
      cases hfail
  | .error g, h, hfound =>
      have hfail : (.error ⟨g, none⟩ : Except Failure Term) = .error ⟨unbound, none⟩ :=
        congrArg Prod.fst h
      exact absurd (congrArg Failure.fault (Except.error.inj hfail)) (hfound g rfl)

end Proceed

theorem lookup_ne {unbound : Fault} (hu : ∀ cause message, unbound ≠ .host cause message) (g : Fault)
    (hg : st.store.lookup s n = .error g) : g ≠ unbound := by
  intro h
  obtain ⟨cause, message, he⟩ := lookup_hosted st.store s n g hg
  exact hu cause message (h.symm.trans he)

def idle : Caller :=
  fun _ _ => pure .null

theorem idle_callTerm (f : Term) : ∃ v, (Conduct.callTerm idle s n f [] none st).1 = .ok v :=
  ⟨.null, rfl⟩

theorem memoryReaches_iff : (∃ f, MemoryReaches st s n f) ↔
    ∃ f, st.store.lookup s n = .ok (some f) := by
  constructor
  · rintro ⟨f, h⟩
    have hidle := h idle { args := [.memory s n] } [] rfl
    rw [call_run rfl] at hidle
    exact found_of_proceed (fun _ => ⟨.null, rfl⟩) hidle
  · rintro ⟨f, hf⟩
    exact ⟨f, fun call i rest hi => by rw [call_run hi, hf]; rfl⟩

theorem nameReaches_iff : (∃ f, NameReaches st s n f) ↔
    ∃ f, st.store.lookup s n = .ok (some f) := by
  constructor
  · rintro ⟨f, h⟩
    have hidle := h idle [] none
    rw [evalTerm_call] at hidle
    exact found_of_proceed idle_callTerm hidle
  · rintro ⟨f, hf⟩
    exact ⟨f, fun call args block => by rw [evalTerm_call, hf]; rfl⟩

theorem memoryUnbound_iff : MemoryUnbound st s n ↔ st.store.lookup s n = .ok none := by
  constructor
  · intro h
    have hidle := h idle { args := [.memory s n] } [] rfl
    rw [call_run rfl] at hidle
    exact unbound_of_proceed (fun _ => ⟨.null, rfl⟩) (lookup_ne (by rintro _ _ ⟨⟩)) hidle
  · intro hn call i rest hi
    rw [call_run hi, hn]
    rfl

theorem nameUnbound_iff : NameUnbound st s n ↔ st.store.lookup s n = .ok none := by
  constructor
  · intro h
    have hidle := h idle [] none
    rw [evalTerm_call] at hidle
    exact unbound_of_proceed idle_callTerm (lookup_ne (by rintro _ _ ⟨⟩)) hidle
  · intro hn call args block
    rw [evalTerm_call, hn]
    rfl

end Calls

section Reachable

variable {a b : Stage}

theorem Functional.registerAll {m : Module} {fs : List Native} (h : Functional σ)
    (hr : m.registerAll σ fs = .ok τ) : Functional τ :=
  registerAll_keeps (fun {_ _ f} h hf => h.define (f := .native f) trivial hf) h hr

theorem functional_bare (limit : Nat) (debugging : Bool) :
    Functional (Session.bare limit debugging).state.store := by
  intro s
  match s with
  | 0 | 1 => exact ⟨nofun, nofun⟩
  | s + 2 => exact ⟨nofun, nofun⟩

variable (hh : BindsFunctions host)
include hh

theorem Functional.step (h : Step host a b) (ha : Functional a.store) : Functional b.store := by
  cases h with
  | make name natives h =>
      obtain ⟨-, hr, -⟩ := newModule_cases h
      exact (ha.alloc functions_empty).registerAll hr
  | register name impl hm h =>
      obtain ⟨f, -, hr, -⟩ := registers_cases h
      exact ha.define (f := .native f) trivial hr
  | install hm h =>
      obtain ⟨hi, -⟩ := addModule_cases h
      rw [Stage.store]
      obtain hsame | hset := install_cases hi
      · rw [hsame]
        exact ha
      · rw [hset]
        exact ha.setMixins _
  | @run l s c => exact (run_later functionLaw_upheld hh (s := s) ha.reset trivial c).inv

theorem Functional.reachable (ha : Reachable host a) : Functional a.store := by
  obtain ⟨limit, debugging, h⟩ := ha
  induction h with
  | refl => exact functional_bare limit debugging
  | tail _ hstep ih => exact ih.step hh hstep

end Reachable

/-- What is expected of `exists`, asked of a name in a scope, if it ends with `r`: it says what a search
for the name comes to, and so whether calls of the memory and of the name come to a function or fail, as
the name is unbound. -/
structure Predicted (st : State) (s : ScopeId) (n : String) (r : Except Failure Term × State) :
    Prop where
  binds : st.store.binds s n = Option.isSome <$> st.store.lookup s n
  answers : Loopless st.store s → ¬Overlong st.store s n → ∃ b, r = (.ok (.bool b), st)
  memory : r.1 = .ok (.bool true) ↔ ∃ f, MemoryReaches st s n f
  name : r.1 = .ok (.bool true) ↔ ∃ f, NameReaches st s n f
  memory_unbound : r.1 = .ok (.bool false) ↔ MemoryUnbound st s n
  name_unbound : r.1 = .ok (.bool false) ↔ NameUnbound st s n

theorem predicted {st : State} (h : Functional st.store) {i : Invocation} {rest : List Term}
    (hi : i.args = .memory s n :: rest) (call : Caller) :
    Predicted st s n (Builtin.exist.run call i st) := by
  have hbinds := binds_eq h s n
  have htrue : (Builtin.exist.run call i st).1 = .ok (.bool true) ↔
      ∃ f, st.store.lookup s n = .ok (some f) := by
    rw [exist_run hi, hbinds]
    match st.store.lookup s n with
    | .error f => exact iff_of_false nofun nofun
    | .ok none => exact iff_of_false nofun nofun
    | .ok (some f) => exact iff_of_true rfl ⟨f, rfl⟩
  have hfalse : (Builtin.exist.run call i st).1 = .ok (.bool false) ↔
      st.store.lookup s n = .ok none := by
    rw [exist_run hi, hbinds]
    match st.store.lookup s n with
    | .error f => exact iff_of_false nofun nofun
    | .ok none => exact iff_of_true rfl rfl
    | .ok (some f) => exact iff_of_false nofun nofun
  refine ⟨hbinds, fun hl hn => ?_, htrue.trans memoryReaches_iff.symm,
    htrue.trans nameReaches_iff.symm, hfalse.trans memoryUnbound_iff.symm,
    hfalse.trans nameUnbound_iff.symm⟩
  obtain ⟨b, hb⟩ := binds_answers hl hn
  exact ⟨b, by rw [exist_run hi, hb]; rfl⟩

/-- Where only functions are bound to names, and so in every session that natives let be so, `exists`
predicts whether a call would come to a function; and all that happens to a store keeps it so. -/
theorem exists_predicts (hh : BindsFunctions host) :
    (∀ a, Reachable host a → Functional a.store) ∧
    (∀ call, Behind host call → ∀ q (st : State), functionLaw.Asks st.store q →
      Functional st.store → Functional (q.askedOf call st).2.store) ∧
    (∀ call, functionLaw.Calls call → ∀ (b : Builtin) i, (∀ t ∈ i.block, IsFunction t) →
      ∀ st : State, Functional st.store → Functional (b.run call i st).2.store) ∧
    (∀ s ps (st : State), Functional st.store → Functional (bindParams s ps st).2.store) ∧
    (∀ (m : Module) σ f τ, Functional σ → m.register σ f = .ok τ → Functional τ) ∧
    ∀ st : State, Functional st.store → ∀ s n (i : Invocation) rest,
      i.args = .memory s n :: rest → ∀ call, Predicted st s n (Builtin.exist.run call i st) := by
  have U := functionLaw_upheld
  refine ⟨fun a ha => .reachable hh ha, fun call hc q st hq h => ?_, fun call hc b i hi st h => ?_,
    fun s ps st h => ?_, fun m σ f τ h hr => h.define (f := .native f) trivial hr,
    fun st h s n i rest hi call => predicted h hi call⟩
  · exact (askedOf_meets U hh hc hq st ⟨trivial, h⟩).1.inv
  · have hserved : functionLaw.Served st.store i := ⟨fun _ _ => trivial, hi, fun _ _ => trivial⟩
    exact (builtin_meets U hc hserved b st ⟨trivial, h⟩).1.inv
  · have hmeets : functionLaw.Meets st.store (bindParams s ps) fun _ _ => True :=
      bindParams_meets U trivial fun _ _ => trivial
    exact (hmeets st ⟨trivial, h⟩).1.inv

theorem kitWithout_bindsFunctions : BindsFunctions (kitWithout ["bind"]) :=
  kitWithout_obeys functionLaw_upheld functionLaw_accommodating (.inr functionLaw_mixing)
    (.inl List.mem_cons_self)

def stocked : State :=
  let list : Scope := { kind := .list [.num 7], bindings := [("f", .block ⟨[], []⟩ 0)] }
  { store := { scopes := #[list, { mixins := [0] }] }, limit := 5 }

theorem functional_stocked : Functional stocked.store := by
  intro s
  match s with
  | 0 =>
      refine ⟨fun n f hf => ?_, nofun⟩
      rw [show (stocked.store.get 0).bindings = [("f", .block ⟨[], []⟩ 0)] from rfl,
        Bindings.get?_cons] at hf
      split at hf
      · obtain rfl := Option.some.inj hf
        trivial
      · cases hf
  | 1 => exact ⟨nofun, nofun⟩
  | s + 2 => exact ⟨nofun, nofun⟩

theorem exists_predicts_stocked :
    let exist (s : ScopeId) (n : String) : Except Failure Term × State :=
      Builtin.exist.run (caller (kitWithout ["bind"])) { args := [.memory s n] } stocked
    Predicted stocked 1 "f" (exist 1 "f") ∧ Predicted stocked 0 "1" (exist 0 "1") ∧
      (exist 1 "f").1.toOption.isSome ∧ (∃ f, NameReaches stocked 1 "f" f) ∧
      NameUnbound stocked 0 "1" := by
  intro exist
  obtain ⟨-, -, -, -, -, h⟩ := exists_predicts kitWithout_bindsFunctions
  have hf : Predicted stocked 1 "f" (exist 1 "f") := h stocked functional_stocked 1 "f" _ [] rfl _
  have h1 : Predicted stocked 0 "1" (exist 0 "1") := h stocked functional_stocked 0 "1" _ [] rfl _
  exact ⟨hf, h1, rfl, hf.name.1 rfl, h1.name_unbound.1 rfl⟩

end BlockScript.Proofs.Existence
