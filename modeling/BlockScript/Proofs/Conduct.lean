import BlockScript.Proofs.ReturnSlots

namespace BlockScript.Proofs

open Eval Evaluator Running Law

variable {α β : Type}

def Plain (m : Eval α) : Prop :=
  ∀ st, (∃ a, m st = (.ok a, st)) ∨ ∃ f, m st = (.error ⟨f, none⟩, st.note (.failed f))

namespace Plain

theorem pure (a : α) : Plain (Pure.pure a : Eval α) := fun _ => .inl ⟨a, rfl⟩

theorem fail (f : Fault) : Plain (Eval.fail f : Eval α) := fun _ => .inr ⟨f, rfl⟩

theorem get : Plain (MonadState.get : Eval State) := fun st => .inl ⟨st, rfl⟩

theorem getStore : Plain Eval.getStore := fun st => .inl ⟨st.store, rfl⟩

theorem bind {m : Eval α} {k : α → Eval β} (hm : Plain m) (hk : ∀ a, Plain (k a)) :
    Plain (m >>= k) := by
  intro st
  rcases hm st with ⟨a, ha⟩ | ⟨f, hf⟩
  · rw [bind_of_ok ha]
    exact hk a st
  · exact .inr ⟨f, by rw [bind_apply, hf]⟩

theorem ofExcept (r : Except Fault α) : Plain (Eval.ofExcept r) := by
  cases r with
  | ok a => exact pure a
  | error f => exact fail f

theorem lookup (s : ScopeId) (n : String) : Plain (Eval.lookup s n) :=
  getStore.bind fun _ => ofExcept _

theorem binds (s : ScopeId) (n : String) : Plain (Eval.binds s n) :=
  getStore.bind fun _ => ofExcept _

theorem returned (s : ScopeId) : Plain (Eval.returned s) :=
  getStore.bind fun _ => pure _

theorem isBroken (s : ScopeId) : Plain (Eval.isBroken s) :=
  getStore.bind fun _ => pure _

theorem numeral (n : Int) : Plain (Eval.numeral n) :=
  getStore.bind fun _ => ofExcept _

theorem source (t : Term) : Plain (Eval.source t) :=
  getStore.bind fun _ => ofExcept _

theorem inspect (t : Term) : Plain (Eval.inspect t) :=
  getStore.bind fun _ => ofExcept _

theorem typeName (t : Term) : Plain (Eval.typeName t) :=
  getStore.bind fun _ => ofExcept _

theorem className (t : Term) : Plain (Eval.className t) :=
  getStore.bind fun _ => pure _

theorem displayLine (ts : List Term) : Plain (Eval.displayLine ts) :=
  getStore.bind fun _ => (ofExcept _).bind fun _ => pure _

theorem notCallable (t : Term) :
    Plain (do Eval.fail (.notCallable (← Eval.inspect t) (← Eval.className t)) : Eval α) :=
  (inspect t).bind fun _ => (className t).bind fun _ => fail _

section Builtins

variable (op : Builtin) (i : Invocation)

theorem memoryArg : Plain (op.memoryArg i) := by
  rw [Builtin.memoryArg]
  split
  · exact pure _
  · exact fail _
  · exact (typeName _).bind fun _ => fail _

theorem blockArg : Plain (op.blockArg i) := by
  rw [Builtin.blockArg]
  split
  · exact pure _
  · exact fail _

theorem activation : Plain (op.activation i) := by
  refine getStore.bind fun σ => ?_
  split
  · exact pure _
  · exact fail _

theorem indexArg : Plain (Builtin.indexArg i) := by
  rw [Builtin.indexArg]
  split
  · exact pure _
  · exact fail _
  · exact (typeName _).bind fun _ => fail _

theorem tagArg : Plain (Builtin.tagArg i) := by
  rw [Builtin.tagArg]
  split
  · split
    · exact pure _
    · exact fail _
  · exact (typeName _).bind fun _ => fail _
  · exact pure _

theorem checkTag (tag : Tag) (t : Term) : Plain (Builtin.checkTag tag t) := by
  rw [Builtin.checkTag]
  split
  · exact pure _
  · exact (typeName _).bind fun _ => (source _).bind fun _ => fail _
  · exact (inspect _).bind fun _ => (className _).bind fun _ => fail _

theorem checkIndex (index : Int) : Plain (Builtin.checkIndex index) := by
  rw [Builtin.checkIndex]
  split
  · exact (numeral _).bind fun _ => fail _
  · exact pure _

end Builtins

end Plain

structure Beside (st st' : State) : Prop where
  store : st'.store = st.store
  frames : st'.frames = st.frames
  depth : st'.depth = st.depth
  limit : st'.limit = st.limit
  history : st'.history = st.history

def Aside (m : Eval α) : Prop :=
  ∀ st, (∃ a, (m st).1 = .ok a) ∧ Beside st (m st).2

namespace Aside

theorem freshMark : Aside Eval.freshMark := fun _ => ⟨⟨_, rfl⟩, rfl, rfl, rfl, rfl, rfl⟩

theorem write (line : String) : Aside (Eval.write line) := fun _ => ⟨⟨_, rfl⟩, rfl, rfl, rfl, rfl, rfl⟩

theorem emit (e : Effect) : Aside (Eval.emit e) := fun _ => ⟨⟨_, rfl⟩, rfl, rfl, rfl, rfl, rfl⟩

theorem log (line : String) : Aside (Eval.log line) := by
  intro st
  refine ⟨⟨_, rfl⟩, ?_⟩
  rw [Eval.log, modify_apply]
  split
  · exact ⟨rfl, rfl, rfl, rfl, rfl⟩
  · exact ⟨rfl, rfl, rfl, rfl, rfl⟩

end Aside

def Gives (f : Term) : Prop :=
  ∃ g b, f = .native g ∧ g.impl = .builtin b ∧ (b = .ret ∨ b = .pass)

def gave (b : Builtin) (i : Invocation) (σ : Store) : Store :=
  match i.scope with
  | some t => if b = .ret then (σ.setReturned t i.first).breakOff t else σ.setReturned t i.first
  | none => σ

theorem give_apply {b : Builtin} (call : Caller) (i : Invocation) (hb : b = .ret ∨ b = .pass)
    (st : State) : b.run call i st = (.ok i.first, { st with store := gave b i st.store }) := by
  rw [gave]
  rcases hb with rfl | rfl
  all_goals
    rw [Builtin.run]
    simp only [Builtin.giveValue, Builtin.stop]
    cases i.scope with
    | none => rfl
    | some t => rfl

def LeavesSlots (g : Store → Except Fault Store) : Prop :=
  ∀ σ τ, g σ = .ok τ → σ.size ≤ τ.size ∧ ∀ s, ReturnSlots.slot (τ.get s) = ReturnSlots.slot (σ.get s)

namespace LeavesSlots

open Writing

theorem define (s : ScopeId) (n : String) (f : Term) : LeavesSlots (·.define s n f) :=
  fun _ _ h => ⟨Nat.le_of_eq (size_define h).symm, ReturnSlots.slot_formal.get_define h⟩

theorem remove (s : ScopeId) (n : String) : LeavesSlots (·.remove s n) :=
  fun _ _ h => ⟨Nat.le_of_eq (size_remove h).symm, ReturnSlots.slot_formal.get_remove h⟩

theorem addMixin (s source : ScopeId) : LeavesSlots (·.addMixin s source) := by
  intro σ τ h
  refine ⟨Nat.le_of_eq (size_addMixin h).symm, ?_⟩
  obtain rfl | rfl := addMixin_cases h
  · exact fun _ => rfl
  · exact Formal.get_modify (g := ReturnSlots.slot) rfl

end LeavesSlots

/-- What a computation promises, of whatever values. -/
structure Conduct where
  keeps : ∀ {α : Type}, Eval α → Prop

namespace Conduct

variable (K : Conduct)

def Calls (call : Caller) : Prop :=
  ∀ f i, K.keeps (call f i)

def callTerm (call : Caller) (s : ScopeId) (n : String) (f : Term) (args : List Term)
    (block : Option Code) : Eval Term := do
  let vs ← evalArgs call s args
  underFrame ⟨n, f, vs, .call n args block⟩
    (call f { args := vs, block := block.map (.block · s), scope := some s })

/-- What the evaluator needs in order to keep a conduct: its steps keep it. The announcement that a
block is given its value goes with the giving, and the evaluation of arguments with the call. -/
structure Upheld (host : Host) : Prop where
  plain : ∀ {α : Type} {m : Eval α}, Plain m → K.keeps m
  aside : ∀ {α : Type} {m : Eval α}, Aside m → K.keeps m
  bind : ∀ {α β : Type} {m : Eval α} {k : α → Eval β}, K.keeps m → (∀ a, K.keeps (k a)) →
    K.keeps (m >>= k)
  update : ∀ {g : Store → Except Fault Store}, LeavesSlots g → K.keeps (updateStore g)
  alloc : ∀ c, K.keeps (Eval.alloc c)
  visit : ∀ t, K.keeps (Eval.visit t)
  announce : ∀ {f : Term} (i : Invocation), ¬Gives f → K.keeps (Evaluator.announce f i)
  give : ∀ {g : Native} {b : Builtin} (call : Caller) (i : Invocation), g.impl = .builtin b →
    b = .ret ∨ b = .pass → K.keeps (do Evaluator.announce (.native g) i; b.run call i)
  site : ∀ {call : Caller} {s : ScopeId} {args : List Term}, Behind host call →
    K.keeps (evalArgs call s args) → K.Calls call →
    ∀ n f block, K.keeps (callTerm call s n f args block)
  deeper : ∀ {m : Eval Term}, K.keeps m → K.keeps (Eval.deeper m)

def KeptBy (host : Host) : Prop :=
  ∀ call, K.Calls call → ∀ key i, K.keeps (host.native call key i)

variable {K} {host : Host} {call : Caller}

namespace Upheld

variable (U : K.Upheld host)
include U

theorem next {m : Eval α} {k : α → Eval β} (hm : Plain m) (hk : ∀ a, K.keeps (k a)) :
    K.keeps (m >>= k) :=
  U.bind (U.plain hm) hk

theorem value (a : α) : K.keeps (pure a : Eval α) :=
  U.plain (.pure a)

theorem fail (f : Fault) : K.keeps (Eval.fail f : Eval α) :=
  U.plain (.fail f)

theorem define (s : ScopeId) (n : String) (f : Term) : K.keeps (Eval.define s n f) :=
  U.update (.define s n f)

theorem newList (xs : List Term) : K.keeps (Eval.newList xs) :=
  U.bind (U.alloc _) fun _ => U.value _

section Builtins

variable {i : Invocation} (hc : K.Calls call)
include hc

theorem bindValue (op : Builtin) (constant : Bool) :
    K.keeps (Builtin.bindValue call op constant i) := by
  refine U.next (.memoryArg op i) fun p => U.next (.blockArg op i) fun body => ?_
  refine U.bind (hc body _) fun v => U.bind (U.aside .freshMark) fun mark => ?_
  exact U.bind (U.define _ _ _) fun _ => U.value _

theorem builtin {b : Builtin} (hret : b ≠ .ret) (hpass : b ≠ .pass) : K.keeps (b.run call i) := by
  cases b with
  | fn =>
      refine U.next (.memoryArg .fn i) fun p => U.next (.blockArg .fn i) fun body => ?_
      exact U.bind (U.define _ _ _) fun _ => U.value _
  | letVar => exact bindValue U hc .letVar false
  | letConst => exact bindValue U hc .letConst true
  | del =>
      refine U.next (.memoryArg .del i) fun p => ?_
      exact U.bind (U.update (.remove _ _)) fun _ => U.value _
  | call =>
      refine U.next (.memoryArg .call i) fun p => U.next (.lookup _ _) fun r => ?_
      cases r with
      | none => exact U.fail _
      | some f => exact hc f _
  | exist => exact U.next (.memoryArg .exist i) fun p => U.next (.binds _ _) fun _ => U.value _
  | param =>
      refine U.next (.indexArg i) fun index => U.next (.tagArg i) fun tag => ?_
      refine U.next (.checkIndex index) fun _ => U.next (.activation .param i) fun a => ?_
      exact U.next (.checkTag tag _) fun _ => U.value _
  | args => exact U.next (.activation .args i) fun a => U.newList _
  | yield =>
      refine U.next (.activation .yield i) fun a => ?_
      cases a.yieldBlock with
      | none => exact U.fail _
      | some b => exact hc b _
  | ret => exact absurd rfl hret
  | pass => exact absurd rfl hpass
  | print => exact U.next (.displayLine _) fun line => U.bind (U.aside (.write line)) fun _ => U.value _

end Builtins

section Terms

variable {s : ScopeId}

mutual

theorem evalTerm (hb : Behind host call) (hc : K.Calls call) :
    ∀ t, K.keeps (Evaluator.evalTerm call s t)
  | .null | .bool _ | .num _ | .str _ => U.bind (U.visit _) fun _ => U.value _
  | .ref _ none _ => U.bind (U.visit _) fun _ => U.value _
  | .ref n (some target) _ => by
      refine U.bind (U.visit _) fun _ => U.bind (evalTerm hb hc target) fun v => ?_
      split
      · exact U.value _
      · exact U.next (.typeName _) fun _ => U.fail _
  | .call n args block => by
      refine U.bind (U.visit _) fun _ => U.next (.lookup s n) fun r => ?_
      cases r with
      | none => exact U.fail _
      | some f => exact U.site hb (evalArgs hb hc args) hc n f block
  | .code _ => U.bind (U.visit _) fun _ => U.fail _
  | .memory _ _ | .scope _ | .float _ _ | .items _ | .var _ _ _ _ | .block _ _ | .native _ =>
      U.bind (U.visit _) fun _ => U.next (.inspect _) fun _ => U.next (.className _) fun _ =>
        U.fail _

theorem evalArgs (hb : Behind host call) (hc : K.Calls call) :
    ∀ ts, K.keeps (Evaluator.evalArgs call s ts)
  | [] => U.value _
  | t :: ts => U.bind (evalTerm hb hc t) fun _ => U.bind (evalArgs hb hc ts) fun _ => U.value _

end

variable (hb : Behind host call) (hc : K.Calls call)
include hb hc

theorem runStatements (last : Term) (ts : List Term) :
    K.keeps (Evaluator.runStatements call s last ts) := by
  induction ts generalizing last with
  | nil => exact U.value _
  | cons t ts ih =>
      refine U.next (.isBroken s) fun broken => ?_
      cases broken with
      | true => exact U.value _
      | false => exact U.bind (evalTerm U hb hc t) fun v => ih v

theorem runIn (c : Code) : K.keeps (Evaluator.runIn call s c) := by
  refine U.bind (U.aside (.log _)) fun _ => ?_
  exact U.bind (runStatements U hb hc _ _) fun _ => U.next (.returned s) fun _ => U.value _

theorem run (c : Code) : K.keeps (Evaluator.run call c s) :=
  U.bind (U.alloc _) fun _ => runIn U hb hc c

end Terms

theorem bindParams (s : ScopeId) (ps : List (String × Term)) :
    K.keeps (Evaluator.bindParams s ps) := by
  induction ps with
  | nil => exact U.value _
  | cons p ps ih => exact U.bind (U.aside .freshMark) fun _ => U.bind (U.define _ _ _) fun _ => ih

variable (hh : K.KeptBy host) {enter : BlockCaller} (he : ∀ c p i, K.keeps (enter c p i))
include hh he

theorem dispatch (depth : Nat) : K.Calls (Evaluator.dispatch host enter depth) := by
  -- on how deep natives may call back
  induction depth with
  | zero => exact fun f i => U.fail _
  | succ depth ih =>
      intro f i
      rw [Evaluator.dispatch.eq_def]
      by_cases hf : Gives f
      · obtain ⟨g, b, rfl, hg, hb⟩ := hf
        have hgive := U.give (Evaluator.dispatch host enter depth) i hg hb
        simpa only [runImpl, hg] using hgive
      · refine U.bind (U.announce i hf) fun _ => ?_
        split
        next => exact U.value _
        next => exact he _ _ _
        next g =>
            cases hg : g.impl with
            | builtin b =>
                refine builtin U ih ?_ ?_
                · rintro rfl
                  exact hf ⟨g, _, rfl, hg, .inl rfl⟩
                · rintro rfl
                  exact hf ⟨g, _, rfl, hg, .inr rfl⟩
            | host key => exact hh _ ih key i
        next => exact U.plain (.notCallable _)

omit he

theorem enterBlock (room : Nat) (c : Code) (p : ScopeId) (i : Invocation) :
    K.keeps (Evaluator.enterBlock host room c p i) := by
  -- on the levels that are left
  induction room generalizing c p i with
  | zero => exact U.fail _
  | succ room ih =>
      refine U.next .get fun st => ?_
      split
      · exact U.fail _
      · refine U.bind (U.alloc _) fun s => U.bind (bindParams U s _) fun _ => ?_
        refine U.bind (U.aside (.log _)) fun _ => U.deeper ?_
        exact run U (.block room) (fun f i => dispatch U hh ih _ f i) c

theorem behind (hb : Behind host call) : K.Calls call := by
  cases hb with
  | outermost => exact fun f i => U.next .get fun st => dispatch U hh (enterBlock U hh _) _ f i
  | block room => exact fun f i => dispatch U hh (enterBlock U hh room) _ f i
  | native room budget => exact dispatch U hh (enterBlock U hh room) budget

/-- The evaluator keeps every conduct that it upholds step by step and that the host keeps. -/
theorem askedOf (hb : Behind host call) (q : Request) : K.keeps (q.askedOf call) := by
  have hc := behind U hh hb
  cases q with
  | eval t s =>
      refine U.bind (U.visit t) fun _ => ?_
      split
      · exact run U hb hc _
      · exact evalTerm U hb hc _
  | run c s => exact run U hb hc c
  | runIn c s => exact runIn U hb hc c
  | call f i => exact hc f i

end Upheld

end Conduct

end BlockScript.Proofs
