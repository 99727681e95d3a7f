import BlockScript.Proofs.Running

namespace BlockScript.Proofs

open Eval Running

variable {α β : Type}

def Quiet (m : Eval α) : Prop :=
  ∀ st, (m st).2.store = st.store

namespace Quiet

theorem pure (a : α) : Quiet (Pure.pure a : Eval α) := fun _ => rfl

theorem fail (f : Fault) : Quiet (Eval.fail f : Eval α) := fun _ => rfl

theorem get : Quiet (MonadState.get : Eval State) := fun _ => rfl

theorem getStore : Quiet Eval.getStore := fun _ => rfl

theorem visit (t : Term) : Quiet (Eval.visit t) := fun _ => rfl

theorem record (e : Event) : Quiet (Eval.record e) := fun _ => rfl

theorem freshMark : Quiet Eval.freshMark := fun _ => rfl

theorem write (line : String) : Quiet (Eval.write line) := fun _ => rfl

theorem className (t : Term) : Quiet (Eval.className t) := fun _ => rfl

theorem log (line : String) : Quiet (Eval.log line) := by
  intro st
  change (if st.debugging then _ else st : State).store = _
  split <;> rfl

theorem ofExcept (r : Except Fault α) : Quiet (Eval.ofExcept r) := by
  cases r with
  | ok a => exact pure a
  | error f => exact fail f

theorem bind {m : Eval α} {k : α → Eval β} (hm : Quiet m) (hk : ∀ a, Quiet (k a)) :
    Quiet (m >>= k) := by
  intro st
  rw [bind_apply]
  rcases h : m st with ⟨_ | a, st'⟩
  · simpa [h] using hm st
  · simpa [h] using (hk a st').trans (by simpa [h] using hm st)

theorem binds (s : ScopeId) (n : String) : Quiet (Eval.binds s n) :=
  getStore.bind fun _ => ofExcept _

theorem isBroken (s : ScopeId) : Quiet (Eval.isBroken s) := fun _ => rfl

theorem numeral (n : Int) : Quiet (Eval.numeral n) :=
  getStore.bind fun _ => ofExcept _

theorem source (t : Term) : Quiet (Eval.source t) :=
  getStore.bind fun _ => ofExcept _

theorem inspect (t : Term) : Quiet (Eval.inspect t) :=
  getStore.bind fun _ => ofExcept _

theorem typeName (t : Term) : Quiet (Eval.typeName t) :=
  getStore.bind fun _ => ofExcept _

theorem displayLine (ts : List Term) : Quiet (Eval.displayLine ts) :=
  getStore.bind fun _ => (ofExcept _).bind fun _ => pure _

end Quiet

def IsBlock (t : Term) : Prop :=
  ∃ c s, t = .block c s

/-- What a run promises of stores, and of the terms and scopes that it handles in them. -/
structure Law where
  /-- What holds throughout. -/
  inv : Store → Prop
  /-- What a store may become. -/
  step : Store → Store → Prop
  /-- The terms that are computed with. -/
  value : Store → Term → Prop
  /-- The functions that stand for yield blocks. -/
  block : Store → Term → Prop
  /-- The scopes that terms are evaluated in and natives called from. -/
  scope : Store → ScopeId → Prop
  /-- The scopes that blocks are called from. -/
  site : Store → ScopeId → Prop

namespace Law

variable (L : Law)

structure Later (σ τ : Store) : Prop where
  step : L.step σ τ
  inv : L.inv τ

/-- Wherever `m` starts once the store is `σ`, it keeps the law, and a value that it ends with has
the property. -/
def Meets (σ : Store) (m : Eval α) (P : Store → α → Prop) : Prop :=
  ∀ st, L.Later σ st.store →
    L.Later st.store (m st).2.store ∧ ∀ a, (m st).1 = .ok a → P (m st).2.store a

/-- An invocation that a function can be called with. Natives are called from a scope in which terms
may be evaluated; a block does not see where it is called from. -/
structure Callable (σ : Store) (f : Term) (i : Invocation) : Prop where
  function : L.value σ f
  args : ∀ t ∈ i.args, L.value σ t
  block : ∀ t ∈ i.block, L.block σ t
  site : ∀ s ∈ i.scope, L.site σ s
  scope : IsBlock f ∨ ∀ s ∈ i.scope, L.scope σ s

structure Served (σ : Store) (i : Invocation) : Prop where
  args : ∀ t ∈ i.args, L.value σ t
  block : ∀ t ∈ i.block, L.block σ t
  scope : ∀ s ∈ i.scope, L.scope σ s

def Calls (call : Caller) : Prop :=
  ∀ σ f i, L.Callable σ f i → L.Meets σ (call f i) L.value

def Bindable (σ : Store) (f : Term) : Prop :=
  (∃ v c n k, f = .var v c n k) ∨ L.block σ f

/-- The host's natives keep the law as long as the evaluator that they call back does. -/
def ObeyedBy (host : Host) : Prop :=
  ∀ call, L.Calls call → ∀ key σ i, L.Served σ i → L.Meets σ (host.native call key i) L.value

/-- What the evaluator needs in order to keep a law: what it does to stores is a step, and what it
takes from them can be computed with. -/
structure Upheld : Prop where
  refl : ∀ σ, L.step σ σ
  trans : ∀ {σ τ υ}, L.step σ τ → L.step τ υ → L.step σ υ
  value_later : ∀ {σ τ t}, L.step σ τ → L.value σ t → L.value τ t
  block_later : ∀ {σ τ t}, L.step σ τ → L.block σ t → L.block τ t
  scope_later : ∀ {σ τ s}, L.step σ τ → L.scope σ s → L.scope τ s
  site_later : ∀ {σ τ s}, L.step σ τ → L.site σ s → L.site τ s
  site_of_scope : ∀ {σ s}, L.scope σ s → L.site σ s
  value_of_block : ∀ {σ t}, L.block σ t → L.value σ t
  yields : ∀ {σ t}, L.block σ t → IsBlock t ∨ ∀ s, L.site σ s → L.scope σ s
  literal : ∀ {σ t}, t = .null ∨ (∃ b, t = .bool b) ∨ (∃ n, t = .num n) ∨ (∃ s, t = .str s) →
    L.value σ t
  memory : ∀ {σ s n}, L.scope σ s → L.value σ (.memory s n)
  target : ∀ {σ s n}, L.value σ (.scope s) → L.value σ (.memory s n)
  closure : ∀ {σ s c}, L.scope σ s → L.block σ (.block c s)
  var : ∀ {σ v c n k}, L.value σ (.var v c n k) ↔ L.value σ v
  found : ∀ {σ s n f}, L.inv σ → L.value σ (.memory s n) → σ.lookup s n = .ok (some f) →
    L.value σ f
  returned : ∀ {σ s t}, L.inv σ → L.scope σ s → (σ.get s).returned = some t → L.value σ t
  activation : ∀ {σ s c a}, L.inv σ → L.scope σ s → σ.callScope? s = some c →
    (σ.get c).kind = .call a →
    (∀ t ∈ a.args, L.value σ t) ∧ (∀ t ∈ a.yieldBlock, L.block σ t) ∧ ∀ p ∈ a.site, L.site σ p
  define : ∀ {σ τ s n f}, L.inv σ → L.value σ (.memory s n) → L.value σ f → L.Bindable σ f →
    σ.define s n f = .ok τ → L.Later σ τ
  remove : ∀ {σ τ s n}, L.inv σ → L.value σ (.memory s n) → σ.remove s n = .ok τ → L.Later σ τ
  setReturned : ∀ {σ s t}, L.inv σ → L.scope σ s → L.value σ t → L.Later σ (σ.setReturned s t)
  breakOff : ∀ {σ s}, L.inv σ → L.scope σ s → L.Later σ (σ.breakOff s)
  newBlock : ∀ {σ p}, L.inv σ → L.scope σ p →
    let τ := σ.alloc { kind := .block false, parent := some p }
    L.Later σ τ ∧ L.scope τ σ.size
  newCall : ∀ {σ c p} {a : Activation}, L.inv σ → L.value σ (.block c p) →
    (∀ t ∈ a.args, L.value σ t) → (∀ t ∈ a.yieldBlock, L.block σ t) →
    (∀ s ∈ a.site, L.site σ s) →
    let τ := σ.alloc { kind := .call a, parent := some p }
    L.Later σ τ ∧ L.scope τ σ.size
  newList : ∀ {σ xs}, L.inv σ → (∀ t ∈ xs, L.value σ t) →
    let τ := σ.alloc { kind := .list xs }
    L.Later σ τ ∧ L.value τ (.scope σ.size)

variable {L} {σ τ : Store} {m : Eval α} {P : Store → α → Prop}
  {Q : Store → β → Prop}

namespace Meets

theorem and (h : L.Meets σ m P) {Q : Store → α → Prop} (h' : L.Meets σ m Q) :
    L.Meets σ m fun τ a => P τ a ∧ Q τ a :=
  fun st hst => ⟨(h st hst).1, fun a ha => ⟨(h st hst).2 a ha, (h' st hst).2 a ha⟩⟩

theorem start (U : L.Upheld) (h : ∀ τ, L.Later σ τ → L.Meets τ m P) : L.Meets σ m P :=
  fun st hst => h st.store hst st ⟨U.refl _, hst.inv⟩

theorem bind {k : α → Eval β} (U : L.Upheld) (hm : L.Meets σ m P)
    (hk : ∀ τ, L.Later σ τ → ∀ a, P τ a → L.Meets τ (k a) Q) :
    L.Meets σ (m >>= k) Q := by
  intro st hst
  obtain ⟨hl, ha⟩ := hm st hst
  rw [bind_apply]
  rcases h : m st with ⟨e | a, st'⟩
  · exact ⟨by simpa [h] using hl, by simp⟩
  · simp only [h] at hl ha ⊢
    have hστ : L.Later σ st'.store := ⟨U.trans hst.step hl.step, hl.inv⟩
    obtain ⟨hl', ha'⟩ := hk _ hστ a (ha a rfl) st' ⟨U.refl _, hl.inv⟩
    exact ⟨⟨U.trans hl.step hl'.step, hl'.inv⟩, ha'⟩

theorem bind_quiet {k : α → Eval β} (U : L.Upheld) (hm : Quiet m) (hk : ∀ a, L.Meets σ (k a) Q) :
    L.Meets σ (m >>= k) Q := by
  intro st hst
  rw [bind_apply]
  rcases h : m st with ⟨e | a, st'⟩
  all_goals
    obtain hs : st'.store = st.store := by simpa [h] using hm st
    rw [← hs] at hst ⊢
  · exact ⟨⟨U.refl _, hst.inv⟩, by simp⟩
  · exact hk a st' hst

theorem of_quiet (U : L.Upheld) (hm : Quiet m) (hp : ∀ τ, L.Later σ τ → ∀ a, P τ a) :
    L.Meets σ m P := by
  intro st hst
  rw [hm st]
  exact ⟨⟨U.refl _, hst.inv⟩, fun a _ => hp _ hst a⟩

theorem pure (U : L.Upheld) {a : α} (h : ∀ τ, L.Later σ τ → P τ a) :
    L.Meets σ (Pure.pure a) P := by
  intro st hst
  refine ⟨⟨U.refl _, hst.inv⟩, fun b hb => ?_⟩
  obtain rfl : a = b := by simpa [pure_apply] using hb
  exact h _ hst

theorem fail (U : L.Upheld) (f : Fault) : L.Meets σ (Eval.fail f) P :=
  fun _ hst => ⟨⟨U.refl _, hst.inv⟩, fun _ h => by simp [fail_apply] at h⟩

theorem ofExcept (U : L.Upheld) {r : Except Fault α}
    (h : ∀ τ, L.Later σ τ → ∀ a, r = .ok a → P τ a) : L.Meets σ (Eval.ofExcept r) P := by
  cases r with
  | ok a => exact pure U fun τ hτ => h τ hτ a rfl
  | error f => exact fail U f

theorem getStore (U : L.Upheld) : L.Meets σ Eval.getStore fun τ υ => υ = τ := by
  intro st hst
  refine ⟨⟨U.refl _, hst.inv⟩, fun a h => ?_⟩
  simpa [getStore_apply, eq_comm] using h

theorem lookup (U : L.Upheld) {s : ScopeId} {n : String} (hs : L.value σ (.memory s n)) :
    L.Meets σ (Eval.lookup s n) fun τ r => ∀ f ∈ r, L.value τ f := by
  refine bind U (getStore U) fun τ hτ _ h => ?_
  subst h
  refine ofExcept U fun υ hυ r hr f hf => ?_
  have hm := U.value_later hτ.step hs
  exact U.value_later hυ.step (U.found hτ.inv hm (by rw [hr, Option.mem_def.1 hf]))

theorem updateStore (U : L.Upheld) {f : Store → Except Fault Store}
    (h : ∀ τ, L.Later σ τ → ∀ υ, f τ = .ok υ → L.Later τ υ) :
    L.Meets σ (Eval.updateStore f) fun _ _ => True := by
  intro st hst
  refine ⟨?_, fun _ _ => trivial⟩
  rw [updateStore_apply]
  cases hf : f st.store with
  | ok υ => exact h _ hst υ hf
  | error e => exact ⟨U.refl _, hst.inv⟩

theorem modifyStore {f : Store → Store} (h : ∀ τ, L.Later σ τ → L.Later τ (f τ)) :
    L.Meets σ (Eval.modifyStore f) fun _ _ => True :=
  fun _ hst => ⟨h _ hst, fun _ _ => trivial⟩

theorem alloc {c : Scope} {P : Store → ScopeId → Prop}
    (h : ∀ τ, L.Later σ τ → L.Later τ (τ.alloc c) ∧ P (τ.alloc c) τ.size) :
    L.Meets σ (Eval.alloc c) P := by
  intro st hst
  obtain ⟨hl, hp⟩ := h _ hst
  refine ⟨hl, fun s hs => ?_⟩
  obtain rfl : st.store.size = s := by simpa [alloc_apply] using hs
  exact hp

theorem newList (U : L.Upheld) {xs : List Term} (h : ∀ t ∈ xs, L.value σ t) :
    L.Meets σ (Eval.newList xs) L.value := by
  refine bind U (alloc (P := fun τ s => L.value τ (.scope s)) fun τ hτ => ?_) fun τ hτ s hs => ?_
  · exact U.newList hτ.inv fun t ht => U.value_later hτ.step (h t ht)
  · exact pure U fun υ hυ => U.value_later hυ.step hs

theorem underFrame {frame : Frame} (h : L.Meets σ m P) :
    L.Meets σ (Eval.underFrame frame m) P := by
  intro st hst
  obtain ⟨hl, ha⟩ := h (st.push frame) hst
  rw [underFrame_apply]
  exact ⟨hl, fun a hr => ha a (ok_of_withTrace hr)⟩

theorem deeper (h : L.Meets σ m P) : L.Meets σ (Eval.deeper m) P := by
  intro st hst
  obtain ⟨hl, ha⟩ := h st.enter hst
  have hs : ((Eval.deeper m) st).2.store = (m st.enter).2.store := by
    rw [deeper_apply]
    exact store_noteBound _ _
  rw [hs]
  refine ⟨hl, fun a hr => ha a ?_⟩
  rw [deeper_apply] at hr
  exact ok_of_withBound hr

end Meets

end Law

end BlockScript.Proofs
