import BlockScript.Proofs.Law

namespace BlockScript.Proofs.Law

open Eval Evaluator Running

variable {L : Law} {σ : Store} {call : Caller}

section Builtins

variable {i : Invocation}

theorem Upheld.null (U : L.Upheld) : L.value σ .null := U.literal (.inl rfl)

theorem Upheld.bool (U : L.Upheld) (b : Bool) : L.value σ (.bool b) :=
  U.literal (.inr (.inl ⟨b, rfl⟩))

theorem Upheld.value_getD (U : L.Upheld) {ts : List Term} (h : ∀ t ∈ ts, L.value σ t) (k : Nat) :
    L.value σ (ts.getD k .null) := by
  rw [List.getD_eq_getElem?_getD]
  cases hk : ts[k]? with
  | none => exact U.null
  | some t => exact h t (List.mem_of_getElem? hk)

theorem Upheld.value_first (U : L.Upheld) (h : ∀ t ∈ i.args, L.value σ t) : L.value σ i.first := by
  cases hi : i.args with
  | nil => simpa [Invocation.first, hi] using U.null
  | cons t ts => simpa [Invocation.first, hi] using h t (by simp [hi])

theorem Served.later (U : L.Upheld) {τ : Store} (hτ : L.Later σ τ) (hi : L.Served σ i) :
    L.Served τ i where
  args t ht := U.value_later hτ.step (hi.args t ht)
  block t ht := U.block_later hτ.step (hi.block t ht)
  scope s hs := U.scope_later hτ.step (hi.scope s hs)

theorem Served.callable (U : L.Upheld) (hi : L.Served σ i) {f : Term} (hf : L.value σ f)
    (args : List Term) (ha : ∀ t ∈ args, L.value σ t) : L.Callable σ f { i with args } where
  function := hf
  args := ha
  block := hi.block
  site s hs := U.site_of_scope (hi.scope s hs)
  scope := .inr hi.scope

theorem Served.callable_plainly (U : L.Upheld) (hi : L.Served σ i) {f : Term} (hf : L.value σ f)
    (args : List Term) (ha : ∀ t ∈ args, L.value σ t) : L.Callable σ f (i.plainly args) where
  function := hf
  args := ha
  block := by simp [Invocation.plainly]
  site s hs := U.site_of_scope (hi.scope s hs)
  scope := .inr hi.scope

theorem memoryArg_meets (U : L.Upheld) (hi : L.Served σ i) (op : Builtin) :
    L.Meets σ (op.memoryArg i) fun τ p => L.value τ (.memory p.1 p.2) := by
  rw [Builtin.memoryArg]
  split
  next s n _ h =>
      exact .pure U fun τ hτ => U.value_later hτ.step (hi.args _ (by simp [h]))
  next => exact .fail U _
  next => exact .bind_quiet U (.typeName _) fun _ => .fail U _

theorem blockArg_meets (U : L.Upheld) (hi : L.Served σ i) (op : Builtin) :
    L.Meets σ (op.blockArg i) L.block := by
  rw [Builtin.blockArg]
  split
  next b h => exact .pure U fun τ hτ => U.block_later hτ.step (hi.block b h)
  next => exact .fail U _

theorem activation_meets (U : L.Upheld) (hi : L.Served σ i) (op : Builtin) :
    L.Meets σ (op.activation i) fun τ a =>
      (∀ t ∈ a.args, L.value τ t) ∧ (∀ t ∈ a.yieldBlock, L.block τ t) ∧
        ∀ p ∈ a.site, L.site τ p := by
  refine .bind U (.getStore U) fun τ hτ ρ hρ => ?_
  subst hρ
  split
  next a h =>
      obtain ⟨c, hc, ha⟩ := Option.bind_eq_some_iff.1 h
      obtain ⟨s, hs, hc⟩ := Option.bind_eq_some_iff.1 hc
      have hk : (ρ.get c).kind = .call a := by
        cases hk : (ρ.get c).kind <;> simp_all [ScopeKind.activation?]
      have hl := U.activation hτ.inv (U.scope_later hτ.step (hi.scope s hs)) hc hk
      refine .pure U fun υ hυ => ⟨fun t ht => ?_, fun t ht => ?_, fun p hp => ?_⟩
      · exact U.value_later hυ.step (hl.1 t ht)
      · exact U.block_later hυ.step (hl.2.1 t ht)
      · exact U.site_later hυ.step (hl.2.2 p hp)
  next => exact .fail U _

theorem indexArg_meets (U : L.Upheld) :
    L.Meets σ (Builtin.indexArg i) fun _ _ => True := by
  rw [Builtin.indexArg]
  split
  · exact .pure U fun _ _ => trivial
  · exact .fail U _
  · exact .bind_quiet U (.typeName _) fun _ => .fail U _

theorem tagArg_meets (U : L.Upheld) : L.Meets σ (Builtin.tagArg i) fun _ _ => True := by
  rw [Builtin.tagArg]
  split
  · split
    · exact .pure U fun _ _ => trivial
    · exact .fail U _
  · exact .bind_quiet U (.typeName _) fun _ => .fail U _
  · exact .pure U fun _ _ => trivial

theorem quiet_checkTag (tag : Tag) (t : Term) : Quiet (Builtin.checkTag tag t) := by
  rw [Builtin.checkTag]
  split
  · exact .pure _
  · exact .bind (.typeName _) fun _ => .bind (.source _) fun _ => .fail _
  · exact .bind (.inspect _) fun _ => .bind (.className _) fun _ => .fail _

theorem quiet_checkIndex (index : Int) : Quiet (Builtin.checkIndex index) := by
  rw [Builtin.checkIndex]
  split
  · exact .bind (.numeral _) fun _ => .fail _
  · exact .pure _

theorem Bindable.var {v : Term} {c : Bool} {n : String} {k : Nat} : L.Bindable σ (.var v c n k) :=
  .inl ⟨v, c, n, k, rfl⟩

theorem define_meets (U : L.Upheld) {s : ScopeId} {n : String} {f : Term}
    (hm : L.value σ (.memory s n)) (hf : L.value σ f) (hb : L.Bindable σ f) :
    L.Meets σ (Eval.define s n f) fun _ _ => True :=
  .updateStore U fun _ hτ _ h => U.define hτ.inv (U.value_later hτ.step hm)
    (U.value_later hτ.step hf) (hb.imp_right (U.block_later hτ.step)) h

theorem giveValue_meets (U : L.Upheld) (hi : L.Served σ i) :
    L.Meets σ (Builtin.giveValue i) fun _ _ => True := by
  rw [Builtin.giveValue]
  split
  next s hs =>
      refine .modifyStore fun τ hτ => ?_
      have hiτ := hi.later U hτ
      exact U.setReturned hτ.inv (hiτ.scope s hs) (U.value_first hiτ.args)
  next => exact .pure U fun _ _ => trivial

theorem stop_meets (U : L.Upheld) (hi : L.Served σ i) :
    L.Meets σ (Builtin.stop i) fun _ _ => True := by
  rw [Builtin.stop]
  split
  next s hs =>
      exact .modifyStore fun τ hτ => U.breakOff hτ.inv (U.scope_later hτ.step (hi.scope s hs))
  next => exact .pure U fun _ _ => trivial

theorem bindValue_meets (U : L.Upheld) (hc : L.Calls call) (hi : L.Served σ i) (op : Builtin)
    (constant : Bool) : L.Meets σ (Builtin.bindValue call op constant i) L.value := by
  refine .bind U (memoryArg_meets U hi op) fun τ hτ p hp => ?_
  have hiτ := hi.later U hτ
  refine .bind U (blockArg_meets U hiτ op) fun υ hυ body hbody => ?_
  have hiυ := hiτ.later U hυ
  have hcall := hc υ body _ (hiυ.callable_plainly U (U.value_of_block hbody) [] (by simp))
  refine .bind U hcall fun ρ hρ v hv => ?_
  have hm := U.value_later hρ.step (U.value_later hυ.step hp)
  refine .bind_quiet U .freshMark fun mark => ?_
  refine .bind U (define_meets U hm (U.var.2 hv) .var) fun _ _ _ _ => ?_
  exact .pure U fun _ _ => U.null

theorem builtin_meets (U : L.Upheld) (hc : L.Calls call) (hi : L.Served σ i) (b : Builtin) :
    L.Meets σ (b.run call i) L.value := by
  cases b with
  | fn =>
      refine .bind U (memoryArg_meets U hi .fn) fun τ hτ p hp => ?_
      refine .bind U (blockArg_meets U (hi.later U hτ) .fn) fun υ hυ body hbody => ?_
      refine .bind U (define_meets U (U.value_later hυ.step hp) (U.value_of_block hbody)
        (.inr hbody)) fun _ _ _ _ => ?_
      exact .pure U fun _ _ => U.null
  | letVar => exact bindValue_meets U hc hi .letVar false
  | letConst => exact bindValue_meets U hc hi .letConst true
  | del =>
      refine .bind U (memoryArg_meets U hi .del) fun τ hτ p hp => ?_
      refine .bind U (P := fun _ _ => True) (.updateStore U fun υ hυ ρ hρ => ?_) fun _ _ _ _ => ?_
      · exact U.remove hυ.inv (U.value_later hυ.step hp) hρ
      · exact .pure U fun _ _ => U.null
  | call =>
      refine .bind U (memoryArg_meets U hi .call) fun τ hτ p hp => ?_
      have hiτ := hi.later U hτ
      refine .bind U (.lookup U hp) fun υ hυ r hr => ?_
      split
      next f =>
          have hiυ := hiτ.later U hυ
          exact hc υ f _ (hiυ.callable U (hr f rfl) _ fun t ht => hiυ.args t (List.mem_of_mem_tail ht))
      next => exact .fail U _
  | exist =>
      refine .bind U (memoryArg_meets U hi .exist) fun τ hτ p hp => ?_
      refine .bind_quiet U (.binds _ _) fun _ => ?_
      exact .pure U fun _ _ => U.bool _
  | param =>
      refine .bind U (indexArg_meets U) fun τ hτ index _ => ?_
      refine .bind U (tagArg_meets U) fun υ hυ tag _ => ?_
      have hiυ := (hi.later U hτ).later U hυ
      refine .bind_quiet U (quiet_checkIndex index) fun _ => ?_
      refine .bind U (activation_meets U hiυ .param) fun ρ _ a ha => ?_
      refine .bind_quiet U (quiet_checkTag _ _) fun _ => ?_
      exact .pure U fun ρ' hρ' => U.value_later hρ'.step (U.value_getD ha.1 _)
  | args =>
      exact .bind U (activation_meets U hi .args) fun τ _ a ha => .newList U ha.1
  | yield =>
      refine .bind U (activation_meets U hi .yield) fun τ hτ a ha => ?_
      have hiτ := hi.later U hτ
      split
      next b hb =>
          have hblock := ha.2.1 b hb
          refine hc τ b _ ⟨U.value_of_block hblock, hiτ.args, hiτ.block, ha.2.2, ?_⟩
          exact (U.yields hblock).imp_right fun h s hs => h s (ha.2.2 s hs)
      next => exact .fail U _
  | ret =>
      refine .bind U (giveValue_meets U hi) fun τ hτ _ _ => ?_
      have hiτ := hi.later U hτ
      refine .bind U (stop_meets U hiτ) fun υ hυ _ _ => ?_
      exact .pure U fun _ hρ => U.value_first (i := i) ((hiτ.later U hυ).later U hρ).args
  | pass =>
      refine .bind U (giveValue_meets U hi) fun τ hτ _ _ => ?_
      exact .pure U fun _ hυ => U.value_first (i := i) ((hi.later U hτ).later U hυ).args
  | print =>
      refine .bind_quiet U (.displayLine _) fun _ => .bind_quiet U (.write _) fun _ => ?_
      exact .pure U fun _ _ => U.null

end Builtins

section Terms

variable {s : ScopeId}

mutual

theorem evalTerm_meets (U : L.Upheld) (hc : L.Calls call) {σ : Store} (hs : L.scope σ s) :
    ∀ t, L.Meets σ (evalTerm call s t) L.value
  | .null | .bool _ | .num _ | .str _ =>
      .bind_quiet U (.visit _) fun _ => .pure U fun _ _ => U.literal (by simp)
  | .ref _ none _ =>
      .bind_quiet U (.visit _) fun _ => .pure U fun _ hτ => U.memory (U.scope_later hτ.step hs)
  | .ref n (some target) _ => by
      refine .bind_quiet U (.visit _) fun _ => ?_
      refine .bind U (evalTerm_meets U hc hs target) fun τ _ v hv => ?_
      split
      next => exact .pure U fun _ hυ => U.target (U.value_later hυ.step hv)
      next => exact .bind_quiet U (.typeName _) fun _ => .fail U _
  | .call n args block => by
      refine .bind_quiet U (.visit _) fun _ => ?_
      refine .bind U (.lookup U (U.memory hs)) fun τ hτ r hr => ?_
      have hsτ := U.scope_later hτ.step hs
      split
      next => exact .fail U _
      next f =>
          refine .bind U (evalArgs_meets U hc hsτ args) fun υ hυ vs hvs => ?_
          have hsυ := U.scope_later hυ.step hsτ
          refine .underFrame (hc υ f _ ⟨U.value_later hυ.step (hr f rfl), hvs, ?_, ?_, .inr ?_⟩)
          · rintro b hb
            obtain ⟨c, -, rfl⟩ := Option.map_eq_some_iff.1 hb
            exact U.closure hsυ
          · rintro p hp
            obtain rfl := Option.some.inj hp
            exact U.site_of_scope hsυ
          · rintro p hp
            obtain rfl := Option.some.inj hp
            exact hsυ
  | .code _ => .bind_quiet U (.visit _) fun _ => .fail U _
  | .memory _ _ | .scope _ | .float _ _ | .items _ | .var _ _ _ _ | .block _ _ | .native _ =>
      .bind_quiet U (.visit _) fun _ => .bind_quiet U (.inspect _) fun _ =>
        .bind_quiet U (.className _) fun _ => .fail U _

theorem evalArgs_meets (U : L.Upheld) (hc : L.Calls call) {σ : Store} (hs : L.scope σ s) :
    ∀ ts, L.Meets σ (evalArgs call s ts) fun τ vs => ∀ t ∈ vs, L.value τ t
  | [] => .pure U fun _ _ => by simp
  | t :: ts => by
      refine .bind U (evalTerm_meets U hc hs t) fun τ hτ v hv => ?_
      refine .bind U (evalArgs_meets U hc (U.scope_later hτ.step hs) ts) fun υ hυ vs hvs => ?_
      refine .pure U fun ρ hρ w hw => U.value_later hρ.step ?_
      rcases List.mem_cons.1 hw with rfl | hw
      · exact U.value_later hυ.step hv
      · exact hvs w hw

end

theorem runStatements_meets (U : L.Upheld) (hc : L.Calls call) (hs : L.scope σ s)
    {last : Term} (hl : L.value σ last) (ts : List Term) :
    L.Meets σ (runStatements call s last ts) L.value := by
  induction ts generalizing σ last with
  | nil => exact .pure U fun _ hτ => U.value_later hτ.step hl
  | cons t ts ih =>
      rw [runStatements]
      refine .bind_quiet U (.isBroken s) fun broken => ?_
      split
      · exact .pure U fun _ hτ => U.value_later hτ.step hl
      · refine .bind U (evalTerm_meets U hc hs t) fun τ hτ v hv => ?_
        exact ih (U.scope_later hτ.step hs) hv

theorem returned_meets (U : L.Upheld) (hs : L.scope σ s) :
    L.Meets σ (returned s) fun τ r => ∀ v ∈ r, L.value τ v := by
  refine .bind U (.getStore U) fun τ hτ ρ hρ => ?_
  subst hρ
  refine .pure U fun υ hυ v hv => U.value_later hυ.step ?_
  exact U.returned hτ.inv (U.scope_later hτ.step hs) hv

theorem runIn_meets (U : L.Upheld) (hc : L.Calls call) (hs : L.scope σ s) (c : Code) :
    L.Meets σ (runIn call s c) L.value := by
  refine .bind_quiet U (.log _) fun _ => ?_
  refine .bind U (runStatements_meets U hc hs U.null c.statements) fun τ hτ last hl => ?_
  refine .bind U (returned_meets U (U.scope_later hτ.step hs)) fun υ hυ r hr => ?_
  refine .pure U fun ρ hρ => U.value_later hρ.step ?_
  cases r with
  | none => exact U.value_later hυ.step hl
  | some v => exact hr v rfl

theorem run_meets (U : L.Upheld) (hc : L.Calls call) (hs : L.scope σ s) (c : Code) :
    L.Meets σ (run call c s) L.value := by
  refine .bind U (.alloc (P := L.scope) fun τ hτ => ?_) fun τ _ b hb => runIn_meets U hc hb c
  exact U.newBlock hτ.inv (U.scope_later hτ.step hs)

end Terms

section Calls

variable {host : Host}

theorem bindParams_meets (U : L.Upheld) {s : ScopeId} {ps : List (String × Term)}
    (hs : L.scope σ s) (hv : ∀ p ∈ ps, L.value σ p.2) :
    L.Meets σ (bindParams s ps) fun _ _ => True := by
  induction ps generalizing σ with
  | nil => exact .pure U fun _ _ => trivial
  | cons p ps ih =>
      refine .bind_quiet U .freshMark fun _ => ?_
      refine .bind U (define_meets U (U.memory hs) (U.var.2 (hv p (by simp))) .var)
        fun τ hτ _ _ => ?_
      exact ih (U.scope_later hτ.step hs) fun q hq => U.value_later hτ.step (hv q (by simp [hq]))

def Enters (L : Law) (enter : BlockCaller) : Prop :=
  ∀ σ c p i, L.Callable σ (.block c p) i → L.Meets σ (enter c p i) L.value

theorem Callable.later (U : L.Upheld) {τ : Store} (hτ : L.Later σ τ) {f : Term} {i : Invocation}
    (h : L.Callable σ f i) : L.Callable τ f i where
  function := U.value_later hτ.step h.function
  args t ht := U.value_later hτ.step (h.args t ht)
  block t ht := U.block_later hτ.step (h.block t ht)
  site s hs := U.site_later hτ.step (h.site s hs)
  scope := h.scope.imp_right fun h s hs => U.scope_later hτ.step (h s hs)

theorem Callable.served {g : Native} {i : Invocation} (h : L.Callable σ (.native g) i) :
    L.Served σ i where
  args := h.args
  block := h.block
  scope := h.scope.resolve_left (by simp [IsBlock])

theorem quiet_announce (f : Term) (i : Invocation) : Quiet (announce f i) :=
  .bind (.record _) fun _ => .bind (.className f) fun _ => .log _

theorem dispatch_calls (U : L.Upheld) (hh : L.ObeyedBy host) {enter : BlockCaller}
    (he : L.Enters enter) (depth : Nat) : L.Calls (dispatch host enter depth) := by
  induction depth with
  | zero => exact fun σ f i _ => .fail U _
  | succ depth ih =>
      intro σ f i h
      refine .bind_quiet U (quiet_announce f i) fun _ => ?_
      split
      next v _ _ _ => exact .pure U fun _ hτ => U.value_later hτ.step (U.var.1 h.function)
      next c p => exact he σ c p i h
      next g =>
          cases hg : g.impl with
          | builtin b => exact builtin_meets U ih h.served b
          | host key => exact hh _ ih key σ i h.served
      next => exact .bind_quiet U (.inspect _) fun _ => .bind_quiet U (.className _) fun _ => .fail U _

theorem enterBlock_enters (U : L.Upheld) (hh : L.ObeyedBy host) (room : Nat) :
    L.Enters (enterBlock host room) := by
  -- on the levels that are left: what the block calls is entered with one less
  induction room with
  | zero => exact fun σ c p i _ => .fail U _
  | succ room ih =>
      intro σ c p i h
      rw [enterBlock]
      refine .bind_quiet U .get fun st => ?_
      split
      · exact .fail U _
      refine .bind U (.alloc (P := L.scope) fun τ hτ => ?_) fun τ hτ s hs => ?_
      · have hτ' := h.later U hτ
        exact U.newCall hτ.inv hτ'.function hτ'.args hτ'.block hτ'.site
      have hargs := (h.later U hτ).args
      refine .bind U (bindParams_meets U hs fun q hq => ?_) fun υ hυ _ _ => ?_
      · exact hargs _ (List.of_mem_zip hq).2
      refine .bind_quiet U (.log _) fun _ => .deeper ?_
      exact run_meets U (fun σ f i => dispatch_calls U hh ih _ σ f i) (U.scope_later hυ.step hs) c

theorem caller_calls (U : L.Upheld) (hh : L.ObeyedBy host) : L.Calls (caller host) := by
  intro σ f i h
  refine .bind_quiet U .get fun st => ?_
  exact dispatch_calls U hh (enterBlock_enters U hh _) _ σ f i h

/-- The evaluators that work in a run: the outermost one, those that run the code of blocks, and those
that natives are given to call back. -/
inductive Behind (host : Host) : Caller → Prop
  | outermost : Behind host (caller host)
  | block (room : Nat) : Behind host (callWith host (enterBlock host room))
  | native (room budget : Nat) : Behind host (dispatch host (enterBlock host room) budget)

theorem Behind.calls (hc : Behind host call) (U : L.Upheld) (hh : L.ObeyedBy host) :
    L.Calls call := by
  cases hc with
  | outermost => exact caller_calls U hh
  | block room => exact fun σ f i h => dispatch_calls U hh (enterBlock_enters U hh room) _ σ f i h
  | native room budget => exact dispatch_calls U hh (enterBlock_enters U hh room) budget

def Asks (L : Law) (σ : Store) : Request → Prop
  | .eval _ s | .run _ s | .runIn _ s => L.scope σ s
  | .call f i => L.Callable σ f i

theorem askedOf_meets (U : L.Upheld) (hh : L.ObeyedBy host) (hc : Behind host call) {q : Request}
    (hq : L.Asks σ q) : L.Meets σ (q.askedOf call) L.value := by
  have hcalls := hc.calls U hh
  cases q with
  | eval t s =>
      refine .bind_quiet U (.visit t) fun _ => ?_
      split
      · exact run_meets U hcalls hq _
      · exact evalTerm_meets U hcalls hq _
  | run c s => exact run_meets U hcalls hq c
  | runIn c s => exact runIn_meets U hcalls hq c
  | call f i => exact hcalls σ f i hq

structure Dynamic (L : Law) : Prop where
  upheld : L.Upheld
  inv : ∀ σ, L.inv σ
  value : ∀ σ t, L.value σ t
  block : ∀ σ t, L.block σ t
  scope : ∀ σ s, L.scope σ s
  plain : ∀ σ p, L.step σ (σ.alloc { parent := p })
  mixins : ∀ σ s ms, L.step σ (σ.setMixins s ms)
  reset : ∀ σ s, L.step σ (σ.reset s)

namespace Dynamic

variable (D : L.Dynamic) (hh : L.ObeyedBy host) (hc : Behind host call)
include D

theorem step_of_meets {m : Eval Term} {st : State} (h : L.Meets st.store m L.value) :
    L.step st.store (m st).2.store :=
  (h st ⟨D.upheld.refl _, D.inv _⟩).1.step

theorem asks (σ : Store) (q : Request) : L.Asks σ q := by
  cases q with
  | call f i => exact
      { function := D.value _ _
        args := fun _ _ => D.value _ _
        block := fun _ _ => D.block _ _
        site := fun _ _ => D.upheld.site_of_scope (D.scope _ _)
        scope := .inr fun _ _ => D.scope _ _ }
  | _ => exact D.scope σ _

include hh hc

theorem called (f : Term) (i : Invocation) (st : State) : L.step st.store (call f i st).2.store :=
  D.step_of_meets (hc.calls D.upheld hh _ _ _ (D.asks st.store (.call f i)))

/-- Whatever the evaluator is asked for, at any depth of a run, it changes stores as the law says. -/
theorem asked (q : Request) (st : State) : L.step st.store (q.askedOf call st).2.store :=
  D.step_of_meets (askedOf_meets D.upheld hh hc (D.asks st.store q))

end Dynamic

end Calls

end BlockScript.Proofs.Law
