import BlockScript.Proofs.Existence
import BlockScript.Proofs.Protection

namespace BlockScript.Proofs.Operators

open Eval Faulting Running
open Existence (call_run)
open Protection (bindValue_apply)

variable {α β : Type} {call : Caller} {b : Builtin} {i : Invocation} {st st' : State} {σ : Store}
  {f : Fault} {r : Report}

def activation? (i : Invocation) (σ : Store) : Option Activation :=
  (i.scope.bind σ.callScope?).bind fun c => (σ.get c).kind.activation?

def callee? (b : Builtin) (i : Invocation) (σ : Store) : Option (Term × Invocation) :=
  match b, i.args with
  | .letVar, .memory _ _ :: _ | .letConst, .memory _ _ :: _ =>
      i.block.map fun body => (body, i.plainly [])
  | .call, .memory s n :: rest => match σ.lookup s n with
      | .ok (some f) => some (f, { i with args := rest })
      | _ => none
  | .yield, _ => do
      let a ← activation? i σ
      return (← a.yieldBlock, { i with scope := a.site })
  | _, _ => none

/-- The faults that reach a builtin from what does not know it: from the scope that a definition goes
to, and from the tags that `p` compares with. -/
inductive Nameless (i : Invocation) (σ : Store) : Builtin → Fault → Prop
  | refused {b s n rest t f} (hb : b ∈ [.fn, .letVar, .letConst]) (hargs : i.args = .memory s n :: rest)
      (h : σ.define s n t = .error f) : Nameless i σ b f
  | tagName {t text rest} (hargs : i.args = t :: .str text :: rest) (h : Tag.ofName? text = none) :
      Nameless i σ .param (.unknownTag (Text.quoted text))
  | foreign {a t shown} (ha : activation? i σ = some a) (ht : t ∈ a.args) (h : Tag.of? t = none) :
      Nameless i σ .param (.notAValue shown (σ.className t))

/-- The report of the fault tells what was expected and what there was instead, and names the builtin
unless the fault is nameless. -/
def Blames (b : Builtin) (i : Invocation) (σ : Store) (f : Fault) : Prop :=
  ∀ r, f.report? = some r →
    r.expected.isSome ∧ r.actual.isSome ∧ (r.operator = some b.name ↔ ¬Nameless i σ b f)

theorem Nameless.operator (h : Nameless i σ b f) (hr : f.report? = some r) :
    r.operator = none ∧ r.expected.isSome ∧ r.actual.isSome := by
  cases h with
  | refused hb hargs h =>
      cases define_refused _ _ _ _ _ h with
      | constant | notVariable | outOfRange =>
          obtain rfl := Option.some.inj hr
          exact ⟨rfl, rfl, rfl⟩
      | overlong => cases hr
  | tagName | foreign =>
      obtain rfl := Option.some.inj hr
      exact ⟨rfl, rfl, rfl⟩

theorem Nameless.blames (h : Nameless i σ b f) : Blames b i σ f := by
  intro r hr
  obtain ⟨hop, he, ha⟩ := h.operator hr
  exact ⟨he, ha, iff_of_false (by simp [hop]) fun hn => hn h⟩

namespace Blames

theorem named {expected actual : String} {name : Option String} {kind : Kind} {message : String}
    (h : f.report? = some ⟨kind, message, b.name, expected, actual, name⟩) : Blames b i σ f := by
  intro r hr
  obtain rfl := Option.some.inj (h.symm.trans hr)
  refine ⟨rfl, rfl, iff_of_true rfl fun hn => ?_⟩
  cases (hn.operator hr).1

theorem hosted (h : Hosted f) : Blames b i σ f := by
  obtain ⟨cause, message, rfl⟩ := h
  rintro r ⟨⟩

end Blames

def Fails (G : Store → Fault → Prop) (m : Eval α) (st : State) : Prop :=
  ∀ e st', m st = (.error e, st') → G st'.store e.fault

namespace Fails

variable {G : Store → Fault → Prop}

theorem total {m : Eval α} {a : α} (h : m st = (.ok a, st')) : Fails G m st := by
  intro e st'' he
  rw [h] at he
  cases he

theorem fail (h : G st.store f) : Fails G (Eval.fail f : Eval α) st := by
  rintro e st' ⟨⟩
  exact h

theorem bind {m : Eval α} {k : α → Eval β} (hm : Fails G m st)
    (hk : ∀ a st', m st = (.ok a, st') → Fails G (k a) st') : Fails G (m >>= k) st := by
  intro e st' he
  rw [bind_apply] at he
  rcases h : m st with ⟨e' | a, st₁⟩
  · rw [h] at he
    cases he
    exact hm _ _ h
  · rw [h] at he
    exact hk a st₁ h e st' he

theorem ofExcept {r : Except Fault α} (h : Faults (G st.store) r) :
    Fails G (Eval.ofExcept r) st := by
  cases r with
  | ok a => exact total rfl
  | error f => exact fail (h f rfl)

theorem reads {read : Store → Except Fault α} (h : Faults (G st.store) (read st.store)) :
    Fails G (getStore >>= fun σ => Eval.ofExcept (read σ)) st := by
  refine bind (total rfl) fun σ st' hσ => ?_
  cases hσ
  exact ofExcept h

theorem updates {write : Store → Except Fault Store} (h : Faults (G st.store) (write st.store)) :
    Fails G (updateStore write) st :=
  (reads h).bind fun _ _ _ => total rfl

end Fails

theorem reads_ok {read : Store → Except Fault α} {a : α}
    (h : (getStore >>= fun σ => ofExcept (read σ)) st = (.ok a, st')) :
    st' = st ∧ read st.store = .ok a := by
  rw [bind_apply, getStore_apply] at h
  simp only [ofExcept_apply] at h
  cases hr : read st.store with
  | ok a =>
      rw [hr] at h
      cases h
      exact ⟨rfl, rfl⟩
  | error f =>
      rw [hr] at h
      cases h

section Parts

theorem fails_hosted {read : Store → Except Fault α} (h : ∀ σ, Faults Hosted (read σ)) :
    Fails (Blames b i) (getStore >>= fun σ => ofExcept (read σ)) st :=
  .reads fun f hf => .hosted (h st.store f hf)

theorem memoryArg_fails : Fails (Blames b i) (b.memoryArg i) st := by
  rw [Builtin.memoryArg]
  split
  · exact .total rfl
  · exact .fail (.named rfl)
  · exact (fails_hosted fun σ => typeName_hosted σ _).bind fun _ _ _ => .fail (.named rfl)

theorem memoryArg_ok {p : ScopeId × String} (h : b.memoryArg i st = (.ok p, st')) :
    st' = st ∧ ∃ rest, i.args = .memory p.1 p.2 :: rest := by
  rw [Builtin.memoryArg.eq_def] at h
  cases hargs : i.args with
  | nil =>
      rw [hargs] at h
      cases h
  | cons t rest =>
      rw [hargs] at h
      cases t with
      | memory s n =>
          cases h
          exact ⟨rfl, rest, rfl⟩
      | _ =>
          simp only [bind_apply] at h
          split at h <;> cases h

theorem blockArg_fails : Fails (Blames b i) (b.blockArg i) st := by
  rw [Builtin.blockArg]
  split
  · exact .total rfl
  · exact .fail (.named rfl)

theorem blockArg_ok {body : Term} (h : b.blockArg i st = (.ok body, st')) :
    st' = st ∧ i.block = some body := by
  rw [Builtin.blockArg.eq_def] at h
  cases hbody : i.block with
  | some body =>
      rw [hbody] at h
      cases h
      exact ⟨rfl, rfl⟩
  | none =>
      rw [hbody] at h
      cases h

theorem activation_apply (op : Builtin) (i : Invocation) (st : State) : op.activation i st =
    match activation? i st.store with
    | some a => (.ok a, st)
    | none => (.error ⟨.outsideCall op, none⟩, st.note (.failed (.outsideCall op))) := by
  rw [Builtin.activation, bind_apply, getStore_apply]
  change (match activation? i st.store with | some a => pure a | none => _ : Eval Activation) st = _
  cases activation? i st.store <;> rfl

theorem activation_fails : Fails (Blames b i) (b.activation i) st := by
  intro e st' he
  rw [activation_apply] at he
  split at he
  · cases he
  · cases he
    exact .named rfl

theorem define_fails (hb : b ∈ [.fn, .letVar, .letConst]) {s : ScopeId} {n : String}
    {rest : List Term} (hargs : i.args = .memory s n :: rest) (t : Term) :
    Fails (Blames b i) (Eval.define s n t) st :=
  .updates fun _ hf => (Nameless.refused hb hargs hf).blames

theorem indexArg_fails : Fails (Blames .param i) (Builtin.indexArg i) st := by
  rw [Builtin.indexArg]
  split
  · exact .total rfl
  · exact .fail (.named rfl)
  · exact (fails_hosted fun σ => typeName_hosted σ _).bind fun _ _ _ => .fail (.named rfl)

theorem tagArg_fails : Fails (Blames .param i) (Builtin.tagArg i) st := by
  rw [Builtin.tagArg]
  split
  next hargs =>
      split
      next => exact .total rfl
      next h => exact .fail (Nameless.tagName hargs h).blames
  next => exact (fails_hosted fun σ => typeName_hosted σ _).bind fun _ _ _ => .fail (.named rfl)
  next => exact .total rfl

theorem checkIndex_fails (k : Int) : Fails (Blames .param i) (Builtin.checkIndex k) st := by
  rw [Builtin.checkIndex]
  split
  · exact (fails_hosted fun σ => numeral_hosted σ _).bind fun _ _ _ => .fail (.named rfl)
  · exact .total rfl

theorem checkTag_fails {a : Activation} (ha : activation? i st.store = some a) (k : Nat) (tag : Tag) :
    Fails (Blames .param i) (Builtin.checkTag tag (a.args.getD k .null)) st := by
  rw [Builtin.checkTag]
  split
  next => exact .total rfl
  next =>
      refine (fails_hosted fun σ => typeName_hosted σ _).bind fun actual _ _ => ?_
      exact (fails_hosted fun σ => source_hosted σ _ _ _).bind fun _ _ _ => .fail (.named rfl)
  next htag =>
      refine (fails_hosted fun σ => inspect_hosted σ _).bind fun shown st' hshown => ?_
      obtain ⟨rfl, -⟩ := reads_ok hshown
      refine .fail (Nameless.foreign ha ?_ ?_).blames
      · rw [List.getD_eq_getElem?_getD] at htag ⊢
        cases hk : a.args[k]? with
        | none =>
            simp only [hk, Option.getD_none, Tag.matches?, Tag.of?] at htag
            split at htag <;> cases htag
        | some t => exact List.mem_of_getElem? hk
      · rw [Tag.matches?] at htag
        split at htag
        · cases htag
        · exact Option.map_eq_none_iff.1 htag

theorem displayLine_fails : Fails (Blames b i) (displayLine i.args) st := by
  refine Fails.bind (.total rfl) fun σ st₁ _ => Fails.bind (.ofExcept ?_) fun _ _ _ => .total rfl
  exact .mapM fun t _ f hf => .hosted (display_hosted σ standardWidth t f hf)

theorem giveValue_fails : Fails (Blames b i) (Builtin.giveValue i) st := by
  rw [Builtin.giveValue]
  split <;> exact .total rfl

theorem stop_fails : Fails (Blames b i) (Builtin.stop i) st := by
  rw [Builtin.stop]
  split <;> exact .total rfl

end Parts

section Run

variable {t : Term} {j : Invocation} {e : Failure}

theorem run_callee (hc : callee? b i st.store = some (t, j)) (he : call t j st = (.error e, st')) :
    b.run call i st = (.error e, st') := by
  have bound (op : Builtin) (constant : Bool) {s n rest} (hargs : i.args = .memory s n :: rest)
      (hc : (i.block.map fun body => (body, i.plainly [])) = some (t, j)) :
      Builtin.bindValue call op constant i st = (.error e, st') := by
    obtain ⟨body, hbody, hc⟩ := Option.map_eq_some_iff.1 hc
    obtain ⟨rfl, rfl⟩ := Prod.mk.inj hc
    rw [bindValue_apply hargs hbody, bind_apply, he]
  rw [callee?.eq_def] at hc
  split at hc
  next hargs => exact bound .letVar false hargs hc
  next hargs => exact bound .letConst true hargs hc
  next s n rest hargs =>
      split at hc
      next f hf =>
          cases hc
          rw [call_run hargs, hf]
          exact he
      next => cases hc
  next =>
      obtain ⟨a, ha, hc⟩ := Option.bind_eq_some_iff.1 hc
      obtain ⟨y, hy, hc⟩ := Option.bind_eq_some_iff.1 hc
      cases hc
      have hact : Builtin.yield.activation i st = (.ok a, st) := by rw [activation_apply, ha]
      rw [Builtin.run, bind_of_ok hact, hy]
      exact he
  next => cases hc

theorem bindValue_fails (constant : Bool)
    (hb : b ∈ [.fn, .letVar, .letConst])
    (h : ∀ s n rest body, i.args = .memory s n :: rest → i.block = some body →
      ∃ v st', call body (i.plainly []) st = (.ok v, st')) :
    Fails (Blames b i) (Builtin.bindValue call b constant i) st := by
  refine memoryArg_fails.bind fun p st₁ hp => blockArg_fails.bind fun body st₂ hbody => ?_
  obtain ⟨rfl, rest, hargs⟩ := memoryArg_ok hp
  obtain ⟨rfl, hblock⟩ := blockArg_ok hbody
  obtain ⟨v, st', hcall⟩ := h p.1 p.2 rest body hargs hblock
  refine Fails.bind (.total hcall) fun v st₃ _ => Fails.bind (.total rfl) fun k st₄ _ => ?_
  exact (define_fails hb hargs _).bind fun _ _ _ => .total rfl

theorem run_fails
    (h : ∀ t j, callee? b i st.store = some (t, j) → ∃ v st', call t j st = (.ok v, st')) :
    Fails (Blames b i) (b.run call i) st := by
  cases b with
  | fn =>
      refine memoryArg_fails.bind fun p st₁ hp => blockArg_fails.bind fun body st₂ _ => ?_
      obtain ⟨rest, hargs⟩ := (memoryArg_ok hp).2
      exact (define_fails (by simp) hargs body).bind fun _ _ _ => .total rfl
  | letVar =>
      refine bindValue_fails false (by simp) fun s n rest body hargs hbody => h _ _ ?_
      rw [callee?.eq_def, hargs, hbody]
      rfl
  | letConst =>
      refine bindValue_fails true (by simp) fun s n rest body hargs hbody => h _ _ ?_
      rw [callee?.eq_def, hargs, hbody]
      rfl
  | del =>
      refine memoryArg_fails.bind fun p st₁ _ => ?_
      exact (Fails.updates fun f hf => .hosted (remove_hosted _ _ _ f hf)).bind fun _ _ _ => .total rfl
  | call =>
      refine memoryArg_fails.bind fun p st₁ hp => ?_
      obtain ⟨rfl, rest, hargs⟩ := memoryArg_ok hp
      refine (fails_hosted fun σ => lookup_hosted σ _ _).bind fun found st₂ hfound => ?_
      obtain ⟨rfl, hfound⟩ := reads_ok hfound
      cases found with
      | none => exact .fail (.named rfl)
      | some f =>
          obtain ⟨v, st', hcall⟩ := h f { i with args := i.args.tail } (by
            rw [callee?.eq_def, hargs]
            simp only [hfound]
            rfl)
          exact .total hcall
  | exist =>
      refine memoryArg_fails.bind fun p st₁ _ => ?_
      exact (fails_hosted fun σ => binds_hosted σ _ _).bind fun _ _ _ => .total rfl
  | param =>
      refine indexArg_fails.bind fun k st₁ _ => tagArg_fails.bind fun tag st₂ _ => ?_
      refine (checkIndex_fails k).bind fun _ st₃ _ => activation_fails.bind fun a st₄ ha => ?_
      rw [activation_apply] at ha
      split at ha
      next a' ha' =>
          cases ha
          exact (checkTag_fails ha' k.toNat tag).bind fun _ _ _ => .total rfl
      next => cases ha
  | args => exact activation_fails.bind fun a st₁ _ => .total rfl
  | yield =>
      refine activation_fails.bind fun a st₁ ha => ?_
      rw [activation_apply] at ha
      split at ha
      next ha' =>
          cases ha
          split
          next y hy =>
              obtain ⟨v, st', hcall⟩ := h y { i with scope := a.site } (by
                rw [callee?.eq_def]
                simp [ha', hy])
              exact .total hcall
          next => exact .fail (.named rfl)
      next => cases ha
  | ret => exact giveValue_fails.bind fun _ _ _ => stop_fails.bind fun _ _ _ => .total rfl
  | pass => exact giveValue_fails.bind fun _ _ _ => .total rfl
  | print => exact displayLine_fails.bind fun _ _ _ => .total rfl

/-- Whenever a builtin fails, but not because something that it runs fails, what it reports tells what
was expected and what there was instead; and it names the builtin, except where a scope refused the
definition that it was given, or `p` was given the name of no tag or compared something that has none. -/
theorem failure_reported (h : b.run call i st = (.error e, st'))
    (hown : ∀ t j, callee? b i st.store = some (t, j) → call t j st ≠ (.error e, st'))
    (hr : e.fault.report? = some r) :
    r.expected.isSome ∧ r.actual.isSome ∧
      (r.operator = some b.name ↔ ¬Nameless i st'.store b e.fault) := by
  refine run_fails (fun t j hc => ?_) e st' h r hr
  rcases hcall : call t j st with ⟨e' | v, st₁⟩
  · have hsame := run_callee hc hcall
    rw [h] at hsame
    exact absurd (hcall.trans hsame.symm) (hown t j hc)
  · exact ⟨v, st₁, rfl⟩

end Run

def blockless : State where
  store := { scopes := #[{ kind := .call ⟨[.str "a"], none, none⟩ }] }
  limit := 10

theorem failure_reported_blockless :
    let i : Invocation := ⟨[], none, some 0⟩
    ∃ e st' r, Builtin.yield.run (Evaluator.caller Kit.host) i blockless = (.error e, st') ∧
      e.fault.report? = some r ∧ r.expected.isSome ∧ r.actual.isSome ∧
      (r.operator = some "yield" ↔ ¬Nameless i st'.store .yield e.fault) := by
  intro i
  have hrun : Builtin.yield.run (Evaluator.caller Kit.host) i blockless =
      (.error ⟨.noYieldBlock, none⟩, blockless.note (.failed .noYieldBlock)) := rfl
  exact ⟨_, _, _, hrun, rfl, failure_reported hrun nofun rfl⟩

def fixture : State where
  store := { scopes := #[{ bindings := [("x", .var (.num 1) true "x" 1)] }] }
  limit := 10

/-- The constant cannot be made a function, but it is not told that it was `fn` that tried. -/
theorem fn_unnamed :
    let i : Invocation := ⟨[.memory 0 "x"], some (.block ⟨[.num 2], []⟩ 0), some 0⟩
    callee? .fn i fixture.store = none ∧
      ∃ e st' r, Builtin.fn.run (Evaluator.caller Kit.host) i fixture = (.error e, st') ∧
        e.fault.report? = some r ∧ r.operator = none := by
  exact ⟨rfl, _, _, _, rfl, rfl, rfl⟩

end BlockScript.Proofs.Operators
