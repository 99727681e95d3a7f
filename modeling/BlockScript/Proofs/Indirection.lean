import BlockScript.Proofs.Traces

namespace BlockScript.Proofs.Indirection

open Eval Evaluator Running Traces
open CallSite (Outcomes outcomes_eq_iff)

variable {host : Host} {enter : BlockCaller} {st st' : State} {s : ScopeId} {f n : String}
  {g : Native} {F : Term} {args vs : List Term} {block : Option Code}

theorem lookup_apply {r : Option Term} (h : st.store.lookup s n = .ok r) :
    lookup s n st = (.ok r, st) := by
  rw [lookup, bind_of_ok (getStore_apply st), h]
  rfl

def visited (t : Term) (st : State) : State :=
  { st with node := t }.note (.visited t)

theorem visit_apply (t : Term) (st : State) : visit t st = (.ok (), visited t st) := rfl

/-- The native `call` has one step more to go than the function that it calls, and as much heavier is
its invocation. So the function has the same room as if called directly. -/
theorem callWith_call (hg : g.impl = .builtin .call) (i : Invocation) :
    callWith host enter (.native g) { i with args := .memory s f :: i.args } = (do
      announce (.native g) { i with args := .memory s f :: i.args }
      match ← lookup s f with
      | some F => callWith host enter F i
      | none => fail (.unboundTarget f)) := by
  have hw : ({ i with args := .memory s f :: i.args } : Invocation).weight = i.weight + 1 := by
    simp only [Invocation.weight, List.length_cons]
    omega
  have hroom : i.weight + 1 + host.reach + 2 = i.weight + host.reach + 2 + 1 := by omega
  rw [callWith, hw, hroom, Likeness.dispatch_succ]
  simp only [Likeness.once, runImpl, hg]
  rfl

theorem caller_call (hh : IgnoresTraces host) (hg : g.impl = .builtin .call)
    (hf : st.store.lookup s f = .ok (some F)) (hs : traceless st = traceless st') (i : Invocation) :
    Agree Eq (caller host (.native g) { i with args := .memory s f :: i.args } st)
      (caller host F i st') := by
  rw [caller, bind_of_ok (get_apply st), caller, bind_of_ok (get_apply st'), callWith_call hg,
    limit_eq hs, depth_eq hs]
  obtain ⟨τ, hannounce, hτ⟩ := Recording.announce (.native g)
    { i with args := .memory s f :: i.args } st
  have hfound : τ.store.lookup s f = .ok (some F) := by rw [store_eq hτ, hf]
  rw [bind_of_ok hannounce, bind_of_ok (lookup_apply hfound)]
  have hcalls := Likeness.callWith_calls traceBlind_kept hh
    (Likeness.enterBlock_enters traceBlind_kept traceBlind_levelled hh
      (st'.limit - st'.depth + host.reach + 1))
  exact hcalls F i i ⟨rfl, rfl, fun _ _ => trivial, .inl rfl⟩ τ st' (hτ.trans hs)

theorem perform_call (host : Host) (args : List Term) (block : Option Code)
    (h : st.store.lookup s n = .ok (some F)) :
    ∃ st', traceless st' = traceless st ∧
      (Request.eval (.call n args block) s).perform host st = (do
        let vs ← evalArgs (caller host) s args
        underFrame ⟨n, F, vs, .call n args block⟩
          (caller host F ⟨vs, block.map (.block · s), some s⟩)) st' := by
  let t : Term := .call n args block
  refine ⟨visited t (visited t st), rfl, ?_⟩
  have hfound : (visited t (visited t st)).store.lookup s n = .ok (some F) := h
  have htwice : (Request.eval t s).perform host = visit t >>= fun _ => evalTerm (caller host) s t :=
    rfl
  rw [htwice, bind_of_ok (visit_apply t st), evalTerm, bind_of_ok (visit_apply t _),
    bind_of_ok (lookup_apply hfound)]

theorem evalArgs_ref (call : Caller) (s : ScopeId) (f : String) (k : Nat) (args : List Term)
    {β : Type} (rest : List Term → Eval β) (st : State) :
    ∃ st', traceless st' = traceless st ∧
      (evalArgs call s (.ref f none k :: args) >>= rest) st =
        (evalArgs call s args >>= fun vs => rest (.memory s f :: vs)) st' := by
  refine ⟨visited (.ref f none k) st, rfl, ?_⟩
  simp only [evalArgs, evalTerm, bind_assoc, pure_bind]
  rw [bind_of_ok (visit_apply _ st)]

/-- Calling a name through `call` comes to what calling it comes to, unless the arguments bind it anew:
the value or the fault is the same, and so is all that is left behind but the record of it. -/
theorem call_indirect (hh : IgnoresTraces host)
    (hcall : st.store.lookup s "call" = .ok (some (.native g))) (hg : g.impl = .builtin .call)
    (hf : st.store.lookup s f = .ok (some F))
    (hargs : ∀ vs st', evalArgs (caller host) s args st = (.ok vs, st') →
      st'.store.lookup s f = st.store.lookup s f) (k : Nat) (block : Option Code) :
    let indirect := (Request.eval (.call "call" (.ref f none k :: args) block) s).perform host st
    let direct := (Request.eval (.call f args block) s).perform host st
    untraced indirect.1 = untraced direct.1 ∧ traceless indirect.2 = traceless direct.2 := by
  intro indirect direct
  obtain ⟨st₁, h₁, hindirect⟩ := perform_call host (.ref f none k :: args) block hcall
  obtain ⟨st₂, h₂, hrest⟩ := evalArgs_ref (caller host) s f k args
    (fun vs => underFrame ⟨"call", .native g, vs, .call "call" (.ref f none k :: args) block⟩
      (caller host (.native g) ⟨vs, block.map (.block · s), some s⟩)) st₁
  obtain ⟨st₃, h₃, hdirect⟩ := perform_call host args block hf
  have hlike := Likeness.evalArgs_like (s := s) traceBlind_kept (caller_calls hh) args
  have hagree : Agree Eq indirect direct := by
    simp only [indirect, direct]
    rw [hindirect, hrest, hdirect]
    apply (hlike st₂ st₃ (h₂.trans (h₁.trans h₃.symm))).bind
    rintro vs _ τ τ' hvs rfl hτ
    -- the arguments come to the same in the state given, so the slot is what it was there
    obtain ⟨υ, hυ, hstore⟩ := (hlike st₂ st (h₂.trans h₁)).ok hvs
    have hfound : τ.store.lookup s f = .ok (some F) := by
      rw [store_eq hstore, hargs vs υ hυ, hf]
    apply underFrame_agree
    apply caller_call hh hg (i := ⟨vs, block.map (.block · s), some s⟩)
    · exact hfound
    · exact hτ
  exact ⟨outcomes_eq_iff.1 hagree.outcome, hagree.state⟩

def returning : State :=
  let bindings := [("call", .native ⟨1, "call", .builtin .call⟩),
    ("return", .native ⟨2, "return", .builtin .ret⟩)]
  { store := { scopes := #[{ kind := .block false, bindings }] }, limit := 5 }

theorem call_indirect_returning :
    let host := Law.kitWithout ["stack"]
    let indirect := (Request.eval (.call "call" [.ref "return" none, .num 5] none) 0).perform host
      returning
    let direct := (Request.eval (.call "return" [.num 5] none) 0).perform host returning
    indirect.1.toOption.bind Kit.integer? = some 5 ∧ indirect.2.store.isBroken 0 = true ∧
      untraced indirect.1 = untraced direct.1 ∧ traceless indirect.2 = traceless direct.2 := by
  intro host indirect direct
  have hargs : ∀ vs st', evalArgs (caller host) 0 [.num 5] returning = (.ok vs, st') →
      st'.store.lookup 0 "return" = returning.store.lookup 0 "return" := by
    intro vs st' h
    obtain ⟨-, rfl⟩ := Prod.mk.inj h
    rfl
  have hcall : returning.store.lookup 0 "call" =
      .ok (some (.native ⟨1, "call", .builtin .call⟩)) := rfl
  have hreturn : returning.store.lookup 0 "return" =
      .ok (some (.native ⟨2, "return", .builtin .ret⟩)) := rfl
  have hh : IgnoresTraces host := kitWithout_ignoresTraces (List.mem_singleton.2 rfl)
  exact ⟨by decide +kernel, by decide +kernel, call_indirect hh hcall rfl hreturn hargs 0 none⟩

def watching : State :=
  let bindings := [("call", .native ⟨1, "call", .builtin .call⟩),
    ("stack", .native ⟨2, "stack", .host "stack"⟩), ("x", .var (.num 1) false "x" 3)]
  { store := { scopes := #[{ bindings }] }, limit := 5 }

def text? : Term → Option String
  | .str x => some x
  | _ => none

/-- A native can tell through which calls it is called; so can who reads what is told for debugging. -/
theorem call_indirect_watched :
    watching.store.lookup 0 "call" = .ok (some (.native ⟨1, "call", .builtin .call⟩)) ∧
    let run debugging t := (Request.eval t 0).perform Kit.host { watching with debugging }
    let indirect f : Term := .call "call" [.ref f none] none
    let direct f : Term := .call f [] none
    let names t := ((run false t).2.store.items? 1).map (·.map text?)
    names (indirect "stack") = some [some "call"] ∧ names (direct "stack") = some [some "stack"] ∧
      (run true (indirect "x")).2.debug ≠ (run true (direct "x")).2.debug :=
  ⟨rfl, by decide +kernel⟩

end BlockScript.Proofs.Indirection
