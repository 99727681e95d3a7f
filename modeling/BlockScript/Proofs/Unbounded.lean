import BlockScript.Proofs.Running

namespace BlockScript.Proofs.Unbounded

open Eval Evaluator Running

variable {α β : Type} {host : Host} {P : Store → Prop} {st : State}

def enter (call : Caller) (c : Code) (closure : ScopeId) (i : Invocation) : Eval Term := do
  let st ← get
  if st.limit ≤ st.depth then fail (.depthExceeded st.limit st.depth)
  else
    let s ← alloc { kind := .call ⟨i.args, i.block, i.scope⟩, parent := some closure }
    bindParams s (c.params.zip i.args)
    log ("Call-scope params " ++ Render.names c.params ++ " argc " ++ toString i.args.length)
    deeper (run call c s)

def step (host : Host) (call : Caller) (f : Term) (i : Invocation) : Eval Term := do
  announce f i
  match f with
  | .var v _ _ _ => return v
  | .block c closure => enter call c closure i
  | .native g => runImpl call host g.impl i
  | _ => fail (.notCallable (← inspect f) (← className f))

def nested (host : Host) (bottom : Caller) : Nat → Caller
  | 0 => bottom
  | n + 1 => step host (nested host bottom n)

/-- A computation with calls in it comes to an end. What it does between two calls it does in stores with
the property. -/
inductive Runs (host : Host) (P : Store → Prop) :
    {α : Type} → (Caller → Eval α) → State → Except Failure α × State → Prop
  | plain {α : Type} {m : Eval α} {st : State} (h : P st.store) : Runs host P (fun _ => m) st (m st)
  | next {α β : Type} {F : Caller → Eval α} {G : Caller → α → Eval β} {st st' : State} {a : α}
      {out : Except Failure β × State} (hF : Runs host P F st (.ok a, st'))
      (hG : Runs host P (fun call => G call a) st' out) :
      Runs host P (fun call => F call >>= G call) st out
  | halt {α β : Type} {F : Caller → Eval α} {G : Caller → α → Eval β} {st st' : State} {e : Failure}
      (hF : Runs host P F st (.error e, st')) :
      Runs host P (fun call => F call >>= G call) st (.error e, st')
  | attempt {α : Type} {F : Caller → Eval α} {st st' : State} {r : Except Failure α}
      (hF : Runs host P F st (r, st')) : Runs host P (fun call => attempt (F call)) st (.ok r, st')
  | call {f : Term} {i : Invocation} {st : State} {out : Except Failure Term × State}
      (h : Runs host P (fun call => step host call f i) st out) :
      Runs host P (fun call => call f i) st out

namespace Runs

variable {F : Caller → Eval α} {m : Eval α}

/-- Calls are nested to some depth, and what those nested deeper would do does not matter: there are
none. -/
theorem nested {out : Except Failure α × State} (h : Runs host P F st out) :
    ∃ n, ∀ k, n ≤ k → ∀ bottom, F (nested host bottom k) st = out := by
  induction h with
  | plain => exact ⟨0, fun _ _ _ => rfl⟩
  | next _ _ ihF ihG =>
      obtain ⟨n, hn⟩ := ihF
      obtain ⟨n', hn'⟩ := ihG
      refine ⟨max n n', fun k hk bottom => ?_⟩
      refine (bind_of_ok (hn k (Nat.le_trans (Nat.le_max_left n n') hk) bottom)).trans ?_
      exact hn' k (Nat.le_trans (Nat.le_max_right n n') hk) bottom
  | halt _ ih =>
      obtain ⟨n, hn⟩ := ih
      exact ⟨n, fun k hk bottom => (bind_apply _ _ _).trans (by rw [hn k hk bottom])⟩
  | attempt _ ih =>
      obtain ⟨n, hn⟩ := ih
      exact ⟨n, fun k hk bottom => (attempt_apply _ _).trans (by rw [hn k hk bottom])⟩
  | call _ ih =>
      obtain ⟨n, hn⟩ := ih
      refine ⟨n + 1, fun k hk bottom => ?_⟩
      obtain ⟨k, rfl⟩ : ∃ k', k = k' + 1 := ⟨k - 1, by omega⟩
      exact hn k (Nat.le_of_succ_le_succ hk) bottom

theorem bind {G : Caller → α → Eval β} {k : α → Eval β} (hF : Runs host P F st (m st))
    (hG : ∀ a, (m st).1 = .ok a → Runs host P (fun call => G call a) (m st).2 (k a (m st).2)) :
    Runs host P (fun call => F call >>= G call) st ((m >>= k) st) := by
  rw [bind_apply]
  rcases h : m st with ⟨e | a, st'⟩
  all_goals rw [h] at hF hG
  · exact .halt hF
  · exact .next hF (hG a rfl)

theorem closedBy {last : Eval Unit} {st' : State} (hF : Runs host P F st (m st))
    (hm : P (m st).2.store) (hlast : last (m st).2 = (.ok (), st')) (hst' : P st'.store) :
    Runs host P (fun call => Eval.closedBy (F call) last) st (Eval.closedBy m last st) := by
  refine bind (m := Eval.attempt m) (.attempt hF) fun r _ => ?_
  refine bind (m := last) (.plain hm) fun _ _ => ?_
  rw [attempt_apply, hlast]
  exact .plain hst'

theorem traced (hF : Runs host P F st (m st)) (hm : P (m st).2.store) :
    Runs host P (fun call => Eval.traced (F call)) st (Eval.traced m st) :=
  bind (m := Eval.attempt m) (.attempt hF) fun _ _ => .plain hm

theorem bounded (hF : Runs host P F st (m st)) (hm : P (m st).2.store) :
    Runs host P (fun call => Eval.bounded (F call)) st (Eval.bounded m st) :=
  bind (m := Eval.attempt m) (.attempt hF) fun _ _ => .plain hm

theorem underFrame {F : Caller → Eval Term} {m : Eval Term} {frame : Frame} (hst : P st.store)
    (hF : Runs host P F (st.push frame) (m (st.push frame))) (hm : P (m (st.push frame)).2.store) :
    Runs host P (fun call => Eval.underFrame frame (F call)) st (Eval.underFrame frame m st) := by
  refine bind (m := modify (·.push frame)) (.plain hst) fun _ _ => ?_
  rw [modify_apply]
  refine closedBy (traced hF hm) ?_ (modify_apply _ _) ?_
  all_goals
    rw [traced_apply]
    exact hm

theorem deeper {F : Caller → Eval Term} {m : Eval Term} (hst : P st.store)
    (hF : Runs host P F st.enter (m st.enter)) (hm : P (m st.enter).2.store) :
    Runs host P (fun call => Eval.deeper (F call)) st (Eval.deeper m st) := by
  refine bind (m := modify State.enter) (.plain hst) fun _ _ => ?_
  rw [modify_apply]
  refine closedBy (bounded hF hm) ?_ (modify_apply _ _) ?_
  all_goals
    rw [bounded_apply]
    exact (store_noteBound _ _).symm ▸ hm

end Runs

end BlockScript.Proofs.Unbounded
