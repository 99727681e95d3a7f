import BlockScript.Proofs.CallSite
import BlockScript.Proofs.LawfulKit

namespace BlockScript.Proofs.Traces

open Eval Evaluator Running LikenessKit
open CallSite (Outcomes outcomes_eq_iff)

variable {α β : Type} {st st' : State} {P : α → α → Prop} {Q : β → β → Prop}

def traceless (st : State) : State :=
  { st with frames := [], node := .null, history := []
            debug := if st.debugging then "" else st.debug }

def untraced (r : Except Failure α) : Except Failure α :=
  r.mapError fun e => { e with trace := none }

structure Agree (P : α → α → Prop) (r r' : Except Failure α × State) : Prop where
  outcome : Outcomes P (untraced r.1) (untraced r'.1)
  state : traceless r.2 = traceless r'.2

def traceBlind : Likeness where
  rel P m m' := ∀ st st', traceless st = traceless st' → Agree P (m st) (m' st')
  block _ := True
  blind _ := False
  isBlock_of_blind := @isBlock_of_false

section State

variable (h : traceless st = traceless st')
include h

theorem store_eq : st.store = st'.store :=
  congrArg (fun st => st.store) h

theorem depth_eq : st.depth = st'.depth :=
  congrArg (fun st => st.depth) h

theorem limit_eq : st.limit = st'.limit :=
  congrArg (fun st => st.limit) h

theorem change {F : State → State} (hF : ∀ st, traceless (F st) = F (traceless st)) :
    traceless (F st) = traceless (F st') := by
  rw [hF, h, hF]

theorem enter_eq : traceless st.enter = traceless st'.enter :=
  change (F := fun st => { st with depth := st.depth + 1 }) h fun _ => rfl

theorem leave_eq : traceless st.leave = traceless st'.leave :=
  change (F := fun st => { st with depth := st.depth - 1 }) h fun _ => rfl

end State

namespace Agree

theorem bind {m m' : Eval α} {k k' : α → Eval β} (h : Agree P (m st) (m' st'))
    (hk : ∀ {a b τ τ'}, m st = (.ok a, τ) → P a b → traceless τ = traceless τ' →
      Agree Q (k a τ) (k' b τ')) :
    Agree Q ((m >>= k) st) ((m' >>= k') st') := by
  obtain ⟨ho, hs⟩ := h
  rw [bind_apply, bind_apply]
  rcases hm : m st with ⟨e | a, τ⟩
  all_goals rcases hm' : m' st' with ⟨e' | b, τ'⟩
  all_goals simp only [hm, hm', untraced, Except.mapError, Outcomes] at ho hs
  · exact ⟨ho, hs⟩
  · exact hk hm ho hs

theorem ok {r r' : Except Failure α × State} {a : α} {τ : State} (h : Agree Eq r r')
    (hr : r = (.ok a, τ)) : ∃ τ', r' = (.ok a, τ') ∧ traceless τ = traceless τ' := by
  obtain ⟨ho, hs⟩ := h
  subst hr
  rcases r' with ⟨e | b, τ'⟩
  · exact ho.elim
  · cases ho
    exact ⟨τ', rfl, hs⟩

end Agree

section Steps

theorem pure_like {a b : α} (h : P a b) : traceBlind.rel P (pure a) (pure b) :=
  fun _ _ hs => ⟨h, hs⟩

theorem fail_like (f : Fault) : traceBlind.rel P (fail f) (fail f) :=
  fun _ _ hs => ⟨rfl, hs⟩

theorem bind_like {m m' : Eval α} {k k' : α → Eval β} (hm : traceBlind.rel P m m')
    (hk : ∀ a b, P a b → traceBlind.rel Q (k a) (k' b)) :
    traceBlind.rel Q (m >>= k) (m' >>= k') :=
  fun st st' hs => (hm st st' hs).bind fun _ hab hτ => hk _ _ hab _ _ hτ

theorem getStore_like {k k' : Store → Eval α} (h : ∀ σ, traceBlind.rel P (k σ) (k' σ)) :
    traceBlind.rel P (getStore >>= k) (getStore >>= k') := by
  intro st st' hs
  rw [bind_of_ok (getStore_apply st), bind_of_ok (getStore_apply st'), store_eq hs]
  exact h _ st st' hs

theorem ofExcept_same (r : Except Fault α) : traceBlind.Same (Eval.ofExcept r) := by
  cases r with
  | ok a => exact pure_like rfl
  | error f => exact fail_like f

theorem observe_same {g : Store → Except Fault α} :
    traceBlind.Same (getStore >>= fun σ => Eval.ofExcept (g σ)) :=
  getStore_like fun _ => ofExcept_same _

theorem peek_same {g : Store → α} : traceBlind.Same (getStore >>= fun σ => pure (g σ)) :=
  getStore_like fun _ => pure_like rfl

theorem modify_same {F : State → State} (hF : ∀ st, traceless (F st) = F (traceless st)) :
    traceBlind.Same (modify F) :=
  fun _ _ h => ⟨rfl, change h hF⟩

theorem modifyStore_same (f : Store → Store) : traceBlind.Same (modifyStore f) :=
  modify_same fun _ => rfl

theorem updateStore_same (f : Store → Except Fault Store) : traceBlind.Same (updateStore f) :=
  getStore_like fun _ => bind_like (ofExcept_same _) fun σ τ h => by
    cases h
    exact modifyStore_same _

theorem alloc_same (c : Scope) : traceBlind.Same (Eval.alloc c) := by
  intro st st' h
  rw [alloc_apply, alloc_apply, store_eq h]
  exact ⟨rfl, change (F := fun st => { st with store := st'.store.alloc c }) h fun _ => rfl⟩

theorem freshMark_same : traceBlind.Same Eval.freshMark := by
  intro st st' h
  have hm : st.marks = st'.marks := congrArg (fun st => st.marks) h
  exact ⟨congrArg Nat.succ hm, change (F := fun st => { st with marks := st.marks + 1 }) h
    fun _ => rfl⟩

theorem displayLine_same (ts : List Term) : traceBlind.Same (Eval.displayLine ts) :=
  getStore_like fun _ => bind_like (ofExcept_same _) fun _ _ h => pure_like (by rw [h])

theorem activation_like (op : Builtin) (i : Invocation) :
    traceBlind.rel traceBlind.Matching (op.activation i) (op.activation i) := by
  apply getStore_like
  intro σ
  split
  · exact pure_like ⟨rfl, rfl, fun _ _ => trivial, .inl rfl⟩
  · exact fail_like _

end Steps

def Recording (m : Eval Unit) : Prop :=
  ∀ st, ∃ st', m st = (.ok (), st') ∧ traceless st' = traceless st

namespace Recording

variable {m m' : Eval Unit}

theorem like (h : Recording m) (h' : Recording m') : traceBlind.rel Eq m m' := by
  intro st st' hs
  obtain ⟨τ, hm, hτ⟩ := h st
  obtain ⟨τ', hm', hτ'⟩ := h' st'
  rw [hm, hm']
  exact ⟨rfl, hτ.trans (hs.trans hτ'.symm)⟩

theorem bind (h : Recording m) (h' : Recording m') :
    Recording (m >>= fun _ => m') := by
  intro st
  obtain ⟨τ, hm, hτ⟩ := h st
  obtain ⟨υ, hm', hυ⟩ := h' τ
  exact ⟨υ, (bind_of_ok hm).trans hm', hυ.trans hτ⟩

theorem record (e : Event) : Recording (Eval.record e) :=
  fun st => ⟨st.note e, rfl, rfl⟩

theorem log (line : String) : Recording (Eval.log line) := by
  intro st
  refine ⟨_, modify_apply _ st, ?_⟩
  split
  next h => simp only [traceless, h, if_true]
  next => rfl

theorem visit (t : Term) : Recording (Eval.visit t) :=
  fun st => ⟨{ st with node := t }.note (.visited t), rfl, rfl⟩

theorem announce (f : Term) (i : Invocation) : Recording (announce f i) := by
  apply (record _).bind
  intro st
  -- the class name is read off the store, which changes nothing
  exact log _ st

theorem clearStack : Recording (modify fun st => { st with frames := [] }) :=
  fun st => ⟨{ st with frames := [] }, rfl, rfl⟩

end Recording

section Brackets

variable {m m' : Eval Term}

theorem untraced_withTrace (frames : List Frame) (r : Except Failure α) :
    untraced (withTrace frames r) = untraced r := by
  cases r with
  | ok a => rfl
  | error e => rfl

theorem untraced_withBound (limit depth : Nat) (r : Except Failure α) :
    untraced (withBound limit depth r) = withBound limit depth (untraced r) := by
  cases r with
  | ok a => rfl
  | error e =>
      simp only [untraced, withBound, Except.mapError]
      split
      · rfl
      · rfl

theorem traceless_noteBound (r : Except Failure α) (st : State) :
    traceless (noteBound r st) = traceless st := by
  cases r with
  | ok a => rfl
  | error e =>
      rw [noteBound]
      split
      · rfl
      · rfl

theorem underFrame_agree {frame frame' : Frame}
    (h : Agree Eq (m (st.push frame)) (m' (st'.push frame'))) :
    Agree Eq (underFrame frame m st) (underFrame frame' m' st') := by
  rw [underFrame_apply, underFrame_apply]
  constructor
  · rw [untraced_withTrace, untraced_withTrace]
    exact h.outcome
  · exact h.state

theorem deeper_like (h : traceBlind.rel Eq m m') :
    traceBlind.rel Eq (deeper m) (deeper m') := by
  intro st st' hs
  obtain ⟨ho, hm⟩ := h _ _ (enter_eq hs)
  rw [deeper_apply, deeper_apply]
  constructor
  · rw [untraced_withBound, untraced_withBound, outcomes_eq_iff.1 ho, limit_eq hm, depth_eq hm]
    exact outcomes_eq_iff.2 rfl
  · apply leave_eq
    rw [traceless_noteBound, traceless_noteBound]
    exact hm

end Brackets

theorem traceBlind_kept : traceBlind.Kept where
  closure _ _ := trivial
  pure := pure_like
  bind := bind_like
  fail f _ := fail_like f
  underFrame h _ _ hs := underFrame_agree (h _ _ hs)
  announce _ := (Recording.announce _ _).like (.announce _ _)
  visit t := (Recording.visit t).like (.visit t)
  log line := (Recording.log line).like (.log line)
  write line := modify_same fun _ => rfl
  freshMark := freshMark_same
  lookup _ _ := observe_same
  binds _ _ := observe_same
  define _ _ _ := updateStore_same _
  remove _ _ := updateStore_same _
  returned _ := peek_same
  setReturned _ _ := modifyStore_same _
  isBroken _ := peek_same
  breakOff _ := modifyStore_same _
  numeral _ := observe_same
  source _ := observe_same
  inspect _ := observe_same
  typeName _ := observe_same
  className _ := peek_same
  displayLine := displayLine_same
  newBlock _ := alloc_same _
  newList _ := bind_like (alloc_same _) fun _ _ h => pure_like (by rw [h])
  activation := activation_like

theorem get_like {k k' : State → Eval Term} (h : ∀ st st' : State, st.limit = st'.limit →
    st.depth = st'.depth → traceBlind.rel Eq (k st) (k' st')) :
    traceBlind.rel Eq (get >>= k) (get >>= k') := by
  intro st st' hs
  rw [bind_of_ok (get_apply st), bind_of_ok (get_apply st')]
  exact h st st' (limit_eq hs) (depth_eq hs) st st' hs

theorem traceBlind_levelled : traceBlind.Levelled where
  announce _ := (Recording.announce _ _).like (.announce _ _)
  level := get_like
  refused _ _ := fail_like _
  newCall h := h.eq_of_not_blind id ▸ alloc_same _
  deeper := deeper_like

section Calls

variable {host : Host}

/-- The host's natives do not look at what is recorded, as long as the evaluator that they call back
does not. -/
def IgnoresTraces (host : Host) : Prop :=
  traceBlind.Hosts host host

theorem caller_calls (hh : IgnoresTraces host) : traceBlind.Calls (caller host) (caller host) :=
  Likeness.caller_calls traceBlind_kept traceBlind_levelled hh

end Calls

theorem traceBlind_equipped : Equipped traceBlind where
  read h := getStore_like fun _ =>
    h _ _ ⟨fun _ => rfl, fun _ => rfl, fun _ _ => rfl, fun _ => rfl⟩
  watch h := get_like fun _ _ _ hdepth => hdepth ▸ h _
  emit _ := modify_same fun _ => rfl
  addMixin _ _ := updateStore_same _
  newScope _ := alloc_same _

theorem kitWithout_ignoresTraces {withheld : List String} (h : "stack" ∈ withheld) :
    IgnoresTraces (Law.kitWithout withheld) := by
  intro call call' hc key i hi
  change traceBlind.rel Eq (if key ∈ withheld then _ else _) (if key ∈ withheld then _ else _)
  split
  next => exact refuse_same traceBlind_kept _
  next hkey =>
      apply native_like traceBlind_kept traceBlind_equipped hc hi
      constructor
      · exact fun _ => Recording.clearStack.like .clearStack
      · exact fun hstack => absurd (hstack ▸ h) hkey

end BlockScript.Proofs.Traces
