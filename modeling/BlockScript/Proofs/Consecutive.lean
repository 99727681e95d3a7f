import BlockScript.Proofs.CallSite
import BlockScript.Session

namespace BlockScript.Proofs.Consecutive

open Eval Evaluator Running LikenessKit
open CallSite (Outcomes outcomes_eq_iff)

structure Past where
  effects : List Effect := []
  debug : String := ""
  history : List Moment := []

def after (past : Past) (st : State) : State :=
  { st with
    effects := past.effects ++ st.effects
    debug := past.debug ++ st.debug
    history := st.history ++ past.history }

structure Settled (st st' : State) : Prop where
  depth : st'.depth = st.depth
  frames : st'.frames <:+ st.frames

variable {α β : Type} {past : Past} {st st' : State}

theorem Settled.refl (st : State) : Settled st st :=
  ⟨rfl, List.suffix_refl _⟩

theorem Settled.trans {st'' : State} (h : Settled st st') (h' : Settled st' st'') :
    Settled st st'' :=
  ⟨h'.depth.trans h.depth, h'.frames.trans h.frames⟩

/-- A run from a state and one from the same state with a past: they end alike, both settled, and
the past still stands before all that is told. -/
def unaware (past : Past) : Likeness where
  rel P m m' := ∀ st,
    Outcomes P (m st).1 (m' (after past st)).1 ∧ (m' (after past st)).2 = after past (m st).2 ∧
      Settled st (m st).2
  block _ := True
  blind _ := False
  isBlock_of_blind := @isBlock_of_false

def Unaware (m : Eval α) : Prop :=
  ∀ past st, m (after past st) = ((m st).1, after past (m st).2) ∧ Settled st (m st).2

namespace Unaware

theorem rel {m : Eval α} (h : Unaware m) {P : α → α → Prop} (hP : ∀ a, P a a) :
    (unaware past).rel P m m := by
  intro st
  obtain ⟨hm, hs⟩ := h past st
  rw [hm]
  refine ⟨?_, rfl, hs⟩
  cases (m st).1 with
  | ok a => exact hP a
  | error e => rfl

theorem same {m : Eval α} (h : Unaware m) : (unaware past).Same m :=
  h.rel fun _ => rfl

theorem pure (a : α) : Unaware (Pure.pure a : Eval α) :=
  fun _ st => ⟨rfl, .refl st⟩

theorem fail (f : Fault) : Unaware (Eval.fail f : Eval α) :=
  fun _ _ => ⟨rfl, rfl, List.suffix_refl _⟩

theorem getStore : Unaware Eval.getStore :=
  fun _ st => ⟨rfl, .refl st⟩

theorem bind {m : Eval α} {k : α → Eval β} (hm : Unaware m) (hk : ∀ a, Unaware (k a)) :
    Unaware (m >>= k) := by
  intro past st
  obtain ⟨h, hs⟩ := hm past st
  rw [bind_apply, bind_apply, h]
  rcases hm : m st with ⟨e | a, st'⟩
  all_goals rw [hm] at hs
  · exact ⟨rfl, hs⟩
  · obtain ⟨h', hs'⟩ := hk a past st'
    exact ⟨h', hs.trans hs'⟩

theorem ofExcept (r : Except Fault α) : Unaware (Eval.ofExcept r) := by
  cases r with
  | ok a => exact pure a
  | error f => exact fail f

theorem modifyStore (f : Store → Store) : Unaware (Eval.modifyStore f) :=
  fun _ _ => ⟨rfl, rfl, List.suffix_refl _⟩

theorem updateStore (f : Store → Except Fault Store) : Unaware (Eval.updateStore f) :=
  getStore.bind fun _ => (ofExcept _).bind fun _ => modifyStore _

theorem alloc (c : Scope) : Unaware (Eval.alloc c) :=
  fun _ _ => ⟨rfl, rfl, List.suffix_refl _⟩

theorem freshMark : Unaware Eval.freshMark :=
  fun _ _ => ⟨rfl, rfl, List.suffix_refl _⟩

theorem record (e : Event) : Unaware (Eval.record e) :=
  fun _ _ => ⟨rfl, rfl, List.suffix_refl _⟩

theorem className (t : Term) : Unaware (Eval.className t) :=
  getStore.bind fun _ => pure _

theorem write (line : String) : Unaware (Eval.write line) :=
  fun _ _ => ⟨rfl, rfl, List.suffix_refl _⟩

theorem visit (t : Term) : Unaware (Eval.visit t) :=
  fun _ _ => ⟨rfl, rfl, List.suffix_refl _⟩

theorem emit (e : Effect) : Unaware (Eval.emit e) := by
  intro past st
  refine ⟨?_, rfl, List.suffix_refl _⟩
  rw [Eval.emit, modify_apply, modify_apply]
  simp only [after, List.append_assoc]

theorem log (line : String) : Unaware (Eval.log line) := by
  intro past st
  rw [Eval.log, modify_apply, modify_apply]
  by_cases h : st.debugging
  · rw [if_pos h, if_pos (by exact h)]
    refine ⟨?_, rfl, List.suffix_refl _⟩
    simp only [after, String.append_assoc]
  · rw [if_neg h, if_neg (by exact h)]
    exact ⟨rfl, .refl st⟩

theorem announce (f : Term) (i : Invocation) : Unaware (announce f i) :=
  (record _).bind fun _ => (className f).bind fun _ => log _

theorem displayLine (ts : List Term) : Unaware (Eval.displayLine ts) :=
  getStore.bind fun _ => (ofExcept _).bind fun _ => pure _

theorem activation (op : Builtin) (i : Invocation) : Unaware (op.activation i) := by
  apply getStore.bind
  intro σ
  split
  · exact pure _
  · exact fail _

end Unaware

theorem bind_unaware {P : α → α → Prop} {Q : β → β → Prop} {m m' : Eval α} {k k' : α → Eval β}
    (hm : (unaware past).rel P m m') (hk : ∀ a b, P a b → (unaware past).rel Q (k a) (k' b)) :
    (unaware past).rel Q (m >>= k) (m' >>= k') := by
  intro st
  obtain ⟨ho, hst, hs⟩ := hm st
  rw [bind_apply, bind_apply]
  rcases h : m st with ⟨e | a, τ⟩
  all_goals rcases h' : m' (after past st) with ⟨e' | a', τ'⟩
  all_goals simp only [h, h', Outcomes] at ho hst hs
  · exact ⟨ho, hst, hs⟩
  · obtain ⟨ho', hst', hs'⟩ := hk a a' ho τ
    subst hst
    exact ⟨ho', hst', hs.trans hs'⟩

theorem suffix_tail {x : α} {xs ys : List α} (h : ys <:+ x :: xs) : ys.tail <:+ xs := by
  rcases List.suffix_cons_iff.1 h with rfl | h
  · exact List.suffix_refl xs
  · exact (List.tail_suffix ys).trans h

theorem underFrame_unaware {frame : Frame} {m m' : Eval Term} (h : (unaware past).rel Eq m m') :
    (unaware past).rel Eq (underFrame frame m) (underFrame frame m') := by
  intro st
  obtain ⟨ho, hst, hs⟩ := h (st.push frame)
  have hpush : (after past st).push frame = after past (st.push frame) := rfl
  rw [underFrame_apply, underFrame_apply, hpush, hst, outcomes_eq_iff.1 ho]
  exact ⟨outcomes_eq_iff.2 rfl, rfl, hs.depth, suffix_tail hs.frames⟩

theorem unaware_kept (past : Past) : (unaware past).Kept where
  closure _ _ := trivial
  pure h st := ⟨h, rfl, .refl st⟩
  bind := bind_unaware
  fail _ _ _ := ⟨rfl, rfl, rfl, List.suffix_refl _⟩
  underFrame := underFrame_unaware
  announce _ := (Unaware.announce _ _).same
  visit t := (Unaware.visit t).same
  log line := (Unaware.log line).same
  write line := (Unaware.write line).same
  freshMark := Unaware.freshMark.same
  lookup _ _ := (Unaware.getStore.bind fun _ => .ofExcept _).same
  binds _ _ := (Unaware.getStore.bind fun _ => .ofExcept _).same
  define _ _ _ := (Unaware.updateStore _).same
  remove _ _ := (Unaware.updateStore _).same
  returned _ := (Unaware.getStore.bind fun _ => .pure _).same
  setReturned _ _ := (Unaware.modifyStore _).same
  isBroken _ := (Unaware.getStore.bind fun _ => .pure _).same
  breakOff _ := (Unaware.modifyStore _).same
  numeral _ := (Unaware.getStore.bind fun _ => .ofExcept _).same
  source _ := (Unaware.getStore.bind fun _ => .ofExcept _).same
  inspect _ := (Unaware.getStore.bind fun _ => .ofExcept _).same
  typeName _ := (Unaware.getStore.bind fun _ => .ofExcept _).same
  className t := (Unaware.className t).same
  displayLine ts := (Unaware.displayLine ts).same
  newBlock _ := (Unaware.alloc _).same
  newList _ := ((Unaware.alloc _).bind fun _ => .pure _).same
  activation op i :=
    (Unaware.activation op i).rel fun _ => ⟨rfl, rfl, fun _ _ => trivial, .inl rfl⟩

theorem noteBound_after (r : Except Failure α) (st : State) :
    noteBound r (after past st) = after past (noteBound r st) := by
  cases r with
  | ok a => rfl
  | error e =>
      rw [noteBound, noteBound]
      split
      · rfl
      · rfl

theorem settled_noteBound (r : Except Failure α) (st : State) : Settled st (noteBound r st) := by
  cases r with
  | ok a => exact .refl st
  | error e =>
      rw [noteBound]
      split
      · exact ⟨rfl, List.suffix_refl _⟩
      · exact .refl st

theorem deeper_unaware {m m' : Eval Term} (h : (unaware past).rel Eq m m') :
    (unaware past).rel Eq (deeper m) (deeper m') := by
  intro st
  obtain ⟨ho, hst, hs⟩ := h st.enter
  have henter : (after past st).enter = after past st.enter := rfl
  rw [deeper_apply, deeper_apply, henter, hst, outcomes_eq_iff.1 ho, noteBound_after]
  have hs' := hs.trans (settled_noteBound (m' (after past st.enter)).1 _)
  exact ⟨outcomes_eq_iff.2 rfl, rfl, Nat.sub_eq_of_eq_add hs'.depth, hs'.frames⟩

section Calls

variable {host : Host}

/-- The host's natives add to what is told without looking at it, whatever that is, and leave no
calls in progress, as long as the evaluator that they call back does so. -/
def IgnoresPast (host : Host) : Prop :=
  ∀ past, (unaware past).Hosts host host

theorem unaware_levelled (past : Past) : (unaware past).Levelled where
  announce h := h.eq_of_not_blind id ▸ (Unaware.announce _ _).same
  level h := by
    intro st
    rw [bind_of_ok (get_apply st), bind_of_ok (get_apply (after past st))]
    exact h st (after past st) rfl rfl st
  refused _ _ := (Unaware.fail _).same
  newCall h := h.eq_of_not_blind id ▸ (Unaware.alloc _).same
  deeper := deeper_unaware

theorem caller_calls (hh : IgnoresPast host) : (unaware past).Calls (caller host) (caller host) :=
  Likeness.caller_calls (unaware_kept past) (unaware_levelled past) (hh past)

end Calls

/-- Statements that follow others carry on from what these come to. -/
theorem runStatements_append (call : Caller) (s : ScopeId) (last : Term) (xs ys : List Term) :
    runStatements call s last (xs ++ ys) =
      runStatements call s last xs >>= fun v => runStatements call s v ys := by
  induction xs generalizing last with
  | nil => rfl
  | cons x xs ih =>
      funext st
      rw [List.cons_append, runStatements, runStatements]
      simp only [bind_apply, isBroken, getStore_apply]
      by_cases hb : st.store.isBroken s = true
      · simp only [pure_apply, hb, if_true]
        cases ys with
        | nil => rfl
        | cons y ys =>
            rw [runStatements]
            simp only [bind_apply, isBroken, getStore_apply, pure_apply, hb, if_true]
      · simp only [pure_apply, hb, Bool.false_eq_true, if_false, bind_apply]
        rcases evalTerm call s x st with ⟨e | v, st'⟩
        · rfl
        · simp only [ih, bind_apply]

def runOn (call : Caller) (s : ScopeId) (last : Term) (ts : List Term) : Eval Term := do
  let v ← runStatements call s last ts
  return (← returned s).getD v

structure Unset (σ : Store) (s : ScopeId) : Prop where
  returned : (σ.get s).returned = none
  running : σ.isBroken s = false

section RunOn

variable {call : Caller} {s : ScopeId}

theorem runOn_append {last v : Term} {xs : List Term}
    (h : runStatements call s last xs st = (.ok v, st')) (ys : List Term) :
    runOn call s last (xs ++ ys) st = runOn call s v ys st' := by
  rw [runOn, runOn, runStatements_append]
  simp only [bind_apply, h]

theorem runOn_last (h : Unset st.store s) (v : Term) (ys : List Term) :
    runOn call s v ys st =
      ((runOn call s .null ys st).1.map fun w => if ys.isEmpty then v else w,
        (runOn call s .null ys st).2) := by
  cases ys with
  | nil =>
      simp only [runOn, runStatements, bind_apply, pure_apply, Eval.returned, getStore_apply,
        h.returned]
      rfl
  | cons y ys =>
      have hcons (last : Term) : runOn call s last (y :: ys) st =
          (evalTerm call s y >>= fun w => runOn call s w ys) st := by
        have hrunning : isBroken s st = (.ok false, st) := by
          rw [isBroken, bind_of_ok (getStore_apply st), h.running]
          rfl
        rw [runOn, runStatements, bind_apply, bind_of_ok hrunning, ← bind_apply]
        simp only [Bool.false_eq_true, if_false, bind_apply, runOn]
        rcases evalTerm call s y st with ⟨e | w, st'⟩
        · rfl
        · rfl
      rw [hcons, hcons]
      rcases (evalTerm call s y >>= fun w => runOn call s w ys) st with ⟨e | w, st'⟩
      · rfl
      · rfl

theorem reset_of_unset {σ : Store} (h : Unset σ s) : σ.reset s = σ := by
  apply store_ext
  · rfl
  · exact Store.size_modify _
  · intro t
    rw [Store.reset, Store.get_modify]
    split
    next ht =>
        rw [ht.1]
        obtain ⟨hreturned, hrunning⟩ := h
        rw [Store.isBroken] at hrunning
        generalize σ.get s = c at hreturned hrunning ⊢
        cases c with
        | mk kind bindings parent mixins returned removed =>
            cases kind
            case block b => simp_all [ScopeKind.broken?]
            all_goals rfl
    next => rfl

end RunOn

section Session

variable {host : Host}

def untold (st : State) : State :=
  { st with effects := [], debug := "", history := [] }

theorem after_untold (st : State) :
    after ⟨st.effects, st.debug, st.history⟩ (untold st) = st := by
  simp [after, untold]

theorem runOn_unaware (hh : IgnoresPast host) (s : ScopeId) (last : Term) (ts : List Term) :
    Unaware (runOn (caller host) s last ts) := by
  intro past st
  have K := unaware_kept past
  have hrel : (unaware past).Same (runOn (caller host) s last ts) := by
    apply K.bind (Likeness.runStatements_like K (caller_calls hh) last ts)
    rintro v _ rfl
    exact K.next (K.returned s) fun _ => K.value _
  obtain ⟨ho, hst, hs⟩ := hrel st
  exact ⟨Prod.ext (outcomes_eq_iff.1 ho).symm hst, hs⟩

theorem runIn_untold (hh : IgnoresPast host) (s : ScopeId) (c : Code) (st : State) :
    ∃ debug, runIn (caller host) s c st =
      ((runOn (caller host) s .null c.statements (untold st)).1,
        after ⟨st.effects, debug, st.history⟩
          (runOn (caller host) s .null c.statements (untold st)).2) := by
  have hrun : runIn (caller host) s c =
      log ("run " ++ toString c.statements.length ++ " statements") >>= fun _ =>
        runOn (caller host) s .null c.statements := rfl
  have hquiet (debug : String) : { st with debug } = after ⟨st.effects, debug, st.history⟩
      (untold st) := by
    simp [after, untold]
  have hlog (line : String) : ∃ debug, log line st = (.ok (), { st with debug }) := by
    rw [log, modify_apply]
    split
    · exact ⟨_, rfl⟩
    · exact ⟨st.debug, rfl⟩
  obtain ⟨debug, h⟩ := hlog ("run " ++ toString c.statements.length ++ " statements")
  refine ⟨debug, ?_⟩
  rw [hrun, bind_of_ok h, hquiet, (runOn_unaware hh s .null c.statements _ _).1]

def continued (v : Term) (es : List Effect) (ys : List Term) : Outcome → Outcome
  | .success w fs => .success (if ys.isEmpty then v else w) (es ++ fs)
  | .failure message e fs => .failure message e (es ++ fs)

def close (s : Session) (r : Except Failure Term) (st : State) : Except Fault Outcome × Session :=
  match r with
  | .ok v => (.ok (.success v st.effects), { s with state := st })
  | .error e => match e.text st.store with
      | .ok message =>
          let st := { st with effects := st.effects ++ [⟨["stderr"], message⟩] }
          (.ok (.failure message e st.effects), { s with state := st })
      | .error f => (.error f, { s with state := st })

theorem run_eq_close (s : Session) (c : Code) :
    s.run host c = close s (runIn (caller host) s.global c s.ready).1
      (runIn (caller host) s.global c s.ready).2 := by
  rw [Session.run]
  rcases runIn (caller host) s.global c s.ready with ⟨e | v, st⟩
  · rfl
  · rfl

theorem close_continued (s : Session) (r : Except Failure Term) (st : State) (v : Term)
    (es : List Effect) (ys : List Term) (debug : String) (history : List Moment) :
    let told := { st with effects := es ++ st.effects, debug, history }
    let whole := close s (r.map fun w => if ys.isEmpty then v else w) told
    whole.1 = (close s r st).1.map (continued v es ys) ∧
      whole.2 = { (close s r st).2 with state := { (close s r st).2.state with
        effects := es ++ (close s r st).2.state.effects, debug, history } } := by
  cases r with
  | ok w => exact ⟨rfl, rfl⟩
  | error e =>
      simp only [close, Except.map]
      cases e.text st.store with
      | ok message => simp [continued]
      | error f => exact ⟨rfl, rfl⟩

theorem statements_of_run (hh : IgnoresPast host) {s : Session} {c : Code} {v : Term}
    {es : List Effect} (h : (s.run host c).1 = .ok (.success v es))
    (hunset : Unset (s.run host c).2.state.store s.global) :
    ∃ st debug, runStatements (caller host) s.global .null c.statements (untold s.ready) =
        (.ok v, st) ∧
      Settled (untold s.ready) st ∧ st.effects = es ∧
      (s.run host c).2 = { s with state := after ⟨[], debug, []⟩ st } := by
  obtain ⟨debug, hin⟩ := runIn_untold hh s.global c s.ready
  have hsettled := (runOn_unaware hh s.global .null c.statements {} (untold s.ready)).2
  rw [Session.run, hin] at h hunset ⊢
  rw [runOn] at h hunset hsettled ⊢
  simp only [bind_apply, returned, getStore_apply, pure_apply] at h hunset hsettled ⊢
  rcases hrun : runStatements (caller host) s.global .null c.statements (untold s.ready)
    with ⟨e | w, st⟩
  all_goals simp only [hrun] at h hunset hsettled ⊢
  · split at h
    · simp at h
    · simp at h
  · have hreturned : (st.store.get s.global).returned = none := hunset.returned
    simp only [hreturned, Option.getD_none, Except.ok.injEq, Outcome.success.injEq] at h
    exact ⟨st, debug, by rw [h.1], hsettled, h.2, rfl⟩

theorem untold_ready {s : Session} (hsettled : Settled (untold s.ready) st)
    (hunset : Unset st.store s.global) (past : Past) :
    untold { s with state := after past st : Session }.ready = untold st := by
  have hdepth : st.depth = 0 := hsettled.depth
  have hframes : st.frames = [] := List.suffix_nil.1 hsettled.frames
  simp only [untold, Session.ready, after, reset_of_unset hunset, hdepth, hframes]

/-- A script may be split where its first part leaves the global scope without a value and not
broken off: its parts, run one after the other, come to what the whole script does. -/
theorem run_append (hh : IgnoresPast host) (s : Session) (xs ys : List Term) {v : Term}
    {es : List Effect} (hfirst : (s.run host ⟨xs, []⟩).1 = .ok (.success v es))
    (hunset : Unset (s.run host ⟨xs, []⟩).2.state.store s.global) :
    let whole := s.run host ⟨xs ++ ys, []⟩
    let second := (s.run host ⟨xs, []⟩).2.run host ⟨ys, []⟩
    whole.1 = second.1.map (continued v es ys) ∧
      ∃ debug history, whole.2 = { second.2 with state := { second.2.state with
        effects := es ++ second.2.state.effects, debug, history } } := by
  obtain ⟨st, debug, hxs, hsettled, rfl, hstate⟩ := statements_of_run hh hfirst hunset
  rw [hstate] at hunset ⊢
  have hst : Unset st.store s.global := hunset
  obtain ⟨debug₁, hwhole⟩ := runIn_untold hh s.global ⟨xs ++ ys, []⟩ s.ready
  obtain ⟨debug₂, hsecond⟩ := runIn_untold hh s.global ⟨ys, []⟩
    { s with state := after ⟨[], debug, []⟩ st : Session }.ready
  -- both go on with `ys` where `xs` ended, in the whole script with what that told before it
  have hgo : runOn (caller host) s.global .null (xs ++ ys) (untold s.ready) =
      ((runOn (caller host) s.global .null ys (untold st)).1.map
          fun w => if ys.isEmpty then v else w,
        after ⟨st.effects, st.debug, st.history⟩
          (runOn (caller host) s.global .null ys (untold st)).2) := by
    have hys := (runOn_unaware hh s.global .null ys ⟨st.effects, st.debug, st.history⟩
      (untold st)).1
    rw [after_untold] at hys
    rw [runOn_append hxs, runOn_last hst, hys]
  rw [untold_ready hsettled hst] at hsecond
  rw [hgo] at hwhole
  intro whole second
  simp only [whole, second, run_eq_close, hwhole, hsecond]
  generalize runOn (caller host) s.global .null ys (untold st) = r
  obtain ⟨h₁, h₂⟩ := close_continued { s with state := after ⟨[], debug, []⟩ st } r.1
    (after ⟨[], debug₂, []⟩ r.2) v st.effects ys (debug₁ ++ (st.debug ++ r.2.debug))
    (r.2.history ++ st.history ++ [])
  exact ⟨h₁, _, _, h₂⟩

end Session

theorem unaware_equipped (past : Past) : Equipped (unaware past) where
  read h := fun st => h _ _ ⟨fun _ => rfl, fun _ => rfl, fun _ _ => rfl, fun _ => rfl⟩ st
  watch h := fun st => h st.depth st
  emit e := (Unaware.emit e).same
  addMixin _ _ := (Unaware.updateStore _).same
  newScope _ := (Unaware.alloc _).same

theorem kit_ignoresPast : IgnoresPast Kit.host := by
  intro past call call' hc key i hi
  apply native_like (unaware_kept past) (unaware_equipped past) hc hi
  constructor
  · intro _
    apply Unaware.same
    exact fun _ _ => ⟨rfl, rfl, List.nil_suffix⟩
  · exact fun _ h st => h st.frames st

def telling : Session :=
  let bindings := [("let", .native ⟨1, "let", .builtin .letVar⟩),
    ("emit", .native ⟨2, "emit", .host "emit"⟩), ("add", .native ⟨3, "add", .host "add"⟩)]
  { state := { store := { scopes := #[{ bindings }] }, limit := 5 }, root := 0, global := 0 }

def valueOf : Outcome → Option Term
  | .success v _ => some v
  | .failure _ _ _ => none

def opening : List Term :=
  [.call "let" [.ref "x" none] (some ⟨[.num 2], []⟩), .call "emit" [.str "x"] none]

def closing : List Term :=
  [.call "emit" [.call "x" [] none] none, .call "add" [.call "x" [] none, .num 1] none]

theorem run_append_telling :
    let second := (telling.run Kit.host ⟨opening, []⟩).2.run Kit.host ⟨closing, []⟩
    (second.1.toOption.bind valueOf).bind Kit.integer? = some 3 ∧
      ∃ v es, (telling.run Kit.host ⟨opening, []⟩).1 = .ok (.success v es) ∧
        Unset (telling.run Kit.host ⟨opening, []⟩).2.state.store telling.global ∧
        let whole := telling.run Kit.host ⟨opening ++ closing, []⟩
        whole.1 = second.1.map (continued v es closing) ∧
          ∃ debug history, whole.2 = { second.2 with state := { second.2.state with
            effects := es ++ second.2.state.effects, debug, history } } := by
  have hsome : ((telling.run Kit.host ⟨opening, []⟩).1.toOption.bind valueOf).isSome := by
    decide +kernel
  have hreturned : ((telling.run Kit.host ⟨opening, []⟩).2.state.store.get
      telling.global).returned.isNone := by decide +kernel
  have hrunning : (telling.run Kit.host ⟨opening, []⟩).2.state.store.isBroken telling.global =
      false := by decide +kernel
  obtain ⟨v, es, hfirst⟩ : ∃ v es,
      (telling.run Kit.host ⟨opening, []⟩).1 = .ok (.success v es) := by
    rcases h : (telling.run Kit.host ⟨opening, []⟩).1 with _ | ⟨v, es⟩ | ⟨_, _, _⟩
    · simp [h, Except.toOption] at hsome
    · exact ⟨v, es, rfl⟩
    · simp [h, Except.toOption, valueOf] at hsome
  have hunset : Unset (telling.run Kit.host ⟨opening, []⟩).2.state.store telling.global :=
    ⟨Option.isNone_iff_eq_none.1 hreturned, hrunning⟩
  constructor
  · decide +kernel
  · exact ⟨v, es, hfirst, hunset, run_append kit_ignoresPast telling opening closing hfirst hunset⟩

end BlockScript.Proofs.Consecutive
