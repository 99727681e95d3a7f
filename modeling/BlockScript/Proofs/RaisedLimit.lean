import BlockScript.Proofs.CallSite
import BlockScript.Proofs.Hosting

namespace BlockScript.Proofs.RaisedLimit

open Eval Evaluator Running LikenessKit
open CallSite (Outcomes outcomes_eq_iff)

variable {α β : Type} {E : Fault → Prop} {st st' : State}

def withLimit (limit : Nat) (st : State) : State :=
  { st with limit }

structure Raised (st st' : State) : Prop where
  le : st.limit ≤ st'.limit
  rest : st' = withLimit st'.limit st

/-- Two runs from states that differ in their limits: unless the first ends with a fault in `E`, they
end alike. -/
def barring (E : Fault → Prop) : Likeness where
  rel P m m' := ∀ st st', Raised st st' →
    (∃ e, (m st).1 = .error e ∧ E e.fault) ∨
      Outcomes P (m st).1 (m' st').1 ∧ Raised (m st).2 (m' st').2
  block _ := True
  blind _ := False
  isBlock_of_blind := False.elim

theorem Raised.map (h : Raised st st') {F : State → State}
    (hF : ∀ limit st, F (withLimit limit st) = withLimit limit (F st)) :
    Raised (F st) (F st') := by
  have hlimit (st : State) : (F st).limit = st.limit := by
    have h := congrArg State.limit (hF st.limit st)
    exact h
  refine ⟨?_, ?_⟩
  · rw [hlimit, hlimit]
    exact h.le
  · rw [hlimit, h.rest]
    exact hF _ _

def Blind (m : Eval α) : Prop :=
  ∀ limit st, m (withLimit limit st) = ((m st).1, withLimit limit (m st).2)

namespace Blind

theorem rel {m : Eval α} (h : Blind m) {P : α → α → Prop} (hP : ∀ a, P a a) :
    (barring E).rel P m m := by
  intro st st' hs
  have hfirst : (m st').1 = (m st).1 := by rw [hs.rest, h]
  have hmap := hs.map (F := fun st => (m st).2) fun limit st => by rw [h]
  refine .inr ⟨?_, hmap⟩
  rw [hfirst]
  cases (m st).1 with
  | ok a => exact hP a
  | error e => rfl

theorem same {m : Eval α} (h : Blind m) : (barring E).Same m :=
  h.rel fun _ => rfl

theorem pure (a : α) : Blind (Pure.pure a : Eval α) := fun _ _ => rfl

theorem fail (f : Fault) : Blind (Eval.fail f : Eval α) := fun _ _ => rfl

theorem getStore : Blind Eval.getStore := fun _ _ => rfl

theorem bind {m : Eval α} {k : α → Eval β} (hm : Blind m) (hk : ∀ a, Blind (k a)) :
    Blind (m >>= k) := by
  intro limit st
  rw [bind_apply, bind_apply, hm]
  rcases m st with ⟨_ | a, st'⟩
  · rfl
  · exact hk a limit st'

theorem ofExcept (r : Except Fault α) : Blind (Eval.ofExcept r) := by
  cases r with
  | ok a => exact pure a
  | error f => exact fail f

theorem modifyStore (f : Store → Store) : Blind (Eval.modifyStore f) := fun _ _ => rfl

theorem updateStore (f : Store → Except Fault Store) : Blind (Eval.updateStore f) :=
  getStore.bind fun _ => (ofExcept _).bind fun _ => modifyStore _

theorem alloc (c : Scope) : Blind (Eval.alloc c) := fun _ _ => rfl

theorem freshMark : Blind Eval.freshMark := fun _ _ => rfl

theorem className (t : Term) : Blind (Eval.className t) := fun _ _ => rfl

theorem record (e : Event) : Blind (Eval.record e) := fun _ _ => rfl

theorem log (line : String) : Blind (Eval.log line) := by
  intro limit st
  rw [Eval.log, modify_apply, modify_apply]
  by_cases h : st.debugging
  · rw [if_pos h, if_pos (by exact h)]
    rfl
  · rw [if_neg h, if_neg (by exact h)]

theorem announce (f : Term) (i : Invocation) : Blind (announce f i) :=
  (record _).bind fun _ => (className f).bind fun _ => log _

theorem displayLine (ts : List Term) : Blind (Eval.displayLine ts) :=
  getStore.bind fun _ => (ofExcept _).bind fun _ => pure _

theorem activation (op : Builtin) (i : Invocation) : Blind (op.activation i) := by
  refine getStore.bind fun σ => ?_
  split
  · exact pure _
  · exact fail _

end Blind

theorem bind_barring {P : α → α → Prop} {Q : β → β → Prop} {m m' : Eval α} {k k' : α → Eval β}
    (hm : (barring E).rel P m m') (hk : ∀ a b, P a b → (barring E).rel Q (k a) (k' b)) :
    (barring E).rel Q (m >>= k) (m' >>= k') := by
  intro st st' hs
  rw [bind_apply, bind_apply]
  rcases hm st st' hs with ⟨e, he, hE⟩ | ⟨ho, hs'⟩
  · rcases h : m st with ⟨e' | a, τ⟩
    all_goals simp only [h] at he
    · obtain rfl := Except.error.inj he
      exact .inl ⟨e', rfl, hE⟩
    · cases he
  · rcases h : m st with ⟨e | a, τ⟩
    all_goals rcases h' : m' st' with ⟨e' | a', τ'⟩
    all_goals simp only [h, h', Outcomes] at ho hs'
    · exact .inr ⟨ho, hs'⟩
    · exact hk a a' ho τ τ' hs'

theorem underFrame_barring {frame : Frame} {m m' : Eval Term} (h : (barring E).rel Eq m m') :
    (barring E).rel Eq (underFrame frame m) (underFrame frame m') := by
  intro st st' hs
  rw [underFrame_apply, underFrame_apply]
  rcases h _ _ (hs.map (F := fun st => st.push frame) fun _ _ => rfl) with ⟨e, he, hE⟩ | ⟨ho, hs'⟩
  · rw [he]
    exact .inl ⟨_, rfl, hE⟩
  · have hframes : (m' (st'.push frame)).2.frames = (m (st.push frame)).2.frames := by
      rw [hs'.rest]
      rfl
    rw [hframes, outcomes_eq_iff.1 ho]
    exact .inr ⟨outcomes_eq_iff.2 rfl, hs'.map (F := State.pop) fun _ _ => rfl⟩

theorem barring_kept (E : Fault → Prop) : (barring E).Kept where
  closure _ _ := trivial
  pure h _ _ hs := .inr ⟨h, hs⟩
  bind := bind_barring
  fail f _ _ _ hs := .inr ⟨rfl, hs.map (F := fun st => st.note (.failed f)) fun _ _ => rfl⟩
  underFrame := underFrame_barring
  announce _ := (Blind.announce _ _).same
  visit _ := Blind.same fun _ _ => rfl
  log line := (Blind.log line).same
  write _ := Blind.same fun _ _ => rfl
  freshMark := Blind.freshMark.same
  lookup _ _ := (Blind.getStore.bind fun _ => .ofExcept _).same
  binds _ _ := (Blind.getStore.bind fun _ => .ofExcept _).same
  define _ _ _ := (Blind.updateStore _).same
  remove _ _ := (Blind.updateStore _).same
  returned _ := Blind.same fun _ _ => rfl
  setReturned _ _ := (Blind.modifyStore _).same
  isBroken _ := Blind.same fun _ _ => rfl
  breakOff _ := (Blind.modifyStore _).same
  numeral _ := (Blind.getStore.bind fun _ => .ofExcept _).same
  source _ := (Blind.getStore.bind fun _ => .ofExcept _).same
  inspect _ := (Blind.getStore.bind fun _ => .ofExcept _).same
  typeName _ := (Blind.getStore.bind fun _ => .ofExcept _).same
  className t := (Blind.className t).same
  displayLine ts := (Blind.displayLine ts).same
  newBlock _ := (Blind.alloc _).same
  newList _ := ((Blind.alloc _).bind fun _ => .pure _).same
  activation op i := (Blind.activation op i).rel fun _ => ⟨rfl, rfl, fun _ _ => trivial, .inl rfl⟩

structure Covers (E : Fault → Prop) : Prop where
  refused : ∀ limit depth, E (.depthExceeded limit depth)
  exhausted : ∀ limit depth, E (.stackExhausted limit depth)

def inside (E : Fault → Prop) (f : Fault) : Prop :=
  E f ∨ f.isExhaustion = true

theorem inside_eq (hx : ∀ f, f.isExhaustion = true → E f) : inside E = E := by
  funext f
  exact propext ⟨fun h => h.elim id (hx f), .inl⟩

theorem Covers.inside (hE : Covers E) : Covers (inside E) :=
  ⟨fun limit depth => .inl (hE.refused limit depth), fun limit depth => .inl (hE.exhausted limit depth)⟩

theorem withBound_exhausted {limit depth : Nat} {e : Failure} (h : e.fault.isExhaustion = true) :
    withBound limit depth (.error e : Except Failure α) =
      .error ⟨.stackExhausted limit depth, none⟩ := by
  rw [withBound, if_pos h]

theorem withBound_passing {limit depth : Nat} {e : Failure} (h : ¬e.fault.isExhaustion = true) :
    withBound limit depth (.error e : Except Failure α) = .error e := by
  rw [withBound, if_neg h]

theorem deeper_barring (hE : Covers E) {m m' : Eval Term}
    (h : (barring (inside E)).rel Eq m m') :
    (barring E).rel Eq (deeper m) (deeper m') := by
  intro st st' hs
  rw [deeper_apply, deeper_apply]
  rcases h _ _ (hs.map (F := State.enter) fun _ _ => rfl) with ⟨e, he, hfault⟩ | ⟨ho, hs'⟩
  · rw [he]
    by_cases hx : e.fault.isExhaustion = true
    · exact .inl ⟨_, withBound_exhausted hx, hE.exhausted _ _⟩
    · exact .inl ⟨e, withBound_passing hx, hfault.resolve_right hx⟩
  · rw [outcomes_eq_iff.1 ho]
    cases (m' st'.enter).1 with
    | ok a => exact .inr ⟨rfl, hs'.map (F := State.leave) fun _ _ => rfl⟩
    | error e =>
        by_cases hx : e.fault.isExhaustion = true
        · exact .inl ⟨_, withBound_exhausted hx, hE.exhausted _ _⟩
        · rw [withBound_passing hx, withBound_passing hx, noteBound, noteBound, if_neg hx, if_neg hx]
          exact .inr ⟨rfl, hs'.map (F := State.leave) fun _ _ => rfl⟩

section Calls

variable {host : Host}

/-- The host's natives neither ask for the limit nor catch failures: whatever faults are passed over,
as long as the evaluator that they call back compares but for those, so do they. -/
def IgnoresLimit (host : Host) : Prop :=
  ∀ E, (barring E).Hosts host host

theorem enterBlock_succ (hh : IgnoresLimit host) (hE : Covers E) {room room' : Nat}
    (he : (barring (inside E)).Enters (enterBlock host room) (enterBlock host room')) :
    (barring E).Enters (enterBlock host (room + 1)) (enterBlock host (room' + 1)) := by
  have K := barring_kept E
  intro c p i j hij
  obtain rfl := hij.eq_of_not_blind id
  refine K.next (Blind.announce _ _).same fun _ => ?_
  intro st st' hs
  rw [enterBlock, enterBlock, bind_of_ok (get_apply st), bind_of_ok (get_apply st')]
  by_cases hlim : st.limit ≤ st.depth
  · rw [if_pos hlim]
    exact .inl ⟨_, rfl, hE.refused _ _⟩
  · have hdepth : st'.depth = st.depth := by rw [hs.rest]; rfl
    have hle := hs.le
    rw [if_neg hlim, if_neg (by omega)]
    refine (?_ : (barring E).rel Eq _ _) st st' hs
    refine K.next (Blind.alloc _).same fun s => ?_
    refine K.next (Likeness.bindParams_same K s _) fun _ => K.next (K.log _) fun _ => ?_
    have K' := barring_kept (inside E)
    exact deeper_barring hE (Likeness.run_like K' (Likeness.callWith_calls K' (hh _) he) c)

theorem enterBlock_enters (hh : IgnoresLimit host) (hE : Covers E)
    (hx : ∀ f, f.isExhaustion = true → E f) {room room' : Nat} (h : room ≤ room') :
    (barring E).Enters (enterBlock host room) (enterBlock host room') := by
  induction room generalizing room' with
  | zero =>
      intro c p i j hij
      obtain rfl := hij.eq_of_not_blind id
      refine (barring_kept E).next (Blind.announce _ _).same fun _ => ?_
      exact fun _ _ _ => .inl ⟨_, rfl, hx _ rfl⟩
  | succ room ih =>
      obtain ⟨room', rfl⟩ : ∃ k, room' = k + 1 := ⟨room' - 1, by omega⟩
      have hle : room ≤ room' := by omega
      refine enterBlock_succ hh hE ?_
      rw [inside_eq hx]
      exact ih hle

theorem caller_calls (hh : IgnoresLimit host) (hE : Covers E) :
    (barring E).Calls (caller host) (caller host) := by
  intro f i j hij st st' hs
  have hdepth : st'.depth = st.depth := by rw [hs.rest]; rfl
  have hroom : st.limit - st.depth + host.reach ≤ st'.limit - st'.depth + host.reach := by
    have := hs.le
    omega
  have henter := enterBlock_enters hh hE.inside (fun f hf => .inr hf) hroom
  have hcalls := Likeness.callWith_calls (barring_kept E) (hh E) (enterBlock_succ hh hE henter)
  rw [caller, caller, bind_of_ok (get_apply st), bind_of_ok (get_apply st')]
  exact hcalls f i j hij st st' hs

end Calls

section Session

variable {host : Host} {s : Session} {c : Code}

def ofLimit (f : Fault) : Prop :=
  f.report?.map Report.kind = some .recursionLimit

def Stopped (host : Host) (s : Session) (c : Code) : Prop :=
  ∃ e, (runIn (caller host) s.global c s.ready).1 = .error e ∧ ofLimit e.fault

theorem stopped_iff {message : String} {e : Failure} {effects : List Effect}
    (h : (s.run host c).1 = .ok (.failure message e effects)) :
    Stopped host s c ↔ ofLimit e.fault := by
  rw [Session.run] at h
  rw [Stopped]
  rcases hr : runIn (caller host) s.global c s.ready with ⟨e' | v, st⟩
  · cases ht : e'.text st.store with
    | ok text =>
        simp only [hr, ht, Except.ok.injEq, Outcome.failure.injEq] at h
        obtain ⟨-, rfl, -⟩ := h
        simp
    | error f => simp [hr, ht] at h
  · simp [hr] at h

def raise (limit : Nat) (s : Session) : Session :=
  { s with state := withLimit limit s.state }

theorem runIn_raised (hh : IgnoresLimit host) (h : ¬Stopped host s c) {limit : Nat}
    (hle : s.state.limit ≤ limit) :
    ∃ limit', runIn (caller host) s.global c (raise limit s).ready =
      ((runIn (caller host) s.global c s.ready).1,
        withLimit limit' (runIn (caller host) s.global c s.ready).2) := by
  have hE : Covers ofLimit := ⟨fun _ _ => rfl, fun _ _ => rfl⟩
  have hrel := Likeness.runIn_like (s := s.global) (barring_kept ofLimit) (caller_calls hh hE) c
  rcases hrel s.ready (raise limit s).ready ⟨hle, rfl⟩ with hstopped | ⟨ho, -, hrest⟩
  · exact absurd hstopped h
  · refine ⟨(runIn (caller host) s.global c (raise limit s).ready).2.limit, ?_⟩
    rw [← hrest, outcomes_eq_iff.1 ho]
    rfl

/-- A script that the limit does not stop goes the same way under any higher one. -/
theorem run_raised (hh : IgnoresLimit host) (h : ¬Stopped host s c) {limit : Nat}
    (hle : s.state.limit ≤ limit) :
    ((raise limit s).run host c).1 = (s.run host c).1 ∧
      ∃ limit', ((raise limit s).run host c).2 = raise limit' (s.run host c).2 := by
  obtain ⟨limit', hrun⟩ := runIn_raised hh h hle
  have hglobal : (raise limit s).global = s.global := rfl
  rw [Session.run, Session.run, hglobal, hrun]
  rcases runIn (caller host) s.global c s.ready with ⟨e | v, st⟩
  · have htext : e.text (withLimit limit' st).store = e.text st.store := rfl
    simp only [htext]
    cases e.text st.store with
    | ok message => exact ⟨rfl, limit', rfl⟩
    | error f => exact ⟨rfl, limit', rfl⟩
  · exact ⟨rfl, limit', rfl⟩

end Session

theorem barring_equipped (E : Fault → Prop) : Equipped (barring E) where
  read h := by
    intro st st' hs
    have hstore : st'.store = st.store := by rw [hs.rest]; rfl
    rw [bind_of_ok (getStore_apply st), bind_of_ok (getStore_apply st'), hstore]
    exact h _ _ ⟨fun _ => rfl, fun _ => rfl, fun _ _ => rfl, fun _ => rfl⟩ st st' hs
  watch h := by
    intro st st' hs
    have hdepth : st'.depth = st.depth := by rw [hs.rest]; rfl
    rw [bind_of_ok (get_apply st), bind_of_ok (get_apply st'), hdepth]
    exact h _ st st' hs
  emit _ := Blind.same fun _ _ => rfl
  addMixin _ _ := (Blind.updateStore _).same
  newScope _ := (Blind.alloc _).same

theorem barring_framing (E : Fault → Prop) (key : String) : Framing (barring E) key where
  clear _ := Blind.same fun _ _ => rfl
  stack _ h := by
    intro st st' hs
    have hframes : st'.frames = st.frames := by rw [hs.rest]; rfl
    rw [bind_of_ok (get_apply st), bind_of_ok (get_apply st'), hframes]
    exact h _ st st' hs

theorem kit_ignoresLimit : IgnoresLimit Kit.host :=
  fun E _ _ hc key _ hi =>
    native_like (barring_kept E) (barring_equipped E) hc hi (barring_framing E key)

def shallow : Session :=
  let calls (f : Term) : Code := ⟨[f], []⟩
  let bindings := [("f", .block (calls (.call "g" [] none)) 0), ("g", .block (calls (.num 7)) 0)]
  { state := { store := { scopes := #[{ bindings }] }, limit := 2 }, root := 0, global := 0 }

theorem run_raised_shallow :
    let c : Code := ⟨[.call "f" [] none], []⟩
    shallow.state.limit ≤ 100 ∧ ¬Stopped Kit.host shallow c ∧
      ((raise 100 shallow).run Kit.host c).1 = (shallow.run Kit.host c).1 ∧
      ∃ limit', ((raise 100 shallow).run Kit.host c).2 = raise limit' (shallow.run Kit.host c).2 := by
  intro c
  have hle : shallow.state.limit ≤ 100 := by decide
  have hrun : (runIn (caller Kit.host) shallow.global c shallow.ready).1.toOption.isSome := by
    decide +kernel
  have h : ¬Stopped Kit.host shallow c := by
    rintro ⟨e, he, -⟩
    rw [he] at hrun
    cases hrun
  exact ⟨hle, h, run_raised kit_ignoresLimit h hle⟩

end BlockScript.Proofs.RaisedLimit
