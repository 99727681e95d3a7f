import BlockScript.Proofs.CallSite
import BlockScript.Proofs.LawfulRun
import BlockScript.Proofs.Unbounded

namespace BlockScript.Proofs.Records

open Eval Evaluator Running Writing Likeness LikenessKit
open CallSite (Outcomes outcomes_eq_iff)

variable {α β : Type} {host : Host} {σ τ υ : Store} {st : State}

def form : ScopeKind → ScopeKind
  | .block _ => .block false
  | .list _ => .list []
  | k => k

def origin (c : Scope) : ScopeKind × Option ScopeId :=
  (form c.kind, c.parent)

structure Enduring (σ τ : Store) : Prop where
  size : σ.size ≤ τ.size
  origin : ∀ s < σ.size, origin (τ.get s) = origin (σ.get s)

theorem Enduring.refl (σ : Store) : Enduring σ σ :=
  ⟨Nat.le_refl _, fun _ _ => rfl⟩

theorem Enduring.trans (h : Enduring σ τ) (h' : Enduring τ υ) : Enduring σ υ where
  size := Nat.le_trans h.size h'.size
  origin s hs := (h'.origin s (Nat.lt_of_lt_of_le hs h.size)).trans (h.origin s hs)

theorem kind_of_origin {c d : Scope} {a : Activation} (h : origin c = origin d)
    (hd : d.kind = .call a) : c.kind = .call a := by
  have hform := congrArg Prod.fst h
  simp only [origin, hd] at hform
  cases hc : c.kind
  all_goals
    rw [hc] at hform
    cases hform
  rfl

theorem Enduring.call (h : Enduring σ τ) {s : ScopeId} {a : Activation}
    (hs : (σ.get s).kind = .call a) :
    (τ.get s).kind = .call a ∧ (τ.get s).parent = (σ.get s).parent := by
  by_cases hlt : s < σ.size
  · have ho := h.origin s hlt
    exact ⟨kind_of_origin ho hs, congrArg Prod.snd ho⟩
  · rw [get_of_size_le (Nat.le_of_not_lt hlt)] at hs
    cases hs

theorem origin_formal : Formal origin where
  bindings _ _ _ := rfl
  items c xs ys h := by simp [origin, form, h]

theorem enduring_of_get (hsize : τ.size = σ.size) (h : ∀ s, origin (τ.get s) = origin (σ.get s)) :
    Enduring σ τ :=
  ⟨Nat.le_of_eq hsize.symm, fun s _ => h s⟩

theorem enduring_modify {s : ScopeId} {e : Scope → Scope}
    (h : origin (e (σ.get s)) = origin (σ.get s)) : Enduring σ (σ.modify s e) :=
  enduring_of_get (Store.size_modify _) (Formal.get_modify h)

theorem enduring_alloc (c : Scope) : Enduring σ (σ.alloc c) where
  size := by simp
  origin s hs := by rw [Store.get_alloc, if_neg (Nat.ne_of_lt hs)]

theorem enduring_breakOff (s : ScopeId) : Enduring σ (σ.breakOff s) := by
  apply enduring_modify
  cases h : (σ.get s).kind <;> simp [origin, form, h]

theorem enduring_reset (s : ScopeId) : Enduring σ (σ.reset s) := by
  apply enduring_modify
  cases h : (σ.get s).kind <;> simp [origin, form, h]

theorem enduring_addMixin {s source : ScopeId} (h : σ.addMixin s source = .ok τ) :
    Enduring σ τ := by
  obtain rfl | rfl := addMixin_cases h
  · exact .refl _
  · exact enduring_modify rfl

def keeping (σ : Store) : Likeness where
  rel P m m' := ∀ st, Enduring σ st.store →
    Outcomes P (m st).1 (m' st).1 ∧ (m' st).2 = (m st).2 ∧ Enduring σ (m st).2.store
  block _ := True
  blind _ := False
  isBlock_of_blind := @isBlock_of_false

def Keeps (m : Eval α) : Prop :=
  ∀ st, Enduring st.store (m st).2.store

namespace Keeps

theorem rel {m : Eval α} (h : Keeps m) {P : α → α → Prop} (hP : ∀ a, P a a) :
    (keeping σ).rel P m m := by
  intro st hst
  refine ⟨?_, rfl, hst.trans (h st)⟩
  cases (m st).1 with
  | ok a => exact hP a
  | error e => rfl

theorem same {m : Eval α} (h : Keeps m) : (keeping σ).Same m :=
  h.rel fun _ => rfl

theorem of_quiet {m : Eval α} (h : Quiet m) : Keeps m :=
  fun st => (h st).symm ▸ .refl _

theorem modifyStore {f : Store → Store} (h : ∀ σ, Enduring σ (f σ)) : Keeps (Eval.modifyStore f) :=
  fun st => h st.store

theorem updateStore {f : Store → Except Fault Store} (h : ∀ σ τ, f σ = .ok τ → Enduring σ τ) :
    Keeps (Eval.updateStore f) := by
  intro st
  rw [updateStore_apply]
  cases hf : f st.store with
  | ok τ => exact h _ _ hf
  | error e => exact .refl _

theorem define (s : ScopeId) (n : String) (f : Term) : Keeps (Eval.define s n f) :=
  updateStore fun _ _ h => enduring_of_get (size_define h) (origin_formal.get_define h)

theorem remove (s : ScopeId) (n : String) : Keeps (Eval.remove s n) :=
  updateStore fun _ _ h => enduring_of_get (size_remove h) (origin_formal.get_remove h)

theorem alloc (c : Scope) : Keeps (Eval.alloc c) :=
  fun _ => enduring_alloc c

end Keeps

theorem bind_keeping {P : α → α → Prop} {Q : β → β → Prop} {m m' : Eval α} {k k' : α → Eval β}
    (hm : (keeping σ).rel P m m') (hk : ∀ a b, P a b → (keeping σ).rel Q (k a) (k' b)) :
    (keeping σ).rel Q (m >>= k) (m' >>= k') := by
  intro st hst
  obtain ⟨ho, hs, he⟩ := hm st hst
  rw [bind_apply, bind_apply]
  rcases h : m st with ⟨e | a, st'⟩
  all_goals rcases h' : m' st with ⟨e' | a', st''⟩
  all_goals simp only [h, h', Outcomes] at ho hs he
  · exact ⟨ho, hs, he⟩
  · subst hs
    exact hk a a' ho st'' he

theorem underFrame_keeping {frame : Frame} {m m' : Eval Term} (h : (keeping σ).rel Eq m m') :
    (keeping σ).rel Eq (underFrame frame m) (underFrame frame m') := by
  intro st hst
  obtain ⟨ho, hs, he⟩ := h (st.push frame) hst
  rw [underFrame_apply, underFrame_apply, hs, outcomes_eq_iff.1 ho]
  exact ⟨outcomes_eq_iff.2 rfl, rfl, he⟩

theorem deeper_keeping {m m' : Eval Term} (h : (keeping σ).rel Eq m m') :
    (keeping σ).rel Eq (deeper m) (deeper m') := by
  intro st hst
  obtain ⟨ho, hs, he⟩ := h st.enter hst
  rw [deeper_apply, deeper_apply, hs, outcomes_eq_iff.1 ho]
  refine ⟨outcomes_eq_iff.2 rfl, rfl, ?_⟩
  change Enduring σ (noteBound _ _).store
  rw [store_noteBound]
  exact he

theorem quiet_activation (op : Builtin) (i : Invocation) : Quiet (op.activation i) := by
  apply Quiet.getStore.bind
  intro σ
  split
  · exact .pure _
  · exact .fail _

theorem keeping_kept (σ : Store) : (keeping σ).Kept where
  closure _ _ := trivial
  pure h _ hst := ⟨h, rfl, hst⟩
  bind := bind_keeping
  fail _ _ _ hst := ⟨rfl, rfl, hst⟩
  underFrame := underFrame_keeping
  announce _ := (Keeps.of_quiet (Law.quiet_announce _ _)).same
  visit t := (Keeps.of_quiet (.visit t)).same
  log line := (Keeps.of_quiet (.log line)).same
  write line := (Keeps.of_quiet (.write line)).same
  freshMark := (Keeps.of_quiet .freshMark).same
  lookup _ _ := (Keeps.of_quiet (Quiet.getStore.bind fun _ => .ofExcept _)).same
  binds s n := (Keeps.of_quiet (.binds s n)).same
  define s n f := (Keeps.define s n f).same
  remove s n := (Keeps.remove s n).same
  returned _ := (Keeps.of_quiet (Quiet.getStore.bind fun _ => .pure _)).same
  setReturned _ _ := (Keeps.modifyStore fun _ => enduring_modify rfl).same
  isBroken s := (Keeps.of_quiet (.isBroken s)).same
  breakOff s := (Keeps.modifyStore fun _ => enduring_breakOff s).same
  numeral n := (Keeps.of_quiet (.numeral n)).same
  source t := (Keeps.of_quiet (.source t)).same
  inspect t := (Keeps.of_quiet (.inspect t)).same
  typeName t := (Keeps.of_quiet (.typeName t)).same
  className t := (Keeps.of_quiet (.className t)).same
  displayLine ts := (Keeps.of_quiet (.displayLine ts)).same
  newBlock _ := (Keeps.alloc _).same
  newList _ := bind_keeping (Keeps.alloc _).same fun _ _ h => by
    cases h
    exact (Keeps.of_quiet (.pure _)).same
  activation op i := (Keeps.of_quiet (quiet_activation op i)).rel
    fun _ => ⟨rfl, rfl, fun _ _ => trivial, .inl rfl⟩

section Watch

/-- What is done about a call instead of making it, given how it would be made. -/
abbrev Watch := Caller → Caller

def watchedDispatch (w : Watch) (host : Host) (enter : BlockCaller) : Nat → Caller
  | 0 => fun _ _ => fail .endless
  | depth + 1 => w (once host enter (watchedDispatch w host enter depth))

def watchedCall (w : Watch) (host : Host) (enter : BlockCaller) : Caller := fun f i =>
  watchedDispatch w host enter (i.weight + host.reach + 2) f i

def watchedEnter (w : Watch) (host : Host) : Nat → BlockCaller
  | 0 => fun _ _ _ => fail .endless
  | room + 1 => Unbounded.enter (watchedCall w host (watchedEnter w host room))

def watched (w : Watch) (host : Host) : Caller := fun f i => do
  let st ← get
  watchedCall w host (watchedEnter w host (st.limit - st.depth + host.reach + 1)) f i

theorem watchedDispatch_id (enter : BlockCaller) (depth : Nat) :
    watchedDispatch id host enter depth = dispatch host enter depth := by
  induction depth with
  | zero => rfl
  | succ depth ih => rw [watchedDispatch, ih, dispatch_succ, id_eq]

theorem watchedCall_id (enter : BlockCaller) : watchedCall id host enter = callWith host enter := by
  funext f i
  rw [watchedCall, watchedDispatch_id, callWith]

theorem watchedEnter_id (room : Nat) : watchedEnter id host room = enterBlock host room := by
  induction room with
  | zero => rfl
  | succ room ih =>
      funext c p i
      rw [watchedEnter, ih, watchedCall_id]
      rfl

theorem watched_id (host : Host) : watched id host = caller host := by
  funext f i
  rw [watched, caller]
  simp only [watchedEnter_id, watchedCall_id]

def Passes (P : State → Prop) (w : Watch) : Prop :=
  ∀ call f i st, P st → w call f i st = call f i st

/-- In every state in which a call is made, inside calls and natives as well, the property holds:
what would be done about calls made in other states makes no difference. -/
def Throughout (host : Host) (P : State → Prop) (F : Caller → Eval α) (st : State) : Prop :=
  ∀ w, Passes P w → F (watched w host) st = F (caller host) st

/-- A watch on one call can make it come to something else, which shows. -/
theorem exists_watch (host : Host) (f : Term) (i : Invocation) (st : State) :
    ∃ w : Watch, watched w host f i st ≠ caller host f i st ∧
      ∀ call g j st', (g, j, st') ≠ (f, i, st) → w call g j st' = call g j st' := by
  classical
  obtain ⟨out, hout⟩ : ∃ out, out ≠ caller host f i st := by
    by_cases hnull : (.ok .null, st) = caller host f i st
    · refine ⟨(.ok (.bool true), st), fun h => ?_⟩
      rw [← hnull] at h
      cases h
    · exact ⟨_, hnull⟩
  refine ⟨fun call g j st' => if (g, j, st') = (f, i, st) then out else call g j st', ?_,
    fun _ _ _ _ hne => if_neg hne⟩
  rw [watched, bind_of_ok (get_apply st), watchedCall, watchedDispatch, if_pos rfl]
  exact hout

theorem Throughout.first {P : State → Prop} {f : Term} {i : Invocation}
    (h : Throughout host P (fun call => call f i) st) : P st := by
  by_contra hP
  obtain ⟨w, hshows, hw⟩ := exists_watch host f i st
  refine hshows (h w fun call g j st' hst => hw call g j st' fun heq => ?_)
  cases heq
  exact hP hst

end Watch

section Calls

/-- The host's natives leave kinds, parents and records of scopes to the evaluator: as long as the
evaluator that they call back behaves the same in states with the scopes of a store, and keeps
these, so do they. -/
def KeepsRecords (host : Host) : Prop :=
  ∀ σ, (keeping σ).Hosts host host

variable {w : Watch} (hh : KeepsRecords host)
  (hw : ∀ call f i st, Enduring σ st.store → w call f i st = call f i st)
include hh hw

omit hh in
theorem watch_calls {call call' : Caller} (h : (keeping σ).Calls call call') :
    (keeping σ).Calls call (w call') := by
  intro f i j hij st hst
  rw [hw call' f j st hst]
  exact h f i j hij st hst

theorem watchedDispatch_calls {enter enter' : BlockCaller} (he : (keeping σ).Enters enter enter')
    (depth : Nat) :
    (keeping σ).Calls (dispatch host enter depth) (watchedDispatch w host enter' depth) := by
  induction depth with
  | zero => exact fun _ _ _ _ => (Keeps.of_quiet (.fail _)).same
  | succ depth ih =>
      rw [dispatch_succ, watchedDispatch]
      exact watch_calls hw (once_calls (keeping_kept σ) (hh σ) he ih)

theorem watchedCall_calls {enter enter' : BlockCaller} (he : (keeping σ).Enters enter enter') :
    (keeping σ).Calls (callWith host enter) (watchedCall w host enter') := by
  intro f i j hij
  obtain rfl := hij.eq_of_not_blind id
  exact watchedDispatch_calls hh hw he _ f i i hij

omit hh hw in
theorem enter_like {call call' : Caller} (hc : (keeping σ).Calls call call') (c : Code)
    (p : ScopeId) (i : Invocation) :
    (keeping σ).rel Eq (Unbounded.enter call c p i) (Unbounded.enter call' c p i) := by
  have K := keeping_kept σ
  intro st hst
  rw [Unbounded.enter, Unbounded.enter, bind_of_ok (get_apply st), bind_of_ok (get_apply st)]
  split
  · exact (Keeps.of_quiet (.fail _)).same st hst
  · refine (?_ : (keeping σ).rel Eq _ _) st hst
    apply K.next (Keeps.alloc _).same
    intro s
    apply K.next (bindParams_same K s _)
    intro _
    apply K.next (K.log _)
    intro _
    exact deeper_keeping (run_like K hc c)

theorem watchedEnter_enters (room : Nat) :
    (keeping σ).Enters (enterBlock host room) (watchedEnter w host room) := by
  have K := keeping_kept σ
  induction room with
  | zero =>
      intro c p i j hij
      obtain rfl := hij.eq_of_not_blind id
      apply K.next (Keeps.of_quiet (Law.quiet_announce _ _)).same
      exact fun _ => (Keeps.of_quiet (.fail _)).same
  | succ room ih =>
      intro c p i j hij
      obtain rfl := hij.eq_of_not_blind id
      apply K.next (Keeps.of_quiet (Law.quiet_announce _ _)).same
      exact fun _ => enter_like (watchedCall_calls hh hw ih) c p i

omit hw in
theorem enterBlock_enters (σ : Store) (room : Nat) :
    (keeping σ).Enters (enterBlock host room) (enterBlock host room) := by
  have h := watchedEnter_enters (σ := σ) (w := id) hh (fun _ _ _ _ _ => rfl) room
  rw [watchedEnter_id] at h
  exact h

omit hw in
theorem caller_calls (σ : Store) : (keeping σ).Calls (caller host) (caller host) := by
  intro f i j hij st hst
  rw [caller, caller, bind_of_ok (get_apply st), bind_of_ok (get_apply st)]
  exact callWith_calls (keeping_kept σ) (hh σ) (enterBlock_enters hh σ _) f i j hij st hst

end Calls

section Body

variable {c : Code} {p s : ScopeId} {i : Invocation}

structure Begun (p : ScopeId) (i : Invocation) (s : ScopeId) (σ : Store) : Prop where
  size : s + 1 < σ.size
  kind : (σ.get s).kind = .call ⟨i.args, i.block, i.scope⟩
  parent : (σ.get s).parent = some p
  body : origin (σ.get (s + 1)) = (.block false, some s)

theorem Begun.later (h : Begun p i s σ) (hστ : Enduring σ τ) : Begun p i s τ where
  size := Nat.lt_of_lt_of_le h.size hστ.size
  kind := (hστ.call h.kind).1
  parent := (hστ.call h.kind).2.trans h.parent
  body := (hστ.origin (s + 1) h.size).trans h.body

/-- What the builtins that ask for the call answer in the body of a call, wherever the store is the
given one. -/
structure Answers (i : Invocation) (b : ScopeId) (σ : Store) : Prop where
  param : ∀ call j k (st : State), st.store = σ → j.scope = some b → j.args = [.num k] → 0 ≤ k →
    Builtin.param.run call j st = (.ok (i.args.getD k.toNat .null), st)
  args : ∀ call j (st : State), st.store = σ → j.scope = some b →
    Builtin.args.run call j st =
      (.ok (.scope σ.size), { st with store := σ.alloc { kind := .list i.args } })
  yield : ∀ call j (st : State), st.store = σ → j.scope = some b →
    Builtin.yield.run call j st = match i.block with
      | some y => call y { j with scope := i.scope } st
      | none => fail .noYieldBlock st

example : Fault.noYieldBlock.message = "Expected yield function." := rfl

theorem block_of_origin {d : Scope} {q : Option ScopeId} (h : origin d = (.block false, q)) :
    ∃ broken, d.kind = .block broken := by
  have hform := congrArg Prod.fst h
  simp only [origin] at hform
  cases hd : d.kind
  all_goals
    rw [hd] at hform
    cases hform
  exact ⟨_, rfl⟩

theorem Begun.callScope (h : Begun p i s σ) : σ.callScope? (s + 1) = some s := by
  obtain ⟨broken, hbody⟩ := block_of_origin h.body
  have hparent : (σ.get (s + 1)).parent = some s := congrArg Prod.snd h.body
  have hchain : σ.chain (s + 1) = (s + 1) :: s :: σ.chainWithin s p := by
    simp only [Store.chain, Store.chainWithin, hparent, h.parent]
  have hpasses : σ.settlesCall (s + 1) = false := by simp only [Store.settlesCall, hbody]
  have hsettles : σ.settlesCall s = true := by simp only [Store.settlesCall, h.kind]
  have hcall : σ.isCall s = true := by
    simp only [Store.isCall, h.kind, ScopeKind.activation?, Option.isSome_some]
  rw [Store.callScope?, hchain, List.find?_cons_of_neg (by simp [hpasses]),
    List.find?_cons_of_pos hsettles, Option.filter_some_pos hcall]

theorem Begun.activation (h : Begun p i s st.store) (op : Builtin) {j : Invocation}
    (hj : j.scope = some (s + 1)) :
    op.activation j st = (.ok ⟨i.args, i.block, i.scope⟩, st) := by
  rw [Builtin.activation, bind_of_ok (getStore_apply st), hj]
  simp only [Option.bind_some, h.callScope, h.kind, ScopeKind.activation?]
  rfl

theorem Begun.answers (h : Begun p i s σ) : Answers i (s + 1) σ where
  param call j k st hst hj hargs hk := by
    subst hst
    have hindex : Builtin.indexArg j = pure k := by rw [Builtin.indexArg, hargs]
    have htag : Builtin.tagArg j = pure .any := by rw [Builtin.tagArg, hargs]
    have hcheck : Builtin.checkIndex k = pure () := by
      rw [Builtin.checkIndex, if_neg (Int.not_lt.2 hk)]
    rw [Builtin.run, hindex, htag, bind_of_ok (pure_apply _ _), bind_of_ok (pure_apply _ _), hcheck,
      bind_of_ok (pure_apply _ _), bind_of_ok (h.activation .param hj)]
    rfl
  args call j st hst hj := by
    subst hst
    rw [Builtin.run, bind_of_ok (h.activation .args hj)]
    rfl
  yield call j st hst hj := by
    subst hst
    rw [Builtin.run, bind_of_ok (h.activation .yield hj)]
    cases i.block with
    | none => rfl
    | some y => rfl

theorem size_bindParams (s : ScopeId) (ps : List (String × Term)) (st : State) :
    (bindParams s ps st).2.store.size = st.store.size := by
  induction ps generalizing st with
  | nil => rfl
  | cons q ps ih =>
      rw [bindParams, bind_of_ok (m := freshMark) rfl, bind_apply, Eval.define, updateStore_apply]
      split
      next a st' hd =>
        split at hd
        next τ hτ =>
            cases hd
            rw [ih]
            exact size_define hτ
        next => cases hd
      next e st' hd =>
        split at hd
        next => cases hd
        next =>
          cases hd
          rfl

def callScope (p : ScopeId) (i : Invocation) : Scope :=
  { kind := .call ⟨i.args, i.block, i.scope⟩, parent := some p }

theorem begun_alloc (h : Enduring (σ.alloc (callScope p i)) τ) (hsize : τ.size = σ.size + 1) :
    Begun p i σ.size (τ.alloc { kind := .block false, parent := some σ.size }) := by
  have hget : (σ.alloc (callScope p i)).get σ.size = callScope p i := by
    rw [Store.get_alloc, if_pos rfl]
  have hnew : ((σ.alloc (callScope p i)).get σ.size).kind = .call ⟨i.args, i.block, i.scope⟩ := by
    rw [hget]
    rfl
  obtain ⟨hkind, hparent⟩ := h.call hnew
  have hold : (τ.alloc { kind := .block false, parent := some σ.size }).get σ.size =
      τ.get σ.size := by
    rw [Store.get_alloc, if_neg (by rw [hsize]; exact Nat.ne_of_lt (Nat.lt_succ_self _))]
  constructor
  · rw [Store.size_alloc, hsize]
    exact Nat.lt_succ_self _
  · rw [hold, hkind]
  · rw [hold, hparent, hget]
    rfl
  · rw [Store.get_alloc, if_pos hsize.symm]
    rfl

theorem bind_congr {m : Eval α} {k k' : α → Eval β}
    (h : ∀ a st', m st = (.ok a, st') → k a st' = k' a st') : (m >>= k) st = (m >>= k') st := by
  rw [bind_apply, bind_apply]
  rcases hm : m st with ⟨e | a, st'⟩
  · rfl
  · exact h a st' hm

theorem store_of_quiet {m : Eval α} {r : Except Failure α} {st' : State} (h : Quiet m)
    (hm : m st = (r, st')) : st'.store = st.store := by
  have hst := h st
  rw [hm] at hst
  exact hst

theorem enter_body {call call' : Caller}
    (h : ∀ st', Begun p i st.store.size st'.store →
      runIn call (st.store.size + 1) c st' = runIn call' (st.store.size + 1) c st') :
    Unbounded.enter call c p i st = Unbounded.enter call' c p i st := by
  rw [Unbounded.enter, Unbounded.enter, bind_of_ok (get_apply st), bind_of_ok (get_apply st)]
  split
  · rfl
  · apply bind_congr
    intro s st₁ hst₁
    obtain ⟨rfl, hstore⟩ : s = st.store.size ∧ st₁.store = st.store.alloc (callScope p i) := by
      cases hst₁
      exact ⟨rfl, rfl⟩
    apply bind_congr
    intro _ st₂ hst₂
    have hsize : st₂.store.size = st.store.size + 1 := by
      have hbind := size_bindParams st.store.size (c.params.zip i.args) st₁
      rw [hst₂, hstore, Store.size_alloc] at hbind
      exact hbind
    obtain ⟨-, -, hendures⟩ := bindParams_same (keeping_kept st₁.store) st.store.size
      (c.params.zip i.args) st₁ (.refl _)
    rw [hst₂, hstore] at hendures
    apply bind_congr
    intro _ st₃ hst₃
    have hlog : st₃.store = st₂.store := store_of_quiet (.log _) hst₃
    have hrun : run call c st.store.size st₃.enter = run call' c st.store.size st₃.enter := by
      apply bind_congr
      intro b st₄ hst₄
      obtain ⟨rfl, hstore₄⟩ : b = st₃.store.size ∧ st₄.store = st₃.store.alloc
          { kind := .block false, parent := some st.store.size } := by
        cases hst₄
        exact ⟨rfl, rfl⟩
      rw [hlog] at hstore₄ ⊢
      rw [hsize]
      apply h
      rw [hstore₄]
      exact begun_alloc hendures hsize
    rw [deeper_apply, deeper_apply, hrun]

end Body

def bodyScope (st : State) : ScopeId :=
  st.store.size + 1

theorem keeping_eq {m m' : Eval α} (h : (keeping σ).rel Eq m m') (hst : Enduring σ st.store) :
    m' st = m st := by
  obtain ⟨ho, hs, -⟩ := h st hst
  exact Prod.ext (outcomes_eq_iff.1 ho).symm hs

theorem perform_keeps (hh : KeepsRecords host) (q : Request) (st : State) :
    Enduring st.store (q.perform host st).2.store := by
  obtain ⟨-, -, hendures⟩ := askedOf_like (keeping_kept st.store) (caller_calls hh st.store)
    (fun _ => trivial) q st (.refl _)
  exact hendures

theorem call_throughout (hh : KeepsRecords host) (st : State) (c : Code) (p : ScopeId)
    (i : Invocation) :
    Throughout host (fun st' => bodyScope st < st'.store.size → Answers i (bodyScope st) st'.store)
      (fun call => call (.block c p) i) st := by
  intro w hw
  change watched w host (.block c p) i st = caller host (.block c p) i st
  have hfirst : ¬bodyScope st < st.store.size := Nat.not_lt.2 (Nat.le_succ _)
  rw [watched, caller, bind_of_ok (get_apply st), bind_of_ok (get_apply st), watchedCall, callWith,
    watchedDispatch, dispatch_succ, hw _ _ _ _ fun h => absurd h hfirst]
  apply bind_congr
  intro _ st₁ hst₁
  have hstore : st₁.store = st.store := store_of_quiet (Law.quiet_announce _ _) hst₁
  apply enter_body
  intro st₂ hbegun
  rw [hstore] at hbegun ⊢
  have hanswers (call : Caller) (f : Term) (j : Invocation) (st' : State)
      (h : Enduring st₂.store st'.store) : w call f j st' = call f j st' := by
    apply hw
    intro _
    exact (hbegun.later h).answers
  have hcalls := watchedCall_calls hh hanswers (watchedEnter_enters hh hanswers
    (st.limit - st.depth + host.reach))
  exact keeping_eq (runIn_like (keeping_kept st₂.store) hcalls c) (.refl _)

/-- As long as natives leave records to the evaluator, no request changes the record or the parent of
any call scope, and whenever something is called while the body of a block runs, the builtins give
the arguments and the yield block that the block was called with. -/
theorem record_fixed (hh : KeepsRecords host) (st : State) :
    (∀ (q : Request) s a, (st.store.get s).kind = .call a →
      ((q.perform host st).2.store.get s).kind = .call a ∧
        ((q.perform host st).2.store.get s).parent = (st.store.get s).parent) ∧
    ∀ c p i, Throughout host
      (fun st' => bodyScope st < st'.store.size → Answers i (bodyScope st) st'.store)
      (fun call => call (.block c p) i) st :=
  ⟨fun q _ _ hs => (perform_keeps hh q st).call hs, call_throughout hh st⟩

theorem keeping_equipped (σ : Store) : Equipped (keeping σ) where
  read h := fun st => h _ _ ⟨fun _ => rfl, fun _ => rfl, fun _ _ => rfl, fun _ => rfl⟩ st
  watch h := fun st => h st.depth st
  emit _ := (Keeps.of_quiet fun _ => rfl).same
  addMixin _ _ := (Keeps.updateStore fun _ _ => enduring_addMixin).same
  newScope _ := (Keeps.alloc _).same

theorem kit_keepsRecords : KeepsRecords Kit.host := by
  intro σ call call' hc key i hi
  apply native_like (keeping_kept σ) (keeping_equipped σ) hc hi
  constructor
  · intro _
    apply Keeps.same
    exact Keeps.of_quiet fun _ => rfl
  · exact fun _ h st => h st.frames st

def recalling : State :=
  let bindings := [("let", .native ⟨1, "let", .builtin .letVar⟩),
    ("p", .native ⟨2, "p", .builtin .param⟩)]
  let call : Scope := { kind := .call ⟨[.num 5], none, none⟩, parent := some 0 }
  { store := { scopes := #[{ bindings }, call] }, limit := 5 }

def forgetful : Code where
  statements := [.call "let" [.ref "x" none] (some ⟨[.num 9], []⟩), .call "p" [.num 0] none]
  params := ["x"]

def remembering : Request :=
  .call (.block forgetful 0) ⟨[.num 1], none, some 0⟩

theorem record_fixed_recalling :
    (remembering.perform Kit.host recalling).1.toOption.bind Kit.integer? = some 1 ∧
      ((remembering.perform Kit.host recalling).2.store.get 1).kind = .call ⟨[.num 5], none, none⟩ ∧
      Throughout Kit.host
        (fun st => bodyScope recalling < st.store.size →
          Answers ⟨[.num 1], none, some 0⟩ (bodyScope recalling) st.store)
        (fun call => call (.block forgetful 0) ⟨[.num 1], none, some 0⟩) recalling := by
  have h := record_fixed kit_keepsRecords recalling
  constructor
  · decide +kernel
  · exact ⟨(h.1 remembering 1 _ rfl).1, h.2 forgetful 0 _⟩

end BlockScript.Proofs.Records
