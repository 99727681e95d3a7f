import BlockScript.Proofs.Binding
import BlockScript.Proofs.Faulting
import BlockScript.Proofs.LikenessKit
import Mathlib.Data.List.Chain

namespace BlockScript.Proofs.Depth

open Eval Evaluator Running Faulting LikenessKit

variable {α β : Type} {N d : Nat}

def CallsBlock (e : Event) : Prop :=
  ∃ f i, e = .called f i ∧ IsBlock f

def Refuses (e : Event) : Prop :=
  ∃ limit depth, e = .failed (.depthExceeded limit depth)

theorem refuses_failed_iff {f : Fault} : Refuses (.failed f) ↔ ¬Local f := by
  simp [Refuses, Local]

@[simp] theorem not_refuses_visited (t : Term) : ¬Refuses (.visited t) := by rintro ⟨_, _, ⟨⟩⟩

@[simp] theorem not_refuses_called (f : Term) (i : Invocation) : ¬Refuses (.called f i) := by
  rintro ⟨_, _, ⟨⟩⟩

@[simp] theorem not_refuses_entered : ¬Refuses .entered := by rintro ⟨_, _, ⟨⟩⟩

@[simp] theorem not_refuses_left : ¬Refuses .left := by rintro ⟨_, _, ⟨⟩⟩

@[simp] theorem callsBlock_called_iff {f : Term} {i : Invocation} :
    CallsBlock (.called f i) ↔ IsBlock f := by
  simp [CallsBlock]

@[simp] theorem not_callsBlock_visited (t : Term) : ¬CallsBlock (.visited t) := by
  rintro ⟨_, _, ⟨⟩, _⟩

@[simp] theorem not_callsBlock_entered : ¬CallsBlock .entered := by rintro ⟨_, _, ⟨⟩, _⟩

@[simp] theorem not_callsBlock_left : ¬CallsBlock .left := by rintro ⟨_, _, ⟨⟩, _⟩

@[simp] theorem not_callsBlock_failed (f : Fault) : ¬CallsBlock (.failed f) := by
  rintro ⟨_, _, ⟨⟩, _⟩

namespace CallsBlock

variable {e : Event} (h : CallsBlock e)

include h

theorem not_refuses : ¬Refuses e := by
  obtain ⟨f, i, rfl, -⟩ := h
  simp

theorem ne_entered : e ≠ .entered := by
  obtain ⟨f, i, rfl, -⟩ := h
  simp

theorem ne_left : e ≠ .left := by
  obtain ⟨f, i, rfl, -⟩ := h
  simp

end CallsBlock

/-- What is told of something done at depth `d`, the latest first: moments at that depth, calls of
blocks, which are refused at the limit, and below it what is done inside, one level deeper. -/
inductive Nested (N : Nat) : Nat → List Moment → Prop
  | nil (d : Nat) : Nested N d []
  | step {d e frames es} (he : e ≠ .entered) (hl : e ≠ .left) (hr : ¬Refuses e)
      (hc : ¬CallsBlock e) (h : Nested N d es) : Nested N d (⟨e, d, frames⟩ :: es)
  | refused {e frames frames' es} (hc : CallsBlock e) (h : Nested N N es) :
      Nested N N
        (⟨.failed (.depthExceeded N N), N, frames'⟩ :: ⟨e, N, frames⟩ :: es)
  | inner {d e frames frames' frames'' es fs} (hd : d < N) (hc : CallsBlock e)
      (h : Nested N d es) (hi : Nested N (d + 1) fs) :
      Nested N d
        (⟨.left, d, frames''⟩ :: (fs ++ ⟨.entered, d + 1, frames'⟩ :: ⟨e, d, frames⟩ :: es))

theorem Nested.append {es fs : List Moment} (hf : Nested N d fs) (he : Nested N d es) :
    Nested N d (fs ++ es) := by
  induction hf with
  | nil => exact he
  | step h₁ h₂ h₃ h₄ _ ih => exact .step h₁ h₂ h₃ h₄ (ih he)
  | refused hc _ ih => exact .refused hc (ih he)
  | inner hd hc _ hi ih _ =>
      rw [List.cons_append, List.append_assoc]
      exact .inner hd hc (ih he) hi

structure Restored (N d : Nat) (st st' : State) : Prop where
  limit : st'.limit = st.limit
  depth : st'.depth = st.depth
  frames : st'.frames = st.frames
  history : ∃ es, st'.history = es ++ st.history ∧ Nested N d es

def Steady (N d : Nat) (m : Eval α) : Prop :=
  ∀ st, st.limit = N → st.depth = d → Restored N d st (m st).2

theorem Restored.trans {st st' st'' : State} (h : Restored N d st st')
    (h' : Restored N d st' st'') : Restored N d st st'' := by
  obtain ⟨es, hes, hn⟩ := h.history
  obtain ⟨fs, hfs, hn'⟩ := h'.history
  refine ⟨h'.limit.trans h.limit, h'.depth.trans h.depth, h'.frames.trans h.frames, fs ++ es, ?_,
    hn'.append hn⟩
  rw [hfs, hes, List.append_assoc]

def Still (m : Eval α) : Prop :=
  ∀ st, (m st).2.limit = st.limit ∧ (m st).2.depth = st.depth ∧ (m st).2.frames = st.frames ∧
    ((∃ a, (m st).1 = .ok a) ∧ (m st).2.history = st.history ∨
      ∃ e f, (m st).1 = .error e ∧ Local f ∧
        (m st).2.history = ⟨.failed f, st.depth, st.frames⟩ :: st.history)

namespace Still

theorem pure (a : α) : Still (Pure.pure a : Eval α) :=
  fun _ => ⟨rfl, rfl, rfl, .inl ⟨⟨a, rfl⟩, rfl⟩⟩

theorem fail {f : Fault} (h : Local f) : Still (Eval.fail f : Eval α) :=
  fun _ => ⟨rfl, rfl, rfl, .inr ⟨_, f, rfl, h, rfl⟩⟩

theorem getStore : Still Eval.getStore :=
  fun _ => ⟨rfl, rfl, rfl, .inl ⟨⟨_, rfl⟩, rfl⟩⟩

theorem modifyStore (f : Store → Store) : Still (Eval.modifyStore f) :=
  fun _ => ⟨rfl, rfl, rfl, .inl ⟨⟨_, rfl⟩, rfl⟩⟩

theorem alloc (c : Scope) : Still (Eval.alloc c) :=
  fun _ => ⟨rfl, rfl, rfl, .inl ⟨⟨_, rfl⟩, rfl⟩⟩

theorem freshMark : Still Eval.freshMark :=
  fun _ => ⟨rfl, rfl, rfl, .inl ⟨⟨_, rfl⟩, rfl⟩⟩

theorem write (line : String) : Still (Eval.write line) :=
  fun _ => ⟨rfl, rfl, rfl, .inl ⟨⟨_, rfl⟩, rfl⟩⟩

theorem emit (e : Effect) : Still (Eval.emit e) :=
  fun _ => ⟨rfl, rfl, rfl, .inl ⟨⟨_, rfl⟩, rfl⟩⟩

theorem log_apply (line : String) (st : State) :
    ∃ debug, Eval.log line st = (.ok (), { st with debug }) := by
  by_cases h : st.debugging
  · exact ⟨_, by rw [Eval.log, modify_apply, if_pos h]⟩
  · exact ⟨st.debug, by rw [Eval.log, modify_apply, if_neg h]⟩

theorem log (line : String) : Still (Eval.log line) := by
  intro st
  obtain ⟨debug, h⟩ := log_apply line st
  rw [h]
  exact ⟨rfl, rfl, rfl, .inl ⟨⟨_, rfl⟩, rfl⟩⟩

theorem bind {m : Eval α} {k : α → Eval β} (hm : Still m) (hk : ∀ a, Still (k a)) :
    Still (m >>= k) := by
  intro st
  obtain ⟨hl, hd, hf, h⟩ := hm st
  rw [bind_apply]
  rcases hr : m st with ⟨e | a, st'⟩
  all_goals simp only [hr] at hl hd hf h
  · refine ⟨hl, hd, hf, .inr ?_⟩
    rcases h with ⟨⟨_, ⟨⟩⟩, _⟩ | ⟨_, f, _, hloc, hh⟩
    exact ⟨e, f, rfl, hloc, hh⟩
  · obtain ⟨hl', hd', hf', h'⟩ := hk a st'
    rcases h with ⟨_, hh⟩ | ⟨_, _, ⟨⟩, _⟩
    rw [hd, hf, hh] at h'
    exact ⟨hl'.trans hl, hd'.trans hd, hf'.trans hf, h'⟩

theorem ofExcept {r : Except Fault α} (h : Faults Local r) : Still (Eval.ofExcept r) := by
  cases r with
  | ok a => exact pure a
  | error f => exact fail (h f rfl)

theorem updateStore {f : Store → Except Fault Store} (h : ∀ σ, Faults Local (f σ)) :
    Still (Eval.updateStore f) :=
  getStore.bind fun σ => (ofExcept (h σ)).bind fun _ => modifyStore _

theorem lookup (s : ScopeId) (n : String) : Still (Eval.lookup s n) :=
  getStore.bind fun σ => ofExcept (lookup_hosted σ s n).local

theorem binds (s : ScopeId) (n : String) : Still (Eval.binds s n) :=
  getStore.bind fun σ => ofExcept (binds_hosted σ s n).local

theorem define (s : ScopeId) (n : String) (f : Term) : Still (Eval.define s n f) :=
  updateStore fun σ g hg => (define_refused σ s n f g hg).mild.1

theorem remove (s : ScopeId) (n : String) : Still (Eval.remove s n) :=
  updateStore fun σ => (remove_hosted σ s n).local

theorem numeral (n : Int) : Still (Eval.numeral n) :=
  getStore.bind fun σ => ofExcept (numeral_hosted σ n).local

theorem source (t : Term) : Still (Eval.source t) :=
  getStore.bind fun σ => ofExcept (source_hosted σ _ _ t).local

theorem inspect (t : Term) : Still (Eval.inspect t) :=
  getStore.bind fun σ => ofExcept (inspect_hosted σ t).local

theorem typeName (t : Term) : Still (Eval.typeName t) :=
  getStore.bind fun σ => ofExcept (typeName_hosted σ t).local

theorem className (t : Term) : Still (Eval.className t) :=
  getStore.bind fun _ => pure _

theorem displayLine (ts : List Term) : Still (Eval.displayLine ts) := by
  refine getStore.bind fun σ => (ofExcept ?_).bind fun _ => pure _
  exact .mapM fun t _ => (display_hosted σ standardWidth t).local

theorem activation (op : Builtin) (i : Invocation) : Still (op.activation i) := by
  refine getStore.bind fun σ => ?_
  split
  · exact pure _
  · exact fail (by rintro _ _ ⟨⟩)

theorem bindParams (s : ScopeId) (ps : List (String × Term)) : Still (bindParams s ps) := by
  induction ps with
  | nil => exact pure ()
  | cons p ps ih => exact freshMark.bind fun _ => (define s _ _).bind fun _ => ih

theorem steady {m : Eval α} (h : Still m) : Steady N d m := by
  rintro st - rfl
  obtain ⟨hl, hd, hf, ⟨-, hh⟩ | ⟨_, f, -, hloc, hh⟩⟩ := h st
  · exact ⟨hl, hd, hf, [], hh, .nil _⟩
  · refine ⟨hl, hd, hf, [_], hh, .step (by simp) (by simp) ?_ (by simp) (.nil _)⟩
    exact fun h => refuses_failed_iff.1 h hloc

end Still

def alone (N d : Nat) : Likeness where
  rel P m _ := ∀ st, st.limit = N → st.depth = d →
    Restored N d st (m st).2 ∧ ∀ a, (m st).1 = .ok a → ∃ b, P a b
  block _ := True

theorem Steady.rel {m m' : Eval α} (h : Steady N d m) : (alone N d).rel Eq m m' :=
  fun st hN hd => ⟨h st hN hd, fun a _ => ⟨a, rfl⟩⟩

theorem steady_of_rel {P : α → α → Prop} {m m' : Eval α} (h : (alone N d).rel P m m') :
    Steady N d m :=
  fun st hN hd => (h st hN hd).1

theorem alike (f : Term) (i : Invocation) : (alone N d).Alike f i i :=
  ⟨rfl, rfl, fun _ _ => trivial, .inl rfl⟩

theorem Still.same {m : Eval α} (h : Still m) : (alone N d).Same m :=
  h.steady.rel

theorem Steady.underFrame {frame : Frame} {m : Eval Term} (h : Steady N d m) :
    Steady N d (Eval.underFrame frame m) := by
  intro st hN hd
  obtain ⟨hl, hd', hf, hh⟩ := h (st.push frame) hN hd
  rw [underFrame_apply]
  refine ⟨hl, hd', ?_, hh⟩
  change (m (st.push frame)).2.frames.tail = st.frames
  rw [hf]
  rfl

theorem restored_note {st : State} {e : Event} (hd : st.depth = d) (he : e ≠ .entered)
    (hl : e ≠ .left) (hr : ¬Refuses e) (hc : ¬CallsBlock e) :
    Restored N d st (st.note e) := by
  subst hd
  exact ⟨rfl, rfl, rfl, [_], rfl, .step he hl hr hc (.nil _)⟩

theorem visit_steady (t : Term) : Steady N d (visit t) := by
  intro st _ hd
  have h : Restored N d { st with node := t } ({ st with node := t }.note (.visited t)) :=
    restored_note hd (by simp) (by simp) (by simp) (by simp)
  exact ⟨h.limit, h.depth, h.frames, h.history⟩

theorem announce_apply (f : Term) (i : Invocation) (st : State) :
    ∃ debug, announce f i st = (.ok (), { st.note (.called f i) with debug }) := by
  obtain ⟨debug, h⟩ := Still.log_apply ("Evaluator.call " ++ st.store.className f ++ " argc "
    ++ toString i.args.length ++ " yield " ++ (if i.block.isSome then "True" else "False"))
    (st.note (.called f i))
  exact ⟨debug, h⟩

theorem announce_steady {f : Term} {i : Invocation} (hf : ¬IsBlock f) :
    Steady N d (announce f i) := by
  intro st _ hd
  obtain ⟨debug, h⟩ := announce_apply f i st
  have hn : Restored N d st (st.note (.called f i)) :=
    restored_note hd (by simp) (by simp) (by simp) (by simp [hf])
  rw [h]
  exact ⟨hn.limit, hn.depth, hn.frames, hn.history⟩

theorem alone_bind {P : α → α → Prop} {Q : β → β → Prop} {m m' : Eval α} {k k' : α → Eval β}
    (hm : (alone N d).rel P m m') (hk : ∀ a b, P a b → (alone N d).rel Q (k a) (k' b)) :
    (alone N d).rel Q (m >>= k) (m' >>= k') := by
  intro st hN hd
  obtain ⟨hr, hp⟩ := hm st hN hd
  rw [bind_apply]
  rcases h : m st with ⟨e | a, st'⟩
  all_goals simp only [h] at hr hp
  · exact ⟨hr, by simp⟩
  · obtain ⟨b, hab⟩ := hp a rfl
    obtain ⟨hr', hq⟩ := hk a b hab st' (hr.limit.trans hN) (hr.depth.trans hd)
    exact ⟨hr.trans hr', hq⟩

theorem alone_kept (N d : Nat) : (alone N d).Kept where
  closure _ _ := trivial
  pure h st _ _ := ⟨(Still.pure _).steady st ‹_› ‹_›, fun a ha => ⟨_, Except.ok.inj ha ▸ h⟩⟩
  bind := alone_bind
  fail f hf st hN hd := ⟨(Still.fail hf).steady st hN hd, fun _ h => by cases h⟩
  underFrame h := (steady_of_rel h).underFrame.rel
  announce hf := (announce_steady hf).rel
  visit t := (visit_steady t).rel
  log line := (Still.log line).same
  write line := (Still.write line).same
  freshMark := Still.freshMark.same
  lookup s n := (Still.lookup s n).same
  binds s n := (Still.binds s n).same
  define s n f := (Still.define s n f).same
  remove s n := (Still.remove s n).same
  returned _ := (Still.getStore.bind fun _ => .pure _).same
  setReturned _ _ := (Still.modifyStore _).same
  isBroken _ := (Still.getStore.bind fun _ => .pure _).same
  breakOff _ := (Still.modifyStore _).same
  numeral n := (Still.numeral n).same
  source t := (Still.source t).same
  inspect t := (Still.inspect t).same
  typeName t := (Still.typeName t).same
  className t := (Still.className t).same
  displayLine ts := (Still.displayLine ts).same
  newBlock _ := (Still.alloc _).same
  newList _ := ((Still.alloc _).bind fun _ => .pure _).same
  activation op i st hN hd :=
    ⟨(Still.activation op i).steady st hN hd, fun a _ => ⟨a, rfl, rfl, fun _ _ => trivial, .inl rfl⟩⟩

def Following (N d : Nat) (m : Eval Term) : Prop :=
  ∀ st e frames old, st.limit = N → st.depth = d → CallsBlock e →
    st.history = ⟨e, d, frames⟩ :: old →
    (m st).2.limit = st.limit ∧ (m st).2.depth = st.depth ∧ (m st).2.frames = st.frames ∧
      ∃ es, (m st).2.history = es ++ old ∧ Nested N d es

theorem Following.announced {m : Eval Term} (h : Following N d m) {f : Term} (hf : IsBlock f)
    (i : Invocation) : Steady N d (do announce f i; m) := by
  intro st hN hd
  subst hd
  obtain ⟨debug, ha⟩ := announce_apply f i st
  rw [bind_of_ok ha]
  obtain ⟨hl, hd', hfr, hh⟩ := h { st.note (.called f i) with debug } _ _ _ hN rfl ⟨f, i, rfl, hf⟩ rfl
  exact ⟨hl, hd', hfr, hh⟩

theorem following_refused : Following N N (Eval.fail (.depthExceeded N N)) := by
  intro st e frames old _ hd hc hh
  refine ⟨rfl, rfl, rfl, ⟨_, N, st.frames⟩ :: [⟨e, N, frames⟩], ?_, .refused hc (.nil N)⟩
  change _ :: st.history = _
  rw [hh, hd]
  rfl

theorem restored_noteBound (r : Except Failure α) {st : State} (hd : st.depth = d) :
    Restored N d st (noteBound r st) := by
  cases r with
  | ok a => exact ⟨rfl, rfl, rfl, [], rfl, .nil d⟩
  | error e =>
      rw [noteBound]
      split
      · exact restored_note hd (by simp) (by simp) (by simp [Refuses]) (by simp)
      · exact ⟨rfl, rfl, rfl, [], rfl, .nil d⟩

structure Bracketed (N d : Nat) (st st' : State) : Prop where
  limit : st'.limit = st.limit
  depth : st'.depth = st.depth
  frames : st'.frames = st.frames
  history : ∃ es, st'.history = ⟨.left, d, st.frames⟩ ::
    (es ++ ⟨.entered, d + 1, st.frames⟩ :: st.history) ∧ Nested N (d + 1) es

theorem Steady.deeper {m : Eval Term} (h : Steady N (d + 1) m) {st : State} (hN : st.limit = N)
    (hd : st.depth = d) : Bracketed N d st (Eval.deeper m st).2 := by
  subst hd
  have hm := h st.enter hN rfl
  -- what is told on the way out stands at the depth of the block
  have hout := hm.trans (restored_noteBound (m st.enter).1 hm.depth)
  rw [deeper_apply]
  generalize noteBound (m st.enter).1 (m st.enter).2 = st' at hout ⊢
  obtain ⟨hl, hd, hf, es, hes, hn⟩ := hout
  have hback : st'.depth - 1 = st.depth := by
    rw [hd]
    rfl
  refine ⟨hl, hback, hf, es, ?_, hn⟩
  change ⟨.left, st'.depth - 1, st'.frames⟩ :: st'.history = _
  rw [hback, hf, hes]
  rfl

theorem Bracketed.following {m : Eval Term} (hd : d < N)
    (h : ∀ st, st.limit = N → st.depth = d → Bracketed N d st (m st).2) : Following N d m := by
  intro st e frames old hN hsd hc hh
  obtain ⟨hl, hd', hf, es, hes, hn⟩ := h st hN hsd
  refine ⟨hl, hd', hf, ⟨.left, d, st.frames⟩ :: (es ++ ⟨.entered, d + 1, st.frames⟩ ::
    [⟨e, d, frames⟩]), ?_, .inner hd hc (.nil d) hn⟩
  rw [hes, hh]
  simp

section Run

variable {host : Host}

/-- The host's natives leave the depth and the calls in progress to the evaluator: as long as the
evaluator that they call back restores them, so do they, and all that they tell of entering, leaving
and refusing blocks is told by it. -/
def KeepsDepth (host : Host) : Prop :=
  ∀ N d, d ≤ N → ∀ call : Caller, (∀ f i, Steady N d (call f i)) →
    ∀ key i, Steady N d (host.native call key i)

theorem KeepsDepth.hosts (hh : KeepsDepth host) (hd : d ≤ N) : (alone N d).Hosts host host := by
  intro call call' hc key i _
  exact (hh N d hd call (fun f i => steady_of_rel (hc f i i (alike f i))) key i).rel

theorem callWith_calls (hh : KeepsDepth host) (hd : d ≤ N) {enter : BlockCaller}
    (he : ∀ c p i, Following N d (enter c p i)) :
    (alone N d).Calls (callWith host enter) (callWith host enter) := by
  have henter : (alone N d).Enters enter enter := fun c p i j _ =>
    ((he c p i).announced ⟨c, p, rfl⟩ i).rel
  exact Likeness.callWith_calls (alone_kept N d) (hh.hosts hd) henter

theorem enterBlock_deeper (host : Host) (room : Nat) (c : Code) (p : ScopeId) (i : Invocation)
    {st : State} (h : st.depth < st.limit) :
    ∃ st', st'.limit = st.limit ∧ st'.depth = st.depth ∧ st'.frames = st.frames ∧
      st'.history = st.history ∧ enterBlock host (room + 1) c p i st =
        Eval.deeper (run (callWith host (enterBlock host room)) c st.store.size) st' := by
  let s : Scope := { kind := .call ⟨i.args, i.block, i.scope⟩, parent := some p }
  have hbind : bindParams st.store.size (c.params.zip i.args) { st with store := st.store.alloc s } = _ :=
    Parameters.bindParams_apply s rfl (fun _ => rfl) rfl _
  rw [enterBlock, bind_of_ok (get_apply st), if_neg (Nat.not_le.2 h), bind_of_ok (alloc_apply _ st),
    bind_of_ok hbind]
  obtain ⟨debug, hlog⟩ := Still.log_apply ("Call-scope params " ++ Render.names c.params ++ " argc "
    ++ toString i.args.length) _
  rw [bind_of_ok hlog]
  refine ⟨_, ?_, ?_, ?_, ?_, rfl⟩
  all_goals rfl

theorem enterBlock_bracketed {room : Nat} (hd : d < N) (c : Code) (p : ScopeId) (i : Invocation)
    (hcalls : (alone N (d + 1)).Calls (callWith host (enterBlock host room))
      (callWith host (enterBlock host room))) {st : State} (hN : st.limit = N) (hsd : st.depth = d) :
    Bracketed N d st (enterBlock host (room + 1) c p i st).2 := by
  have hlt : st.depth < st.limit := by omega
  obtain ⟨st', hl, hd', hf, hh, henter⟩ := enterBlock_deeper host room c p i hlt
  have hbody : Steady N (d + 1) (run (callWith host (enterBlock host room)) c st.store.size) :=
    steady_of_rel (Likeness.run_like (alone_kept N (d + 1)) hcalls c)
  obtain ⟨hl', hd'', hf', es, hes, hn⟩ := hbody.deeper (hl.trans hN) (hd'.trans hsd)
  rw [henter]
  exact ⟨hl'.trans hl, hd''.trans hd', hf'.trans hf, es, hf ▸ hh ▸ hes, hn⟩

theorem enterBlock_following (hh : KeepsDepth host) {room : Nat} (hd : d ≤ N) (hr : N - d < room)
    (c : Code) (p : ScopeId) (i : Invocation) : Following N d (enterBlock host room c p i) := by
  -- the room shrinks with each level, and so does the distance to the limit
  induction room generalizing d c p i with
  | zero => omega
  | succ room ih =>
      rcases Nat.lt_or_eq_of_le hd with hlt | rfl
      · have hcalls := callWith_calls hh (d := d + 1) (N := N) hlt
          fun c p i => ih hlt (by omega) c p i
        exact Bracketed.following hlt fun st => enterBlock_bracketed hlt c p i hcalls
      · intro st e frames old hN hsd hc hhist
        have hfail : (Eval.fail (.depthExceeded st.limit st.depth) : Eval Term) =
            Eval.fail (.depthExceeded d d) := by rw [hN, hsd]
        rw [enterBlock, bind_of_ok (get_apply st), if_pos (by omega), hfail]
        exact following_refused st e frames old hN hsd hc hhist

theorem caller_calls (hh : KeepsDepth host) (hd : d ≤ N) :
    (alone N d).Calls (caller host) (caller host) := by
  intro f i j h st hN hsd
  have hroom : N - d < N - d + host.reach + 1 := by omega
  have hcalls := callWith_calls hh hd fun c p i => enterBlock_following hh hd hroom c p i
  rw [caller, bind_of_ok (get_apply st), hN, hsd]
  exact hcalls f i j h st hN hsd

theorem askedOf_steady {call : Caller} (hc : ∀ f i, Steady N d (call f i)) (q : Request) :
    Steady N d (q.askedOf call) := by
  have hcalls : (alone N d).Calls call call := fun f i _ _ => (hc f i).rel
  exact steady_of_rel (Likeness.askedOf_like (alone_kept N d) hcalls (fun _ => trivial) q)

theorem perform_steady (hh : KeepsDepth host) (hd : d ≤ N) (q : Request) :
    Steady N d (q.perform host) :=
  askedOf_steady (fun f i => steady_of_rel (caller_calls hh hd f i i (alike f i))) q

end Run

section Reading

def shift : Event → Int
  | .entered => 1
  | .left => -1
  | _ => 0

/-- The number of blocks entered and not yet left. -/
def underway : List Moment → Int
  | [] => 0
  | m :: es => shift m.event + underway es

/-- `m` may directly follow `c`: what follows the call of a block is that it is refused at the limit,
and entered below it; and nothing else is. -/
structure Linked (N : Nat) (m c : Moment) : Prop where
  refused : Refuses m.event ↔ CallsBlock c.event ∧ c.depth = N
  entered : m.event = .entered ↔ CallsBlock c.event ∧ c.depth < N

/-- A history, the latest first, of something done at depth `d` from start to end. -/
structure Orderly (N d : Nat) (es : List Moment) : Prop where
  depth : ∀ m earlier, m :: earlier <:+ es → m.depth ≤ N ∧ m.depth = d + underway (m :: earlier)
  settled : underway es = 0
  linked : es.IsChain (Linked N)
  newest : ∀ m ∈ es.head?, ¬CallsBlock m.event
  oldest : ∀ m ∈ es.getLast?, ¬Refuses m.event ∧ m.event ≠ .entered
  limit : ∀ m ∈ es, Refuses m.event → m.event = .failed (.depthExceeded N N)

@[simp] theorem underway_nil : underway [] = 0 := rfl

@[simp] theorem underway_cons (m : Moment) (es : List Moment) :
    underway (m :: es) = shift m.event + underway es := rfl

@[simp] theorem underway_append (es fs : List Moment) :
    underway (es ++ fs) = underway es + underway fs := by
  induction es with
  | nil => simp
  | cons m es ih => simp [ih, Int.add_assoc]

@[simp] theorem shift_entered : shift .entered = 1 := rfl

@[simp] theorem shift_left : shift .left = -1 := rfl

@[simp] theorem shift_failed (f : Fault) : shift (.failed f) = 0 := rfl

theorem shift_eq_zero {e : Event} (he : e ≠ .entered) (hl : e ≠ .left) : shift e = 0 := by
  cases e <;> simp_all [shift]

theorem CallsBlock.shift_eq {e : Event} (h : CallsBlock e) : shift e = 0 :=
  shift_eq_zero h.ne_entered h.ne_left

def Level (N : Nat) (d : Int) (es : List Moment) : Prop :=
  ∀ m earlier, m :: earlier <:+ es → m.depth ≤ N ∧ m.depth = d + underway (m :: earlier)

theorem Level.cons {d : Int} {m : Moment} {es : List Moment} (h : Level N d es) (hN : m.depth ≤ N)
    (hd : m.depth = d + underway (m :: es)) : Level N d (m :: es) := by
  intro m' earlier hs
  rcases List.suffix_cons_iff.1 hs with heq | hs
  · obtain ⟨rfl, rfl⟩ := List.cons.inj heq
    exact ⟨hN, hd⟩
  · exact h m' earlier hs

theorem Level.inside {d : Int} {es fs : List Moment} (hf : Level N (d + 1) fs) (he : Level N d es)
    (h : underway es = 1) : Level N d (fs ++ es) := by
  induction fs with
  | nil => exact he
  | cons m fs ih =>
      obtain ⟨hN, hd⟩ := hf m fs (List.suffix_refl _)
      have hrest : Level N (d + 1) fs := fun m' earlier hs =>
        hf m' earlier (hs.trans (List.suffix_cons m fs))
      refine (ih hrest).cons hN ?_
      rw [hd]
      simp [h]
      omega

theorem Nested.underway_eq {es : List Moment} (h : Nested N d es) : underway es = 0 := by
  induction h with
  | nil => rfl
  | step he hl _ _ _ ih => simp [shift_eq_zero he hl, ih]
  | refused hc _ ih => simp [hc.shift_eq, ih]
  | inner _ hc _ _ ih ihi => simp [hc.shift_eq, ih, ihi]

theorem Nested.level {es : List Moment} (h : Nested N d es) (hd : d ≤ N) : Level N d es := by
  induction h with
  | nil => intro m earlier hs; simp at hs
  | step he hl hr hc hn ih =>
      exact (ih hd).cons hd (by simp [shift_eq_zero he hl, hn.underway_eq])
  | @refused e frames frames' es hc hn ih =>
      have hcalled := (ih hd).cons (m := ⟨e, N, frames⟩) hd (by simp [hc.shift_eq, hn.underway_eq])
      exact hcalled.cons hd (by simp [hc.shift_eq, hn.underway_eq])
  | @inner d e frames frames' frames'' es fs hlt hc hn hi ih ihi =>
      have hcalled := (ih hd).cons (m := ⟨e, d, frames⟩) hd (by simp [hc.shift_eq, hn.underway_eq])
      have hentered := hcalled.cons (m := ⟨.entered, d + 1, frames'⟩) hlt
        (by simp [hc.shift_eq, hn.underway_eq])
      have hinside : Level N (d + 1) fs := by simpa using ihi hlt
      refine (hinside.inside hentered ?_).cons hd ?_
      · simp [hc.shift_eq, hn.underway_eq]
      · simp [hc.shift_eq, hn.underway_eq, hi.underway_eq]

theorem Linked.of_calm {m c : Moment} (hm : ¬Refuses m.event) (he : m.event ≠ .entered)
    (hc : ¬CallsBlock c.event) : Linked N m c :=
  ⟨iff_of_false hm fun h => hc h.1, iff_of_false he fun h => hc h.1⟩

theorem Nested.newest {es : List Moment} (h : Nested N d es) : ∀ m ∈ es.head?, ¬CallsBlock m.event := by
  cases h with
  | nil => simp
  | step _ _ _ hc _ =>
      rintro m ⟨⟩
      exact hc
  | refused => simp
  | inner => simp

theorem Nested.oldest {es : List Moment} (h : Nested N d es) :
    ∀ m ∈ es.getLast?, ¬Refuses m.event ∧ m.event ≠ .entered := by
  induction h with
  | nil => simp
  | @step d e frames es he hl hr hc hn ih =>
      cases es with
      | nil => rintro m ⟨⟩; exact ⟨hr, he⟩
      | cons c es => simpa using ih
  | @refused e frames frames' es hc hn ih =>
      cases es with
      | nil => rintro m ⟨⟩; exact ⟨hc.not_refuses, hc.ne_entered⟩
      | cons c es => simpa using ih
  | @inner d e frames frames' frames'' es fs hlt hc hn hi ih ihi =>
      cases es with
      | nil =>
          rintro m hm
          obtain rfl : ⟨e, d, frames⟩ = m := by simpa [List.getLast?_cons] using hm
          exact ⟨hc.not_refuses, hc.ne_entered⟩
      | cons c es => simpa [List.getLast?_cons] using ih

theorem Nested.linked {es : List Moment} (h : Nested N d es) : es.IsChain (Linked N) := by
  induction h with
  | nil => exact .nil
  | step he hl hr hc hn ih =>
      exact List.isChain_cons.2 ⟨fun c hm => .of_calm hr he (hn.newest c hm), ih⟩
  | @refused e frames frames' es hc hn ih =>
      have hcalled : (⟨e, N, frames⟩ :: es).IsChain (Linked N) := List.isChain_cons.2
        ⟨fun c hm => .of_calm hc.not_refuses hc.ne_entered (hn.newest c hm), ih⟩
      have hrefused : Linked N ⟨.failed (.depthExceeded N N), N, frames'⟩ ⟨e, N, frames⟩ :=
        ⟨iff_of_true ⟨N, N, rfl⟩ ⟨hc, rfl⟩, iff_of_false nofun fun h => Nat.lt_irrefl N h.2⟩
      exact List.isChain_cons_cons.2 ⟨hrefused, hcalled⟩
  | @inner d e frames frames' frames'' es fs hlt hc hn hi ih ihi =>
      have hcalled : (⟨e, d, frames⟩ :: es).IsChain (Linked N) := List.isChain_cons.2
        ⟨fun c hm => .of_calm hc.not_refuses hc.ne_entered (hn.newest c hm), ih⟩
      have hentered : (⟨.entered, d + 1, frames'⟩ :: ⟨e, d, frames⟩ :: es).IsChain (Linked N) := by
        refine List.isChain_cons_cons.2 ⟨⟨?_, iff_of_true rfl ⟨hc, hlt⟩⟩, hcalled⟩
        exact iff_of_false (by simp) fun h => Nat.ne_of_lt hlt h.2
      have hinside := List.isChain_append.2 ⟨ihi, hentered, fun x hx y hy => by
        obtain rfl := Option.some.inj hy
        exact .of_calm (hi.oldest x hx).1 (hi.oldest x hx).2 (by simp)⟩
      refine List.isChain_cons.2 ⟨fun c hm => .of_calm (by simp) (by simp) ?_, hinside⟩
      cases fs with
      | nil => obtain rfl := Option.some.inj hm; simp
      | cons m fs => exact hi.newest c hm

theorem Nested.limit {es : List Moment} (h : Nested N d es) :
    ∀ m ∈ es, Refuses m.event → m.event = .failed (.depthExceeded N N) := by
  induction h with
  | nil => simp
  | step he hl hr hc hn ih =>
      rintro m (_ | ⟨_, hm⟩) h
      · exact absurd h hr
      · exact ih m hm h
  | refused hc hn ih =>
      rintro m (_ | ⟨_, _ | ⟨_, hm⟩⟩) h
      · rfl
      · exact absurd h hc.not_refuses
      · exact ih m hm h
  | inner hlt hc hn hi ih ihi =>
      intro m hm h
      rcases List.mem_cons.1 hm with rfl | hm
      · exact absurd h (by simp)
      rcases List.mem_append.1 hm with hm | hm
      · exact ihi m hm h
      rcases hm with _ | ⟨_, _ | ⟨_, hm⟩⟩
      · exact absurd h (by simp)
      · exact absurd h hc.not_refuses
      · exact ih m hm h

theorem Nested.orderly {es : List Moment} (h : Nested N d es) (hd : d ≤ N) : Orderly N d es :=
  ⟨h.level hd, h.underway_eq, h.linked, h.newest, h.oldest, h.limit⟩

end Reading

/-- At the limit, calls of blocks fail and leave the store as it is. -/
def Refusing (call : Caller) : Prop :=
  ∀ c p i (st : State), st.limit ≤ st.depth →
    let e : Failure := ⟨.depthExceeded st.limit st.depth, none⟩
    (call (.block c p) i st).1 = .error e ∧
      e.fault.message = "Maximum call depth of " ++ toString st.limit ++ " exceeded." ∧
      (call (.block c p) i st).2.store = st.store

theorem dispatch_refusing (host : Host) (room budget : Nat) :
    Refusing (dispatch host (enterBlock host (room + 1)) (budget + 1)) := by
  intro c p i st h
  obtain ⟨debug, ha⟩ := announce_apply (.block c p) i st
  rw [dispatch.eq_def]
  simp only
  rw [bind_of_ok ha, enterBlock, bind_of_ok (get_apply _)]
  rw [if_pos (by exact h)]
  exact ⟨rfl, rfl, rfl⟩

theorem caller_refusing (host : Host) : Refusing (caller host) := by
  intro c p i st h
  rw [caller, bind_of_ok (get_apply st)]
  exact dispatch_refusing host _ _ c p i st h

/-- Below the limit, that a block is called is the first and that it is left the last that is told of
its call, and what is told in between happens one level deeper. -/
def Entering (call : Caller) : Prop :=
  ∀ c p i (st : State), st.depth < st.limit →
    let st' := (call (.block c p) i st).2
    ∃ es, st'.history = ⟨.left, st.depth, st.frames⟩ :: (es ++ ⟨.entered, st.depth + 1, st.frames⟩ ::
        ⟨.called (.block c p) i, st.depth, st.frames⟩ :: st.history) ∧
      Nested st.limit (st.depth + 1) es

theorem caller_entering {host : Host} (hh : KeepsDepth host) : Entering (caller host) := by
  intro c p i st h
  obtain ⟨debug, ha⟩ := announce_apply (.block c p) i st
  have hroom : st.limit - (st.depth + 1) < st.limit - st.depth + host.reach := by omega
  have hcalls := callWith_calls hh h fun c p i => enterBlock_following hh h hroom c p i
  have hbracket : Bracketed st.limit st.depth { st.note (.called (.block c p) i) with debug } _ :=
    enterBlock_bracketed h c p i hcalls rfl rfl
  obtain ⟨-, -, -, es, hes, hn⟩ := hbracket
  rw [caller, bind_of_ok (get_apply st), callWith, dispatch.eq_def]
  simp only
  rw [bind_of_ok ha]
  exact ⟨es, hes, hn⟩

/-- Whatever the evaluator is asked, and however it ends, it restores the depth and the calls in
progress; meanwhile the depth counts the calls of blocks underway, up to the limit, and exactly the
blocks called at the limit are refused, which costs nothing. -/
theorem perform_restores {host : Host} (hh : KeepsDepth host) (q : Request) {st : State}
    (h : st.depth ≤ st.limit) :
    let st' := (q.perform host st).2
    (st'.limit = st.limit ∧ st'.depth = st.depth ∧ st'.frames = st.frames) ∧
      (∃ es, st'.history = es ++ st.history ∧ Nested st.limit st.depth es ∧
        Orderly st.limit st.depth es) ∧
      Entering (caller host) ∧ Refusing (caller host) ∧
      ∀ room budget, Refusing (dispatch host (enterBlock host (room + 1)) (budget + 1)) := by
  obtain ⟨hl, hd, hf, es, hes, hn⟩ := perform_steady hh h q st rfl rfl
  exact ⟨⟨hl, hd, hf⟩, ⟨es, hes, hn, hn.orderly h⟩, caller_entering hh, caller_refusing host,
    dispatch_refusing host⟩

theorem alone_equipped (N d : Nat) : Equipped (alone N d) where
  read h := by
    intro st hN hd
    rw [bind_of_ok (getStore_apply st)]
    exact h _ _ ⟨fun _ => rfl, fun _ => rfl, fun _ _ => rfl, fun _ => rfl⟩ st hN hd
  watch h := by
    intro st hN hd
    rw [bind_of_ok (get_apply st)]
    exact h _ st hN hd
  emit e := (Still.emit e).same
  addMixin s source := (Still.updateStore fun σ => (addMixin_hosted σ s source).local).same
  newScope p := (Still.alloc _).same

def discreet : Host where
  native call key i :=
    if key = "clear-stack" then Kit.refuse ("no native is called " ++ key)
    else Kit.native call key i

theorem discreet_keepsDepth : KeepsDepth discreet := by
  intro N d _ call hc key i
  have hcalls : (alone N d).Calls call call := fun f i _ _ => (hc f i).rel
  change Steady N d (if key = "clear-stack" then Kit.refuse _ else Kit.native call key i)
  split
  next => exact steady_of_rel (refuse_same (alone_kept N d) _)
  next hkey =>
      exact steady_of_rel (native_like (alone_kept N d) (alone_equipped N d) hcalls
        (fun _ _ => trivial) ⟨fun h => absurd h hkey, fun _ h st => h st.frames st⟩)

def endless : State :=
  { store := { scopes := #[{ bindings := [("f", .block ⟨[.call "f" [] none], []⟩ 0)] }] }, limit := 2 }

theorem perform_endless :
    let r := (Request.eval (.call "f" [] none) 0).perform discreet endless
    endless.depth ≤ endless.limit ∧ r.1.toOption.isNone ∧ r.2.depth = endless.depth ∧
      r.2.frames = endless.frames ∧
      ∃ es, r.2.history = es ++ endless.history ∧ Nested 2 0 es ∧ Orderly 2 0 es := by
  have hle : endless.depth ≤ endless.limit := by decide
  have h := perform_restores discreet_keepsDepth (.eval (.call "f" [] none) 0) hle
  exact ⟨hle, by decide +kernel, h.1.2.1, h.1.2.2, h.2.1⟩

end BlockScript.Proofs.Depth
