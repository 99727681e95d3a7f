import BlockScript.Proofs.ConductKit
import BlockScript.Proofs.Depth
import BlockScript.Session

namespace BlockScript.Proofs.Propagation

open Depth Eval Evaluator Faulting Running

variable {α β : Type} {host : Host} {call : Caller} {st st' : State} {es fs after before : List Moment}
  {μ : Moment} {f g : Fault} {r : Option Fault}

/-- What is told of something, the latest first, with the fault that it ended with if there is one.
Where nothing catches a failure it is the last that happens, but that blocks are left; and one of
exhaustion is replaced when it comes to a block. -/
inductive Passing : List Moment → Option Fault → Prop
  | nil : Passing [] none
  | step {e d frames es} (he : e ≠ .entered) (hl : e ≠ .left) (hf : ∀ f, e ≠ .failed f)
      (h : Passing es none) : Passing (⟨e, d, frames⟩ :: es) none
  | failed {f d frames es} (h : Passing es none) : Passing (⟨.failed f, d, frames⟩ :: es) (some f)
  | inner {d d' frames frames' es fs r} (h : Passing es none) (hi : Passing fs r)
      (hr : ∀ f ∈ r, f.isExhaustion = false) :
      Passing (⟨.left, d, frames⟩ :: (fs ++ ⟨.entered, d', frames'⟩ :: es)) r
  | bounded {d d' limit D frames frames' frames'' es fs f} (h : Passing es none)
      (hi : Passing fs (some f)) (hf : f.isExhaustion = true) :
      Passing (⟨.left, d, frames⟩ :: ⟨.failed (.stackExhausted limit D), D, frames'⟩ ::
        (fs ++ ⟨.entered, d', frames''⟩ :: es)) (some (.stackExhausted limit D))

namespace Passing

theorem append (hf : Passing fs r) (he : Passing es none) : Passing (fs ++ es) r := by
  induction hf with
  | nil => exact he
  | step h₁ h₂ h₃ _ ih => exact .step h₁ h₂ h₃ ih
  | failed _ ih => exact .failed ih
  | inner _ hi hr ih _ =>
      rw [List.cons_append, List.append_assoc]
      exact .inner ih hi hr
  | bounded _ hi hf ih _ =>
      rw [List.cons_append, List.cons_append, List.append_assoc]
      exact .bounded ih hi hf

theorem underway_eq (h : Passing es r) : underway es = 0 := by
  induction h with
  | nil => rfl
  | step he hl _ _ ih => simp [shift_eq_zero he hl, ih]
  | failed _ ih => simp [ih]
  | inner _ _ _ ih ihi => simp [ih, ihi]
  | bounded _ _ _ ih ihi => simp [ih, ihi]

end Passing

def Unfailing (es : List Moment) : Prop :=
  ∀ ν ∈ es, ∀ f, ν.event ≠ .failed f

def Leaving (es : List Moment) : Prop :=
  ∀ ν ∈ es, ν.event = .left

theorem Leaving.underway_eq (h : Leaving es) : underway es = -es.length := by
  induction es with
  | nil => rfl
  | cons ν es ih =>
      rw [underway_cons, h ν List.mem_cons_self, ih fun κ hκ => h κ (List.mem_cons_of_mem ν hκ),
        shift_left, List.length_cons]
      omega

theorem Leaving.cons {d : Nat} {frames : List Frame} (h : Leaving es) :
    Leaving (⟨.left, d, frames⟩ :: es) :=
  List.forall_mem_cons.2 ⟨rfl, h⟩

theorem Unfailing.append (hf : Unfailing fs) (he : Unfailing es) : Unfailing (fs ++ es) :=
  List.forall_mem_append.2 ⟨hf, he⟩

theorem Passing.unfailing (h : Passing es r) (hr : r = none) : Unfailing es := by
  induction h with
  | nil => exact fun ν hν => nomatch hν
  | step he hl hf _ ih => exact List.forall_mem_cons.2 ⟨hf, ih rfl⟩
  | failed => cases hr
  | inner _ _ _ ih ihi =>
      exact List.forall_mem_cons.2 ⟨nofun, (ihi hr).append (List.forall_mem_cons.2 ⟨nofun, ih rfl⟩)⟩
  | bounded => cases hr

structure Unchanged (after : List Moment) (g f : Fault) : Prop where
  fault : f = g
  left : Leaving after

def Replaced (after : List Moment) (f : Fault) : Prop :=
  ∃ left κ limit, after = left ++ [κ] ∧ Leaving left ∧ κ.event = .failed f ∧
    f = .stackExhausted limit κ.depth

/-- How the fault `f` came about: at the moment `μ` the first fault was met, which is `f` itself, unless
it was one of exhaustion and blocks were underway. -/
structure Raised (es : List Moment) (f : Fault) (after : List Moment) (μ : Moment)
    (before : List Moment) (g : Fault) : Prop where
  split : es = after ++ μ :: before
  event : μ.event = .failed g
  first : Unfailing before
  fate : if g.isExhaustion ∧ 0 < underway before then Replaced after f else Unchanged after g f

theorem Unchanged.leave {d : Nat} {frames : List Frame} (h : Unchanged after g f) :
    Unchanged (⟨.left, d, frames⟩ :: after) g f :=
  ⟨h.fault, h.left.cons⟩

theorem Replaced.leave {d : Nat} {frames : List Frame} (h : Replaced after f) :
    Replaced (⟨.left, d, frames⟩ :: after) f := by
  obtain ⟨left, κ, limit, rfl, hleft, h⟩ := h
  exact ⟨_ :: left, κ, limit, rfl, hleft.cons, h⟩

theorem Replaced.isExhaustion_eq (h : Replaced after f) : f.isExhaustion = false := by
  obtain ⟨_, _, _, -, -, -, rfl⟩ := h
  rfl

theorem Passing.raised (h : Passing es r) (hf : f ∈ r) :
    ∃ after μ before g, Raised es f after μ before g := by
  induction h generalizing f with
  | nil => cases hf
  | step => cases hf
  | @failed f' d frames es h ih =>
      obtain rfl := Option.some.inj hf
      refine ⟨[], _, es, f', rfl, rfl, h.unfailing rfl, ?_⟩
      rw [if_neg (by simp [h.underway_eq])]
      exact ⟨rfl, nofun⟩
  | @inner d d' frames frames' es fs r h hi hr ih ihi =>
      obtain ⟨after, μ, before, g, rfl, hevent, hfirst, hfate⟩ := ihi hf
      have hbefore : Unfailing (before ++ ⟨.entered, d', frames'⟩ :: es) :=
        hfirst.append (List.forall_mem_cons.2 ⟨nofun, h.unfailing rfl⟩)
      refine ⟨⟨.left, d, frames⟩ :: after, μ, _, g, by simp, hevent, hbefore, ?_⟩
      split at hfate
      next hx =>
          rw [if_pos ⟨hx.1, by simp [h.underway_eq]; omega⟩]
          exact hfate.leave
      next =>
          -- the fault of exhaustion would not have come out of the block
          rw [if_neg fun hx => by rw [← hfate.fault, hr f hf] at hx; cases hx.1]
          exact hfate.leave
  | @bounded d d' limit D frames frames' frames'' es fs f' h hi hx ih ihi =>
      obtain rfl := Option.some.inj hf
      obtain ⟨after, μ, before, g, rfl, hevent, hfirst, hfate⟩ := ihi rfl
      have hbefore : Unfailing (before ++ ⟨.entered, d', frames''⟩ :: es) :=
        hfirst.append (List.forall_mem_cons.2 ⟨nofun, h.unfailing rfl⟩)
      split at hfate
      next =>
          rw [hfate.isExhaustion_eq] at hx
          cases hx
      next hout =>
          obtain ⟨rfl, hleft⟩ := hfate
          -- it was raised right in this block, as it would not have come out of one inside
          have hunder := hi.underway_eq
          rw [underway_append, underway_cons, hleft.underway_eq, hevent, shift_failed] at hunder
          have hzero : ¬0 < underway before := fun hpos => hout ⟨hx, hpos⟩
          obtain rfl : after = [] := List.length_eq_zero_iff.1 (by omega)
          refine ⟨[⟨.left, d, frames⟩, ⟨.failed (.stackExhausted limit D), D, frames'⟩], μ, _, f',
            by simp, hevent, hbefore, ?_⟩
          have hpos : 0 < underway (before ++ ⟨.entered, d', frames''⟩ :: es) := by
            simp [h.underway_eq]
            simp at hunder
            omega
          rw [if_pos ⟨hx, hpos⟩]
          exact ⟨[⟨.left, d, frames⟩], _, limit, rfl, Leaving.cons nofun, rfl, rfl⟩

def fault? : Except Failure α → Option Fault
  | .ok _ => none
  | .error e => some e.fault

def Passes (st : State) (r : Except Failure α × State) : Prop :=
  ∃ es, r.2.history = es ++ st.history ∧ Passing es (fault? r.1)

theorem fault?_withTrace (frames : List Frame) (r : Except Failure α) :
    fault? (withTrace frames r) = fault? r := by
  cases r <;> rfl

namespace Passes

theorem ok {a : α} (h : st'.history = st.history) : Passes st ((.ok a, st') : Except Failure α × State) :=
  ⟨[], h, .nil⟩

theorem failed (st : State) (f : Fault) :
    Passes st ((.error ⟨f, none⟩, st.note (.failed f)) : Except Failure α × State) :=
  ⟨[_], rfl, .failed .nil⟩

theorem told {a : α} {e : Event} (he : e ≠ .entered) (hl : e ≠ .left) (hf : ∀ f, e ≠ .failed f)
    (h : st'.history = (st.note e).history) : Passes st ((.ok a, st') : Except Failure α × State) :=
  ⟨[⟨e, st.depth, st.frames⟩], h, .step he hl hf .nil⟩

theorem bind {m : Eval α} {k : α → Eval β} (hm : Passes st (m st))
    (hk : ∀ a st, Passes st (k a st)) : Passes st ((m >>= k) st) := by
  rw [bind_apply]
  rcases hr : m st with ⟨e | a, st'⟩
  all_goals
    rw [hr] at hm
    obtain ⟨es, hes, hpass⟩ := hm
  · exact ⟨es, hes, hpass⟩
  · obtain ⟨fs, hfs, hpass'⟩ := hk a st'
    refine ⟨fs ++ es, ?_, hpass'.append hpass⟩
    rw [hfs, hes, List.append_assoc]

theorem underFrame {frame : Frame} {m : Eval Term} (hm : ∀ st, Passes st (m st)) (st : State) :
    Passes st (Eval.underFrame frame m st) := by
  obtain ⟨es, hes, hpass⟩ := hm (st.push frame)
  rw [underFrame_apply]
  exact ⟨es, hes, (fault?_withTrace _ _).symm ▸ hpass⟩

theorem deeper {m : Eval Term} (hm : ∀ st, Passes st (m st)) (st : State) :
    Passes st (Eval.deeper m st) := by
  rw [deeper_apply]
  obtain ⟨es, hes, hpass⟩ := hm st.enter
  generalize m st.enter = r at hes hpass ⊢
  obtain ⟨r, st'⟩ := r
  have hinside : st'.history = (es ++ [⟨.entered, st.depth + 1, st.frames⟩]) ++ st.history := by
    rw [List.append_assoc]
    exact hes
  by_cases hx : ∃ f ∈ fault? r, f.isExhaustion = true
  · obtain ⟨f, hf, hx⟩ := hx
    cases r with
    | ok a => cases hf
    | error e =>
        obtain rfl := Option.some.inj hf
        simp only [withBound, noteBound, if_pos hx]
        refine ⟨⟨.left, st'.depth - 1, st'.frames⟩ ::
          ⟨.failed (.stackExhausted st'.limit st'.depth), st'.depth, st'.frames⟩ ::
          (es ++ [⟨.entered, st.depth + 1, st.frames⟩]), ?_, .bounded .nil hpass hx⟩
        exact congrArg (_ :: _ :: ·) hinside
  · have hmild : ∀ f ∈ fault? r, f.isExhaustion = false := fun f hf =>
      Bool.eq_false_iff.2 fun h => hx ⟨f, hf, h⟩
    have hsame : withBound st'.limit st'.depth r = r ∧ noteBound r st' = st' := by
      cases r with
      | ok a => exact ⟨rfl, rfl⟩
      | error e => simp [withBound, noteBound, hmild e.fault rfl]
    rw [hsame.1, hsame.2]
    refine ⟨⟨.left, st'.depth - 1, st'.frames⟩ :: (es ++ [⟨.entered, st.depth + 1, st.frames⟩]), ?_,
      .inner .nil hpass hmild⟩
    exact congrArg (_ :: ·) hinside

end Passes

def passing : Conduct where
  keeps m := ∀ st, Passes st (m st)

/-- The host's natives let failures pass: as long as the evaluator that they call back does not catch
any, nor do they. -/
def PassesFailures (host : Host) : Prop :=
  passing.KeptBy host

theorem announce_passes (f : Term) (i : Invocation) (st : State) : Passes st (announce f i st) := by
  obtain ⟨debug, h⟩ := announce_apply f i st
  rw [h]
  exact .told (e := .called f i) nofun nofun nofun rfl

theorem passing_upheld (host : Host) : passing.Upheld host where
  plain hm st := by
    rcases hm st with ⟨a, h⟩ | ⟨f, h⟩
    · rw [h]
      exact .ok rfl
    · rw [h]
      exact .failed st f
  aside {α m} hm st := by
    obtain ⟨⟨a, ha⟩, h⟩ := hm st
    rw [show m st = (.ok a, (m st).2) from Prod.ext ha rfl]
    exact .ok h.history
  bind hm hk st := (hm st).bind hk
  update {g} _ st := by
    rw [updateStore_apply]
    cases g st.store with
    | ok τ => exact .ok rfl
    | error f => exact .failed st f
  alloc c st := .ok rfl
  visit t st := .told (e := .visited t) nofun nofun nofun rfl
  announce i _ st := announce_passes _ i st
  give call i _ hb st := by
    refine (announce_passes _ i st).bind fun _ st => ?_
    rw [give_apply call i hb]
    exact .ok rfl
  site _ hargs hcalls n f block st :=
    (hargs st).bind fun vs st => Passes.underFrame (hcalls f _) st
  deeper := Passes.deeper

def Delivered (st : State) (r : Except Failure Term × State) : Prop :=
  ∃ es, r.2.history = es ++ st.history ∧ underway es = 0 ∧ (∀ v, r.1 = .ok v → Unfailing es) ∧
    ∀ e, r.1 = .error e → ∃ after μ before g, Raised es e.fault after μ before g

theorem Passes.delivered {r : Except Failure Term × State} (h : Passes st r) : Delivered st r := by
  obtain ⟨es, hes, hpass⟩ := h
  refine ⟨es, hes, hpass.underway_eq, fun v hv => ?_, fun e he => ?_⟩
  · exact hpass.unfailing (by rw [hv]; rfl)
  · exact hpass.raised (by rw [he]; rfl)

theorem Raised.outside (h : Raised es f after μ before g) (hes : underway es = 0)
    (hf : f.isExhaustion = true) : es = μ :: before ∧ g = f ∧ underway before = 0 := by
  obtain ⟨rfl, hevent, -, hfate⟩ := h
  split at hfate
  next =>
      rw [hfate.isExhaustion_eq] at hf
      cases hf
  next hout =>
      obtain ⟨rfl, hleft⟩ := hfate
      rw [underway_append, underway_cons, hleft.underway_eq, hevent, shift_failed] at hes
      have hzero : ¬0 < underway before := fun hpos => hout ⟨hf, hpos⟩
      obtain rfl : after = [] := List.length_eq_zero_iff.1 (by omega)
      exact ⟨rfl, rfl, by simpa using hes⟩

section Block

def Roomy (m : Eval α) : Prop :=
  ∀ st e, (m st).1 = .error e → e.fault.isExhaustion = false

theorem Roomy.fail (hf : f.isExhaustion = false) : Roomy (Eval.fail f : Eval α) := by
  rintro st e ⟨⟩
  exact hf

theorem Roomy.total {m : Eval α} (h : ∀ st, ∃ a, (m st).1 = .ok a) : Roomy m := by
  intro st e he
  obtain ⟨a, ha⟩ := h st
  rw [ha] at he
  cases he

theorem Roomy.bind {m : Eval α} {k : α → Eval β} (hm : Roomy m) (hk : ∀ a, Roomy (k a)) :
    Roomy (m >>= k) := by
  intro st e he
  rw [bind_apply] at he
  rcases hr : m st with ⟨e' | a, st'⟩
  all_goals rw [hr] at he
  · obtain rfl := Except.error.inj he
    exact hm st e' (by rw [hr])
  · exact hk a st' e he

theorem Roomy.deeper (m : Eval Term) : Roomy (Eval.deeper m) := by
  intro st e he
  rw [deeper_apply] at he
  generalize (m st.enter).1 = r at he
  cases r with
  | ok a => cases he
  | error e' =>
      obtain rfl := Except.error.inj he
      split
      · rfl
      next hx => exact Bool.eq_false_iff.2 hx

theorem define_roomy (s : ScopeId) (n : String) (t : Term) : Roomy (Eval.define s n t) := by
  intro st e he
  rw [Eval.define, updateStore_apply] at he
  cases hd : st.store.define s n t with
  | ok τ =>
      rw [hd] at he
      cases he
  | error f =>
      rw [hd] at he
      obtain rfl := Except.error.inj he
      exact (define_refused st.store s n t f hd).mild.2

theorem bindParams_roomy (s : ScopeId) (ps : List (String × Term)) : Roomy (bindParams s ps) := by
  induction ps with
  | nil => exact .total fun _ => ⟨_, rfl⟩
  | cons p ps ih =>
      exact .bind (.total fun _ => ⟨_, rfl⟩) fun _ => .bind (define_roomy s _ _) fun _ => ih

theorem enterBlock_roomy (host : Host) (room : Nat) (c : Code) (p : ScopeId) (i : Invocation) :
    Roomy (enterBlock host (room + 1) c p i) := by
  refine .bind (.total fun _ => ⟨_, rfl⟩) fun st => ?_
  split
  · exact .fail rfl
  · refine .bind (.total fun _ => ⟨_, rfl⟩) fun s => .bind (bindParams_roomy s _) fun _ => ?_
    exact .bind (.total fun _ => ⟨_, rfl⟩) fun _ => .deeper _

/-- No call of a block ends for lack of room. -/
def Contains (call : Caller) : Prop :=
  ∀ c p i, Roomy (call (.block c p) i)

/-- A call of a block that ends for lack of room has not entered it: nothing is told of it but that it
fails, and perhaps that it was called. -/
def EntersContained (call : Caller) : Prop :=
  ∀ c p i (st : State) e, (call (.block c p) i st).1 = .error e → e.fault.isExhaustion = true →
    ∃ told, (told = [] ∨ told = [⟨.called (.block c p) i, st.depth, st.frames⟩]) ∧
      (call (.block c p) i st).2.history =
        ⟨.failed e.fault, st.depth, st.frames⟩ :: (told ++ st.history)

theorem Contains.entersContained (h : Contains call) : EntersContained call := by
  intro c p i st e he hx
  rw [h c p i st e he] at hx
  cases hx

theorem dispatch_contains (host : Host) (room budget : Nat) :
    Contains (dispatch host (enterBlock host (room + 1)) (budget + 1)) := by
  intro c p i
  rw [dispatch.eq_def]
  refine .bind (.total fun st => ?_) fun _ => enterBlock_roomy host room c p i
  obtain ⟨debug, h⟩ := announce_apply (.block c p) i st
  exact ⟨(), by rw [h]⟩

theorem caller_contains (host : Host) : Contains (caller host) := by
  intro c p i st
  rw [caller, bind_of_ok (get_apply st)]
  exact dispatch_contains host _ _ c p i st

theorem dispatch_entersContained (host : Host) (room budget : Nat) :
    EntersContained (dispatch host (enterBlock host room) budget) := by
  cases budget with
  | zero =>
      rintro c p i st e ⟨⟩ -
      exact ⟨[], .inl rfl, rfl⟩
  | succ budget =>
      cases room with
      | succ room => exact (dispatch_contains host room budget).entersContained
      | zero =>
          rintro c p i st e he -
          obtain ⟨debug, ha⟩ := announce_apply (.block c p) i st
          rw [dispatch.eq_def] at he ⊢
          simp only at he ⊢
          rw [bind_of_ok ha] at he ⊢
          obtain rfl := Except.error.inj he
          exact ⟨[_], .inr rfl, rfl⟩

theorem behind_entersContained (hc : Law.Behind host call) : EntersContained call := by
  cases hc with
  | outermost => exact (caller_contains host).entersContained
  | block room => exact fun c p i => dispatch_entersContained host room _ c p i
  | native room budget => exact dispatch_entersContained host room budget

end Block

/-- Whatever the evaluator is asked, a failure that leaves it is the one that was met first, and after
that nothing has happened but that blocks were left; only one of exhaustion that was met with blocks
underway has been replaced, once, by one that tells the depth of the innermost of them. So the calls of
blocks do not end with exhaustion, unless the room runs out before the block is entered, and a script
only if it was met outside of all blocks. -/
theorem failure_passes (hh : PassesFailures host) (hc : Law.Behind host call) :
    (∀ (q : Request) st, Delivered st (q.askedOf call st)) ∧
    (∀ limit depth, ∃ report, (Fault.stackExhausted limit depth).report? = some report ∧
      report.kind = .recursionLimit ∧ report.actual = some (toString depth) ∧
      report.message = "Maximum call depth exceeded at depth " ++ toString depth ++ ".") ∧
    (KeepsDepth host → ∀ (q : Request) st, st.depth ≤ st.limit → ∀ after κ before,
      (q.perform host st).2.history = (after ++ κ :: before) ++ st.history →
        ∀ f, κ.event = .failed f → (κ.depth : Int) = st.depth + underway before) ∧
    EntersContained call ∧ Contains (caller host) ∧
    (∀ room budget, Contains (dispatch host (enterBlock host (room + 1)) (budget + 1))) ∧
    ∀ (s s' : Session) c message e effects,
      s.run host c = (.ok (.failure message e effects), s') → e.fault.isExhaustion = true →
        ∃ μ before, s'.state.history = μ :: before ∧ μ.event = .failed e.fault ∧
          underway before = 0 := by
  have U := passing_upheld host
  refine ⟨fun q st => (U.askedOf hh hc q st : Passes st _).delivered,
    fun limit depth => ⟨_, rfl, rfl, rfl, rfl⟩, ?_, behind_entersContained hc, caller_contains host,
    dispatch_contains host, ?_⟩
  · intro hd q st hlimit after κ before hes f hf
    obtain ⟨-, -, -, es, hes', hn⟩ := perform_steady hd hlimit q st rfl rfl
    obtain rfl := List.append_cancel_right (hes'.symm.trans hes)
    have hdepth := (hn.level hlimit κ before (List.suffix_append _ _)).2
    rwa [underway_cons, hf, shift_failed, Int.zero_add] at hdepth
  · intro s s' c message e effects hrun he
    have hpass : Passes s.ready (runIn (caller host) s.global c s.ready) :=
      U.askedOf hh .outermost (.runIn c s.global) s.ready
    obtain ⟨es, hes, hunder, -, hfail⟩ := hpass.delivered
    rw [Session.run] at hrun
    generalize runIn (caller host) s.global c s.ready = r at hrun hes hfail
    rcases r with ⟨e' | v, st⟩
    · simp only at hrun
      split at hrun
      · cases hrun
        obtain ⟨after, μ, before, g, hraised⟩ := hfail e rfl
        obtain ⟨rfl, rfl, hbefore⟩ := hraised.outside hunder he
        exact ⟨μ, before, hes.trans (List.append_nil _), hraised.event, hbefore⟩
      · cases hrun
    · cases hrun

theorem discreet_passesFailures : PassesFailures discreet := by
  intro call hc key i
  have U := passing_upheld discreet
  change passing.keeps (if key = "clear-stack" then Kit.refuse _ else Kit.native call key i)
  split
  next => exact U.plain (plain_refuse _)
  next hkey => exact Conduct.kitNative_keeps U hc fun h => absurd h hkey

def recursing : State :=
  let raising : Term := .call "raise" [.str "RecursionError", .str "too deep"] none
  let bindings := [("f", .block ⟨[.call "g" [] none], []⟩ 0), ("g", .block ⟨[raising], []⟩ 0),
    ("raise", .native ⟨1, "raise", .host "raise"⟩)]
  { store := { scopes := #[{ bindings }] }, limit := 5 }

theorem failure_passes_recursing :
    let r := (Request.eval (.call "f" [] none) 0).perform discreet recursing
    fault? r.1 = some (.stackExhausted 5 2) ∧ Delivered recursing r ∧
      Contains (caller discreet) := by
  intro r
  obtain ⟨hdelivered, -, -, -, hcontains, -⟩ := failure_passes discreet_passesFailures
    (.outermost : Law.Behind discreet (caller discreet))
  exact ⟨by decide +kernel, hdelivered _ _, hcontains⟩

def diving : Host where
  native call key _ :=
    let native (key : String) : Term := .native ⟨0, key, .host key⟩
    if key = "dive" then call (native "sink") {}
    else if key = "sink" then call (native "settle") {}
    else call (.block ⟨[.num 1], []⟩ 0) {}

theorem diving_passesFailures : PassesFailures diving := by
  intro call hc key i
  change passing.keeps (if key = "dive" then _ else if key = "sink" then _ else _)
  split
  · exact hc _ _
  split
  · exact hc _ _
  · exact hc _ _

def surface : State :=
  { store := { scopes := #[{ bindings := [("dive", .native ⟨0, "dive", .host "dive"⟩)] }] }, limit := 10 }

/-- Where the room ends at the call of a block, that call ends with exhaustion, and so does all that led
there. And a failure that leaves a call has one thing more to it than where it was met: it tells of the
calls that were in progress. -/
theorem failure_passes_spent :
    let r := (Request.eval (.call "dive" [] none) 0).perform diving surface
    PassesFailures diving ∧ (∃ call, Law.Behind diving call ∧ ¬Contains call) ∧
      (∀ call i, diving.native call "settle" i = call (.block ⟨[.num 1], []⟩ 0) {}) ∧
      Fault.endless.isExhaustion = true ∧
      (caller diving (.native ⟨0, "dive", .host "dive"⟩) {} surface).1 = .error ⟨.endless, none⟩ ∧
      ∃ frames, r.1 = .error ⟨.endless, some frames⟩ := by
  refine ⟨diving_passesFailures, ⟨_, .native 1 0, fun h => ?_⟩, fun call i => rfl, rfl, rfl, _, rfl⟩
  have hmild := h ⟨[.num 1], []⟩ 0 {} surface _ rfl
  cases hmild

end BlockScript.Proofs.Propagation
