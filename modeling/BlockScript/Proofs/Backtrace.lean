import BlockScript.Proofs.ConductKit
import BlockScript.Proofs.Depth

namespace BlockScript.Proofs.Backtrace

open Eval Evaluator Running

variable {α β : Type} {host : Host} {passing : Prop} {call : Caller} {st st' : State}
  {past newer : List Moment} {base : List Frame}

/-- The frame is that of a call by a term: it stands above the frames that were there once the
arguments had been evaluated, with their values. That was after the past and before what is newer. -/
def Pushed (host : Host) (past newer : List Moment) (below : List Frame) (frame : Frame) : Prop :=
  ∃ call s args block st₀ st₁, Law.Behind host call ∧
    frame.site = .call frame.name args block ∧
    evalArgs call s args st₀ = (.ok frame.args, st₁) ∧ st₁.frames = below ∧
    past <:+ st₀.history ∧ st₁.history <:+ newer

def InProgress (host : Host) (past newer : List Moment) (base frames : List Frame) : Prop :=
  ∀ inner frame outer, frames = inner ++ frame :: outer →
    Pushed host past newer (outer ++ base) frame

/-- The failure comes from the moment `μ`, and it tells of the calls then in progress, unless there
were none but those of `base`. If natives let failures pass nothing has happened since but that blocks
were left. -/
structure RaisedAt (host : Host) (passing : Prop) (base : List Frame) (past : List Moment)
    (e : Failure) (after : List Moment) (μ : Moment) (before : List Moment) (calls : List Frame) :
    Prop where
  fault : μ.event = .failed e.fault
  left : passing → ∀ ν ∈ after, ν.event = .left
  frames : μ.frames = calls ++ base
  inProgress : InProgress host past (μ :: (before ++ past)) base calls
  trace : e.trace = if calls.isEmpty then none else some μ.frames.reverse

structure Accounted (host : Host) (passing : Prop) (st : State) (r : Except Failure α × State) :
    Prop where
  frames : r.2.frames = st.frames
  told : ∃ es, r.2.history = es ++ st.history ∧ ∀ e, r.1 = .error e →
    ∃ after μ before calls, es = after ++ μ :: before ∧
      RaisedAt host passing st.frames st.history e after μ before calls

theorem inProgress_nil : InProgress host past newer base [] := by
  intro inner frame outer h
  simp at h

theorem InProgress.push {calls : List Frame} {frame : Frame}
    (h : InProgress host past newer (frame :: base) calls)
    (hf : Pushed host past newer base frame) :
    InProgress host past newer base (calls ++ [frame]) := by
  intro inner g outer hsplit
  rcases List.eq_nil_or_concat outer with rfl | ⟨outer, last, rfl⟩
  · obtain ⟨-, hg⟩ := List.append_inj' hsplit rfl
    obtain rfl := List.head_eq_of_cons_eq hg
    exact hf
  · rw [List.concat_eq_append, ← List.cons_append, ← List.append_assoc] at hsplit
    obtain ⟨hcalls, hlast⟩ := List.append_inj' hsplit rfl
    obtain rfl := List.head_eq_of_cons_eq hlast
    have hpushed := h inner g outer hcalls
    rwa [List.concat_eq_append, List.append_assoc]

namespace RaisedAt

variable {e : Failure} {after before es : List Moment} {μ : Moment} {calls : List Frame}

theorem earlier (h : RaisedAt host passing base (es ++ past) e after μ before calls) :
    RaisedAt host passing base past e after μ (before ++ es) calls where
  fault := h.fault
  left := h.left
  frames := h.frames
  trace := h.trace
  inProgress inner frame outer hsplit := by
    obtain ⟨call, s, args, block, st₀, st₁, hc, hsite, hargs, hbelow, hpast, hnewer⟩ :=
      h.inProgress inner frame outer hsplit
    refine ⟨call, s, args, block, st₀, st₁, hc, hsite, hargs, hbelow, ?_, ?_⟩
    · exact (List.suffix_append es past).trans hpast
    · rwa [List.append_assoc]

theorem pushed {frame : Frame} (h : RaisedAt host passing (frame :: base) past e after μ before calls)
    (hf : Pushed host past (μ :: (before ++ past)) base frame) :
    RaisedAt host passing base past
      { e with trace := some (e.trace.getD (frame :: base).reverse) } after μ before
      (calls ++ [frame]) where
  fault := h.fault
  left := h.left
  frames := by rw [h.frames, List.append_assoc]; rfl
  inProgress := h.inProgress.push hf
  trace := by
    have hne : (calls ++ [frame]).isEmpty = false := by simp
    rw [hne, h.trace, h.frames]
    cases calls with
    | nil => rfl
    | cons f calls => rfl

end RaisedAt

namespace Accounted

theorem ok {r : Except Failure α × State} (es : List Moment) (hok : ∃ a, r.1 = .ok a)
    (hframes : r.2.frames = st.frames) (hes : r.2.history = es ++ st.history) :
    Accounted host passing st r := by
  refine ⟨hframes, es, hes, fun e he => ?_⟩
  obtain ⟨a, ha⟩ := hok
  rw [ha] at he
  cases he

theorem failed (f : Fault) :
    Accounted host passing st ((.error ⟨f, none⟩, st.note (.failed f)) : Except Failure α × State) := by
  refine ⟨rfl, [⟨.failed f, st.depth, st.frames⟩], rfl, fun e he => ?_⟩
  cases he
  exact ⟨[], _, [], [], rfl, rfl, by simp, rfl, inProgress_nil, rfl⟩

theorem after {r : Except Failure α × State} {es : List Moment} (hframes : st'.frames = st.frames)
    (hes : st'.history = es ++ st.history) (h : Accounted host passing st' r) :
    Accounted host passing st r := by
  obtain ⟨hframes', fs, hfs, hfail⟩ := h
  refine ⟨hframes'.trans hframes, fs ++ es, ?_, fun e he => ?_⟩
  · rw [hfs, hes, List.append_assoc]
  · obtain ⟨after, μ, before, calls, rfl, hraised⟩ := hfail e he
    rw [hframes, hes] at hraised
    exact ⟨after, μ, before ++ es, calls, by simp, hraised.earlier⟩

theorem passed {e : Failure} (h : Accounted host passing st ((.error e, st') : Except Failure α × State)) :
    Accounted host passing st ((.error e, st') : Except Failure β × State) := by
  obtain ⟨hframes, es, hes, hfail⟩ := h
  exact ⟨hframes, es, hes, fun e' he => hfail e' (by cases he; rfl)⟩

theorem bind {m : Eval α} {k : α → Eval β} (hm : Accounted host passing st (m st))
    (hk : ∀ a st, Accounted host passing st (k a st)) : Accounted host passing st ((m >>= k) st) := by
  rw [bind_apply]
  rcases hr : m st with ⟨e | a, st'⟩
  all_goals rw [hr] at hm
  · exact hm.passed
  · obtain ⟨hframes, es, hes, -⟩ := hm
    exact (hk a st').after hframes hes

theorem replaced {r : Except Failure α × State} (h : Accounted host passing st r) (f : Fault) :
    Accounted host passing st
      ((.error ⟨f, none⟩, r.2.note (.failed f)) : Except Failure α × State) := by
  obtain ⟨hframes, es, hes, -⟩ := h
  exact (failed f).after hframes hes

theorem bound {r : Except Failure α × State} (h : Accounted host passing st r) :
    Accounted host passing st (withBound r.2.limit r.2.depth r.1, noteBound r.1 r.2) := by
  rcases r with ⟨e | a, st'⟩
  · by_cases hx : e.fault.isExhaustion = true
    · rw [withBound, noteBound, if_pos hx, if_pos hx]
      exact h.replaced _
    · rw [withBound, noteBound, if_neg hx, if_neg hx]
      exact h
  · exact h

theorem leave {r : Except Failure α × State} (h : Accounted host passing st r) :
    Accounted host passing st (r.1, r.2.leave) := by
  obtain ⟨hframes, es, hes, hfail⟩ := h
  refine ⟨hframes, ⟨.left, r.2.depth - 1, r.2.frames⟩ :: es, congrArg _ hes, fun e he => ?_⟩
  obtain ⟨after, μ, before, calls, rfl, hraised⟩ := hfail e he
  exact ⟨_ :: after, μ, before, calls, rfl, { hraised with
    left := fun hp => List.forall_mem_cons.2 ⟨rfl, hraised.left hp⟩ }⟩

theorem deeper {m : Eval Term} (hm : ∀ st, Accounted host passing st (m st)) (st : State) :
    Accounted host passing st (Eval.deeper m st) := by
  rw [deeper_apply]
  have hframes : st.enter.frames = st.frames := rfl
  have hhistory : st.enter.history = [⟨.entered, st.depth + 1, st.frames⟩] ++ st.history := rfl
  exact (hm st.enter).bound.leave.after hframes hhistory

end Accounted

def tracing (host : Host) (passing : Prop) : Conduct where
  keeps m := ∀ st, Accounted host passing st (m st)

/-- The host's natives leave the calls in progress to the evaluator, and tell of the failures that they
end with as it does: of their own when they are raised, and of others as they came to them. -/
def TracesCalls (host : Host) (passing : Prop) : Prop :=
  (tracing host passing).KeptBy host

theorem callTerm_accounted (hc : Law.Behind host call) {s : ScopeId} {args : List Term}
    (hargs : ∀ st, Accounted host passing st (evalArgs call s args st))
    (hcalls : (tracing host passing).Calls call) (n : String) (f : Term) (block : Option Code)
    (st : State) : Accounted host passing st (Conduct.callTerm call s n f args block st) := by
  have h := hargs st
  rcases hr : evalArgs call s args st with ⟨e | vs, st₁⟩
  all_goals
    rw [hr] at h
    obtain ⟨hframes, es, hes, hfail⟩ := h
    simp only at hframes hes
  · rw [Conduct.callTerm, bind_apply, hr]
    exact Accounted.passed ⟨hframes, es, hes, hfail⟩
  · rw [Conduct.callTerm, bind_of_ok hr, underFrame_apply]
    generalize hframe : (⟨n, f, vs, .call n args block⟩ : Frame) = frame
    obtain ⟨hframes', fs, hfs, hfail'⟩ := hcalls f
      { args := vs, block := block.map (.block · s), scope := some s } (st₁.push frame)
    have hpushed : (st₁.push frame).frames = frame :: st.frames := by rw [← hframes]; rfl
    have hhistory : (st₁.push frame).history = es ++ st.history := hes
    rw [hpushed] at hframes' hfail'
    rw [hhistory] at hfs hfail'
    refine ⟨?_, fs ++ es, ?_, fun e he => ?_⟩
    · simp only [State.pop, hframes', List.tail_cons]
    · rw [List.append_assoc]
      exact hfs
    · rw [hframes'] at he
      rcases hcall : (call f { args := vs, block := block.map (.block · s), scope := some s }
        (st₁.push frame)).1 with e' | v
      · rw [hcall] at he
        cases he
        obtain ⟨after, μ, before, calls, rfl, hraised⟩ := hfail' e' hcall
        refine ⟨after, μ, before ++ es, calls ++ [frame], by simp, hraised.earlier.pushed ?_⟩
        subst hframe
        refine ⟨call, s, args, block, st, st₁, hc, rfl, hr, hframes, List.suffix_refl _, ?_⟩
        rw [hes, List.append_assoc]
        exact (List.suffix_append _ _).trans (List.suffix_cons _ _)
      · rw [hcall] at he
        cases he

theorem announce_accounted (f : Term) (i : Invocation) (st : State) :
    Accounted host passing st (announce f i st) := by
  obtain ⟨debug, h⟩ := Depth.announce_apply f i st
  rw [h]
  exact .ok [⟨.called f i, st.depth, st.frames⟩] ⟨_, rfl⟩ rfl rfl

theorem tracing_upheld (host : Host) (passing : Prop) : (tracing host passing).Upheld host where
  plain hm st := by
    rcases hm st with ⟨a, h⟩ | ⟨f, h⟩
    · rw [h]
      exact .ok [] ⟨a, rfl⟩ rfl rfl
    · rw [h]
      exact .failed f
  aside hm st := by
    obtain ⟨hok, h⟩ := hm st
    exact .ok [] hok h.frames h.history
  bind hm hk st := (hm st).bind hk
  update {g} _ st := by
    rw [updateStore_apply]
    cases g st.store with
    | ok τ => exact .ok [] ⟨_, rfl⟩ rfl rfl
    | error f => exact .failed f
  alloc c st := .ok [] ⟨_, rfl⟩ rfl rfl
  visit t st := .ok [⟨.visited t, st.depth, st.frames⟩] ⟨_, rfl⟩ rfl rfl
  announce i _ st := announce_accounted _ i st
  give call i _ hb st := by
    refine (announce_accounted _ i st).bind fun _ st => ?_
    rw [give_apply call i hb]
    exact .ok [] ⟨_, rfl⟩ rfl rfl
  site hc hargs hcalls n f block st := callTerm_accounted hc hargs hcalls n f block st
  deeper := Accounted.deeper

section Call

variable {s : ScopeId} {n : String} {f : Term} {args : List Term} {block : Option Code}

theorem evalTerm_call (hf : st.store.lookup s n = .ok (some f)) :
    let t : Term := .call n args block
    evalTerm call s t st =
      Conduct.callTerm call s n f args block ({ st with node := t }.note (.visited t)) := by
  intro t
  have hvisit : visit t st = (.ok (), { st with node := t }.note (.visited t)) := rfl
  have hlookup : lookup s n ({ st with node := t }.note (.visited t)) =
      (.ok (some f), { st with node := t }.note (.visited t)) := by
    rw [lookup, bind_of_ok (getStore_apply _)]
    change Eval.ofExcept (st.store.lookup s n) _ = _
    rw [hf]
    rfl
  rw [evalTerm, bind_of_ok hvisit, bind_of_ok hlookup]
  rfl

end Call

/-- Whatever the evaluator is asked, if it fails the failure tells of the calls that were in progress
when it was raised, if there were any but those that there were before. A call is in progress from
when its arguments are there: if they fail there is nothing to tell of it. And what a failure tells
stays as it is in all the calls that it leaves. -/
theorem failure_traced (hh : TracesCalls host passing) (hc : Law.Behind host call) :
    (∀ (q : Request) st, Accounted host passing st (q.askedOf call st)) ∧
    ∀ s n args block f (st : State), st.store.lookup s n = .ok (some f) →
      let t : Term := .call n args block
      let ready := { st with node := t }.note (.visited t)
      (∀ e st₁, evalArgs call s args ready = (.error e, st₁) →
        evalTerm call s t st = (.error e, st₁)) ∧
      ∀ vs st₁, evalArgs call s args ready = (.ok vs, st₁) →
        let frame : Frame := ⟨n, f, vs, t⟩
        let r := call f ⟨vs, block.map (.block · s), some s⟩ (st₁.push frame)
        ∀ e, r.1 = .error e → evalTerm call s t st =
          (.error { e with trace := some (e.trace.getD (frame :: st₁.frames).reverse) }, r.2.pop) := by
  have U := tracing_upheld host passing
  refine ⟨U.askedOf hh hc, ?_⟩
  intro s n args block f st hf t ready
  have hcall : evalTerm call s t st = Conduct.callTerm call s n f args block ready := evalTerm_call hf
  rw [hcall]
  refine ⟨fun e st₁ hargs => ?_, fun vs st₁ hargs => ?_⟩
  · rw [Conduct.callTerm, bind_apply, hargs]
  · intro frame r e he
    have hframes : r.2.frames = frame :: st₁.frames := (U.behind hh hc f _ (st₁.push frame)).frames
    rw [Conduct.callTerm, bind_of_ok hargs, underFrame_apply]
    change (withTrace r.2.frames r.1, r.2.pop) = _
    rw [hframes, he]
    rfl

theorem discreet_tracesCalls : TracesCalls Depth.discreet True := by
  intro call hc key i
  have U := tracing_upheld Depth.discreet True
  change (tracing Depth.discreet True).keeps
    (if key = "clear-stack" then Kit.refuse _ else Kit.native call key i)
  split
  next => exact U.plain (plain_refuse _)
  next hkey => exact Conduct.kitNative_keeps U hc fun h => absurd h hkey

def calling : State :=
  let bindings := [("f", .block ⟨[.call "g" [.num 1] none], []⟩ 0), ("g", .block ⟨[.call "x" [] none], []⟩ 0)]
  { store := { scopes := #[{ bindings }] }, limit := 5 }

def told (r : Except Failure Term) : Option (List String) :=
  match r with
  | .ok _ => none
  | .error e => e.trace.map (·.map Frame.name)

theorem failure_traced_calling :
    let r := (Request.eval (.call "f" [] none) 0).perform Depth.discreet calling
    told r.1 = some ["f", "g"] ∧ r.2.frames = [] ∧ ∃ e, r.1 = .error e ∧
      ∃ after μ before calls, r.2.history = after ++ μ :: before ∧
        RaisedAt Depth.discreet True [] [] e after μ before calls ∧
        e.trace = some μ.frames.reverse := by
  intro r
  obtain ⟨htraced, -⟩ := failure_traced discreet_tracesCalls
    (.outermost : Law.Behind Depth.discreet (caller Depth.discreet))
  obtain ⟨hframes, es, hes, hfail⟩ : Accounted Depth.discreet True calling r := htraced _ _
  have htold : told r.1 = some ["f", "g"] := by decide +kernel
  refine ⟨htold, hframes, ?_⟩
  rcases hr : r.1 with e | v
  · rw [hr] at htold
    obtain ⟨after, μ, before, calls, rfl, hraised⟩ := hfail e hr
    refine ⟨e, rfl, after, μ, before, calls, ?_, hraised, ?_⟩
    · rw [hes]
      exact List.append_nil _
    · have htrace := hraised.trace
      cases calls with
      | nil =>
          rw [List.isEmpty_nil, if_pos rfl] at htrace
          rw [told, htrace] at htold
          cases htold
      | cons frame calls => exact htrace
  · rw [hr] at htold
    cases htold

end BlockScript.Proofs.Backtrace
