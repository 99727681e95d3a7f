import BlockScript.Proofs.ConductKit
import BlockScript.Proofs.Consecutive
import BlockScript.Proofs.Depth
import BlockScript.Proofs.Muting

namespace BlockScript.Proofs.Giving

open Eval Evaluator Running ReturnSlots

variable {α β : Type} {s : ScopeId} {es fs : List Moment} {st st' st'' : State}

def gift? (s : ScopeId) (μ : Moment) : Option (Term × Bool) :=
  match μ.event with
  | .called (.native g) i =>
      if i.scope = some s then
        match g.impl with
        | .builtin .ret => some (i.first, true)
        | .builtin .pass => some (i.first, false)
        | _ => none
      else none
  | _ => none

def given? (s : ScopeId) (es : List Moment) : Option Term :=
  (es.findSome? (gift? s)).map Prod.fst

def stopped (s : ScopeId) (es : List Moment) : Bool :=
  es.any fun μ => (gift? s μ).any Prod.snd

theorem given?_append : given? s (fs ++ es) = (given? s fs).or (given? s es) := by
  rw [given?, List.findSome?_append, given?, given?]
  cases fs.findSome? (gift? s) <;> rfl

theorem stopped_append : stopped s (fs ++ es) = (stopped s fs || stopped s es) :=
  List.any_append

theorem not_stopped (h : given? s es = none) : stopped s es = false := by
  rw [given?, Option.map_eq_none_iff, List.findSome?_eq_none_iff] at h
  rw [stopped, List.any_eq_false]
  intro μ hμ
  simp [h μ hμ]

def slotAfter (s : ScopeId) (es : List Moment) (slot : Option Term × Option Bool) :
    Option Term × Option Bool :=
  ((given? s es).or slot.1, slot.2.map (· || stopped s es))

theorem slotAfter_append (r : Option Term × Option Bool) :
    slotAfter s (fs ++ es) r = slotAfter s fs (slotAfter s es r) := by
  simp only [slotAfter, given?_append, stopped_append, Option.or_assoc, Option.map_map]
  congr 2
  funext b
  simp only [Function.comp_apply, Bool.or_comm (stopped s fs), Bool.or_assoc]

theorem slotAfter_silent (h : ∀ μ ∈ es, gift? s μ = none) (r : Option Term × Option Bool) :
    slotAfter s es r = r := by
  have hgiven : given? s es = none := by
    rw [given?, Option.map_eq_none_iff, List.findSome?_eq_none_iff]
    exact h
  rw [slotAfter, not_stopped hgiven, hgiven]
  simp

structure Given (st st' : State) : Prop where
  size : st.store.size ≤ st'.store.size
  told : ∃ es, st'.history = es ++ st.history ∧
    ∀ s < st.store.size, slot (st'.store.get s) = slotAfter s es (slot (st.store.get s))

namespace Given

theorem trans (h : Given st st') (h' : Given st' st'') : Given st st'' := by
  obtain ⟨hsize, es, hes, hslot⟩ := h
  obtain ⟨hsize', fs, hfs, hslot'⟩ := h'
  refine ⟨Nat.le_trans hsize hsize', fs ++ es, ?_, fun s hs => ?_⟩
  · rw [hfs, hes, List.append_assoc]
  · rw [hslot' s (Nat.lt_of_lt_of_le hs hsize), hslot s hs, slotAfter_append]

theorem silent (es : List Moment) (hsize : st.store.size ≤ st'.store.size)
    (hslot : ∀ s < st.store.size, slot (st'.store.get s) = slot (st.store.get s))
    (hes : st'.history = es ++ st.history) (h : ∀ s, ∀ μ ∈ es, gift? s μ = none) :
    Given st st' := by
  refine ⟨hsize, es, hes, fun s hs => ?_⟩
  rw [slotAfter_silent (h s), hslot s hs]

theorem same (es : List Moment) (hstore : st'.store = st.store) (hes : st'.history = es ++ st.history)
    (h : ∀ s, ∀ μ ∈ es, gift? s μ = none) : Given st st' :=
  silent es (Nat.le_of_eq (by rw [hstore])) (fun _ _ => by rw [hstore]) hes h

theorem noteFailed (f : Fault) : Given st (st.note (.failed f)) :=
  same [⟨.failed f, st.depth, st.frames⟩] rfl rfl (by simp [gift?])

end Given

theorem gift?_of_not_gives {f : Term} {i : Invocation} {depth : Nat} {frames : List Frame}
    (h : ¬Gives f) : gift? s ⟨.called f i, depth, frames⟩ = none := by
  rw [gift?]
  split
  next g j he =>
      cases he
      split
      · split
        next hg => exact absurd ⟨g, _, rfl, hg, .inl rfl⟩ h
        next hg => exact absurd ⟨g, _, rfl, hg, .inr rfl⟩ h
        next => rfl
      · rfl
  next => rfl

theorem slot_setReturned {σ : Store} (hs : s < σ.size) (t : ScopeId) (v : Term) :
    slot ((σ.setReturned t v).get s) =
      if t = s then (some v, (slot (σ.get s)).2) else slot (σ.get s) := by
  rw [Store.setReturned, Store.get_modify]
  by_cases h : t = s
  · rw [if_pos h, if_pos ⟨h.symm, h ▸ hs⟩]
    rfl
  · rw [if_neg h, if_neg fun h' => h h'.1.symm]

theorem slot_breakOff {σ : Store} (hs : s < σ.size) (t : ScopeId) :
    slot ((σ.breakOff t).get s) =
      if t = s then ((slot (σ.get s)).1, (slot (σ.get s)).2.map fun _ => true)
      else slot (σ.get s) := by
  rw [Store.breakOff, Store.get_modify]
  by_cases h : t = s
  · rw [if_pos h, if_pos ⟨h.symm, h ▸ hs⟩]
    cases hk : (σ.get s).kind
    all_goals simp [slot, hk, ScopeKind.broken?]
  · rw [if_neg h, if_neg fun h' => h h'.1.symm]

def giving : Conduct where
  keeps m := ∀ st, Given st (m st).2

theorem announce_given {f : Term} (i : Invocation) (hf : ¬Gives f) :
    Given st (announce f i st).2 := by
  obtain ⟨debug, h⟩ := Depth.announce_apply f i st
  rw [h]
  exact .same [⟨.called f i, st.depth, st.frames⟩] rfl rfl
    (by simp [gift?_of_not_gives hf])

theorem size_gave (b : Builtin) (i : Invocation) (σ : Store) : (gave b i σ).size = σ.size := by
  rw [gave]
  split
  · split
    · simp only [Store.breakOff, Store.setReturned, Store.size_modify]
    · exact Store.size_modify _
  · rfl

theorem slot_gave {b : Builtin} {i : Invocation} {σ : Store} (hs : s < σ.size) :
    slot ((gave b i σ).get s) = if i.scope = some s then
      (some i.first, (slot (σ.get s)).2.map (· || decide (b = .ret))) else slot (σ.get s) := by
  rw [gave]
  cases i.scope with
  | none => simp
  | some t =>
      have hs' : s < (σ.setReturned t i.first).size := by
        rwa [Store.setReturned, Store.size_modify]
      by_cases hb : b = .ret
      · by_cases ht : t = s
        · simp [hb, ht, slot_breakOff (ht ▸ hs'), slot_setReturned hs]
        · simp [hb, ht, slot_breakOff hs', slot_setReturned hs]
      · by_cases ht : t = s
        · simp [hb, ht, slot_setReturned hs]
        · simp [hb, ht, slot_setReturned hs]

theorem give_given {g : Native} {b : Builtin} (call : Caller) (i : Invocation)
    (hg : g.impl = .builtin b) (hb : b = .ret ∨ b = .pass) :
    Given st ((do announce (.native g) i; b.run call i) st).2 := by
  obtain ⟨debug, h⟩ := Depth.announce_apply (.native g) i st
  rw [bind_of_ok h, give_apply call i hb]
  have hgift (s : ScopeId) : gift? s ⟨.called (.native g) i, st.depth, st.frames⟩ =
      if i.scope = some s then some (i.first, decide (b = .ret)) else none := by
    rw [gift?]
    rcases hb with rfl | rfl
    all_goals simp [hg]
  refine ⟨Nat.le_of_eq (size_gave b i st.store).symm, [_], rfl, fun s hs => ?_⟩
  refine (slot_gave hs).trans ?_
  by_cases hscope : i.scope = some s
  · simp [slotAfter, given?, stopped, hgift, hscope]
  · simp [slotAfter, given?, stopped, hgift, hscope]

theorem bind_given {m : Eval α} {k : α → Eval β} (hm : ∀ st, Given st (m st).2)
    (hk : ∀ a st, Given st (k a st).2) (st : State) : Given st ((m >>= k) st).2 := by
  have h := hm st
  rw [bind_apply]
  rcases hr : m st with ⟨e | a, st'⟩
  all_goals rw [hr] at h
  · exact h
  · exact h.trans (hk a st')

theorem updateStore_given {g : Store → Except Fault Store} (hg : LeavesSlots g) (st : State) :
    Given st (updateStore g st).2 := by
  rw [updateStore_apply]
  cases h : g st.store with
  | ok τ =>
      obtain ⟨hsize, hslot⟩ := hg _ _ h
      exact .silent [] hsize (fun s _ => hslot s) rfl (by simp)
  | error e => exact .noteFailed e

theorem underFrame_given {frame : Frame} {m : Eval Term} (hm : ∀ st, Given st (m st).2)
    (st : State) : Given st (underFrame frame m st).2 := by
  rw [underFrame_apply]
  obtain ⟨hsize, es, hes, hslot⟩ := hm (st.push frame)
  exact ⟨hsize, es, hes, hslot⟩

theorem noteBound_given (r : Except Failure α) : Given st (noteBound r st) := by
  cases r with
  | ok a => exact .same [] rfl rfl (by simp)
  | error e =>
      rw [noteBound]
      split
      · exact .noteFailed _
      · exact .same [] rfl rfl (by simp)

theorem deeper_given {m : Eval Term} (hm : ∀ st, Given st (m st).2) (st : State) :
    Given st (deeper m st).2 := by
  rw [deeper_apply]
  have henter : Given st st.enter :=
    .same [⟨.entered, st.depth + 1, st.frames⟩] rfl rfl (by simp [gift?])
  have hleave (st : State) : Given st st.leave :=
    .same [⟨.left, st.depth - 1, st.frames⟩] rfl rfl (by simp [gift?])
  exact ((henter.trans (hm st.enter)).trans (noteBound_given _)).trans (hleave _)

theorem giving_upheld (host : Host) : giving.Upheld host where
  plain hm st := by
    rcases hm st with ⟨a, h⟩ | ⟨f, h⟩
    · rw [h]
      exact .same [] rfl rfl (by simp)
    · rw [h]
      exact .noteFailed f
  aside hm st := by
    obtain ⟨-, h⟩ := hm st
    exact .same [] h.store h.history (by simp)
  bind := bind_given
  update := updateStore_given
  alloc c st := by
    refine .silent [] ?_ (fun s hs => ?_) rfl (by simp)
    · rw [alloc_apply, Store.size_alloc]
      exact Nat.le_succ _
    · rw [alloc_apply, Store.get_alloc, if_neg (Nat.ne_of_lt hs)]
  visit t st := .same [⟨.visited t, st.depth, st.frames⟩] rfl rfl (by simp [gift?])
  announce i hf st := announce_given i hf
  give call i hg hb st := give_given call i hg hb
  site _ hargs hc _ f _ := bind_given hargs fun _ => underFrame_given (hc f _)
  deeper := deeper_given

/-- The host's natives give values to blocks by way of the evaluator alone. -/
def GivesByCall (host : Host) : Prop :=
  giving.KeptBy host

theorem kit_givesByCall : GivesByCall Kit.host := by
  intro call hc key i
  refine Conduct.kitNative_keeps (giving_upheld Kit.host) hc fun _ st => ?_
  exact .same [] rfl rfl (by simp)

section Run

variable {host : Host} {call : Caller}

theorem runStatements_broken (hb : st.store.isBroken s = true) (last : Term) (ts : List Term) :
    runStatements call s last ts st = (.ok last, st) := by
  cases ts with
  | nil => rfl
  | cons t ts =>
      rw [runStatements]
      simp only [bind_apply, isBroken, getStore_apply, pure_apply, hb, if_true]

theorem runStatements_one {last v : Term} {t : Term} (hb : st.store.isBroken s = false)
    (h : evalTerm call s t st = (.ok v, st')) (ts : List Term) :
    runStatements call s last (t :: ts) st = runStatements call s v ts st' := by
  rw [runStatements]
  simp only [bind_apply, isBroken, getStore_apply, pure_apply, hb, Bool.false_eq_true, if_false, h]

theorem runStatements_deaf (hd : Muting.IgnoresDebugging host) (hc : Law.Behind host call)
    (last : Term) (ts : List Term) : Muting.Deaf (runStatements call s last ts) :=
  Muting.deaf_of_same
    (Likeness.runStatements_like Muting.deaf_kept (Muting.calls_deaf hd hc) last ts)

theorem evalTerm_deaf (hd : Muting.IgnoresDebugging host) (hc : Law.Behind host call)
    (t : Term) : Muting.Deaf (evalTerm call s t) :=
  Muting.deaf_of_same (Likeness.evalTerm_like Muting.deaf_kept (Muting.calls_deaf hd hc) t)

theorem isBroken_eq (σ : Store) (s : ScopeId) : σ.isBroken s = (slot (σ.get s)).2.getD false := rfl

/-- A run in place starts with a line of debugging. -/
theorem runIn_apply (call : Caller) (s : ScopeId) (c : Code) (st : State) :
    ∃ debug, runIn call s c st = Consecutive.runOn call s .null c.statements { st with debug } := by
  obtain ⟨debug, h⟩ :=
    Depth.Still.log_apply ("run " ++ toString c.statements.length ++ " statements") st
  exact ⟨debug, by rw [runIn, bind_of_ok h]; rfl⟩

theorem runOn_of_ok {last v : Term} {ts : List Term}
    (h : runStatements call s last ts st = (.ok v, st')) :
    Consecutive.runOn call s last ts st = (.ok ((st'.store.get s).returned.getD v), st') := by
  rw [Consecutive.runOn, bind_of_ok h]
  rfl

/-- The value of the last of the statements, which are run one after the other; that of none is
null. -/
inductive LastValue (call : Caller) (s : ScopeId) (st : State) : List Term → Term → Prop
  | none : LastValue call s st [] .null
  | statement {pre t v st₁ r st₂} (hpre : runStatements call s .null pre st = (.ok v, st₁))
      (h : evalTerm call s t st₁ = (.ok r, st₂)) : LastValue call s st (pre ++ [t]) r

theorem lastValue_of_unbroken {ts : List Term} {r : Term}
    (h : runStatements call s .null ts st = (.ok r, st')) (hb : st'.store.isBroken s = false) :
    LastValue call s st ts r := by
  rcases List.eq_nil_or_concat ts with rfl | ⟨pre, t, rfl⟩
  · cases h
    exact .none
  · rw [List.concat_eq_append] at h ⊢
    rw [Consecutive.runStatements_append, bind_apply] at h
    rcases hpre : runStatements call s .null pre st with ⟨e | v, st₁⟩
    all_goals simp only [hpre] at h
    · cases h
    · by_cases hb₁ : st₁.store.isBroken s = true
      · rw [runStatements_broken hb₁] at h
        cases h
        rw [hb₁] at hb
        cases hb
      · have hrunning : st₁.store.isBroken s = false := by simpa using hb₁
        rcases ht : evalTerm call s t st₁ with ⟨e | w, st₂⟩
        · rw [runStatements] at h
          simp only [bind_apply, isBroken, getStore_apply, pure_apply, hrunning,
            Bool.false_eq_true, if_false, ht] at h
          cases h
        · rw [runStatements_one hrunning ht] at h
          cases h
          exact .statement hpre ht

section Slots

variable (hg : GivesByCall host) (hc : Law.Behind host call)
include hg hc

theorem runStatements_given (last : Term) (ts : List Term) (st : State) :
    Given st (runStatements call s last ts st).2 :=
  have U := giving_upheld host
  U.runStatements hc (U.behind hg hc) last ts st

theorem evalTerm_given (t : Term) (st : State) : Given st (evalTerm call s t st).2 :=
  have U := giving_upheld host
  U.evalTerm hc (U.behind hg hc) t st

theorem stopped_by {t v : Term} (hs : s < st.store.size) (hblock : (slot (st.store.get s)).2.isSome)
    (h : evalTerm call s t st = (.ok v, st')) (hes : st'.history = es ++ st.history)
    (hstop : stopped s es = true) :
    ∃ w, given? s es = some w ∧ (st'.store.get s).returned = some w ∧ st'.store.isBroken s = true := by
  obtain ⟨-, fs, hfs, hslot⟩ := evalTerm_given hg hc (s := s) t st
  rw [h] at hfs hslot
  obtain rfl : es = fs := List.append_cancel_right (hes.symm.trans hfs)
  obtain ⟨w, hw⟩ : ∃ w, given? s es = some w := by
    rw [← Option.isSome_iff_exists, Option.isSome_iff_ne_none]
    intro hnone
    rw [not_stopped hnone] at hstop
    cases hstop
  obtain ⟨b, hb⟩ := Option.isSome_iff_exists.1 hblock
  have hafter := hslot s hs
  rw [slotAfter, hw, hb, hstop] at hafter
  refine ⟨w, hw, congrArg Prod.fst hafter, ?_⟩
  rw [isBroken_eq, congrArg Prod.snd hafter]
  simp

/-- Statements in a block that has been given nothing: its slot comes from what they tell. -/
theorem runStatements_slot {last : Term} {ts : List Term} {r : Except Failure Term}
    (h : runStatements call s last ts st = (r, st'))
    (hnew : slot (st.store.get s) = (none, some false)) :
    s < st'.store.size ∧ ∃ es, st'.history = es ++ st.history ∧
      slot (st'.store.get s) = (given? s es, some (stopped s es)) := by
  have hs : s < st.store.size := by
    by_contra hs
    rw [Writing.get_of_size_le (Nat.le_of_not_lt hs)] at hnew
    cases hnew
  have hgiven := runStatements_given hg hc (s := s) last ts st
  rw [h] at hgiven
  obtain ⟨hsize, es, hes, hslot⟩ := hgiven
  refine ⟨Nat.lt_of_lt_of_le hs hsize, es, hes, ?_⟩
  rw [hslot s hs, hnew, slotAfter, Option.or_none]
  simp

end Slots

theorem runIn_broken (hd : Muting.IgnoresDebugging host) (hc : Law.Behind host call)
    {debug : String} {pre : List Term} {t v₁ v w : Term} {st₁ st₂ : State}
    (hpre : runStatements call s .null pre { st with debug } = (.ok v₁, st₁))
    (hrunning : st₁.store.isBroken s = false) (ht : evalTerm call s t st₁ = (.ok v, st₂))
    (hreturned : (st₂.store.get s).returned = some w) (hbroken : st₂.store.isBroken s = true)
    (post : List Term) (params : List String) :
    ∃ debug, runIn call s ⟨pre ++ t :: post, params⟩ st = (.ok w, { st₂ with debug }) := by
  -- the same statements in the state that the longer or shorter code starts from
  obtain ⟨debug₀, hrun⟩ := runIn_apply call s ⟨pre ++ t :: post, params⟩ st
  obtain ⟨debug₁, hpre'⟩ := runStatements_deaf hd hc (s := s) .null pre { st with debug } debug₀
  rw [hpre] at hpre'
  obtain ⟨debug₂, ht'⟩ := evalTerm_deaf hd hc (s := s) t st₁ debug₁
  rw [ht] at ht'
  refine ⟨debug₂, ?_⟩
  have hrest : runStatements call s v₁ (t :: post) { st₁ with debug := debug₁ } =
      (.ok v, { st₂ with debug := debug₂ }) := by
    have hrunning' : ({ st₁ with debug := debug₁ } : State).store.isBroken s = false := hrunning
    have hbroken' : ({ st₂ with debug := debug₂ } : State).store.isBroken s = true := hbroken
    rw [runStatements_one hrunning' ht', runStatements_broken hbroken']
  rw [hrun, Consecutive.runOn_append hpre', runOn_of_ok hrest]
  simp only [hreturned, Option.getD_some]

/-- As long as natives give values by way of the evaluator alone and do not read what is told for
debugging, nothing follows a statement that tells its block to stop, and the value of a block is what
it was given last, or that of its last statement. The statement that stops it ends first, and may yet
give it another value. -/
theorem run_in_given (hg : GivesByCall host) (hd : Muting.IgnoresDebugging host)
    (hc : Law.Behind host call) (hnew : slot (st.store.get s) = (none, some false)) :
    (∀ debug pre v₁ st₁ t v st₂ es,
      runStatements call s .null pre { st with debug } = (.ok v₁, st₁) →
      st₁.store.isBroken s = false → evalTerm call s t st₁ = (.ok v, st₂) →
      st₂.history = es ++ st₁.history → stopped s es = true →
      ∃ w, given? s es = some w ∧ ∀ post params, ∃ debug,
        runIn call s ⟨pre ++ t :: post, params⟩ st = (.ok w, { st₂ with debug })) ∧
    ∀ c r st', runIn call s c st = (.ok r, st') → ∃ es, st'.history = es ++ st.history ∧
      (∀ w, given? s es = some w → r = w) ∧
      (given? s es = none → ∃ debug, LastValue call s { st with debug } c.statements r) := by
  refine ⟨?_, ?_⟩
  · intro debug pre v₁ st₁ t v st₂ es hpre hrunning ht hes hstop
    obtain ⟨hs, fs, -, hslot⟩ := runStatements_slot hg hc hpre hnew
    have hblock : (slot (st₁.store.get s)).2.isSome := by rw [hslot]; rfl
    obtain ⟨w, hw, hreturned, hbroken⟩ := stopped_by hg hc hs hblock ht hes hstop
    exact ⟨w, hw, runIn_broken hd hc hpre hrunning ht hreturned hbroken⟩
  · intro c r st' h
    obtain ⟨debug, hrun⟩ := runIn_apply call s c st
    rw [hrun] at h
    rcases hts : runStatements call s .null c.statements { st with debug } with ⟨e | v, st₁⟩
    · rw [Consecutive.runOn, bind_apply, hts] at h
      cases h
    · rw [runOn_of_ok hts] at h
      cases h
      obtain ⟨-, es, hes, hslot⟩ := runStatements_slot hg hc hts hnew
      have hreturned : (st'.store.get s).returned = given? s es := congrArg Prod.fst hslot
      refine ⟨es, hes, fun w hw => ?_, fun hnone => ⟨debug, ?_⟩⟩
      · rw [hreturned, hw]
        rfl
      · rw [hreturned, hnone]
        refine lastValue_of_unbroken hts ?_
        rw [isBroken_eq, hslot, not_stopped hnone]
        rfl

end Run

def giver : State :=
  let bindings := [("return", .native ⟨1, "return", .builtin .ret⟩),
    ("pass", .native ⟨2, "pass", .builtin .pass⟩), ("add", .native ⟨3, "add", .host "add"⟩)]
  { store := { scopes := #[{ kind := .block false, bindings }] }, limit := 10 }

def returning : Term :=
  .call "add" [.call "return" [.num 1] none, .call "pass" [.num 7] none] none

theorem run_in_given_returning :
    slot (giver.store.get 0) = (none, some false) ∧
      ∃ st, (evalTerm (caller Kit.host) 0 returning giver).2 = st ∧ stopped 0 st.history = true ∧
        ∀ post, ∃ debug, runIn (caller Kit.host) 0 ⟨returning :: post, []⟩ giver =
          (.ok (.num 7), { st with debug }) := by
  have hnew : slot (giver.store.get 0) = (none, some false) := rfl
  have hstop : stopped 0 (evalTerm (caller Kit.host) 0 returning giver).2.history = true := by
    decide +kernel
  have hends : (evalTerm (caller Kit.host) 0 returning giver).1 = .ok (.num 8) := rfl
  obtain ⟨hreturns, -⟩ := run_in_given kit_givesByCall Muting.kit_ignoresDebugging
    (.outermost : Law.Behind Kit.host (caller Kit.host)) hnew
  obtain ⟨w, hw, hrun⟩ := hreturns "" [] .null giver returning (.num 8) _
    (evalTerm (caller Kit.host) 0 returning giver).2.history rfl rfl (Prod.ext hends rfl)
    (List.append_nil _).symm hstop
  have hseven : w = .num 7 := Option.some.inj (hw.symm.trans rfl)
  exact ⟨hnew, _, rfl, hstop, fun post => hseven ▸ hrun post []⟩

end BlockScript.Proofs.Giving
