import BlockScript.Proofs.CallSite

namespace BlockScript.Proofs.Muting

open Eval Evaluator Running LikenessKit
open CallSite (Outcomes outcomes_eq_iff)

variable {α β : Type}

def deaf : Likeness where
  rel P m m' := ∀ (st : State) debug, Outcomes P (m st).1 (m' { st with debug }).1 ∧
    ∃ debug', (m' { st with debug }).2 = { (m st).2 with debug := debug' }
  block _ := True
  blind _ := False
  isBlock_of_blind := @isBlock_of_false

def Deaf (m : Eval α) : Prop :=
  ∀ (st : State) debug, ∃ debug',
    m { st with debug } = ((m st).1, { (m st).2 with debug := debug' })

theorem deaf_of_same {m : Eval α} (h : deaf.Same m) : Deaf m := by
  intro st debug
  obtain ⟨ho, debug', hs⟩ := h st debug
  exact ⟨debug', Prod.ext (outcomes_eq_iff.1 ho).symm hs⟩

namespace Deaf

theorem rel {m : Eval α} (h : Deaf m) {P : α → α → Prop} (hP : ∀ a, P a a) : deaf.rel P m m := by
  intro st debug
  obtain ⟨debug', hm⟩ := h st debug
  rw [hm]
  refine ⟨?_, debug', rfl⟩
  cases (m st).1 with
  | ok a => exact hP a
  | error e => rfl

theorem same {m : Eval α} (h : Deaf m) : deaf.Same m :=
  h.rel fun _ => rfl

theorem pure (a : α) : Deaf (Pure.pure a : Eval α) := fun _ debug => ⟨debug, rfl⟩

theorem fail (f : Fault) : Deaf (Eval.fail f : Eval α) := fun _ debug => ⟨debug, rfl⟩

theorem getStore : Deaf Eval.getStore := fun _ debug => ⟨debug, rfl⟩

theorem bind {m : Eval α} {k : α → Eval β} (hm : Deaf m) (hk : ∀ a, Deaf (k a)) :
    Deaf (m >>= k) := by
  intro st debug
  obtain ⟨debug', h⟩ := hm st debug
  rw [bind_apply, bind_apply, h]
  rcases m st with ⟨e | a, st'⟩
  · exact ⟨debug', rfl⟩
  · exact hk a st' debug'

theorem ofExcept (r : Except Fault α) : Deaf (Eval.ofExcept r) := by
  cases r with
  | ok a => exact pure a
  | error f => exact fail f

theorem observe {g : Store → Except Fault α} :
    Deaf (Eval.getStore >>= fun σ => Eval.ofExcept (g σ)) :=
  getStore.bind fun _ => ofExcept _

theorem peek {g : Store → α} : Deaf (Eval.getStore >>= fun σ => Pure.pure (g σ)) :=
  getStore.bind fun _ => pure _

theorem modifyStore (f : Store → Store) : Deaf (Eval.modifyStore f) := fun _ debug => ⟨debug, rfl⟩

theorem updateStore (f : Store → Except Fault Store) : Deaf (Eval.updateStore f) :=
  getStore.bind fun _ => (ofExcept _).bind fun _ => modifyStore _

theorem alloc (c : Scope) : Deaf (Eval.alloc c) := fun _ debug => ⟨debug, rfl⟩

theorem freshMark : Deaf Eval.freshMark := fun _ debug => ⟨debug, rfl⟩

theorem record (e : Event) : Deaf (Eval.record e) := fun _ debug => ⟨debug, rfl⟩

theorem visit (t : Term) : Deaf (Eval.visit t) := fun _ debug => ⟨debug, rfl⟩

theorem write (line : String) : Deaf (Eval.write line) := fun _ debug => ⟨debug, rfl⟩

theorem emit (e : Effect) : Deaf (Eval.emit e) := fun _ debug => ⟨debug, rfl⟩

theorem className (t : Term) : Deaf (Eval.className t) := peek

theorem log (line : String) : Deaf (Eval.log line) := by
  intro st debug
  rw [Eval.log, modify_apply, modify_apply]
  by_cases h : st.debugging
  · rw [if_pos h, if_pos (by exact h)]
    exact ⟨_, rfl⟩
  · rw [if_neg h, if_neg (by exact h)]
    exact ⟨debug, rfl⟩

theorem announce (f : Term) (i : Invocation) : Deaf (announce f i) :=
  (record _).bind fun _ => (className f).bind fun _ => log _

theorem displayLine (ts : List Term) : Deaf (Eval.displayLine ts) :=
  getStore.bind fun _ => (ofExcept _).bind fun _ => pure _

theorem activation (op : Builtin) (i : Invocation) : Deaf (op.activation i) := by
  apply getStore.bind
  intro σ
  split
  · exact pure _
  · exact fail _

end Deaf

theorem bind_deaf {P : α → α → Prop} {Q : β → β → Prop} {m m' : Eval α} {k k' : α → Eval β}
    (hm : deaf.rel P m m') (hk : ∀ a b, P a b → deaf.rel Q (k a) (k' b)) :
    deaf.rel Q (m >>= k) (m' >>= k') := by
  intro st debug
  obtain ⟨ho, debug', hs⟩ := hm st debug
  rw [bind_apply, bind_apply]
  rcases h : m st with ⟨e | a, τ⟩
  all_goals rcases h' : m' { st with debug } with ⟨e' | a', τ'⟩
  all_goals simp only [h, h', Outcomes] at ho hs
  · exact ⟨ho, debug', hs⟩
  · subst hs
    exact hk a a' ho τ debug'

theorem underFrame_deaf {frame : Frame} {m m' : Eval Term} (h : deaf.rel Eq m m') :
    deaf.rel Eq (underFrame frame m) (underFrame frame m') := by
  intro st debug
  obtain ⟨ho, debug', hs⟩ := h (st.push frame) debug
  have hpush : ({ st with debug } : State).push frame = { st.push frame with debug } := rfl
  rw [underFrame_apply, underFrame_apply, hpush, hs, outcomes_eq_iff.1 ho]
  exact ⟨outcomes_eq_iff.2 rfl, debug', rfl⟩

theorem noteBound_deaf (r : Except Failure α) (st : State) (debug : String) :
    noteBound r { st with debug } = { noteBound r st with debug } := by
  cases r with
  | ok a => rfl
  | error e =>
      rw [noteBound, noteBound]
      split
      · rfl
      · rfl

theorem deeper_deaf {m m' : Eval Term} (h : deaf.rel Eq m m') :
    deaf.rel Eq (deeper m) (deeper m') := by
  intro st debug
  obtain ⟨ho, debug', hs⟩ := h st.enter debug
  have henter : ({ st with debug } : State).enter = { st.enter with debug } := rfl
  rw [deeper_apply, deeper_apply, henter, hs, outcomes_eq_iff.1 ho,
    noteBound_deaf _ (m st.enter).2 debug']
  exact ⟨outcomes_eq_iff.2 rfl, debug', rfl⟩

theorem deaf_kept : deaf.Kept where
  closure _ _ := trivial
  pure h _ debug := ⟨h, debug, rfl⟩
  bind := bind_deaf
  fail _ _ _ debug := ⟨rfl, debug, rfl⟩
  underFrame := underFrame_deaf
  announce _ := (Deaf.announce _ _).same
  visit t := (Deaf.visit t).same
  log line := (Deaf.log line).same
  write line := (Deaf.write line).same
  freshMark := Deaf.freshMark.same
  lookup _ _ := Deaf.observe.same
  binds _ _ := Deaf.observe.same
  define _ _ _ := (Deaf.updateStore _).same
  remove _ _ := (Deaf.updateStore _).same
  returned _ := Deaf.peek.same
  setReturned _ _ := (Deaf.modifyStore _).same
  isBroken _ := Deaf.peek.same
  breakOff _ := (Deaf.modifyStore _).same
  numeral _ := Deaf.observe.same
  source _ := Deaf.observe.same
  inspect _ := Deaf.observe.same
  typeName _ := Deaf.observe.same
  className t := (Deaf.className t).same
  displayLine ts := (Deaf.displayLine ts).same
  newBlock _ := (Deaf.alloc _).same
  newList _ := ((Deaf.alloc _).bind fun _ => .pure _).same
  activation op i :=
    (Deaf.activation op i).rel fun _ => ⟨rfl, rfl, fun _ _ => trivial, .inl rfl⟩

theorem deaf_levelled : deaf.Levelled where
  announce h := h.eq_of_not_blind id ▸ (Deaf.announce _ _).same
  level h := by
    intro st debug
    rw [bind_of_ok (get_apply st), bind_of_ok (get_apply { st with debug })]
    exact h st { st with debug } rfl rfl st debug
  refused _ _ := (Deaf.fail _).same
  newCall h := h.eq_of_not_blind id ▸ (Deaf.alloc _).same
  deeper := deeper_deaf

section Calls

variable {host : Host} {call : Caller}

/-- The host's natives add to the debugging text without looking at it, as long as the evaluator that
they call back does. -/
def IgnoresDebugging (host : Host) : Prop :=
  deaf.Hosts host host

theorem calls_deaf (hh : IgnoresDebugging host) (hc : Law.Behind host call) :
    deaf.Calls call call := by
  have henters := Likeness.enterBlock_enters deaf_kept deaf_levelled hh
  cases hc with
  | outermost => exact Likeness.caller_calls deaf_kept deaf_levelled hh
  | block room => exact Likeness.callWith_calls deaf_kept hh (henters room)
  | native room budget => exact Likeness.dispatch_calls deaf_kept hh (henters room) budget

end Calls

theorem deaf_equipped : Equipped deaf where
  read h := fun st => h _ _ ⟨fun _ => rfl, fun _ => rfl, fun _ _ => rfl, fun _ => rfl⟩ st
  watch h := fun st => h st.depth st
  emit e := (Deaf.emit e).same
  addMixin _ _ := (Deaf.updateStore _).same
  newScope _ := (Deaf.alloc _).same

theorem kit_ignoresDebugging : IgnoresDebugging Kit.host := by
  intro call call' hc key i hi
  apply native_like deaf_kept deaf_equipped hc hi
  constructor
  · exact fun _ _ debug => ⟨rfl, debug, rfl⟩
  · exact fun _ h st => h st.frames st

end BlockScript.Proofs.Muting
