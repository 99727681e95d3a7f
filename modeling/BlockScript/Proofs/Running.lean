import BlockScript.Evaluator

namespace BlockScript.Proofs.Running

open Eval

variable {α β : Type}

theorem bind_apply (m : Eval α) (k : α → Eval β) (st : State) :
    (m >>= k) st = match m st with
      | (.ok a, st') => k a st'
      | (.error e, st') => (.error e, st') := by
  simp only [bind, ExceptT.bind, ExceptT.mk, StateT.bind, ExceptT.bindCont]
  rcases m st with ⟨_ | _, _⟩ <;> rfl

theorem bind_of_ok {m : Eval α} {k : α → Eval β} {st st' : State} {a : α}
    (h : m st = (.ok a, st')) : (m >>= k) st = k a st' := by
  rw [bind_apply, h]

theorem pure_apply (a : α) (st : State) : (pure a : Eval α) st = (.ok a, st) := rfl

theorem get_apply (st : State) : (get : Eval State) st = (.ok st, st) := rfl

theorem modify_apply (f : State → State) (st : State) :
    (modify f : Eval Unit) st = (.ok (), f st) := rfl

theorem attempt_apply (m : Eval α) (st : State) :
    attempt m st = (.ok (m st).1, (m st).2) := rfl

theorem settle_apply (r : Except Failure α) (st : State) : settle r st = (r, st) := by
  cases r <;> rfl

theorem fail_apply (f : Fault) (st : State) :
    (fail f : Eval α) st = (.error ⟨f, none⟩, st.note (.failed f)) := rfl

theorem ofExcept_apply (r : Except Fault α) (st : State) :
    Eval.ofExcept r st = match r with
      | .ok a => (.ok a, st)
      | .error f => (.error ⟨f, none⟩, st.note (.failed f)) := by
  cases r <;> rfl

theorem getStore_apply (st : State) : getStore st = (.ok st.store, st) := rfl

theorem alloc_apply (c : Scope) (st : State) :
    Eval.alloc c st = (.ok st.store.size, { st with store := st.store.alloc c }) := rfl

theorem updateStore_apply (f : Store → Except Fault Store) (st : State) :
    updateStore f st = match f st.store with
      | .ok σ => (.ok (), { st with store := σ })
      | .error e => (.error ⟨e, none⟩, st.note (.failed e)) := by
  rw [updateStore, bind_apply, getStore_apply]
  simp only [bind_apply, ofExcept_apply]
  cases f st.store <;> rfl

theorem closedBy_apply {m : Eval α} {last : Eval Unit} {st st' : State}
    (h : last (m st).2 = (.ok (), st')) : closedBy m last st = ((m st).1, st') := by
  rw [closedBy, bind_of_ok (attempt_apply m st), bind_of_ok h, settle_apply]

def withTrace (frames : List Frame) : Except Failure α → Except Failure α
  | .ok a => .ok a
  | .error e => .error { e with trace := some (e.trace.getD frames.reverse) }

theorem ok_of_withTrace {frames : List Frame} {r : Except Failure α} {a : α}
    (h : withTrace frames r = .ok a) : r = .ok a := by
  cases r with
  | ok b => exact h
  | error e => cases h

theorem traced_apply (m : Eval α) (st : State) :
    traced m st = (withTrace (m st).2.frames (m st).1, (m st).2) := by
  rw [traced, bind_of_ok (attempt_apply m st)]
  cases (m st).1 with
  | ok a => rfl
  | error e => rfl

theorem underFrame_apply (frame : Frame) (m : Eval α) (st : State) :
    underFrame frame m st =
      (withTrace (m (st.push frame)).2.frames (m (st.push frame)).1, (m (st.push frame)).2.pop) := by
  rw [underFrame, bind_of_ok (modify_apply _ st), closedBy_apply (modify_apply _ _), traced_apply]

def withBound (limit depth : Nat) : Except Failure α → Except Failure α
  | .ok a => .ok a
  | .error e => .error (if e.fault.isExhaustion then ⟨.stackExhausted limit depth, none⟩ else e)

theorem ok_of_withBound {limit depth : Nat} {r : Except Failure α} {a : α}
    (h : withBound limit depth r = .ok a) : r = .ok a := by
  cases r with
  | ok b => exact h
  | error e => cases h

def noteBound (r : Except Failure α) (st : State) : State :=
  match r with
  | .ok _ => st
  | .error e =>
      if e.fault.isExhaustion then st.note (.failed (.stackExhausted st.limit st.depth)) else st

theorem store_noteBound (r : Except Failure α) (st : State) : (noteBound r st).store = st.store := by
  cases r with
  | ok a => rfl
  | error e => simp only [noteBound]; split <;> rfl

theorem bounded_apply (m : Eval α) (st : State) :
    bounded m st =
      (withBound (m st).2.limit (m st).2.depth (m st).1, noteBound (m st).1 (m st).2) := by
  rw [bounded, bind_of_ok (attempt_apply m st)]
  cases (m st).1 with
  | ok a => rfl
  | error e =>
      by_cases h : e.fault.isExhaustion = true
      · simp only [withBound, noteBound, h, if_true]; rfl
      · simp only [withBound, noteBound, h]; rfl

theorem deeper_apply (m : Eval α) (st : State) :
    deeper m st =
      (withBound (m st.enter).2.limit (m st.enter).2.depth (m st.enter).1,
        (noteBound (m st.enter).1 (m st.enter).2).leave) := by
  rw [deeper, bind_of_ok (modify_apply _ st), closedBy_apply (modify_apply _ _), bounded_apply]

end BlockScript.Proofs.Running
