import BlockScript.Proofs.Depth

namespace BlockScript.Proofs.Levels

open Eval Evaluator Running Faulting Depth LikenessKit

variable {α β : Type} {host : Host}

def Level (m : Eval α) : Prop :=
  ∀ st, (m st).2.limit = st.limit ∧ (m st).2.depth = st.depth

def levels : Likeness where
  rel P m _ := Level m ∧ ∀ st a, (m st).1 = .ok a → ∃ b, P a b
  block _ := True

theorem Level.same {m m' : Eval α} (h : Level m) : levels.rel Eq m m' :=
  ⟨h, fun _ a _ => ⟨a, rfl⟩⟩

theorem level_of_still {m : Eval α} (h : Still m) : Level m :=
  fun st => ⟨(h st).1, (h st).2.1⟩

theorem Level.bind {m : Eval α} {k : α → Eval β} (hm : Level m)
    (hk : ∀ st a, (m st).1 = .ok a → Level (k a)) : Level (m >>= k) := by
  intro st
  obtain ⟨hl, hd⟩ := hm st
  have hk := hk st
  rw [bind_apply]
  rcases h : m st with ⟨e | a, st'⟩
  all_goals simp only [h] at hl hd hk
  · exact ⟨hl, hd⟩
  · obtain ⟨hl', hd'⟩ := hk a rfl st'
    exact ⟨hl'.trans hl, hd'.trans hd⟩

theorem Level.underFrame {frame : Frame} {m : Eval Term} (h : Level m) :
    Level (Eval.underFrame frame m) := by
  intro st
  rw [underFrame_apply]
  exact h (st.push frame)

theorem level_noteBound (r : Except Failure α) (st : State) :
    (noteBound r st).limit = st.limit ∧ (noteBound r st).depth = st.depth := by
  cases r with
  | ok a => exact ⟨rfl, rfl⟩
  | error e =>
      rw [noteBound]
      split <;> exact ⟨rfl, rfl⟩

theorem deeper_level {m : Eval Term} {st : State} (hl : (m st.enter).2.limit = st.limit)
    (hd : (m st.enter).2.depth = st.depth + 1) :
    (Eval.deeper m st).2.limit = st.limit ∧ (Eval.deeper m st).2.depth = st.depth := by
  rw [deeper_apply]
  refine ⟨(level_noteBound _ _).1.trans hl, ?_⟩
  change (noteBound _ _).depth - 1 = st.depth
  rw [(level_noteBound _ _).2, hd]
  rfl

theorem Level.deeper {m : Eval Term} (h : Level m) : Level (Eval.deeper m) :=
  fun st => deeper_level (h st.enter).1 (h st.enter).2

theorem level_announce (f : Term) (i : Invocation) : Level (announce f i) := by
  intro st
  obtain ⟨debug, h⟩ := announce_apply f i st
  rw [h]
  exact ⟨rfl, rfl⟩

theorem levels_bind {P : α → α → Prop} {Q : β → β → Prop} {m m' : Eval α} {k k' : α → Eval β}
    (hm : levels.rel P m m') (hk : ∀ a b, P a b → levels.rel Q (k a) (k' b)) :
    levels.rel Q (m >>= k) (m' >>= k') := by
  obtain ⟨hl, hp⟩ := hm
  refine ⟨hl.bind fun st a ha => ?_, fun st b hb => ?_⟩
  · obtain ⟨b, hab⟩ := hp st a ha
    exact (hk a b hab).1
  · have hp := hp st
    rw [bind_apply] at hb
    rcases h : m st with ⟨e | a, st'⟩
    all_goals simp only [h] at hb hp
    · cases hb
    · obtain ⟨b', hab⟩ := hp a rfl
      exact (hk a b' hab).2 st' b hb

theorem levels_kept : levels.Kept where
  closure _ _ := trivial
  pure h := ⟨fun _ => ⟨rfl, rfl⟩, fun _ a ha => ⟨_, Except.ok.inj ha ▸ h⟩⟩
  bind := levels_bind
  fail _ _ := ⟨fun _ => ⟨rfl, rfl⟩, fun _ _ h => by cases h⟩
  underFrame h := h.1.underFrame.same
  announce _ := (level_announce _ _).same
  visit _ := Level.same fun _ => ⟨rfl, rfl⟩
  log line := (level_of_still (Still.log line)).same
  write _ := Level.same fun _ => ⟨rfl, rfl⟩
  freshMark := Level.same fun _ => ⟨rfl, rfl⟩
  lookup s n := (level_of_still (Still.lookup s n)).same
  binds s n := (level_of_still (Still.binds s n)).same
  define s n f := (level_of_still (Still.define s n f)).same
  remove s n := (level_of_still (Still.remove s n)).same
  returned _ := Level.same fun _ => ⟨rfl, rfl⟩
  setReturned _ _ := Level.same fun _ => ⟨rfl, rfl⟩
  isBroken _ := Level.same fun _ => ⟨rfl, rfl⟩
  breakOff _ := Level.same fun _ => ⟨rfl, rfl⟩
  numeral n := (level_of_still (Still.numeral n)).same
  source t := (level_of_still (Still.source t)).same
  inspect t := (level_of_still (Still.inspect t)).same
  typeName t := (level_of_still (Still.typeName t)).same
  className t := (level_of_still (Still.className t)).same
  displayLine ts := (level_of_still (Still.displayLine ts)).same
  newBlock _ := Level.same fun _ => ⟨rfl, rfl⟩
  newList _ := Level.same fun _ => ⟨rfl, rfl⟩
  activation op i := ⟨level_of_still (Still.activation op i),
    fun _ a _ => ⟨a, rfl, rfl, fun _ _ => trivial, .inl rfl⟩⟩

theorem levels_equipped : Equipped levels where
  read h := by
    have hall (st : State) := h st.store st.store
      ⟨fun _ => rfl, fun _ => rfl, fun _ _ => rfl, fun _ => rfl⟩
    refine ⟨Level.bind (fun _ => ⟨rfl, rfl⟩) fun st a ha => ?_, fun st a ha => (hall st).2 st a ha⟩
    obtain rfl := Except.ok.inj ha
    exact (hall st).1
  watch h := Level.same (Level.bind (fun _ => ⟨rfl, rfl⟩) fun _ _ _ => (h _).1)
  emit _ := Level.same fun _ => ⟨rfl, rfl⟩
  addMixin s source :=
    (level_of_still (Still.updateStore fun σ => (addMixin_hosted σ s source).local)).same
  newScope _ := Level.same fun _ => ⟨rfl, rfl⟩

theorem level_kit {call : Caller} (hc : levels.Calls call call) (key : String) (i : Invocation) :
    Level (Kit.native call key i) :=
  (native_like levels_kept levels_equipped hc (fun _ _ => trivial)
    ⟨fun _ => Level.same fun _ => ⟨rfl, rfl⟩,
      fun _ h => Level.same (Level.bind (fun _ => ⟨rfl, rfl⟩) fun _ _ _ => (h _).1)⟩).1

section Evaluator

variable (hh : levels.Hosts host host)
include hh

theorem level_enterBlock (room : Nat) (c : Code) (p : ScopeId) (i : Invocation) :
    Level (enterBlock host room c p i) := by
  induction room generalizing c p i with
  | zero => exact fun _ => ⟨rfl, rfl⟩
  | succ room ih =>
      have henters : levels.Enters (enterBlock host room) (enterBlock host room) := fun c p i _ _ =>
        Level.same ((level_announce _ _).bind fun _ _ _ => ih c p i)
      have hcalls := Likeness.callWith_calls levels_kept hh henters
      rw [enterBlock]
      refine Level.bind (fun _ => ⟨rfl, rfl⟩) fun st _ _ => ?_
      split
      · exact fun _ => ⟨rfl, rfl⟩
      refine Level.bind (fun _ => ⟨rfl, rfl⟩) fun s _ _ => ?_
      refine (level_of_still (Still.bindParams _ _)).bind fun _ _ _ => ?_
      refine (level_of_still (Still.log _)).bind fun _ _ _ => ?_
      exact (Likeness.run_like levels_kept hcalls c).1.deeper

theorem dispatch_levels (room budget : Nat) : levels.Calls (dispatch host (enterBlock host room) budget)
    (dispatch host (enterBlock host room) budget) := by
  have henters : levels.Enters (enterBlock host room) (enterBlock host room) := fun c p i _ _ =>
    Level.same ((level_announce _ _).bind fun _ _ _ => level_enterBlock hh room c p i)
  exact Likeness.dispatch_calls levels_kept hh henters budget

end Evaluator

end BlockScript.Proofs.Levels
