import BlockScript.Proofs.ListSlots
import BlockScript.Proofs.Protection

namespace BlockScript.Proofs.Definitions

open Eval Evaluator Relation Running Store Writing Positions ListSlots SlotName Hosting

/-- What happens to a store at a time. A scope is made without bindings, and bindings and items
change by definitions and removals alone. -/
inductive Change (σ : Store) : Store → Prop
  | define {τ s n f} (h : σ.define s n f = .ok τ) : Change σ τ
  | remove {τ s n} (h : σ.remove s n = .ok τ) : Change σ τ
  | alloc {c : Scope} (h : c.bindings = []) : Change σ (σ.alloc c)
  | modify {s} {e : Scope → Scope} (hb : (e (σ.get s)).bindings = (σ.get s).bindings)
      (hi : (e (σ.get s)).kind.items? = (σ.get s).kind.items?) : Change σ (σ.modify s e)

def Changes : Store → Store → Prop :=
  ReflTransGen Change

def Reached (σ : Store) : Prop :=
  ∃ limit debugging, Changes (Session.bare limit debugging).state.store σ

variable {σ τ : Store} {s : ScopeId} {n : String} {f : Term} {st : State} {host : Host}

theorem Reached.changes (h : Reached σ) (hστ : Changes σ τ) : Reached τ := by
  obtain ⟨limit, debugging, h⟩ := h
  exact ⟨limit, debugging, h.trans hστ⟩

def Tidy (σ : Store) : Prop :=
  ∀ s n, (σ.items? s).isSome → IsSlot n → σ.owns s n = false

section Tidy

theorem isList_formal : Formal fun c => c.kind.items?.isSome where
  bindings _ _ _ := rfl
  items c _ _ h := by rw [h]; rfl

theorem owns_setBinding (t : ScopeId) (m : String) :
    (σ.setBinding s n f).owns t m = true → σ.owns t m = true ∨ t = s ∧ m = n := by
  rw [owns, owns, setBinding, get_modify]
  split
  next ht =>
      by_cases hm : m = n
      · exact fun _ => .inr ⟨ht.1, hm⟩
      · exact fun h => .inl (by simpa only [Bindings.owns, Bindings.get?_set, if_neg hm] using h)
  next => exact .inl

theorem owns_of_eraseBinding {o t : ScopeId} {m : String} :
    (σ.eraseBinding o n).owns t m = true → σ.owns t m = true := by
  rw [owns, owns, eraseBinding, get_modify]
  split
  next =>
      rw [Bindings.owns, Bindings.get?_erase]
      split
      · simp
      · exact id
  next => exact id

theorem Tidy.define (hσ : Tidy σ) (h : σ.define s n f = .ok τ) : Tidy τ := by
  intro t m ht hm
  have ht' : (σ.items? t).isSome := by
    have := isList_formal.get_define h t
    exact this ▸ ht
  have hfree := hσ t m ht' hm
  obtain ⟨hb, -, rfl⟩ | ⟨xs, i, v, c, k, l, hx, -, -, -, rfl⟩ := define_cases h
  · by_contra howns
    rcases owns_setBinding t m (by simpa using howns) with h | ⟨rfl, rfl⟩
    · rw [hfree] at h
      cases h
    · obtain ⟨xs, hx⟩ := Option.isSome_iff_exists.1 ht'
      exact hm.ofName_ne _ (hb xs hx)
  · rw [owns_setItems hx, hfree]

theorem Tidy.remove (hσ : Tidy σ) (h : σ.remove s n = .ok τ) : Tidy τ := by
  intro t m ht hm
  have ht' : (σ.items? t).isSome := by
    have := isList_formal.get_remove h t
    exact this ▸ ht
  have hfree := hσ t m ht' hm
  obtain ⟨-, rfl⟩ | ⟨xs, i, hx, -, rfl⟩ := remove_cases h
  · obtain h | ⟨o, -, h⟩ := removeBinding_cases σ s n
    · rw [h, hfree]
    · by_contra howns
      rw [h] at howns
      rw [owns_of_eraseBinding (by simpa using howns)] at hfree
      cases hfree
  · rw [owns_setItems hx, hfree]

theorem Tidy.alloc (hσ : Tidy σ) {c : Scope} (h : c.bindings = []) : Tidy (σ.alloc c) := by
  intro t m ht hm
  rw [items?, get_alloc] at ht
  rw [owns, get_alloc]
  split
  next => rw [h]; rfl
  next hne =>
      rw [if_neg hne] at ht
      exact hσ t m ht hm

theorem Tidy.modify (hσ : Tidy σ) {e : Scope → Scope}
    (hb : (e (σ.get s)).bindings = (σ.get s).bindings)
    (hi : (e (σ.get s)).kind.items? = (σ.get s).kind.items?) : Tidy (σ.modify s e) := by
  intro t m ht hm
  rw [items?, Formal.get_modify (g := fun c => c.kind.items?) hi t] at ht
  rw [owns, Formal.get_modify (g := Scope.bindings) hb t]
  exact hσ t m ht hm

theorem Tidy.change (hσ : Tidy σ) (h : Change σ τ) : Tidy τ := by
  cases h with
  | define h => exact hσ.define h
  | remove h => exact hσ.remove h
  | alloc h => exact hσ.alloc h
  | modify hb hi => exact hσ.modify hb hi

theorem tidy_bare (limit : Nat) (debugging : Bool) :
    Tidy (Session.bare limit debugging).state.store := by
  intro s n hs
  rcases s with _ | _ | s
  · cases hs
  · cases hs
  · simp [Session.bare, items?, Store.get, ScopeKind.items?] at hs

theorem Reached.tidy (h : Reached σ) : Tidy σ := by
  obtain ⟨limit, debugging, h⟩ := h
  induction h with
  | refl => exact tidy_bare limit debugging
  | tail _ hstep ih => exact ih.change hstep

end Tidy

section Runs

def changeLaw : Law where
  inv _ := True
  step := Changes
  value _ _ := True
  block _ _ := True
  scope _ _ := True
  site _ _ := True

theorem later_change (h : Change σ τ) : changeLaw.Later σ τ :=
  ⟨.single h, trivial⟩

theorem change_breakOff (s : ScopeId) : Change σ (σ.breakOff s) := by
  apply Change.modify
  all_goals
    cases h : (σ.get s).kind <;> simp [ScopeKind.items?, h]

theorem change_reset (s : ScopeId) : Change σ (σ.reset s) := by
  apply Change.modify
  all_goals
    cases h : (σ.get s).kind <;> simp [ScopeKind.items?, h]

theorem changeLaw_upheld : changeLaw.Upheld where
  refl _ := .refl
  trans := .trans
  value_later _ _ := trivial
  block_later _ _ := trivial
  scope_later _ _ := trivial
  site_later _ _ := trivial
  site_of_scope _ := trivial
  value_of_block _ := trivial
  yields _ := .inr fun _ _ => trivial
  literal _ := trivial
  memory _ := trivial
  target _ := trivial
  closure _ := trivial
  var := Iff.rfl
  found _ _ _ := trivial
  returned _ _ _ := trivial
  activation _ _ _ _ := ⟨fun _ _ => trivial, fun _ _ => trivial, fun _ _ => trivial⟩
  define _ _ _ _ h := later_change (.define h)
  remove _ _ h := later_change (.remove h)
  setReturned _ _ _ := later_change (.modify rfl rfl)
  breakOff _ _ := later_change (change_breakOff _)
  newBlock _ _ := ⟨later_change (.alloc rfl), trivial⟩
  newCall _ _ _ _ _ := ⟨later_change (.alloc rfl), trivial⟩
  newList _ _ := ⟨later_change (.alloc rfl), trivial⟩

theorem changeLaw_dynamic : changeLaw.Dynamic where
  upheld := changeLaw_upheld
  inv _ := trivial
  value _ _ := trivial
  block _ _ := trivial
  scope _ _ := trivial
  plain _ _ := .single (.alloc rfl)
  mixins _ _ _ := .single (.modify rfl rfl)
  reset _ _ := .single (change_reset _)

/-- The host's natives change stores step by step, as the evaluator does. -/
def ChangesByStep (host : Host) : Prop :=
  changeLaw.ObeyedBy host

theorem kit_changesByStep : ChangesByStep Kit.host :=
  Law.kit_obeys changeLaw_upheld changeLaw_dynamic.lenient

theorem reached_session (hh : ChangesByStep host) {a : Stage} (h : Reachable host a) :
    Reached a.store := by
  obtain ⟨limit, debugging, h⟩ := h
  refine ⟨limit, debugging, ?_⟩
  induction h with
  | refl => exact .refl
  | tail _ hstep ih => exact ih.trans (step_dynamic changeLaw_dynamic hh hstep)

end Runs

def AtPosition (σ : Store) (s : ScopeId) (n : String) : Prop :=
  (σ.items? s).isSome ∧ isNumeral n = true

def Overlong (σ : Store) (s : ScopeId) (n : String) : Prop :=
  AtPosition σ s n ∧ σ.digitLimit.all (n.toList.length ≤ ·) = false

def Guarded (σ : Store) (s : ScopeId) (n : String) : Prop :=
  (σ.get s).bindings.isConstant n = true ∨ (σ.items? s).isSome ∧ n = "length"

def Unfit (σ : Store) (s : ScopeId) (n : String) (f : Term) : Prop :=
  AtPosition σ s n ∧ ∀ v c m k, f ≠ .var v c m k

def Beyond (σ : Store) (s : ScopeId) (n : String) (f : Term) : Prop :=
  ∃ xs v c m k, σ.items? s = some xs ∧ isNumeral n = true ∧ f = .var v c m k ∧
    xs.length < position n

def written (n : String) (f : Term) (c : Scope) : Scope :=
  match c.kind, isNumeral n, f with
  | .list xs, true, .var v _ _ _ =>
      let i := position n
      { c with kind := .list (if i < xs.length then xs.set i v else xs ++ [v]) }
  | _, _, _ => { c with bindings := c.bindings.set n f }

/-- The outcomes of a definition, with what each comes from. -/
inductive Verdict (σ : Store) (s : ScopeId) (n : String) (f : Term) : Except Fault Store → Prop
  | overlong (h : Overlong σ s n) :
      Verdict σ s n f (.error (.numeralTooLong (σ.digitLimit.getD 0) n.toList.length))
  | guarded (h : Guarded σ s n) (hp : ¬AtPosition σ s n) :
      Verdict σ s n f (.error (.constantRedefined n))
  | unfit (h : Unfit σ s n f) (ho : ¬Overlong σ s n) (hg : ¬Guarded σ s n) :
      Verdict σ s n f (.error (.slotNeedsVariable n (σ.className f)))
  | beyond {size : Nat} (h : Beyond σ s n f) (ho : ¬Overlong σ s n) (hg : ¬Guarded σ s n) :
      Verdict σ s n f (.error (.slotOutOfRange (position n) size))
  | done (hg : ¬Guarded σ s n) (hu : ¬Unfit σ s n f) (hb : ¬Beyond σ s n f)
      (ho : ¬Overlong σ s n) : Verdict σ s n f (.ok (σ.modify s (written n f)))

section Verdict

variable {xs : List Term}

theorem Beyond.atPosition (h : Beyond σ s n f) : AtPosition σ s n := by
  obtain ⟨xs, v, c, m, k, hx, hn, -⟩ := h
  exact ⟨by rw [hx]; rfl, hn⟩

theorem Beyond.not_unfit (h : Beyond σ s n f) : ¬Unfit σ s n f := by
  obtain ⟨xs, v, c, m, k, -, -, hf, -⟩ := h
  exact fun hu => hu.2 v c m k hf

theorem AtPosition.not_guarded (h : AtPosition σ s n) (hσ : Tidy σ) : ¬Guarded σ s n := by
  rintro (hc | ⟨-, rfl⟩)
  · have hfree := hσ s n h.1 (.inr h.2)
    rw [owns, Bindings.owns, Option.isSome_eq_false_iff, Option.isNone_iff_eq_none] at hfree
    simp [Bindings.isConstant, hfree] at hc
  · exact absurd h.2 (by decide)

theorem modify_congr {e e' : Scope → Scope} (h : e (σ.get s) = e' (σ.get s)) :
    σ.modify s e = σ.modify s e' := by
  apply store_ext
  · rfl
  · simp only [size_modify]
  · intro t
    rw [get_modify, get_modify]
    split
    next ht => rw [ht.1, h]
    next => rfl

theorem written_binding (hp : ¬AtPosition σ s n) :
    σ.modify s (written n f) = σ.setBinding s n f := by
  refine modify_congr ?_
  rw [written.eq_def]
  split
  next xs _ _ _ _ hk hn =>
      exact absurd ⟨by rw [items?, hk]; rfl, hn⟩ hp
  next => rfl

theorem written_item (hx : σ.items? s = some xs) (hn : isNumeral n = true) (v : Term) (c : Bool)
    (m : String) (k : Nat) :
    σ.modify s (written n (.var v c m k)) =
      σ.setItems s (if position n < xs.length then xs.set (position n) v else xs ++ [v]) := by
  refine modify_congr ?_
  simp only [written, kind_of_items hx, hn]

theorem verdict_binding (hp : ¬AtPosition σ s n) (hlength : (σ.items? s).isSome → n ≠ "length") :
    Verdict σ s n f (σ.defineBinding s n f) := by
  have hu : ¬Unfit σ s n f := fun h => hp h.1
  have hb : ¬Beyond σ s n f := fun h => hp h.atPosition
  rw [defineBinding]
  split
  next hc => exact .guarded (.inl hc) hp
  next hc =>
      rw [← written_binding hp]
      refine .done ?_ hu hb fun h => hp h.1
      rintro (h | ⟨hx, h⟩)
      · exact hc h
      · exact hlength hx h

theorem verdict_item (hσ : Tidy σ) (hx : σ.items? s = some xs) (hn : isNumeral n = true)
    (ho : ¬Overlong σ s n) : Verdict σ s n f (σ.defineItem s n xs (position n) f) := by
  have hp : AtPosition σ s n := ⟨by rw [hx]; rfl, hn⟩
  have hg := hp.not_guarded hσ
  cases f with
  | var v c m k =>
      have hu : ¬Unfit σ s n (.var v c m k) := fun h => h.2 v c m k rfl
      have hbeyond : Beyond σ s n (.var v c m k) ↔ xs.length < position n := by
        constructor
        · rintro ⟨ys, _, _, _, _, hy, -, -, hlt⟩
          rw [hx] at hy
          exact Option.some.inj hy ▸ hlt
        · exact fun hlt => ⟨xs, v, c, m, k, hx, hn, rfl, hlt⟩
      have hwritten := written_item hx hn v c m k
      rw [defineItem]
      split
      next hlt =>
          rw [if_pos hlt] at hwritten
          rw [← hwritten]
          exact .done hg hu (fun hb => by have := hbeyond.1 hb; omega) ho
      next hlt =>
          rw [if_neg hlt] at hwritten
          split
          next heq =>
              rw [← hwritten]
              exact .done hg hu (fun hb => by have := hbeyond.1 hb; omega) ho
          next hne => exact .beyond (hbeyond.2 (by omega)) ho hg
  | _ => exact .unfit ⟨hp, by simp⟩ ho hg

theorem define_overlong (h : Overlong σ s n) :
    σ.define s n f = .error (.numeralTooLong (σ.digitLimit.getD 0) n.toList.length) := by
  obtain ⟨⟨hs, hn⟩, hl⟩ := h
  obtain ⟨xs, hx⟩ := Option.isSome_iff_exists.1 hs
  have hlength : n ≠ "length" := by
    rintro rfl
    exact absurd hn (by decide)
  have hname : ofName σ.digitLimit n = .overlong n.toList.length := by
    rw [ofName, if_neg hlength, if_pos hn, if_neg (by simp [hl])]
  simp only [Store.define, hx, hname]

theorem verdict_define (hσ : Tidy σ) (s : ScopeId) (n : String) (f : Term) :
    Verdict σ s n f (σ.define s n f) := by
  by_cases hp : AtPosition σ s n
  · by_cases ho : Overlong σ s n
    · rw [define_overlong ho]
      exact .overlong ho
    · obtain ⟨xs, hx⟩ := Option.isSome_iff_exists.1 hp.1
      have hreadable : Readable σ.digitLimit n :=
        ⟨hp.2, by_contra fun hl => ho ⟨hp, by simpa using hl⟩⟩
      rw [hreadable.define hx]
      exact verdict_item hσ hx hp.2 ho
  · by_cases hl : (σ.items? s).isSome ∧ n = "length"
    · obtain ⟨xs, hx⟩ := Option.isSome_iff_exists.1 hl.1
      rw [hl.2] at hp ⊢
      rw [define_length hx]
      exact .guarded (.inr ⟨hl.1, rfl⟩) hp
    · have hlength (hs : (σ.items? s).isSome) : n ≠ "length" := fun h => hl ⟨hs, h⟩
      have hb : NamesBinding σ s n := fun hs =>
        ⟨hlength hs, by_contra fun hn => hp ⟨hs, by simpa using hn⟩⟩
      rw [hb.define]
      exact verdict_binding hp hlength

end Verdict

section Outcome

variable {α : Type} {r : Except Failure α × State}

def Ends (r : Except Failure α × State) (k : Kind) : Prop :=
  ∃ e report, r.1 = .error e ∧ e.fault.report? = some report ∧ report.kind = k

structure Settled (s : ScopeId) (n : String) (f : Term) (σ : Store)
    (r : Except Failure α × State) : Prop where
  constant : Ends r .constantViolation ↔ Guarded σ s n
  unfit : Ends r .typeMismatch ↔ Unfit σ s n f
  beyond : Ends r .numericDomain ↔ Beyond σ s n f
  done : ¬Guarded σ s n → ¬Unfit σ s n f → ¬Beyond σ s n f →
    (∃ a, r.1 = .ok a) ∧ r.2.store = σ.modify s (written n f)

structure Defines (s : ScopeId) (n : String) (f : Term) (st : State)
    (r : Except Failure α × State) : Prop where
  settled : ¬Overlong st.store s n → Settled s n f st.store r
  overlong : Overlong st.store s n →
    r.1 = .error ⟨.numeralTooLong (st.store.digitLimit.getD 0) n.toList.length, none⟩
  refused : ∀ e, r.1 = .error e → r.2.store = st.store
  output : r.2.output = st.output ∧ r.2.effects = st.effects

theorem ends_iff {e : Failure} {report : Report} (he : r.1 = .error e)
    (hr : e.fault.report? = some report) (k : Kind) : Ends r k ↔ report.kind = k := by
  constructor
  · rintro ⟨e', report', he', hr', hk⟩
    rw [he] at he'
    cases he'
    rw [hr] at hr'
    cases hr'
    exact hk
  · exact fun hk => ⟨e, report, he, hr, hk⟩

theorem not_ends {a : α} (h : r.1 = .ok a) (k : Kind) : ¬Ends r k := by
  rintro ⟨e, report, he, -⟩
  rw [h] at he
  cases he

theorem settled_of_error {σ : Store} {e : Failure} {report : Report} (he : r.1 = .error e)
    (hr : e.fault.report? = some report)
    (hconstant : report.kind = .constantViolation ↔ Guarded σ s n)
    (hunfit : report.kind = .typeMismatch ↔ Unfit σ s n f)
    (hbeyond : report.kind = .numericDomain ↔ Beyond σ s n f)
    (hwhy : Guarded σ s n ∨ Unfit σ s n f ∨ Beyond σ s n f) : Settled s n f σ r where
  constant := (ends_iff he hr _).trans hconstant
  unfit := (ends_iff he hr _).trans hunfit
  beyond := (ends_iff he hr _).trans hbeyond
  done hg hu hb := by
    rcases hwhy with h | h | h
    · exact absurd h hg
    · exact absurd h hu
    · exact absurd h hb

theorem defines_of (hσ : Tidy st.store)
    (hok : ∀ τ, st.store.define s n f = .ok τ → (∃ a, r.1 = .ok a) ∧ r.2.store = τ)
    (herror : ∀ e, st.store.define s n f = .error e →
      r.1 = .error ⟨e, none⟩ ∧ r.2.store = st.store)
    (hout : r.2.output = st.output ∧ r.2.effects = st.effects) : Defines s n f st r := by
  have hv := verdict_define hσ s n f
  generalize st.store.define s n f = d at hv hok herror
  cases hv with
  | overlong ho =>
      obtain ⟨he, hs⟩ := herror _ rfl
      exact ⟨fun h => absurd ho h, fun _ => he, fun _ _ => hs, hout⟩
  | guarded hg hp =>
      obtain ⟨he, hs⟩ := herror _ rfl
      refine ⟨fun _ => settled_of_error he rfl ?_ ?_ ?_ (.inl hg), fun h => absurd h.1 hp,
        fun _ _ => hs, hout⟩
      · exact iff_of_true rfl hg
      · exact iff_of_false (by simp) fun h => hp h.1
      · exact iff_of_false (by simp) fun h => hp h.atPosition
  | unfit hu ho hg =>
      obtain ⟨he, hs⟩ := herror _ rfl
      refine ⟨fun _ => settled_of_error he rfl ?_ ?_ ?_ (.inr (.inl hu)), fun h => absurd h ho,
        fun _ _ => hs, hout⟩
      · exact iff_of_false (by simp) hg
      · exact iff_of_true rfl hu
      · exact iff_of_false (by simp) fun h => h.not_unfit hu
  | beyond hb ho hg =>
      obtain ⟨he, hs⟩ := herror _ rfl
      refine ⟨fun _ => settled_of_error he rfl ?_ ?_ ?_ (.inr (.inr hb)), fun h => absurd h ho,
        fun _ _ => hs, hout⟩
      · exact iff_of_false (by simp) hg
      · exact iff_of_false (by simp) hb.not_unfit
      · exact iff_of_true rfl hb
  | done hg hu hb ho =>
      obtain ⟨⟨a, ha⟩, hs⟩ := hok _ rfl
      refine ⟨fun _ => ⟨?_, ?_, ?_, fun _ _ _ => ⟨⟨a, ha⟩, hs⟩⟩, fun h => absurd h ho, fun e he => ?_,
        hout⟩
      · exact iff_of_false (not_ends ha _) hg
      · exact iff_of_false (not_ends ha _) hu
      · exact iff_of_false (not_ends ha _) hb
      · rw [ha] at he
        cases he

theorem define_defines (hσ : Tidy st.store) (s : ScopeId) (n : String) (f : Term) :
    Defines s n f st (Eval.define s n f st) := by
  refine defines_of hσ (fun τ h => ?_) (fun e h => ?_) ?_
  · simp [Eval.define, updateStore_apply, h]
  · simp [Eval.define, updateStore_apply, h, State.note]
  · rw [Eval.define, updateStore_apply]
    split
    · exact ⟨rfl, rfl⟩
    · exact ⟨rfl, rfl⟩

theorem defines_then (hσ : Tidy st.store) (s : ScopeId) (n : String) (f : Term) (v : α)
    {st' : State} (hstore : st'.store = st.store)
    (hout : st'.output = st.output ∧ st'.effects = st.effects) :
    Defines s n f st ((Eval.define s n f >>= fun _ => pure v) st') := by
  refine defines_of hσ (fun τ h => ?_) (fun e h => ?_) ?_
  · simp [bind_apply, Eval.define, updateStore_apply, hstore, h, pure_apply]
  · simp [bind_apply, Eval.define, updateStore_apply, hstore, h, State.note]
  · rw [bind_apply, Eval.define, updateStore_apply]
    cases st'.store.define s n f with
    | ok τ => exact hout
    | error e => exact hout

end Outcome

section Builtins

variable {op : Builtin} {i : Invocation} {call : Caller}

def WellFormed (i : Invocation) : Prop :=
  (∃ s n rest, i.args = .memory s n :: rest) ∧ i.block.isSome

def refusal (op : Builtin) (i : Invocation) (σ : Store) : Fault :=
  match i.args with
  | .memory _ _ :: _ => .missingBlock op
  | [] => .expectedMemory op "nothing"
  | t :: _ => match σ.typeName t with
    | .ok name => .expectedMemory op name
    | .error f => f

theorem memoryArg_refused (h : ∀ s n rest, i.args ≠ .memory s n :: rest) (st : State) :
    op.memoryArg i st =
      (.error ⟨refusal op i st.store, none⟩, st.note (.failed (refusal op i st.store))) := by
  rw [Builtin.memoryArg.eq_def, refusal.eq_def]
  cases hargs : i.args with
  | nil => rfl
  | cons t ts =>
      cases t with
      | memory s n => exact absurd hargs (h s n ts)
      | _ =>
          simp only [Eval.typeName, bind_apply, getStore_apply, ofExcept_apply]
          generalize st.store.typeName _ = name
          cases name <;> rfl

theorem refused {α : Type} {k : ScopeId × String → Term → Eval α} (h : ¬WellFormed i) (st : State) :
    (op.memoryArg i >>= fun p => op.blockArg i >>= k p) st =
      (.error ⟨refusal op i st.store, none⟩, st.note (.failed (refusal op i st.store))) := by
  by_cases hm : ∃ s n rest, i.args = .memory s n :: rest
  · obtain ⟨s, n, rest, hargs⟩ := hm
    have hb : i.block = none := by
      by_contra hb
      exact h ⟨⟨s, n, rest, hargs⟩, Option.isSome_iff_ne_none.2 hb⟩
    rw [Builtin.memoryArg, hargs, Builtin.blockArg, hb, refusal, hargs]
    rfl
  · rw [bind_apply, memoryArg_refused fun s n rest hargs => hm ⟨s, n, rest, hargs⟩]

theorem run_refused (hop : op ∈ [.fn, .letVar, .letConst]) (h : ¬WellFormed i) (call : Caller)
    (st : State) : op.run call i st =
      (.error ⟨refusal op i st.store, none⟩, st.note (.failed (refusal op i st.store))) := by
  cases op with
  | fn => exact refused h st
  | letVar => exact refused h st
  | letConst => exact refused h st
  | _ => simp at hop

variable {rest : List Term} {b : Term} {r : Except Failure Term} {st₁ : State}

theorem fn_defines (hσ : Tidy st.store) (hargs : i.args = .memory s n :: rest)
    (hb : i.block = some b) : Defines s n b st (Builtin.fn.run call i st) := by
  have hrun : Builtin.fn.run call i st = (Eval.define s n b >>= fun _ => pure .null) st := by
    rw [Builtin.run, Builtin.memoryArg, hargs, Builtin.blockArg, hb]
    rfl
  rw [hrun]
  exact defines_then hσ s n b _ rfl ⟨rfl, rfl⟩

theorem bindValue_defines {constant : Bool} (hσ : Tidy st₁.store)
    (hargs : i.args = .memory s n :: rest) (hb : i.block = some b) {w : Term}
    (hcall : call b (i.plainly []) st = (.ok w, st₁)) :
    Defines s n (.var w constant n (st₁.marks + 1)) st₁
      (Builtin.bindValue call op constant i st) := by
  rw [Protection.bindValue_of_ok hargs hb hcall]
  exact defines_then hσ s n _ _ rfl ⟨rfl, rfl⟩

theorem bindValue_passes {constant : Bool} (hargs : i.args = .memory s n :: rest)
    (hb : i.block = some b) {e : Failure} (hcall : call b (i.plainly []) st = (.error e, st₁)) :
    Builtin.bindValue call op constant i st = (.error e, st₁) := by
  rw [Protection.bindValue_apply hargs hb, bind_apply, hcall]

end Builtins

/-- A definition fails for what it should, in every store that can come about, and else sets the slot
of its name and nothing more; one that fails changes nothing. But a position of a list that is written
in too many digits cannot be read, and whatever is put there is refused by the host. The builtins that
define names refuse a call that is not well-formed before anything is run. Otherwise `fn` defines the
name in the store that it finds, and `let` and `const` in the one that the block leaves, unless the
block fails: then it has had the last word. -/
theorem define_exact {call : Caller} (hh : ChangesByStep host) (hc : Law.Behind host call)
    (hst : Reached st.store) :
    ((∀ a, Reachable host a → Reached a.store) ∧
      ∀ q : Request, Reached (q.askedOf call st).2.store) ∧
    (∀ s n f, Defines s n f st (Eval.define s n f st)) ∧
    (∀ op ∈ [Builtin.fn, .letVar, .letConst], ∀ i, ¬WellFormed i → ∀ call',
      op.run call' i st =
        (.error ⟨refusal op i st.store, none⟩, st.note (.failed (refusal op i st.store)))) ∧
    ∀ i s n rest b, i.args = .memory s n :: rest → i.block = some b →
      Defines s n b st (Builtin.fn.run call i st) ∧
      ∀ op ∈ [Builtin.letVar, .letConst], ∀ r st₁, call b (i.plainly []) st = (r, st₁) →
        Reached st₁.store ∧
        (∀ e, r = .error e → op.run call i st = (.error e, st₁)) ∧
        ∀ w, r = .ok w →
          Defines s n (.var w (op = .letConst) n (st₁.marks + 1)) st₁ (op.run call i st) := by
  have hasked (q : Request) : Reached (q.askedOf call st).2.store :=
    hst.changes (changeLaw_dynamic.asked hh hc q st)
  refine ⟨⟨fun a ha => reached_session hh ha, hasked⟩, define_defines hst.tidy,
    fun op hop i hi call' => run_refused hop hi call' st, ?_⟩
  intro i s n rest b hargs hb
  refine ⟨fn_defines hst.tidy hargs hb, ?_⟩
  intro op hop r st₁ hcall
  have hreached : Reached st₁.store := by
    have := hasked (.call b (i.plainly []))
    rwa [Request.askedOf, hcall] at this
  have hbinds (op : Builtin) (constant : Bool) :
      (∀ e, r = .error e → Builtin.bindValue call op constant i st = (.error e, st₁)) ∧
        ∀ w, r = .ok w → Defines s n (.var w constant n (st₁.marks + 1)) st₁
          (Builtin.bindValue call op constant i st) := by
    refine ⟨fun e he => ?_, fun w hw => ?_⟩
    · exact bindValue_passes hargs hb (he ▸ hcall)
    · exact bindValue_defines hreached.tidy hargs hb (hw ▸ hcall)
  refine ⟨hreached, ?_⟩
  cases op with
  | letVar => exact hbinds .letVar false
  | letConst => exact hbinds .letConst true
  | _ => simp at hop

def stocked (items : List Term) : State :=
  let st := (Session.bare 10 false).state
  { st with store := st.store.alloc { kind := .list items } }

theorem reached_stocked (items : List Term) : Reached (stocked items).store :=
  ⟨10, false, .single (.alloc rfl)⟩

def placing (name : String) (v : Int) : Invocation :=
  { args := [.memory 2 name], block := some (.block ⟨[.num v], []⟩ 0), scope := some 0 }

theorem define_exact_stocked :
    let st := stocked [.num 1]
    Reached st.store ∧
      Ends (Eval.define 2 "length" .null st) .constantViolation ∧
      Ends (Eval.define 2 "0" .null st) .typeMismatch ∧
      (∃ a, (Eval.define 2 "1" (.var .null false "") st).1 = .ok a) ∧
      Ends (Builtin.letVar.run (caller Kit.host) (placing "2" 7) st) .numericDomain := by
  intro st
  have hst : Reached st.store := reached_stocked [.num 1]
  have houter : Law.Behind Kit.host (caller Kit.host) := .outermost
  obtain ⟨-, hdefine, -, hbuiltins⟩ := define_exact kit_changesByStep houter hst
  have hreadable (n : String) (h : n.toList.length ≤ 4300) : ¬Overlong st.store 2 n := by
    rintro ⟨-, hlong⟩
    simp [st, stocked, Session.bare, Text.maxDigits, h] at hlong
  refine ⟨hst, ?length, ?item, ?free, ?none⟩
  case length =>
    refine ((hdefine 2 "length" _).settled (hreadable _ (by decide))).constant.2 ?_
    exact .inr ⟨rfl, rfl⟩
  case item =>
    refine ((hdefine 2 "0" _).settled (hreadable _ (by decide))).unfit.2 ?_
    exact ⟨⟨rfl, by decide⟩, by simp⟩
  case free =>
    refine (((hdefine 2 "1" _).settled (hreadable _ (by decide))).done ?_ ?_ ?_).1
    · rintro (h | ⟨-, h⟩)
      · cases h
      · simp at h
    · exact fun h => h.2 _ _ _ _ rfl
    · rintro ⟨xs, v, c, m, k, hx, -, -, hlt⟩
      cases hx
      exact absurd hlt (by decide)
  case none =>
    obtain ⟨-, hvalues⟩ := hbuiltins (placing "2" 7) 2 "2" [] (.block ⟨[.num 7], []⟩ 0) rfl rfl
    obtain ⟨-, -, hdefines⟩ := hvalues .letVar (by simp) _ _ rfl
    refine ((hdefines (.num 7) rfl).settled ?_).beyond.2 ?_
    · rintro ⟨-, hlong⟩
      exact absurd hlong (by decide +kernel)
    · exact ⟨[.num 1], _, _, _, _, rfl, by decide, rfl, by decide⟩

def nines (k : Nat) : String :=
  String.ofList (List.replicate k '9')

theorem position_nines (k : Nat) : 0 < position (nines (k + 1)) := by
  have hdigits : (nines (k + 1)).toList.map (fun c => c.toNat - '0'.toNat) =
      List.replicate k 9 ++ [9] := by
    rw [nines, String.toList_ofList, List.map_replicate, ← List.replicate_succ']
    rfl
  rw [position, hdigits, Text.ofDigits, List.foldl_append]
  simp

theorem overlong_nines : Overlong (stocked []).store 2 (nines (Text.maxDigits + 1)) := by
  generalize hk : Text.maxDigits = k
  refine ⟨⟨rfl, ?_⟩, ?_⟩
  · simp [isNumeral, nines]
  · simp [stocked, Session.bare, nines, hk]

/-- A position that is beyond the list, but cannot be read. -/
theorem overlong_refused :
    let n := nines (Text.maxDigits + 1)
    Reached (stocked []).store ∧ Beyond (stocked []).store 2 n (.var (.num 1) false "") ∧
      ¬Ends (Eval.define 2 n (.var (.num 1) false "") (stocked [])) .numericDomain := by
  intro n
  have hst := reached_stocked []
  have hlong : Overlong (stocked []).store 2 n := overlong_nines
  refine ⟨hst, ⟨[], _, _, _, _, rfl, hlong.1.2, rfl, position_nines _⟩, ?_⟩
  rintro ⟨e, report, he, hreport, -⟩
  rw [(define_defines hst.tidy 2 n _).overlong hlong] at he
  cases he
  cases hreport

end BlockScript.Proofs.Definitions
