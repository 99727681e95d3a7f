import BlockScript.Proofs.Extension
import BlockScript.Proofs.Running

namespace BlockScript.Proofs.Extension.Addition

open Eval Evaluator Running Heap Holdings

variable {α β : Type} (A : Addition)

def extended (st : State) : State :=
  { st with store := A.extend st.store }

def Conserves (P : α → Prop) (m : Eval α) : Prop :=
  ∀ st, A.Fits st.store →
    m (A.extended st) = ((m st).1, A.extended (m st).2) ∧ A.Fits (m st).2.store ∧
      ∀ a, (m st).1 = .ok a → P a

structure Serves (i : Invocation) : Prop where
  args : ∀ t ∈ i.args, A.value t
  block : ∀ t ∈ i.block, A.value t
  scope : ∀ s ∈ i.scope, s ≠ A.source

def Calls (call : Caller) : Prop :=
  ∀ f i, A.value f → A.Serves i → A.Conserves A.value (call f i)

variable {A} {P : α → Prop} {Q : β → Prop} {m : Eval α} {s : ScopeId} {n : String} {t : Term}

namespace Conserves

theorem bind {k : α → Eval β} (hm : A.Conserves P m) (hk : ∀ a, P a → A.Conserves Q (k a)) :
    A.Conserves Q (m >>= k) := by
  intro st hst
  obtain ⟨hrun, hfits, hvalue⟩ := hm st hst
  rw [bind_apply, bind_apply, hrun]
  rcases hr : m st with ⟨e | a, st'⟩
  all_goals rw [hr] at hfits hvalue
  · exact ⟨rfl, hfits, by rintro _ ⟨⟩⟩
  · exact hk a (hvalue a rfl) st' hfits

theorem next {k : α → Eval β} (hm : A.Conserves (fun _ => True) m)
    (hk : ∀ a, A.Conserves Q (k a)) : A.Conserves Q (m >>= k) :=
  hm.bind fun a _ => hk a

theorem pure {a : α} (h : P a) : A.Conserves P (Pure.pure a) := by
  intro st hst
  exact ⟨rfl, hst, fun b hb => Except.ok.inj hb ▸ h⟩

theorem fail (f : Fault) : A.Conserves P (Eval.fail f) :=
  fun _ hst => ⟨rfl, hst, by rintro _ ⟨⟩⟩

theorem aside {f : State → State} (hstore : ∀ st, (f st).store = st.store)
    (hf : ∀ st, f (A.extended st) = A.extended (f st)) :
    A.Conserves (fun _ => True) (modify f : Eval Unit) := by
  intro st hst
  refine ⟨?_, ?_, fun _ _ => trivial⟩
  · rw [modify_apply, modify_apply, hf]
  · rw [modify_apply, hstore]
    exact hst

theorem record (e : Event) : A.Conserves (fun _ => True) (Eval.record e) :=
  aside (fun _ => rfl) fun _ => rfl

theorem visit (t : Term) : A.Conserves (fun _ => True) (Eval.visit t) :=
  next (aside (fun _ => rfl) fun _ => rfl) fun _ => record _

theorem write (line : String) : A.Conserves (fun _ => True) (Eval.write line) :=
  aside (fun _ => rfl) fun _ => rfl

theorem log (line : String) : A.Conserves (fun _ => True) (Eval.log line) := by
  apply aside
  · intro st
    split <;> rfl
  · intro st
    change (if st.debugging then _ else _) = A.extended (if st.debugging then _ else _)
    split <;> rfl

theorem watch {k : State → Eval α} (hk : ∀ st, k (A.extended st) = k st)
    (hm : ∀ st, A.Conserves P (k st)) : A.Conserves P (MonadState.get >>= k) := by
  intro st hst
  rw [bind_of_ok (get_apply _), bind_of_ok (get_apply st), hk]
  exact hm st st hst

theorem freshMark : A.Conserves (fun _ => True) Eval.freshMark :=
  next (aside (fun _ => rfl) fun _ => rfl) fun _ => watch (fun _ => rfl) fun _ => pure trivial

theorem read {k : Store → Eval α} (hk : ∀ σ, A.Fits σ → k (A.extend σ) = k σ)
    (hm : ∀ σ, A.Fits σ → A.Conserves P (k σ)) : A.Conserves P (getStore >>= k) := by
  intro st hst
  rw [bind_of_ok (getStore_apply _), bind_of_ok (getStore_apply st)]
  change k (A.extend st.store) _ = _ ∧ _
  rw [hk _ hst]
  exact hm _ hst st hst

theorem ofExcept {r : Except Fault α} (h : ∀ a, r = .ok a → P a) :
    A.Conserves P (Eval.ofExcept r) := by
  cases r with
  | ok a => exact pure (h a rfl)
  | error f => exact fail f

theorem peek {g : Store → α} (hg : ∀ σ, A.Fits σ → g (A.extend σ) = g σ)
    (hp : ∀ σ, A.Fits σ → P (g σ)) : A.Conserves P (getStore >>= fun σ => Pure.pure (g σ)) :=
  read (fun σ hσ => congrArg Pure.pure (hg σ hσ)) fun σ hσ => pure (hp σ hσ)

theorem observe {g : Store → Except Fault α} (hg : ∀ σ, A.Fits σ → g (A.extend σ) = g σ)
    (hp : ∀ σ, A.Fits σ → ∀ a, g σ = .ok a → P a) :
    A.Conserves P (getStore >>= fun σ => Eval.ofExcept (g σ)) :=
  read (fun σ hσ => congrArg Eval.ofExcept (hg σ hσ)) fun σ hσ => ofExcept (hp σ hσ)

theorem modifyStore {f : Store → Store} (hf : ∀ σ, f (A.extend σ) = A.extend (f σ))
    (hfits : ∀ σ, A.Fits σ → A.Fits (f σ)) : A.Conserves (fun _ => True) (Eval.modifyStore f) := by
  intro st hst
  refine ⟨?_, hfits _ hst, fun _ _ => trivial⟩
  change (_, { st with store := f (A.extend st.store) }) = _
  rw [hf]
  rfl

theorem updateStore {f : Store → Except Fault Store}
    (hf : ∀ σ, A.Fits σ → f (A.extend σ) = (f σ).map A.extend)
    (hfits : ∀ σ τ, A.Fits σ → f σ = .ok τ → A.Fits τ) :
    A.Conserves (fun _ => True) (Eval.updateStore f) := by
  intro st hst
  have hextended : f (A.extended st).store = (f st.store).map A.extend := hf _ hst
  rw [updateStore_apply, updateStore_apply, hextended]
  cases hr : f st.store with
  | ok τ => exact ⟨rfl, hfits _ _ hst hr, fun _ _ => trivial⟩
  | error e => exact ⟨rfl, hst, fun _ _ => trivial⟩

theorem alloc {c : Scope} (hc : Holds A.value (· ≠ A.source) c) :
    A.Conserves (· ≠ A.source) (Eval.alloc c) := by
  intro st hst
  refine ⟨?_, hst.alloc hc, fun s hs => ?_⟩
  · rw [alloc_apply, alloc_apply]
    change (Except.ok (A.extend st.store).size,
      { st with store := (A.extend st.store).alloc c }) = _
    rw [alloc_extend hst.base_lt, (resembles_extend A st.store).size]
    rfl
  · obtain rfl : st.store.size = s := Except.ok.inj hs
    exact Nat.ne_of_gt hst.source_lt

theorem underFrame {frame : Frame} (hm : A.Conserves P m) :
    A.Conserves P (Eval.underFrame frame m) := by
  intro st hst
  obtain ⟨hrun, hfits, hvalue⟩ := hm (st.push frame) hst
  have hpush : m ((A.extended st).push frame) = _ := hrun
  rw [underFrame_apply, underFrame_apply, hpush]
  exact ⟨rfl, hfits, fun a ha => hvalue a (ok_of_withTrace ha)⟩

theorem noteBound_extended (r : Except Failure α) (st : State) :
    noteBound r (A.extended st) = A.extended (noteBound r st) := by
  cases r with
  | ok a => rfl
  | error e =>
      simp only [noteBound]
      split <;> rfl

theorem deeper (hm : A.Conserves P m) : A.Conserves P (Eval.deeper m) := by
  intro st hst
  obtain ⟨hrun, hfits, hvalue⟩ := hm st.enter hst
  have henter : m (A.extended st).enter = _ := hrun
  rw [deeper_apply, deeper_apply, henter]
  refine ⟨?_, ?_, fun a ha => hvalue a (ok_of_withBound ha)⟩
  · rw [noteBound_extended]
    rfl
  · change A.Fits (noteBound _ _).store
    rw [store_noteBound]
    exact hfits

section Steps

theorem lookup (hn : A.name n) (s : ScopeId) :
    A.Conserves (fun r => ∀ f ∈ r, A.value f) (Eval.lookup s n) := by
  apply observe
  · intro σ hσ
    exact lookup_extend hσ hn s
  · rintro σ hσ r hr f hf
    exact hσ.holding.found value_regular (by rw [hr, Option.mem_def.1 hf])

theorem binds (hn : A.name n) (s : ScopeId) : A.Conserves (fun _ => True) (Eval.binds s n) :=
  observe (fun _ hσ => binds_extend hσ hn s) fun _ _ _ _ => trivial

theorem define (hs : s ≠ A.source) (n : String) (ht : A.value t) :
    A.Conserves (fun _ => True) (Eval.define s n t) := by
  apply updateStore
  · intro σ _
    exact (extend_guise A).define σ s n t
  · intro σ τ hσ hd
    exact hσ.upkeep (hσ.holding.define value_regular hs ht hd)

theorem remove (hs : s ≠ A.source) (n : String) :
    A.Conserves (fun _ => True) (Eval.remove s n) := by
  apply updateStore
  · intro σ _
    exact (extend_guise A).remove σ s n
  · intro σ τ hσ hr
    exact hσ.upkeep (hσ.holding.remove hs hr)

theorem setReturned (hs : s ≠ A.source) (ht : A.value t) :
    A.Conserves (fun _ => True) (Eval.setReturned s t) :=
  modifyStore (fun σ => setReturned_extend σ s t) fun _ hσ =>
    hσ.upkeep (hσ.holding.setReturned hs ht)

theorem breakOff (hs : s ≠ A.source) : A.Conserves (fun _ => True) (Eval.breakOff s) :=
  modifyStore (fun σ => breakOff_extend σ s) fun _ hσ => hσ.upkeep (hσ.holding.breakOff hs)

theorem returned (s : ScopeId) : A.Conserves (fun r => ∀ t ∈ r, A.value t) (Eval.returned s) := by
  apply peek
  · intro σ _
    exact (resembles_extend A σ).returned s
  · intro σ hσ t ht
    exact hσ.holding.returned ht

theorem isBroken (s : ScopeId) : A.Conserves (fun _ => True) (Eval.isBroken s) :=
  peek (fun σ _ => (resembles_extend A σ).broken s) fun _ _ => trivial

theorem numeral (k : Int) : A.Conserves (fun _ => True) (Eval.numeral k) :=
  observe (fun σ _ => congrFun (resembles_extend A σ).numeral k) fun _ _ _ _ => trivial

theorem source (t : Term) : A.Conserves (fun _ => True) (Eval.source t) :=
  observe (fun σ _ => (resembles_extend A σ).source _ _ t) fun _ _ _ _ => trivial

theorem inspect (t : Term) : A.Conserves (fun _ => True) (Eval.inspect t) :=
  observe (fun σ _ => (resembles_extend A σ).inspect t) fun _ _ _ _ => trivial

theorem typeName (t : Term) : A.Conserves (fun _ => True) (Eval.typeName t) :=
  observe (fun σ _ => (resembles_extend A σ).typeName t) fun _ _ _ _ => trivial

theorem className (t : Term) : A.Conserves (fun _ => True) (Eval.className t) :=
  peek (fun σ _ => (resembles_extend A σ).className t) fun _ _ => trivial

theorem displayLine (ts : List Term) : A.Conserves (fun _ => True) (Eval.displayLine ts) := by
  apply read
  · intro σ _
    have hdisplay : (A.extend σ).display standardWidth = σ.display standardWidth :=
      funext ((resembles_extend A σ).display standardWidth)
    rw [hdisplay]
  · intro σ _
    exact next (ofExcept fun _ _ => trivial) fun _ => pure trivial

theorem newList {xs : List Term} (hx : ∀ x ∈ xs, A.value x) :
    A.Conserves A.value (Eval.newList xs) :=
  bind (alloc (.list hx)) fun _ hs => pure ⟨trivial, hs⟩

theorem announce (f : Term) (i : Invocation) : A.Conserves (fun _ => True) (announce f i) :=
  next (record _) fun _ => next (className f) fun _ => log _

end Steps

end Conserves

end BlockScript.Proofs.Extension.Addition
