import BlockScript.Proofs.Law

namespace BlockScript.Proofs

open Eval Evaluator

theorem isBlock_self {f : Term} (h : IsBlock f) : IsBlock f := h

theorem isBlock_of_false {f : Term} (h : False) : IsBlock f := h.elim

/-- A way to compare two computations, given a way to compare their values, the functions that may
stand for yield blocks, and those that may be called from different scopes. -/
structure Likeness where
  rel : ∀ {α : Type}, (α → α → Prop) → Eval α → Eval α → Prop
  block : Term → Prop
  blind : Term → Prop := IsBlock
  isBlock_of_blind : ∀ {f}, blind f → IsBlock f := by exact @isBlock_self

namespace Likeness

variable (K : Likeness)

structure Alike (f : Term) (i j : Invocation) : Prop where
  args : i.args = j.args
  block : i.block = j.block
  yields : ∀ t ∈ i.block, K.block t
  scope : i.scope = j.scope ∨ K.blind f

structure Matching (a b : Activation) : Prop where
  args : a.args = b.args
  yieldBlock : a.yieldBlock = b.yieldBlock
  yields : ∀ t ∈ a.yieldBlock, K.block t
  site : a.site = b.site ∨ ∀ t ∈ a.yieldBlock, K.blind t

def Same {α : Type} (m : Eval α) : Prop :=
  K.rel Eq m m

def Calls (call call' : Caller) : Prop :=
  ∀ f i j, K.Alike f i j → K.rel Eq (call f i) (call' f j)

def Hosts (host host' : Host) : Prop :=
  ∀ call call', K.Calls call call' → ∀ key i, (∀ t ∈ i.block, K.block t) →
    K.rel Eq (host.native call key i) (host'.native call' key i)

structure Kept : Prop where
  closure : ∀ c s, K.block (.block c s)
  pure : ∀ {α : Type} {P : α → α → Prop} {a b : α}, P a b → K.rel P (pure a) (pure b)
  bind : ∀ {α β : Type} {P : α → α → Prop} {Q : β → β → Prop} {m m' : Eval α}
    {k k' : α → Eval β}, K.rel P m m' → (∀ a b, P a b → K.rel Q (k a) (k' b)) →
    K.rel Q (m >>= k) (m' >>= k')
  fail : ∀ {α : Type} {P : α → α → Prop} (f : Fault), (∀ n d, f ≠ .depthExceeded n d) →
    K.rel P (Eval.fail f) (Eval.fail f)
  underFrame : ∀ {frame : Frame} {m m' : Eval Term}, K.rel Eq m m' →
    K.rel Eq (Eval.underFrame frame m) (Eval.underFrame frame m')
  announce : ∀ {f : Term} {i : Invocation}, ¬IsBlock f → K.Same (announce f i)
  visit : ∀ t, K.Same (visit t)
  log : ∀ line, K.Same (log line)
  write : ∀ line, K.Same (write line)
  freshMark : K.Same freshMark
  lookup : ∀ s n, K.Same (lookup s n)
  binds : ∀ s n, K.Same (binds s n)
  define : ∀ s n f, K.Same (define s n f)
  remove : ∀ s n, K.Same (remove s n)
  returned : ∀ s, K.Same (returned s)
  setReturned : ∀ s t, K.Same (setReturned s t)
  isBroken : ∀ s, K.Same (isBroken s)
  breakOff : ∀ s, K.Same (breakOff s)
  numeral : ∀ n, K.Same (numeral n)
  source : ∀ t, K.Same (source t)
  inspect : ∀ t, K.Same (inspect t)
  typeName : ∀ t, K.Same (typeName t)
  className : ∀ t, K.Same (className t)
  displayLine : ∀ ts, K.Same (displayLine ts)
  newBlock : ∀ p, K.Same (alloc { kind := .block false, parent := some p })
  newList : ∀ xs, K.Same (newList xs)
  activation : ∀ (op : Builtin) i, K.rel K.Matching (op.activation i) (op.activation i)

variable {K} {call call' : Caller} {α β : Type} {P : α → α → Prop} {Q : β → β → Prop}

theorem Alike.eq_of_not_blind {f : Term} {i j : Invocation} (h : K.Alike f i j)
    (hf : ¬K.blind f) : i = j := by
  cases i
  cases j
  simpa using And.intro h.args (And.intro h.block (h.scope.resolve_right hf))

theorem Alike.eq {f : Term} {i j : Invocation} (h : K.Alike f i j) (hf : ¬IsBlock f) : i = j :=
  h.eq_of_not_blind fun hb => hf (K.isBlock_of_blind hb)

namespace Kept

theorem next (H : K.Kept) {m : Eval α} {k k' : α → Eval β} (hm : K.Same m)
    (hk : ∀ a, K.rel Q (k a) (k' a)) : K.rel Q (m >>= k) (m >>= k') := by
  refine H.bind hm fun a b h => ?_
  cases h
  exact hk a

theorem value (H : K.Kept) (a : α) : K.Same (Pure.pure a : Eval α) :=
  H.pure rfl

end Kept

section Builtins

variable {i : Invocation}

theorem Calls.same (hc : K.Calls call call') (f : Term) (hi : ∀ t ∈ i.block, K.block t) :
    K.rel Eq (call f i) (call' f i) :=
  hc f i i ⟨rfl, rfl, hi, .inl rfl⟩

theorem memoryArg_same (H : K.Kept) (op : Builtin) : K.Same (op.memoryArg i) := by
  rw [Builtin.memoryArg]
  split
  · exact H.value _
  · exact H.fail _ (by simp)
  · exact H.next (H.typeName _) fun _ => H.fail _ (by simp)

theorem blockArg_same (H : K.Kept) (op : Builtin) : K.Same (op.blockArg i) := by
  rw [Builtin.blockArg]
  split
  · exact H.value _
  · exact H.fail _ (by simp)

theorem indexArg_same (H : K.Kept) : K.Same (Builtin.indexArg i) := by
  rw [Builtin.indexArg]
  split
  · exact H.value _
  · exact H.fail _ (by simp)
  · exact H.next (H.typeName _) fun _ => H.fail _ (by simp)

theorem tagArg_same (H : K.Kept) : K.Same (Builtin.tagArg i) := by
  rw [Builtin.tagArg]
  split
  · split
    · exact H.value _
    · exact H.fail _ (by simp)
  · exact H.next (H.typeName _) fun _ => H.fail _ (by simp)
  · exact H.value _

theorem checkTag_same (H : K.Kept) (tag : Tag) (t : Term) : K.Same (Builtin.checkTag tag t) := by
  rw [Builtin.checkTag]
  split
  · exact H.value _
  · exact H.next (H.typeName _) fun _ => H.next (H.source _) fun _ => H.fail _ (by simp)
  · exact H.next (H.inspect _) fun _ => H.next (H.className _) fun _ => H.fail _ (by simp)

theorem checkIndex_same (H : K.Kept) (index : Int) : K.Same (Builtin.checkIndex index) := by
  rw [Builtin.checkIndex]
  split
  · exact H.next (H.numeral _) fun _ => H.fail _ (by simp)
  · exact H.value _

theorem giveValue_same (H : K.Kept) : K.Same (Builtin.giveValue i) := by
  rw [Builtin.giveValue]
  split
  · exact H.setReturned _ _
  · exact H.value _

theorem stop_same (H : K.Kept) : K.Same (Builtin.stop i) := by
  rw [Builtin.stop]
  split
  · exact H.breakOff _
  · exact H.value _

theorem bindValue_like (H : K.Kept) (hc : K.Calls call call') (op : Builtin) (constant : Bool) :
    K.rel Eq (Builtin.bindValue call op constant i) (Builtin.bindValue call' op constant i) := by
  refine H.next (memoryArg_same H op) fun p => H.next (blockArg_same H op) fun body => ?_
  refine H.bind (hc.same body (by simp [Invocation.plainly])) fun v w h => ?_
  cases h
  refine H.next H.freshMark fun mark => H.next (H.define _ _ _) fun _ => ?_
  exact H.value _

theorem builtin_like (H : K.Kept) (hc : K.Calls call call') (hi : ∀ t ∈ i.block, K.block t)
    (b : Builtin) : K.rel Eq (b.run call i) (b.run call' i) := by
  cases b with
  | fn =>
      refine H.next (memoryArg_same H .fn) fun p => H.next (blockArg_same H .fn) fun body => ?_
      exact H.next (H.define _ _ _) fun _ => H.value _
  | letVar => exact bindValue_like H hc .letVar false
  | letConst => exact bindValue_like H hc .letConst true
  | del =>
      refine H.next (memoryArg_same H .del) fun p => ?_
      exact H.next (H.remove _ _) fun _ => H.value _
  | call =>
      refine H.next (memoryArg_same H .call) fun p => H.next (H.lookup _ _) fun r => ?_
      cases r with
      | none => exact H.fail _ (by simp)
      | some f => exact hc.same f hi
  | exist =>
      refine H.next (memoryArg_same H .exist) fun p => ?_
      exact H.next (H.binds _ _) fun _ => H.value _
  | param =>
      refine H.next (indexArg_same H) fun index => H.next (tagArg_same H) fun tag => ?_
      refine H.next (checkIndex_same H index) fun _ => ?_
      refine H.bind (H.activation .param i) fun a b hab => ?_
      rw [hab.args]
      exact H.next (checkTag_same H _ _) fun _ => H.value _
  | args =>
      refine H.bind (H.activation .args i) fun a b hab => ?_
      rw [hab.args]
      exact H.newList _
  | yield =>
      refine H.bind (H.activation .yield i) fun a b hab => ?_
      have hy := hab.yieldBlock
      cases ha : a.yieldBlock with
      | none =>
          rw [← hy, ha]
          exact H.fail _ (by simp)
      | some t =>
          rw [← hy, ha]
          exact hc t _ _ ⟨rfl, rfl, hi, hab.site.imp_right fun h => h t ha⟩
  | ret =>
      refine H.next (giveValue_same H) fun _ => H.next (stop_same H) fun _ => ?_
      exact H.value _
  | pass => exact H.next (giveValue_same H) fun _ => H.value _
  | print =>
      refine H.next (H.displayLine _) fun line => H.next (H.write line) fun _ => ?_
      exact H.value _

end Builtins

section Terms

variable {s : ScopeId}

mutual

theorem evalTerm_like (H : K.Kept) (hc : K.Calls call call') :
    ∀ t, K.rel Eq (evalTerm call s t) (evalTerm call' s t)
  | .null | .bool _ | .num _ | .str _ => H.next (H.visit _) fun _ => H.value _
  | .ref _ none _ => H.next (H.visit _) fun _ => H.value _
  | .ref n (some target) _ => by
      refine H.next (H.visit _) fun _ => H.bind (evalTerm_like H hc target) fun v w h => ?_
      cases h
      split
      · exact H.value _
      · exact H.next (H.typeName _) fun _ => H.fail _ (by simp)
  | .call n args block => by
      refine H.next (H.visit _) fun _ => H.next (H.lookup s n) fun r => ?_
      cases r with
      | none => exact H.fail _ (by simp)
      | some f =>
          refine H.bind (evalArgs_like H hc args) fun vs ws h => ?_
          cases h
          refine H.underFrame (hc.same f fun t ht => ?_)
          obtain ⟨c, -, rfl⟩ := Option.map_eq_some_iff.1 ht
          exact H.closure c s
  | .code _ => H.next (H.visit _) fun _ => H.fail _ (by simp)
  | .memory _ _ | .scope _ | .float _ _ | .items _ | .var _ _ _ _ | .block _ _ | .native _ =>
      H.next (H.visit _) fun _ => H.next (H.inspect _) fun _ =>
        H.next (H.className _) fun _ => H.fail _ (by simp)

theorem evalArgs_like (H : K.Kept) (hc : K.Calls call call') :
    ∀ ts, K.rel Eq (evalArgs call s ts) (evalArgs call' s ts)
  | [] => H.value _
  | t :: ts => by
      refine H.bind (evalTerm_like H hc t) fun v w h => ?_
      cases h
      refine H.bind (evalArgs_like H hc ts) fun vs ws h => ?_
      cases h
      exact H.value _

end

theorem runStatements_like (H : K.Kept) (hc : K.Calls call call') (last : Term) (ts : List Term) :
    K.rel Eq (runStatements call s last ts) (runStatements call' s last ts) := by
  induction ts generalizing last with
  | nil => exact H.value _
  | cons t ts ih =>
      rw [runStatements, runStatements]
      refine H.next (H.isBroken s) fun broken => ?_
      cases broken with
      | true => exact H.value _
      | false =>
          refine H.bind (evalTerm_like H hc t) fun v w h => ?_
          cases h
          exact ih v

theorem runIn_like (H : K.Kept) (hc : K.Calls call call') (c : Code) :
    K.rel Eq (runIn call s c) (runIn call' s c) := by
  refine H.next (H.log _) fun _ => ?_
  refine H.bind (runStatements_like H hc .null c.statements) fun v w h => ?_
  cases h
  exact H.next (H.returned s) fun _ => H.value _

theorem run_like (H : K.Kept) (hc : K.Calls call call') (c : Code) :
    K.rel Eq (run call c s) (run call' c s) :=
  H.next (H.newBlock s) fun _ => runIn_like H hc c

end Terms

section Calls

variable {host host' : Host} {enter enter' : BlockCaller}

theorem bindParams_same (H : K.Kept) (s : ScopeId) (ps : List (String × Term)) :
    K.Same (bindParams s ps) := by
  induction ps with
  | nil => exact H.value _
  | cons p ps ih =>
      exact H.next H.freshMark fun mark => H.next (H.define _ _ _) fun _ => ih

def Enters (K : Likeness) (enter enter' : BlockCaller) : Prop :=
  ∀ c p i j, K.Alike (.block c p) i j →
    K.rel Eq (do announce (.block c p) i; enter c p i) (do announce (.block c p) j; enter' c p j)

def once (host : Host) (enter : BlockCaller) (call : Caller) : Caller := fun f i => do
  announce f i
  match f with
  | .var v _ _ _ => return v
  | .block c closure => enter c closure i
  | .native g => runImpl call host g.impl i
  | _ => fail (.notCallable (← inspect f) (← className f))

theorem dispatch_succ (host : Host) (enter : BlockCaller) (depth : Nat) :
    dispatch host enter (depth + 1) = once host enter (dispatch host enter depth) := by
  funext f i
  rw [dispatch.eq_def]
  rfl

theorem once_calls (H : K.Kept) (hh : K.Hosts host host') (he : K.Enters enter enter')
    (hc : K.Calls call call') : K.Calls (once host enter call) (once host' enter' call') := by
  intro f i j h
  by_cases hf : IsBlock f
  · obtain ⟨c, p, rfl⟩ := hf
    exact he c p i j h
  · obtain rfl := h.eq hf
    refine H.next (H.announce hf) fun _ => ?_
    split
    next => exact H.value _
    next => exact absurd ⟨_, _, rfl⟩ hf
    next g =>
        cases hg : g.impl with
        | builtin b => exact builtin_like H hc h.yields b
        | host key => exact hh _ _ hc key i h.yields
    next => exact H.next (H.inspect _) fun _ => H.next (H.className _) fun _ => H.fail _ (by simp)

theorem dispatch_calls (H : K.Kept) (hh : K.Hosts host host') (he : K.Enters enter enter')
    (depth : Nat) : K.Calls (dispatch host enter depth) (dispatch host' enter' depth) := by
  induction depth with
  | zero => exact fun f i j _ => H.fail _ (by simp [Fault.endless])
  | succ depth ih =>
      rw [dispatch_succ, dispatch_succ]
      exact once_calls H hh he ih

/-- The weights of the invocations of a block do not matter. -/
theorem callWith_calls (H : K.Kept) (hh : K.Hosts host host) (he : K.Enters enter enter') :
    K.Calls (callWith host enter) (callWith host enter') := by
  intro f i j h
  by_cases hf : IsBlock f
  · obtain ⟨c, p, rfl⟩ := hf
    exact he c p i j h
  · obtain rfl := h.eq hf
    exact dispatch_calls H hh he _ f i i h

/-- What the evaluator needs besides in order to compare where it goes by the depth: two runs that are
at one depth, below one limit. -/
structure Levelled (K : Likeness) : Prop where
  announce : ∀ {f : Term} {i j : Invocation}, K.Alike f i j →
    K.rel Eq (announce f i) (announce f j)
  level : ∀ {k k' : State → Eval Term}, (∀ st st' : State, st.limit = st'.limit →
    st.depth = st'.depth → K.rel Eq (k st) (k' st')) → K.rel Eq (get >>= k) (get >>= k')
  refused : ∀ limit depth, K.Same (fail (.depthExceeded limit depth) : Eval Term)
  newCall : ∀ {c : Code} {p : ScopeId} {i j : Invocation}, K.Alike (.block c p) i j →
    K.rel Eq (alloc { kind := .call ⟨i.args, i.block, i.scope⟩, parent := some p })
      (alloc { kind := .call ⟨j.args, j.block, j.scope⟩, parent := some p })
  deeper : ∀ {m m' : Eval Term}, K.rel Eq m m' → K.rel Eq (Eval.deeper m) (Eval.deeper m')

theorem enterBlock_enters (H : K.Kept) (E : K.Levelled) (hh : K.Hosts host host) (room : Nat) :
    K.Enters (enterBlock host room) (enterBlock host room) := by
  induction room with
  | zero =>
      intro c p i j hij
      exact H.bind (E.announce hij) fun _ _ _ => H.fail _ (by simp [Fault.endless])
  | succ room ih =>
      intro c p i j hij
      refine H.bind (E.announce hij) fun _ _ _ => ?_
      rw [enterBlock, enterBlock]
      apply E.level
      intro st st' hlimit hdepth
      rw [hlimit, hdepth]
      split
      · exact E.refused _ _
      · refine H.bind (E.newCall hij) fun s s' hs => ?_
        cases hs
        rw [hij.args]
        apply H.next (bindParams_same H s _)
        intro _
        apply H.next (H.log _)
        intro _
        exact E.deeper (run_like H (callWith_calls H hh ih) c)

theorem caller_calls (H : K.Kept) (E : K.Levelled) (hh : K.Hosts host host) :
    K.Calls (caller host) (caller host) := by
  intro f i j hij
  rw [caller, caller]
  apply E.level
  intro st st' hlimit hdepth
  rw [hlimit, hdepth]
  exact callWith_calls H hh (enterBlock_enters H E hh _) f i j hij

theorem askedOf_like (H : K.Kept) (hc : K.Calls call call') (hb : ∀ t, K.block t) (q : Request) :
    K.rel Eq (q.askedOf call) (q.askedOf call') := by
  cases q with
  | eval t s =>
      refine H.next (H.visit t) fun _ => ?_
      split
      · exact run_like H hc _
      · exact evalTerm_like H hc _
  | run c s => exact run_like H hc c
  | runIn c s => exact runIn_like H hc c
  | call f i => exact hc.same f fun t _ => hb t

end Calls

end Likeness

end BlockScript.Proofs
