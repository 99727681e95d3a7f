import BlockScript.Proofs.Grounding
import BlockScript.Proofs.Housing
import BlockScript.Proofs.Levels
import BlockScript.Proofs.Unbounded

namespace BlockScript.Proofs.Termination

open Eval Evaluator Grounding Heap Hosting Housing Law Levels Running Unbounded

variable {α β : Type} {host : Host} {N d : Nat} {σ : Store} {A : Caller} {i : Invocation}

abbrev heap : Law := heapLaw []

theorem upheld : heap.Upheld :=
  heapLaw_upheld []

structure Ended (host : Host) (F : Caller → Eval α) (st : State) (out : Except Failure α × State)
    (Q : Store → α → Prop) : Prop where
  runs : Runs host Grounded F st out
  limit : out.2.limit = st.limit
  depth : out.2.depth = st.depth
  later : heap.Later st.store out.2.store
  value : ∀ a, out.1 = .ok a → Q out.2.store a

def Ends (host : Host) (N d : Nat) (σ : Store) (F : Caller → Eval α) (m : Eval α)
    (Q : Store → α → Prop) : Prop :=
  ∀ st, st.limit = N → st.depth = d → heap.Later σ st.store → Ended host F st (m st) Q

theorem later_grounded {τ : Store} (h : heap.Later σ τ) : Grounded τ :=
  grounded_of_wellFormed h.inv

namespace Ends

variable {F : Caller → Eval α} {m : Eval α} {Q : Store → α → Prop} {R : Store → β → Prop}

theorem plain (hl : Level m) (hm : heap.Meets σ m Q) : Ends host N d σ (fun _ => m) m Q := by
  intro st _ _ hst
  obtain ⟨hlater, hvalue⟩ := hm st hst
  exact ⟨.plain (later_grounded hst), (hl st).1, (hl st).2, hlater, hvalue⟩

theorem bind {G : Caller → α → Eval β} {k : α → Eval β} (hF : Ends host N d σ F m Q)
    (hG : ∀ τ, heap.Later σ τ → ∀ a, Q τ a → Ends host N d τ (fun call => G call a) (k a) R) :
    Ends host N d σ (fun call => F call >>= G call) (m >>= k) R := by
  intro st hN hd hst
  have h := hF st hN hd hst
  rw [bind_apply]
  rcases hm : m st with ⟨e | a, st'⟩
  all_goals rw [hm] at h
  · exact ⟨.halt h.runs, h.limit, h.depth, h.later, nofun⟩
  · have hlater : heap.Later σ st'.store := ⟨upheld.trans hst.step h.later.step, h.later.inv⟩
    have h' := hG _ hlater a (h.value a rfl) st' (h.limit.trans hN) (h.depth.trans hd)
      ⟨upheld.refl _, h.later.inv⟩
    exact ⟨.next h.runs h'.runs, h'.limit.trans h.limit, h'.depth.trans h.depth,
      ⟨upheld.trans h.later.step h'.later.step, h'.later.inv⟩, h'.value⟩

theorem next {m : Eval α} {G : Caller → α → Eval β} {k : α → Eval β} (hl : Level m) (hm : Quiet m)
    (hG : ∀ a, Ends host N d σ (fun call => G call a) (k a) R) :
    Ends host N d σ (fun call => m >>= G call) (m >>= k) R := by
  refine bind (Q := fun _ _ => True) (plain hl (.of_quiet upheld hm fun _ _ _ => trivial))
    fun τ hτ a _ st hN hd hst => ?_
  exact hG a st hN hd ⟨upheld.trans hτ.step hst.step, hst.inv⟩

theorem read {G : Caller → State → Eval β} {k : State → Eval β}
    (hG : ∀ st, st.limit = N → st.depth = d → Ends host N d σ (fun call => G call st) (k st) R) :
    Ends host N d σ (fun call => get >>= G call) (get >>= k) R := by
  intro st hN hd hst
  have h := hG st hN hd st hN hd hst
  exact ⟨.next (a := st) (.plain (later_grounded hst)) h.runs, h.limit, h.depth, h.later, h.value⟩

theorem fail (f : Fault) : Ends host N d σ (fun _ => Eval.fail f) (Eval.fail f) Q :=
  plain (fun _ => ⟨rfl, rfl⟩) (.fail upheld f)

theorem value (a : α) (h : ∀ τ, heap.Later σ τ → Q τ a) :
    Ends host N d σ (fun _ => pure a) (pure a) Q :=
  plain (fun _ => ⟨rfl, rfl⟩) (.pure upheld h)

theorem underFrame {F : Caller → Eval Term} {m : Eval Term} {Q : Store → Term → Prop} {frame : Frame}
    (hF : Ends host N d σ F m Q) :
    Ends host N d σ (fun call => Eval.underFrame frame (F call)) (Eval.underFrame frame m) Q := by
  intro st hN hd hst
  have h := hF (st.push frame) hN hd hst
  refine ⟨.underFrame (later_grounded hst) h.runs (later_grounded h.later), ?_, ?_, ?_, ?_⟩
  all_goals rw [underFrame_apply]
  · exact h.limit
  · exact h.depth
  · exact h.later
  · exact fun a ha => h.value a (ok_of_withTrace ha)

theorem deeper {F : Caller → Eval Term} {m : Eval Term} {Q : Store → Term → Prop}
    (hF : Ends host N (d + 1) σ F m Q) :
    Ends host N d σ (fun call => Eval.deeper (F call)) (Eval.deeper m) Q := by
  intro st hN hd hst
  have h := hF st.enter hN (congrArg (· + 1) hd) hst
  obtain ⟨hlimit, hdepth⟩ := deeper_level h.limit h.depth
  have hstore : (Eval.deeper m st).2.store = (m st.enter).2.store := by
    rw [deeper_apply]
    exact store_noteBound _ _
  refine ⟨.deeper (later_grounded hst) h.runs (later_grounded h.later), hlimit, hdepth, ?_, ?_⟩
  all_goals rw [hstore]
  · exact h.later
  · intro a ha
    rw [deeper_apply] at ha
    exact h.value a (ok_of_withBound ha)

theorem call {f : Term} {i : Invocation} {m : Eval Term} {Q : Store → Term → Prop}
    (h : Ends host N d σ (fun call => step host call f i) m Q) :
    Ends host N d σ (fun call => call f i) m Q :=
  fun st hN hd hst =>
    have h := h st hN hd hst
    ⟨.call h.runs, h.limit, h.depth, h.later, h.value⟩

end Ends

/-- Every call of an evaluator in order comes to the same end as it does with `A`. -/
def Called (host : Host) (N d : Nat) (A : Caller) : Prop :=
  ∀ σ f i, heap.Callable σ f i → Ends host N d σ (fun call => call f i) (A f i) heap.value

section Terms

variable {s : ScopeId}

theorem level_visit (t : Term) : Level (visit t) := fun _ => ⟨rfl, rfl⟩

mutual

theorem evalTerm_ends (hA : Called host N d A) {σ : Store} (hs : heap.scope σ s) :
    ∀ t, Ends host N d σ (fun call => evalTerm call s t) (evalTerm A s t) heap.value
  | .null | .bool _ | .num _ | .str _ =>
      .next (level_visit _) (.visit _) fun _ => .value _ fun _ _ => upheld.literal (by simp)
  | .ref _ none _ =>
      .next (level_visit _) (.visit _) fun _ => .value _ fun _ hτ =>
        upheld.memory (upheld.scope_later hτ.step hs)
  | .ref n (some target) _ => by
      refine .next (level_visit _) (.visit _) fun _ => ?_
      refine .bind (evalTerm_ends hA hs target) fun τ _ v hv => ?_
      cases v
      case scope o => exact .value _ fun _ hυ => upheld.target (upheld.value_later hυ.step hv)
      all_goals exact .next (level_of_still (.typeName _)) (.typeName _) fun _ => .fail _
  | .call n args block => by
      refine .next (level_visit _) (.visit _) fun _ => ?_
      refine .bind (.plain (level_of_still (.lookup s n)) (.lookup upheld (upheld.memory hs)))
        fun τ hτ r hr => ?_
      have hsτ := upheld.scope_later hτ.step hs
      cases r with
      | none => exact .fail _
      | some f =>
          refine .bind (evalArgs_ends hA hsτ args) fun υ hυ vs hvs => ?_
          have hsυ := upheld.scope_later hυ.step hsτ
          have hf := upheld.value_later hυ.step (hr f rfl)
          refine .underFrame (hA υ f _ ⟨hf, hvs, ?_, ?_, .inr ?_⟩)
          · rintro b hb
            obtain ⟨c, -, rfl⟩ := Option.map_eq_some_iff.1 hb
            exact upheld.closure hsυ
          · rintro p hp
            obtain rfl := Option.some.inj hp
            exact upheld.site_of_scope hsυ
          · rintro p hp
            obtain rfl := Option.some.inj hp
            exact hsυ
  | .code _ => .next (level_visit _) (.visit _) fun _ => .fail _
  | .memory _ _ | .scope _ | .float _ _ | .items _ | .var _ _ _ _ | .block _ _ | .native _ =>
      .next (level_visit _) (.visit _) fun _ => .next (level_of_still (.inspect _)) (.inspect _) fun _ =>
        .next (level_of_still (.className _)) (.className _) fun _ => .fail _

theorem evalArgs_ends (hA : Called host N d A) {σ : Store} (hs : heap.scope σ s) :
    ∀ ts, Ends host N d σ (fun call => evalArgs call s ts) (evalArgs A s ts)
      fun τ vs => ∀ t ∈ vs, heap.value τ t
  | [] => .value _ fun _ _ => by simp
  | t :: ts => by
      refine .bind (evalTerm_ends hA hs t) fun τ hτ v hv => ?_
      refine .bind (evalArgs_ends hA (upheld.scope_later hτ.step hs) ts) fun υ hυ vs hvs => ?_
      refine .value _ fun ρ hρ w hw => upheld.value_later hρ.step ?_
      rcases List.mem_cons.1 hw with rfl | hw
      · exact upheld.value_later hυ.step hv
      · exact hvs w hw

end

theorem runStatements_ends (hA : Called host N d A) (hs : heap.scope σ s) {last : Term}
    (hl : heap.value σ last) (ts : List Term) :
    Ends host N d σ (fun call => runStatements call s last ts) (runStatements A s last ts)
      heap.value := by
  induction ts generalizing σ last with
  | nil => exact .value _ fun _ hτ => upheld.value_later hτ.step hl
  | cons t ts ih =>
      refine .next (fun _ => ⟨rfl, rfl⟩) (.isBroken s) fun broken => ?_
      cases broken with
      | true => exact .value _ fun _ hτ => upheld.value_later hτ.step hl
      | false =>
          refine .bind (evalTerm_ends hA hs t) fun τ hτ v hv => ?_
          exact ih (upheld.scope_later hτ.step hs) hv

theorem runIn_ends (hA : Called host N d A) (hs : heap.scope σ s) (c : Code) :
    Ends host N d σ (fun call => runIn call s c) (runIn A s c) heap.value := by
  refine .next (level_of_still (.log _)) (.log _) fun _ => ?_
  refine .bind (runStatements_ends hA hs upheld.null c.statements) fun τ hτ last hl => ?_
  have hreturned := returned_meets upheld (upheld.scope_later hτ.step hs)
  refine .bind (.plain (fun _ => ⟨rfl, rfl⟩) hreturned) fun υ hυ r hr => ?_
  refine .value _ fun ρ hρ => upheld.value_later hρ.step ?_
  cases r with
  | none => exact upheld.value_later hυ.step hl
  | some v => exact hr v rfl

theorem run_ends (hA : Called host N d A) (hs : heap.scope σ s) (c : Code) :
    Ends host N d σ (fun call => run call c s) (run A c s) heap.value := by
  refine .bind (.plain (Q := heap.scope) (fun _ => ⟨rfl, rfl⟩) (.alloc fun τ hτ => ?_))
    fun τ _ b hb => runIn_ends hA hb c
  exact upheld.newBlock hτ.inv (upheld.scope_later hτ.step hs)

end Terms

section Builtins

theorem memoryArg_nonempty (op : Builtin) (i : Invocation) :
    heap.Meets σ (op.memoryArg i) fun _ _ => i.args ≠ [] := by
  rw [Builtin.memoryArg]
  split
  next h => exact .pure upheld fun _ _ => by simp [h]
  next => exact .fail upheld _
  next => exact .bind_quiet upheld (.typeName _) fun _ => .fail upheld _

theorem blockArg_isSome (op : Builtin) (i : Invocation) :
    heap.Meets σ (op.blockArg i) fun _ _ => i.block.isSome = true := by
  rw [Builtin.blockArg]
  split
  next h => exact .pure upheld fun _ _ => by simp [h]
  next => exact .fail upheld _

def age (s : Option ScopeId) : Nat :=
  s.elim 0 (· + 1)

theorem activation_older (hi : heap.Served σ i) (op : Builtin) :
    heap.Meets σ (op.activation i) fun _ a => age a.site < age i.scope := by
  refine .bind upheld (.getStore upheld) fun τ hτ ρ hρ => ?_
  subst hρ
  split
  next a h =>
      obtain ⟨c, hc, ha⟩ := Option.bind_eq_some_iff.1 h
      obtain ⟨s, hs, hc⟩ := Option.bind_eq_some_iff.1 hc
      have hle := (hτ.inv.open_callScope (upheld.scope_later hτ.step (hi.scope s hs)) hc).2
      refine .pure upheld fun _ _ => ?_
      rw [hs]
      cases hp : a.site with
      | none => exact Nat.succ_pos s
      | some p => exact Nat.succ_lt_succ (Nat.lt_of_lt_of_le (hτ.inv.site c a ha p hp).1 hle)
  next => exact .fail upheld _

theorem weight_eq (i : Invocation) :
    i.weight = i.args.length + (if i.block.isSome then 3 else 0) + age i.scope := rfl

theorem weight_plainly (h : i.block.isSome = true) : (i.plainly []).weight < i.weight := by
  rw [weight_eq, weight_eq, if_pos h]
  simp only [Invocation.plainly, List.length_nil, Option.isSome_none]
  simp

theorem weight_tail (h : i.args ≠ []) :
    ({ i with args := i.args.tail } : Invocation).weight < i.weight := by
  have hlength := List.length_pos_iff.2 h
  rw [weight_eq, weight_eq, List.length_tail]
  simp only
  omega

theorem weight_site {p : Option ScopeId} (h : age p < age i.scope) :
    ({ i with scope := p } : Invocation).weight < i.weight := by
  rw [weight_eq, weight_eq]
  exact Nat.add_lt_add_left h _

variable (hA : ∀ τ f j, heap.Callable τ f j → j.weight < i.weight →
  Ends host N d τ (fun call => call f j) (A f j) heap.value)
include hA

theorem bindValue_ends (hi : heap.Served σ i) (op : Builtin) (constant : Bool) :
    Ends host N d σ (fun call => op.bindValue call constant i) (op.bindValue A constant i)
      heap.value := by
  refine .bind (.plain (Likeness.memoryArg_same levels_kept op).1 (memoryArg_meets upheld hi op))
    fun τ hτ p hp => ?_
  have hiτ := hi.later upheld hτ
  refine .bind (.plain (Likeness.blockArg_same levels_kept op).1
    ((blockArg_meets upheld hiτ op).and (blockArg_isSome op i))) fun υ hυ body hbody => ?_
  obtain ⟨s, n⟩ := p
  obtain ⟨hbody, hsome⟩ := hbody
  have hbody : heap.Callable υ body (i.plainly []) :=
    (hiτ.later upheld hυ).callable_plainly upheld (upheld.value_of_block hbody) [] nofun
  refine .bind (hA υ body _ hbody (weight_plainly hsome)) fun ρ hρ v hv => ?_
  have hm : heap.value ρ (.memory s n) := upheld.value_later hρ.step (upheld.value_later hυ.step hp)
  refine .next (fun _ => ⟨rfl, rfl⟩) .freshMark fun mark => ?_
  refine .bind (.plain (level_of_still (.define _ _ _)) (define_meets upheld hm (upheld.var.2 hv) .var))
    fun _ _ _ _ => ?_
  exact .value _ fun _ _ => upheld.null

/-- A builtin calls back with lighter invocations only. -/
theorem builtin_ends (hl : levels.Calls A A) (hc : heap.Calls A) (hi : heap.Served σ i) (b : Builtin) :
    Ends host N d σ (fun call => b.run call i) (b.run A i) heap.value := by
  have hlevel := (Likeness.builtin_like levels_kept hl (i := i) (fun _ _ => trivial) b).1
  have hmeets := builtin_meets upheld hc hi b
  cases b with
  | letVar => exact bindValue_ends hA hi .letVar false
  | letConst => exact bindValue_ends hA hi .letConst true
  | call =>
      refine .bind (.plain (Likeness.memoryArg_same levels_kept .call).1
        ((memoryArg_meets upheld hi .call).and (memoryArg_nonempty .call i))) fun τ hτ p hp => ?_
      have hiτ := hi.later upheld hτ
      obtain ⟨s, n⟩ := p
      obtain ⟨hp, hargs⟩ := hp
      refine .bind (.plain (level_of_still (.lookup s n)) (.lookup upheld hp)) fun υ hυ r hr => ?_
      cases r with
      | none => exact .fail _
      | some f =>
          have hiυ := hiτ.later upheld hυ
          have hf : heap.Callable υ f { i with args := i.args.tail } :=
            hiυ.callable upheld (hr f rfl) _ fun t ht => hiυ.args t (List.mem_of_mem_tail ht)
          exact hA υ f _ hf (weight_tail hargs)
  | yield =>
      have hactivation := (levels_kept.activation .yield i).1
      refine .bind (.plain hactivation
        ((activation_meets upheld hi .yield).and (activation_older hi .yield))) fun τ hτ a ha => ?_
      obtain ⟨⟨-, hblock, hsite⟩, hage⟩ := ha
      have hiτ := hi.later upheld hτ
      cases hb : a.yieldBlock with
      | none => exact .fail _
      | some b =>
          have hb := hblock b hb
          have hcall : heap.Callable τ b { i with scope := a.site } :=
            ⟨upheld.value_of_block hb, hiτ.args, hiτ.block, hsite, .inr hsite⟩
          exact hA τ b _ hcall (weight_site hage)
  | fn | del | exist | param | args | ret | pass | print => exact .plain hlevel hmeets

end Builtins

/-- The host's natives come to an end by themselves: they do not call the evaluator back, and they leave
the depth and the order of the heap as they are. -/
structure Leaf (host : Host) : Prop where
  alone : ∀ call call', host.native call = host.native call'
  level : ∀ call key i, Level (host.native call key i)
  orderly : heap.ObeyedBy host

section Calls

variable (hh : Leaf host)
include hh

theorem Leaf.hosts : levels.Hosts host host :=
  fun call _ _ key i _ => Level.same (hh.level call key i)

theorem runImpl_ends (hA : ∀ τ f j, heap.Callable τ f j → j.weight < i.weight →
      Ends host N d τ (fun call => call f j) (A f j) heap.value)
    (hl : levels.Calls A A) (hc : heap.Calls A) (hi : heap.Served σ i) (impl : Impl) :
    Ends host N d σ (fun call => runImpl call host impl i) (runImpl A host impl i) heap.value := by
  cases impl with
  | builtin b => exact builtin_ends hA hl hc hi b
  | host key =>
      have halone : (fun call => runImpl call host (.host key) i) =
          fun _ => host.native A key i := funext fun call => by rw [runImpl, hh.alone call A]
      rw [halone]
      exact .plain (hh.level A key i) (hh.orderly A hc key σ i hi)

omit hh in
theorem notCallable_ends (f : Term) :
    Ends host N d σ (fun _ => do fail (.notCallable (← inspect f) (← className f)))
      (do fail (.notCallable (← inspect f) (← className f))) heap.value :=
  .next (level_of_still (.inspect f)) (.inspect f) fun _ =>
    .next (level_of_still (.className f)) (.className f) fun _ => .fail _

/-- The invocations that natives call back with are lighter, so the budget lasts. -/
theorem dispatch_ends {room : Nat}
    (he : ∀ τ c p j, heap.Callable τ (.block c p) j →
      Ends host N d τ (fun call => enter call c p j) (enterBlock host room c p j) heap.value)
    (budget : Nat) : ∀ σ f i, heap.Callable σ f i → i.weight + 2 ≤ budget →
      Ends host N d σ (fun call => call f i) (dispatch host (enterBlock host room) budget f i)
        heap.value := by
  induction budget with
  | zero => exact fun _ _ _ _ h => absurd h (Nat.not_succ_le_zero _)
  | succ budget ih =>
      intro σ f i hi hbudget
      refine .call (.next (level_announce f i) (quiet_announce f i) fun _ => ?_)
      cases f
      case var v _ _ _ =>
          exact .value _ fun _ hτ => upheld.value_later hτ.step (upheld.var.1 hi.function)
      case block c p => exact he σ c p i hi
      case native g =>
          have hlevels := dispatch_levels hh.hosts room budget
          have hcalls : heap.Calls (dispatch host (enterBlock host room) budget) :=
            dispatch_calls upheld hh.orderly (enterBlock_enters upheld hh.orderly room) budget
          refine runImpl_ends hh (fun τ f j hj hweight => ih τ f j hj ?_) hlevels hcalls hi.served g.impl
          omega
      all_goals exact notCallable_ends _

theorem callWith_ends {room : Nat}
    (he : ∀ τ c p j, heap.Callable τ (.block c p) j →
      Ends host N d τ (fun call => enter call c p j) (enterBlock host room c p j) heap.value) :
    Called host N d (callWith host (enterBlock host room)) :=
  fun σ f i hi => dispatch_ends hh he _ σ f i hi (by omega)

/-- Where there is room for more levels than are left, the room lasts. -/
theorem enterBlock_ends {room : Nat} (hroom : N - d < room) (c : Code) (p : ScopeId)
    (hi : heap.Callable σ (.block c p) i) :
    Ends host N d σ (fun call => enter call c p i) (enterBlock host room c p i) heap.value := by
  induction room generalizing d σ c p i with
  | zero => omega
  | succ room ih =>
      rw [enterBlock]
      refine .read fun st hN hd => ?_
      by_cases hlim : st.limit ≤ st.depth
      · simp only [if_pos hlim]
        exact .fail _
      simp only [if_neg hlim]
      have hcalled : Called host N (d + 1) (callWith host (enterBlock host room)) :=
        callWith_ends hh fun τ c p j hj => ih (by omega) c p hj
      refine .bind (.plain (Q := heap.scope) (fun _ => ⟨rfl, rfl⟩) (.alloc fun τ hτ => ?_))
        fun τ hτ s hs => ?_
      · have hi := hi.later upheld hτ
        exact upheld.newCall hτ.inv hi.function hi.args hi.block hi.site
      have hargs := (hi.later upheld hτ).args
      have hparams : heap.Meets τ (bindParams s (c.params.zip i.args)) fun _ _ => True :=
        bindParams_meets upheld hs fun q hq => hargs _ (List.of_mem_zip hq).2
      refine .bind (.plain (level_of_still (.bindParams _ _)) hparams) fun υ hυ _ _ => ?_
      refine .next (level_of_still (.log _)) (.log _) fun _ => .deeper ?_
      exact run_ends hcalled (upheld.scope_later hυ.step hs) c

theorem caller_called : Called host N d (caller host) := by
  intro σ f i hi st hN hd hst
  have hroom : N - d < N - d + host.reach + 1 := by omega
  have hcalled := callWith_ends hh fun τ c p j hj => enterBlock_ends hh hroom c p hj
  rw [caller, bind_of_ok (get_apply st), hN, hd]
  exact hcalled σ f i hi st hN hd hst

end Calls

/-- Every script comes to an end of itself: its calls are nested to some depth, whatever calls nested
deeper would do, and between them no search goes on for ever. Only the text of a list that contains
itself may have no end. -/
theorem script_ends (hh : Leaf host) {a : Stage} (ha : Reachable host a) (c : Code) :
    let F := fun call => runIn call a.session.global c
    let st := a.session.ready
    Runs host Grounded F st (F (caller host) st) ∧
      (∃ n, ∀ k, n ≤ k → ∀ bottom, F (nested host bottom k) st = F (caller host) st) ∧
      ∀ σ width level t f, f.isExhaustion = true →
        σ.source width level t = .error f ∨ σ.display width t = .error f ∨ σ.inspect t = .error f →
        Writable.Circular σ t := by
  intro F st
  have h : Housed false a.ledger a.session.root a.session.global a.store :=
    .reachable (fun M hM => List.subset_nil.1 hM ▸ hh.orderly) ha
  have hready := h.wellFormed.later_reset h.global_open.2
  have hends := runIn_ends (caller_called hh) (h.global_open.later hready.step) c st rfl rfl
    ⟨upheld.refl _, hready.inv⟩
  refine ⟨hends.runs, hends.runs.nested, fun σ width level t f hf ht => ?_⟩
  rcases ht with ht | ht | ht
  · exact circular_of_source ht hf
  · exact circular_of_display ht hf
  · rw [inspect_bounded ht] at hf
    cases hf

def leafKit : Host :=
  kitWithout ["if", "each", "invoke", "mixin"]

theorem leafKit_alone (call call' : Caller) : leafKit.native call = leafKit.native call' := by
  funext key i
  change (if key ∈ ["if", "each", "invoke", "mixin"] then _ else _) = if _ then _ else _
  split
  · rfl
  next h =>
      have hkey : key ∉ ["if", "each", "invoke"] := fun hmem => h (List.mem_append_left ["mixin"] hmem)
      rw [LikenessKit.native_alone hkey call call']

theorem leafKit_leaf : Leaf leafKit where
  alone := leafKit_alone
  level call key i := by
    have hcalls : levels.Calls (fun _ _ => pure .null) fun _ _ => pure .null :=
      fun _ _ _ _ => levels_kept.value _
    rw [leafKit_alone call fun _ _ => pure .null]
    change Level (if key ∈ ["if", "each", "invoke", "mixin"] then _ else _)
    split
    · exact fun _ => ⟨rfl, rfl⟩
    · exact level_kit hcalls key i
  orderly := kitWithout_obeys upheld (heapLaw_accommodating []) (.inl (by simp))
    (.inr (heapLaw_binding []))

def shallow : Session :=
  (Session.new 3 false).toOption.getD (.bare 3 false)

def looping : Code where
  params := []
  statements :=
    [.call "fn" [.ref "f" none] (some
        ⟨[.call "call" [.ref "call" none, .ref "call" none, .ref "f" none] none], []⟩),
      .call "f" [] none]

theorem script_ends_looping :
    let F := fun call => runIn call shallow.global looping
    let out := F (caller leafKit) shallow.ready
    Leaf leafKit ∧ (∃ l, Reachable leafKit ⟨l, shallow⟩) ∧ out.1.toOption.isNone ∧
      Runs leafKit Grounded F shallow.ready out := by
  have hnew : Session.new 3 false = .ok shallow := rfl
  obtain ⟨l, hl⟩ := reachable_new hnew leafKit
  exact ⟨leafKit_leaf, ⟨l, hl⟩, by decide +kernel, (script_ends leafKit_leaf hl looping).1⟩

end BlockScript.Proofs.Termination
