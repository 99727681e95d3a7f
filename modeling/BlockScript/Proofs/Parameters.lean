import BlockScript.Proofs.Giving
import BlockScript.Proofs.Records

namespace BlockScript.Proofs.Parameters

open Eval Evaluator Records Running

variable {σ τ : Store} {s t p : ScopeId} {n : String} {v : Term} {ps : List (String × Term)}
  {b : Bindings} {st : State} {i : Invocation}

section Bound

theorem names_bound (marks : Nat) (ps : List (String × Term)) (b : Bindings) :
    (bound marks ps b).names = b.names ++ ((ps.map Prod.fst).filter (· ∉ b.names)).eraseDups := by
  induction ps generalizing marks b with
  | nil => simp [bound]
  | cons q ps ih =>
      obtain ⟨n, v⟩ := q
      rw [bound, ih, Bindings.names_set, List.map_cons]
      by_cases hn : n ∈ b.names
      · simp [hn]
      · have hfilter : ((ps.map Prod.fst).filter (· ∉ b.names)).filter (fun m => !m == n) =
            (ps.map Prod.fst).filter (· ∉ b.names ++ [n]) := by
          rw [List.filter_filter]
          congr 1
          funext m
          by_cases hm : m = n <;> simp [hm]
        rw [if_neg hn, List.filter_cons_of_pos (by simpa using hn), List.eraseDups_cons, hfilter,
          List.append_assoc, List.singleton_append]

theorem get?_bound_of_not_mem (marks : Nat) (b : Bindings) (hn : n ∉ ps.map Prod.fst) :
    (bound marks ps b).get? n = b.get? n := by
  induction ps generalizing marks b with
  | nil => rfl
  | cons q ps ih =>
      obtain ⟨m, v⟩ := q
      rw [List.map_cons, List.mem_cons, not_or] at hn
      rw [bound, ih _ _ hn.2, Bindings.get?_set, if_neg hn.1]

/-- What a name is bound to in the end is what it is bound to last. -/
theorem get?_bound (marks : Nat) (b : Bindings) (ps qs : List (String × Term)) (hn : n ∉ qs.map Prod.fst) :
    (bound marks (ps ++ (n, v) :: qs) b).get? n = some (.var v false n (marks + ps.length + 1)) := by
  induction ps generalizing marks b with
  | nil =>
      rw [List.nil_append, bound, get?_bound_of_not_mem _ _ hn, Bindings.get?_set, if_pos rfl]
      rfl
  | cons q ps ih =>
      obtain ⟨m, w⟩ := q
      rw [List.cons_append, bound, ih, List.length_cons, Nat.add_right_comm marks, Nat.add_assoc marks]

end Bound

section Zip

variable {params : List String} {args : List Term} {j : Nat}

theorem map_fst_zip (params : List String) (args : List Term) :
    (params.zip args).map Prod.fst = params.take args.length := by
  induction params generalizing args with
  | nil => simp
  | cons n params ih => cases args <;> simp [ih]

theorem names_bound_zip (marks : Nat) (params : List String) (args : List Term) :
    (bound marks (params.zip args) []).names = (params.take args.length).eraseDups := by
  rw [names_bound, map_fst_zip]
  simp [Bindings.names]

theorem get?_bound_zip (marks : Nat) (hn : params[j]? = some n) (hv : args[j]? = some v)
    (hlast : ∀ k, j < k → k < args.length → params[k]? ≠ some n) :
    (bound marks (params.zip args) []).get? n = some (.var v false n (marks + j + 1)) := by
  have hj : (params.zip args)[j]? = some (n, v) := List.getElem?_zip_eq_some.2 ⟨hn, hv⟩
  obtain ⟨hlt, hget⟩ := List.getElem?_eq_some_iff.1 hj
  have hsplit : params.zip args =
      (params.zip args).take j ++ (n, v) :: (params.zip args).drop (j + 1) := by
    rw [← hget, List.getElem_cons_drop, List.take_append_drop]
  have hrest : n ∉ ((params.zip args).drop (j + 1)).map Prod.fst := by
    intro hmem
    rw [List.map_drop, map_fst_zip, List.mem_iff_getElem?] at hmem
    obtain ⟨k, hk⟩ := hmem
    rw [List.getElem?_drop, List.getElem?_take] at hk
    split at hk
    next hlen => exact hlast (j + 1 + k) (by omega) hlen hk
    next => cases hk
  rw [hsplit, get?_bound marks [] _ _ hrest, List.length_take, Nat.min_eq_left (Nat.le_of_lt hlt)]

end Zip

section Opening

def prepared (σ : Store) (marks : Nat) (c : Code) (p : ScopeId) (i : Invocation) : Store :=
  σ.alloc { callScope p i with bindings := bound marks (c.params.zip i.args) [] }

def opened (σ : Store) (marks : Nat) (c : Code) (p : ScopeId) (i : Invocation) : Store :=
  (prepared σ marks c p i).alloc { kind := .block false, parent := some σ.size }

def prepare (c : Code) (p : ScopeId) (i : Invocation) (st : State) : State :=
  { st with
    store := prepared st.store st.marks c p i
    marks := st.marks + (c.params.zip i.args).length }

def started (c : Code) (p : ScopeId) (i : Invocation) (st : State) : State :=
  { prepare c p i st with store := opened st.store st.marks c p i }.enter

def left (out : Except Failure Term × State) : Except Failure Term × State :=
  (withBound out.2.limit out.2.depth out.1, (noteBound out.1 out.2).leave)

theorem run_prepare (call : Caller) (c : Code) (p : ScopeId) (i : Invocation) (st : State) :
    run call c st.store.size (prepare c p i st).enter =
      runIn call (st.store.size + 1) c (started c p i st) := by
  rw [run, bind_of_ok (alloc_apply _ _)]
  change runIn call (prepared st.store st.marks c p i).size c _ = _
  rw [prepared, Store.size_alloc]
  rfl

theorem bindParams_prepare (c : Code) (p : ScopeId) (i : Invocation) (st : State) :
    bindParams st.store.size (c.params.zip i.args)
      { st with store := st.store.alloc (callScope p i) } = (.ok (), prepare c p i st) :=
  bindParams_apply (callScope p i) rfl (fun _ => rfl) rfl _

/-- How a block is entered does not depend on what calls are, up to the run of its body. -/
theorem enter_runIn (c : Code) (p : ScopeId) (i : Invocation) (st : State)
    (h : st.depth < st.limit) : ∃ debug, ∀ call, Unbounded.enter call c p i st =
      left (runIn call (st.store.size + 1) c (started c p i { st with debug })) := by
  obtain ⟨debug, hlog⟩ := Depth.Still.log_apply ("Call-scope params " ++ Render.names c.params
    ++ " argc " ++ toString i.args.length) (prepare c p i st)
  refine ⟨debug, fun call => ?_⟩
  rw [Unbounded.enter, bind_of_ok (get_apply st), if_neg (Nat.not_le.2 h),
    bind_of_ok (alloc_apply _ st)]
  refine ((bind_of_ok (bindParams_prepare c p i st)).trans (bind_of_ok hlog)).trans ?_
  have hbody : run call c st.store.size ({ prepare c p i st with debug } : State).enter =
      runIn call (st.store.size + 1) c (started c p i { st with debug }) :=
    run_prepare call c p i { st with debug }
  rw [deeper_apply, hbody, left]

theorem dispatch_block (host : Host) (room budget : Nat) (c : Code) (p : ScopeId) (i : Invocation)
    (h : st.depth < st.limit) : ∃ debug,
      dispatch host (enterBlock host (room + 1)) (budget + 1) (.block c p) i st =
        left (Consecutive.runOn (callWith host (enterBlock host room)) (st.store.size + 1) .null
          c.statements (started c p i { st.note (.called (.block c p) i) with debug })) := by
  obtain ⟨debug, ha⟩ := Depth.announce_apply (.block c p) i st
  obtain ⟨debug', he⟩ := enter_runIn c p i { st.note (.called (.block c p) i) with debug } h
  obtain ⟨debug'', hrun⟩ := Giving.runIn_apply (callWith host (enterBlock host room))
    (st.store.size + 1) c (started c p i { st.note (.called (.block c p) i) with debug := debug' })
  refine ⟨debug'', ?_⟩
  rw [dispatch.eq_def]
  refine (bind_of_ok ha).trans ((he _).trans ?_)
  exact congrArg left hrun

end Opening

section Resolution

def Closed (σ : Store) : Prop :=
  ∀ s < σ.size, ∀ t ∈ σ.nexts s, t < σ.size

def Grown (σ τ : Store) : Prop :=
  σ.size ≤ τ.size ∧ ∀ t < σ.size, τ.get t = σ.get t

theorem findSomeM?_congr {f g : ScopeId → Except Fault (Option ScopeId)} {xs : List ScopeId}
    (h : ∀ x ∈ xs, f x = g x) : xs.findSomeM? f = xs.findSomeM? g := by
  induction xs with
  | nil => rfl
  | cons x xs ih =>
      rw [List.findSomeM?, List.findSomeM?, h x List.mem_cons_self,
        ih fun y hy => h y (List.mem_cons_of_mem x hy)]

theorem ownerWithin_grown (hσ : Closed σ) (h : Grown σ τ) {steps steps' : Nat}
    {within within' : List ScopeId} (hs : s < σ.size) (hn : within.Nodup)
    (hlt : ∀ t ∈ within, t < σ.size) (hsame : ∀ t < σ.size, t ∈ within' ↔ t ∈ within)
    (hsteps : σ.size < steps + within.length) (hsteps' : σ.size < steps' + within.length) :
    τ.ownerWithin n steps' within' s = σ.ownerWithin n steps within s := by
  induction steps generalizing steps' within within' s with
  | zero =>
      have hlen := Writing.length_le_of_nodup hn hlt
      omega
  | succ steps ih =>
      have hlen := Writing.length_le_of_nodup hn hlt
      obtain ⟨steps', rfl⟩ : ∃ k, steps' = k + 1 := ⟨steps' - 1, by omega⟩
      have hget := h.2 s hs
      rw [Store.ownerWithin, Store.ownerWithin, Store.owns, Store.owns, hget]
      by_cases hmem : s ∈ within
      · rw [if_pos hmem, if_pos ((hsame s hs).2 hmem)]
      · rw [if_neg hmem, if_neg fun hmem' => hmem ((hsame s hs).1 hmem')]
        have hrest : ∀ u ∈ σ.nexts s, τ.ownerWithin n steps' (s :: within') u =
            σ.ownerWithin n steps (s :: within) u := by
          intro u hu
          apply ih (hσ s hs u hu) (List.nodup_cons.2 ⟨hmem, hn⟩) (List.forall_mem_cons.2 ⟨hs, hlt⟩)
          · intro t ht
            rw [List.mem_cons, List.mem_cons, hsame t ht]
          · rw [List.length_cons]
            omega
          · rw [List.length_cons]
            omega
        have hnexts : τ.nexts s = σ.nexts s := by rw [Store.nexts, hget, Store.nexts]
        rw [hnexts, findSomeM?_congr hrest]

theorem owner?_grown (hσ : Closed σ) (h : Grown σ τ) (hs : s < σ.size) (n : String) :
    τ.owner? s n = σ.owner? s n := by
  have hsize := h.1
  apply ownerWithin_grown hσ h hs List.nodup_nil nofun (fun _ _ => .rfl)
  all_goals
    rw [List.length_nil]
    omega

/-- A scope that is new and does not own the name leaves it to its parent, which is not. -/
theorem owner?_child (hσ : Closed σ) (h : Grown σ τ) (hp : p < σ.size) (hs : σ.size ≤ s)
    (hsize : s < τ.size) (hnexts : τ.nexts s = [p]) (hown : τ.owns s n = false) :
    τ.owner? s n = σ.owner? p n := by
  have hparent : τ.ownerWithin n τ.size [s] p = σ.ownerWithin n (σ.size + 1) [] p := by
    apply ownerWithin_grown hσ h hp List.nodup_nil nofun
    · intro t ht
      rw [List.mem_singleton]
      exact iff_of_false (Nat.ne_of_lt (Nat.lt_of_lt_of_le ht hs)) List.not_mem_nil
    · exact Nat.lt_succ_self σ.size
    · exact Nat.lt_of_le_of_lt hs hsize
  rw [Store.owner?, Store.ownerWithin, hown, if_neg Bool.false_ne_true, if_neg List.not_mem_nil, hnexts,
    List.findSomeM?, hparent, Store.owner?]
  rcases σ.ownerWithin n (σ.size + 1) [] p with e | found
  · rfl
  · cases found <;> rfl

end Resolution

section Opened

variable {marks : Nat} {c : Code}

theorem size_opened : (opened σ marks c p i).size = σ.size + 2 := by
  rw [opened, prepared, Store.size_alloc, Store.size_alloc]

theorem get_opened_call : (opened σ marks c p i).get σ.size =
    { callScope p i with bindings := bound marks (c.params.zip i.args) [] } := by
  rw [opened, prepared, Store.get_alloc, Store.size_alloc, if_neg (Nat.ne_of_lt (Nat.lt_succ_self _)),
    Store.get_alloc, if_pos rfl]

theorem get_opened_old (h : t < σ.size) : (opened σ marks c p i).get t = σ.get t := by
  rw [opened, prepared, Store.get_alloc, Store.size_alloc,
    if_neg (Nat.ne_of_lt (Nat.lt_succ_of_lt h)), Store.get_alloc, if_neg (Nat.ne_of_lt h)]

theorem grown_opened : Grown σ (opened σ marks c p i) :=
  ⟨by rw [size_opened]; omega, fun _ => get_opened_old⟩

theorem owner?_opened (hσ : Closed σ) (hp : p < σ.size) (hn : n ∉ c.params.take i.args.length) :
    (opened σ marks c p i).owner? σ.size n = σ.owner? p n ∧
      (opened σ marks c p i).owner? p n = σ.owner? p n := by
  have hnexts : (opened σ marks c p i).nexts σ.size = [p] := by
    rw [Store.nexts, get_opened_call]
    rfl
  have hown : (opened σ marks c p i).owns σ.size n = false := by
    rw [Store.owns, get_opened_call, Bindings.owns]
    rw [← map_fst_zip] at hn
    simp only [get?_bound_of_not_mem _ _ hn]
    rfl
  have hsize : σ.size < (opened σ marks c p i).size := by
    rw [size_opened]
    exact Nat.lt_succ_of_lt (Nat.lt_succ_self _)
  exact ⟨owner?_child hσ grown_opened hp (Nat.le_refl _) hsize hnexts hown,
    owner?_grown hσ grown_opened hp n⟩

end Opened

/-- What a call of a block has done to the store when the first statement of its body starts: there is
a call scope whose own names are the parameters that have an argument, the last one of a name winning,
and a scope for the body. -/
structure Opens (σ τ : Store) (c : Code) (p : ScopeId) (i : Invocation) : Prop where
  callScope : τ.get σ.size = { callScope p i with bindings := (τ.get σ.size).bindings }
  names : (τ.get σ.size).bindings.names = (c.params.take i.args.length).eraseDups
  value : ∀ j n v, c.params[j]? = some n → i.args[j]? = some v →
    (∀ k, j < k → k < i.args.length → c.params[k]? ≠ some n) →
    ∃ mark, (τ.get σ.size).bindings.get? n = some (.var v false n mark)
  body : τ.get (σ.size + 1) = { kind := .block false, parent := some σ.size }
  size : τ.size = σ.size + 2
  others : ∀ t < σ.size, τ.get t = σ.get t
  owner : Closed σ → p < σ.size → ∀ n ∉ c.params.take i.args.length,
    τ.owner? σ.size n = σ.owner? p n ∧ τ.owner? p n = σ.owner? p n

theorem opens_opened (σ : Store) (marks : Nat) (c : Code) (p : ScopeId) (i : Invocation) :
    Opens σ (opened σ marks c p i) c p i where
  callScope := by rw [get_opened_call]
  names := by rw [get_opened_call, names_bound_zip]
  value j n v hn hv hlast := by
    rw [get_opened_call]
    exact ⟨_, get?_bound_zip marks hn hv hlast⟩
  body := by rw [opened, prepared, Store.get_alloc, Store.size_alloc, if_pos rfl]
  size := size_opened
  others t := get_opened_old
  owner hσ hp n := owner?_opened hσ hp

/-- A call of a block below the limit binds the parameters to the arguments, which cannot fail and
changes no scope that there was, and then is the run of the body. -/
theorem params_bound (host : Host) (room budget : Nat) (c : Code) (p : ScopeId) (i : Invocation)
    (st : State) (h : st.depth < st.limit) :
    ∃ st' : State, Opens st.store st'.store c p i ∧
      dispatch host (enterBlock host (room + 1)) (budget + 1) (.block c p) i st =
        left (Consecutive.runOn (callWith host (enterBlock host room)) (st.store.size + 1) .null
          c.statements st') := by
  obtain ⟨debug, hrun⟩ := dispatch_block host room budget c p i h
  exact ⟨_, opens_opened st.store st.marks c p i, hrun⟩

def enclosing : State where
  store := { scopes := #[{ bindings := [("a", .var .null true "a"), ("d", .var (.num 7) false "d")] }] }
  limit := 1

theorem params_bound_repeated :
    let c : Code := ⟨[.call "a" [] none], ["a", "b", "a", "d"]⟩
    let i : Invocation := { args := [.num 1, .num 2, .num 3] }
    enclosing.depth < enclosing.limit ∧ Closed enclosing.store ∧
      ∃ st' : State, (st'.store.get 1).bindings.names = ["a", "b"] ∧
        (∃ mark, (st'.store.get 1).bindings.get? "a" = some (.var (.num 3) false "a" mark)) ∧
        st'.store.owner? 1 "d" = .ok (some 0) ∧
        dispatch Kit.host (enterBlock Kit.host 1) 1 (.block c 0) i enclosing =
          left (Consecutive.runOn (callWith Kit.host (enterBlock Kit.host 0)) 2 .null c.statements st') := by
  intro c i
  have hdepth : enclosing.depth < enclosing.limit := by decide
  have hclosed : Closed enclosing.store := by
    intro s hs
    obtain rfl : s = 0 := Nat.lt_one_iff.1 hs
    exact nofun
  obtain ⟨st', hopens, hrun⟩ := params_bound Kit.host 0 0 c 0 i enclosing hdepth
  refine ⟨hdepth, hclosed, st', ?_, ?_, ?_, hrun⟩
  · exact hopens.names.trans (by decide)
  · exact hopens.value 2 "a" (.num 3) rfl rfl fun k hk hlt => absurd hlt (Nat.not_lt.2 hk)
  · exact (hopens.owner hclosed (by decide) "d" (by decide)).1.trans (by decide)

end BlockScript.Proofs.Parameters
