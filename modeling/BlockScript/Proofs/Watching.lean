import BlockScript.Proofs.Conduct
import BlockScript.Proofs.Records

namespace BlockScript.Proofs.Watching

open Eval Evaluator Running Law Records
open Likeness (once dispatch_succ)

variable {α β : Type} {L : Law} {host : Host} {σ τ : Store} {call call' : Caller} {s : ScopeId}
  {i : Invocation}

def Frameless (m : Eval α) : Prop :=
  ∀ st, (m st).2.frames = st.frames ∧ ∀ e, (m st).1 = .error e → e.trace = none

namespace Frameless

theorem plain {m : Eval α} (h : Plain m) : Frameless m := by
  intro st
  obtain ⟨a, ha⟩ | ⟨f, hf⟩ := h st
  · rw [ha]
    exact ⟨rfl, nofun⟩
  · rw [hf]
    refine ⟨rfl, fun e he => ?_⟩
    cases he
    rfl

theorem aside {m : Eval α} (h : Aside m) : Frameless m := by
  intro st
  obtain ⟨⟨a, ha⟩, hb⟩ := h st
  refine ⟨hb.frames, fun e he => ?_⟩
  rw [ha] at he
  cases he

theorem bind {m : Eval α} {k : α → Eval β} (hm : Frameless m) (hk : ∀ a, Frameless (k a)) :
    Frameless (m >>= k) := by
  intro st
  obtain ⟨hframes, htrace⟩ := hm st
  rw [bind_apply]
  rcases h : m st with ⟨e | a, st'⟩
  all_goals rw [h] at hframes htrace
  · refine ⟨hframes, fun e' he => ?_⟩
    cases he
    exact htrace e rfl
  · obtain ⟨hframes', htrace'⟩ := hk a st'
    exact ⟨hframes'.trans hframes, htrace'⟩

theorem value (a : α) : Frameless (pure a : Eval α) :=
  plain (.pure a)

theorem fail (f : Fault) : Frameless (Eval.fail f : Eval α) :=
  plain (.fail f)

theorem updateStore (f : Store → Except Fault Store) : Frameless (Eval.updateStore f) := by
  intro st
  rw [updateStore_apply]
  cases f st.store with
  | ok τ => exact ⟨rfl, nofun⟩
  | error e =>
      refine ⟨rfl, fun e' he => ?_⟩
      cases he
      rfl

theorem alloc (c : Scope) : Frameless (Eval.alloc c) :=
  fun _ => ⟨rfl, nofun⟩

theorem newList (xs : List Term) : Frameless (Eval.newList xs) :=
  (alloc _).bind fun _ => value _

theorem record (e : Event) : Frameless (Eval.record e) :=
  fun _ => ⟨rfl, nofun⟩

theorem visit (t : Term) : Frameless (Eval.visit t) :=
  fun _ => ⟨rfl, nofun⟩

theorem announce (f : Term) (i : Invocation) : Frameless (Evaluator.announce f i) :=
  (record _).bind fun _ => (plain (.className f)).bind fun _ => aside (.log _)

theorem builtin {b : Builtin} (h : b ∉ [.letVar, .letConst, .call, .yield]) :
    Frameless (b.run call i) := by
  cases b with
  | letVar | letConst | call | yield => simp at h
  | fn =>
      refine (plain (.memoryArg .fn i)).bind fun _ => (plain (.blockArg .fn i)).bind fun _ => ?_
      exact (updateStore _).bind fun _ => value _
  | del => exact (plain (.memoryArg .del i)).bind fun _ => (updateStore _).bind fun _ => value _
  | exist =>
      exact plain ((Plain.memoryArg .exist i).bind fun _ => (Plain.binds _ _).bind fun _ => .pure _)
  | param =>
      refine plain ((Plain.indexArg i).bind fun k => (Plain.tagArg i).bind fun tag => ?_)
      refine (Plain.checkIndex k).bind fun _ => (Plain.activation .param i).bind fun a => ?_
      exact (Plain.checkTag tag _).bind fun _ => .pure _
  | args => exact (plain (.activation .args i)).bind fun _ => newList _
  | ret | pass =>
      intro st
      rw [give_apply call i (by simp) st]
      exact ⟨rfl, nofun⟩
  | print =>
      exact (plain (.displayLine _)).bind fun _ => (aside (.write _)).bind fun _ => value _

end Frameless

theorem quiet_of_plain {m : Eval α} (h : Plain m) : Quiet m := by
  intro st
  obtain ⟨a, ha⟩ | ⟨f, hf⟩ := h st
  · rw [ha]
  · rw [hf]
    rfl

def Told (L : Law) (σ : Store) (frames : List Frame) : Prop :=
  ∀ frame ∈ frames, L.value σ frame.function ∧ ∀ t ∈ frame.args, L.value σ t

theorem Told.later (U : L.Upheld) (hτ : L.Later σ τ) {frames : List Frame} (h : Told L σ frames) :
    Told L τ frames := by
  intro frame hframe
  obtain ⟨hfunction, hargs⟩ := h frame hframe
  exact ⟨U.value_later hτ.step hfunction, fun t ht => U.value_later hτ.step (hargs t ht)⟩

structure Lawful (L : Law) (st : State) (out : Except Failure α × State) (P : Store → α → Prop) :
    Prop where
  later : L.Later st.store out.2.store
  value : ∀ a, out.1 = .ok a → P out.2.store a
  frames : Told L out.2.store out.2.frames
  trace : ∀ e, out.1 = .error e → Told L out.2.store (e.trace.getD [])

/-- Wherever `m` starts once the store is `σ`, it keeps the law and comes to the same end as `m'`. -/
def Tracks (L : Law) (σ : Store) (m m' : Eval α) (P : Store → α → Prop) : Prop :=
  ∀ st, L.Later σ st.store → Told L st.store st.frames → m' st = m st ∧ Lawful L st (m st) P

namespace Tracks

variable {m m' : Eval α} {k k' : α → Eval β} {P : Store → α → Prop} {Q : Store → β → Prop}

theorem weaken (U : L.Upheld) (hτ : L.Later σ τ) (h : Tracks L σ m m' P) : Tracks L τ m m' P :=
  fun st hst => h st ⟨U.trans hτ.step hst.step, hst.inv⟩

theorem start (U : L.Upheld) (h : ∀ τ, L.Later σ τ → Tracks L τ m m' P) : Tracks L σ m m' P :=
  fun st hst => h st.store hst st ⟨U.refl _, hst.inv⟩

theorem of_meets (U : L.Upheld) (hm : L.Meets σ m P) (hf : Frameless m) : Tracks L σ m m P := by
  intro st hst htold
  obtain ⟨hlater, hvalue⟩ := hm st hst
  obtain ⟨hframes, htrace⟩ := hf st
  refine ⟨rfl, hlater, hvalue, ?_, fun e he => ?_⟩
  · rw [hframes]
    exact htold.later U hlater
  · rw [htrace e he]
    exact List.forall_mem_nil _

theorem bind (U : L.Upheld) (hm : Tracks L σ m m' P)
    (hk : ∀ τ, L.Later σ τ → ∀ a, P τ a → Tracks L τ (k a) (k' a) Q) :
    Tracks L σ (m >>= k) (m' >>= k') Q := by
  intro st hst htold
  obtain ⟨hsame, hlawful⟩ := hm st hst htold
  rw [bind_apply, bind_apply, hsame]
  rcases h : m st with ⟨e | a, st'⟩
  all_goals rw [h] at hlawful
  · refine ⟨rfl, hlawful.later, nofun, hlawful.frames, fun e' he => ?_⟩
    cases he
    exact hlawful.trace e rfl
  · have hlater : L.Later σ st'.store := ⟨U.trans hst.step hlawful.later.step, hlawful.later.inv⟩
    obtain ⟨hsame', hlawful'⟩ := hk _ hlater a (hlawful.value a rfl) st'
      ⟨U.refl _, hlawful.later.inv⟩ hlawful.frames
    refine ⟨hsame', ?_, hlawful'.value, hlawful'.frames, hlawful'.trace⟩
    exact ⟨U.trans hlawful.later.step hlawful'.later.step, hlawful'.later.inv⟩

theorem next (U : L.Upheld) {m : Eval α} (hq : Quiet m) (hf : Frameless m)
    (hk : ∀ a, Tracks L σ (k a) (k' a) Q) : Tracks L σ (m >>= k) (m >>= k') Q :=
  .bind U (.of_meets U (.of_quiet U hq fun _ _ _ => trivial) hf : Tracks L σ m m fun _ _ => True)
    fun _ hτ a _ => (hk a).weaken U hτ

theorem read (U : L.Upheld) {m : Eval α} (h : Plain m) (hk : ∀ a, Tracks L σ (k a) (k' a) Q) :
    Tracks L σ (m >>= k) (m >>= k') Q :=
  next U (quiet_of_plain h) (.plain h) hk

theorem value (U : L.Upheld) {a : α} (h : ∀ τ, L.Later σ τ → P τ a) :
    Tracks L σ (pure a) (pure a) P :=
  of_meets U (.pure U h) (.value a)

theorem fail (U : L.Upheld) (f : Fault) : Tracks L σ (Eval.fail f) (Eval.fail f) P :=
  of_meets U (.fail U f) (.fail f)

theorem underFrame {frame : Frame} (U : L.Upheld) (hfunction : L.value σ frame.function)
    (hargs : ∀ t ∈ frame.args, L.value σ t) (h : Tracks L σ m m' P) :
    Tracks L σ (Eval.underFrame frame m) (Eval.underFrame frame m') P := by
  intro st hst htold
  have hpush : Told L st.store (st.push frame).frames := by
    refine List.forall_mem_cons.2 ⟨⟨U.value_later hst.step hfunction, fun t ht => ?_⟩, htold⟩
    exact U.value_later hst.step (hargs t ht)
  obtain ⟨hsame, hlawful⟩ := h (st.push frame) hst hpush
  rw [underFrame_apply, underFrame_apply, hsame]
  refine ⟨rfl, hlawful.later, fun a ha => hlawful.value a (ok_of_withTrace ha), ?_, fun e he => ?_⟩
  · exact fun f hf => hlawful.frames f (List.mem_of_mem_tail hf)
  · cases hr : (m (st.push frame)).1 with
    | ok a =>
        rw [hr] at he
        cases he
    | error e' =>
        rw [hr] at he
        cases he
        cases ht : e'.trace with
        | none => exact fun f hf => hlawful.frames f (List.mem_reverse.1 hf)
        | some frames =>
            have htrace := hlawful.trace e' hr
            rwa [ht] at htrace

theorem frames_noteBound (r : Except Failure α) (st : State) :
    (noteBound r st).frames = st.frames := by
  cases r with
  | ok a => rfl
  | error e =>
      rw [noteBound]
      split <;> rfl

theorem deeper (h : Tracks L σ m m' P) : Tracks L σ (Eval.deeper m) (Eval.deeper m') P := by
  intro st hst htold
  obtain ⟨hsame, hlawful⟩ := h st.enter hst htold
  rw [deeper_apply, deeper_apply, hsame]
  have hstore : (noteBound (m st.enter).1 (m st.enter).2).leave.store = (m st.enter).2.store :=
    store_noteBound _ _
  have hframes : (noteBound (m st.enter).1 (m st.enter).2).leave.frames = (m st.enter).2.frames :=
    frames_noteBound _ _
  refine ⟨rfl, ?_, fun a ha => ?_, ?_, fun e he => ?_⟩
  all_goals rw [hstore]
  · exact hlawful.later
  · exact hlawful.value a (ok_of_withBound ha)
  · rw [hframes]
    exact hlawful.frames
  · cases hr : (m st.enter).1 with
    | ok a =>
        rw [hr] at he
        cases he
    | error e' =>
        rw [hr] at he
        cases he
        split
        · exact List.forall_mem_nil _
        · exact hlawful.trace e' hr

end Tracks

def TracksCalls (L : Law) (call call' : Caller) : Prop :=
  ∀ σ f i, L.Callable σ f i → Tracks L σ (call f i) (call' f i) L.value

section Builtins

variable (U : L.Upheld) (hc : TracksCalls L call call') (hi : L.Served σ i)
include U

theorem calls_fail : L.Calls fun _ _ => Eval.fail .endless :=
  fun _ _ _ _ => .fail U _

include hc hi

theorem bindValue_tracks (op : Builtin) (constant : Bool) :
    Tracks L σ (Builtin.bindValue call op constant i) (Builtin.bindValue call' op constant i)
      L.value := by
  refine .bind U (.of_meets U (memoryArg_meets U hi op) (.plain (.memoryArg op i)))
    fun τ hτ p hp => ?_
  have hiτ := hi.later U hτ
  refine .bind U (.of_meets U (blockArg_meets U hiτ op) (.plain (.blockArg op i)))
    fun υ hυ body hbody => ?_
  have hiυ := hiτ.later U hυ
  refine .bind U (hc υ body _ (hiυ.callable_plainly U (U.value_of_block hbody) [] (by simp)))
    fun ρ hρ v hv => ?_
  refine .of_meets U ?_ ?_
  · have hm := U.value_later hρ.step (U.value_later hυ.step hp)
    refine .bind_quiet U .freshMark fun mark => ?_
    refine .bind U (define_meets U hm (U.var.2 hv) .var) fun _ _ _ _ => ?_
    exact .pure U fun _ _ => U.null
  · exact (Frameless.aside .freshMark).bind fun _ => (Frameless.updateStore _).bind fun _ => .value _

theorem builtin_tracks (b : Builtin) : Tracks L σ (b.run call i) (b.run call' i) L.value := by
  have alone (hb : b ∉ [.letVar, .letConst, .call, .yield])
      (hsame : ∀ call, b.run call i = b.run (fun _ _ => Eval.fail .endless) i) :
      Tracks L σ (b.run call i) (b.run call' i) L.value := by
    rw [hsame call, hsame call']
    exact .of_meets U (builtin_meets U (calls_fail U) hi b) (.builtin hb)
  cases b with
  | fn | del | exist | param | args | ret | pass | print => exact alone (by simp) fun _ => rfl
  | letVar => exact bindValue_tracks U hc hi .letVar false
  | letConst => exact bindValue_tracks U hc hi .letConst true
  | call =>
      refine .bind U (.of_meets U (memoryArg_meets U hi .call) (.plain (.memoryArg .call i)))
        fun τ hτ p hp => ?_
      have hiτ := hi.later U hτ
      refine .bind U (.of_meets U (.lookup U hp) (.plain (.lookup _ _))) fun υ hυ r hr => ?_
      cases r with
      | none => exact .fail U _
      | some f =>
          have hiυ := hiτ.later U hυ
          exact hc υ f _ (hiυ.callable U (hr f rfl) _ fun t ht => hiυ.args t (List.mem_of_mem_tail ht))
  | yield =>
      refine .bind U (.of_meets U (activation_meets U hi .yield) (.plain (.activation .yield i)))
        fun τ hτ a ha => ?_
      have hiτ := hi.later U hτ
      split
      next b hb =>
          have hblock := ha.2.1 b hb
          refine hc τ b _ ⟨U.value_of_block hblock, hiτ.args, hiτ.block, ha.2.2, ?_⟩
          exact (U.yields hblock).imp_right fun h s hs => h s (ha.2.2 s hs)
      next => exact .fail U _

end Builtins

section Terms

mutual

theorem evalTerm_tracks (U : L.Upheld) (hc : TracksCalls L call call') {σ : Store}
    (hs : L.scope σ s) : ∀ t, Tracks L σ (evalTerm call s t) (evalTerm call' s t) L.value
  | .null | .bool _ | .num _ | .str _ =>
      .next U (.visit _) (.visit _) fun _ => .value U fun _ _ => U.literal (by simp)
  | .ref _ none _ =>
      .next U (.visit _) (.visit _) fun _ =>
        .value U fun _ hτ => U.memory (U.scope_later hτ.step hs)
  | .ref n (some target) _ => by
      refine .next U (.visit _) (.visit _) fun _ => ?_
      refine .bind U (evalTerm_tracks U hc hs target) fun τ _ v hv => ?_
      split
      next => exact .value U fun _ hυ => U.target (U.value_later hυ.step hv)
      next => exact .read U (.typeName _) fun _ => .fail U _
  | .call n args block => by
      refine .next U (.visit _) (.visit _) fun _ => ?_
      refine .bind U (.of_meets U (.lookup U (U.memory hs)) (.plain (.lookup _ _)))
        fun τ hτ r hr => ?_
      have hsτ := U.scope_later hτ.step hs
      split
      next => exact .fail U _
      next f =>
          refine .bind U (evalArgs_tracks U hc hsτ args) fun υ hυ vs hvs => ?_
          have hsυ := U.scope_later hυ.step hsτ
          have hf := U.value_later hυ.step (hr f rfl)
          refine .underFrame U hf hvs (hc υ f _ ⟨hf, hvs, ?_, ?_, .inr ?_⟩)
          · rintro b hb
            obtain ⟨c, -, rfl⟩ := Option.map_eq_some_iff.1 hb
            exact U.closure hsυ
          · rintro p hp
            obtain rfl := Option.some.inj hp
            exact U.site_of_scope hsυ
          · rintro p hp
            obtain rfl := Option.some.inj hp
            exact hsυ
  | .code _ => .next U (.visit _) (.visit _) fun _ => .fail U _
  | .memory _ _ | .scope _ | .float _ _ | .items _ | .var _ _ _ _ | .block _ _ | .native _ =>
      .next U (.visit _) (.visit _) fun _ => .read U (.inspect _) fun _ =>
        .read U (.className _) fun _ => .fail U _

theorem evalArgs_tracks (U : L.Upheld) (hc : TracksCalls L call call') {σ : Store}
    (hs : L.scope σ s) : ∀ ts, Tracks L σ (evalArgs call s ts) (evalArgs call' s ts)
      fun τ vs => ∀ t ∈ vs, L.value τ t
  | [] => .value U fun _ _ => by simp
  | t :: ts => by
      refine .bind U (evalTerm_tracks U hc hs t) fun τ hτ v hv => ?_
      refine .bind U (evalArgs_tracks U hc (U.scope_later hτ.step hs) ts) fun υ hυ vs hvs => ?_
      refine .value U fun ρ hρ => List.forall_mem_cons.2 ⟨?_, fun w hw => ?_⟩
      · exact U.value_later hρ.step (U.value_later hυ.step hv)
      · exact U.value_later hρ.step (hvs w hw)

end

variable (U : L.Upheld) (hc : TracksCalls L call call') (hs : L.scope σ s)
include U hc hs

theorem runStatements_tracks {last : Term} (hl : L.value σ last) (ts : List Term) :
    Tracks L σ (runStatements call s last ts) (runStatements call' s last ts) L.value := by
  induction ts generalizing σ last with
  | nil => exact .value U fun _ hτ => U.value_later hτ.step hl
  | cons t ts ih =>
      rw [runStatements, runStatements]
      refine .read U (.isBroken s) fun broken => ?_
      split
      · exact .value U fun _ hτ => U.value_later hτ.step hl
      · refine .bind U (evalTerm_tracks U hc hs t) fun τ hτ v hv => ?_
        exact ih (U.scope_later hτ.step hs) hv

theorem runIn_tracks (c : Code) : Tracks L σ (runIn call s c) (runIn call' s c) L.value := by
  refine .next U (.log _) (.aside (.log _)) fun _ => ?_
  refine .bind U (runStatements_tracks U hc hs U.null c.statements) fun τ hτ last hl => ?_
  have hsτ := U.scope_later hτ.step hs
  refine .bind U (.of_meets U (returned_meets U hsτ) (.plain (.returned s))) fun υ hυ r hr => ?_
  refine .value U fun ρ hρ => U.value_later hρ.step ?_
  cases r with
  | none => exact U.value_later hυ.step hl
  | some v => exact hr v rfl

theorem run_tracks (c : Code) : Tracks L σ (run call c s) (run call' c s) L.value := by
  refine .bind U (.of_meets U (.alloc (P := L.scope) fun τ hτ => ?_) (.alloc _)) fun τ _ b hb => ?_
  · exact U.newBlock hτ.inv (U.scope_later hτ.step hs)
  · exact runIn_tracks U hc hb c

end Terms

section Calls

variable (U : L.Upheld)

def TracksEnters (L : Law) (enter enter' : BlockCaller) : Prop :=
  ∀ σ c p i, L.Callable σ (.block c p) i → Tracks L σ (enter c p i) (enter' c p i) L.value

def TrackedBy (L : Law) (host : Host) : Prop :=
  ∀ call call', TracksCalls L call call' → ∀ key σ i, L.Served σ i →
    Tracks L σ (host.native call key i) (host.native call' key i) L.value

structure Attended (L : Law) (f : Term) (i : Invocation) (st : State) : Prop where
  inv : L.inv st.store
  frames : Told L st.store st.frames
  callable : L.Callable st.store f i

def Heeds (P : Term → Invocation → State → Prop) (w : Watch) : Prop :=
  ∀ call f i st, P f i st → w call f i st = call f i st

/-- The property holds of every call that is made, inside calls and natives as well, when it is made:
what would be done about other calls makes no difference. -/
def AtCalls (host : Host) (P : Term → Invocation → State → Prop) (F : Caller → Eval α) (st : State) :
    Prop :=
  ∀ w, Heeds P w → F (watched w host) st = F (caller host) st

theorem AtCalls.first {P : Term → Invocation → State → Prop} {f : Term} {i : Invocation} {st : State}
    (h : AtCalls host P (fun call => call f i) st) : P f i st := by
  by_contra hP
  obtain ⟨w, hshows, hw⟩ := exists_watch host f i st
  refine hshows (h w fun call g j st' hst => hw call g j st' fun heq => ?_)
  cases heq
  exact hP hst

include U

theorem bindParams_tracks {s : ScopeId} {ps : List (String × Term)} (hs : L.scope σ s)
    (hv : ∀ p ∈ ps, L.value σ p.2) :
    Tracks L σ (bindParams s ps) (bindParams s ps) fun _ _ => True := by
  refine .of_meets U (bindParams_meets U hs hv) ?_
  clear hv
  induction ps with
  | nil => exact .value _
  | cons p ps ih =>
      exact (Frameless.aside .freshMark).bind fun _ => (Frameless.updateStore _).bind fun _ => ih

theorem enter_tracks (hc : TracksCalls L call call') :
    TracksEnters L (Unbounded.enter call) (Unbounded.enter call') := by
  intro σ c p i h
  refine .read U .get fun st => ?_
  split
  · exact .fail U _
  refine .bind U (.of_meets U (.alloc (P := L.scope) fun τ hτ => ?_) (.alloc _)) fun τ hτ s hs => ?_
  · have hτ' := h.later U hτ
    exact U.newCall hτ.inv hτ'.function hτ'.args hτ'.block hτ'.site
  have hargs := (h.later U hτ).args
  refine .bind U (bindParams_tracks U hs fun q hq => hargs _ (List.of_mem_zip hq).2) fun υ hυ _ _ => ?_
  refine .next U (.log _) (.aside (.log _)) fun _ => .deeper ?_
  exact run_tracks U hc (U.scope_later hυ.step hs) c

variable (hh : TrackedBy L host)
include hh

theorem once_tracks {enter enter' : BlockCaller} (he : TracksEnters L enter enter')
    (hc : TracksCalls L call call') : TracksCalls L (once host enter call) (once host enter' call') := by
  intro σ f i h
  refine .next U (quiet_announce f i) (.announce f i) fun _ => ?_
  split
  next v _ _ _ => exact .value U fun _ hτ => U.value_later hτ.step (U.var.1 h.function)
  next c p => exact he σ c p i h
  next g =>
      cases hg : g.impl with
      | builtin b => exact builtin_tracks U hc h.served b
      | host key => exact hh _ _ hc key σ i h.served
  next => exact .read U (.inspect _) fun _ => .read U (.className _) fun _ => .fail U _

variable {w : Watch} (hw : Heeds (Attended L) w)
include hw

omit hh in
theorem watch_tracks (hc : TracksCalls L call call') : TracksCalls L call (w call') := by
  intro σ f i h st hst htold
  rw [hw call' f i st ⟨hst.inv, htold, h.later U hst⟩]
  exact hc σ f i h st hst htold

theorem watchedDispatch_tracks {enter enter' : BlockCaller} (he : TracksEnters L enter enter')
    (depth : Nat) :
    TracksCalls L (dispatch host enter depth) (watchedDispatch w host enter' depth) := by
  induction depth with
  | zero => exact fun σ f i _ => .fail U _
  | succ depth ih =>
      rw [dispatch_succ, watchedDispatch]
      exact watch_tracks U hw (once_tracks U hh he ih)

theorem watchedEnter_tracks (room : Nat) :
    TracksEnters L (enterBlock host room) (watchedEnter w host room) := by
  -- on the levels that are left: what the block calls is entered with one less
  induction room with
  | zero => exact fun σ c p i _ => .fail U _
  | succ room ih =>
      exact enter_tracks U fun σ f i h => watchedDispatch_tracks U hh hw ih _ σ f i h

theorem watchedCall_tracks (room : Nat) : TracksCalls L (callWith host (enterBlock host room))
    (watchedCall w host (watchedEnter w host room)) :=
  fun σ f i h => watchedDispatch_tracks U hh hw (watchedEnter_tracks U hh hw room) _ σ f i h

theorem watched_tracks : TracksCalls L (caller host) (watched w host) :=
  fun σ f i h => .read U .get fun _ => watchedCall_tracks U hh hw _ σ f i h

theorem askedOf_tracks {q : Request} (hq : L.Asks σ q) :
    Tracks L σ (q.askedOf (caller host)) (q.askedOf (watched w host)) L.value := by
  have hcalls := watched_tracks U hh hw
  cases q with
  | eval t s =>
      refine .next U (.visit t) (.visit t) fun _ => ?_
      split
      · exact run_tracks U hcalls hq _
      · exact evalTerm_tracks U hcalls hq _
  | run c s => exact run_tracks U hcalls hq c
  | runIn c s => exact runIn_tracks U hcalls hq c
  | call f i => exact hcalls σ f i hq

omit hw

/-- Whatever the evaluator is asked under the law, it keeps it to the end, and at every call on the
way. -/
theorem perform_attended {q : Request} {st : State} (hinv : L.inv st.store)
    (hframes : Told L st.store st.frames) (hq : L.Asks st.store q) :
    AtCalls host (Attended L) q.askedOf st ∧ Lawful L st (q.perform host st) L.value := by
  have hst : L.Later st.store st.store := ⟨U.refl _, hinv⟩
  constructor
  · intro w hw
    exact (askedOf_tracks U hh hw hq st hst hframes).1
  · have hid : Heeds (Attended L) id := fun _ _ _ _ _ => rfl
    exact (askedOf_tracks U hh hid hq st hst hframes).2

end Calls

end BlockScript.Proofs.Watching
