import BlockScript.Proofs.Foundations
import BlockScript.Proofs.Modules

namespace BlockScript.Proofs.Ancestry

open Eval Evaluator Faulting Foundations Hosting Law Parameters Records Running Watching Writing
open Seclusion (holds_bare)

variable {σ τ base : Store} {st : State} {s p : ScopeId} {c : Code} {i : Invocation} {m : Module}
  {host : Host} {a b : Stage}

section Bodies

/-- Once there is the scope for the body of the block that is called in the state, it belongs for good to
the scope of the call, which has the record of the call. -/
def Belongs (p : ScopeId) (i : Invocation) (st : State) (σ : Store) : Prop :=
  bodyScope st < σ.size → ∀ τ, Enduring σ τ →
    Begun p i st.store.size τ ∧ τ.callScope? (bodyScope st) = some st.store.size

theorem belongs_of_begun (h : Begun p i st.store.size σ) : Belongs p i st σ :=
  fun _ _ hτ => ⟨h.later hτ, (h.later hτ).callScope⟩

theorem later_opened (h : (foundation base).inv st.store)
    (hc : (foundation base).Callable st.store (.block c p) i) :
    (foundation base).Later st.store (opened st.store st.marks c p i) := by
  have U := foundation_upheld base
  obtain ⟨hcall, hscope⟩ :=
    U.newCall (a := ⟨i.args, i.block, i.scope⟩) h hc.function hc.args hc.block hc.site
  have hargs : ∀ q ∈ c.params.zip i.args, (foundation base).value _ q.2 := fun q hq =>
    U.value_later hcall.step (hc.args _ (List.of_mem_zip hq).2)
  have hbind := bindParams_meets U hscope hargs { st with store := st.store.alloc (callScope p i) }
    ⟨U.refl _, hcall.inv⟩
  rw [bindParams_prepare] at hbind
  obtain ⟨hblock, -⟩ := U.newBlock hbind.1.inv (U.scope_later hbind.1.step hscope)
  exact ⟨U.trans hcall.step (U.trans hbind.1.step hblock.step), hblock.inv⟩

theorem begun_opened (σ : Store) (marks : Nat) (c : Code) (p : ScopeId) (i : Invocation) :
    Begun p i σ.size (opened σ marks c p i) := by
  have h := opens_opened σ marks c p i
  constructor
  · rw [h.size]
    exact Nat.lt_succ_self _
  · rw [h.callScope]
    rfl
  · rw [h.callScope]
    rfl
  · rw [h.body]
    rfl

theorem enter_begun (ho : InOrder st) (hc : doing.Callable st.store (.block c p) i)
    (hroom : st.depth < st.limit) :
    ∃ st' : State, InOrder st' ∧ Begun p i st.store.size st'.store ∧
      ∀ call, Unbounded.enter call c p i st = left (runIn call (bodyScope st) c st') := by
  obtain ⟨debug, hrun⟩ := enter_runIn c p i st hroom
  have hlater := later_opened ⟨ho.founded, .refl st.store⟩ (callable_foundation hc)
  have hframes := (ho.told st.store).later (foundation_upheld st.store) hlater
  exact ⟨started c p i { st with debug }, ⟨hlater.inv.1, hframes⟩,
    begun_opened st.store st.marks c p i, hrun⟩

theorem store_left (out : Except Failure Term × State) : (left out).2.store = out.2.store :=
  store_noteBound _ _

theorem enter_full (call : Caller) (h : ¬st.depth < st.limit) :
    Unbounded.enter call c p i st = fail (.depthExceeded st.limit st.depth) st := by
  rw [Unbounded.enter, bind_of_ok (get_apply st), if_pos (Nat.le_of_not_lt h)]

theorem belongs_self (p : ScopeId) (i : Invocation) (st : State) : Belongs p i st st.store :=
  fun h => absurd h (Nat.not_lt.2 (Nat.le_succ _))

theorem enter_belongs (hh : Founds host) (st : State) {w : Watch}
    (hw : Heeds (fun _ _ st' => Belongs p i st st'.store) w) (ho : InOrder st)
    (hc : doing.Callable st.store (.block c p) i) (room : Nat) :
    watchedEnter w host (room + 1) c p i st = enterBlock host (room + 1) c p i st ∧
      Belongs p i st (enterBlock host (room + 1) c p i st).2.store := by
  change Unbounded.enter (watchedCall w host (watchedEnter w host room)) c p i st =
      Unbounded.enter (callWith host (enterBlock host room)) c p i st ∧
    Belongs p i st (Unbounded.enter (callWith host (enterBlock host room)) c p i st).2.store
  by_cases hroom : st.depth < st.limit
  · obtain ⟨st', ho', hbegun, hrun⟩ := enter_begun ho hc hroom
    -- the law is that of the store in which the first statement starts: there the scopes are made
    have U := foundation_upheld st'.store
    have hw' : Heeds (Attended (foundation st'.store)) w := fun call f j st'' h =>
      hw call f j st'' (belongs_of_begun (hbegun.later h.inv.2))
    have hcalls := watchedCall_tracks U (hh.tracked st'.store) hw' room
    obtain ⟨hsame, hlawful⟩ := runIn_tracks U hcalls hbegun.size c st'
      ⟨U.refl _, ho'.founded, .refl _⟩ (ho'.told _)
    rw [hrun, hrun, bodyScope, hsame, store_left]
    exact ⟨rfl, belongs_of_begun (hbegun.later hlawful.later.step.enduring)⟩
  · -- at the limit nothing is made
    rw [enter_full _ hroom, enter_full _ hroom]
    exact ⟨rfl, belongs_self p i st⟩

theorem call_belongs (hh : Founds host) (ho : InOrder st)
    (hc : doing.Callable st.store (.block c p) i) :
    AtCalls host (fun _ _ st' => Belongs p i st st'.store) (fun call => call (.block c p) i) st ∧
      Belongs p i st (caller host (.block c p) i st).2.store := by
  obtain ⟨debug, hannounce⟩ := Depth.announce_apply (.block c p) i st
  have hbody {w : Watch} (hw : Heeds (fun _ _ st' => Belongs p i st st'.store) w) (room : Nat) :=
    enter_belongs hh { st.note (.called (.block c p) i) with debug } hw ⟨ho.founded, ho.frames⟩ hc room
  have hcaller : caller host (.block c p) i st =
      enterBlock host (st.limit - st.depth + host.reach + 1) c p i
        { st.note (.called (.block c p) i) with debug } := by
    rw [caller, bind_of_ok (get_apply st), callWith, Likeness.dispatch_succ]
    exact bind_of_ok hannounce
  constructor
  · intro w hw
    change watched w host (.block c p) i st = caller host (.block c p) i st
    rw [hcaller, ← (hbody hw _).1, watched, bind_of_ok (get_apply st), watchedCall, watchedDispatch,
      hw _ _ _ _ (belongs_self p i st)]
    exact bind_of_ok hannounce
  · have hid : Heeds (fun _ _ st' => Belongs p i st st'.store) id := fun _ _ _ _ _ => rfl
    rw [hcaller]
    exact (hbody hid _).2

end Bodies

section Sessions

structure Standing (a : Stage) : Prop where
  order : InOrder a.session.state
  root : a.session.root < a.store.size
  global : a.session.global < a.store.size
  made : ∀ m ∈ a.ledger.made, m.scope < a.store.size

theorem frames_newModule {s s' : Session} {name : String} {natives : List (String × Impl)}
    (h : s.newModule name natives = .ok (m, s')) : s'.state.frames = s.state.frames := by
  obtain ⟨marks, hmint⟩ := mintAll_state s natives
  rw [Session.newModule] at h
  generalize s.mintAll natives = minted at h hmint
  obtain ⟨fs, t⟩ := minted
  obtain rfl : t = _ := hmint
  obtain ⟨σ, -, h⟩ := bind_ok h
  obtain ⟨-, rfl⟩ := Prod.mk.inj (Except.ok.inj h)
  rfl

theorem frames_registers {name : String} {impl : Impl} (h : a.registers m name impl = .ok b) :
    b.session.state.frames = a.session.state.frames := by
  obtain ⟨σ, -, h⟩ := bind_ok h
  obtain rfl := Except.ok.inj h
  rfl

theorem frames_addModule {s s' : Session} (h : s.addModule m = .ok s') :
    s'.state.frames = s.state.frames := by
  obtain ⟨σ, -, h⟩ := bind_ok h
  obtain rfl := Except.ok.inj h
  rfl

theorem register_later (h : (foundation base).inv σ) (hm : m.scope < σ.size) {f : Native}
    (hd : m.register σ f = .ok τ) : (foundation base).Later σ τ :=
  later_of_deed h (.define (f := .native f) hm trivial hd)

theorem registerAll_later (h : (foundation base).inv σ) (hm : m.scope < σ.size) {fs : List Native}
    (hr : m.registerAll σ fs = .ok τ) : (foundation base).Later σ τ := by
  have U := foundation_upheld base
  refine registerAll_keeps (fun hlater hf => ?_) ⟨U.refl σ, h⟩ hr
  have hregister := register_later hlater.inv (Nat.lt_of_lt_of_le hm hlater.step.enduring.size) hf
  exact ⟨U.trans hlater.step hregister.step, hregister.inv⟩

namespace Standing

theorem inv (h : Standing a) : (foundation a.store).inv a.store :=
  ⟨h.order.founded, .refl _⟩

theorem later (h : Standing a) (hl : (foundation a.store).Later a.store b.store)
    (hframes : b.session.state.frames = a.session.state.frames)
    (hroot : b.session.root = a.session.root) (hglobal : b.session.global = a.session.global)
    (hmade : ∀ m ∈ b.ledger.made, m ∈ a.ledger.made ∨ m.scope < b.store.size) : Standing b where
  order := by
    refine ⟨hl.inv.1, ?_⟩
    rw [hframes]
    exact (h.order.told a.store).later (foundation_upheld _) hl
  root := by
    rw [hroot]
    exact Nat.lt_of_lt_of_le h.root hl.step.enduring.size
  global := by
    rw [hglobal]
    exact Nat.lt_of_lt_of_le h.global hl.step.enduring.size
  made m hm := by
    obtain hold | hnew := hmade m hm
    · exact Nat.lt_of_lt_of_le (h.made m hold) hl.step.enduring.size
    · exact hnew

theorem reset (h : Standing a) : Deed a.store a.session.ready.store :=
  .reset h.global

theorem ready (h : Standing a) : InOrder a.session.ready :=
  ⟨h.order.founded.deed h.reset, List.forall_mem_nil _⟩

theorem orderly (hh : Founds host) (h : Standing a) (c : Code) :
    Orderly host (.runIn c a.session.global) a.session.ready :=
  Foundations.orderly hh h.ready (Nat.lt_of_lt_of_le h.global h.reset.enduring.size)

theorem step (hh : Founds host) (h : Standing a) (hs : Step host a b) :
    Standing b ∧ Enduring a.store b.store := by
  have U := foundation_upheld a.store
  cases hs with
  | @make l s m s' name natives hn =>
      obtain ⟨rfl, hr, hroot, hglobal⟩ := newModule_cases hn
      obtain ⟨halloc, hscope⟩ := later_alloc (c := {}) h.inv (.plain nofun) rfl rfl
      have hall := registerAll_later halloc.inv hscope hr
      have hlater : (foundation s.state.store).Later s.state.store s'.state.store :=
        ⟨U.trans halloc.step hall.step, hall.inv⟩
      refine ⟨h.later hlater (frames_newModule hn) hroot hglobal fun m hm => ?_, hlater.step.enduring⟩
      obtain rfl | hm := List.mem_cons.1 hm
      · exact .inr (Nat.lt_of_lt_of_le hscope hall.step.enduring.size)
      · exact .inl hm
  | register name impl hm hr =>
      obtain ⟨f, -, hd, hl, hroot, hglobal⟩ := registers_cases hr
      have hlater := register_later h.inv (h.made _ hm) hd
      refine ⟨h.later hlater (frames_registers hr) hroot hglobal fun m hm => ?_, hlater.step.enduring⟩
      rw [hl] at hm
      exact .inl hm
  | @install l s m s' hm ha =>
      obtain ⟨hi, hroot, hglobal⟩ := addModule_cases ha
      have hlater : (foundation s.state.store).Later s.state.store s'.state.store := by
        obtain hstore | hstore := install_cases hi
        · rw [hstore]
          exact later_of_deeds h.inv .refl
        · rw [hstore]
          have hmixins : ∀ t ∈ m.scope :: (s.state.store.get s.root).mixins, t < s.state.store.size :=
            List.forall_mem_cons.2 ⟨h.made m hm, h.order.founded.mixins s.root⟩
          exact later_of_deed h.inv (.setMixins h.root hmixins)
      refine ⟨h.later hlater (frames_addModule ha) hroot hglobal fun m hm => ?_, hlater.step.enduring⟩
      rw [Ledger.install] at hm
      split at hm
      all_goals exact .inl hm
  | @run l s c =>
      have hrun := h.orderly hh c
      have hendures : Enduring s.state.store (s.run host c).2.state.store := by
        rw [store_run]
        exact h.reset.enduring.trans hrun.endures
      obtain ⟨effects, hstate⟩ := run_state host s c
      have horder : InOrder (s.run host c).2.state := by
        rw [hstate]
        exact ⟨hrun.order.founded, hrun.order.frames⟩
      have hroot : (s.run host c).2.root = s.root := by rw [hstate]
      have hglobal : (s.run host c).2.global = s.global := by rw [hstate]
      have hlt (t : ScopeId) (ht : t < s.state.store.size) :
          t < (s.run host c).2.state.store.size := Nat.lt_of_lt_of_le ht hendures.size
      exact ⟨⟨horder, hroot ▸ hlt _ h.root, hglobal ▸ hlt _ h.global, fun m hm => hlt _ (h.made m hm)⟩,
        hendures⟩

theorem path (hh : Founds host) (h : Standing a) (hp : Path host a b) :
    Standing b ∧ Enduring a.store b.store := by
  induction hp with
  | refl => exact ⟨h, .refl _⟩
  | tail _ hs ih =>
      obtain ⟨hstanding, hendures⟩ := ih.1.step hh hs
      exact ⟨hstanding, ih.2.trans hendures⟩

theorem bare (limit : Nat) (debugging : Bool) : Standing ⟨{}, .bare limit debugging⟩ where
  order := by
    refine ⟨⟨fun s => older_of_holds (holds_bare s id), fun s => holds_bare s fun _ => Nat.zero_lt_two,
      fun s m hm => ?_, Definitions.tidy_bare limit debugging⟩, nofun⟩
    have hmixins : ((Session.bare limit debugging).state.store.get s).mixins = [] := by
      rcases s with _ | _ | s
      · rfl
      · rfl
      · exact congrArg Scope.mixins (get_of_size_le (Nat.le_add_left 2 s))
    rw [hmixins] at hm
    cases hm
  root := Nat.zero_lt_two
  global := Nat.one_lt_two
  made := nofun

theorem reachable (hh : Founds host) (ha : Reachable host a) : Standing a := by
  obtain ⟨limit, debugging, hpath⟩ := ha
  exact ((bare limit debugging).path hh hpath).1

end Standing

end Sessions

/-- Whatever a host and its scripts do, all that there is refers to scopes that there are, and a scope to
older ones: between scripts, whenever something is called in a script, and when a script ends or fails.
The scope of a block's body belongs to the call of the block for good. -/
theorem heap_founded (hh : Founds host) (ha : Reachable host a) :
    (Standing a ∧ Navigable a.store) ∧
    (∀ b, Path host a b → Enduring a.store b.store ∧
      ∀ s c, BodyOf a.store s c → b.store.callScope? s = some c) ∧
    (∀ c, Orderly host (.runIn c a.session.global) a.session.ready) ∧
    ∀ base st c p i, Intact base (.block c p) i st →
      AtCalls host (fun _ _ st' => Belongs p i st st'.store) (fun call => call (.block c p) i) st ∧
        Belongs p i st (caller host (.block c p) i st).2.store := by
  have h := Standing.reachable hh ha
  refine ⟨⟨h, h.order.founded.navigable⟩, fun b hb => ?_, h.orderly hh, fun base st c p i hi => ?_⟩
  · obtain ⟨hstanding, hendures⟩ := h.path hh hb
    exact ⟨hendures, fun s c hbody => hstanding.order.founded.callScope (hbody.later hendures)⟩
  · exact call_belongs hh hi.order hi.callable

def calling : Code :=
  ⟨[.call "fn" [.ref "f" none] (some ⟨[.num 1], []⟩), .call "f" [] none], []⟩

theorem heap_founded_calling :
    let b : Stage := ⟨Modules.tooled.ledger, (Modules.tooled.session.run Kit.host calling).2⟩
    Founds Kit.host ∧ Reachable Kit.host b ∧ BodyOf b.store 4 3 ∧ Standing b ∧
      ∀ d, Path Kit.host b d → d.store.callScope? 4 = some 3 := by
  intro b
  have hb : Reachable Kit.host b := (Modules.reachable_tooled Kit.host).path (.single (.run calling))
  have hbody : BodyOf b.store 4 3 := ⟨⟨false, rfl⟩, rfl, _, rfl⟩
  obtain ⟨⟨hstanding, -⟩, hpath, -⟩ := heap_founded kit_founds hb
  exact ⟨kit_founds, hb, hbody, hstanding, fun d hd => (hpath d hd).2 4 3 hbody⟩

end BlockScript.Proofs.Ancestry
