import BlockScript.Proofs.Blur
import BlockScript.Proofs.LikenessKit
import BlockScript.Proofs.ReturnSlots

namespace BlockScript.Proofs.CallSite

open Eval Evaluator Running ReturnSlots LikenessKit

variable {α β : Type} {n : Nat} {st st' : State}

def blurState (n : Nat) (st : State) : State :=
  { st with store := blur n st.store, history := [] }

/-- The states differ at most in where calls come from that were made since there were `n` scopes,
and in all of them the yield blocks are blocks. -/
structure Similar (n : Nat) (st st' : State) : Prop where
  blurred : blurState n st = blurState n st'
  size : n ≤ st.store.size
  yields : YieldsBlocks st.store

namespace Similar

variable (h : Similar n st st')

include h

theorem store : blur n st.store = blur n st'.store :=
  congrArg State.store h.blurred

theorem store_size : st.store.size = st'.store.size := by
  have hs := congrArg Store.size h.store
  simpa using hs

theorem limit : st.limit = st'.limit := by
  have hf := congrArg State.limit h.blurred
  exact hf

theorem depth : st.depth = st'.depth := by
  have hf := congrArg State.depth h.blurred
  exact hf

theorem frames : st.frames = st'.frames := by
  have hf := congrArg State.frames h.blurred
  exact hf

theorem reading {g : Store → β} (hg : ∀ σ, g (blur n σ) = g σ) : g st.store = g st'.store := by
  rw [← hg st.store, h.store, hg]

theorem change {F G : State → State} (hF : ∀ st, blurState n (F (blurState n st)) = blurState n (F st))
    (hG : ∀ st, blurState n (G st) = blurState n (F st)) (hs : ∀ st, (F st).store = st.store) :
    Similar n (F st) (G st') where
  blurred := by rw [hG, ← hF st, h.blurred, hF st']
  size := by rw [hs]; exact h.size
  yields := by rw [hs]; exact h.yields

theorem map {F : State → State} (hF : ∀ st, blurState n (F (blurState n st)) = blurState n (F st))
    (hs : ∀ st, (F st).store = st.store) : Similar n (F st) (F st') :=
  h.change hF (fun _ => rfl) hs

theorem note (e e' : Event) : Similar n (st.note e) (st'.note e') :=
  h.change (F := fun st => st.note e) (G := fun st => st.note e')
    (fun _ => by simp [blurState, State.note]) (fun _ => rfl) fun _ => rfl

theorem withStore {σ τ : Store} (hστ : blur n σ = blur n τ) (hs : n ≤ σ.size)
    (hy : YieldsBlocks σ) : Similar n { st with store := σ } { st' with store := τ } where
  blurred := by
    have hb := congrArg (fun st : State => { st with store := blur n σ }) h.blurred
    simpa only [blurState, hστ] using hb
  size := hs
  yields := hy

end Similar

def Outcomes (P : α → α → Prop) : Except Failure α → Except Failure α → Prop
  | .ok a, .ok b => P a b
  | .error e, .error f => e = f
  | _, _ => False

theorem outcomes_eq_iff {r r' : Except Failure α} : Outcomes Eq r r' ↔ r = r' := by
  cases r with
  | ok a => cases r' <;> simp [Outcomes]
  | error e => cases r' <;> simp [Outcomes]

def siteBlind (n : Nat) : Likeness where
  rel P m m' := ∀ st st', Similar n st st' →
    Outcomes P (m st).1 (m' st').1 ∧ Similar n (m st).2 (m' st').2
  block := IsBlock

theorem pure_like {P : α → α → Prop} {a b : α} (h : P a b) :
    (siteBlind n).rel P (pure a) (pure b) :=
  fun _ _ hs => ⟨h, hs⟩

theorem fail_like {P : α → α → Prop} (f : Fault) : (siteBlind n).rel P (fail f) (fail f) :=
  fun _ _ hs => ⟨rfl, hs.note _ _⟩

theorem bind_like {P : α → α → Prop} {Q : β → β → Prop} {m m' : Eval α} {k k' : α → Eval β}
    (hm : (siteBlind n).rel P m m') (hk : ∀ a b, P a b → (siteBlind n).rel Q (k a) (k' b)) :
    (siteBlind n).rel Q (m >>= k) (m' >>= k') := by
  intro st st' hs
  obtain ⟨ho, hs'⟩ := hm st st' hs
  rw [bind_apply, bind_apply]
  rcases h : m st with ⟨e | a, τ⟩
  all_goals rcases h' : m' st' with ⟨e' | a', τ'⟩
  all_goals simp only [h, h', Outcomes] at ho hs'
  · exact ⟨ho, hs'⟩
  · exact hk a a' ho τ τ' hs'

theorem modify_same {F : State → State}
    (hF : ∀ st, blurState n (F (blurState n st)) = blurState n (F st))
    (hs : ∀ st, (F st).store = st.store) : (siteBlind n).Same (modify F) :=
  fun _ _ h => ⟨rfl, h.map hF hs⟩

theorem reading_like {P : α → α → Prop} {k : Store → Eval α} (hk : ∀ σ, k (blur n σ) = k σ)
    (h : ∀ σ, (siteBlind n).rel P (k σ) (k σ)) :
    (siteBlind n).rel P (getStore >>= k) (getStore >>= k) := by
  intro st st' hs
  rw [bind_of_ok (getStore_apply st), bind_of_ok (getStore_apply st'), hs.reading hk]
  exact h _ st st' hs

theorem ofExcept_same (r : Except Fault α) : (siteBlind n).Same (Eval.ofExcept r) := by
  cases r with
  | ok a => exact pure_like rfl
  | error f => exact fail_like f

theorem observe_same {g : Store → Except Fault α} (hg : ∀ σ, g (blur n σ) = g σ) :
    (siteBlind n).Same (getStore >>= fun σ => Eval.ofExcept (g σ)) :=
  reading_like (fun σ => by rw [hg]) fun σ => ofExcept_same (g σ)

theorem peek_same {g : Store → α} (hg : ∀ σ, g (blur n σ) = g σ) :
    (siteBlind n).Same (getStore >>= fun σ => pure (g σ)) :=
  reading_like (fun σ => by rw [hg]) fun _ => pure_like rfl

theorem modifyStore_same {f : Store → Store} (hf : ∀ σ, f (blur n σ) = blur n (f σ))
    (hs : ∀ σ, (f σ).size = σ.size) (hy : ∀ σ, YieldsBlocks σ → YieldsBlocks (f σ)) :
    (siteBlind n).Same (modifyStore f) := by
  intro st st' h
  refine ⟨rfl, h.withStore ?_ ?_ (hy _ h.yields)⟩
  · rw [← hf, h.store, hf]
  · rw [hs]
    exact h.size

theorem updateStore_same {f : Store → Except Fault Store}
    (hf : ∀ σ, f (blur n σ) = (f σ).map (blur n)) (hs : ∀ σ τ, f σ = .ok τ → τ.size = σ.size)
    (hy : ∀ σ τ, f σ = .ok τ → YieldsBlocks σ → YieldsBlocks τ) :
    (siteBlind n).Same (updateStore f) := by
  intro st st' h
  have hmap : (f st.store).map (blur n) = (f st'.store).map (blur n) := by
    rw [← hf, h.store, hf]
  rw [updateStore_apply, updateStore_apply]
  cases hσ : f st.store with
  | error e =>
      cases hτ : f st'.store with
      | error e' =>
          rw [hσ, hτ] at hmap
          obtain rfl : e = e' := Except.error.inj hmap
          exact ⟨rfl, h.note _ _⟩
      | ok τ =>
          rw [hσ, hτ] at hmap
          cases hmap
  | ok σ =>
      cases hτ : f st'.store with
      | error e' =>
          rw [hσ, hτ] at hmap
          cases hmap
      | ok τ =>
          rw [hσ, hτ] at hmap
          refine ⟨rfl, h.withStore (Except.ok.inj hmap) ?_ (hy _ _ hσ h.yields)⟩
          rw [hs _ _ hσ]
          exact h.size

theorem alloc_like {c d : Scope} (hcd : unsited c = unsited d)
    (hy : ∀ a, c.kind = .call a → ∀ t ∈ a.yieldBlock, IsBlock t) :
    (siteBlind n).rel Eq (Eval.alloc c) (Eval.alloc d) := by
  intro st st' h
  refine ⟨h.store_size, h.withStore ?_ ?_ (h.yields.alloc hy)⟩
  · have hn : n ≤ st'.store.size := h.store_size ▸ h.size
    rw [← alloc_blur h.size rfl, h.store, alloc_blur hn hcd]
  · rw [Store.size_alloc]
    exact Nat.le_succ_of_le h.size

theorem className_same (t : Term) : (siteBlind n).Same (Eval.className t) :=
  peek_same fun σ => className_blur σ t

theorem log_same (line : String) : (siteBlind n).Same (Eval.log line) := by
  apply modify_same
  · intro st
    by_cases h : st.debugging
    · simp [blurState, h]
    · simp [blurState, h]
  · intro st
    split
    · rfl
    · rfl

theorem announce_like {f : Term} {i j : Invocation} (ha : i.args = j.args)
    (hb : i.block = j.block) : (siteBlind n).rel Eq (announce f i) (announce f j) := by
  rw [announce, announce, ha, hb]
  refine bind_like (P := Eq) (fun _ _ hs => ⟨rfl, hs.note _ _⟩) fun _ _ _ => ?_
  refine bind_like (className_same f) fun name _ h => ?_
  cases h
  exact log_same _

theorem freshMark_same : (siteBlind n).Same Eval.freshMark := by
  intro st st' h
  have hm : st.marks = st'.marks := by
    have hf := congrArg State.marks h.blurred
    exact hf
  refine ⟨congrArg Nat.succ hm, ?_⟩
  exact h.map (F := fun st => { st with marks := st.marks + 1 }) (fun _ => by simp [blurState])
    fun _ => rfl

theorem visit_same (t : Term) : (siteBlind n).Same (Eval.visit t) := by
  refine bind_like (modify_same (fun _ => ?_) fun _ => rfl) fun _ _ _ => ?_
  · simp [blurState]
  · exact fun _ _ hs => ⟨rfl, hs.note _ _⟩

theorem displayLine_same (ts : List Term) : (siteBlind n).Same (Eval.displayLine ts) := by
  refine reading_like (fun σ => ?_) fun σ => bind_like (ofExcept_same _) fun texts _ h => ?_
  · have hd : (blur n σ).display standardWidth = σ.display standardWidth :=
      funext fun t => display_blur σ standardWidth t
    rw [hd]
  · cases h
    exact pure_like rfl

theorem underFrame_like {frame : Frame} {m m' : Eval Term} (h : (siteBlind n).rel Eq m m') :
    (siteBlind n).rel Eq (Eval.underFrame frame m) (Eval.underFrame frame m') := by
  intro st st' hs
  have hpush : Similar n (st.push frame) (st'.push frame) :=
    hs.map (F := fun st => st.push frame) (fun _ => by simp [blurState, State.push]) fun _ => rfl
  obtain ⟨ho, hm⟩ := h _ _ hpush
  rw [underFrame_apply, underFrame_apply, hm.frames, outcomes_eq_iff.1 ho]
  refine ⟨outcomes_eq_iff.2 rfl, ?_⟩
  exact hm.map (F := State.pop) (fun _ => by simp [blurState, State.pop]) fun _ => rfl

theorem activation_like (op : Builtin) (i : Invocation) :
    (siteBlind n).rel (siteBlind n).Matching (op.activation i) (op.activation i) := by
  intro st st' hs
  rw [Builtin.activation, bind_of_ok (getStore_apply st), bind_of_ok (getStore_apply st')]
  have hscope (σ : Store) : (blur n σ).callScope? = σ.callScope? :=
    funext fun s => callScope_blur σ s
  have hc : i.scope.bind st.store.callScope? = i.scope.bind st'.store.callScope? :=
    hs.reading (g := fun σ => i.scope.bind σ.callScope?) fun σ => by rw [hscope]
  rw [hc]
  cases i.scope.bind st'.store.callScope? with
  | none => exact fail_like _ st st' hs
  | some c =>
      have hk := hs.reading (g := fun σ => (σ.get c).kind.activation?.map (withSite none))
        fun σ => reading_blur σ c (g := fun d => d.kind.activation?.map (withSite none))
          fun d => by rw [activation_unsited, Option.map_map]; rfl
      simp only [Option.bind_some]
      cases ha : (st.store.get c).kind.activation? with
      | none =>
          cases hb : (st'.store.get c).kind.activation? with
          | none => exact fail_like _ st st' hs
          | some b => simp [ha, hb] at hk
      | some a =>
          cases hb : (st'.store.get c).kind.activation? with
          | none => simp [ha, hb] at hk
          | some b =>
              have hy := yieldsBlocks_iff.1 hs.yields c a ha
              simp only [ha, hb, Option.map_some, Option.some.injEq, withSite, Activation.mk.injEq]
                at hk
              exact ⟨⟨hk.1, hk.2.1, hy, .inr hy⟩, hs⟩

theorem siteBlind_kept (n : Nat) : (siteBlind n).Kept where
  closure c s := ⟨c, s, rfl⟩
  pure := pure_like
  bind := bind_like
  fail f _ := fail_like f
  underFrame := underFrame_like
  announce _ := announce_like rfl rfl
  visit := visit_same
  log := log_same
  write line := modify_same (fun _ => by simp [blurState]) fun _ => rfl
  freshMark := freshMark_same
  lookup s name := observe_same fun σ => lookup_blur σ s name
  binds s name := observe_same fun σ => binds_blur σ s name
  define s name f := updateStore_same (fun σ => define_blur σ s name f)
    (fun _ _ h => Writing.size_define h) fun _ _ h hy => hy.define h
  remove s name := updateStore_same (fun σ => remove_blur σ s name)
    (fun _ _ h => Writing.size_remove h) fun _ _ h hy => hy.remove h
  returned s := peek_same fun σ => returned_blur σ s
  setReturned s t := modifyStore_same (fun σ => setReturned_blur σ s t)
    (fun _ => Store.size_modify _) fun _ hy => hy.setReturned s t
  isBroken s := peek_same fun σ => isBroken_blur σ s
  breakOff s := modifyStore_same (fun σ => breakOff_blur σ s)
    (fun _ => Store.size_modify _) fun _ hy => hy.breakOff s
  numeral k := observe_same fun _ => rfl
  source t := observe_same fun σ => source_blur σ _ _ t
  inspect t := observe_same fun σ => inspect_blur σ t
  typeName t := observe_same fun σ => typeName_blur σ t
  className := className_same
  displayLine := displayLine_same
  newBlock p := alloc_like rfl (by simp)
  newList xs := bind_like (alloc_like rfl (by simp)) fun _ _ h => pure_like (by rw [h])
  activation := activation_like

theorem blurState_noteBound (r : Except Failure α) (st : State) :
    blurState n (noteBound r st) = blurState n st := by
  cases r with
  | ok a => rfl
  | error e =>
      rw [noteBound]
      split
      · rfl
      · rfl

theorem deeper_like {m m' : Eval Term} (h : (siteBlind n).rel Eq m m') :
    (siteBlind n).rel Eq (deeper m) (deeper m') := by
  intro st st' hs
  have henter : Similar n st.enter st'.enter :=
    hs.map (F := State.enter) (fun _ => by simp [blurState, State.enter, State.note]) fun _ => rfl
  obtain ⟨ho, hm⟩ := h _ _ henter
  rw [deeper_apply, deeper_apply, hm.limit, hm.depth, outcomes_eq_iff.1 ho]
  refine ⟨outcomes_eq_iff.2 rfl, ?_⟩
  generalize (m' st'.enter).1 = r
  have hnote : Similar n (noteBound r (m st.enter).2) (noteBound r (m' st'.enter).2) :=
    hm.map (F := noteBound r)
      (fun st => by rw [blurState_noteBound, blurState_noteBound]; simp [blurState])
      fun _ => store_noteBound _ _
  exact hnote.map (F := State.leave) (fun _ => by simp [blurState, State.leave, State.note])
    fun _ => rfl

section Calls

variable {host : Host}

/-- The host's natives do not see where calls come from: as long as the evaluator that they call
back compares on similar states, so do they. They hand over blocks for yield blocks. -/
def IgnoresSites (host : Host) : Prop :=
  ∀ n, (siteBlind n).Hosts host host

theorem siteBlind_levelled (n : Nat) : (siteBlind n).Levelled where
  announce h := announce_like h.args h.block
  level h := by
    intro st st' hs
    rw [bind_of_ok (get_apply st), bind_of_ok (get_apply st')]
    exact h st st' hs.limit hs.depth st st' hs
  refused _ _ := fail_like _
  newCall {c p i j} h := by
    -- the two call scopes differ in nothing but their sites
    rw [h.args, h.block]
    apply alloc_like
    · rfl
    · rintro a ⟨⟩ t ht
      exact h.yields t (h.block ▸ ht)
  deeper := deeper_like

theorem caller_calls (hh : IgnoresSites host) : (siteBlind n).Calls (caller host) (caller host) :=
  Likeness.caller_calls (siteBlind_kept n) (siteBlind_levelled n) (hh n)

end Calls

/-- A block does not depend on where it is called from: two calls that differ in nothing else end in
the same way, and leave states that differ in nothing but where the calls made meanwhile came from. -/
theorem call_block_site {host : Host} (hh : IgnoresSites host) {st : State}
    (hst : YieldsBlocks st.store) (c : Code) (closure : ScopeId) (args : List Term)
    {block : Option Term} (hb : ∀ t ∈ block, IsBlock t) (s₁ s₂ : Option ScopeId) :
    let r₁ := caller host (.block c closure) ⟨args, block, s₁⟩ st
    let r₂ := caller host (.block c closure) ⟨args, block, s₂⟩ st
    r₁.1 = r₂.1 ∧ blurState st.store.size r₁.2 = blurState st.store.size r₂.2 := by
  have hs : Similar st.store.size st st := ⟨rfl, Nat.le_refl _, hst⟩
  have h := caller_calls hh (.block c closure) ⟨args, block, s₁⟩ ⟨args, block, s₂⟩
    ⟨rfl, rfl, hb, .inr ⟨c, closure, rfl⟩⟩ st st hs
  exact ⟨outcomes_eq_iff.1 h.1, h.2.blurred⟩

theorem siteBlind_equipped (n : Nat) : Equipped (siteBlind n) where
  read {α P k k'} h := by
    intro st st' hs
    rw [bind_of_ok (getStore_apply st), bind_of_ok (getStore_apply st')]
    refine h _ _ ⟨fun s => ?_, fun s => ?_, fun a b => ?_, fun t => ?_⟩ st st' hs
    · exact hs.reading (g := fun σ => σ.items? s) fun σ => items_blur σ s
    · exact hs.reading (g := fun σ => (σ.get s).parent) fun σ => parent_blur σ s
    · exact hs.reading (g := fun σ => σ.equal? a b) fun σ => equal_blur σ a b
    · exact hs.reading (g := fun σ => σ.inspect t) fun σ => inspect_blur σ t
  watch h := by
    intro st st' hs
    rw [bind_of_ok (get_apply st), bind_of_ok (get_apply st'), hs.depth]
    exact h _ st st' hs
  emit e := modify_same (fun _ => by simp [blurState]) fun _ => rfl
  addMixin s source := updateStore_same (fun σ => addMixin_blur σ s source)
    (fun _ _ h => Writing.size_addMixin h) fun _ _ h hy => hy.addMixin h
  newScope p := alloc_like rfl (by simp)

theorem siteBlind_framing (n : Nat) (key : String) : Framing (siteBlind n) key where
  clear _ := modify_same (fun _ => by simp [blurState]) fun _ => rfl
  stack _ h := by
    intro st st' hs
    rw [bind_of_ok (get_apply st), bind_of_ok (get_apply st'), hs.frames]
    exact h _ st st' hs

theorem kit_ignoresSites : IgnoresSites Kit.host :=
  fun n _ _ hc key _ hi =>
    native_like (siteBlind_kept n) (siteBlind_equipped n) hc hi (siteBlind_framing n key)

def shadowing : State :=
  let x (n : Int) := [("x", Term.var (.num n) false "x")]
  { store := { scopes := #[{ bindings := x 1 }, { bindings := x 2 }] }, limit := 10 }

theorem call_shadowing :
    let r₁ := caller Kit.host (.block ⟨[.call "x" [] none], []⟩ 0) ⟨[], none, some 1⟩ shadowing
    let r₂ := caller Kit.host (.block ⟨[.call "x" [] none], []⟩ 0) ⟨[], none, some 0⟩ shadowing
    r₁.1.toOption.bind Kit.integer? = some 1 ∧ r₁.1 = r₂.1 ∧
      blurState shadowing.store.size r₁.2 = blurState shadowing.store.size r₂.2 := by
  have hst : YieldsBlocks shadowing.store := by
    intro s a h
    match s with
    | 0 | 1 => cases h
    | s + 2 => simp [shadowing, Store.get] at h
  have hnone : ∀ t ∈ (none : Option Term), IsBlock t := by simp
  have hvalue : (caller Kit.host (.block ⟨[.call "x" [] none], []⟩ 0) ⟨[], none, some 1⟩
      shadowing).1.toOption.bind Kit.integer? = some 1 := by decide +kernel
  exact ⟨hvalue, call_block_site kit_ignoresSites hst ⟨[.call "x" [] none], []⟩ 0 [] hnone
    (some 1) (some 0)⟩

def relaying : Host where
  native call key i :=
    if key = "relay" then
      let sink : Native := ⟨1, "sink", .host "sink"⟩
      call (.native ⟨0, "yield", .builtin .yield⟩) { block := some (.native sink), scope := i.scope }
    else match i.scope with
      | some s => eval call s (.call "x" [] none)
      | none => pure .null

theorem relaying_onlyAsks : OnlyAsks relaying := by
  intro call key i
  by_cases hkey : key = "relay"
  · exact .inl ⟨.call _ _, by simp only [relaying, if_pos hkey]; rfl⟩
  cases hs : i.scope with
  | some s => exact .inl ⟨.eval (.call "x" [] none) s, by simp only [relaying, if_neg hkey, hs]; rfl⟩
  | none => exact .inr ⟨.null, by simp only [relaying, if_neg hkey, hs]⟩

def relayed : State :=
  let bindings := [("relay", Term.native ⟨2, "relay", .host "relay"⟩),
    ("yield", Term.native ⟨0, "yield", .builtin .yield⟩)]
  let x (n : Int) := [("x", Term.var (.num n) false "x")]
  { store := { scopes := #[{ bindings }, { bindings := x 1 }, { bindings := x 2 }] }, limit := 10 }

/-- To ask nothing but the evaluator is not enough: a native that stands for a block's yield block is
called from where the block was called from. -/
theorem call_relayed :
    let call (site : ScopeId) := (caller relaying (.block ⟨[.call "relay" [] none], []⟩ 0)
      ⟨[], some (.block ⟨[.call "yield" [] none], []⟩ 0), some site⟩ relayed).1.toOption
    OnlyAsks relaying ∧ YieldsBlocks relayed.store ∧
      (call 1).bind Kit.integer? = some 1 ∧ (call 2).bind Kit.integer? = some 2 := by
  refine ⟨relaying_onlyAsks, fun s a h => ?_, by decide +kernel, by decide +kernel⟩
  match s with
  | 0 | 1 | 2 => cases h
  | s + 3 => simp [relayed, Store.get] at h

end BlockScript.Proofs.CallSite
