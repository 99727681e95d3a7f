import BlockScript.Proofs.LawfulKit
import BlockScript.Proofs.Writing

namespace BlockScript.Proofs.ReturnSlots

open Evaluator Law Writing

def slot (c : Scope) : Option Term × Option Bool :=
  (c.returned, c.kind.broken?)

def YieldsBlocks (σ : Store) : Prop :=
  ∀ s a, (σ.get s).kind = .call a → ∀ t ∈ a.yieldBlock, IsBlock t

/-- The slots of the first `n` scopes stay as they are while terms are evaluated in younger scopes
only. -/
def slotLaw (n : Nat) : Law where
  inv σ := n ≤ σ.size ∧ YieldsBlocks σ
  step σ τ := ∀ s < n, slot (τ.get s) = slot (σ.get s)
  value _ _ := True
  block _ t := IsBlock t
  scope _ s := n ≤ s
  site _ _ := True

theorem slot_formal : Formal slot where
  bindings _ _ _ := rfl
  items c _ _ h := by simp [slot, h, ScopeKind.broken?]

theorem activation_formal : Formal fun c => c.kind.activation? where
  bindings _ _ _ := rfl
  items c _ _ h := by simp [h, ScopeKind.activation?]

theorem yieldsBlocks_iff {σ : Store} :
    YieldsBlocks σ ↔ ∀ s, ∀ a ∈ (σ.get s).kind.activation?, ∀ t ∈ a.yieldBlock, IsBlock t := by
  refine forall_congr' fun s => ?_
  cases h : (σ.get s).kind <;> simp [ScopeKind.activation?]

theorem YieldsBlocks.congr {σ τ : Store} (hσ : YieldsBlocks σ)
    (h : ∀ s, (τ.get s).kind.activation? = (σ.get s).kind.activation?) : YieldsBlocks τ := by
  rw [yieldsBlocks_iff] at hσ ⊢
  intro s
  rw [h s]
  exact hσ s

theorem YieldsBlocks.alloc {σ : Store} (hσ : YieldsBlocks σ) {c : Scope}
    (hc : ∀ a, c.kind = .call a → ∀ t ∈ a.yieldBlock, IsBlock t) : YieldsBlocks (σ.alloc c) := by
  intro s a
  rw [Store.get_alloc]
  split
  · exact hc a
  · exact hσ s a

theorem YieldsBlocks.modify {σ : Store} (hσ : YieldsBlocks σ) {s : ScopeId} {e : Scope → Scope}
    (h : (e (σ.get s)).kind.activation? = (σ.get s).kind.activation?) :
    YieldsBlocks (σ.modify s e) :=
  hσ.congr (Formal.get_modify (g := fun c => c.kind.activation?) h)

theorem YieldsBlocks.define {σ τ : Store} (hσ : YieldsBlocks σ) {s : ScopeId} {n : String}
    {f : Term} (h : σ.define s n f = .ok τ) : YieldsBlocks τ :=
  hσ.congr (activation_formal.get_define h)

theorem YieldsBlocks.remove {σ τ : Store} (hσ : YieldsBlocks σ) {s : ScopeId} {n : String}
    (h : σ.remove s n = .ok τ) : YieldsBlocks τ :=
  hσ.congr (activation_formal.get_remove h)

theorem YieldsBlocks.addMixin {σ τ : Store} (hσ : YieldsBlocks σ) {s source : ScopeId}
    (h : σ.addMixin s source = .ok τ) : YieldsBlocks τ := by
  obtain rfl | rfl := addMixin_cases h
  · exact hσ
  · exact hσ.modify rfl

theorem YieldsBlocks.setReturned {σ : Store} (hσ : YieldsBlocks σ) (s : ScopeId) (t : Term) :
    YieldsBlocks (σ.setReturned s t) :=
  hσ.modify rfl

theorem YieldsBlocks.breakOff {σ : Store} (hσ : YieldsBlocks σ) (s : ScopeId) :
    YieldsBlocks (σ.breakOff s) := by
  apply hσ.modify
  cases h : (σ.get s).kind <;> simp [ScopeKind.activation?, h]

theorem later_alloc {n : Nat} {σ : Store} (h : (slotLaw n).inv σ) {c : Scope}
    (hc : ∀ a, c.kind = .call a → ∀ t ∈ a.yieldBlock, IsBlock t) :
    (slotLaw n).Later σ (σ.alloc c) where
  step s hs := by
    have hne : s ≠ σ.size := by have := h.1; omega
    rw [Store.get_alloc, if_neg hne]
  inv := ⟨by rw [Store.size_alloc]; have := h.1; omega, h.2.alloc hc⟩

theorem later_modify {n : Nat} {σ : Store} (h : (slotLaw n).inv σ) {s : ScopeId} (hs : n ≤ s)
    {e : Scope → Scope} (he : (e (σ.get s)).kind.activation? = (σ.get s).kind.activation?) :
    (slotLaw n).Later σ (σ.modify s e) where
  step u hu := by
    have hne : ¬(u = s ∧ s < σ.size) := by omega
    rw [Store.get_modify, if_neg hne]
  inv := ⟨by rw [Store.size_modify]; exact h.1, h.2.modify he⟩

theorem slotLaw_upheld (n : Nat) : (slotLaw n).Upheld where
  refl _ _ _ := rfl
  trans h h' s hs := (h' s hs).trans (h s hs)
  value_later _ _ := trivial
  block_later _ h := h
  scope_later _ h := h
  site_later _ _ := trivial
  site_of_scope _ := trivial
  value_of_block _ := trivial
  yields h := .inl h
  literal _ := trivial
  memory _ := trivial
  target _ := trivial
  closure _ := ⟨_, _, rfl⟩
  var := Iff.rfl
  found _ _ _ := trivial
  returned _ _ _ := trivial
  activation h _ _ ha := ⟨fun _ _ => trivial, h.2 _ _ ha, fun _ _ => trivial⟩
  define h _ _ _ hd :=
    ⟨fun s _ => slot_formal.get_define hd s, size_define hd ▸ h.1,
      h.2.define hd⟩
  remove h _ hr :=
    ⟨fun s _ => slot_formal.get_remove hr s, size_remove hr ▸ h.1,
      h.2.remove hr⟩
  setReturned h hs _ := later_modify h hs rfl
  breakOff {σ s} h hs := by
    apply later_modify h hs
    cases hk : (σ.get s).kind <;> simp [ScopeKind.activation?, hk]
  newBlock h _ := ⟨later_alloc h (by simp), h.1⟩
  newCall h _ _ hy _ := ⟨later_alloc h (by rintro a ⟨⟩; exact hy), h.1⟩
  newList h _ := ⟨later_alloc h (by simp), trivial⟩

/-- The host's natives give values to blocks, and break them off, only by way of the evaluator: as
long as the evaluator leaves the slots of old scopes alone when it is called from younger ones, so do
they. They hand over blocks for yield blocks. -/
def KeepsSlots (host : Host) : Prop :=
  ∀ n, (slotLaw n).ObeyedBy host

theorem slotLaw_lenient (n : Nat) : (slotLaw n).Lenient where
  value _ _ := trivial
  plain h := later_alloc h (by simp)
  bound h hd := ⟨fun s _ => slot_formal.get_define hd s, size_define hd ▸ h.1, h.2.define hd⟩
  mixed {σ τ s source} h hτ := by
    obtain rfl | rfl := addMixin_cases hτ
    · exact ⟨fun _ _ => rfl, h⟩
    · have hslot := Formal.get_modify (σ := σ) (s := s) (g := slot)
        (e := fun c => { c with mixins := (σ.get s).mixins ++ [source] }) rfl
      exact ⟨fun t _ => hslot t, size_addMixin hτ ▸ h.1, h.2.addMixin hτ⟩

theorem kit_keepsSlots : KeepsSlots Kit.host :=
  fun n => kit_obeys (slotLaw_upheld n) (slotLaw_lenient n)

/-- A call of a block leaves the slots of all scopes that there were before it alone, however it
ends. -/
theorem slot_call_block {host : Host} (hh : KeepsSlots host) {st : State}
    (hst : YieldsBlocks st.store) (c : Code) (closure : ScopeId) {i : Invocation}
    (hi : ∀ t ∈ i.block, IsBlock t) {s : ScopeId} (hs : s < st.store.size) :
    slot ((caller host (.block c closure) i st).2.store.get s) = slot (st.store.get s) := by
  have hc := caller_calls (slotLaw_upheld st.store.size) (hh _)
  have hcall : (slotLaw st.store.size).Callable st.store (.block c closure) i :=
    ⟨trivial, fun _ _ => trivial, hi, fun _ _ => trivial, .inl ⟨c, closure, rfl⟩⟩
  obtain ⟨hl, -⟩ := hc _ _ _ hcall st ⟨fun _ _ => rfl, Nat.le_refl _, hst⟩
  exact hl.step s hs

def running : State :=
  let bindings := [("return", .native ⟨0, "return", .builtin .ret⟩)]
  { store := { scopes := #[{ kind := .block false, bindings }] }, limit := 10 }

theorem slot_call_return :
    let call := caller Kit.host (.block ⟨[.call "return" [.num 1] none], []⟩ 0) { scope := some 0 }
    (call running).1.toOption = some (.num 1) ∧
      slot ((call running).2.store.get 0) = (none, some false) := by
  refine ⟨rfl, ?_⟩
  refine slot_call_block kit_keepsSlots (fun s a h => ?_) _ 0 (by simp) (s := 0) (by decide)
  cases s with
  | zero => cases h
  | succ s => simp [running, Store.get] at h

/-- The host's natives do nothing but ask the evaluator, or give a value. -/
def OnlyAsks (host : Host) : Prop :=
  ∀ call key i, (∃ q : Request, host.native call key i = q.askedOf call) ∨
    ∃ t, host.native call key i = pure t

def interrupting : Host where
  native call _ i := match i.first with
    | .memory s _ => eval call s (.call "return" [] none)
    | t => pure t

theorem interrupting_onlyAsks : OnlyAsks interrupting := by
  intro call key i
  cases h : i.first
  case memory s n =>
    exact .inl ⟨.eval (.call "return" [] none) s, by simp only [interrupting, h]; rfl⟩
  all_goals exact .inr ⟨i.first, by simp only [interrupting, h]⟩

def interrupted : State :=
  let bindings := [("return", .native ⟨0, "return", .builtin .ret⟩),
    ("interrupt", .native ⟨1, "interrupt", .host "interrupt"⟩),
    ("outside", .var (.memory 0 "x") false "outside"), ("list", .var (.scope 1) false "list"),
    ("let", .native ⟨2, "let", .builtin .letVar⟩)]
  { store := { scopes := #[{ kind := .block false, bindings, returned := some (.scope 1) },
      { kind := .list [.num 1] }] }, limit := 10 }

/-- To ask nothing but the evaluator is not enough: asked to return from an older scope, it does. And a
list that is an older scope's value can be edited. -/
theorem slot_call_interrupted :
    let call (t : Term) :=
      (caller interrupting (.block ⟨[t], []⟩ 0) { scope := some 0 } interrupted).2.store
    let interrupt : Term := .call "interrupt" [.call "outside" [] none] none
    let edit : Term := .call "let" [.ref "0" (some (.call "list" [] none))] (some ⟨[.num 2], []⟩)
    OnlyAsks interrupting ∧ YieldsBlocks interrupted.store ∧
      slot (interrupted.store.get 0) = (some (.scope 1), some false) ∧
      slot ((call interrupt).get 0) = (some .null, some true) ∧
      interrupted.store.items? 1 = some [.num 1] ∧
      ((call edit).items? 1).bind (·.head?.bind Kit.integer?) = some 2 := by
  refine ⟨interrupting_onlyAsks, fun s a h => ?_, rfl, rfl, rfl, by decide +kernel⟩
  match s with
  | 0 | 1 => cases h
  | s + 2 => simp [interrupted, Store.get] at h

end BlockScript.Proofs.ReturnSlots
