import BlockScript.Machine

namespace BlockScript.Proofs

theorem store_ext {σ τ : Store} (hl : σ.digitLimit = τ.digitLimit) (hs : σ.size = τ.size)
    (h : ∀ s, σ.get s = τ.get s) : σ = τ := by
  cases σ with
  | mk scopes limit =>
  cases τ with
  | mk scopes' limit' =>
  obtain rfl : limit = limit' := hl
  congr 1
  apply Array.ext hs
  intro s hs₁ hs₂
  have hget := h s
  simpa [Store.get, hs₁, hs₂] using hget

/-- What is read of the second store is what is read of the first, but for mixins and for the
records of calls. -/
structure Resembles (σ τ : Store) : Prop where
  size : τ.size = σ.size
  digitLimit : τ.digitLimit = σ.digitLimit
  bindings : ∀ s, (τ.get s).bindings = (σ.get s).bindings
  parent : ∀ s, (τ.get s).parent = (σ.get s).parent
  returned : ∀ s, (τ.get s).returned = (σ.get s).returned
  items : ∀ s, τ.items? s = σ.items? s
  broken : ∀ s, τ.isBroken s = σ.isBroken s
  kind : ∀ s, (τ.get s).kind.name = (σ.get s).kind.name

namespace Resembles

variable {σ τ : Store} (h : Resembles σ τ) {s : ScopeId} {n : String}
include h

theorem items_eq : τ.items? = σ.items? :=
  funext h.items

theorem owns (s : ScopeId) (n : String) : τ.owns s n = σ.owns s n := by
  rw [Store.owns, Store.owns, h.bindings]

theorem chainWithin (steps : Nat) (s : ScopeId) :
    τ.chainWithin steps s = σ.chainWithin steps s := by
  induction steps generalizing s with
  | zero => rfl
  | succ steps ih =>
      rw [Store.chainWithin, Store.chainWithin, h.parent]
      cases (σ.get s).parent with
      | none => rfl
      | some p => exact congrArg (s :: ·) (ih p)

theorem chain (s : ScopeId) : τ.chain s = σ.chain s :=
  h.chainWithin _ s

theorem isCall (s : ScopeId) : τ.isCall s = σ.isCall s := by
  have hname (υ : Store) : υ.isCall s = ((υ.get s).kind.name == "CallScope") := by
    rw [Store.isCall]
    cases (υ.get s).kind <;> rfl
  rw [hname, hname, h.kind]

theorem settlesCall (s : ScopeId) : τ.settlesCall s = σ.settlesCall s := by
  have hname (υ : Store) : υ.settlesCall s =
      decide ((υ.get s).kind.name ∈ ["CallScope", "RootScope", "ListScope"]) := by
    rw [Store.settlesCall]
    cases (υ.get s).kind <;> rfl
  rw [hname, hname, h.kind]

theorem callScope (s : ScopeId) : τ.callScope? s = σ.callScope? s := by
  rw [Store.callScope?, Store.callScope?, h.chain, funext h.settlesCall, funext h.isCall]

theorem lookup (ho : τ.owner? s n = σ.owner? s n) : τ.lookup s n = σ.lookup s n := by
  have hbinding : τ.lookupBinding s n = σ.lookupBinding s n := by
    simp only [Store.lookupBinding, ho, h.bindings]
  rw [Store.lookup, Store.lookup, h.items, h.digitLimit, hbinding]

theorem binds (ho : τ.owner? s n = σ.owner? s n) : τ.binds s n = σ.binds s n := by
  have hbinding : τ.bindsBinding s n = σ.bindsBinding s n := by
    rw [Store.bindsBinding, Store.bindsBinding, ho]
  rw [Store.binds, Store.binds, h.items, h.digitLimit, hbinding]

theorem className (t : Term) : τ.className t = σ.className t := by
  cases t with
  | scope s => exact h.kind s
  | _ => rfl

theorem numeral : τ.numeral = σ.numeral := by
  funext n
  rw [Store.numeral, Store.numeral, h.digitLimit]

theorem sourceWithin (width depth : Nat) (within : List ScopeId) :
    τ.sourceWithin width depth within = σ.sourceWithin width depth within := by
  induction depth generalizing within with
  | zero => rfl
  | succ depth ih =>
      funext s level
      simp only [Store.sourceWithin, ih, h.items, h.numeral]

theorem source (width : Nat) (level : Int) (t : Term) :
    τ.source width level t = σ.source width level t := by
  rw [Store.source, Store.source, h.numeral, h.size, h.sourceWithin]

theorem inspectWithin (depth : Nat) (within : List ScopeId) :
    τ.inspectWithin depth within = σ.inspectWithin depth within := by
  induction depth generalizing within with
  | zero => rfl
  | succ depth ih =>
      funext s
      simp only [Store.inspectWithin, ih, h.items, h.numeral, Scope.inspect, h.kind, h.bindings,
        h.parent]

theorem inspect (t : Term) : τ.inspect t = σ.inspect t := by
  rw [Store.inspect, Store.inspect, h.numeral, h.size, h.inspectWithin]

theorem typeName (t : Term) : τ.typeName t = σ.typeName t := by
  rw [Store.typeName, Store.typeName, h.inspect]

theorem displayWithin (width depth : Nat) (within : List ScopeId) :
    τ.displayWithin width depth within = σ.displayWithin width depth within := by
  induction depth generalizing within with
  | zero => rfl
  | succ depth ih =>
      funext s
      simp only [Store.displayWithin, ih, h.items, h.numeral, funext (h.source width 0)]

theorem display (width : Nat) (t : Term) : τ.display width t = σ.display width t := by
  rw [Store.display, Store.display, h.numeral, h.size, h.displayWithin, funext (h.source width 0)]

theorem weight : τ.weight = σ.weight := by
  have hscopes : τ.scopes.map (·.kind.items?) = σ.scopes.map (·.kind.items?) := by
    apply Array.ext
    · rw [Array.size_map, Array.size_map]
      exact h.size
    · intro s hs hs'
      rw [Array.size_map] at hs hs'
      have hitems := h.items s
      simpa [Store.items?, Store.get, hs, hs'] using hitems
  have hweight (υ : Store) : υ.weight = (υ.scopes.map (·.kind.items?)).foldl
      (fun k o => k + o.elim 0 fun xs => weightAll xs + 1) 0 := by
    rw [Array.foldl_map]
    rfl
  rw [hweight, hweight, hscopes]

theorem equalWithin (depth : Nat) (within : List (ScopeId × ScopeId)) :
    τ.equalWithin depth within = σ.equalWithin depth within := by
  induction depth generalizing within with
  | zero => rfl
  | succ depth ih =>
      funext s t
      cases t <;> simp only [Store.equalWithin, ih, h.items_eq]

theorem equal (a b : Term) : τ.equal? a b = σ.equal? a b := by
  simp only [Store.equal?, h.weight, h.equalWithin, h.items_eq]

theorem contains (xs : List Term) (a : Term) : τ.contains? xs a = σ.contains? xs a := by
  have hequal : τ.equal? = σ.equal? := by
    funext a b
    exact h.equal a b
  induction xs with
  | nil => rfl
  | cons x xs ih => rw [Store.contains?, Store.contains?, hequal, ih]

end Resembles

/-- A change of stores that cannot be read, and that is the same before and after a name is bound or
unbound or the items of a list are set. -/
structure Guise (F : Store → Store) : Prop where
  resembles : ∀ σ, Resembles σ (F σ)
  setItems : ∀ σ s xs, (F σ).setItems s xs = F (σ.setItems s xs)
  setBinding : ∀ σ s n t, (F σ).setBinding s n t = F (σ.setBinding s n t)
  eraseBinding : ∀ σ s n, (F σ).eraseBinding s n = F (σ.eraseBinding s n)

namespace Guise

variable {F : Store → Store} (G : Guise F) (σ : Store) (s : ScopeId) (n : String)
include G

theorem defineBinding (f : Term) : (F σ).defineBinding s n f = (σ.defineBinding s n f).map F := by
  rw [Store.defineBinding, Store.defineBinding, (G.resembles σ).bindings, G.setBinding]
  split
  · rfl
  · rfl

theorem defineItem (xs : List Term) (k : Nat) (f : Term) :
    (F σ).defineItem s n xs k f = (σ.defineItem s n xs k f).map F := by
  rw [Store.defineItem.eq_def, Store.defineItem.eq_def]
  split
  · rw [G.setItems, G.setItems]
    split
    · rfl
    · split
      · rfl
      · rfl
  · rw [(G.resembles σ).className]
    rfl

theorem define (f : Term) : (F σ).define s n f = (σ.define s n f).map F := by
  have hR := G.resembles σ
  rw [Store.define, Store.define, hR.items, G.defineBinding, hR.digitLimit]
  split
  · rfl
  · split
    · rfl
    · exact G.defineItem σ s n _ _ f
    · rfl
    · rfl

theorem removeBinding : (F σ).removeBinding s n = F (σ.removeBinding s n) := by
  have howns : (F σ).owns = σ.owns := by
    funext o m
    exact (G.resembles σ).owns o m
  rw [Store.removeBinding, Store.removeBinding, (G.resembles σ).chain, howns]
  split
  · exact G.eraseBinding σ _ n
  · rfl

theorem remove : (F σ).remove s n = (σ.remove s n).map F := by
  have hR := G.resembles σ
  rw [Store.remove, Store.remove, hR.items, G.removeBinding, hR.digitLimit]
  split
  · rfl
  · split
    · rw [G.setItems]
      rfl
    · rfl
    · rfl
    · rfl

end Guise

end BlockScript.Proofs
