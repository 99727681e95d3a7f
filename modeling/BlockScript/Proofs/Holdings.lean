import BlockScript.Proofs.Heap

namespace BlockScript.Proofs.Holdings

open Faulting Heap Writing

mutual

/-- Every name that the term looks up, has looked up by its code, or stands for has the property.
The parameters of code are not looked up but bound. -/
def Uses (P : String → Prop) : Term → Prop
  | .memory _ n | .ref n none _ => P n
  | .ref n (some t) _ => P n ∧ Uses P t
  | .call n args none => P n ∧ AllUse P args
  | .call n args (some c) => P n ∧ AllUse P args ∧ CodeUses P c
  | .code c | .block c _ => CodeUses P c
  | .var v _ _ _ => Uses P v
  | .items xs => AllUse P xs
  | _ => True

def CodeUses (P : String → Prop) : Code → Prop
  | ⟨ts, _⟩ => AllUse P ts

def AllUse (P : String → Prop) : List Term → Prop
  | [] => True
  | t :: ts => Uses P t ∧ AllUse P ts

end

theorem uses_call {P : String → Prop} {n : String} {args : List Term} {block : Option Code} :
    Uses P (.call n args block) ↔ P n ∧ AllUse P args ∧ ∀ c ∈ block, CodeUses P c := by
  cases block <;> simp [Uses]

def kindTerms : ScopeKind → List Term
  | .list xs => xs
  | .call a => a.args ++ a.yieldBlock.toList
  | _ => []

def terms (c : Scope) : List Term :=
  c.bindings.map Prod.snd ++ c.returned.toList ++ kindTerms c.kind

def links (c : Scope) : List ScopeId :=
  c.parent.toList ++ (c.kind.activation?.bind Activation.site).toList

variable {V W : Term → Prop} {Q R : ScopeId → Prop} {σ τ : Store} {c : Scope} {s p : ScopeId}
  {n : String} {t : Term}

theorem mem_terms : t ∈ terms c ↔
    (∃ n, (n, t) ∈ c.bindings) ∨ t ∈ c.returned ∨ t ∈ kindTerms c.kind := by
  simp [terms]

theorem mem_links : p ∈ links c ↔ p ∈ c.parent ∨ ∃ a ∈ c.kind.activation?, p ∈ a.site := by
  simp [links, Option.bind_eq_some_iff]

theorem mem_set {b : Bindings} {m : String} {u : Term} (h : (m, u) ∈ b.set n t) :
    (m = n ∧ u = t) ∨ (m, u) ∈ b := by
  induction b with
  | nil =>
      rw [Bindings.set, List.mem_singleton] at h
      exact .inl (Prod.mk.inj h)
  | cons e b ih =>
      rw [Bindings.set] at h
      split at h
      · rcases List.mem_cons.1 h with h | h
        · exact .inl (Prod.mk.inj h)
        · exact .inr (List.mem_cons_of_mem _ h)
      · rcases List.mem_cons.1 h with h | h
        · exact .inr (List.mem_cons.2 (.inl h))
        · exact (ih h).imp_right (List.mem_cons_of_mem _)

structure Holds (V : Term → Prop) (Q : ScopeId → Prop) (c : Scope) : Prop where
  terms : ∀ t ∈ terms c, V t
  links : ∀ p ∈ links c, Q p

def Holding (V : Term → Prop) (Q : ScopeId → Prop) (σ : Store) : Prop :=
  ∀ s, Holds V Q (σ.get s)

structure Regular (V : Term → Prop) : Prop where
  num : ∀ k, V (.num k)
  var : ∀ {v c n k}, V (.var v c n k) ↔ V v

structure Upkeep (V : Term → Prop) (Q : ScopeId → Prop) (σ τ : Store) : Prop where
  size : τ.size = σ.size
  kept : ∀ s, ¬Q s → τ.get s = σ.get s
  holding : Holding V Q τ

namespace Holds

theorem mono (h : Holds V Q c) (hV : ∀ t, V t → W t) (hQ : ∀ s, Q s → R s) : Holds W R c where
  terms t ht := hV t (h.terms t ht)
  links p hp := hQ p (h.links p hp)

theorem plain {parent : Option ScopeId} (hp : ∀ p ∈ parent, Q p) : Holds V Q { parent } := by
  refine ⟨List.forall_mem_nil _, fun p hmem => ?_⟩
  rcases mem_links.1 hmem with hmem | ⟨a, ha, -⟩
  · exact hp p hmem
  · cases ha

theorem block {broken : Bool} (hp : Q p) :
    Holds V Q { kind := .block broken, parent := some p } := by
  refine ⟨List.forall_mem_nil _, fun q hmem => ?_⟩
  rcases mem_links.1 hmem with hmem | ⟨a, ha, -⟩
  · exact Option.some.inj hmem ▸ hp
  · cases ha

theorem call {a : Activation} (ha : ∀ t ∈ a.args, V t) (hb : ∀ t ∈ a.yieldBlock, V t)
    (hs : ∀ q ∈ a.site, Q q) (hp : Q p) : Holds V Q { kind := .call a, parent := some p } := by
  constructor
  · intro t hmem
    obtain ⟨n, ⟨⟩⟩ | ⟨⟨⟩⟩ | hmem := mem_terms.1 hmem
    rcases List.mem_append.1 hmem with hmem | hmem
    · exact ha t hmem
    · exact hb t (Option.mem_toList.1 hmem)
  · intro q hmem
    obtain ⟨⟨⟩⟩ | ⟨a, ⟨⟩, hmem⟩ := mem_links.1 hmem
    · exact hp
    · exact hs q hmem

theorem list {xs : List Term} (hx : ∀ x ∈ xs, V x) : Holds V Q { kind := .list xs } := by
  refine ⟨fun t hmem => ?_, List.forall_mem_nil _⟩
  obtain ⟨n, ⟨⟩⟩ | ⟨⟨⟩⟩ | hmem := mem_terms.1 hmem
  exact hx t hmem

end Holds

namespace Holding

theorem mono (h : Holding V Q σ) (hV : ∀ t, V t → W t) (hQ : ∀ s, Q s → R s) : Holding W R σ :=
  fun s => (h s).mono hV hQ

section Reading

variable (h : Holding V Q σ)
include h

theorem binding (ht : (σ.get s).bindings.get? n = some t) : V t := by
  obtain ⟨before, after, hb, -⟩ := List.lookup_eq_some_iff.1 ht
  apply (h s).terms
  exact mem_terms.2 (.inl ⟨n, by simp [hb]⟩)

theorem returned (ht : (σ.get s).returned = some t) : V t :=
  (h s).terms t (mem_terms.2 (.inr (.inl ht)))

theorem items {xs : List Term} (hx : σ.items? s = some xs) : ∀ x ∈ xs, V x := by
  intro x hmem
  apply (h s).terms
  rw [mem_terms, kind_of_items hx]
  exact .inr (.inr hmem)

theorem parent (hp : (σ.get s).parent = some p) : Q p :=
  (h s).links p (mem_links.2 (.inl hp))

theorem call {a : Activation} (ha : (σ.get s).kind = .call a) :
    (∀ t ∈ a.args, V t) ∧ (∀ t ∈ a.yieldBlock, V t) ∧ ∀ p ∈ a.site, Q p := by
  have hkind : ∀ t ∈ kindTerms (σ.get s).kind, V t := fun t ht =>
    (h s).terms t (mem_terms.2 (.inr (.inr ht)))
  rw [ha] at hkind
  refine ⟨fun t ht => hkind t ?_, fun t ht => hkind t ?_, fun p hp => (h s).links p ?_⟩
  · exact List.mem_append_left _ ht
  · exact List.mem_append_right _ (Option.mem_toList.2 ht)
  · exact mem_links.2 (.inr ⟨a, by rw [ha]; rfl, hp⟩)

theorem found (hV : Regular V) {f : Term} (hf : σ.lookup s n = .ok (some f)) : V f := by
  obtain ⟨o, ho⟩ | ⟨xs, hxs, rfl | ⟨x, hx, rfl⟩⟩ := lookup_cases hf
  · exact h.binding ho
  · exact hV.var.2 (hV.num _)
  · exact hV.var.2 (h.items hxs x hx)

theorem chainWithin (hs : Q s) (depth : Nat) : ∀ o ∈ σ.chainWithin depth s, Q o := by
  induction depth generalizing s with
  | zero => exact List.forall_mem_nil _
  | succ depth ih =>
      intro o ho
      rw [Store.chainWithin, List.mem_cons] at ho
      rcases ho with rfl | ho
      · exact hs
      · split at ho
        next p hp => exact ih (h.parent hp) o ho
        next => cases ho

theorem chain (hs : Q s) : ∀ o ∈ σ.chain s, Q o :=
  h.chainWithin hs _

end Reading

section Writing

variable (h : Holding V Q σ) {e : Scope → Scope}
include h

theorem alloc (hc : Holds V Q c) : Holding V Q (σ.alloc c) := by
  intro s
  rw [Store.get_alloc]
  split
  · exact hc
  · exact h s

theorem modify (ht : ∀ t ∈ terms (e (σ.get s)), V t ∨ t ∈ terms (σ.get s))
    (hp : ∀ p ∈ links (e (σ.get s)), p ∈ links (σ.get s)) : Holding V Q (σ.modify s e) := by
  intro u
  rw [Store.get_modify]
  split
  next hu =>
      rw [hu.1]
      constructor
      · exact fun t hmem => (ht t hmem).elim id ((h s).terms t)
      · exact fun p hmem => (h s).links p (hp p hmem)
  next => exact h u

theorem set (n : String) (ht : V t) : Holding V Q (σ.setBinding s n t) := by
  refine h.modify (fun u hu => ?_) fun p hp => hp
  rw [mem_terms] at hu ⊢
  rcases hu with ⟨m, hu⟩ | hu
  · rcases mem_set hu with ⟨-, rfl⟩ | hu
    · exact .inl ht
    · exact .inr (.inl ⟨m, hu⟩)
  · exact .inr (.inr hu)

omit h in
theorem upkeep_modify (hs : Q s) (h : Holding V Q (σ.modify s e)) :
    Upkeep V Q σ (σ.modify s e) where
  size := Store.size_modify _
  kept u hu := by
    rw [Store.get_modify, if_neg]
    rintro ⟨rfl, -⟩
    exact hu hs
  holding := h

theorem rewrite (hs : Q s) (ht : ∀ t ∈ terms (e (σ.get s)), V t ∨ t ∈ terms (σ.get s))
    (hp : ∀ p ∈ links (e (σ.get s)), p ∈ links (σ.get s)) : Upkeep V Q σ (σ.modify s e) :=
  upkeep_modify hs (h.modify ht hp)

theorem upkeep : Upkeep V Q σ σ :=
  ⟨rfl, fun _ _ => rfl, h⟩

theorem setBinding (hs : Q s) (n : String) (ht : V t) : Upkeep V Q σ (σ.setBinding s n t) :=
  upkeep_modify hs (h.set n ht)

theorem eraseBinding (hs : Q s) (n : String) : Upkeep V Q σ (σ.eraseBinding s n) := by
  refine h.rewrite hs (fun u hu => .inr ?_) fun p hp => hp
  rw [mem_terms] at hu ⊢
  exact hu.imp_left (Exists.imp fun m hu => (List.mem_filter.1 hu).1)

theorem setItems (hs : Q s) {xs : List Term} (hx : ∀ x ∈ xs, V x) :
    Upkeep V Q σ (σ.setItems s xs) := by
  refine h.rewrite hs (fun u hu => ?_) fun p hp => ?_
  · rw [mem_terms] at hu ⊢
    rcases hu with hu | hu | hu
    · exact .inr (.inl hu)
    · exact .inr (.inr (.inl hu))
    · exact .inl (hx u hu)
  · rw [mem_links] at hp ⊢
    rcases hp with hp | ⟨a, ha, -⟩
    · exact .inl hp
    · cases ha

theorem setReturned (hs : Q s) (ht : V t) : Upkeep V Q σ (σ.setReturned s t) := by
  refine h.rewrite hs (fun u hu => ?_) fun p hp => hp
  rw [mem_terms] at hu ⊢
  rcases hu with hu | hu | hu
  · exact .inr (.inl hu)
  · exact .inl (Option.some.inj hu ▸ ht)
  · exact .inr (.inr (.inr hu))

theorem breakOff (hs : Q s) : Upkeep V Q σ (σ.breakOff s) := by
  refine h.rewrite hs (fun t ht => .inr ?_) fun p hp => ?_
  · cases hk : (σ.get s).kind <;> simp_all [mem_terms, kindTerms]
  · cases hk : (σ.get s).kind <;> simp_all [mem_links, ScopeKind.activation?]

theorem reset (hs : Q s) : Upkeep V Q σ (σ.reset s) := by
  refine h.rewrite hs (fun t ht => .inr ?_) fun p hp => ?_
  · cases hk : (σ.get s).kind <;> simp_all [mem_terms, kindTerms]
  · cases hk : (σ.get s).kind <;> simp_all [mem_links, ScopeKind.activation?]

theorem setMixins (hs : Q s) (ms : List ScopeId) : Upkeep V Q σ (σ.setMixins s ms) :=
  h.rewrite hs (fun _ ht => .inr ht) fun _ hp => hp

theorem define (hV : Regular V) (hs : Q s) (ht : V t) (hd : σ.define s n t = .ok τ) :
    Upkeep V Q σ τ := by
  obtain ⟨-, -, rfl⟩ | ⟨xs, i, v, c, m, k, hx, -, rfl, -, rfl⟩ := define_cases hd
  · exact h.setBinding hs n ht
  · have hxs := h.items hx
    have hv : V v := hV.var.1 ht
    apply h.setItems hs
    intro x hmem
    split at hmem
    · rcases List.mem_or_eq_of_mem_set hmem with hmem | rfl
      · exact hxs x hmem
      · exact hv
    · rcases List.mem_append.1 hmem with hmem | hmem
      · exact hxs x hmem
      · exact List.mem_singleton.1 hmem ▸ hv

theorem remove (hs : Q s) (hr : σ.remove s n = .ok τ) : Upkeep V Q σ τ := by
  obtain ⟨-, rfl⟩ | ⟨xs, i, hx, -, rfl⟩ := remove_cases hr
  · rw [Store.removeBinding]
    split
    next o ho => exact h.eraseBinding (h.chain hs o (List.mem_of_find?_eq_some ho)) n
    next => exact h.upkeep
  · exact h.setItems hs fun x hmem => h.items hx x (List.mem_of_mem_eraseIdx hmem)

theorem addMixin {source : ScopeId} (hs : Q s) (ha : σ.addMixin s source = .ok τ) :
    Upkeep V Q σ τ := by
  obtain rfl | rfl := addMixin_cases ha
  · exact h.upkeep
  · exact h.setMixins hs _

end Writing

end Holding

end BlockScript.Proofs.Holdings
