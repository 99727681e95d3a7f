import BlockScript.Machine
import Mathlib.Logic.Relation

namespace BlockScript.Proofs.Faulting

variable {α β : Type} {G : Fault → Prop}

def Faults (G : Fault → Prop) (r : Except Fault α) : Prop :=
  ∀ f, r = .error f → G f

namespace Faults

theorem ok (a : α) : Faults G (.ok a) := by
  rintro f ⟨⟩

theorem pure (a : α) : Faults G (Pure.pure a) := ok a

theorem error {f : Fault} (h : G f) : Faults G (.error f : Except Fault α) := by
  rintro g ⟨⟩
  exact h

theorem bind {r : Except Fault α} {k : α → Except Fault β} (hr : Faults G r)
    (hk : ∀ a, r = .ok a → Faults G (k a)) : Faults G (r >>= k) := by
  cases r with
  | error f => exact error (hr f rfl)
  | ok a => exact hk a rfl

theorem mapM {xs : List α} {k : α → Except Fault β} (h : ∀ x ∈ xs, Faults G (k x)) :
    Faults G (xs.mapM k) := by
  induction xs with
  | nil => exact pure []
  | cons x xs ih =>
      rw [List.mapM_cons]
      refine (h x (by simp)).bind fun y _ => ?_
      refine (ih fun z hz => h z (by simp [hz])).bind fun ys _ => ?_
      exact pure (y :: ys)

theorem findSomeM? {xs : List α} {k : α → Except Fault (Option β)} (h : ∀ x ∈ xs, Faults G (k x)) :
    Faults G (xs.findSomeM? k) := by
  induction xs with
  | nil => exact pure none
  | cons x xs ih =>
      rw [List.findSomeM?_cons]
      refine (h x (by simp)).bind fun o _ => ?_
      cases o with
      | some b => exact pure (some b)
      | none => exact ih fun z hz => h z (by simp [hz])

end Faults

theorem bind_ok {r : Except Fault α} {k : α → Except Fault β} {b : β}
    (h : r >>= k = .ok b) : ∃ a, r = .ok a ∧ k a = .ok b := by
  cases r with
  | error f => cases h
  | ok a => exact ⟨a, rfl, h⟩

def parts : Term → List Term
  | .items xs => xs
  | .ref _ (some t) _ => [t]
  | .call _ args none => args
  | .call _ args (some c) => args ++ c.statements
  | .code c => c.statements
  | .var v _ _ _ => [v]
  | .block c _ => c.statements
  | _ => []

def Inside : Term → Term → Prop :=
  Relation.ReflTransGen fun t u => u ∈ parts t

theorem Inside.part {t u v : Term} (h : u ∈ parts t) (hv : Inside u v) : Inside t v :=
  Relation.ReflTransGen.head h hv

section Source

variable {numeral : Int → Except Fault String} {width : Nat}
  {below : ScopeId → Int → Except Fault String}

structure Fine (G : Fault → Prop) (numeral : Int → Except Fault String)
    (below : ScopeId → Int → Except Fault String) (t : Term) : Prop where
  numbers : ∀ n, Inside t (.num n) → Faults G (numeral n)
  lists : ∀ s level, Inside t (.scope s) → Faults G (below s level)

theorem Fine.part {t u : Term} (h : Fine G numeral below t) (hu : u ∈ parts t) :
    Fine G numeral below u where
  numbers n hn := h.numbers n (.part hu hn)
  lists s level hs := h.lists s level (.part hu hs)

mutual

/-- The text of a term has no faults but those of the numbers and the lists in it. -/
theorem sourceWith_faults : ∀ (t : Term) (level : Int), Fine G numeral below t →
    Faults G (t.sourceWith numeral width below level)
  | .null, _, _ | .bool _, _, _ | .str _, _, _ | .memory _ _, _, _ | .float _ _, _, _ |
    .ref _ none _, _, _ | .native _, _, _ => by
      rw [Term.sourceWith]
      exact .ok _
  | .num n, level, h => by
      rw [Term.sourceWith]
      exact h.numbers n .refl
  | .scope s, level, h => by
      rw [Term.sourceWith]
      exact h.lists s level .refl
  | .items xs, level, h => by
      rw [Term.sourceWith]
      exact (argsWith_faults xs level fun t ht => h.part ht).bind fun _ _ => .pure _
  | .ref m (some t) _, level, h => by
      rw [Term.sourceWith]
      exact (sourceWith_faults t level (h.part (by simp [parts]))).bind fun _ _ => .pure _
  | .call m args none, level, h => by
      rw [Term.sourceWith]
      exact (argsWith_faults args level fun t ht => h.part ht).bind fun _ _ => .pure _
  | .call m args (some c), level, h => by
      rw [Term.sourceWith]
      have hargs := argsWith_faults args level fun t ht => h.part (by simp [parts, ht])
      have hbody := codeSourceWith_faults c level fun t ht => h.part (by simp [parts, ht])
      exact hargs.bind fun _ _ => hbody.bind fun _ _ => .pure _
  | .code c, level, h => by
      rw [Term.sourceWith]
      exact codeSourceWith_faults c level fun t ht => h.part ht
  | .var v _ _ _, level, h => by
      rw [Term.sourceWith]
      exact sourceWith_faults v level (h.part (by simp [parts]))
  | .block c _, level, h => by
      rw [Term.sourceWith]
      exact codeSourceWith_faults c level fun t ht => h.part ht

theorem codeSourceWith_faults : ∀ (c : Code) (level : Int),
    (∀ t ∈ c.statements, Fine G numeral below t) →
    Faults G (c.sourceWith numeral width below level)
  | ⟨[], _⟩, _, _ => by
      rw [Code.sourceWith]
      exact .ok _
  | ⟨[t], params⟩, level, h => by
      rw [Code.sourceWith]
      have ht (l) := sourceWith_faults t l (h t (by simp))
      refine (ht level).bind fun text _ => ?_
      split
      · exact (ht (level + 1)).bind fun _ _ => .pure _
      · exact .pure _
  | ⟨t :: u :: ts, params⟩, level, h => by
      rw [Code.sourceWith]
      have ht := sourceWith_faults t (level + 1) (h t (by simp))
      have hu := sourceWith_faults u (level + 1) (h u (by simp))
      have hts := linesWith_faults ts (level + 1) fun v hv => h v (by simp [hv])
      exact ht.bind fun _ _ => hu.bind fun _ _ => hts.bind fun _ _ => .pure _

theorem argsWith_faults : ∀ (ts : List Term) (level : Int), (∀ t ∈ ts, Fine G numeral below t) →
    Faults G (Term.argsWith numeral width below ts level)
  | [], _, _ => by
      rw [Term.argsWith]
      exact .ok _
  | t :: ts, level, h => by
      rw [Term.argsWith]
      have ht := sourceWith_faults t level (h t (by simp))
      have hts := argsWith_faults ts level fun u hu => h u (by simp [hu])
      exact ht.bind fun _ _ => hts.bind fun _ _ => .pure _

theorem linesWith_faults : ∀ (ts : List Term) (level : Int), (∀ t ∈ ts, Fine G numeral below t) →
    Faults G (Term.linesWith numeral width below ts level)
  | [], _, _ => by
      rw [Term.linesWith]
      exact .ok _
  | t :: ts, level, h => by
      rw [Term.linesWith]
      have ht := sourceWith_faults t level (h t (by simp))
      have hts := linesWith_faults ts level fun u hu => h u (by simp [hu])
      exact ht.bind fun _ _ => hts.bind fun _ _ => .pure _

end

end Source

section Inspect

variable {numeral : Int → Except Fault String} {below : ScopeId → Except Fault String}

mutual

theorem inspectWith_faults (hn : ∀ n, Faults G (numeral n)) (hb : ∀ s, Faults G (below s)) :
    ∀ t, Faults G (Term.inspectWith numeral below t)
  | .null | .bool _ | .str _ | .memory _ _ | .float _ _ | .ref _ none _ | .block _ _ | .native _ => by
      rw [Term.inspectWith]
      exact .ok _
  | .num n => by
      rw [Term.inspectWith]
      exact hn n
  | .scope s => by
      rw [Term.inspectWith]
      exact hb s
  | .items xs => by
      rw [Term.inspectWith]
      exact (inspectAllWith_faults hn hb xs).bind fun _ _ => .pure _
  | .ref _ (some t) _ | .var t _ _ _ => by
      rw [Term.inspectWith]
      exact (inspectWith_faults hn hb t).bind fun _ _ => .pure _
  | .call _ args none => by
      rw [Term.inspectWith]
      exact (inspectAllWith_faults hn hb args).bind fun _ _ => .pure _
  | .call _ args (some c) => by
      rw [Term.inspectWith]
      exact (inspectAllWith_faults hn hb args).bind fun _ _ =>
        (codeInspectWith_faults hn hb c).bind fun _ _ => .pure _
  | .code c => by
      rw [Term.inspectWith]
      exact codeInspectWith_faults hn hb c

theorem codeInspectWith_faults (hn : ∀ n, Faults G (numeral n)) (hb : ∀ s, Faults G (below s)) :
    ∀ c, Faults G (Code.inspectWith numeral below c)
  | ⟨ts, _⟩ => by
      rw [Code.inspectWith]
      exact (inspectAllWith_faults hn hb ts).bind fun _ _ => .pure _

theorem inspectAllWith_faults (hn : ∀ n, Faults G (numeral n)) (hb : ∀ s, Faults G (below s)) :
    ∀ ts, Faults G (Term.inspectAllWith numeral below ts)
  | [] => by
      rw [Term.inspectAllWith]
      exact .ok _
  | t :: ts => by
      rw [Term.inspectAllWith]
      exact (inspectWith_faults hn hb t).bind fun _ _ =>
        (inspectAllWith_faults hn hb ts).bind fun _ _ => .pure _

end

end Inspect

/-! The faults of the store's own operations: something has no end, or is too long, or is not allowed
where it stands. The depth of calls is none of its business. -/

def Local (f : Fault) : Prop :=
  ∀ limit depth, f ≠ .depthExceeded limit depth

def Mild (f : Fault) : Prop :=
  Local f ∧ f.isExhaustion = false

def Hosted (f : Fault) : Prop :=
  ∃ cause message, f = .host cause message

inductive Refused (n : String) : Fault → Prop
  | constant : Refused n (.constantRedefined n)
  | notVariable (className : String) : Refused n (.slotNeedsVariable n className)
  | outOfRange (index size : Nat) : Refused n (.slotOutOfRange index size)
  | overlong (limit digits : Nat) : Refused n (.numeralTooLong limit digits)

theorem hosted_local {f : Fault} (h : Hosted f) : Local f := by
  obtain ⟨cause, message, rfl⟩ := h
  rintro _ _ ⟨⟩

theorem Faults.local {r : Except Fault α} (h : Faults Hosted r) : Faults Local r :=
  fun f hf => hosted_local (h f hf)

theorem hosted {cause : HostFault} {message : String} : Hosted (.host cause message) :=
  ⟨cause, message, rfl⟩

section Store

variable (σ : Store) (s : ScopeId) (n : String)

theorem numeral_hosted (k : Int) : Faults Hosted (σ.numeral k) := by
  rw [Store.numeral]
  split
  · exact .ok _
  · exact .error hosted

theorem sourceWithin_hosted (width : Nat) (depth : Nat) (within : List ScopeId) (level : Int) :
    Faults Hosted (σ.sourceWithin width depth within s level) := by
  induction depth generalizing within s level with
  | zero => exact .error hosted
  | succ depth ih =>
      rw [Store.sourceWithin]
      split
      · split
        · exact .error hosted
        · refine (Faults.mapM fun x _ => ?_).bind fun _ _ => .pure _
          exact sourceWith_faults x level ⟨fun k _ => numeral_hosted σ k, fun u l _ => ih u _ l⟩
      · exact .ok _

theorem source_hosted (width : Nat) (level : Int) (t : Term) :
    Faults Hosted (σ.source width level t) :=
  sourceWith_faults t level
    ⟨fun k _ => numeral_hosted σ k, fun u l _ => sourceWithin_hosted σ u width _ _ l⟩

theorem inspectWithin_hosted (depth : Nat) (within : List ScopeId) :
    Faults Hosted (σ.inspectWithin depth within s) := by
  induction depth generalizing within s with
  | zero => exact .ok _
  | succ depth ih =>
      rw [Store.inspectWithin]
      split
      · split
        · exact .ok _
        · refine (Faults.mapM fun x _ => ?_).bind fun _ _ => .pure _
          exact inspectWith_faults (numeral_hosted σ) (fun u => ih u _) x
      · exact .ok _

theorem inspect_hosted (t : Term) : Faults Hosted (σ.inspect t) :=
  inspectWith_faults (numeral_hosted σ) (fun u => inspectWithin_hosted σ u _ _) t

theorem typeName_hosted (t : Term) : Faults Hosted (σ.typeName t) := by
  rw [Store.typeName]
  split
  · exact .ok _
  · exact (inspect_hosted σ t).bind fun _ _ => .pure _

theorem displayWith_hosted {below : ScopeId → Except Fault String}
    (hb : ∀ u, Faults Hosted (below u)) (width : Nat) (t : Term) :
    Faults Hosted (t.displayWith σ.numeral below (σ.source width 0)) := by
  cases t
  case num k => exact numeral_hosted σ k
  case scope u => exact hb u
  case null | bool | str | memory => exact .ok _
  all_goals exact source_hosted σ width 0 _

theorem displayWithin_hosted (width : Nat) (depth : Nat) (within : List ScopeId) :
    Faults Hosted (σ.displayWithin width depth within s) := by
  induction depth generalizing within s with
  | zero => exact .error hosted
  | succ depth ih =>
      rw [Store.displayWithin]
      split
      · split
        · exact .error hosted
        · refine (Faults.mapM fun x _ => ?_).bind fun _ _ => .pure _
          exact displayWith_hosted σ (fun u => ih u _) width x
      · exact .ok _

theorem display_hosted (width : Nat) (t : Term) : Faults Hosted (σ.display width t) :=
  displayWith_hosted σ (fun u => displayWithin_hosted σ u width _ _) width t

/-- A search has no fault but that it has no end. -/
theorem ownerWithin_hosted {steps : Nat} {within : List ScopeId} :
    Faults Hosted (σ.ownerWithin n steps within s) := by
  induction steps generalizing within s with
  | zero => exact .error hosted
  | succ steps ih =>
      rw [Store.ownerWithin]
      split
      · exact .ok _
      · split
        · exact .error hosted
        · exact .findSomeM? fun u _ => ih u

theorem lookup_hosted : Faults Hosted (σ.lookup s n) := by
  have binding : Faults Hosted (σ.lookupBinding s n) :=
    (ownerWithin_hosted σ s n).bind fun _ _ => .pure _
  rw [Store.lookup]
  split
  · exact binding
  · split
    · exact .ok _
    · exact .ok _
    · exact .error hosted
    · exact binding

theorem binds_hosted : Faults Hosted (σ.binds s n) := by
  have binding : Faults Hosted (σ.bindsBinding s n) :=
    (ownerWithin_hosted σ s n).bind fun _ _ => .pure _
  rw [Store.binds]
  split
  · exact binding
  · split
    · exact .ok _
    · exact .ok _
    · exact .error hosted
    · exact binding

theorem define_refused (f : Term) : Faults (Refused n) (σ.define s n f) := by
  have binding : Faults (Refused n) (σ.defineBinding s n f) := by
    rw [Store.defineBinding]
    split
    · exact .error .constant
    · exact .ok _
  rw [Store.define]
  split
  · exact binding
  · split
    · exact .error .constant
    · rw [Store.defineItem.eq_def]
      split
      · split
        · exact .ok _
        · split
          · exact .ok _
          · exact .error (.outOfRange _ _)
      · exact .error (.notVariable _)
    · exact .error (.overlong _ _)
    · exact binding

theorem Refused.mild {f : Fault} (h : Refused n f) : Mild f := by
  cases h with
  | constant | notVariable | outOfRange => exact ⟨by rintro _ _ ⟨⟩, rfl⟩
  | overlong limit digits => exact ⟨hosted_local hosted, rfl⟩

theorem remove_hosted : Faults Hosted (σ.remove s n) := by
  rw [Store.remove]
  split
  · exact .ok _
  · split
    · exact .ok _
    · exact .error hosted
    · exact .ok _
    · exact .ok _

theorem addMixin_hosted (source : ScopeId) : Faults Hosted (σ.addMixin s source) := by
  rw [Store.addMixin]
  split
  · exact .ok _
  · exact .ok _
  · exact .error hosted

end Store

end BlockScript.Proofs.Faulting
