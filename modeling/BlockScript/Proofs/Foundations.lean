import BlockScript.Proofs.Definitions
import BlockScript.Proofs.Parameters
import BlockScript.Proofs.Removal
import BlockScript.Proofs.Seclusion
import BlockScript.Proofs.WatchingKit

namespace BlockScript.Proofs.Foundations

open Eval Evaluator Heap Holdings Hosting Law Parameters Precedence Records Running Watching Writing
open Definitions (Tidy)
open ListSlots (IsSlot)
open Seclusion (refers_regular)

variable {σ τ υ base : Store} {s p : ScopeId} {n : String} {c d : Scope} {t f : Term} {host : Host}
  {st : State} {i : Invocation}

structure Older (s : ScopeId) (c : Scope) : Prop where
  links : ∀ p ∈ links c, p < s
  record : ∀ a ∈ c.kind.activation?,
    (∀ t ∈ a.args, Refers (· < s) t) ∧ ∀ t ∈ a.yieldBlock, Refers (· < s) t

/-- Scopes refer to older ones from when they are made, and all that they come to hold refers to scopes
that there are. No list has an entry for what is its own. -/
structure Founded (σ : Store) : Prop where
  older : ∀ s, Older s (σ.get s)
  holding : Holding (Refers (· < σ.size)) (· < σ.size) σ
  mixins : ∀ s, ∀ m ∈ (σ.get s).mixins, m < σ.size
  tidy : Tidy σ

section Older

theorem activation?_form (k : ScopeKind) : (form k).activation? = k.activation? := by
  cases k <;> rfl

theorem Older.of_origin (h : origin c = origin d) (hd : Older s d) : Older s c := by
  have hactivation : c.kind.activation? = d.kind.activation? := by
    rw [← activation?_form, ← activation?_form d.kind]
    exact congrArg (fun o => o.1.activation?) h
  have hparent : c.parent = d.parent := congrArg Prod.snd h
  constructor
  · intro p hp
    apply hd.links
    rwa [Holdings.links, ← hactivation, ← hparent]
  · rw [hactivation]
    exact hd.record

theorem older_of_holds (h : Holds (Refers (· < s)) (· < s) c) : Older s c where
  links := h.links
  record a ha := by
    have hkind : kindTerms c.kind = a.args ++ a.yieldBlock.toList := by
      cases hk : c.kind <;> simp_all [ScopeKind.activation?, kindTerms]
    have hterms : ∀ t ∈ kindTerms c.kind, Refers (· < s) t := fun t ht =>
      h.terms t (mem_terms.2 (.inr (.inr ht)))
    rw [hkind, List.forall_mem_append] at hterms
    exact ⟨hterms.1, fun t ht => hterms.2 t (Option.mem_toList.2 ht)⟩

end Older

namespace Founded

theorem upkeep (h : Founded σ) (hu : Upkeep (Refers (· < σ.size)) (· < σ.size) σ τ)
    (he : Enduring σ τ) (hm : ∀ s, ∀ m ∈ (τ.get s).mixins, m < σ.size) (ht : Tidy τ) :
    Founded τ where
  older s := by
    by_cases hs : s < σ.size
    · exact (h.older s).of_origin (he.origin s hs)
    · -- there is no such scope, before and after
      rw [hu.kept s hs]
      exact h.older s
  holding := by
    rw [hu.size]
    exact hu.holding
  mixins := by
    rw [hu.size]
    exact hm
  tidy := ht

theorem alloc (h : Founded σ) (hc : Holds (Refers (· < σ.size)) (· < σ.size) c)
    (hb : c.bindings = []) (hm : c.mixins = []) : Founded (σ.alloc c) where
  older s := by
    rw [Store.get_alloc]
    split
    next hs => exact hs ▸ older_of_holds hc
    next => exact h.older s
  holding := by
    rw [Store.size_alloc]
    refine (h.holding.alloc hc).mono (fun t ht => ht.mono ?_) ?_
    all_goals exact fun s hs => Nat.lt_succ_of_lt hs
  mixins s m hmem := by
    rw [Store.get_alloc] at hmem
    rw [Store.size_alloc]
    split at hmem
    · rw [hm] at hmem
      cases hmem
    · exact Nat.lt_succ_of_lt (h.mixins s m hmem)
  tidy := h.tidy.alloc hb

theorem modify (h : Founded σ) {e : Scope → Scope}
    (hu : Upkeep (Refers (· < σ.size)) (· < σ.size) σ (σ.modify s e))
    (ho : origin (e (σ.get s)) = origin (σ.get s))
    (hm : ∀ m ∈ (e (σ.get s)).mixins, m < σ.size)
    (hb : (e (σ.get s)).bindings = (σ.get s).bindings)
    (hi : (e (σ.get s)).kind.items? = (σ.get s).kind.items?) : Founded (σ.modify s e) := by
  refine h.upkeep hu (enduring_modify ho) (fun t m hmem => ?_) (h.tidy.modify hb hi)
  rw [Store.get_modify] at hmem
  split at hmem
  next ht =>
      rw [ht.1] at hmem
      exact hm m hmem
  next => exact h.mixins t m hmem

theorem setReturned (h : Founded σ) (hs : s < σ.size) (ht : Refers (· < σ.size) t) :
    Founded (σ.setReturned s t) :=
  h.modify (h.holding.setReturned hs ht) rfl (h.mixins s) rfl rfl

theorem breakOff (h : Founded σ) (hs : s < σ.size) : Founded (σ.breakOff s) := by
  refine h.modify (h.holding.breakOff hs) ?_ ?_ ?_ ?_
  all_goals cases hk : (σ.get s).kind <;> simp [origin, form, ScopeKind.items?, hk]
  all_goals exact h.mixins s

theorem reset (h : Founded σ) (hs : s < σ.size) : Founded (σ.reset s) := by
  refine h.modify (h.holding.reset hs) ?_ ?_ ?_ ?_
  all_goals cases hk : (σ.get s).kind <;> simp [origin, form, ScopeKind.items?, hk]
  all_goals exact h.mixins s

theorem setMixins (h : Founded σ) (hs : s < σ.size) {ms : List ScopeId} (hm : ∀ m ∈ ms, m < σ.size) :
    Founded (σ.setMixins s ms) :=
  h.modify (h.holding.setMixins hs ms) rfl hm rfl rfl

theorem mixins_formal : Formal Scope.mixins where
  bindings _ _ _ := rfl
  items _ _ _ _ := rfl

theorem define (h : Founded σ) (hs : s < σ.size) (hf : Refers (· < σ.size) f)
    (hd : σ.define s n f = .ok τ) : Founded τ := by
  refine h.upkeep (h.holding.define refers_regular hs hf hd) ?_ (fun s => ?_) (h.tidy.define hd)
  · exact enduring_of_get (size_define hd) (origin_formal.get_define hd)
  · rw [mixins_formal.get_define hd s]
    exact h.mixins s

theorem remove (h : Founded σ) (hs : s < σ.size) (hr : σ.remove s n = .ok τ) : Founded τ := by
  refine h.upkeep (h.holding.remove hs hr) ?_ (fun s => ?_) (h.tidy.remove hr)
  · exact enduring_of_get (size_remove hr) (origin_formal.get_remove hr)
  · rw [mixins_formal.get_remove hr s]
    exact h.mixins s

end Founded

/-- One thing that is done to a store. What is made, and what is written, refers to scopes that there
are; a scope is made without bindings and mixins. -/
inductive Deed (σ : Store) : Store → Prop
  | alloc {c : Scope} (hc : Holds (Refers (· < σ.size)) (· < σ.size) c) (hb : c.bindings = [])
      (hm : c.mixins = []) : Deed σ (σ.alloc c)
  | define {τ : Store} {s : ScopeId} {n : String} {f : Term} (hs : s < σ.size)
      (hf : Refers (· < σ.size) f) (h : σ.define s n f = .ok τ) : Deed σ τ
  | remove {τ : Store} {s : ScopeId} {n : String} (hs : s < σ.size) (h : σ.remove s n = .ok τ) : Deed σ τ
  | setReturned {s : ScopeId} {t : Term} (hs : s < σ.size) (ht : Refers (· < σ.size) t) :
      Deed σ (σ.setReturned s t)
  | breakOff {s : ScopeId} (hs : s < σ.size) : Deed σ (σ.breakOff s)
  | reset {s : ScopeId} (hs : s < σ.size) : Deed σ (σ.reset s)
  | setMixins {s : ScopeId} {ms : List ScopeId} (hs : s < σ.size) (hm : ∀ m ∈ ms, m < σ.size) :
      Deed σ (σ.setMixins s ms)

def Deeds : Store → Store → Prop :=
  Relation.ReflTransGen Deed

theorem Deed.enduring (h : Deed σ τ) : Enduring σ τ := by
  cases h with
  | alloc => exact enduring_alloc _
  | define _ _ h => exact enduring_of_get (size_define h) (origin_formal.get_define h)
  | remove _ h => exact enduring_of_get (size_remove h) (origin_formal.get_remove h)
  | setReturned | setMixins => exact enduring_modify rfl
  | breakOff => exact enduring_breakOff _
  | reset => exact enduring_reset _

theorem Founded.deed (hσ : Founded σ) (h : Deed σ τ) : Founded τ := by
  cases h with
  | alloc hc hb hm => exact hσ.alloc hc hb hm
  | define hs hf h => exact hσ.define hs hf h
  | remove hs h => exact hσ.remove hs h
  | setReturned hs ht => exact hσ.setReturned hs ht
  | breakOff hs => exact hσ.breakOff hs
  | reset hs => exact hσ.reset hs
  | setMixins hs hm => exact hσ.setMixins hs hm

theorem Deeds.enduring (h : Deeds σ τ) : Enduring σ τ := by
  induction h with
  | refl => exact .refl _
  | tail _ hd ih => exact ih.trans hd.enduring

theorem Founded.deeds (hσ : Founded σ) (h : Deeds σ τ) : Founded τ := by
  induction h with
  | refl => exact hσ
  | tail _ hd ih => exact ih.deed hd

def doing : Law where
  inv _ := True
  step := Deeds
  value σ := Refers (· < σ.size)
  block σ := Refers (· < σ.size)
  scope σ s := s < σ.size
  site σ s := s < σ.size

/-- What is done is done to a well-founded store, in which the scopes of an earlier one endure. -/
def foundation (base : Store) : Law :=
  { doing with inv := fun σ => Founded σ ∧ Enduring base σ }

theorem later_of_deeds (h : (foundation base).inv σ) (hd : Deeds σ τ) : (foundation base).Later σ τ :=
  ⟨hd, h.1.deeds hd, h.2.trans hd.enduring⟩

theorem later_of_deed (h : (foundation base).inv σ) (hd : Deed σ τ) : (foundation base).Later σ τ :=
  later_of_deeds h (.single hd)

theorem later_alloc (h : (foundation base).inv σ)
    (hc : Holds (Refers (· < σ.size)) (· < σ.size) c) (hb : c.bindings = []) (hm : c.mixins = []) :
    (foundation base).Later σ (σ.alloc c) ∧ σ.size < (σ.alloc c).size :=
  ⟨later_of_deed h (.alloc hc hb hm), by simp⟩

section Law

variable (base : Store)

theorem foundation_upheld : (foundation base).Upheld where
  refl _ := .refl
  trans := .trans
  value_later h ht := ht.mono fun _ hs => Nat.lt_of_lt_of_le hs h.enduring.size
  block_later h ht := ht.mono fun _ hs => Nat.lt_of_lt_of_le hs h.enduring.size
  scope_later h hs := Nat.lt_of_lt_of_le hs h.enduring.size
  site_later h hs := Nat.lt_of_lt_of_le hs h.enduring.size
  site_of_scope h := h
  value_of_block h := h
  yields _ := .inr fun _ h => h
  literal h := by
    obtain rfl | ⟨b, rfl⟩ | ⟨k, rfl⟩ | ⟨x, rfl⟩ := h
    all_goals trivial
  memory h := h
  target h := h
  closure h := h
  var := by simp [foundation, doing, Refers]
  found h _ hf := h.1.holding.found refers_regular hf
  returned h _ ht := h.1.holding.returned ht
  activation h _ _ ha := h.1.holding.call ha
  define h hm hf _ hd := later_of_deed h (.define hm hf hd)
  remove h hm hr := later_of_deed h (.remove hm hr)
  setReturned h hs ht := later_of_deed h (.setReturned hs ht)
  breakOff h hs := later_of_deed h (.breakOff hs)
  newBlock h hp := later_alloc h (.block hp) rfl rfl
  newCall h hp ha hb hs := later_alloc h (.call ha hb hs hp) rfl rfl
  newList h hx := later_alloc h (.list hx) rfl rfl

theorem foundation_accommodating : (foundation base).Accommodating where
  scope h := h
  float := trivial
  items h := by simpa only [foundation, doing, Refers, allRefer_iff] using h
  listed h _ hx := h.1.holding.items hx
  parent h _ hp := h.1.holding.parent hp
  plain h hp := later_alloc h (.plain hp) rfl rfl

theorem foundation_mixing : (foundation base).Mixing := by
  intro σ τ s source h hs hsource ha
  obtain rfl | rfl := addMixin_cases ha
  · exact later_of_deeds h .refl
  · refine later_of_deed h (.setMixins hs (List.forall_mem_append.2 ⟨h.1.mixins s, ?_⟩))
    exact List.forall_mem_singleton.2 hsource

theorem foundation_binding : (foundation base).Binding := by
  intro σ τ s n f h hm hf hd
  exact later_of_deed h (.define hm hf hd)

end Law

/-- The host's natives do what evaluators do as well, one thing after another, handle scopes that there
are, and come to the same ends as long as the evaluators that they call back do. -/
def Founds (host : Host) : Prop :=
  ∀ base call call', TracksCalls (foundation base) call call' → ∀ key i st,
    (foundation base).inv st.store → Told doing st.store st.frames → doing.Served st.store i →
    host.native call' key i st = host.native call key i st ∧
      Lawful doing st (host.native call key i st) doing.value

theorem Founds.tracked (hh : Founds host) (base : Store) : TrackedBy (foundation base) host := by
  intro call call' hc key σ i hi st hst htold
  have hserved := hi.later (foundation_upheld base) hst
  obtain ⟨hsame, hlawful⟩ := hh base call call' hc key i st hst.inv htold
    ⟨hserved.args, hserved.block, hserved.scope⟩
  exact ⟨hsame, later_of_deeds hst.inv hlawful.later.step, hlawful.value, hlawful.frames, hlawful.trace⟩

theorem kit_founds : Founds Kit.host := by
  intro base call call' hc key i st hinv htold hi
  obtain ⟨hsame, hlawful⟩ := kit_tracked (foundation_upheld base) (foundation_accommodating base)
    (fun _ => ⟨fun _ => foundation_mixing base, fun _ => foundation_binding base⟩) call call' hc key
    st.store i ⟨hi.args, hi.block, hi.scope⟩ st ⟨.refl, hinv⟩ htold
  exact ⟨hsame, ⟨hlawful.later.step, trivial⟩, hlawful.value, hlawful.frames, hlawful.trace⟩

def Present (σ : Store) (frame : Frame) : Prop :=
  Refers (· < σ.size) frame.function ∧ ∀ t ∈ frame.args, Refers (· < σ.size) t

structure InOrder (st : State) : Prop where
  founded : Founded st.store
  frames : ∀ frame ∈ st.frames, Present st.store frame

theorem InOrder.told (h : InOrder st) (base : Store) :
    Told (foundation base) st.store st.frames :=
  h.frames

def BodyOf (σ : Store) (s c : ScopeId) : Prop :=
  (∃ broken, (σ.get s).kind = .block broken) ∧ (σ.get s).parent = some c ∧
    ∃ a, (σ.get c).kind = .call a

structure Navigable (σ : Store) : Prop where
  closed : Closed σ
  chain : ∀ s, σ.chain s = s :: (σ.get s).parent.elim [] σ.chain
  ends : ∀ s, ∃ r, (σ.chain s).getLast? = some r ∧ (σ.get r).parent = none
  slot : ∀ s n o, IsSlot n → σ.owner? s n = .ok (some o) → σ.items? o = none
  body : ∀ s c, BodyOf σ s c → σ.callScope? s = some c

theorem chain_ends (hσ : OlderParents σ) (s : ScopeId) :
    ∃ r, (σ.chain s).getLast? = some r ∧ (σ.get r).parent = none := by
  induction s using Nat.strong_induction_on with
  | _ s ih =>
      rw [chain_eq hσ]
      cases hp : (σ.get s).parent with
      | none => exact ⟨s, rfl, hp⟩
      | some p =>
          obtain ⟨r, hlast, hr⟩ := ih p (hσ s p hp)
          refine ⟨r, ?_, hr⟩
          rw [Option.elim_some, List.getLast?_cons, hlast]
          rfl

namespace Founded

theorem parents (h : Founded σ) : OlderParents σ :=
  fun s p hp => (h.older s).links p (mem_links.2 (.inl hp))

theorem closed (h : Founded σ) : Closed σ := by
  intro s hs t ht
  rw [Store.nexts, List.mem_append, Option.mem_toList] at ht
  obtain hmixin | hparent := ht
  · exact h.mixins s t hmixin
  · exact Nat.lt_trans (h.parents s t hparent) hs

theorem slot (h : Founded σ) {o : ScopeId} (hn : IsSlot n) (ho : σ.owner? s n = .ok (some o)) :
    σ.items? o = none := by
  by_contra hlist
  have hfree := h.tidy o n (Option.ne_none_iff_isSome.1 hlist) hn
  rw [Removal.owns_of_ownerWithin ho] at hfree
  cases hfree

theorem callScope (h : Founded σ) (hb : BodyOf σ s p) : σ.callScope? s = some p := by
  obtain ⟨⟨broken, hkind⟩, hparent, a, hcall⟩ := hb
  have hpasses : σ.settlesCall s = false := by simp only [Store.settlesCall, hkind]
  have hsettles : σ.settlesCall p = true := by simp only [Store.settlesCall, hcall]
  have hcall : σ.isCall p = true := by
    rw [Store.isCall, hcall]
    rfl
  rw [Store.callScope?, chain_eq h.parents, hparent, Option.elim_some, chain_eq h.parents p,
    List.find?_cons_of_neg (by simp [hpasses]), List.find?_cons_of_pos hsettles,
    Option.filter_some_pos hcall]

theorem navigable (h : Founded σ) : Navigable σ where
  closed := h.closed
  chain := chain_eq h.parents
  ends := chain_ends h.parents
  slot _ _ _ := h.slot
  body _ _ := h.callScope

end Founded

theorem BodyOf.later (h : BodyOf σ s p) (he : Enduring σ τ) : BodyOf τ s p := by
  obtain ⟨⟨broken, hkind⟩, hparent, a, hcall⟩ := h
  have hs : s < σ.size := by
    by_contra hge
    rw [get_of_size_le (Nat.le_of_not_lt hge)] at hkind
    cases hkind
  have horigin : origin (τ.get s) = (.block false, some p) := by
    rw [he.origin s hs, origin, hkind, hparent]
    rfl
  exact ⟨block_of_origin horigin, congrArg Prod.snd horigin, a, (he.call hcall).1⟩

structure Intact (base : Store) (f : Term) (i : Invocation) (st : State) : Prop where
  order : InOrder st
  navigable : Navigable st.store
  endures : Enduring base st.store
  callable : doing.Callable st.store f i

/-- The request is carried out in order, and so is every call on the way to its end. What was made before
stays what it was made as. -/
structure Orderly (host : Host) (q : Request) (st : State) : Prop where
  calls : AtCalls host (Intact st.store) q.askedOf st
  order : InOrder (q.perform host st).2
  endures : Enduring st.store (q.perform host st).2.store
  value : ∀ v, (q.perform host st).1 = .ok v → Refers (· < (q.perform host st).2.store.size) v
  trace : ∀ e, (q.perform host st).1 = .error e → ∀ frame ∈ e.trace.getD [],
    Present (q.perform host st).2.store frame

theorem callable_foundation (h : doing.Callable σ f i) : (foundation base).Callable σ f i :=
  ⟨h.function, h.args, h.block, h.site, h.scope⟩

theorem orderly (hh : Founds host) (ho : InOrder st) {q : Request} (hq : doing.Asks st.store q) :
    Orderly host q st := by
  have hasks : (foundation st.store).Asks st.store q := by
    cases q with
    | eval | run | runIn => exact hq
    | call => exact callable_foundation hq
  obtain ⟨hcalls, houtcome⟩ := perform_attended (foundation_upheld st.store) (hh.tracked st.store)
    ⟨ho.founded, .refl _⟩ (ho.told _) hasks
  refine ⟨fun w hw => hcalls w fun call f i st' h => hw call f i st' ?_,
    ⟨houtcome.later.inv.1, houtcome.frames⟩, houtcome.later.inv.2, houtcome.value, houtcome.trace⟩
  obtain ⟨hfunction, hargs, hblock, hsite, hscope⟩ := h.callable
  exact ⟨⟨h.inv.1, h.frames⟩, h.inv.1.navigable, h.inv.2, hfunction, hargs, hblock, hsite, hscope⟩

end BlockScript.Proofs.Foundations
