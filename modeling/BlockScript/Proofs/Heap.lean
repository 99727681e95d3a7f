import BlockScript.Proofs.Faulting
import BlockScript.Proofs.LawfulKit
import BlockScript.Proofs.Writing

namespace BlockScript.Proofs.Heap

open Faulting Law Writing

mutual

def Refers (P : ScopeId → Prop) : Term → Prop
  | .memory s _ | .scope s | .block _ s => P s
  | .var v _ _ _ => Refers P v
  | .items xs => AllRefer P xs
  | _ => True

def AllRefer (P : ScopeId → Prop) : List Term → Prop
  | [] => True
  | t :: ts => Refers P t ∧ AllRefer P ts

end

variable {P Q : ScopeId → Prop}

theorem allRefer_iff {ts : List Term} : AllRefer P ts ↔ ∀ t ∈ ts, Refers P t := by
  induction ts with
  | nil => simp [AllRefer]
  | cons t ts ih => simp [AllRefer, ih]

mutual

theorem refers_mono (hPQ : ∀ s, P s → Q s) : ∀ t, Refers P t → Refers Q t
  | .memory s _, h | .scope s, h | .block _ s, h => hPQ s h
  | .var v _ _ _, h => refers_mono hPQ v (by simpa only [Refers] using h)
  | .items xs, h => allRefer_mono hPQ xs (by simpa only [Refers] using h)
  | .null, _ | .bool _, _ | .num _, _ | .str _, _ | .float _ _, _ | .ref _ _ _, _ | .call _ _ _, _
  | .code _, _ | .native _, _ => trivial

theorem allRefer_mono (hPQ : ∀ s, P s → Q s) : ∀ ts, AllRefer P ts → AllRefer Q ts
  | [], _ => trivial
  | t :: ts, h => ⟨refers_mono hPQ t h.1, allRefer_mono hPQ ts h.2⟩

end

theorem Refers.mono {t : Term} (h : Refers P t) (hPQ : ∀ s, P s → Q s) : Refers Q t :=
  refers_mono hPQ t h

structure Sound (P : ScopeId → Prop) (c : Scope) : Prop where
  bindings : ∀ n t, c.bindings.get? n = some t → Refers P t
  returned : ∀ t ∈ c.returned, Refers P t
  items : ∀ xs ∈ c.kind.items?, ∀ t ∈ xs, Refers P t
  call : ∀ a ∈ c.kind.activation?, (∀ t ∈ a.args, Refers P t) ∧ ∀ t ∈ a.yieldBlock, Refers P t

theorem Sound.mono (hPQ : ∀ s, P s → Q s) {c : Scope} (h : Sound P c) : Sound Q c where
  bindings n t ht := (h.bindings n t ht).mono hPQ
  returned t ht := (h.returned t ht).mono hPQ
  items xs hxs t ht := (h.items xs hxs t ht).mono hPQ
  call a ha := ⟨fun t ht => ((h.call a ha).1 t ht).mono hPQ, fun t ht => ((h.call a ha).2 t ht).mono hPQ⟩

theorem Sound.set {c : Scope} (h : Sound P c) (n : String) {f : Term} (hf : Refers P f) :
    Sound P { c with bindings := c.bindings.set n f } := by
  refine { h with bindings := fun m t ht => ?_ }
  rw [Bindings.get?_set] at ht
  split at ht
  · exact Option.some.inj ht ▸ hf
  · exact h.bindings m t ht

theorem Sound.fresh {kind : ScopeKind} {parent : Option ScopeId}
    (items : ∀ xs ∈ kind.items?, ∀ t ∈ xs, Refers P t)
    (call : ∀ a ∈ kind.activation?, (∀ t ∈ a.args, Refers P t) ∧ ∀ t ∈ a.yieldBlock, Refers P t) :
    Sound P { kind, parent } :=
  ⟨nofun, nofun, items, call⟩

def shape (c : Scope) : Bool × Option Activation × Option ScopeId × List ScopeId :=
  (c.kind.items?.isSome, c.kind.activation?, c.parent, c.mixins)

theorem shape_formal : Formal shape where
  bindings _ _ _ := rfl
  items c _ _ h := by simp [shape, h, ScopeKind.items?, ScopeKind.activation?]

def IsLeaf (c : Scope) : Prop :=
  c.parent = none ∧ c.mixins = []

/-- The scopes in `M` are kept apart from the others, which scripts get to handle. -/
def Open (M : List ScopeId) (σ : Store) (s : ScopeId) : Prop :=
  s < σ.size ∧ s ∉ M

/-- No way leads from an open scope to one that is not, but for the mixins; a scope's parent and the
scope that a call came from are older than it, and mixins lead no further. -/
structure WellFormed (M : List ScopeId) (σ : Store) : Prop where
  sound : ∀ s, Sound (Open M σ) (σ.get s)
  parent : ∀ s, ∀ p ∈ (σ.get s).parent, p < s ∧ p ∉ M
  site : ∀ s, ∀ a ∈ (σ.get s).kind.activation?, ∀ p ∈ a.site, p < s ∧ p ∉ M
  mixins : ∀ s, ∀ m ∈ (σ.get s).mixins, m < σ.size ∧ IsLeaf (σ.get m)
  made : ∀ m ∈ M, m < σ.size

structure Grows (M : List ScopeId) (σ τ : Store) : Prop where
  size : σ.size ≤ τ.size
  shape : ∀ s < σ.size, shape (τ.get s) = shape (σ.get s)
  fresh : ∀ s, σ.size ≤ s → (τ.get s).mixins = []
  kept : ∀ s ∈ M, τ.get s = σ.get s

/-- Scripts handle open scopes only, and nothing but what the others hold is out of their reach. -/
def heapLaw (M : List ScopeId) : Law where
  inv := WellFormed M
  step := Grows M
  value σ := Refers (Open M σ)
  block σ := Refers (Open M σ)
  scope := Open M
  site := Open M

variable {M : List ScopeId} {σ τ υ : Store} {s p : ScopeId} {n : String} {c : Scope}
  {e : Scope → Scope}

theorem lookup_cases {f : Term} (h : σ.lookup s n = .ok (some f)) :
    (∃ o, (σ.get o).bindings.get? n = some f) ∨
      ∃ xs, σ.items? s = some xs ∧
        (f = .var (.num xs.length) true n ∨ ∃ x ∈ xs, f = .var x false n) := by
  have hbinding (h : σ.lookupBinding s n = .ok (some f)) :
      ∃ o, (σ.get o).bindings.get? n = some f := by
    obtain ⟨owner, -, h⟩ := bind_ok h
    obtain ⟨o, -, h⟩ := Option.bind_eq_some_iff.1 (Except.ok.inj h)
    obtain ⟨g, hg, h⟩ := Option.bind_eq_some_iff.1 h
    obtain rfl : g = f := by cases g <;> simp_all [Term.present?]
    exact ⟨o, hg⟩
  rw [Store.lookup] at h
  split at h
  · exact .inl (hbinding h)
  next xs hxs =>
      split at h
      · exact .inr ⟨xs, hxs, .inl (Option.some.inj (Except.ok.inj h)).symm⟩
      next i _ =>
          obtain ⟨x, hx, rfl⟩ := Option.map_eq_some_iff.1 (Except.ok.inj h)
          exact .inr ⟨xs, hxs, .inr ⟨x, List.mem_of_getElem? hx, rfl⟩⟩
      · cases h
      · exact .inl (hbinding h)

theorem mixins_of_shape {c d : Scope} (h : shape d = shape c) : d.mixins = c.mixins := by
  simp only [shape, Prod.mk.injEq] at h
  exact h.2.2.2

theorem isLeaf_of_shape {c d : Scope} (h : shape d = shape c) (hc : IsLeaf c) : IsLeaf d := by
  refine ⟨?_, (mixins_of_shape h).trans hc.2⟩
  simp only [shape, Prod.mk.injEq] at h
  exact h.2.2.1.trans hc.1

theorem Grows.refl (M : List ScopeId) (σ : Store) : Grows M σ σ where
  size := Nat.le_refl _
  shape _ _ := rfl
  fresh s hs := by rw [get_of_size_le hs]
  kept _ _ := rfl

theorem Grows.trans (h : Grows M σ τ) (h' : Grows M τ υ) : Grows M σ υ where
  size := Nat.le_trans h.size h'.size
  shape s hs := (h'.shape s (Nat.lt_of_lt_of_le hs h.size)).trans (h.shape s hs)
  fresh s hs := by
    rcases Nat.lt_or_ge s τ.size with hlt | hge
    · exact (mixins_of_shape (h'.shape s hlt)).trans (h.fresh s hs)
    · exact h'.fresh s hge
  kept s hs := (h'.kept s hs).trans (h.kept s hs)

theorem Open.later (h : Grows M σ τ) (hs : Open M σ s) : Open M τ s :=
  ⟨Nat.lt_of_lt_of_le hs.1 h.size, hs.2⟩

theorem Open.resize (h : τ.size = σ.size) (hs : Open M σ s) : Open M τ s :=
  ⟨h ▸ hs.1, hs.2⟩

namespace WellFormed

theorem open_parent (h : WellFormed M σ) (hp : p ∈ (σ.get s).parent) : Open M σ p := by
  obtain ⟨hlt, hM⟩ := h.parent s p hp
  refine ⟨Nat.lt_of_not_le fun hle => ?_, hM⟩
  rw [get_of_size_le (Nat.le_trans hle (Nat.le_of_lt hlt))] at hp
  cases hp

theorem open_site (h : WellFormed M σ) {a : Activation} (ha : a ∈ (σ.get s).kind.activation?)
    (hp : p ∈ a.site) : Open M σ p := by
  obtain ⟨hlt, hM⟩ := h.site s a ha p hp
  refine ⟨Nat.lt_of_not_le fun hle => ?_, hM⟩
  rw [get_of_size_le (Nat.le_trans hle (Nat.le_of_lt hlt))] at ha
  cases ha

theorem alloc (h : WellFormed M σ) {M' : List ScopeId} (hM : ∀ m ∈ M', m ∈ M ∨ m = σ.size)
    (hc : Sound (Open M σ) c) (hp : ∀ p ∈ c.parent, Open M σ p)
    (ha : ∀ a ∈ c.kind.activation?, ∀ p ∈ a.site, Open M σ p) (hm : c.mixins = []) :
    WellFormed M' (σ.alloc c) := by
  have hnot (s) (hlt : s < σ.size) (hs : s ∉ M) : s ∉ M' := fun hs' =>
    (hM s hs').elim hs (Nat.ne_of_lt hlt)
  have hopen (s) (hs : Open M σ s) : Open M' (σ.alloc c) s :=
    ⟨Nat.lt_of_lt_of_le hs.1 (by simp), hnot s hs.1 hs.2⟩
  constructor
  case sound =>
    intro s
    rw [Store.get_alloc]
    split
    · exact hc.mono hopen
    · exact (h.sound s).mono hopen
  case parent =>
    intro s p
    rw [Store.get_alloc]
    split
    next hs => exact fun hpc => ⟨hs ▸ (hp p hpc).1, (hopen p (hp p hpc)).2⟩
    next => exact fun hpc => ⟨(h.parent s p hpc).1, (hopen p (h.open_parent hpc)).2⟩
  case site =>
    intro s a
    rw [Store.get_alloc]
    split
    next hs => exact fun hac p hpa => ⟨hs ▸ (ha a hac p hpa).1, (hopen p (ha a hac p hpa)).2⟩
    next => exact fun hac p hpa => ⟨(h.site s a hac p hpa).1, (hopen p (h.open_site hac hpa)).2⟩
  case mixins =>
    intro s m hms
    rw [Store.get_alloc] at hms
    split at hms
    next => simp [hm] at hms
    next =>
        obtain ⟨hlt, hleaf⟩ := h.mixins s m hms
        rw [Store.get_alloc, if_neg (Nat.ne_of_lt hlt)]
        exact ⟨Nat.lt_of_lt_of_le hlt (by simp), hleaf⟩
  case made =>
    intro m hM'
    rw [Store.size_alloc]
    rcases hM m hM' with hm | rfl
    · exact Nat.lt_succ_of_lt (h.made m hm)
    · exact Nat.lt_succ_self _

theorem later_alloc (h : WellFormed M σ) (hc : Sound (Open M σ) c) (hp : ∀ p ∈ c.parent, Open M σ p)
    (ha : ∀ a ∈ c.kind.activation?, ∀ p ∈ a.site, Open M σ p) (hm : c.mixins = []) :
    (heapLaw M).Later σ (σ.alloc c) where
  step := by
    refine ⟨by simp, fun s hs => ?_, fun s hs => ?_, fun s hs => ?_⟩
    all_goals rw [Store.get_alloc]
    · rw [if_neg (Nat.ne_of_lt hs)]
    · split
      · exact hm
      · rw [get_of_size_le hs]
    · rw [if_neg (Nat.ne_of_lt (h.made s hs))]
  inv := h.alloc (fun _ => .inl) hc hp ha hm

theorem modify (h : WellFormed M σ) (he : shape (e (σ.get s)) = shape (σ.get s))
    (hc : Sound (Open M σ) (e (σ.get s))) : WellFormed M (σ.modify s e) := by
  have hsize : (σ.modify s e).size = σ.size := Store.size_modify _
  have hshape (t) : shape ((σ.modify s e).get t) = shape (σ.get t) := Formal.get_modify he t
  have hparts (t) := hshape t
  simp only [shape, Prod.mk.injEq] at hparts
  constructor
  case sound =>
    intro t
    rw [Store.get_modify]
    split
    next ht => exact (ht.1 ▸ hc).mono fun _ => Open.resize hsize
    next => exact (h.sound t).mono fun _ => Open.resize hsize
  case parent =>
    intro t
    rw [(hparts t).2.2.1]
    exact h.parent t
  case site =>
    intro t
    rw [(hparts t).2.1]
    exact h.site t
  case mixins =>
    intro t m hm
    rw [(hparts t).2.2.2] at hm
    obtain ⟨hlt, hleaf⟩ := h.mixins t m hm
    exact ⟨hsize ▸ hlt, isLeaf_of_shape (hshape m) hleaf⟩
  case made =>
    intro m hM
    exact hsize ▸ h.made m hM

theorem setMixins (h : WellFormed M σ) (hlt : s < σ.size) {ms : List ScopeId}
    (hms : ∀ m ∈ ms, m ≠ s ∧ m < σ.size ∧ IsLeaf (σ.get m))
    (hs : ∀ t, t ≠ s → s ∉ (σ.get t).mixins) : WellFormed M (σ.setMixins s ms) := by
  have hsize := size_setMixins σ s ms
  have hparts (t) : ((σ.setMixins s ms).get t).kind = (σ.get t).kind ∧
      ((σ.setMixins s ms).get t).parent = (σ.get t).parent ∧
      Sound (Open M σ) ((σ.setMixins s ms).get t) := by
    rw [Store.setMixins, Store.get_modify]
    split
    · exact ⟨rfl, rfl, { h.sound t with }⟩
    · exact ⟨rfl, rfl, h.sound t⟩
  constructor
  case sound => exact fun t => (hparts t).2.2.mono fun _ => Open.resize hsize
  case parent =>
    intro t
    rw [(hparts t).2.1]
    exact h.parent t
  case site =>
    intro t
    rw [(hparts t).1]
    exact h.site t
  case mixins =>
    intro t m hm
    rw [hsize]
    by_cases ht : t = s
    · rw [ht, Store.setMixins, Store.get_modify, if_pos ⟨rfl, hlt⟩] at hm
      obtain ⟨hne, hm⟩ := hms m hm
      rw [get_setMixins_of_ne hne]
      exact hm
    · rw [get_setMixins_of_ne ht] at hm
      have hne : m ≠ s := fun hms => hs t ht (hms ▸ hm)
      rw [get_setMixins_of_ne hne]
      exact h.mixins t m hm
  case made =>
    intro m hM
    exact hsize ▸ h.made m hM

theorem later_modify (h : WellFormed M σ) (hs : s ∉ M) (he : shape (e (σ.get s)) = shape (σ.get s))
    (hc : Sound (Open M σ) (e (σ.get s))) : (heapLaw M).Later σ (σ.modify s e) where
  step := by
    have hshape (t) : shape ((σ.modify s e).get t) = shape (σ.get t) := Formal.get_modify he t
    refine ⟨by simp, fun t _ => hshape t, fun t ht => ?_, fun t ht => ?_⟩
    · rw [mixins_of_shape (hshape t), get_of_size_le ht]
    · rw [Store.get_modify, if_neg]
      rintro ⟨rfl, -⟩
      exact hs ht
  inv := h.modify he hc

theorem open_chainWithin (h : WellFormed M σ) (hs : Open M σ s) {depth : Nat} {o : ScopeId}
    (ho : o ∈ σ.chainWithin depth s) : Open M σ o ∧ o ≤ s := by
  induction depth generalizing s with
  | zero => cases ho
  | succ depth ih =>
      rw [Store.chainWithin, List.mem_cons] at ho
      rcases ho with rfl | ho
      · exact ⟨hs, Nat.le_refl _⟩
      · split at ho
        next p hp =>
            have hle := (h.parent s p hp).1
            obtain ⟨hopen, hop⟩ := ih (h.open_parent hp) ho
            exact ⟨hopen, Nat.le_of_lt (Nat.lt_of_le_of_lt hop hle)⟩
        next => cases ho

theorem open_callScope (h : WellFormed M σ) (hs : Open M σ s) {o : ScopeId}
    (ho : σ.callScope? s = some o) : Open M σ o ∧ o ≤ s := by
  rw [Store.callScope?, Option.filter_eq_some_iff] at ho
  exact h.open_chainWithin hs (List.mem_of_find?_eq_some ho.1)

theorem found (h : WellFormed M σ) {f : Term} (hf : σ.lookup s n = .ok (some f)) :
    Refers (Open M σ) f := by
  obtain ⟨o, ho⟩ | ⟨xs, hxs, rfl | ⟨x, hx, rfl⟩⟩ := lookup_cases hf
  · exact (h.sound o).bindings n f ho
  · trivial
  · exact (h.sound s).items xs hxs x hx

theorem later_setBinding (h : WellFormed M σ) (hs : s ∉ M) {f : Term} (hf : Refers (Open M σ) f) :
    (heapLaw M).Later σ (σ.setBinding s n f) :=
  h.later_modify hs rfl ((h.sound s).set n hf)

theorem later_eraseBinding (h : WellFormed M σ) (hs : s ∉ M) :
    (heapLaw M).Later σ (σ.eraseBinding s n) := by
  refine h.later_modify hs rfl { h.sound s with bindings := fun m t ht => ?_ }
  rw [Bindings.get?_erase] at ht
  split at ht
  · cases ht
  · exact (h.sound s).bindings m t ht

theorem later_setItems (h : WellFormed M σ) (hs : s ∉ M) {xs ys : List Term}
    (hx : σ.items? s = some xs) (hy : ∀ t ∈ ys, Refers (Open M σ) t) :
    (heapLaw M).Later σ (σ.setItems s ys) := by
  refine h.later_modify hs (shape_formal.items _ xs _ (kind_of_items hx)) ?_
  exact ⟨(h.sound s).bindings, (h.sound s).returned, by rintro _ ⟨⟩; exact hy, by rintro _ ⟨⟩⟩

theorem later_define (h : WellFormed M σ) (hs : s ∉ M) {f : Term} (hf : Refers (Open M σ) f)
    (hd : σ.define s n f = .ok τ) : (heapLaw M).Later σ τ := by
  obtain ⟨-, -, rfl⟩ | ⟨xs, i, v, c, m, k, hx, -, rfl, -, rfl⟩ := define_cases hd
  · exact h.later_setBinding hs hf
  · have hv : Refers (Open M σ) v := by simpa only [Refers] using hf
    refine h.later_setItems hs hx fun t ht => ?_
    have hxs := (h.sound s).items xs hx
    split at ht
    · rcases List.mem_or_eq_of_mem_set ht with ht | rfl
      · exact hxs t ht
      · exact hv
    · rcases List.mem_append.1 ht with ht | ht
      · exact hxs t ht
      · rw [List.mem_singleton.1 ht]
        exact hv

theorem later_remove (h : WellFormed M σ) (hs : Open M σ s) (hr : σ.remove s n = .ok τ) :
    (heapLaw M).Later σ τ := by
  obtain ⟨-, rfl⟩ | ⟨xs, i, hx, -, rfl⟩ := remove_cases hr
  · rw [Store.removeBinding]
    split
    next o ho =>
        have hopen := (h.open_chainWithin hs (List.mem_of_find?_eq_some ho)).1
        exact h.later_eraseBinding hopen.2
    next => exact ⟨.refl M σ, h⟩
  · refine h.later_setItems hs.2 hx fun t ht => ?_
    exact (h.sound s).items xs hx t (List.mem_of_mem_eraseIdx ht)

theorem later_setReturned (h : WellFormed M σ) (hs : s ∉ M) {t : Term} (ht : Refers (Open M σ) t) :
    (heapLaw M).Later σ (σ.setReturned s t) := by
  refine h.later_modify hs rfl { h.sound s with returned := ?_ }
  rintro _ ⟨⟩
  exact ht

theorem later_turn (h : WellFormed M σ) (hs : s ∉ M) {e : Scope → Scope}
    (hblock : ∀ b, (σ.get s).kind = .block b →
      ∃ b' r, e (σ.get s) = { σ.get s with kind := .block b', returned := r } ∧
        ∀ t ∈ r, t ∈ (σ.get s).returned)
    (helse : (∀ b, (σ.get s).kind ≠ .block b) → e (σ.get s) = σ.get s) :
    (heapLaw M).Later σ (σ.modify s e) := by
  by_cases hb : ∃ b, (σ.get s).kind = .block b
  · obtain ⟨b, hb⟩ := hb
    obtain ⟨b', r, he, hr⟩ := hblock b hb
    refine h.later_modify hs ?_ ?_
    · simp [he, shape, hb, ScopeKind.items?, ScopeKind.activation?]
    · rw [he]
      exact ⟨(h.sound s).bindings, fun t ht => (h.sound s).returned t (hr t ht),
        by rintro _ ⟨⟩, by rintro _ ⟨⟩⟩
  · have he := helse fun b hk => hb ⟨b, hk⟩
    exact h.later_modify hs (by rw [he]) (by rw [he]; exact h.sound s)

theorem later_breakOff (h : WellFormed M σ) (hs : s ∉ M) : (heapLaw M).Later σ (σ.breakOff s) := by
  refine h.later_turn hs (fun b hb => ⟨true, (σ.get s).returned, ?_, fun _ ht => ht⟩) fun hk => ?_
  · simp only [hb]
  · cases hc : (σ.get s).kind <;> simp_all

theorem later_reset (h : WellFormed M σ) (hs : s ∉ M) : (heapLaw M).Later σ (σ.reset s) := by
  refine h.later_turn hs (fun b hb => ⟨false, none, ?_, by simp⟩) fun hk => ?_
  · simp only [hb]
  · cases hc : (σ.get s).kind <;> simp_all

end WellFormed

theorem open_new (h : WellFormed M σ) : Open M (σ.alloc c) σ.size :=
  ⟨by simp, fun hM => Nat.lt_irrefl _ (h.made _ hM)⟩

theorem heapLaw_upheld (M : List ScopeId) : (heapLaw M).Upheld where
  refl := .refl M
  trans h h' := h.trans h'
  value_later h ht := ht.mono fun _ => Open.later h
  block_later h ht := ht.mono fun _ => Open.later h
  scope_later h hs := hs.later h
  site_later h hs := hs.later h
  site_of_scope h := h
  value_of_block h := h
  yields _ := .inr fun _ h => h
  literal h := by
    obtain rfl | ⟨b, rfl⟩ | ⟨k, rfl⟩ | ⟨x, rfl⟩ := h
    all_goals trivial
  memory h := h
  target h := h
  closure h := h
  var := by simp [heapLaw, Refers]
  found h _ hf := h.found hf
  returned h _ ht := (h.sound _).returned _ ht
  activation {σ s c a} h hs hc ha := by
    have hact : a ∈ (σ.get c).kind.activation? := by simp [ha, ScopeKind.activation?]
    exact ⟨((h.sound c).call a hact).1, ((h.sound c).call a hact).2,
      fun p hp => h.open_site hact hp⟩
  define h hm hf _ hd := h.later_define hm.2 hf hd
  remove h hm hr := h.later_remove hm hr
  setReturned h hs ht := h.later_setReturned hs.2 ht
  breakOff h hs := h.later_breakOff hs.2
  newBlock h hp :=
    ⟨h.later_alloc (.fresh nofun nofun) (by rintro _ ⟨⟩; exact hp) nofun rfl, open_new h⟩
  newCall h hp ha hb hs :=
    ⟨h.later_alloc (.fresh nofun (by rintro _ ⟨⟩; exact ⟨ha, hb⟩)) (by rintro _ ⟨⟩; exact hp)
      (by rintro _ ⟨⟩; exact hs) rfl, open_new h⟩
  newList h hx :=
    ⟨h.later_alloc (.fresh (by rintro _ ⟨⟩; exact hx) nofun) nofun nofun rfl, open_new h⟩

theorem heapLaw_binding (M : List ScopeId) : (heapLaw M).Binding := by
  intro σ τ s n f h hm hf hd
  exact h.later_define hm.2 hf hd

theorem heapLaw_accommodating (M : List ScopeId) : (heapLaw M).Accommodating where
  scope h := h
  float := trivial
  items h := by simpa only [heapLaw, Refers, allRefer_iff] using h
  listed h _ hx := (h.sound _).items _ hx
  parent h _ hp := h.open_parent hp
  plain h hp := ⟨h.later_alloc (.fresh nofun nofun) hp nofun rfl, open_new h⟩

end BlockScript.Proofs.Heap
