import BlockScript.Equality
import BlockScript.Proofs.Writable
import Mathlib.Data.List.Forall2

namespace BlockScript.Proofs.Equivalence

open Faulting Writable

variable {σ : Store} {a b c t u : Term} {s : ScopeId} {xs ys ts : List Term}

mutual

/-- The term with what tells apart equal terms taken out of it: a truth value becomes a number, a native
keeps nothing but its identity and a mark is dropped. What becomes of scopes is left to `below`. -/
def expandWith (below : ScopeId → Term) : Term → Term
  | .null => .null
  | .bool b => .num b.toInt
  | .num n => .num n
  | .str s => .str s
  | .memory s n => .memory s n
  | .scope s => below s
  | .float text mark => .float text mark
  | .items xs => .items (expandAllWith below xs)
  | .ref n none _ => .ref n none
  | .ref n (some t) _ => .ref n (some (expandWith below t))
  | .call n args none => .call n (expandAllWith below args) none
  | .call n args (some c) => .call n (expandAllWith below args) (some (codeExpandWith below c))
  | .code c => .code (codeExpandWith below c)
  | .var v constant n _ => .var (expandWith below v) constant n
  | .block c s => .block (codeExpandWith below c) s
  | .native f => .native ⟨f.id, "", .host ""⟩

def codeExpandWith (below : ScopeId → Term) : Code → Code
  | ⟨ts, params⟩ => ⟨expandAllWith below ts, params⟩

def expandAllWith (below : ScopeId → Term) : List Term → List Term
  | [] => []
  | t :: ts => expandWith below t :: expandAllWith below ts

end

def expandWithin (σ : Store) : Nat → ScopeId → Term
  | 0, s => .scope s
  | depth + 1, s => match σ.items? s with
      | some xs => .items (expandAllWith (expandWithin σ depth) xs)
      | none => .scope s

def expand (σ : Store) : Term → Term :=
  expandWith (expandWithin σ (σ.size + 1))

theorem expandAllWith_eq (below : ScopeId → Term) (ts : List Term) :
    expandAllWith below ts = ts.map (expandWith below) := by
  induction ts with
  | nil => rfl
  | cons t ts ih => rw [expandAllWith, ih, List.map_cons]

section Congr

variable {below below' : ScopeId → Term}

mutual

theorem expandWith_congr : ∀ t : Term, (∀ s, Inside t (.scope s) → below s = below' s) →
    expandWith below t = expandWith below' t
  | .null, _ | .bool _, _ | .num _, _ | .str _, _ | .memory _ _, _ | .float _ _, _ |
    .ref _ none _, _ | .native _, _ => by
      rw [expandWith, expandWith]
  | .scope s, h => by
      rw [expandWith, expandWith]
      exact h s .refl
  | .items xs, h => by
      rw [expandWith, expandWith, expandAllWith_congr xs fun t ht s hs => h s (.part ht hs)]
  | .ref _ (some t) _, h => by
      rw [expandWith, expandWith, expandWith_congr t fun s hs => h s (.part (by simp [parts]) hs)]
  | .call _ args none, h => by
      rw [expandWith, expandWith, expandAllWith_congr args fun t ht s hs => h s (.part ht hs)]
  | .call _ args (some c), h => by
      rw [expandWith, expandWith,
        expandAllWith_congr args fun t ht s hs => h s (.part (by simp [parts, ht]) hs),
        codeExpandWith_congr c fun t ht s hs => h s (.part (by simp [parts, ht]) hs)]
  | .code c, h => by
      rw [expandWith, expandWith, codeExpandWith_congr c fun t ht s hs => h s (.part ht hs)]
  | .var v _ _ _, h => by
      rw [expandWith, expandWith, expandWith_congr v fun s hs => h s (.part (by simp [parts]) hs)]
  | .block c _, h => by
      rw [expandWith, expandWith, codeExpandWith_congr c fun t ht s hs => h s (.part ht hs)]

theorem codeExpandWith_congr : ∀ c : Code,
    (∀ t ∈ c.statements, ∀ s, Inside t (.scope s) → below s = below' s) →
    codeExpandWith below c = codeExpandWith below' c
  | ⟨ts, params⟩, h => by
      rw [codeExpandWith, codeExpandWith, expandAllWith_congr ts h]

theorem expandAllWith_congr : ∀ ts : List Term,
    (∀ t ∈ ts, ∀ s, Inside t (.scope s) → below s = below' s) →
    expandAllWith below ts = expandAllWith below' ts
  | [], _ => rfl
  | t :: ts, h => by
      rw [expandAllWith, expandAllWith, expandWith_congr t (h t (by simp)),
        expandAllWith_congr ts fun u hu => h u (by simp [hu])]

end

end Congr

theorem expandWithin_add (hs : ¬Circular σ (.scope s)) (more : Nat) :
    expandWithin σ (σ.size + 1 + more) s = expandWithin σ (σ.size + 1) s := by
  refine lists_end (s := s)
    (W := fun depth _ s => expandWithin σ (depth + more) s = expandWithin σ depth s) hs ?_
    (Nat.lt_succ_of_le (lists_length_le σ))
  intro depth within s _ ih
  rw [Nat.add_right_comm, expandWithin, expandWithin]
  cases hxs : σ.items? s with
  | none => rfl
  | some xs =>
      refine congrArg Term.items (expandAllWith_congr xs fun x hx u hu => ih u ?_)
      exact .head' (contents_of_item hxs hx) (within_of_inside hu)

section Expand

def expandCode (σ : Store) (c : Code) : Code :=
  ⟨c.statements.map (expand σ), c.params⟩

theorem codeExpandWith_eq (c : Code) :
    codeExpandWith (expandWithin σ (σ.size + 1)) c = expandCode σ c := by
  obtain ⟨ts, params⟩ := c
  rw [codeExpandWith, expandAllWith_eq]
  rfl

theorem expand_items (xs : List Term) : expand σ (.items xs) = .items (xs.map (expand σ)) := by
  rw [expand, expandWith, expandAllWith_eq]

theorem expand_ref (n : String) (t : Option Term) (mark : Nat) :
    expand σ (.ref n t mark) = .ref n (t.map (expand σ)) := by
  cases t with
  | none => rw [expand, expandWith, Option.map_none]
  | some t =>
      rw [expand, expandWith]
      rfl

theorem expand_call (n : String) (args : List Term) (c : Option Code) :
    expand σ (.call n args c) = .call n (args.map (expand σ)) (c.map (expandCode σ)) := by
  cases c with
  | none => rw [expand, expandWith, expandAllWith_eq, Option.map_none]
  | some c => rw [expand, expandWith, expandAllWith_eq, codeExpandWith_eq, Option.map_some]

theorem expand_code (c : Code) : expand σ (.code c) = .code (expandCode σ c) := by
  rw [expand, expandWith, codeExpandWith_eq]

theorem expand_var (v : Term) (constant : Bool) (n : String) (mark : Nat) :
    expand σ (.var v constant n mark) = .var (expand σ v) constant n := by
  rw [expand, expandWith]

theorem expand_block (c : Code) (s : ScopeId) :
    expand σ (.block c s) = .block (expandCode σ c) s := by
  rw [expand, expandWith, codeExpandWith_eq]

theorem expand_plain (hs : σ.items? s = none) : expand σ (.scope s) = .scope s := by
  rw [expand, expandWith, expandWithin, hs]

theorem expand_list (hs : ¬Circular σ (.scope s)) (hx : σ.items? s = some xs) :
    expand σ (.scope s) = .items (xs.map (expand σ)) := by
  rw [expand, expandWith, ← expandWithin_add hs 1, expandWithin, hx, ← expandAllWith_eq]

theorem expand_of_same (h : a.same b = true) : expand σ a = expand σ b := by
  induction a, b using Term.same.induct with
  | case1 text k text' l =>
      simp only [Term.same, Bool.and_eq_true, beq_iff_eq] at h
      rw [h.1, h.2]
  | case2 n t k m u l ih =>
      simp only [Term.same, Bool.and_eq_true, beq_iff_eq] at h
      rw [expand_ref, expand_ref, h.1.1, Option.map_some, Option.map_some, ih h.2]
  | case3 v c n k w d m l ih =>
      simp only [Term.same, Bool.and_eq_true, beq_iff_eq] at h
      rw [expand_var, expand_var, h.1.1.1, h.1.1.2, ih h.2]
  | case4 => simp [Term.same] at h

end Expand

def sort : Term → Nat
  | .null => 0
  | .bool _ | .num _ | .float _ _ => 1
  | .str _ => 2
  | .memory _ _ => 3
  | .scope _ | .items _ => 4
  | .ref _ _ _ => 5
  | .call _ _ _ => 6
  | .code _ => 7
  | .var _ _ _ _ => 8
  | .block _ _ => 9
  | .native _ => 10

theorem sort_expand (t : Term) : sort (expand σ t) = sort t := by
  cases t with
  | scope s =>
      rw [expand, expandWith, expandWithin]
      split <;> rfl
  | ref n t k => cases t <;> rfl
  | call n args c => cases c <;> rfl
  | _ => rfl

theorem sort_eq (h : expand σ a = expand σ b) : sort a = sort b := by
  rw [← sort_expand a, h, sort_expand]

def Decides (r : Option Bool) (p : Prop) : Prop :=
  ∃ answer, r = some answer ∧ (answer = true ↔ p)

namespace Decides

variable {r r' : Option Bool} {p q : Prop}

theorem yes (h : p) : Decides (some true) p :=
  ⟨true, rfl, iff_of_true rfl h⟩

theorem no (h : ¬p) : Decides (some false) p :=
  ⟨false, rfl, iff_of_false nofun h⟩

theorem answer {answer : Bool} (h : answer = true ↔ p) : Decides (some answer) p :=
  ⟨answer, rfl, h⟩

theorem congr (h : Decides r q) (hpq : p ↔ q) : Decides r p := by
  obtain ⟨answer, hr, hq⟩ := h
  exact ⟨answer, hr, hq.trans hpq.symm⟩

theorem and (h : Decides r p) (h' : Decides r' q) :
    Decides (do if ← r then r' else some false) (p ∧ q) := by
  obtain ⟨answer, rfl, hp⟩ := h
  cases answer with
  | true => exact h'.congr (and_iff_right (hp.1 rfl))
  | false => exact no fun h => by cases hp.2 h.1

theorem guarded {P : Prop} [Decidable P] (h : Decides r p) :
    Decides (if P then r else some false) (P ∧ p) := by
  split
  next hP => exact h.congr (and_iff_right hP)
  next hP => exact no fun hp => hP hp.1

end Decides

theorem length_eq_of_map {xs ys : List Term} (h : xs.map (expand σ) = ys.map (expand σ)) :
    xs.length = ys.length := by
  simpa using congrArg List.length h

namespace Decides

variable {r r' : Option Bool}

theorem sized (h : Decides r (xs.map (expand σ) = ys.map (expand σ))) :
    Decides (if xs.length = ys.length then r else some false)
      (xs.map (expand σ) = ys.map (expand σ)) :=
  h.guarded.congr (and_iff_right_of_imp length_eq_of_map).symm

theorem code {ts us : List Term} {ps qs : List String}
    (h : Decides r (ts.map (expand σ) = us.map (expand σ))) :
    Decides (if ts.length = us.length then do if ← r then some (ps == qs) else some false
      else some false) (expandCode σ ⟨ts, ps⟩ = expandCode σ ⟨us, qs⟩) := by
  refine (h.and (.answer beq_iff_eq)).guarded.congr ?_
  rw [expandCode, expandCode, Code.mk.injEq]
  exact (and_iff_right_of_imp fun heq => length_eq_of_map heq.1).symm

theorem call {n m : String} {c d : Option Code}
    (h : Decides r (xs.map (expand σ) = ys.map (expand σ)))
    (h' : Decides r' (c.map (expandCode σ) = d.map (expandCode σ))) :
    Decides (if n = m ∧ xs.length = ys.length then do if ← r then r' else some false
      else some false) (expand σ (.call n xs c) = expand σ (.call m ys d)) := by
  refine (h.and h').guarded.congr ?_
  rw [expand_call, expand_call, Term.call.injEq, and_assoc]
  exact and_congr_right fun _ => (and_iff_right_of_imp fun heq => length_eq_of_map heq.1).symm

end Decides

/-- There is no floating-point number in the term, and no list that contains itself. -/
structure Tame (σ : Store) (t : Term) : Prop where
  acyclic : ¬Circular σ t
  floatless : ∀ text mark, ¬Within σ t (.float text mark)

namespace Tame

theorem within (h : Tame σ t) (hu : Within σ t u) : Tame σ u where
  acyclic hc := h.acyclic (hc.of_within hu)
  floatless text mark hf := h.floatless text mark (hu.trans hf)

theorem part (h : Tame σ t) (hu : u ∈ parts t) : Tame σ u :=
  h.within (.single (contents_of_part hu))

theorem item (h : Tame σ (.scope s)) (hx : σ.items? s = some xs) (ht : t ∈ xs) : Tame σ t :=
  h.within (.single (contents_of_item hx ht))

theorem of_contents (hc : ∀ s, t = .scope s → ¬Beneath σ (.scope s) (.scope s))
    (hf : ∀ text mark, t ≠ .float text mark) (h : ∀ u ∈ contents σ t, Tame σ u) : Tame σ t where
  acyclic := by
    rintro ⟨s, hs, hcirc⟩
    rcases Relation.ReflTransGen.cases_head hs with rfl | ⟨u, hu, hs⟩
    · exact hc s rfl hcirc
    · exact (h u hu).acyclic ⟨s, hs, hcirc⟩
  floatless text mark ht := by
    rcases Relation.ReflTransGen.cases_head ht with rfl | ⟨u, hu, ht⟩
    · exact hf text mark rfl
    · exact (h u hu).floatless text mark ht

theorem code {c : Code} (h : ∀ t ∈ c.statements, Tame σ t) : Tame σ (.code c) :=
  of_contents nofun nofun h

theorem of_leaves (hts : contents σ t = ts) (hf : ∀ text mark, t ≠ .float text mark)
    (h : ∀ u ∈ ts, contents σ u = [] ∧ ∀ text mark, u ≠ .float text mark) : Tame σ t := by
  subst hts
  refine of_contents (fun s hs hc => ?_) hf fun u hu => ?_
  · subst hs
    obtain ⟨u, hu, hs⟩ := Relation.TransGen.head'_iff.1 hc
    rcases Relation.ReflTransGen.cases_head hs with rfl | ⟨v, hv, -⟩
    · simp [(h _ hu).1] at hu
    · simp [(h u hu).1] at hv
  · obtain ⟨hnil, hf⟩ := h u hu
    refine of_contents (fun s hs hc => ?_) hf (by simp [hnil])
    obtain ⟨v, hv, -⟩ := Relation.TransGen.head'_iff.1 hc
    simp [← hs, hnil] at hv

end Tame

section Compare

variable {below : ScopeId → Term → Option Bool}

def Compares (σ : Store) (below : ScopeId → Term → Option Bool) (t : Term) : Prop :=
  ∀ s, Inside t (.scope s) → ∀ u, Tame σ u → Decides (below s u) (expand σ (.scope s) = expand σ u)

theorem Compares.part (h : Compares σ below t) (hu : u ∈ parts t) : Compares σ below u :=
  fun s hs => h s (.part hu hs)

theorem mem_call_args {n : String} {args : List Term} {c : Option Code} (h : t ∈ args) :
    t ∈ parts (.call n args c) := by
  cases c <;> simp [parts, h]

theorem mem_call_block {n : String} {args : List Term} {c : Code} (h : t ∈ c.statements) :
    t ∈ parts (.call n args (some c)) := by
  simp [parts, h]

theorem decides_of_sort_ne (hs : ∀ s, a ≠ .scope s) (h : sort a ≠ sort b) :
    Decides (Term.equalWith σ.items? below a b) (expand σ a = expand σ b) := by
  have hfalse : Term.equalWith σ.items? below a b = some false := by
    cases a
    case scope s => exact absurd rfl (hs s)
    all_goals
      cases b
      all_goals first
        | exact absurd rfl h
        | simp [Term.equalWith, Term.magnitude?]
  rw [hfalse]
  exact .no fun heq => h (sort_eq heq)

mutual

theorem equalWith_decides : ∀ a b : Term, Tame σ a → Tame σ b → Compares σ below a →
    Decides (Term.equalWith σ.items? below a b) (expand σ a = expand σ b)
  | .null, b, _, _, _ => by
      cases b
      case null => exact .yes rfl
      all_goals exact decides_of_sort_ne nofun (by simp [sort])
  | .bool x, b, _, hb, _ => by
      cases b
      case bool | num => exact .answer (by simp [expand, expandWith])
      case float text mark => exact absurd .refl (hb.floatless text mark)
      all_goals exact decides_of_sort_ne nofun (by simp [sort])
  | .num n, b, _, hb, _ => by
      cases b
      case bool | num => exact .answer (by simp [expand, expandWith])
      case float text mark => exact absurd .refl (hb.floatless text mark)
      all_goals exact decides_of_sort_ne nofun (by simp [sort])
  | .float text mark, b, ha, _, _ => absurd .refl (ha.floatless text mark)
  | .str x, b, _, _, _ => by
      cases b
      case str y => exact .answer (by simp [expand, expandWith])
      all_goals exact decides_of_sort_ne nofun (by simp [sort])
  | .memory s n, b, _, _, _ => by
      cases b
      case memory => exact .answer (by simp [expand, expandWith])
      all_goals exact decides_of_sort_ne nofun (by simp [sort])
  | .native f, b, _, _, _ => by
      cases b
      case native => exact .answer (by simp [expand, expandWith])
      all_goals exact decides_of_sort_ne nofun (by simp [sort])
  | .scope s, b, _, hb, h => by
      rw [Term.equalWith]
      exact h s .refl b hb
  | .items xs, b, ha, hb, h => by
      have hxs (ys : List Term) (hys : ∀ y ∈ ys, Tame σ y) :=
        allEqualWith_decides xs ys (fun x hx => ha.part hx) hys fun x hx => h.part hx
      cases b
      case scope t =>
        rw [Term.equalWith]
        cases ht : σ.items? t with
        | none =>
            rw [expand_items, expand_plain ht]
            exact .no nofun
        | some ys =>
            rw [expand_items, expand_list hb.acyclic ht, Term.items.injEq]
            exact (hxs ys fun y hy => hb.item ht hy).sized
      case items ys =>
        rw [Term.equalWith, expand_items, expand_items, Term.items.injEq]
        exact (hxs ys fun y hy => hb.part hy).sized
      all_goals exact decides_of_sort_ne nofun (by simp [sort])
  | .ref n none _, b, _, hb, _ => by
      cases b
      case ref m u _ =>
        cases u with
        | none => exact (Decides.guarded (.yes trivial)).congr (by simp [expand_ref])
        | some u => exact (Decides.guarded (.no not_false)).congr (by simp [expand_ref])
      all_goals exact decides_of_sort_ne nofun (by simp [sort])
  | .ref n (some t) _, b, ha, hb, h => by
      cases b
      case ref m u _ =>
        cases u with
        | none => exact (Decides.guarded (.no not_false)).congr (by simp [expand_ref])
        | some u =>
            have ht : t ∈ parts (.ref n (some t)) := List.mem_singleton.2 rfl
            have hu : u ∈ parts (.ref m (some u)) := List.mem_singleton.2 rfl
            have htarget := equalWith_decides t u (ha.part ht) (hb.part hu) (h.part ht)
            exact htarget.guarded.congr (by simp [expand_ref])
      all_goals exact decides_of_sort_ne nofun (by simp [sort])
  | .call n as none, b, ha, hb, h => by
      cases b
      case call m bs d =>
        have hargs := allEqualWith_decides as bs (fun t ht => ha.part (mem_call_args ht))
          (fun t ht => hb.part (mem_call_args ht)) fun t ht => h.part (mem_call_args ht)
        cases d with
        | none => exact hargs.call (.yes rfl)
        | some d => exact hargs.call (.no nofun)
      all_goals exact decides_of_sort_ne nofun (by simp [sort])
  | .call n as (some c), b, ha, hb, h => by
      cases b
      case call m bs d =>
        have hargs := allEqualWith_decides as bs (fun t ht => ha.part (mem_call_args ht))
          (fun t ht => hb.part (mem_call_args ht)) fun t ht => h.part (mem_call_args ht)
        cases d with
        | none => exact hargs.call (.no nofun)
        | some d =>
            have hcode := codeEqualWith_decides c d (fun t ht => ha.part (mem_call_block ht))
              (fun t ht => hb.part (mem_call_block ht)) fun t ht => h.part (mem_call_block ht)
            exact hargs.call (hcode.congr (by simp))
      all_goals exact decides_of_sort_ne nofun (by simp [sort])
  | .code c, b, ha, hb, h => by
      cases b
      case code d =>
        rw [Term.equalWith, expand_code, expand_code, Term.code.injEq]
        exact codeEqualWith_decides c d (fun t ht => ha.part ht) (fun t ht => hb.part ht)
          fun t ht => h.part ht
      all_goals exact decides_of_sort_ne nofun (by simp [sort])
  | .var v k n _, b, ha, hb, h => by
      cases b
      case var w l m _ =>
        have hv : v ∈ parts (.var v k n) := List.mem_singleton.2 rfl
        have hw : w ∈ parts (.var w l m) := List.mem_singleton.2 rfl
        have hvalue := equalWith_decides v w (ha.part hv) (hb.part hw) (h.part hv)
        rw [Term.equalWith]
        refine (hvalue.and (.answer (by simp : _ ↔ k = l ∧ n = m))).congr ?_
        rw [expand_var, expand_var, Term.var.injEq, and_iff_left rfl]
      all_goals exact decides_of_sort_ne nofun (by simp [sort])
  | .block c s, b, ha, hb, h => by
      cases b
      case block d t =>
        have hcode := codeEqualWith_decides c d (fun t ht => ha.part ht) (fun t ht => hb.part ht)
          fun t ht => h.part ht
        rw [Term.equalWith, expand_block, expand_block, Term.block.injEq]
        exact hcode.and (.answer (by simp))
      all_goals exact decides_of_sort_ne nofun (by simp [sort])

theorem codeEqualWith_decides : ∀ c d : Code, (∀ t ∈ c.statements, Tame σ t) →
    (∀ t ∈ d.statements, Tame σ t) → (∀ t ∈ c.statements, Compares σ below t) →
    Decides (Code.equalWith σ.items? below c d) (expandCode σ c = expandCode σ d)
  | ⟨ts, ps⟩, ⟨us, qs⟩, hc, hd, h => by
      rw [Code.equalWith]
      exact (allEqualWith_decides ts us hc hd h).code

theorem allEqualWith_decides : ∀ as bs : List Term, (∀ t ∈ as, Tame σ t) → (∀ t ∈ bs, Tame σ t) →
    (∀ t ∈ as, Compares σ below t) →
    Decides (Term.allEqualWith σ.items? below as bs) (as.map (expand σ) = bs.map (expand σ))
  | [], [], _, _, _ => .yes rfl
  | [], _ :: _, _, _, _ => .no nofun
  | _ :: _, [], _, _, _ => .no nofun
  | a :: as, b :: bs, ha, hb, h => by
      rw [List.forall_mem_cons] at ha hb h
      have htail := allEqualWith_decides as bs ha.2 hb.2 h.2
      have hhead : Decides (if a.same b then some true else Term.equalWith σ.items? below a b)
          (expand σ a = expand σ b) := by
        split
        next hsame => exact .yes (expand_of_same hsame)
        next => exact equalWith_decides a b ha.1 hb.1 h.1
      rw [Term.allEqualWith, List.map_cons, List.map_cons, List.cons.injEq]
      exact hhead.and htail

end

theorem allEqual_eq (below : ScopeId → Term → Option Bool) (xs ys : List Term) :
    allEqual (Term.equalWith σ.items? below) xs ys = Term.allEqualWith σ.items? below xs ys := by
  induction xs generalizing ys with
  | nil => cases ys <;> rfl
  | cons x xs ih =>
      cases ys with
      | nil => rfl
      | cons y ys => rw [allEqual, Term.allEqualWith, ih, itemEqual]

theorem listEqual_decides (hxs : ∀ x ∈ xs, Tame σ x) (hys : ∀ y ∈ ys, Tame σ y)
    (h : ∀ x ∈ xs, Compares σ below x) :
    Decides (listEqual (Term.equalWith σ.items? below) xs ys)
      (xs.map (expand σ) = ys.map (expand σ)) := by
  rw [listEqual, allEqual_eq]
  exact (allEqualWith_decides xs ys hxs hys h).sized

end Compare

section Within

variable {depth : Nat} {within : List (ScopeId × ScopeId)}

theorem equalWithin_scope {v : ScopeId} (hs : Tame σ (.scope s)) (hv : Tame σ (.scope v))
    (hnew : (s, v) ∉ within)
    (h : ∀ xs ys, σ.items? s = some xs → σ.items? v = some ys →
      Decides (listEqual (Term.equalWith σ.items? (σ.equalWithin depth ((s, v) :: within))) xs ys)
        (xs.map (expand σ) = ys.map (expand σ))) :
    Decides (σ.equalWithin (depth + 1) within s (.scope v))
      (expand σ (.scope s) = expand σ (.scope v)) := by
  rw [Store.equalWithin]
  split
  next hsv => exact .yes (by rw [hsv])
  next hsv =>
      cases hxs : σ.items? s with
      | none =>
          rw [expand_plain hxs]
          cases hys : σ.items? v with
          | none =>
              rw [expand_plain hys]
              exact .no fun heq => hsv (Term.scope.inj heq)
          | some ys =>
              rw [expand_list hv.acyclic hys]
              exact .no (by simp)
      | some xs =>
          rw [expand_list hs.acyclic hxs]
          cases hys : σ.items? v with
          | none =>
              rw [expand_plain hys]
              exact .no (by simp)
          | some ys =>
              rw [expand_list hv.acyclic hys, Term.items.injEq]
              exact h xs ys hxs hys

theorem equalWithin_items (hs : Tame σ (.scope s))
    (h : ∀ xs, σ.items? s = some xs →
      Decides (listEqual (Term.equalWith σ.items? (σ.equalWithin depth within)) xs ys)
        (xs.map (expand σ) = ys.map (expand σ))) :
    Decides (σ.equalWithin (depth + 1) within s (.items ys))
      (expand σ (.scope s) = expand σ (.items ys)) := by
  rw [Store.equalWithin, expand_items]
  cases hxs : σ.items? s with
  | none =>
      rw [expand_plain hxs]
      exact .no (by simp)
  | some xs =>
      rw [expand_list hs.acyclic hxs, Term.items.injEq]
      exact h xs hxs

/-- The lists on the left that are open are not opened again, whatever they are compared with. -/
theorem equalWithin_decides (hdepth : (lists σ).length < depth) (hs : Tame σ (.scope s)) :
    ∀ u, Tame σ u → Decides (σ.equalWithin depth [] s u) (expand σ (.scope s) = expand σ u) := by
  refine lists_end (s := s) (W := fun depth opened s => Tame σ (.scope s) →
    ∀ within : List (ScopeId × ScopeId), (∀ e ∈ within, e.1 ∈ opened) → ∀ u, Tame σ u →
      Decides (σ.equalWithin depth within s u) (expand σ (.scope s) = expand σ u))
    hs.acyclic ?_ hdepth hs [] nofun
  intro depth opened s hnew ih hs within hwithin u hu
  have hitems {within} (hwithin : ∀ e ∈ within, e.1 ∈ s :: opened) (xs ys : List Term)
      (hxs : σ.items? s = some xs) (hys : ∀ y ∈ ys, Tame σ y) :
      Decides (listEqual (Term.equalWith σ.items? (σ.equalWithin depth within)) xs ys)
        (xs.map (expand σ) = ys.map (expand σ)) := by
    refine listEqual_decides (fun x hx => hs.item hxs hx) hys fun x hx v hv u hu => ?_
    have hbelow : Beneath σ (.scope s) (.scope v) :=
      .head' (contents_of_item hxs hx) (within_of_inside hv)
    exact ih v hbelow (hs.within hbelow.to_reflTransGen) within hwithin u hu
  have hopened : ∀ e ∈ within, e.1 ∈ s :: opened := fun e he => List.mem_cons_of_mem s (hwithin e he)
  cases u with
  | scope v =>
      refine equalWithin_scope hs hu (fun h => hnew (hwithin _ h)) fun xs ys hxs hys => ?_
      refine hitems (List.forall_mem_cons.2 ⟨?_, hopened⟩) xs ys hxs fun y hy => hu.item hys hy
      exact List.mem_cons_self
  | items ys =>
      exact equalWithin_items hs fun xs hxs => hitems hopened xs ys hxs fun y hy => hu.part hy
  | _ =>
      refine Decides.no fun heq => ?_
      cases sort_eq heq

end Within

theorem foldl_count_le (cs : List Scope) (n : Nat) :
    n + (cs.filter fun c => c.kind.items?.isSome).length ≤
      cs.foldl (fun n c => n + c.kind.items?.elim 0 fun xs => weightAll xs + 1) n := by
  induction cs generalizing n with
  | nil => exact Nat.le_refl n
  | cons c cs ih =>
      refine Nat.le_trans ?_ (ih _)
      rw [List.filter_cons]
      change _ ≤ (n + c.kind.items?.elim 0 fun xs => weightAll xs + 1) + _
      cases c.kind.items? with
      | none => exact Nat.le_refl _
      | some xs =>
          simp only [Option.isSome_some, if_true, List.length_cons, Option.elim_some]
          omega

theorem lists_length_le_weight (σ : Store) : (lists σ).length ≤ σ.weight := by
  have hget : (List.range σ.size).map σ.get = σ.scopes.toList := by
    apply List.ext_getElem
    · simp [Store.size]
    · intro k hk hk'
      have hk : k < σ.scopes.size := by simpa [Store.size] using hk
      simp [Store.get, hk]
  have hcount := foldl_count_le σ.scopes.toList 0
  rw [← hget, List.filter_map, List.length_map, hget] at hcount
  rw [Store.weight, ← Array.foldl_toList]
  simpa [lists, Store.items?, Function.comp_def] using hcount

theorem equal?_decides (ha : Tame σ a) (hb : Tame σ b) :
    Decides (σ.equal? a b) (expand σ a = expand σ b) := by
  rw [Store.equal?]
  refine equalWith_decides a b ha hb fun s hs u hu => ?_
  refine equalWithin_decides ?_ (ha.within (within_of_inside hs)) u hu
  have hlists := lists_length_le_weight σ
  have hplaces := Nat.le_mul_self (a.weight + b.weight + σ.weight)
  omega

theorem equal?_iff (ha : Tame σ a) (hb : Tame σ b) :
    σ.equal? a b = some true ↔ expand σ a = expand σ b := by
  obtain ⟨answer, hanswer, hiff⟩ := equal?_decides ha hb
  rw [hanswer, Option.some.injEq, hiff]

theorem equal?_comm (ha : Tame σ a) (hb : Tame σ b) : σ.equal? b a = σ.equal? a b := by
  obtain ⟨answer, hanswer, hiff⟩ := equal?_decides ha hb
  obtain ⟨answer', hanswer', hiff'⟩ := equal?_decides hb ha
  rw [hanswer, hanswer', Option.some.injEq, Bool.eq_iff_iff, hiff, hiff', eq_comm]

def listed? (σ : Store) : Term → Option (List Term)
  | .scope s => σ.items? s
  | .items xs => some xs
  | _ => none

theorem Tame.listed (h : Tame σ t) (hx : listed? σ t = some xs) (hu : u ∈ xs) : Tame σ u := by
  cases t with
  | scope s => exact h.item hx hu
  | items ys =>
      obtain rfl := Option.some.inj hx
      exact h.part hu
  | _ => cases hx

theorem expand_listed (h : Tame σ t) (hx : listed? σ t = some xs) :
    expand σ t = .items (xs.map (expand σ)) := by
  cases t with
  | scope s => exact expand_list h.acyclic hx
  | items ys =>
      obtain rfl := Option.some.inj hx
      exact expand_items ys
  | _ => cases hx

def number? : Term → Option Int
  | .bool b => some b.toInt
  | .num n => some n
  | _ => none

theorem expand_number {n : Int} (h : number? t = some n) : expand σ t = .num n := by
  cases t with
  | bool | num =>
      obtain rfl := Option.some.inj h
      rw [expand, expandWith]
  | _ => cases h

inductive Alike (σ : Store) : Term → Term → Prop
  | null : Alike σ .null .null
  | number {a b : Term} {n : Int} (ha : number? a = some n) (hb : number? b = some n) : Alike σ a b
  | str (text : String) : Alike σ (.str text) (.str text)
  | memory (s : ScopeId) (n : String) : Alike σ (.memory s n) (.memory s n)
  | scope (s : ScopeId) : Alike σ (.scope s) (.scope s)
  | list {a b : Term} {xs ys : List Term} (ha : listed? σ a = some xs) (hb : listed? σ b = some ys)
      (h : List.Forall₂ (fun x y => σ.equal? x y = some true) xs ys) : Alike σ a b
  | ref {n : String} {t u : Option Term} {k l : Nat}
      (h : Option.Rel (fun t u => σ.equal? t u = some true) t u) : Alike σ (.ref n t k) (.ref n u l)
  | call {n : String} {as bs : List Term} {c d : Option Code}
      (h : List.Forall₂ (fun x y => σ.equal? x y = some true) as bs)
      (hb : Option.Rel (fun c d => σ.equal? (.code c) (.code d) = some true) c d) :
      Alike σ (.call n as c) (.call n bs d)
  | code {ts us : List Term} {params : List String}
      (h : List.Forall₂ (fun x y => σ.equal? x y = some true) ts us) :
      Alike σ (.code ⟨ts, params⟩) (.code ⟨us, params⟩)
  | var {v w : Term} {constant : Bool} {n : String} {k l : Nat} (h : σ.equal? v w = some true) :
      Alike σ (.var v constant n k) (.var w constant n l)
  | block {c d : Code} {s : ScopeId} (h : σ.equal? (.code c) (.code d) = some true) :
      Alike σ (.block c s) (.block d s)
  | native {f g : Native} (h : f.id = g.id) : Alike σ (.native f) (.native g)

theorem forall₂_iff (hxs : ∀ x ∈ xs, Tame σ x) (hys : ∀ y ∈ ys, Tame σ y) :
    List.Forall₂ (fun x y => σ.equal? x y = some true) xs ys ↔
      xs.map (expand σ) = ys.map (expand σ) := by
  induction xs generalizing ys with
  | nil => cases ys <;> simp
  | cons x xs ih =>
      cases ys with
      | nil => simp
      | cons y ys =>
          rw [List.forall_mem_cons] at hxs hys
          rw [List.forall₂_cons, List.map_cons, List.map_cons, List.cons.injEq, ih hxs.2 hys.2,
            equal?_iff hxs.1 hys.1]

theorem rel_iff {α β : Type} {R : α → α → Prop} {f : α → β} {x y : Option α}
    (h : ∀ a ∈ x, ∀ b ∈ y, R a b ↔ f a = f b) : Option.Rel R x y ↔ x.map f = y.map f := by
  cases x with
  | none =>
      cases y with
      | none => exact iff_of_true .none rfl
      | some b => exact iff_of_false nofun nofun
  | some a =>
      cases y with
      | none => exact iff_of_false nofun nofun
      | some b =>
          rw [Option.map_some, Option.map_some, Option.some.injEq, ← h a rfl b rfl]
          exact ⟨fun hr => by cases hr; assumption, .some⟩

section Parts

variable {n m : String} {k l : Nat} {c d : Code} {s' : ScopeId}

theorem listed_iff (ha : Tame σ a) (hb : Tame σ b) (hx : listed? σ a = some xs)
    (hy : listed? σ b = some ys) : expand σ a = expand σ b ↔
      List.Forall₂ (fun x y => σ.equal? x y = some true) xs ys := by
  rw [expand_listed ha hx, expand_listed hb hy, Term.items.injEq]
  exact (forall₂_iff (fun _ h => ha.listed hx h) fun _ h => hb.listed hy h).symm

theorem code_iff (hc : ∀ t ∈ c.statements, Tame σ t) (hd : ∀ t ∈ d.statements, Tame σ t) :
    expandCode σ c = expandCode σ d ↔
      List.Forall₂ (fun x y => σ.equal? x y = some true) c.statements d.statements ∧
        c.params = d.params := by
  rw [expandCode, expandCode, Code.mk.injEq, forall₂_iff hc hd]

theorem equal_code_iff (hc : ∀ t ∈ c.statements, Tame σ t) (hd : ∀ t ∈ d.statements, Tame σ t) :
    σ.equal? (.code c) (.code d) = some true ↔ expandCode σ c = expandCode σ d := by
  rw [equal?_iff (.code hc) (.code hd), expand_code, expand_code, Term.code.injEq]

theorem call_iff {as bs : List Term} {c d : Option Code} (ha : Tame σ (.call n as c))
    (hb : Tame σ (.call m bs d)) : expand σ (.call n as c) = expand σ (.call m bs d) ↔
      n = m ∧ List.Forall₂ (fun x y => σ.equal? x y = some true) as bs ∧
        Option.Rel (fun c d => σ.equal? (.code c) (.code d) = some true) c d := by
  rw [expand_call, expand_call, Term.call.injEq]
  have hargs := forall₂_iff (fun _ h => ha.part (mem_call_args h)) fun _ h => hb.part (mem_call_args h)
  have hblock : Option.Rel (fun c d => σ.equal? (.code c) (.code d) = some true) c d ↔
      c.map (expandCode σ) = d.map (expandCode σ) := by
    refine rel_iff fun c hc d hd => ?_
    obtain rfl := hc
    obtain rfl := hd
    exact equal_code_iff (fun _ h => ha.part (mem_call_block h)) fun _ h => hb.part (mem_call_block h)
  rw [hargs, hblock]

theorem var_iff {v w : Term} {constant constant' : Bool} (ha : Tame σ (.var v constant n k))
    (hb : Tame σ (.var w constant' m l)) :
    expand σ (.var v constant n k) = expand σ (.var w constant' m l) ↔
      σ.equal? v w = some true ∧ constant = constant' ∧ n = m := by
  rw [expand_var, expand_var, Term.var.injEq, and_iff_left rfl]
  exact and_congr_left fun _ =>
    (equal?_iff (ha.part (List.mem_singleton.2 rfl)) (hb.part (List.mem_singleton.2 rfl))).symm

theorem block_iff {s s' : ScopeId} (ha : Tame σ (.block c s)) (hb : Tame σ (.block d s')) :
    expand σ (.block c s) = expand σ (.block d s') ↔
      σ.equal? (.code c) (.code d) = some true ∧ s = s' := by
  rw [expand_block, expand_block, Term.block.injEq,
    equal_code_iff (fun _ h => ha.part h) fun _ h => hb.part h]

theorem ref_iff {t u : Option Term} (ha : Tame σ (.ref n t k)) (hb : Tame σ (.ref m u l)) :
    expand σ (.ref n t k) = expand σ (.ref m u l) ↔
      n = m ∧ Option.Rel (fun t u => σ.equal? t u = some true) t u := by
  rw [expand_ref, expand_ref, Term.ref.injEq, and_iff_left rfl]
  refine and_congr_right fun _ => (rel_iff fun v hv w hw => ?_).symm
  obtain rfl := hv
  obtain rfl := hw
  exact equal?_iff (ha.part (List.mem_singleton.2 rfl)) (hb.part (List.mem_singleton.2 rfl))

end Parts

theorem list_or_plain (h : sort t = 4) :
    (∃ xs, listed? σ t = some xs) ∨ ∃ s, t = .scope s ∧ expand σ t = .scope s := by
  cases t with
  | scope s =>
      cases hs : σ.items? s with
      | none => exact .inr ⟨s, rfl, expand_plain hs⟩
      | some xs => exact .inl ⟨xs, hs⟩
  | items xs => exact .inl ⟨xs, rfl⟩
  | _ => cases h

theorem alike_of_lists (ha : Tame σ a) (hb : Tame σ b) (hsa : sort a = 4) (hsb : sort b = 4)
    (h : expand σ a = expand σ b) : Alike σ a b := by
  rcases list_or_plain (σ := σ) hsa with ⟨xs, hx⟩ | ⟨s, rfl, hs⟩
  · rcases list_or_plain (σ := σ) hsb with ⟨ys, hy⟩ | ⟨t, rfl, ht⟩
    · exact .list hx hy ((listed_iff ha hb hx hy).1 h)
    · rw [expand_listed ha hx, ht] at h
      cases h
  · rcases list_or_plain (σ := σ) hsb with ⟨ys, hy⟩ | ⟨t, rfl, ht⟩
    · rw [expand_listed hb hy, hs] at h
      cases h
    · rw [hs, ht] at h
      obtain rfl := Term.scope.inj h
      exact .scope s

theorem alike_of_expand_eq (ha : Tame σ a) (hb : Tame σ b) (h : expand σ a = expand σ b) :
    Alike σ a b := by
  have hsort := sort_eq h
  cases a <;> cases b
  all_goals simp [sort] at hsort
  case null.null => exact .null
  case bool.bool | bool.num | num.bool | num.num =>
    simp only [expand, expandWith, Term.num.injEq] at h
    exact .number rfl (congrArg some h.symm)
  case float.bool | float.num | float.float => exact absurd .refl (ha.floatless _ _)
  case bool.float | num.float => exact absurd .refl (hb.floatless _ _)
  case str.str =>
    obtain rfl := Term.str.inj h
    exact .str _
  case memory.memory =>
    obtain ⟨rfl, rfl⟩ := Term.memory.inj h
    exact .memory _ _
  case scope.scope | scope.items | items.scope | items.items =>
    exact alike_of_lists ha hb rfl rfl h
  case ref.ref =>
    obtain ⟨rfl, htarget⟩ := (ref_iff ha hb).1 h
    exact .ref htarget
  case call.call =>
    obtain ⟨rfl, hargs, hblock⟩ := (call_iff ha hb).1 h
    exact .call hargs hblock
  case code.code c d =>
    rw [expand_code, expand_code, Term.code.injEq] at h
    obtain ⟨hstatements, hparams⟩ := (code_iff (fun _ h => ha.part h) fun _ h => hb.part h).1 h
    obtain ⟨ts, params⟩ := c
    obtain ⟨us, params'⟩ := d
    obtain rfl : params = params' := hparams
    exact .code hstatements
  case var.var =>
    obtain ⟨hvalue, rfl, rfl⟩ := (var_iff ha hb).1 h
    exact .var hvalue
  case block.block =>
    obtain ⟨hcode, rfl⟩ := (block_iff ha hb).1 h
    exact .block hcode
  case native.native =>
    simp only [expand, expandWith, Term.native.injEq, Native.mk.injEq, and_true] at h
    exact .native h

theorem alike_iff (ha : Tame σ a) (hb : Tame σ b) : Alike σ a b ↔ expand σ a = expand σ b := by
  constructor
  · intro h
    cases h with
    | null | str | memory | scope => rfl
    | number hn hm => rw [expand_number hn, expand_number hm]
    | list hx hy h => exact (listed_iff ha hb hx hy).2 h
    | ref h => exact (ref_iff ha hb).2 ⟨rfl, h⟩
    | call h hd => exact (call_iff ha hb).2 ⟨rfl, h, hd⟩
    | code h =>
        rw [expand_code, expand_code, Term.code.injEq]
        exact (code_iff (fun _ h => ha.part h) fun _ h => hb.part h).2 ⟨h, rfl⟩
    | var h => exact (var_iff ha hb).2 ⟨h, rfl, rfl⟩
    | block h => exact (block_iff ha hb).2 ⟨h, rfl⟩
    | native h => simp [expand, expandWith, h]
  · exact alike_of_expand_eq ha hb

/-- On terms without floating-point numbers and without lists that contain themselves, equality has an
answer and is an equivalence relation, difference is its negation, and terms are equal exactly when they
are alike. -/
theorem equal_equivalence (σ : Store) :
    (∀ a, Tame σ a → σ.equal? a a = some true) ∧
    (∀ a b, Tame σ a → Tame σ b → σ.equal? b a = σ.equal? a b) ∧
    (∀ a b c, Tame σ a → Tame σ b → Tame σ c → σ.equal? a b = some true →
      σ.equal? b c = some true → σ.equal? a c = some true) ∧
    (∀ a b, Tame σ a → Tame σ b →
      ∃ answer, σ.equal? a b = some answer ∧ σ.differ? a b = some (!answer)) ∧
    ∀ a b, Tame σ a → Tame σ b → (σ.equal? a b = some true ↔ Alike σ a b) := by
  refine ⟨fun a ha => (equal?_iff ha ha).2 rfl, fun a b ha hb => equal?_comm ha hb,
    fun a b c ha hb hc hab hbc => ?_, fun a b ha hb => ?_, fun a b ha hb => ?_⟩
  · rw [equal?_iff ha hb] at hab
    rw [equal?_iff hb hc] at hbc
    exact (equal?_iff ha hc).2 (hab.trans hbc)
  · obtain ⟨answer, hanswer, -⟩ := equal?_decides ha hb
    exact ⟨answer, hanswer, by rw [Store.differ?, hanswer, Option.map_some]⟩
  · rw [equal?_iff ha hb, alike_iff ha hb]

def counterparts : Store where
  scopes := #[{ kind := .list [.num 1, .str "a"] }, { kind := .list [.bool true, .str "a"] }]

theorem equal_equivalence_counterparts :
    Tame counterparts (.scope 0) ∧ Tame counterparts (.scope 1) ∧
      counterparts.equal? (.scope 0) (.scope 1) = some true ∧
      counterparts.differ? (.scope 0) (.scope 1) = some false := by
  have hc₀ : contents counterparts (.scope 0) = [.num 1, .str "a"] := rfl
  have hc₁ : contents counterparts (.scope 1) = [.bool true, .str "a"] := rfl
  have h₀ : Tame counterparts (.scope 0) := .of_leaves hc₀ nofun (by simp [contents, parts])
  have h₁ : Tame counterparts (.scope 1) := .of_leaves hc₁ nofun (by simp [contents, parts])
  have h : Tame counterparts (.items [.num 1, .str "a"]) :=
    .of_leaves rfl nofun (by simp [contents, parts])
  obtain ⟨-, -, htrans, hdiffer, -⟩ := equal_equivalence counterparts
  have hequal := htrans _ _ _ h₀ h h₁ (by decide) (by decide)
  obtain ⟨answer, hanswer, hdiff⟩ := hdiffer _ _ h₀ h₁
  obtain rfl : answer = true := Option.some.inj (hanswer.symm.trans hequal)
  exact ⟨h₀, h₁, hequal, hdiff⟩

end BlockScript.Proofs.Equivalence
