import BlockScript.Proofs.Faulting
import BlockScript.Proofs.Writing

namespace BlockScript.Proofs.Writable

open Faulting Writing

variable {σ : Store} {width : Nat} {t u : Term} {s : ScopeId}

def contents (σ : Store) : Term → List Term
  | .scope s => (σ.items? s).getD []
  | t => parts t

def Within (σ : Store) : Term → Term → Prop :=
  Relation.ReflTransGen fun t u => u ∈ contents σ t

def Beneath (σ : Store) : Term → Term → Prop :=
  Relation.TransGen fun t u => u ∈ contents σ t

def TooLong (σ : Store) (k : Int) : Prop :=
  ∃ limit ∈ σ.digitLimit, limit < (toString k.natAbs).length

def Unwritable (σ : Store) (t : Term) : Prop :=
  (∃ k, Within σ t (.num k) ∧ TooLong σ k) ∨
    ∃ s, Within σ t (.scope s) ∧ Beneath σ (.scope s) (.scope s)

theorem numeral_error {k : Int} {f : Fault} (h : σ.numeral k = .error f) : TooLong σ k := by
  rw [Store.numeral] at h
  split at h
  · cases h
  next hall =>
      cases hl : σ.digitLimit with
      | none => simp [hl] at hall
      | some limit => exact ⟨limit, hl, by simpa [hl] using hall⟩

theorem numeral_tooLong {k : Int} {text : String} (h : σ.numeral k = .ok text) : ¬TooLong σ k := by
  rintro ⟨limit, hl, hlt⟩
  rw [Store.numeral, if_neg] at h
  · cases h
  · rw [Option.mem_def.1 hl]
    simpa using hlt

theorem contents_of_part (h : u ∈ parts t) : u ∈ contents σ t := by
  cases t
  case scope => simp [parts] at h
  all_goals exact h

theorem within_of_inside (h : Inside t u) : Within σ t u :=
  Relation.ReflTransGen.mono (fun _ _ hp => contents_of_part hp) _ _ h

section Walk

variable {R : ScopeId → ScopeId → Prop} {W : Nat → List ScopeId → ScopeId → Prop}
  (hopen : ∀ depth within s, s ∉ within → (∀ u, R s u → W depth (s :: within) u) →
    W (depth + 1) within s)
  (hs : ∀ t, Relation.ReflTransGen R s t → ¬Relation.TransGen R t t)
include hopen hs

/-- A search that goes from scope to scope and never comes to one of them again has an end: there are
only so many that it goes on from, and each is opened once. `W` is what is said of it, with the depth
that it has left, the scopes that are open and the one that it has come to. -/
theorem walk_ends_among {among : List ScopeId} (hamong : ∀ s u, R s u → s ∈ among) {depth : Nat}
    (hdepth : among.length < depth) : W depth [] s := by
  have walk (depth : Nat) : ∀ within s, within.Nodup → within ⊆ among →
      (∀ v ∈ within, Relation.TransGen R v s) →
      (∀ t, Relation.ReflTransGen R s t → ¬Relation.TransGen R t t) →
      among.length < depth + within.length → W depth within s := by
    -- each step spends one depth and opens one scope, so the last inequality is kept on the way
    induction depth with
    | zero =>
        intro within s hn hsub _ _ hdepth
        have hle := (hn.subperm hsub).length_le
        omega
    | succ depth ih =>
        intro within s hn hsub hpath hs hdepth
        have hnew : s ∉ within := fun h => hs s .refl (hpath s h)
        refine hopen depth within s hnew fun u hu => ?_
        refine ih _ u (List.nodup_cons.2 ⟨hnew, hn⟩) ?_ ?_ (fun t ht => hs t (.head hu ht)) ?_
        · exact List.cons_subset.2 ⟨hamong s u hu, hsub⟩
        · exact List.forall_mem_cons.2 ⟨.single hu, fun v hv => (hpath v hv).tail hu⟩
        · rw [List.length_cons]
          omega
  exact walk depth [] s List.nodup_nil (List.nil_subset _) nofun hs hdepth

theorem walk_ends {size : Nat} (hsize : ∀ s u, R s u → s < size) : W (size + 1) [] s :=
  walk_ends_among hopen hs (fun s u h => List.mem_range.2 (hsize s u h)) (by simp)

end Walk

def Circular (σ : Store) (t : Term) : Prop :=
  ∃ s, Within σ t (.scope s) ∧ Beneath σ (.scope s) (.scope s)

theorem Circular.of_within (h : Within σ t u) (hu : Circular σ u) : Circular σ t := by
  obtain ⟨s, hs, hc⟩ := hu
  exact ⟨s, h.trans hs, hc⟩

theorem contents_of_item {xs : List Term} {x : Term} (h : σ.items? s = some xs) (hx : x ∈ xs) :
    x ∈ contents σ (.scope s) := by
  simpa [contents, h] using hx

theorem items?_of_beneath (h : Beneath σ (.scope s) u) : ∃ xs, σ.items? s = some xs := by
  obtain ⟨x, hx, -⟩ := Relation.TransGen.head'_iff.1 h
  cases hi : σ.items? s with
  | none => simp [contents, hi] at hx
  | some xs => exact ⟨xs, rfl⟩

def lists (σ : Store) : List ScopeId :=
  (List.range σ.size).filter fun s => (σ.items? s).isSome

theorem lists_length_le (σ : Store) : (lists σ).length ≤ σ.size := by
  have hle := List.length_filter_le (fun s => (σ.items? s).isSome) (List.range σ.size)
  rwa [List.length_range] at hle

/-- What goes from a list to those in it meets none of them again. -/
theorem lists_end {W : Nat → List ScopeId → ScopeId → Prop} (hs : ¬Circular σ (.scope s))
    (hopen : ∀ depth within s, s ∉ within →
      (∀ u, Beneath σ (.scope s) (.scope u) → W depth (s :: within) u) → W (depth + 1) within s)
    {depth : Nat} (hdepth : (lists σ).length < depth) : W depth [] s := by
  have hbeneath {t u : ScopeId}
      (h : Relation.TransGen (fun t u => Beneath σ (.scope t) (.scope u)) t u) :
      Beneath σ (.scope t) (.scope u) := by
    induction h with
    | single h => exact h
    | tail _ h ih => exact ih.trans h
  refine walk_ends_among hopen (fun t ht hc => hs ⟨t, ?_, hbeneath hc⟩) (fun t u h => ?_) hdepth
  · rcases Relation.reflTransGen_iff_eq_or_transGen.1 ht with rfl | ht
    · exact .refl
    · exact (hbeneath ht).to_reflTransGen
  · obtain ⟨xs, hxs⟩ := items?_of_beneath h
    exact List.mem_filter.2 ⟨List.mem_range.2 (lt_size_of_items hxs), by rw [hxs]; rfl⟩

section Fine

variable {G : Fault → Prop}

theorem source_faults (level : Int) (ht : ¬Circular σ t)
    (hk : ∀ k, Within σ t (.num k) → Faults G (σ.numeral k)) : Faults G (σ.source width level t) := by
  refine sourceWith_faults t level ⟨fun k h => hk k (within_of_inside h), fun v l hv => ?_⟩
  have hwithin := within_of_inside (σ := σ) hv
  refine lists_end (s := v) (W := fun depth within s => (∀ k, Within σ (.scope s) (.num k) →
    Faults G (σ.numeral k)) → ∀ level, Faults G (σ.sourceWithin width depth within s level))
    (fun h => ht (h.of_within hwithin)) ?_ (Nat.lt_succ_of_le (lists_length_le σ))
    (fun k h => hk k (hwithin.trans h)) l
  intro depth within s hs ih hk level
  rw [Store.sourceWithin]
  split
  next xs hxs =>
      rw [if_neg hs]
      refine (Faults.mapM fun x hx => ?_).bind fun _ _ => .pure _
      have hitem := contents_of_item hxs hx
      refine sourceWith_faults x level ⟨fun k h => hk k (.head hitem (within_of_inside h)), ?_⟩
      intro u l hu
      have hbelow : Beneath σ (.scope s) (.scope u) := .head' hitem (within_of_inside hu)
      exact ih u hbelow (fun k h => hk k (hbelow.to_reflTransGen.trans h)) l
  next => exact .ok _

theorem displayWith_faults {below : ScopeId → Except Fault String} (ht : ¬Circular σ t)
    (hk : ∀ k, Within σ t (.num k) → Faults G (σ.numeral k))
    (hb : ∀ u, t = .scope u → Faults G (below u)) :
    Faults G (t.displayWith σ.numeral below (σ.source width 0)) := by
  cases t
  case num k => exact hk k .refl
  case scope u => exact hb u rfl
  case null | bool | str | memory => exact .ok _
  all_goals exact source_faults 0 ht hk

theorem display_faults (ht : ¬Circular σ t)
    (hk : ∀ k, Within σ t (.num k) → Faults G (σ.numeral k)) : Faults G (σ.display width t) := by
  refine displayWith_faults ht hk fun v hv => ?_
  subst hv
  refine lists_end (s := v) (W := fun depth within s => (∀ k, Within σ (.scope s) (.num k) →
    Faults G (σ.numeral k)) → ¬Circular σ (.scope s) → Faults G (σ.displayWithin width depth within s))
    ht ?_ (Nat.lt_succ_of_le (lists_length_le σ)) hk ht
  intro depth within s hs ih hk hcirc
  rw [Store.displayWithin]
  split
  next xs hxs =>
      rw [if_neg hs]
      refine (Faults.mapM fun x hx => ?_).bind fun _ _ => .pure _
      have hitem := contents_of_item hxs hx
      have hwithin : Within σ (.scope s) x := .single hitem
      refine displayWith_faults (fun h => hcirc (h.of_within hwithin)) (fun k h => hk k (hwithin.trans h))
        fun u hu => ?_
      subst hu
      exact ih u (.single hitem) (fun k h => hk k (hwithin.trans h)) fun h => hcirc (h.of_within hwithin)
  next => exact .ok _

end Fine

theorem source_fine (level : Int) (ht : ¬Unwritable σ t) :
    Faults (fun _ => False) (σ.source width level t) :=
  source_faults level (fun h => ht (.inr h)) fun k hk _ hf => ht (.inl ⟨k, hk, numeral_error hf⟩)

def Written (σ : Store) (width depth : Nat) (within : List ScopeId) (t : Term) : Prop :=
  ∃ level text, t.sourceWith σ.numeral width (σ.sourceWithin width depth within) level = .ok text

theorem mapM_ok {α β : Type} {xs : List α} {k : α → Except Fault β} {ys : List β}
    (h : xs.mapM k = .ok ys) {x : α} (hx : x ∈ xs) : ∃ y, k x = .ok y := by
  induction xs generalizing ys with
  | nil => cases hx
  | cons z xs ih =>
      rw [List.mapM_cons] at h
      obtain ⟨y, hz, h⟩ := bind_ok h
      obtain ⟨rest, hxs, -⟩ := bind_ok h
      rcases List.mem_cons.1 hx with rfl | hx
      · exact ⟨y, hz⟩
      · exact ih hxs hx

section Parts

variable {numeral : Int → Except Fault String} {below : ScopeId → Int → Except Fault String}

theorem argsWith_ok {ts : List Term} {level : Int} {texts : List String}
    (h : Term.argsWith numeral width below ts level = .ok texts) (hu : u ∈ ts) :
    ∃ l text, u.sourceWith numeral width below l = .ok text := by
  rw [Term.argsWith_eq] at h
  obtain ⟨argument, hu⟩ := mapM_ok h hu
  cases hr : u.sourceWith numeral width below level with
  | ok text => exact ⟨level, text, hr⟩
  | error f => rw [hr] at hu; cases hu

theorem linesWith_ok {ts : List Term} {level : Int} {texts : List String}
    (h : Term.linesWith numeral width below ts level = .ok texts) (hu : u ∈ ts) :
    ∃ l text, u.sourceWith numeral width below l = .ok text := by
  rw [Term.linesWith_eq] at h
  exact ⟨level, mapM_ok h hu⟩

theorem codeSourceWith_ok {c : Code} {level : Int} {text : String}
    (h : c.sourceWith numeral width below level = .ok text) (hu : u ∈ c.statements) :
    ∃ l text, u.sourceWith numeral width below l = .ok text := by
  match c, hu with
  | ⟨[t], _⟩, hu =>
      obtain rfl := List.mem_singleton.1 hu
      rw [Code.sourceWith] at h
      obtain ⟨text, ht, -⟩ := bind_ok h
      exact ⟨level, text, ht⟩
  | ⟨t :: v :: ts, _⟩, hu =>
      rw [Code.sourceWith] at h
      obtain ⟨first, ht, h⟩ := bind_ok h
      obtain ⟨second, hv, h⟩ := bind_ok h
      obtain ⟨rest, hts, -⟩ := bind_ok h
      rcases List.mem_cons.1 hu with rfl | hu
      · exact ⟨_, first, ht⟩
      rcases List.mem_cons.1 hu with rfl | hu
      · exact ⟨_, second, hv⟩
      · exact linesWith_ok hts hu

theorem sourceWith_part {level : Int} {text : String}
    (h : t.sourceWith numeral width below level = .ok text) (hu : u ∈ parts t) :
    ∃ l text, u.sourceWith numeral width below l = .ok text := by
  match t, hu with
  | .items xs, hu =>
      rw [Term.sourceWith] at h
      obtain ⟨texts, hxs, -⟩ := bind_ok h
      exact argsWith_ok hxs hu
  | .ref _ (some v) _, hu =>
      obtain rfl := List.mem_singleton.1 hu
      rw [Term.sourceWith] at h
      obtain ⟨text, hv, -⟩ := bind_ok h
      exact ⟨level, text, hv⟩
  | .call _ args none, hu =>
      rw [Term.sourceWith] at h
      obtain ⟨texts, hargs, -⟩ := bind_ok h
      exact argsWith_ok hargs hu
  | .call _ args (some c), hu =>
      rw [Term.sourceWith] at h
      obtain ⟨texts, hargs, h⟩ := bind_ok h
      obtain ⟨body, hbody, -⟩ := bind_ok h
      rcases List.mem_append.1 hu with hu | hu
      · exact argsWith_ok hargs hu
      · exact codeSourceWith_ok hbody hu
  | .code c, hu =>
      rw [Term.sourceWith] at h
      exact codeSourceWith_ok h hu
  | .var v _ _ _, hu =>
      obtain rfl := List.mem_singleton.1 hu
      rw [Term.sourceWith] at h
      exact ⟨level, text, h⟩
  | .block c _, hu =>
      rw [Term.sourceWith] at h
      exact codeSourceWith_ok h hu

end Parts

variable {depth : Nat} {within : List ScopeId}

theorem Written.step (h : Written σ width depth within t) (hu : u ∈ contents σ t) :
    ∃ depth' within', within ⊆ within' ∧ (∀ s, t = .scope s → s ∈ within') ∧
      Written σ width depth' within' u := by
  obtain ⟨level, text, h⟩ := h
  by_cases ht : ∃ s, t = .scope s
  · obtain ⟨s, rfl⟩ := ht
    rw [Term.sourceWith] at h
    cases depth with
    | zero => cases h
    | succ depth =>
        rw [Store.sourceWithin] at h
        cases hxs : σ.items? s with
        | none => simp [contents, hxs] at hu
        | some xs =>
            rw [hxs] at h
            simp only at h
            split at h
            · cases h
            · obtain ⟨texts, hm, -⟩ := bind_ok h
              obtain ⟨text, hx⟩ := mapM_ok hm (by simpa [contents, hxs] using hu)
              refine ⟨depth, s :: within, List.subset_cons_self s within, ?_, level, text, hx⟩
              rintro v ⟨⟩
              exact List.mem_cons_self
  · have hu' : u ∈ parts t := by
      cases t
      case scope s => exact absurd ⟨s, rfl⟩ ht
      all_goals exact hu
    obtain ⟨l, text, hpart⟩ := sourceWith_part h hu'
    exact ⟨depth, within, List.Subset.refl within, fun s hs => absurd ⟨s, hs⟩ ht, l, text, hpart⟩

theorem Written.along (h : Written σ width depth within t) (hu : Within σ t u) :
    ∃ depth' within', within ⊆ within' ∧ Written σ width depth' within' u := by
  induction hu with
  | refl => exact ⟨depth, within, List.Subset.refl within, h⟩
  | tail _ hstep ih =>
      obtain ⟨depth', within', hsub, hw⟩ := ih
      obtain ⟨depth'', within'', hsub', -, hw'⟩ := hw.step hstep
      exact ⟨depth'', within'', List.Subset.trans hsub hsub', hw'⟩

theorem Written.not_unwritable (h : Written σ width depth within t) : ¬Unwritable σ t := by
  rintro (⟨k, hk, hl⟩ | ⟨s, hs, hc⟩)
  · obtain ⟨_, _, -, _, text, hw⟩ := h.along hk
    rw [Term.sourceWith] at hw
    exact numeral_tooLong hw hl
  · obtain ⟨_, _, -, hw⟩ := h.along hs
    obtain ⟨x, hx, hpath⟩ := Relation.TransGen.head'_iff.1 hc
    obtain ⟨_, opened, -, hopen, hwx⟩ := hw.step hx
    obtain ⟨depth', within', hsub, l, text, hws⟩ := hwx.along hpath
    have hmem : s ∈ within' := hsub (hopen s rfl)
    rw [Term.sourceWith] at hws
    cases depth' with
    | zero => cases hws
    | succ depth' =>
        rw [Store.sourceWithin] at hws
        cases hxs : σ.items? s with
        | none => simp [contents, hxs] at hx
        | some xs =>
            rw [hxs] at hws
            simp only [if_pos hmem] at hws
            cases hws

theorem source_ok_iff (width : Nat) (level : Int) (t : Term) :
    (∃ text, σ.source width level t = .ok text) ↔ ¬Unwritable σ t := by
  constructor
  · rintro ⟨text, h⟩
    exact Written.not_unwritable ⟨level, text, h⟩
  · intro h
    cases hr : σ.source width level t with
    | ok text => exact ⟨text, rfl⟩
    | error f => exact absurd (source_fine level h f hr) not_false

end BlockScript.Proofs.Writable
