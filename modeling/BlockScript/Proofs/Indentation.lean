import BlockScript.Proofs.Writable

namespace BlockScript.Proofs.Indentation

open Faulting Writable
open Render hiding inline

variable {σ : Store} {width n : Nat} {t u v : Term} {a b text : String}

def shifted (n : Nat) (text : String) : String :=
  String.ofList (text.toList.flatMap fun c => if c = '\n' then '\n' :: List.replicate n ' ' else [c])

section Text

theorem shifted_append (n : Nat) (a b : String) : shifted n (a ++ b) = shifted n a ++ shifted n b := by
  rw [shifted, String.toList_append, List.flatMap_append, String.ofList_append]
  rfl

theorem shifted_of_unbroken (h : breaks text = false) : shifted n text = text := by
  have hchars : ∀ c ∈ text.toList, (if c = '\n' then '\n' :: List.replicate n ' ' else [c]) = [c] := by
    intro c hc
    rw [if_neg]
    rintro rfl
    simp [breaks, hc] at h
  rw [shifted, List.flatMap_congr hchars, List.flatMap_singleton', String.ofList_toList]

theorem shifted_break (n : Nat) : shifted n "\n" = "\n" ++ Text.spaces n := by
  apply String.toList_injective
  simp [shifted, Text.spaces]

theorem breaks_append (a b : String) : breaks (a ++ b) = (breaks a || breaks b) := by
  simp [breaks]

theorem breaks_shifted (n : Nat) (text : String) : breaks (shifted n text) = breaks text := by
  rw [Bool.eq_iff_iff]
  simp only [breaks, shifted, String.toList_ofList, List.contains_iff_mem, List.mem_flatMap]
  constructor
  · rintro ⟨c, hc, hmem⟩
    split at hmem
    next h => exact h ▸ hc
    next => exact List.mem_singleton.1 hmem ▸ hc
  · exact fun h => ⟨'\n', h, by simp⟩

theorem shifted_intercalate (n : Nat) (sep : String) (texts : List String) :
    shifted n (sep.intercalate texts) = (shifted n sep).intercalate (texts.map (shifted n)) := by
  induction texts with
  | nil => rfl
  | cons x texts ih =>
      cases texts with
      | nil => rw [List.map_singleton, String.intercalate_singleton, String.intercalate_singleton]
      | cons y texts =>
          rw [String.intercalate_cons_cons, shifted_append, shifted_append, ih]
          simp only [List.map_cons, String.intercalate_cons_cons]

theorem shifted_joined (n : Nat) {sep : String} (h : breaks sep = false) (texts : List String) :
    sep.intercalate (texts.map (shifted n)) = shifted n (sep.intercalate texts) := by
  rw [shifted_intercalate, shifted_of_unbroken h]

theorem breaks_spaces (n : Nat) : breaks (Text.spaces n) = false := by
  simp [breaks, Text.spaces, List.mem_replicate]

theorem spaces_add (m n : Nat) : Text.spaces (m + n) = Text.spaces m ++ Text.spaces n := by
  rw [Text.spaces, List.replicate_add, String.ofList_append]
  rfl

theorem breaks_intercalate {sep : String} {texts : List String} (hsep : breaks sep = false)
    (h : ∀ x ∈ texts, breaks x = false) : breaks (sep.intercalate texts) = false := by
  induction texts with
  | nil => rfl
  | cons x texts ih =>
      have hx := h x List.mem_cons_self
      cases texts with
      | nil => rwa [String.intercalate_singleton]
      | cons y texts =>
          rw [String.intercalate_cons_cons, breaks_append, breaks_append, hx, hsep,
            ih fun z hz => h z (List.mem_cons_of_mem x hz)]
          rfl

theorem toString_chars (k : Int) : ∀ c ∈ (toString k).toList, c = '-' ∨ c.isDigit = true := by
  intro c hc
  have hdigits {m : Nat} (h : c ∈ Nat.toDigits 10 m) : c.isDigit = true :=
    Nat.isDigit_of_mem_toDigits (by decide) (by decide) h
  rw [Int.toString_eq_repr, Int.repr_eq_if] at hc
  split at hc
  · rw [Nat.toList_repr] at hc
    exact .inr (hdigits hc)
  · rw [String.toList_append, Nat.toList_repr, List.mem_append] at hc
    rcases hc with hc | hc
    · exact .inl (by simpa using hc)
    · exact .inr (hdigits hc)

theorem breaks_toString (k : Int) : breaks (toString k) = false := by
  rw [breaks, Bool.eq_false_iff, Ne, List.contains_iff_mem]
  intro h
  exact absurd (toString_chars k '\n' h) (by decide)

end Text

section Layout

variable {level : Int} {params : List String} {lines : List String}

theorem margin_add (hl : 0 ≤ level) (width k : Nat) :
    margin width (level + k) = Text.spaces (k * width) ++ margin width level := by
  have hwidth : width * (level + k).toNat = k * width + width * level.toNat := by
    rw [Int.toNat_add hl (by omega), Int.toNat_natCast, Nat.mul_add, Nat.mul_comm width k,
      Nat.add_comm]
  rw [margin, hwidth, spaces_add]
  rfl

theorem breaks_margin (width : Nat) (level : Int) : breaks (margin width level) = false :=
  breaks_spaces _

theorem breaks_header (h : ∀ p ∈ params, breaks p = false) : breaks (header params) = false := by
  rw [header]
  split
  · rfl
  · rw [breaks_append, breaks_append, breaks_intercalate (by decide) h]
    rfl

theorem breaks_openHeader (h : ∀ p ∈ params, breaks p = false) : breaks (openHeader params) = false := by
  rw [openHeader]
  split
  · rfl
  · rw [breaks_append, breaks_append, breaks_intercalate (by decide) h]
    rfl

def broken (width : Nat) (level : Int) (line : String) : String :=
  "\n" ++ margin width level ++ line

theorem broken_shifted (hl : 0 ≤ level) (width k : Nat) (line : String) :
    broken width (level + k) (shifted (k * width) line) = shifted (k * width) (broken width level line) := by
  rw [broken, broken, margin_add hl]
  simp only [shifted_append]
  rw [shifted_break, shifted_of_unbroken (breaks_margin width level)]
  simp only [String.append_assoc]

theorem broken_lines (width : Nat) (level : Int) (x : String) (lines : List String) :
    "\n" ++ "\n".intercalate ((x :: lines).map fun line => margin width level ++ line) =
      (x :: lines).foldr (broken width level · ++ ·) "" := by
  induction lines generalizing x with
  | nil => simp [broken, String.append_assoc]
  | cons y lines ih =>
      have hy := ih y
      rw [List.foldr_cons, ← hy, List.map_cons, List.map_cons, String.intercalate_cons_cons]
      simp only [broken, String.append_assoc]

theorem multiline_eq (width : Nat) (level : Int) (params : List String) (x : String)
    (lines : List String) : multiline width level params (x :: lines) =
      openHeader params ++ (x :: lines).foldr (broken width (level + 1) · ++ ·) "" ++
        broken width level "\x7d" := by
  rw [← broken_lines, multiline]
  simp only [broken, String.append_assoc]

theorem multiline_shifted (hl : 0 ≤ level) (hp : ∀ p ∈ params, breaks p = false) (width k : Nat)
    (x : String) (lines : List String) :
    multiline width (level + k) params ((x :: lines).map (shifted (k * width))) =
      shifted (k * width) (multiline width level params (x :: lines)) := by
  have hlevel : level + k + 1 = level + 1 + k := by omega
  have hlines (lines : List String) :
      (lines.map (shifted (k * width))).foldr (broken width (level + 1 + k) · ++ ·) "" =
        shifted (k * width) (lines.foldr (broken width (level + 1) · ++ ·) "") := by
    induction lines with
    | nil => rfl
    | cons y lines ih =>
        rw [List.map_cons, List.foldr_cons, List.foldr_cons, ih, broken_shifted (by omega),
          shifted_append]
  have hclose := broken_shifted hl width k "\x7d"
  rw [shifted_of_unbroken (by decide : breaks "\x7d" = false)] at hclose
  rw [List.map_cons, multiline_eq, multiline_eq, ← List.map_cons, hlevel, hlines, hclose]
  simp only [shifted_append]
  rw [shifted_of_unbroken (breaks_openHeader hp)]

theorem inline_shifted (hp : ∀ p ∈ params, breaks p = false) (n : Nat) (text : String) :
    Render.inline params (shifted n text) = shifted n (Render.inline params text) := by
  simp only [Render.inline, shifted_append]
  rw [shifted_of_unbroken (by decide : breaks "\x7b " = false), shifted_of_unbroken (breaks_header hp),
    shifted_of_unbroken (by decide : breaks " \x7d" = false)]

theorem parenthesised_shifted (t : Term) (n : Nat) (text : String) :
    parenthesised t (shifted n text) = shifted n (parenthesised t text) := by
  rw [parenthesised, parenthesised]
  split
  · rw [shifted_append, shifted_append, shifted_of_unbroken (by decide : breaks "(" = false),
      shifted_of_unbroken (by decide : breaks ")" = false)]
  · rfl

end Layout

def words : Term → List String
  | .str s => [s]
  | .memory _ n => [n]
  | .float text _ => [text]
  | .ref n _ _ => [n]
  | .call n _ none => [n]
  | .call n _ (some c) => n :: c.params
  | .code c => c.params
  | .block c _ => c.params
  | .native f => [f.name]
  | _ => []

section Source

variable {numeral : Int → Except Fault String} {below : ScopeId → Int → Except Fault String} {k : Nat}

structure Shiftable (numeral : Int → Except Fault String) (width k : Nat)
    (below : ScopeId → Int → Except Fault String) (t : Term) : Prop where
  numbers : ∀ n text, Inside t (.num n) → numeral n = .ok text → breaks text = false
  words : ∀ u, Inside t u → ∀ w ∈ words u, breaks w = false
  lists : ∀ s level, Inside t (.scope s) → 0 ≤ level →
    below s (level + k) = shifted (k * width) <$> below s level

theorem Shiftable.part (h : Shiftable numeral width k below t) (hu : u ∈ parts t) :
    Shiftable numeral width k below u where
  numbers n text hn := h.numbers n text (.part hu hn)
  words v hv := h.words v (.part hu hv)
  lists s level hs := h.lists s level (.part hu hs)

theorem Shiftable.word (h : Shiftable numeral width k below t) {w : String} (hw : w ∈ Indentation.words t) :
    shifted (k * width) w = w :=
  shifted_of_unbroken (h.words t .refl w hw)

theorem bind_mapped {α α' β β' : Type} {r : Except Fault α} {r' : Except Fault α'} {g : α → α'}
    {h : β → β'} {next : α → Except Fault β} {next' : α' → Except Fault β'} (hr : r' = g <$> r)
    (hn : ∀ a, next' (g a) = h <$> next a) : r' >>= next' = h <$> (r >>= next) := by
  subst hr
  cases r with
  | error f => rfl
  | ok a => exact hn a

mutual

/-- A term at a deeper level has the same text, shifted. -/
theorem sourceWith_shifted : ∀ (t : Term) (level : Int), 0 ≤ level → Shiftable numeral width k below t →
    t.sourceWith numeral width below (level + k) =
      shifted (k * width) <$> t.sourceWith numeral width below level
  | .null, _, _, _ => rfl
  | .bool b, _, _, _ => by cases b <;> rfl
  | .num n, level, _, h => by
      simp only [Term.sourceWith]
      cases hn : numeral n with
      | error f => rfl
      | ok text => exact congrArg Except.ok (shifted_of_unbroken (h.numbers n text .refl hn)).symm
  | .str s, _, _, h => by
      simp only [Term.sourceWith, Except.map_ok, shifted_append, h.word (w := s) (by simp [words])]
      rfl
  | .memory _ m, _, _, h | .ref m none _, _, _, h => by
      simp only [Term.sourceWith, Except.map_ok, shifted_append, h.word (w := m) (by simp [words])]
      rfl
  | .float text _, _, _, h => by
      simp only [Term.sourceWith, Except.map_ok, h.word (w := text) (by simp [words])]
  | .native f, _, _, h => by
      simp only [Term.sourceWith, Except.map_ok, h.word (w := f.name) (by simp [words])]
  | .scope s, level, hl, h => by
      rw [Term.sourceWith, Term.sourceWith]
      exact h.lists s level .refl hl
  | .items xs, level, hl, h => by
      rw [Term.sourceWith, Term.sourceWith]
      refine bind_mapped (argsWith_shifted xs level hl fun t ht => h.part ht) fun texts => ?_
      exact congrArg Except.ok (shifted_joined _ (by decide) texts)
  | .ref m (some t) _, level, hl, h => by
      rw [Term.sourceWith, Term.sourceWith]
      refine bind_mapped (sourceWith_shifted t level hl (h.part (by simp [parts]))) fun text => ?_
      refine congrArg Except.ok ?_
      simp only [shifted_append, parenthesised_shifted, h.word (w := m) (by simp [words])]
      rfl
  | .call m args none, level, hl, h => by
      rw [Term.sourceWith, Term.sourceWith]
      refine bind_mapped (argsWith_shifted args level hl fun t ht => h.part ht) fun texts => ?_
      refine congrArg Except.ok ?_
      rw [← shifted_joined _ (by decide), List.map_cons, h.word (w := m) (by simp [words])]
  | .call m args (some c), level, hl, h => by
      have hargs := argsWith_shifted args level hl fun t ht => h.part (by simp [parts, ht])
      have hbody := codeSourceWith_shifted c level hl (fun t ht => h.part (by simp [parts, ht]))
        fun p hp => h.words _ .refl p (by simp [words, hp])
      rw [Term.sourceWith, Term.sourceWith]
      refine bind_mapped hargs fun texts => bind_mapped hbody fun body => ?_
      refine congrArg Except.ok ?_
      rw [← shifted_joined _ (by decide), List.map_append, List.map_cons, List.map_singleton,
        h.word (w := m) (by simp [words])]
  | .code c, level, hl, h | .block c _, level, hl, h => by
      rw [Term.sourceWith, Term.sourceWith]
      exact codeSourceWith_shifted c level hl (fun t ht => h.part ht) (h.words _ .refl)
  | .var v _ _ _, level, hl, h => by
      rw [Term.sourceWith, Term.sourceWith]
      exact sourceWith_shifted v level hl (h.part (by simp [parts]))

theorem codeSourceWith_shifted : ∀ (c : Code) (level : Int), 0 ≤ level →
    (∀ t ∈ c.statements, Shiftable numeral width k below t) → (∀ p ∈ c.params, breaks p = false) →
    c.sourceWith numeral width below (level + k) =
      shifted (k * width) <$> c.sourceWith numeral width below level
  | ⟨[], params⟩, _, _, _, hp => by
      simp only [Code.sourceWith, Except.map_ok, shifted_append, shifted_of_unbroken (breaks_header hp)]
      rfl
  | ⟨[t], params⟩, level, hl, h, hp => by
      have ht := h t (by simp)
      have hlevel : level + k + 1 = level + 1 + k := by omega
      rw [Code.sourceWith, Code.sourceWith, hlevel]
      refine bind_mapped (sourceWith_shifted t level hl ht) fun text => ?_
      -- the layout is the same one, as shifting neither makes nor removes a break
      rw [breaks_shifted]
      split
      · refine bind_mapped (sourceWith_shifted t (level + 1) (by omega) ht) fun line => ?_
        exact congrArg Except.ok (multiline_shifted hl hp width k line [])
      · exact congrArg Except.ok (inline_shifted hp _ text)
  | ⟨t :: v :: ts, params⟩, level, hl, h, hp => by
      have hlevel : level + k + 1 = level + 1 + k := by omega
      have ht := sourceWith_shifted t (level + 1) (by omega) (h t (by simp))
      have hv := sourceWith_shifted v (level + 1) (by omega) (h v (by simp))
      have hts := linesWith_shifted ts (level + 1) (by omega) fun u hu => h u (by simp [hu])
      rw [Code.sourceWith, Code.sourceWith, hlevel]
      refine bind_mapped ht fun first => bind_mapped hv fun second => bind_mapped hts fun rest => ?_
      exact congrArg Except.ok (multiline_shifted hl hp width k first (second :: rest))

theorem argsWith_shifted : ∀ (ts : List Term) (level : Int), 0 ≤ level →
    (∀ t ∈ ts, Shiftable numeral width k below t) → Term.argsWith numeral width below ts (level + k) =
      List.map (shifted (k * width)) <$> Term.argsWith numeral width below ts level
  | [], _, _, _ => rfl
  | t :: ts, level, hl, h => by
      have ht := sourceWith_shifted t level hl (h t (by simp))
      have hts := argsWith_shifted ts level hl fun u hu => h u (by simp [hu])
      rw [Term.argsWith, Term.argsWith]
      refine bind_mapped ht fun text => bind_mapped hts fun texts => ?_
      rw [parenthesised_shifted]
      rfl

theorem linesWith_shifted : ∀ (ts : List Term) (level : Int), 0 ≤ level →
    (∀ t ∈ ts, Shiftable numeral width k below t) → Term.linesWith numeral width below ts (level + k) =
      List.map (shifted (k * width)) <$> Term.linesWith numeral width below ts level
  | [], _, _, _ => rfl
  | t :: ts, level, hl, h => by
      have ht := sourceWith_shifted t level hl (h t (by simp))
      have hts := linesWith_shifted ts level hl fun u hu => h u (by simp [hu])
      rw [Term.linesWith, Term.linesWith]
      exact bind_mapped ht fun text => bind_mapped hts fun texts => rfl

end

end Source

theorem mapM_mapped {α β β' : Type} {xs : List α} {f : α → Except Fault β} {f' : α → Except Fault β'}
    {g : β → β'} (h : ∀ x ∈ xs, f' x = g <$> f x) : xs.mapM f' = List.map g <$> xs.mapM f := by
  induction xs with
  | nil => rfl
  | cons x xs ih =>
      rw [List.mapM_cons, List.mapM_cons]
      refine bind_mapped (h x (by simp)) fun y => ?_
      exact bind_mapped (ih fun z hz => h z (by simp [hz])) fun ys => rfl

def Unbroken (σ : Store) (t : Term) : Prop :=
  ∀ u, Within σ t u → ∀ w ∈ words u, breaks w = false

theorem Unbroken.within (h : Unbroken σ t) (hu : Within σ t u) : Unbroken σ u :=
  fun v hv => h v (hu.trans hv)

theorem unbroken_of_contents (hw : ∀ w ∈ words t, breaks w = false)
    (h : ∀ u ∈ contents σ t, Unbroken σ u) : Unbroken σ t := by
  intro u hu
  rcases Relation.ReflTransGen.cases_head hu with rfl | ⟨v, hv, hvu⟩
  · exact hw
  · exact h v hv u hvu

theorem numeral_eq {n : Int} (h : σ.numeral n = .ok text) : text = toString n := by
  rw [Store.numeral] at h
  split at h
  · exact (Except.ok.inj h).symm
  · cases h

theorem breaks_numeral {n : Int} (h : σ.numeral n = .ok text) : breaks text = false := by
  rw [numeral_eq h]
  exact breaks_toString n

section Store

variable {k : Nat} {level : Int} {c : Code}

theorem sourceWithin_shifted (hl : 0 ≤ level) {depth : Nat} {within : List ScopeId} {s : ScopeId}
    (h : Unbroken σ (.scope s)) : σ.sourceWithin width depth within s (level + k) =
      shifted (k * width) <$> σ.sourceWithin width depth within s level := by
  induction depth generalizing within s level with
  | zero => rfl
  | succ depth ih =>
      simp only [Store.sourceWithin]
      split
      next xs hxs =>
          split
          · rfl
          · have hitem (x) (hx : x ∈ xs) : Unbroken σ x :=
              h.within (.single (contents_of_item hxs hx))
            refine bind_mapped (mapM_mapped fun x hx => sourceWith_shifted x level hl ⟨?_, ?_, ?_⟩)
              fun texts => ?_
            · exact fun _ _ _ => breaks_numeral
            · exact fun u hu => hitem x hx u (within_of_inside hu)
            · exact fun u l hu hl => ih hl ((hitem x hx).within (within_of_inside hu))
            · refine congrArg Except.ok ?_
              simp only [shifted_append, shifted_joined _ (by decide : breaks ", " = false)]
              rfl
      next => rfl

theorem source_mapped (width k : Nat) (hl : 0 ≤ level) (h : Unbroken σ t) :
    σ.source width (level + k) t = shifted (k * width) <$> σ.source width level t :=
  sourceWith_shifted t level hl ⟨fun _ _ _ => breaks_numeral,
    fun u hu => h u (within_of_inside hu),
    fun _ _ hu hl => sourceWithin_shifted hl (h.within (within_of_inside hu))⟩

def body? : Term → Option Code
  | .call _ _ body => body
  | .code c => some c
  | .block c _ => some c
  | _ => none

theorem contents_of_body (h : body? t = some c) : contents σ (.code c) ⊆ contents σ t := by
  cases t with
  | call m args body =>
      obtain rfl : body = some c := h
      exact List.subset_append_right args c.statements
  | code d =>
      obtain rfl := Option.some.inj h
      exact List.Subset.refl _
  | block d s =>
      obtain rfl := Option.some.inj h
      exact List.Subset.refl _
  | _ => cases h

theorem within_of_body (h : body? t = some c) (hu : Within σ (.code c) u) :
    u = .code c ∨ Within σ t u := by
  rcases Relation.ReflTransGen.cases_head hu with rfl | ⟨v, hv, hvu⟩
  · exact .inl rfl
  · exact .inr (.head (contents_of_body h hv) hvu)

theorem Unbroken.body (h : Unbroken σ t) (hc : body? t = some c) : Unbroken σ (.code c) := by
  intro u hu w hw
  rcases within_of_body hc hu with rfl | hu
  · refine h t .refl w ?_
    cases t with
    | call m args body =>
        obtain rfl : body = some c := hc
        exact List.mem_cons_of_mem m hw
    | code d =>
        obtain rfl := Option.some.inj hc
        exact hw
    | block d s =>
        obtain rfl := Option.some.inj hc
        exact hw
    | _ => cases hc
  · exact h u hu w hw

theorem unwritable_of_body (hc : body? t = some c) (h : Unwritable σ (.code c)) : Unwritable σ t := by
  rcases h with ⟨n, hn, hlong⟩ | ⟨s, hs, hcirc⟩
  · exact .inl ⟨n, (within_of_body hc hn).resolve_left nofun, hlong⟩
  · exact .inr ⟨s, (within_of_body hc hs).resolve_left nofun, hcirc⟩

theorem unwritable_of_within (hu : Within σ t u) (h : Unwritable σ u) : Unwritable σ t := by
  rcases h with ⟨n, hn, hlong⟩ | hcirc
  · exact .inl ⟨n, hu.trans hn, hlong⟩
  · exact .inr (Circular.of_within hu hcirc)

def Inlined (σ : Store) (width : Nat) (c : Code) (level : Int) : Prop :=
  ∃ t text, c.statements = [t] ∧ σ.source width level t = .ok text ∧ breaks text = false ∧
    σ.source width level (.code c) = .ok (Render.inline c.params text)

def Spread (σ : Store) (width : Nat) (c : Code) (level : Int) : Prop :=
  ∃ lines, c.statements.mapM (σ.source width (level + 1)) = .ok lines ∧
    σ.source width level (.code c) = .ok (multiline width level c.params lines)

theorem source_inline {params : List String} (ht : σ.source width level t = .ok text)
    (hb : breaks text = false) :
    σ.source width level (.code ⟨[t], params⟩) = .ok (Render.inline params text) := by
  simp only [Store.source, Term.sourceWith, Code.sourceWith] at ht ⊢
  rw [ht]
  exact if_neg (by simp [hb])

theorem source_spread {params : List String} {line : String}
    (ht : σ.source width level t = .ok text) (hb : breaks text = true)
    (hl : σ.source width (level + 1) t = .ok line) :
    σ.source width level (.code ⟨[t], params⟩) = .ok (multiline width level params [line]) := by
  simp only [Store.source, Term.sourceWith, Code.sourceWith] at ht hl ⊢
  rw [ht, hl]
  exact if_pos hb

theorem source_many (width : Nat) (level : Int) (t v : Term) (ts : List Term) (params : List String) :
    σ.source width level (.code ⟨t :: v :: ts, params⟩) = (do
      return multiline width level params (← (t :: v :: ts).mapM (σ.source width (level + 1)))) := by
  simp only [Store.source, Term.sourceWith, Code.sourceWith, Term.linesWith_eq, List.mapM_cons,
    bind_assoc, pure_bind]
  rfl

theorem breaks_inline (hp : ∀ p ∈ c.params, breaks p = false) (h : breaks text = false) :
    breaks (Render.inline c.params text) = false := by
  rw [Render.inline, breaks_append, breaks_append, breaks_append, breaks_header hp, h]
  rfl

theorem breaks_multiline (width : Nat) (level : Int) (params lines : List String) :
    breaks (multiline width level params lines) = true := by
  simp only [multiline, breaks_append]
  simp [breaks]

theorem not_inlined_of_spread (hp : ∀ p ∈ c.params, breaks p = false) (h : Spread σ width c level) :
    ¬Inlined σ width c level := by
  rintro ⟨t, text, -, -, hb, ht⟩
  obtain ⟨lines, -, hl⟩ := h
  have heq := Except.ok.inj (ht.symm.trans hl)
  have hbreaks := breaks_multiline width level c.params lines
  rw [← heq, breaks_inline hp hb] at hbreaks
  cases hbreaks

theorem layout_cases (width : Nat) (hc : c.statements ≠ []) (hb : Unbroken σ (.code c))
    (hw : ¬Unwritable σ (.code c)) :
    (∀ l : Nat, Inlined σ width c l) ∨ ∀ l : Nat, Spread σ width c l := by
  match c, hc with
  | ⟨[t], params⟩, _ =>
      have hpart : t ∈ contents σ (.code ⟨[t], params⟩) := List.mem_singleton_self t
      have ht := hb.within (.single hpart)
      obtain ⟨text, htext⟩ := (source_ok_iff width 0 t).2 fun h =>
        hw (unwritable_of_within (.single hpart) h)
      have hlevel (l : Nat) : σ.source width l t = .ok (shifted (l * width) text) := by
        have hl := source_mapped width l (Int.le_refl 0) ht
        rwa [Int.zero_add, htext] at hl
      cases hbreaks : breaks text with
      | false =>
          have hb (l : Nat) : breaks (shifted (l * width) text) = false := by
            rw [breaks_shifted, hbreaks]
          exact .inl fun l => ⟨t, _, rfl, hlevel l, hb l, source_inline (hlevel l) (hb l)⟩
      | true =>
          have hb (l : Nat) : breaks (shifted (l * width) text) = true := by
            rw [breaks_shifted, hbreaks]
          refine .inr fun l => ⟨[shifted ((l + 1) * width) text], ?_, ?_⟩
          · rw [List.mapM_cons]
            exact congrArg (· >>= _) (hlevel (l + 1))
          · exact source_spread (hlevel l) (hb l) (hlevel (l + 1))
  | ⟨t :: v :: ts, params⟩, _ =>
      refine .inr fun l => ?_
      obtain ⟨whole, hwhole⟩ := (source_ok_iff width l _).2 hw
      have hlines := hwhole
      rw [source_many] at hlines
      obtain ⟨lines, hlines, hm⟩ := bind_ok hlines
      exact ⟨lines, hlines, hwhole.trans hm.symm⟩

end Store

/-- At a level that is `k` deeper a term has the same text but for the margin after every line break,
and so has every block in it, wherever it stands; and the layout of a block does not depend on the
level. -/
theorem source_deeper (h : Unbroken σ v) (width l k : Nat) :
    σ.source width (l + k : Nat) v = shifted (k * width) <$> σ.source width l v ∧
      ((∃ text, σ.source width l v = .ok text) ↔ ¬Unwritable σ v) ∧
        ∀ u c, Within σ v u → body? u = some c →
          σ.source width (l + k : Nat) (.code c) =
              shifted (k * width) <$> σ.source width l (.code c) ∧
            (¬Unwritable σ v → c.statements ≠ [] →
              (Inlined σ width c (l + k : Nat) ↔ Inlined σ width c l) ∧
                (Spread σ width c l ↔ ¬Inlined σ width c l)) := by
  have deeper {t : Term} (ht : Unbroken σ t) :
      σ.source width (l + k : Nat) t = shifted (k * width) <$> σ.source width l t := by
    rw [Int.natCast_add]
    exact source_mapped width k (Int.natCast_nonneg l) ht
  refine ⟨deeper h, source_ok_iff width l v, fun u c hu hc => ?_⟩
  have hb : Unbroken σ (.code c) := (h.within hu).body hc
  refine ⟨deeper hb, fun hw hs => ?_⟩
  have exclusive (m : Nat) (hm : Spread σ width c m) : ¬Inlined σ width c m :=
    not_inlined_of_spread (hb _ .refl) hm
  rcases layout_cases width hs hb
    (fun hc' => hw (unwritable_of_within hu (unwritable_of_body hc hc'))) with hall | hall
  · exact ⟨iff_of_true (hall _) (hall l), iff_of_false (fun hm => exclusive l hm (hall l)) (not_not_intro (hall l))⟩
  · exact ⟨iff_of_false (exclusive _ (hall _)) (exclusive l (hall l)),
      iff_of_true (hall l) (exclusive l (hall l))⟩

def nested : Term :=
  .code ⟨[.call "fn" [.ref "f" none] (some ⟨[.call "p" [.num 1] none, .call "x" [] none], ["x"]⟩)], []⟩

theorem unbroken_nested : Unbroken σ nested := by
  refine unbroken_of_contents nofun (List.forall_mem_singleton.2 ?_)
  refine unbroken_of_contents (by decide) (List.forall_mem_cons.2 ⟨?_, List.forall_mem_cons.2 ⟨?_,
    List.forall_mem_singleton.2 ?_⟩⟩)
  · exact unbroken_of_contents (by decide) nofun
  · exact unbroken_of_contents (by decide) (List.forall_mem_singleton.2
      (unbroken_of_contents nofun nofun))
  · exact unbroken_of_contents (by decide) nofun

theorem source_deeper_nested : Unbroken {} nested ∧
    ({} : Store).source 2 (1 + 2 : Nat) nested = shifted 4 <$> ({} : Store).source 2 1 nested :=
  ⟨unbroken_nested, (source_deeper unbroken_nested 2 1 2).1⟩

end BlockScript.Proofs.Indentation
