import BlockScript.Proofs.Spelling
import Mathlib

namespace BlockScript.Proofs.Readability

open Indentation Spelling
open Render hiding inline

def Plain (w : String) : Prop :=
  ∀ c ∈ w.toList, c ∉ delimiters

section Characters

variable {v w r r' : List Char} {p q : String}

theorem split_unique {stop : List Char} (hv : ∀ c ∈ v, c ∉ stop) (hw : ∀ c ∈ w, c ∉ stop)
    (hr : ∀ c ∈ r.head?, c ∈ stop) (hr' : ∀ c ∈ r'.head?, c ∈ stop) (h : v ++ r = w ++ r') :
    v = w ∧ r = r' := by
  induction v generalizing w with
  | nil =>
      cases w with
      | nil => exact ⟨rfl, h⟩
      | cons c w =>
          rw [List.nil_append] at h
          subst h
          exact absurd (hr c rfl) (hw c (by simp))
  | cons d v ih =>
      cases w with
      | nil =>
          rw [List.nil_append] at h
          subst h
          exact absurd (hr' d rfl) (hv d (by simp))
      | cons c w =>
          rw [List.cons_append, List.cons_append] at h
          obtain ⟨rfl, htail⟩ := List.cons.inj h
          obtain ⟨rfl, rfl⟩ := ih (fun e he => hv e (by simp [he]))
            (fun e he => hw e (by simp [he])) htail
          exact ⟨rfl, rfl⟩

theorem word_cancels (hp : Plain p) (hq : Plain q) (hr : ∀ c ∈ r.head?, c ∈ delimiters)
    (hr' : ∀ c ∈ r'.head?, c ∈ delimiters) (h : p.toList ++ r = q.toList ++ r') : p = q ∧ r = r' :=
  (split_unique hp hq hr hr' h).imp_left String.toList_injective

theorem quoted_cancels (hp : '"' ∉ p.toList) (hq : '"' ∉ q.toList)
    (h : p.toList ++ '"' :: r = q.toList ++ '"' :: r') : p = q ∧ r = r' := by
  have unquoted {w : String} (hw : '"' ∉ w.toList) : ∀ c ∈ w.toList, c ∉ ['"'] := by
    intro c hc
    rw [List.mem_singleton]
    rintro rfl
    exact hw hc
  obtain ⟨h, h'⟩ := split_unique (unquoted hp) (unquoted hq) (by simp) (by simp) h
  exact ⟨String.toList_injective h, List.tail_eq_of_cons_eq h'⟩

theorem newline_cancels {width : Nat} {level level' : Int} (hr : r.head? ≠ some ' ')
    (hr' : r'.head? ≠ some ' ') (h : newline width level r = newline width level' r') : r = r' := by
  have skip (level : Int) {r : List Char} (hr : r.head? ≠ some ' ') :
      ((margin width level).toList ++ r).dropWhile (· == ' ') = r := by
    rw [List.dropWhile_append_of_pos (by simp [margin, Text.spaces])]
    cases r with
    | nil => rfl
    | cons c r => exact List.dropWhile_cons_of_neg (by simpa using hr)
  rw [← skip level hr, List.tail_eq_of_cons_eq h, skip level' hr']

end Characters

def Ends (r : List Char) : Prop :=
  ∀ c ∈ r.head?, c ∈ [' ', ')', '\n']

inductive Closes : List Char → Prop
  | done : Closes []
  | parenthesis (r : List Char) : Closes (')' :: r)
  | line (r : List Char) : Closes ('\n' :: r)
  | brace (r : List Char) : Closes (' ' :: '\x7d' :: r)

theorem Closes.ends {r : List Char} (h : Closes r) : Ends r := by
  cases h <;> simp [Ends]

theorem Ends.delimits {r : List Char} (h : Ends r) : ∀ c ∈ r.head?, c ∈ delimiters := by
  intro c hc
  have hmem := h c hc
  simp only [List.mem_cons, List.not_mem_nil, or_false] at hmem
  rcases hmem with rfl | rfl | rfl <;> decide

section Words

variable {A : Alphabet} {t u : Term} {n w : String}

theorem plain_of_isDigit (h : ∀ c ∈ w.toList, c = '-' ∨ c.isDigit = true) : Plain w := by
  have hdelimiters : ∀ c ∈ delimiters, c ≠ '-' ∧ c.isDigit = false := by
    simp [delimiters, Char.isDigit]
  intro c hc hd
  obtain ⟨hminus, hdigit⟩ := hdelimiters c hd
  rcases h c hc with h | h
  · exact hminus h
  · exact absurd h (by simp [hdigit])

theorem starts_plain {c : Char} (h : A.starts c = true) :
    c ∉ delimiters ∧ c ≠ '-' ∧ c.isDigit = false := by
  rw [Alphabet.starts, Bool.or_eq_true] at h
  rcases h with h | h
  · exact A.letter_plain c h
  · obtain rfl := eq_of_beq h
    decide

theorem follows_plain {c : Char} (h : A.follows c = true) : c ∉ delimiters := by
  simp only [Alphabet.follows, Bool.or_eq_true, beq_iff_eq] at h
  rcases h with ((h | h) | rfl) | rfl
  · exact (A.letter_plain c h).1
  · exact A.digit_plain c h
  · decide
  · decide

theorem identifier_plain (h : A.IsIdentifier n) : Plain n := by
  obtain ⟨c, cs, hn, hc, hcs⟩ := h.chars
  intro d hd
  rw [hn, List.mem_cons] at hd
  rcases hd with rfl | hd
  · exact (starts_plain hc).1
  · exact follows_plain (hcs d hd)

theorem slot_plain (h : A.IsSlot n) : Plain n := by
  rcases h with h | h
  · exact identifier_plain h
  · refine plain_of_isDigit fun c hc => .inr ?_
    rw [SlotName.isNumeral, Bool.and_eq_true, List.all_eq_true] at h
    exact h.2 c hc

def word? : Term → Option String
  | .null => some "null"
  | .bool b => some (if b then "true" else "false")
  | .num n => some (toString n)
  | .call n [] none => some n
  | _ => none

def Numeric (w : String) : Prop :=
  ∃ c ∈ w.toList.head?, c = '-' ∨ c.isDigit = true

theorem toString_ne_nil (k : Int) : (toString k).toList ≠ [] := by
  rw [Int.toString_eq_repr, Int.repr_eq_if]
  split
  · rw [Nat.toList_repr]
    exact Nat.toDigits_ne_nil
  · simp

theorem numeric_repr (k : Int) : Numeric k.repr := by
  rw [← Int.toString_eq_repr]
  obtain ⟨c, cs, hcs⟩ := List.exists_cons_of_ne_nil (toString_ne_nil k)
  exact ⟨c, by rw [hcs]; rfl, toString_chars k c (hcs ▸ List.mem_cons_self)⟩

theorem identifier_not_numeric (h : A.IsIdentifier n) : ¬Numeric n := by
  obtain ⟨c, cs, hn, hc, -⟩ := h.chars
  obtain ⟨-, hminus, hdigit⟩ := starts_plain hc
  rintro ⟨d, hd, hnum⟩
  rw [hn] at hd
  obtain rfl := Option.some.inj hd
  rcases hnum with h | h
  · exact hminus h
  · exact absurd h (by simp [hdigit])

theorem word_cases (ht : A.IsTerm t) (hw : word? t = some w) :
    (t = .null ∧ w = "null") ∨ (∃ b, t = .bool b ∧ w = if b then "true" else "false") ∨
      (∃ k, t = .num k ∧ w = toString k) ∨ (t = .call w [] none ∧ A.IsIdentifier w) := by
  cases ht with
  | null => exact .inl ⟨rfl, (Option.some.inj hw).symm⟩
  | bool b => exact .inr (.inl ⟨b, rfl, (Option.some.inj hw).symm⟩)
  | num k => exact .inr (.inr (.inl ⟨k, rfl, (Option.some.inj hw).symm⟩))
  | call hn =>
      unfold word? at hw
      split at hw
      all_goals simp_all
  | _ => simp [word?] at hw

theorem word_plain (ht : A.IsTerm t) (hw : word? t = some w) : Plain w ∧ w.toList ≠ [] := by
  rcases word_cases ht hw with ⟨-, rfl⟩ | ⟨b, -, rfl⟩ | ⟨k, -, rfl⟩ | ⟨-, hn⟩
  · simp [Plain, delimiters]
  · cases b <;> simp [Plain, delimiters]
  · exact ⟨plain_of_isDigit (toString_chars k), toString_ne_nil k⟩
  · obtain ⟨c, cs, hcs, -⟩ := hn.chars
    exact ⟨identifier_plain hn, by simp [hcs]⟩

theorem word_numeric (ht : A.IsTerm t) (hw : word? t = some w) : Numeric w ↔ ∃ k, t = .num k := by
  rcases word_cases ht hw with ⟨rfl, rfl⟩ | ⟨b, rfl, rfl⟩ | ⟨k, rfl, rfl⟩ | ⟨rfl, hn⟩
  · simp [Numeric]
  · cases b <;> simp [Numeric]
  · simp [numeric_repr]
  · simp [identifier_not_numeric hn]

theorem word_inj (ht : A.IsTerm t) (hu : A.IsTerm u) (hw : word? t = some w) (hw' : word? u = some w) :
    t = u := by
  have hnum := (word_numeric ht hw).symm.trans (word_numeric hu hw')
  rcases word_cases ht hw with ⟨rfl, rfl⟩ | ⟨b, rfl, rfl⟩ | ⟨k, rfl, rfl⟩ | ⟨rfl, hn⟩
  · rcases word_cases hu hw' with ⟨rfl, -⟩ | ⟨b, rfl, h⟩ | ⟨l, rfl, -⟩ | ⟨rfl, hm⟩
    · rfl
    · cases b <;> simp at h
    · simp at hnum
    · exact absurd rfl hm.ne_null
  · rcases word_cases hu hw' with ⟨rfl, h⟩ | ⟨b', rfl, h⟩ | ⟨l, rfl, -⟩ | ⟨rfl, hm⟩
    · cases b <;> simp at h
    · cases b <;> cases b' <;> simp at h <;> rfl
    · simp at hnum
    · cases b
      · exact absurd rfl hm.ne_false
      · exact absurd rfl hm.ne_true
  · obtain ⟨l, rfl⟩ := hnum.1 ⟨k, rfl⟩
    have hl := Option.some.inj hw'
    rw [Int.toString_eq_repr, Int.toString_eq_repr, Int.repr_inj] at hl
    rw [hl]
  · rcases word_cases hu hw' with ⟨rfl, rfl⟩ | ⟨b, rfl, rfl⟩ | ⟨l, rfl, rfl⟩ | ⟨rfl, -⟩
    · exact absurd rfl hn.ne_null
    · cases b
      · exact absurd rfl hn.ne_false
      · exact absurd rfl hn.ne_true
    · simp at hnum
    · rfl

end Words

def dots (ps : List String) (r : List Char) : List Char :=
  ps.foldr (fun n r => '.' :: '<' :: (n.toList ++ '>' :: r)) r

def access (t : Term) (ps : List String) : Term :=
  ps.foldl (fun t n => .ref n (some t)) t

def base : Term → Term
  | .ref _ (some t) _ => base t
  | t => t

def path : Term → List String
  | .ref n (some t) _ => path t ++ [n]
  | _ => []

inductive Start
  | word | text | slot | call

def startOf (c : Char) : Start :=
  if c = '"' then .text else if c = '<' then .slot else if c = '(' then .call else .word

inductive Shape : Start → Term → Prop
  | word {t : Term} {w : String} (hw : word? t = some w) : Shape .word t
  | text (s : String) : Shape .text (.str s)
  | slot (n : String) (k : Nat) : Shape .slot (.ref n none k)
  | call (n : String) (args : List Term) (block : Option Code)
      (hc : (Term.call n args block).isCompound) : Shape .call (.call n args block)

def operand (width : Nat) (t : Term) (level : Int) (r : List Char) : List Char :=
  if t.isCompound then '(' :: spell width t level (')' :: r) else spell width t level r

def spellBlock (width : Nat) : Option Code → Int → List Char → List Char
  | none, _, r => r
  | some c, level, r => ' ' :: spellCode width c level r

section Operands

variable {A : Alphabet} {width : Nat} {level : Int} {t u : Term} {ps qs : List String}
  {r r' : List Char}

theorem spell_access (n : String) (t : Term) (k : Nat) (level : Int) (r : List Char) :
    spell width (.ref n (some t) k) level r = operand width t level (dots [n] r) := by
  rw [spell]
  rfl

theorem spell_call (n : String) (args : List Term) (block : Option Code) (level : Int)
    (r : List Char) : spell width (.call n args block) level r =
      n.toList ++ spellArgs width args level (spellBlock width block level r) := by
  cases block <;> rw [spell] <;> rfl

theorem spellArgs_cons (t : Term) (ts : List Term) (level : Int) (r : List Char) :
    spellArgs width (t :: ts) level r = ' ' :: operand width t level (spellArgs width ts level r) := by
  rw [spellArgs, operand]
  split <;> rfl

theorem unmarked_call (n : String) (args : List Term) (block : Option Code) :
    unmarked (.call n args block) = .call n (unmarkedAll args) (block.map unmarkedCode) := by
  cases block <;> rfl

theorem dots_append (ps qs : List String) (r : List Char) : dots (ps ++ qs) r = dots ps (dots qs r) :=
  List.foldr_append

theorem unmarkedCode_eq (c : Code) : unmarkedCode c = ⟨unmarkedAll c.statements, c.params⟩ := by
  cases c
  rfl

theorem operand_base (t : Term) (level : Int) (r : List Char) :
    operand width t level r = operand width (base t) level (dots (path t) r) := by
  induction t using base.induct generalizing r with
  | case1 n t k ih =>
      rw [base, path, dots_append, ← ih, ← spell_access n t k]
      rfl
  | case2 t h => rw [base.eq_2 t h, path.eq_2 t h]; rfl

theorem unmarked_base (t : Term) : unmarked t = unmarked (access (base t) (path t)) := by
  induction t using base.induct with
  | case1 n t k ih =>
      rw [base, path, access, List.foldl_append, unmarked, ih]
      rfl
  | case2 t h => rw [base.eq_2 t h, path.eq_2 t h]; rfl

theorem unmarked_access (h : unmarked t = unmarked u) (ps : List String) :
    unmarked (access t ps) = unmarked (access u ps) := by
  induction ps generalizing t u with
  | nil => exact h
  | cons n ps ih =>
      refine ih ?_
      rw [unmarked, unmarked, h]

theorem unmarked_of_base (hbase : unmarked (base t) = unmarked (base u)) (hpath : path t = path u) :
    unmarked t = unmarked u := by
  rw [unmarked_base t, unmarked_base u, hpath, unmarked_access hbase]

theorem isTerm_base (ht : A.IsTerm t) : A.IsTerm (base t) := by
  induction ht with
  | access k hn ht ih => exact ih
  | ref k hn => exact .ref k hn
  | call hn hargs hstatements hparams => exact .call hn hargs hstatements hparams
  | str hq hb => exact .str hq hb
  | _ => constructor

theorem isSlot_path (ht : A.IsTerm t) : ∀ n ∈ path t, A.IsSlot n := by
  induction ht with
  | access k hn ht ih => exact List.forall_mem_append.2 ⟨ih, List.forall_mem_singleton.2 hn⟩
  | _ => exact nofun

theorem shape_base (ht : A.IsTerm t) : ∃ k, Shape k (base t) := by
  induction ht with
  | access k hn ht ih => exact ih
  | null => exact ⟨_, .word rfl⟩
  | bool b => exact ⟨_, .word rfl⟩
  | num k => exact ⟨_, .word rfl⟩
  | str => exact ⟨_, .text _⟩
  | ref k => exact ⟨_, .slot _ k⟩
  | @call n args block =>
      match args, block with
      | [], none => exact ⟨_, .word rfl⟩
      | [], some c => exact ⟨_, .call n [] (some c) rfl⟩
      | t :: args, block => exact ⟨_, .call n (t :: args) block rfl⟩

theorem operand_word {w : String} (hw : word? t = some w) (level : Int) (r : List Char) :
    operand width t level r = w.toList ++ r := by
  unfold word? at hw
  split at hw
  all_goals first | obtain rfl := Option.some.inj hw | cases hw
  all_goals simp [operand, Term.isCompound, spell, spellArgs]

theorem Shape.opens {k : Start} (h : Shape k t) (ht : A.IsTerm t) (level : Int) (r : List Char) :
    ∃ c cs, operand width t level r = c :: cs ∧ (c ∉ delimiters ∨ c ∈ ['"', '<', '(']) ∧
      startOf c = k := by
  cases h with
  | word hw =>
      obtain ⟨hplain, hne⟩ := word_plain ht hw
      obtain ⟨c, cs, hcs⟩ := List.exists_cons_of_ne_nil hne
      have hc : c ∉ delimiters := hplain c (by simp [hcs])
      refine ⟨c, cs ++ r, by rw [operand_word hw, hcs]; rfl, .inl hc, ?_⟩
      simp only [delimiters, List.mem_cons, not_or] at hc
      simp [startOf, hc]
  | text s => exact ⟨'"', _, rfl, by simp, rfl⟩
  | slot n k => exact ⟨'<', _, rfl, by simp, rfl⟩
  | call n args block hc => exact ⟨'(', _, by rw [operand, if_pos hc], by simp, rfl⟩

theorem operand_opens (ht : A.IsTerm t) (level : Int) (r : List Char) :
    ∃ c cs, operand width t level r = c :: cs ∧ (c ∉ delimiters ∨ c ∈ ['"', '<', '(']) := by
  obtain ⟨k, hk⟩ := shape_base ht
  obtain ⟨c, cs, h, hc, -⟩ := hk.opens (isTerm_base ht) level (dots (path t) r)
  exact ⟨c, cs, by rw [operand_base, h], hc⟩

theorem spell_opens (ht : A.IsTerm t) (level : Int) (r : List Char) :
    ∃ c cs, spell width t level r = c :: cs ∧ (c ∉ delimiters ∨ c ∈ ['"', '<', '(']) := by
  by_cases hc : t.isCompound
  · cases ht with
    | call hn =>
        obtain ⟨c, cs, hcs, hc, -⟩ := hn.chars
        exact ⟨c, _, by rw [spell_call, hcs]; rfl, .inl (starts_plain hc).1⟩
    | _ => cases hc
  · obtain ⟨c, cs, h⟩ := operand_opens ht level r
    rw [operand, if_neg hc] at h
    exact ⟨c, cs, h⟩

theorem dots_cancels (hp : ∀ n ∈ ps, A.IsSlot n) (hq : ∀ n ∈ qs, A.IsSlot n) (hr : Ends r)
    (hr' : Ends r') (h : dots ps r = dots qs r') : ps = qs ∧ r = r' := by
  -- what comes after the last dot starts with none
  have undotted {r x : List Char} {n : String} {ps : List String} (hr : Ends r) :
      r ≠ dots (n :: ps) x := by
    rintro rfl
    exact absurd (hr '.' rfl) (by simp)
  induction ps generalizing qs with
  | nil =>
      cases qs with
      | nil => exact ⟨rfl, h⟩
      | cons n qs => exact absurd h (undotted hr)
  | cons m ps ih =>
      cases qs with
      | nil => exact absurd h.symm (undotted hr')
      | cons n qs =>
          rw [List.forall_mem_cons] at hp hq
          have hword := List.tail_eq_of_cons_eq (List.tail_eq_of_cons_eq h)
          obtain ⟨rfl, hrest⟩ := word_cancels (slot_plain hp.1) (slot_plain hq.1) (by simp [delimiters])
            (by simp [delimiters]) hword
          obtain ⟨rfl, rfl⟩ := ih hp.2 hq.2 (List.tail_eq_of_cons_eq hrest)
          exact ⟨rfl, rfl⟩

theorem dots_delimited (hr : Ends r) (ps : List String) : ∀ c ∈ (dots ps r).head?, c ∈ delimiters := by
  cases ps with
  | nil => exact hr.delimits
  | cons n ps => simp [dots, delimiters]

end Operands

/-- Where the text of the term is followed by what ends a statement, no other term and no other rest
have the same text. -/
def Cancels (A : Alphabet) (width : Nat) (t : Term) : Prop :=
  ∀ u level r r', A.IsTerm u → Closes r → Closes r' →
    spell width t level r = spell width u level r' → unmarked t = unmarked u ∧ r = r'

section Cancellation

variable {A : Alphabet} {width : Nat} {level : Int} {t u : Term} {ps qs : List String}
  {r r' : List Char}

theorem shape_cancels {k : Start} (hk : Shape k t) (hk' : Shape k u) (ht : A.IsTerm t)
    (hu : A.IsTerm u) (hcancels : t.isCompound → Cancels A width t) (hp : ∀ n ∈ ps, A.IsSlot n)
    (hq : ∀ n ∈ qs, A.IsSlot n) (hr : Ends r) (hr' : Ends r')
    (h : operand width t level (dots ps r) = operand width u level (dots qs r')) :
    unmarked t = unmarked u ∧ ps = qs ∧ r = r' := by
  cases hk with
  | word hw =>
      cases hk' with
      | word hw' =>
          rw [operand_word hw, operand_word hw'] at h
          obtain ⟨rfl, hdots⟩ := word_cancels (word_plain ht hw).1 (word_plain hu hw').1
            (dots_delimited hr ps) (dots_delimited hr' qs) h
          exact ⟨by rw [word_inj ht hu hw hw'], dots_cancels hp hq hr hr' hdots⟩
  | text s =>
      cases hk' with
      | text s' =>
          obtain ⟨rfl, hdots⟩ := quoted_cancels ht.unquoted hu.unquoted (List.tail_eq_of_cons_eq h)
          exact ⟨rfl, dots_cancels hp hq hr hr' hdots⟩
  | slot n k =>
      cases hk' with
      | slot m l =>
          obtain ⟨rfl, hdots⟩ := word_cancels (slot_plain ht.slot) (slot_plain hu.slot)
            (by simp [delimiters]) (by simp [delimiters]) (List.tail_eq_of_cons_eq h)
          exact ⟨rfl, dots_cancels hp hq hr hr' (List.tail_eq_of_cons_eq hdots)⟩
  | call n args block hc =>
      cases hk' with
      | call m args' block' hc' =>
          rw [operand, operand, if_pos hc, if_pos hc'] at h
          obtain ⟨heq, hdots⟩ := hcancels hc _ level _ _ hu (.parenthesis _) (.parenthesis _)
            (List.tail_eq_of_cons_eq h)
          exact ⟨heq, dots_cancels hp hq hr hr' (List.tail_eq_of_cons_eq hdots)⟩

theorem operand_cancels (ht : A.IsTerm t) (hu : A.IsTerm u)
    (hbase : (base t).isCompound → Cancels A width (base t)) (hr : Ends r) (hr' : Ends r')
    (h : operand width t level r = operand width u level r') : unmarked t = unmarked u ∧ r = r' := by
  rw [operand_base t, operand_base u] at h
  obtain ⟨k, hk⟩ := shape_base ht
  obtain ⟨l, hl⟩ := shape_base hu
  obtain ⟨c, cs, hc, -, rfl⟩ := hk.opens (isTerm_base ht) level (dots (path t) r)
  obtain ⟨d, ds, hd, -, rfl⟩ := hl.opens (isTerm_base hu) level (dots (path u) r')
  obtain rfl : c = d := List.head_eq_of_cons_eq (hc.symm.trans (h.trans hd))
  obtain ⟨heq, hpath, hrest⟩ := shape_cancels hk hl (isTerm_base ht) (isTerm_base hu) hbase
    (isSlot_path ht) (isSlot_path hu) hr hr' h
  exact ⟨unmarked_of_base heq hpath, hrest⟩

end Cancellation

inductive Enters : List Char → Prop
  | line (r : List Char) : Enters ('\n' :: r)
  | blank {c : Char} (hc : c ≠ '|') (r : List Char) : Enters (' ' :: c :: r)

def spellBody (width : Nat) : List Term → Int → List Char → List Char
  | [], _, r => ' ' :: '\x7d' :: r
  | t :: ts, level, r =>
      if ts.isEmpty && !(spell width t level []).contains '\n' then
        ' ' :: spell width t level (' ' :: '\x7d' :: r)
      else spellLines width (t :: ts) (level + 1) (newline width level ('\x7d' :: r))

section Blocks

variable {A : Alphabet} {width : Nat} {level : Int} {t u : Term} {ts us : List Term}
  {c d : Code} {ps qs : List String} {r r' : List Char}

theorem spaced_cancels (hp : ∀ p ∈ ps, Plain p) (hq : ∀ q ∈ qs, Plain q)
    (h : spaced ps ('|' :: r) = spaced qs ('|' :: r')) : ps = qs ∧ r = r' := by
  have delimited (ps : List String) (r : List Char) :
      ∀ c ∈ (spaced ps ('|' :: r)).head?, c ∈ delimiters := by
    cases ps <;> simp [spaced, delimiters]
  induction ps generalizing qs with
  | nil =>
      cases qs with
      | nil => exact ⟨rfl, List.tail_eq_of_cons_eq h⟩
      | cons q qs => exact absurd (List.head_eq_of_cons_eq h) (by decide)
  | cons p ps ih =>
      cases qs with
      | nil => exact absurd (List.head_eq_of_cons_eq h) (by decide)
      | cons q qs =>
          rw [List.forall_mem_cons] at hp hq
          obtain ⟨rfl, hrest⟩ := word_cancels hp.1 hq.1 (delimited ps r) (delimited qs r')
            (List.tail_eq_of_cons_eq h)
          obtain ⟨rfl, rfl⟩ := ih hp.2 hq.2 hrest
          exact ⟨rfl, rfl⟩

theorem opening_cons (p : String) (ps : List String) (r : List Char) :
    opening (p :: ps) ++ r = '\x7b' :: ' ' :: '|' :: (p.toList ++ spaced ps ('|' :: r)) := by
  rw [← toList_joined, opening, openHeader, if_neg (by simp)]
  simp

theorem opening_cancels (hp : ∀ p ∈ ps, Plain p) (hq : ∀ q ∈ qs, Plain q) (hr : Enters r)
    (hr' : Enters r') (h : opening ps ++ r = opening qs ++ r') : ps = qs ∧ r = r' := by
  -- without parameters the brace is followed by what never is a bar
  have unbarred {r x : List Char} (hr : Enters r) : r ≠ ' ' :: '|' :: x := by
    rintro rfl
    cases hr with
    | blank hc => exact hc rfl
  cases ps with
  | nil =>
      cases qs with
      | nil => exact ⟨rfl, List.tail_eq_of_cons_eq h⟩
      | cons q qs =>
          rw [opening_cons] at h
          exact absurd (List.tail_eq_of_cons_eq h) (unbarred hr)
  | cons p ps =>
      cases qs with
      | nil =>
          rw [opening_cons] at h
          exact absurd (List.tail_eq_of_cons_eq h).symm (unbarred hr')
      | cons q qs =>
          rw [opening_cons, opening_cons] at h
          exact spaced_cancels hp hq (congrArg (' ' :: List.drop 3 ·) h)

theorem spellCode_body (c : Code) (level : Int) (r : List Char) :
    spellCode width c level r = opening c.params ++ spellBody width c.statements level r := by
  obtain ⟨ts, params⟩ := c
  cases ts with
  | nil => rw [spellCode, spellBody]
  | cons t ts =>
      rw [spellCode, spellBody]
      split
      · rfl
      · rw [spellLines]

theorem spellCode_opens (width : Nat) (c : Code) (level : Int) (r : List Char) :
    ∃ cs, spellCode width c level r = '\x7b' :: cs := by
  rw [spellCode_body]
  cases c.params with
  | nil => exact ⟨_, rfl⟩
  | cons p ps => exact ⟨_, opening_cons p ps _⟩

theorem spell_ne (ht : A.IsTerm t) (level : Int) (r : List Char) {d : Char}
    (hd : d ∈ [' ', '|', '\x7b', '\x7d']) : (spell width t level r).head? ≠ some d := by
  obtain ⟨c, cs, h, hc⟩ := spell_opens ht level r
  rw [h]
  rintro ⟨⟩
  simp only [List.mem_cons, List.not_mem_nil, or_false] at hd
  rcases hd with rfl | rfl | rfl | rfl <;> simp [delimiters] at hc

theorem spellBody_enters (hts : ∀ t ∈ ts, A.IsTerm t) (level : Int) (r : List Char) :
    Enters (spellBody width ts level r) := by
  cases ts with
  | nil => exact .blank (by decide) _
  | cons t ts =>
      rw [spellBody]
      split
      · obtain ⟨c, cs, h, hc⟩ := spell_opens (hts t (by simp)) level (' ' :: '\x7d' :: r)
        rw [h]
        refine .blank ?_ _
        rintro rfl
        simp [delimiters] at hc
      · exact .line _

theorem lines_open (width : Nat) (ts : List Term) (level level' : Int) (r : List Char) :
    ∃ cs, spellLines width ts level (newline width level' r) = '\n' :: cs := by
  cases ts with
  | nil => exact ⟨_, rfl⟩
  | cons t ts => exact ⟨_, by rw [spellLines]; rfl⟩

theorem lines_close (ts : List Term) (level level' : Int) (r : List Char) :
    Closes (spellLines width ts level (newline width level' r)) := by
  obtain ⟨cs, h⟩ := lines_open width ts level level' r
  rw [h]
  exact .line cs

theorem lines_cancel (hts : ∀ t ∈ ts, A.IsTerm t) (hus : ∀ u ∈ us, A.IsTerm u)
    (hcancels : ∀ t ∈ ts, Cancels A width t) {level' : Int}
    (h : spellLines width ts level (newline width level' ('\x7d' :: r)) =
      spellLines width us level (newline width level' ('\x7d' :: r'))) :
    unmarkedAll ts = unmarkedAll us ∧ r = r' := by
  induction ts generalizing us with
  | nil =>
      cases us with
      | nil => exact ⟨rfl, List.tail_eq_of_cons_eq (newline_cancels (by simp) (by simp) h)⟩
      | cons u us =>
          rw [spellLines, spellLines] at h
          have hclose := newline_cancels (by simp) (spell_ne (hus u (by simp)) _ _ (by simp)) h
          exact absurd (congrArg List.head? hclose).symm (spell_ne (hus u (by simp)) _ _ (by simp))
  | cons t ts ih =>
      cases us with
      | nil =>
          rw [spellLines, spellLines] at h
          have hclose := newline_cancels (spell_ne (hts t (by simp)) _ _ (by simp)) (by simp) h
          exact absurd (congrArg List.head? hclose) (spell_ne (hts t (by simp)) _ _ (by simp))
      | cons u us =>
          rw [List.forall_mem_cons] at hts hus hcancels
          rw [spellLines, spellLines] at h
          have hline := newline_cancels (spell_ne hts.1 _ _ (by simp)) (spell_ne hus.1 _ _ (by simp)) h
          obtain ⟨heq, hlines⟩ := hcancels.1 u _ _ _ hus.1 (lines_close ts _ _ _)
            (lines_close us _ _ _) hline
          obtain ⟨heqs, hr⟩ := ih hts.2 hus.2 hcancels.2 hlines
          exact ⟨by rw [unmarkedAll, unmarkedAll, heq, heqs], hr⟩

theorem spellBody_cases (width : Nat) (ts : List Term) (level : Int) (r : List Char) :
    (ts = [] ∧ spellBody width ts level r = ' ' :: '\x7d' :: r) ∨
      (∃ t, ts = [t] ∧ spellBody width ts level r = ' ' :: spell width t level (' ' :: '\x7d' :: r)) ∨
        spellBody width ts level r =
          spellLines width ts (level + 1) (newline width level ('\x7d' :: r)) := by
  cases ts with
  | nil => exact .inl ⟨rfl, rfl⟩
  | cons t ts =>
      rw [spellBody]
      split
      next h =>
          rw [Bool.and_eq_true, List.isEmpty_iff] at h
          exact .inr (.inl ⟨t, by rw [h.1], rfl⟩)
      next => exact .inr (.inr rfl)

theorem body_cancels (hts : ∀ t ∈ ts, A.IsTerm t) (hus : ∀ u ∈ us, A.IsTerm u)
    (hcancels : ∀ t ∈ ts, Cancels A width t)
    (h : spellBody width ts level r = spellBody width us level r') :
    unmarkedAll ts = unmarkedAll us ∧ r = r' := by
  obtain ⟨ls, hls⟩ := lines_open width ts (level + 1) level ('\x7d' :: r)
  obtain ⟨ls', hls'⟩ := lines_open width us (level + 1) level ('\x7d' :: r')
  rcases spellBody_cases width ts level r with ⟨rfl, hb⟩ | ⟨t, rfl, hb⟩ | hb
  · rcases spellBody_cases width us level r' with ⟨rfl, hb'⟩ | ⟨u, rfl, hb'⟩ | hb'
    · rw [hb, hb'] at h
      exact ⟨rfl, by simpa using h⟩
    · rw [hb, hb'] at h
      exact absurd (congrArg List.head? (List.tail_eq_of_cons_eq h)).symm
        (spell_ne (hus u (by simp)) _ _ (by simp))
    · rw [hb, hb', hls'] at h
      exact absurd (List.head_eq_of_cons_eq h) (by decide)
  · rcases spellBody_cases width us level r' with ⟨rfl, hb'⟩ | ⟨u, rfl, hb'⟩ | hb'
    · rw [hb, hb'] at h
      exact absurd (congrArg List.head? (List.tail_eq_of_cons_eq h))
        (spell_ne (hts t (by simp)) _ _ (by simp))
    · rw [hb, hb'] at h
      obtain ⟨heq, hr⟩ := hcancels t (by simp) u level _ _ (hus u (by simp)) (.brace r) (.brace r')
        (List.tail_eq_of_cons_eq h)
      exact ⟨by simp [unmarkedAll, heq], by simpa using hr⟩
    · rw [hb, hb', hls'] at h
      exact absurd (List.head_eq_of_cons_eq h) (by decide)
  · rcases spellBody_cases width us level r' with ⟨rfl, hb'⟩ | ⟨u, rfl, hb'⟩ | hb'
    · rw [hb, hb', hls] at h
      exact absurd (List.head_eq_of_cons_eq h) (by decide)
    · rw [hb, hb', hls] at h
      exact absurd (List.head_eq_of_cons_eq h) (by decide)
    · rw [hb, hb'] at h
      exact lines_cancel hts hus hcancels h

theorem code_cancels (hc : A.IsCode c) (hd : A.IsCode d)
    (hcancels : ∀ t ∈ c.statements, Cancels A width t)
    (h : spellCode width c level r = spellCode width d level r') :
    unmarkedCode c = unmarkedCode d ∧ r = r' := by
  rw [spellCode_body, spellCode_body] at h
  obtain ⟨hparams, hbody⟩ := opening_cancels (fun p hp => identifier_plain (hc.params p hp))
    (fun p hp => identifier_plain (hd.params p hp)) (spellBody_enters hc.statements level r)
    (spellBody_enters hd.statements level r') h
  obtain ⟨hstatements, hr⟩ := body_cancels hc.statements hd.statements hcancels hbody
  exact ⟨by rw [unmarkedCode_eq, unmarkedCode_eq, hstatements, hparams], hr⟩

end Blocks

def IsCall (t : Term) : Prop :=
  ∃ n args block, t = .call n args block

section Calls

variable {A : Alphabet} {width : Nat} {level : Int} {t u : Term} {args args' : List Term}
  {block block' : Option Code} {m n : String} {r r' : List Char}

theorem isCall_of_isCompound (h : t.isCompound) : IsCall t := by
  cases t with
  | call n args block => exact ⟨n, args, block, rfl⟩
  | _ => cases h

theorem spellBlock_ends (hr : Closes r) (block : Option Code) (level : Int) :
    Ends (spellBlock width block level r) := by
  cases block with
  | none => exact hr.ends
  | some c => simp [Ends, spellBlock]

theorem spellArgs_ends (hr : Ends r) (args : List Term) (level : Int) :
    Ends (spellArgs width args level r) := by
  cases args with
  | nil => exact hr
  | cons t args =>
      rw [spellArgs_cons]
      simp [Ends]

theorem block_ne_operand (hr : Closes r) (ht : A.IsTerm t) (block : Option Code) (level level' : Int)
    (x : List Char) : spellBlock width block level r ≠ ' ' :: operand width t level' x := by
  obtain ⟨c, cs, h, hc⟩ := operand_opens ht level' x
  rw [h]
  intro heq
  cases block with
  | none =>
      rw [spellBlock] at heq
      subst heq
      cases hr
      simp [delimiters] at hc
  | some d =>
      obtain ⟨ds, hd⟩ := spellCode_opens width d level r
      rw [spellBlock, hd] at heq
      obtain ⟨rfl, -⟩ := List.cons.inj (List.tail_eq_of_cons_eq heq)
      simp [delimiters] at hc

theorem block_cancels (hblock : ∀ c ∈ block, A.IsCode c) (hblock' : ∀ c ∈ block', A.IsCode c)
    (hcancels : ∀ c ∈ block, ∀ t ∈ c.statements, Cancels A width t) (hr : Closes r) (hr' : Closes r')
    (h : spellBlock width block level r = spellBlock width block' level r') :
    block.map unmarkedCode = block'.map unmarkedCode ∧ r = r' := by
  -- what closes a statement is no block
  have unopened {r : List Char} (hr : Closes r) (c : Code) (level : Int) (x : List Char) :
      r ≠ ' ' :: spellCode width c level x := by
    obtain ⟨cs, hcs⟩ := spellCode_opens width c level x
    rw [hcs]
    rintro rfl
    nomatch hr
  cases block with
  | none =>
      cases block' with
      | none => exact ⟨rfl, h⟩
      | some d => exact absurd h (unopened hr d level r')
  | some c =>
      cases block' with
      | none => exact absurd h.symm (unopened hr' c level r)
      | some d =>
          obtain ⟨heq, hrest⟩ := code_cancels (hblock c rfl) (hblock' d rfl) (hcancels c rfl)
            (List.tail_eq_of_cons_eq h)
          exact ⟨congrArg some heq, hrest⟩

theorem args_cancel (hargs : ∀ t ∈ args, A.IsTerm t) (hargs' : ∀ t ∈ args', A.IsTerm t)
    (hcancels : ∀ t ∈ args, IsCall (base t) → Cancels A width (base t)) (hr : Closes r)
    (hr' : Closes r')
    (h : spellArgs width args level (spellBlock width block level r) =
      spellArgs width args' level (spellBlock width block' level r')) :
    unmarkedAll args = unmarkedAll args' ∧
      spellBlock width block level r = spellBlock width block' level r' := by
  induction args generalizing args' with
  | nil =>
      cases args' with
      | nil => exact ⟨rfl, h⟩
      | cons u args' =>
          rw [spellArgs, spellArgs_cons] at h
          exact absurd h (block_ne_operand hr (hargs' u (by simp)) block _ _ _)
  | cons t args ih =>
      cases args' with
      | nil =>
          rw [spellArgs, spellArgs_cons] at h
          exact absurd h.symm (block_ne_operand hr' (hargs t (by simp)) block' _ _ _)
      | cons u args' =>
          rw [List.forall_mem_cons] at hargs hargs' hcancels
          rw [spellArgs_cons, spellArgs_cons] at h
          obtain ⟨heq, hrest⟩ := operand_cancels hargs.1 hargs'.1 (hcancels.1 ∘ isCall_of_isCompound)
            (spellArgs_ends (spellBlock_ends hr block level) args level)
            (spellArgs_ends (spellBlock_ends hr' block' level) args' level) (List.tail_eq_of_cons_eq h)
          obtain ⟨heqs, hblocks⟩ := ih hargs.2 hargs'.2 hcancels.2 hrest
          exact ⟨by rw [unmarkedAll, unmarkedAll, heq, heqs], hblocks⟩

theorem operand_of_not_call (ht : ¬IsCall t) (level : Int) (r : List Char) :
    operand width t level r = spell width t level r := by
  cases t with
  | call n args block => exact absurd ⟨n, args, block, rfl⟩ ht
  | _ => rfl

theorem isCall_of_spell (hn : A.IsIdentifier n) (hu : A.IsTerm u) (hr : Closes r) (hr' : Closes r')
    (h : spell width (.call n args block) level r = spell width u level r') : IsCall u := by
  by_contra hcall
  rw [spell_call, ← operand_of_not_call hcall, ← operand_word (t := .call n [] none) rfl level] at h
  have hbare : A.IsTerm (.call n [] none) := .call hn nofun nofun nofun
  obtain ⟨heq, -⟩ := operand_cancels hbare hu nofun
    (spellArgs_ends (spellBlock_ends hr block level) args level) hr'.ends h
  cases hu with
  | call => exact hcall ⟨_, _, _, rfl⟩
  | _ => simp [unmarked] at heq

theorem call_cancels (ht : A.IsTerm (.call n args block))
    (hargs : ∀ t ∈ args, IsCall (base t) → Cancels A width (base t))
    (hblock : ∀ c ∈ block, ∀ t ∈ c.statements, Cancels A width t) :
    Cancels A width (.call n args block) := by
  intro u level r r' hu hr hr' h
  obtain ⟨m, args', block', rfl⟩ := isCall_of_spell ht.name hu hr hr' h
  rw [spell_call, spell_call] at h
  obtain ⟨rfl, hrest⟩ := word_cancels (identifier_plain ht.name) (identifier_plain hu.name)
    (spellArgs_ends (spellBlock_ends hr block level) args level).delimits
    (spellArgs_ends (spellBlock_ends hr' block' level) args' level).delimits h
  obtain ⟨heqs, hblocks⟩ := args_cancel ht.args hu.args hargs hr hr' hrest
  obtain ⟨heq, hrest⟩ := block_cancels ht.block hu.block hblock hr hr' hblocks
  exact ⟨by rw [unmarked_call, unmarked_call, heqs, heq], hrest⟩

theorem cancels_of_base (ht : A.IsTerm t) (hbase : IsCall (base t) → Cancels A width (base t)) :
    Cancels A width t := by
  by_cases hcall : IsCall t
  · obtain ⟨n, args, block, rfl⟩ := hcall
    exact hbase ⟨n, args, block, rfl⟩
  · intro u level r r' hu hr hr' h
    have hcall' : ¬IsCall u := by
      rintro ⟨n, args, block, rfl⟩
      exact hcall (isCall_of_spell hu.name ht hr' hr h.symm)
    rw [← operand_of_not_call hcall, ← operand_of_not_call hcall'] at h
    exact operand_cancels ht hu (hbase ∘ isCall_of_isCompound) hr.ends hr'.ends h

theorem base_cancels (width : Nat) (ht : A.IsTerm t) (hcall : IsCall (base t)) :
    Cancels A width (base t) := by
  induction ht with
  | access k hn ht ih => exact ih hcall
  | call hn hargs hstatements hparams ihargs ihstatements =>
      exact call_cancels (.call hn hargs hstatements hparams) ihargs fun c hc t ht =>
        cancels_of_base (hstatements c hc t ht) (ihstatements c hc t ht)
  | _ =>
      obtain ⟨_, _, _, h⟩ := hcall
      cases h

theorem cancels (width : Nat) (ht : A.IsTerm t) : Cancels A width t :=
  cancels_of_base ht (base_cancels width ht)

end Calls

section Source

variable {A : Alphabet} {σ : Store} {t x y : Term} {c : Code} {text : String}

theorem spell_of_node (hx : A.IsNode x) (width : Nat) (level : Int)
    (h : σ.source width level x = .ok text) : text.toList = spell width x level [] := by
  cases hx with
  | term ht =>
      rw [← spell_of_source x level text [] ht h, List.append_nil]
  | code hc =>
      rw [Store.source, Term.sourceWith] at h
      rw [spell, ← spellCode_of_source _ level text [] hc h, List.append_nil]

theorem spell_term_ne_code (ht : A.IsTerm t) (c : Code) (width : Nat) (level : Int)
    (r r' : List Char) : spell width t level r ≠ spell width (.code c) level r' := by
  obtain ⟨cs, hcs⟩ := spellCode_opens width c level r'
  intro h
  rw [spell, hcs] at h
  exact spell_ne ht level r (by simp) (congrArg List.head? h)

/-- Nodes that are written with the same text are the same, but for the marks of their references. -/
theorem source_unambiguous (hx : A.IsNode x) (hy : A.IsNode y) (width : Nat) (level : Int)
    (h : σ.source width level x = .ok text) (h' : σ.source width level y = .ok text) :
    unmarked x = unmarked y := by
  have heq := (spell_of_node hx width level h).symm.trans (spell_of_node hy width level h')
  cases hx with
  | term ht =>
      cases hy with
      | term hu => exact (cancels width ht _ level _ _ hu .done .done heq).1
      | code hd => exact absurd heq (spell_term_ne_code ht _ width level _ _)
  | code hc =>
      cases hy with
      | term hu => exact absurd heq.symm (spell_term_ne_code hu _ width level _ _)
      | code hd =>
          rw [spell, spell] at heq
          rw [unmarked, unmarked,
            (code_cancels hc hd (fun t ht => cancels width (hc.statements t ht)) heq).1]

end Source

def ascii : Alphabet where
  letter := Char.isAlpha
  digit := Char.isDigit
  letter_plain c hc := by
    refine ⟨?_, ?_, ?_⟩
    · have hdelimiters : ∀ d ∈ delimiters, d.isAlpha = false := by
        simp [delimiters, Char.isAlpha, Char.isUpper, Char.isLower]
      intro hd
      simp [hdelimiters c hd] at hc
    · rintro rfl
      simp [Char.isAlpha, Char.isUpper, Char.isLower] at hc
    · simp [Char.isAlpha, Char.isUpper, Char.isLower, UInt32.le_iff_toNat_le] at hc
      simp [Char.isDigit, UInt32.le_iff_toNat_le]
      omega
  digit_plain c hc := by
    have hdelimiters : ∀ d ∈ delimiters, d.isDigit = false := by
      simp [delimiters, Char.isDigit]
    intro hd
    simp [hdelimiters c hd] at hc

def marked (k : Nat) : Term :=
  .call "f" [.ref "1" (some (.call "g" [.num 1] none)) k] (some ⟨[.call "a" [] none], ["a"]⟩)

theorem isNode_marked (k : Nat) : ascii.IsNode (marked k) := by
  have hf : ascii.IsIdentifier "f" :=
    ⟨⟨'f', [], rfl, by decide, nofun⟩, by decide, by decide, by decide⟩
  have hg : ascii.IsIdentifier "g" :=
    ⟨⟨'g', [], rfl, by decide, nofun⟩, by decide, by decide, by decide⟩
  have ha : ascii.IsIdentifier "a" :=
    ⟨⟨'a', [], rfl, by decide, nofun⟩, by decide, by decide, by decide⟩
  refine .term (.call hf (List.forall_mem_singleton.2 ?_) ?_ ?_)
  · exact .access k (.inr (by decide))
      (.call hg (List.forall_mem_singleton.2 (.num 1)) nofun nofun)
  · rintro c ⟨⟩
    exact List.forall_mem_singleton.2 (.call ha nofun nofun nofun)
  · rintro c ⟨⟩
    exact List.forall_mem_singleton.2 ha

theorem source_marked (k : Nat) :
    ({} : Store).source 2 0 (marked k) = .ok "f (g 1).<1> \x7b |a| a \x7d" := by
  rfl

theorem source_unambiguous_marked : ascii.IsNode (marked 0) ∧ ascii.IsNode (marked 1) ∧
    ({} : Store).source 2 0 (marked 0) = ({} : Store).source 2 0 (marked 1) ∧
      unmarked (marked 0) = unmarked (marked 1) :=
  ⟨isNode_marked 0, isNode_marked 1, by rw [source_marked, source_marked],
    source_unambiguous (isNode_marked 0) (isNode_marked 1) 2 0 (source_marked 0) (source_marked 1)⟩

end BlockScript.Proofs.Readability
