import BlockScript.Proofs.Indentation

namespace BlockScript.Proofs.Spelling

open Faulting Indentation
open Render hiding inline

def delimiters : List Char :=
  [' ', '\n', '"', '(', ')', '\x7b', '\x7d', '|', '<', '>', '.']

structure Alphabet where
  letter : Char → Bool
  digit : Char → Bool
  letter_plain : ∀ c, letter c = true → c ∉ delimiters ∧ c ≠ '-' ∧ c.isDigit = false
  digit_plain : ∀ c, digit c = true → c ∉ delimiters

namespace Alphabet

variable (A : Alphabet)

def starts (c : Char) : Bool :=
  A.letter c || c == '_'

def follows (c : Char) : Bool :=
  A.letter c || A.digit c || c == '-' || c == '_'

structure IsIdentifier (n : String) : Prop where
  chars : ∃ c cs, n.toList = c :: cs ∧ A.starts c = true ∧ ∀ d ∈ cs, A.follows d = true
  ne_null : n ≠ "null"
  ne_true : n ≠ "true"
  ne_false : n ≠ "false"

def IsSlot (n : String) : Prop :=
  A.IsIdentifier n ∨ SlotName.isNumeral n = true

/-- Literals, references and calls, in which blocks stand only at the end of calls. -/
inductive IsTerm : Term → Prop
  | null : IsTerm .null
  | bool (b : Bool) : IsTerm (.bool b)
  | num (n : Int) : IsTerm (.num n)
  | str {s : String} (hq : '"' ∉ s.toList) (hb : '\n' ∉ s.toList) : IsTerm (.str s)
  | ref {n : String} (k : Nat) (hn : A.IsSlot n) : IsTerm (.ref n none k)
  | access {n : String} {t : Term} (k : Nat) (hn : A.IsSlot n) (ht : IsTerm t) :
      IsTerm (.ref n (some t) k)
  | call {n : String} {args : List Term} {block : Option Code} (hn : A.IsIdentifier n)
      (hargs : ∀ t ∈ args, IsTerm t) (hstatements : ∀ c ∈ block, ∀ t ∈ c.statements, IsTerm t)
      (hparams : ∀ c ∈ block, ∀ p ∈ c.params, A.IsIdentifier p) : IsTerm (.call n args block)

structure IsCode (c : Code) : Prop where
  statements : ∀ t ∈ c.statements, A.IsTerm t
  params : ∀ p ∈ c.params, A.IsIdentifier p

inductive IsNode : Term → Prop
  | term {t : Term} (ht : A.IsTerm t) : IsNode t
  | code {c : Code} (hc : A.IsCode c) : IsNode (.code c)

variable {A}

theorem IsTerm.unquoted {s : String} (h : A.IsTerm (.str s)) : '"' ∉ s.toList := by
  cases h
  assumption

theorem IsTerm.slot {n : String} {k : Nat} (h : A.IsTerm (.ref n none k)) : A.IsSlot n := by
  cases h
  assumption

theorem IsTerm.name {n : String} {args : List Term} {block : Option Code}
    (h : A.IsTerm (.call n args block)) : A.IsIdentifier n := by
  cases h
  assumption

theorem IsTerm.block {n : String} {args : List Term} {block : Option Code}
    (h : A.IsTerm (.call n args block)) : ∀ c ∈ block, A.IsCode c := by
  cases h with
  | call _ _ hs hp => exact fun c hc => ⟨hs c hc, hp c hc⟩

theorem IsTerm.args {n : String} {args : List Term} {block : Option Code}
    (h : A.IsTerm (.call n args block)) : ∀ t ∈ args, A.IsTerm t := by
  cases h with
  | call _ hargs _ _ => exact hargs

end Alphabet

mutual

def unmarked : Term → Term
  | .ref n none _ => .ref n none
  | .ref n (some t) _ => .ref n (some (unmarked t))
  | .call n args none => .call n (unmarkedAll args) none
  | .call n args (some c) => .call n (unmarkedAll args) (some (unmarkedCode c))
  | .code c => .code (unmarkedCode c)
  | t => t

def unmarkedCode : Code → Code
  | ⟨ts, params⟩ => ⟨unmarkedAll ts, params⟩

def unmarkedAll : List Term → List Term
  | [] => []
  | t :: ts => unmarked t :: unmarkedAll ts

end

def opening (params : List String) : List Char :=
  (openHeader params).toList

def newline (width : Nat) (level : Int) (rest : List Char) : List Char :=
  '\n' :: ((margin width level).toList ++ rest)

mutual

/-- The characters of the term's text, and then the rest. -/
def spell (width : Nat) : Term → Int → List Char → List Char
  | .null, _, rest => "null".toList ++ rest
  | .bool b, _, rest => (if b then "true" else "false").toList ++ rest
  | .num n, _, rest => (toString n).toList ++ rest
  | .str s, _, rest => '"' :: (s.toList ++ '"' :: rest)
  | .ref n none _, _, rest => '<' :: (n.toList ++ '>' :: rest)
  | .ref n (some t) _, level, rest =>
      if t.isCompound then '(' :: spell width t level (')' :: '.' :: '<' :: (n.toList ++ '>' :: rest))
      else spell width t level ('.' :: '<' :: (n.toList ++ '>' :: rest))
  | .call n args none, level, rest => n.toList ++ spellArgs width args level rest
  | .call n args (some c), level, rest =>
      n.toList ++ spellArgs width args level (' ' :: spellCode width c level rest)
  | .code c, level, rest => spellCode width c level rest
  | _, _, rest => rest

def spellCode (width : Nat) : Code → Int → List Char → List Char
  | ⟨[], params⟩, _, rest => opening params ++ ' ' :: '\x7d' :: rest
  | ⟨t :: ts, params⟩, level, rest =>
      if ts.isEmpty && !(spell width t level []).contains '\n' then
        opening params ++ ' ' :: spell width t level (' ' :: '\x7d' :: rest)
      else opening params ++ newline width (level + 1) (spell width t (level + 1)
        (spellLines width ts (level + 1) (newline width level ('\x7d' :: rest))))

def spellArgs (width : Nat) : List Term → Int → List Char → List Char
  | [], _, rest => rest
  | t :: ts, level, rest =>
      if t.isCompound then ' ' :: '(' :: spell width t level (')' :: spellArgs width ts level rest)
      else ' ' :: spell width t level (spellArgs width ts level rest)

def spellLines (width : Nat) : List Term → Int → List Char → List Char
  | [], _, rest => rest
  | t :: ts, level, rest =>
      newline width level (spell width t level (spellLines width ts level rest))

end

section Text

variable {σ : Store} {width : Nat} {below : ScopeId → Int → Except Fault String}
  {A : Alphabet}

def spaced (texts : List String) (rest : List Char) : List Char :=
  texts.foldr (fun x r => ' ' :: (x.toList ++ r)) rest

theorem toList_joined (x : String) (texts : List String) (rest : List Char) :
    (" ".intercalate (x :: texts)).toList ++ rest = x.toList ++ spaced texts rest := by
  induction texts generalizing x with
  | nil => rw [String.intercalate_singleton]; rfl
  | cons y texts ih =>
      rw [String.intercalate_cons_cons, String.toList_append, String.toList_append, List.append_assoc,
        List.append_assoc, ih]
      rfl

theorem spaced_append (xs ys : List String) (rest : List Char) :
    spaced (xs ++ ys) rest = spaced xs (spaced ys rest) :=
  List.foldr_append

theorem toList_broken (width : Nat) (level : Int) (line : String) (rest : List Char) :
    (broken width level line).toList ++ rest = newline width level (line.toList ++ rest) := by
  simp [broken, newline]

theorem toList_lines (width : Nat) (level : Int) (lines : List String) (rest : List Char) :
    (lines.foldr (broken width level · ++ ·) "").toList ++ rest =
      lines.foldr (fun x r => newline width level (x.toList ++ r)) rest := by
  induction lines with
  | nil => rfl
  | cons x lines ih =>
      rw [List.foldr_cons, String.toList_append, List.append_assoc, ih, toList_broken]
      rfl

theorem toList_header (params : List String) (rest : List Char) :
    ("\x7b " ++ header params).toList ++ rest = opening params ++ ' ' :: rest := by
  rw [header, opening, openHeader]
  split <;> simp

theorem toList_inline (params : List String) (text : String) (rest : List Char) :
    (Render.inline params text).toList ++ rest =
      opening params ++ ' ' :: (text.toList ++ ' ' :: '\x7d' :: rest) := by
  rw [Render.inline, String.toList_append, String.toList_append, List.append_assoc,
    List.append_assoc, toList_header]
  rfl

theorem toList_multiline (width : Nat) (level : Int) (params : List String) (x : String)
    (lines : List String) (rest : List Char) :
    (multiline width level params (x :: lines)).toList ++ rest = opening params ++
      (x :: lines).foldr (fun x r => newline width (level + 1) (x.toList ++ r))
        (newline width level ('\x7d' :: rest)) := by
  rw [multiline_eq, String.toList_append, String.toList_append, List.append_assoc, List.append_assoc,
    toList_broken, toList_lines]
  rfl

theorem toList_parenthesised (t : Term) (text : String) (rest : List Char) :
    (parenthesised t text).toList ++ rest =
      if t.isCompound then '(' :: (text.toList ++ ')' :: rest) else text.toList ++ rest := by
  rw [parenthesised]
  split
  · simp
  · rfl

mutual

/-- The text of a term consists of the characters that it is spelled with. -/
theorem spell_of_source : ∀ (t : Term) (level : Int) (text : String) (rest : List Char), A.IsTerm t →
    t.sourceWith σ.numeral width below level = .ok text →
    text.toList ++ rest = spell width t level rest
  | .null, _, _, _, _, h | .bool _, _, _, _, _, h | .ref _ none _, _, _, _, _, h
  | .str _, _, _, _, _, h => by
      rw [Term.sourceWith] at h
      obtain rfl := Except.ok.inj h
      simp [spell]
  | .num _, _, _, _, _, h => by
      rw [Term.sourceWith] at h
      rw [numeral_eq h, spell]
  | .ref n (some t) _, level, _, rest, ht, h => by
      rw [Term.sourceWith] at h
      obtain ⟨text, htext, h⟩ := bind_ok h
      obtain rfl := Except.ok.inj h
      have ht : A.IsTerm t := by cases ht; assumption
      have hspell (r) := spell_of_source t level text r ht htext
      rw [spell, String.toList_append, String.toList_append, String.toList_append, List.append_assoc,
        List.append_assoc, List.append_assoc, toList_parenthesised]
      simp only [hspell]
      rfl
  | .call n args none, level, _, rest, ht, h => by
      rw [Term.sourceWith] at h
      obtain ⟨texts, htexts, h⟩ := bind_ok h
      obtain rfl := Except.ok.inj h
      rw [toList_joined, spell, spellArgs_of_source args level texts rest ht.args htexts]
  | .call n args (some c), level, _, rest, ht, h => by
      rw [Term.sourceWith] at h
      obtain ⟨texts, htexts, h⟩ := bind_ok h
      obtain ⟨body, hbody, h⟩ := bind_ok h
      obtain rfl := Except.ok.inj h
      have hcode := spellCode_of_source c level body rest (ht.block c rfl) hbody
      rw [List.cons_append, toList_joined, spaced_append, spell,
        spellArgs_of_source args level texts _ ht.args htexts, ← hcode]
      rfl

theorem spellCode_of_source : ∀ (c : Code) (level : Int) (text : String) (rest : List Char),
    A.IsCode c → c.sourceWith σ.numeral width below level = .ok text →
    text.toList ++ rest = spellCode width c level rest
  | ⟨[], params⟩, _, _, rest, _, h => by
      rw [Code.sourceWith] at h
      obtain rfl := Except.ok.inj h
      rw [String.toList_append, List.append_assoc, toList_header, spellCode]
      rfl
  | ⟨[t], params⟩, level, _, rest, hc, h => by
      rw [Code.sourceWith] at h
      obtain ⟨text, htext, h⟩ := bind_ok h
      have ht := hc.statements t (by simp)
      have hspell := spell_of_source t level text [] ht htext
      rw [List.append_nil] at hspell
      have hbreaks : (spell width t level []).contains '\n' = breaks text := by rw [← hspell]; rfl
      rw [spellCode, hbreaks]
      split at h
      next hb =>
          obtain ⟨line, hline, h⟩ := bind_ok h
          obtain rfl := Except.ok.inj h
          rw [toList_multiline, if_neg (by simp [hb]), List.foldr_cons, List.foldr_nil,
            spell_of_source t (level + 1) line _ ht hline, spellLines]
      next hb =>
          obtain rfl := Except.ok.inj h
          rw [toList_inline, if_pos (by simpa using hb), spell_of_source t level text _ ht htext]
  | ⟨t :: u :: ts, params⟩, level, _, rest, hc, h => by
      rw [Code.sourceWith] at h
      obtain ⟨first, hfirst, h⟩ := bind_ok h
      obtain ⟨second, hsecond, h⟩ := bind_ok h
      obtain ⟨lines, hlines, h⟩ := bind_ok h
      obtain rfl := Except.ok.inj h
      have hts := spellLines_of_source ts (level + 1) lines
        (newline width level ('\x7d' :: rest)) (fun v hv => hc.statements v (by simp [hv])) hlines
      rw [toList_multiline, spellCode, if_neg (by simp), spellLines, List.foldr_cons, List.foldr_cons,
        hts, spell_of_source u _ second _ (hc.statements u (by simp)) hsecond,
        spell_of_source t _ first _ (hc.statements t (by simp)) hfirst]

theorem spellArgs_of_source : ∀ (ts : List Term) (level : Int) (texts : List String)
    (rest : List Char), (∀ t ∈ ts, A.IsTerm t) →
    Term.argsWith σ.numeral width below ts level = .ok texts →
    spaced texts rest = spellArgs width ts level rest
  | [], _, _, _, _, h => by
      rw [Term.argsWith] at h
      obtain rfl := Except.ok.inj h
      rfl
  | t :: ts, level, _, rest, hts, h => by
      rw [Term.argsWith] at h
      obtain ⟨text, htext, h⟩ := bind_ok h
      obtain ⟨texts, htexts, h⟩ := bind_ok h
      obtain rfl := Except.ok.inj h
      have hspell (r) := spell_of_source t level text r (hts t (by simp)) htext
      have hrest := spellArgs_of_source ts level texts rest (fun u hu => hts u (by simp [hu])) htexts
      rw [spellArgs, ← hrest, ← hspell, ← hspell]
      change ' ' :: ((parenthesised t text).toList ++ spaced texts rest) = _
      rw [toList_parenthesised]
      split
      · rfl
      · rfl

theorem spellLines_of_source : ∀ (ts : List Term) (level : Int) (texts : List String)
    (rest : List Char), (∀ t ∈ ts, A.IsTerm t) →
    Term.linesWith σ.numeral width below ts level = .ok texts →
    texts.foldr (fun x r => newline width level (x.toList ++ r)) rest =
      spellLines width ts level rest
  | [], _, _, _, _, h => by
      rw [Term.linesWith] at h
      obtain rfl := Except.ok.inj h
      rfl
  | t :: ts, level, _, rest, hts, h => by
      rw [Term.linesWith] at h
      obtain ⟨text, htext, h⟩ := bind_ok h
      obtain ⟨texts, htexts, h⟩ := bind_ok h
      obtain rfl := Except.ok.inj h
      have hrest := spellLines_of_source ts level texts rest (fun u hu => hts u (by simp [hu])) htexts
      rw [List.foldr_cons, hrest, spell_of_source t level text _ (hts t (by simp)) htext, spellLines]

end

end Text

end BlockScript.Proofs.Spelling
