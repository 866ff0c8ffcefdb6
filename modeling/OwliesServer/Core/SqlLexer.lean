/-
Lexing of SQL text the way MySQL does it (default sql_mode): string literals in single or double quotes, in which a
doubled quote stands for the quote and a backslash starts an escape; backtick identifiers; `#`, `-- ` and block
comments; words; and everything else as single symbols.

The lexer is a machine over bytes (`step`), so lexing a concatenation is lexing its parts one after the other. Inside
a literal its behaviour is summed up by `literal`: the text the literal denotes and the input behind it.

- `Verbatim v`: v has no single quote, and backslashes only in the pairs `\%` and `\_`, which stand for themselves.
- `literal_verbatim`, `verbatim_of_literal`: 'v' denotes v exactly for verbatim v. The second direction holds even when
  v reaches past its closing quote into the text behind it, if that text parts from the quote (`Parts`): a literal that
  swallowed its closing quote would have to contain a shorter such literal as its own beginning (`no_overrun`).
- `Opens`, `Ends`: text that the lexer reads as closed, before a literal and at the end. `opens_run`, `ends_run`: it
  lexes to the same tokens wherever it stands.
- `opens_of_words`: the converse. If the text around a long word between quotes lexes so that the word is the literal
  read first, and there are as many such words as literals, then the text before the first of them is closed.
-/
import OwliesServer.Core.CChar

namespace OwliesServer.SqlLexer

open OwliesServer.CChar

/-! ## The characters that matter -/

def quote : Byte := 39
def doubleQuote : Byte := 34
def backtick : Byte := 96
def backslash : Byte := 92
def hash : Byte := 35
def dash : Byte := 45
def slash : Byte := 47
def star : Byte := 42
def newline : Byte := 10

/-- blanks and control characters -/
def isSpace (b : Byte) : Bool := b.toNat ≤ 32

/-- letters, digits, `_`, `$` and everything beyond ASCII -/
def isWord (b : Byte) : Bool :=
  (48 ≤ b.toNat ∧ b.toNat ≤ 57) ∨ (65 ≤ b.toNat ∧ b.toNat ≤ 90) ∨ (97 ≤ b.toNat ∧ b.toNat ≤ 122) ∨
    b.toNat = 95 ∨ b.toNat = 36 ∨ 128 ≤ b.toNat

/-- what a backslash and the byte after it stand for in a literal; `\%` and `\_` keep their backslash -/
def escape (b : Byte) : Bytes :=
  if b = 110 then [10] else if b = 116 then [9] else if b = 114 then [13] else if b = 98 then [8]
  else if b = 48 then [0] else if b = 90 then [26] else if b = 37 ∨ b = 95 then [backslash, b] else [b]

/-! ## Literals -/

/-- the piece `t` of a single-quoted literal's body denotes `d` -/
inductive Denotes : Bytes → Bytes → Prop
  | nil : Denotes [] []
  | doubled {t d : Bytes} : Denotes t d → Denotes (quote :: quote :: t) (quote :: d)
  | escaped (c : Byte) {t d : Bytes} : Denotes t d → Denotes (backslash :: c :: t) (escape c ++ d)
  | plain (b : Byte) {t d : Bytes} (hq : b ≠ quote) (hb : b ≠ backslash) : Denotes t d → Denotes (b :: t) (b :: d)

/-- the literal at the start of the input, its opening quote already read: the text it denotes and the input behind its
closing quote -/
def literal : Bytes → Option (Bytes × Bytes)
  | [] => none
  | [b] => if b = quote then some ([], []) else none
  | b :: c :: rest =>
    if b = quote then if c = quote then (literal rest).map (fun p => (quote :: p.1, p.2)) else some ([], c :: rest)
    else if b = backslash then (literal rest).map (fun p => (escape c ++ p.1, p.2))
    else (literal (c :: rest)).map (fun p => (b :: p.1, p.2))

/-- no quote, and every backslash is followed by `%` or `_`: between single quotes the value stands for itself -/
def Verbatim : Bytes → Prop
  | [] => True
  | b :: rest => b ≠ quote ∧ (b = backslash → rest.head? = some 37 ∨ rest.head? = some 95) ∧ Verbatim rest

instance decVerbatim : (v : Bytes) → Decidable (Verbatim v)
  | [] => isTrue trivial
  | b :: rest =>
    have := decVerbatim rest
    inferInstanceAs (Decidable (b ≠ quote ∧ (b = backslash → rest.head? = some 37 ∨ rest.head? = some 95) ∧ Verbatim rest))

theorem quote_ne_backslash : quote ≠ backslash := by decide

theorem verbatim_of_free (v : Bytes) (h : ∀ b ∈ v, b ≠ quote ∧ b ≠ backslash) : Verbatim v := by
  induction v with
  | nil => trivial
  | cons b v ih =>
    obtain ⟨⟨hq, hb⟩, hv⟩ := List.forall_mem_cons.1 h
    exact ⟨hq, fun he => absurd he hb, ih hv⟩

theorem escape_length (b : Byte) : 1 ≤ (escape b).length ∧ (escape b).length ≤ 2 := by
  unfold escape
  split_ifs <;> simp

theorem escape_wildcard (c : Byte) (h : c = 37 ∨ c = 95) : escape c = [backslash, c] := by
  rcases h with rfl | rfl <;> rfl

theorem wildcard_of_escape (c : Byte) (h : (escape c).length = 2) : c = 37 ∨ c = 95 := by
  unfold escape at h
  split_ifs at h with _ _ _ _ _ _ h7 <;> simp at h
  exact h7

/-- a piece never denotes more bytes than it has, and one that denotes as many is verbatim -/
theorem Denotes.length_le {t d : Bytes} (h : Denotes t d) :
    d.length ≤ t.length ∧ (d.length = t.length → Verbatim t) := by
  induction h with
  | nil => exact ⟨le_rfl, fun _ => trivial⟩
  | doubled _ ih => simp only [List.length_cons]; exact ⟨by omega, fun he => by omega⟩
  | escaped c _ ih =>
    have hc := escape_length c
    simp only [List.length_append, List.length_cons]
    refine ⟨by omega, fun he => ?_⟩
    have hw := wildcard_of_escape c (by omega)
    refine ⟨quote_ne_backslash.symm, fun _ => by simpa using hw, ?_⟩
    rcases hw with rfl | rfl
    · exact ⟨by decide, fun h => absurd h (by decide), ih.2 (by omega)⟩
    · exact ⟨by decide, fun h => absurd h (by decide), ih.2 (by omega)⟩
  | plain b hq hb _ ih =>
    simp only [List.length_cons]
    exact ⟨by omega, fun he => ⟨hq, fun h => absurd h hb, ih.2 (by omega)⟩⟩

theorem denotes_self : (v : Bytes) → Verbatim v → Denotes v v
  | [], _ => .nil
  | [b], h => .plain b h.1 (fun hb => by simpa using h.2.1 hb) .nil
  | b :: c :: rest, h => by
    by_cases hb : b = backslash
    · have hw : c = 37 ∨ c = 95 := by simpa using h.2.1 hb
      have := Denotes.escaped c (denotes_self rest h.2.2.2.2)
      rw [escape_wildcard c hw] at this
      rw [hb]; exact this
    · exact .plain b h.1 hb (denotes_self (c :: rest) h.2.2)

/-- **Values that stand for themselves** are the verbatim ones. -/
theorem denotes_self_iff (v : Bytes) : Denotes v v ↔ Verbatim v :=
  ⟨fun h => h.length_le.2 rfl, denotes_self v⟩

/-! ## Where a literal ends -/

/-- what `literal` answers: a piece of the input, up to a quote that is not doubled -/
theorem literal_sound : (input d rest : Bytes) → literal input = some (d, rest) →
    ∃ t, input = t ++ quote :: rest ∧ Denotes t d ∧ rest.head? ≠ some quote
  | [], d, rest, h => by simp [literal] at h
  | [b], d, rest, h => by
    simp only [literal] at h
    split_ifs at h with hb
    cases h
    exact ⟨[], by simp [hb], .nil, by simp⟩
  | b :: c :: input, d, rest, h => by
    simp only [literal] at h
    split_ifs at h with hq hc hb
    · obtain ⟨⟨d', r'⟩, hl, he⟩ := Option.map_eq_some_iff.1 h
      cases he
      obtain ⟨t, rfl, ht, hr⟩ := literal_sound input d' r' hl
      exact ⟨quote :: quote :: t, by simp [hq, hc], .doubled ht, hr⟩
    · cases h
      exact ⟨[], by simp [hq], .nil, by simpa using hc⟩
    · obtain ⟨⟨d', r'⟩, hl, he⟩ := Option.map_eq_some_iff.1 h
      cases he
      obtain ⟨t, rfl, ht, hr⟩ := literal_sound input d' r' hl
      exact ⟨backslash :: c :: t, by simp [hb], .escaped c ht, hr⟩
    · obtain ⟨⟨d', r'⟩, hl, he⟩ := Option.map_eq_some_iff.1 h
      cases he
      obtain ⟨t, hin, ht, hr⟩ := literal_sound (c :: input) d' r' hl
      exact ⟨b :: t, by simp [hin], .plain b hq hb ht, hr⟩

theorem literal_complete {t d : Bytes} (h : Denotes t d) (rest : Bytes) (hr : rest.head? ≠ some quote) :
    literal (t ++ quote :: rest) = some (d, rest) := by
  induction h with
  | nil =>
    cases rest with
    | nil => simp [literal]
    | cons c rest =>
      have hc : c ≠ quote := by simpa using hr
      simp [literal, hc]
  | doubled _ ih => simp [literal, ih]
  | escaped c _ ih => simp [literal, ih, quote_ne_backslash.symm]
  | @plain b t d hq hb _ ih =>
    cases t with
    | nil =>
      rw [List.nil_append] at ih
      simp only [List.cons_append, List.nil_append, literal, if_neg hq, if_neg hb, ih]
      rfl
    | cons c t =>
      rw [List.cons_append] at ih
      simp only [List.cons_append, literal, if_neg hq, if_neg hb, ih]
      rfl

/-- a quote inside a piece, with something other than a quote behind it, is the second half of a pair -/
theorem quote_inside : (v : Bytes) → (c : Byte) → (w d : Bytes) → c ≠ quote → Denotes (v ++ quote :: c :: w) d →
    ∃ m h dm dw, v = m ++ [h] ∧ (h = quote ∨ h = backslash) ∧ Denotes m dm ∧ Denotes (c :: w) dw ∧ d = dm ++ quote :: dw
  | [], c, w, d, hc, hd => by
    cases hd with
    | doubled _ => exact absurd rfl hc
    | plain _ hq _ _ => exact absurd rfl hq
  | [b], c, w, d, hc, hd => by
    cases hd with
    | doubled h => exact ⟨[], quote, [], _, rfl, Or.inl rfl, .nil, h, rfl⟩
    | escaped _ h => exact ⟨[], backslash, [], _, rfl, Or.inr rfl, .nil, h, rfl⟩
    | plain _ hq hb h =>
      cases h with
      | doubled _ => exact absurd rfl hc
      | plain _ hq' _ _ => exact absurd rfl hq'
  | b :: b' :: v, c, w, d, hc, hd => by
    cases hd with
    | doubled h =>
      obtain ⟨m, x, dm, dw, rfl, hx, hm, hw, rfl⟩ := quote_inside v c w _ hc h
      exact ⟨quote :: quote :: m, x, quote :: dm, dw, rfl, hx, .doubled hm, hw, rfl⟩
    | escaped _ h =>
      obtain ⟨m, x, dm, dw, rfl, hx, hm, hw, rfl⟩ := quote_inside v c w _ hc h
      exact ⟨backslash :: b' :: m, x, escape b' ++ dm, dw, rfl, hx, .escaped b' hm, hw, by simp⟩
    | plain _ hq hb h =>
      obtain ⟨m, x, dm, dw, hv, hx, hm, hw, rfl⟩ := quote_inside (b' :: v) c w _ hc h
      exact ⟨b :: m, x, b :: dm, dw, by rw [hv]; rfl, hx, .plain b hq hb hm, hw, rfl⟩

/-- behind a closing quote, the text goes on with something that neither doubles the quote nor escapes one -/
def Parts : Bytes → Prop
  | [] => False
  | b :: rest => b ≠ quote ∧ (b = backslash → Parts rest)

instance decParts : (text : Bytes) → Decidable (Parts text)
  | [] => isFalse id
  | b :: rest =>
    have := decParts rest
    inferInstanceAs (Decidable (b ≠ quote ∧ (b = backslash → Parts rest)))

theorem parts_cons (b : Byte) (rest : Bytes) (hq : b ≠ quote) (hb : b ≠ backslash) : Parts (b :: rest) :=
  ⟨hq, fun h => absurd h hb⟩

theorem Parts.append : {text : Bytes} → Parts text → (more : Bytes) → Parts (text ++ more)
  | _ :: _, h, more => ⟨h.1, fun hb => (h.2 hb).append more⟩

/-- what stands before a quote parts, if the whole does -/
theorem parts_before_quote : (text more : Bytes) → Parts (text ++ quote :: more) → Parts text
  | [], _, h => absurd rfl h.1
  | _ :: text, more, h => ⟨h.1, fun hb => parts_before_quote text more (h.2 hb)⟩

/-- the last byte, if it is a quote or a backslash, is not what makes a text part -/
theorem parts_of_concat : (text : Bytes) → (x : Byte) → (x = quote ∨ x = backslash) → Parts (text ++ [x]) → Parts text
  | [], x, hx, h => by
    rcases hx with rfl | rfl
    · exact absurd rfl h.1
    · exact h.2 rfl
  | _ :: text, x, hx, h => ⟨h.1, fun hb => parts_of_concat text x hx (h.2 hb)⟩

theorem parts_escape (c : Byte) (d : Bytes) (hq : c ≠ quote) (hb : c ≠ backslash) : Parts (escape c ++ d) := by
  unfold escape
  split_ifs
  all_goals first
    | exact parts_cons _ d (by decide : _ ≠ quote) (by decide : _ ≠ backslash)
    | exact ⟨quote_ne_backslash.symm, fun _ => parts_cons c d hq hb⟩
    | exact parts_cons c d hq hb

/-- a text that parts denotes one that does -/
theorem Denotes.parts {t d : Bytes} (h : Denotes t d) (hp : Parts t) : Parts d := by
  induction h with
  | nil => exact hp
  | doubled _ _ => exact absurd rfl hp.1
  | @escaped c t d _ ih =>
    have hc : Parts (c :: t) := hp.2 rfl
    by_cases hb : c = backslash
    · subst hb
      exact ⟨quote_ne_backslash.symm, fun _ => ih (hc.2 rfl)⟩
    · exact parts_escape c d hc.1 hb
  | plain b hq hb _ _ => exact parts_cons b _ hq hb

/-- **No overrun.** A piece that goes past a quote and the text behind it, which parts from the quote, does not denote
what stands before that quote: the piece before it would have to be one of the same kind, and shorter. -/
theorem no_overrun (v u : Bytes) (hu : Parts u) : ¬ Denotes (v ++ quote :: u) v := by
  -- induction on the length of v
  induction hn : v.length using Nat.strong_induction_on generalizing v u with
  | _ n ih =>
    intro hd
    obtain ⟨c, w, rfl⟩ : ∃ c w, u = c :: w := by
      cases u with
      | nil => exact hu.elim
      | cons c w => exact ⟨c, w, rfl⟩
    obtain ⟨m, x, dm, dw, hv, hx, hm, hw, hd'⟩ := quote_inside v c w v hu.1 hd
    have hdw : Parts dw := hw.parts hu
    obtain ⟨dw', y, rfl⟩ : ∃ dw' y, dw = dw' ++ [y] := by
      rcases List.eq_nil_or_concat dw with rfl | h
      · exact hdw.elim
      · simpa using h
    -- v without its last byte begins with what m denotes, and goes on with the quote
    have heq : m ++ [x] = (dm ++ quote :: dw') ++ [y] := by rw [← hv, hd']; simp
    obtain ⟨hm', hxy⟩ := List.append_inj' heq rfl
    obtain rfl : x = y := by simpa using hxy
    have hlt : dm.length < n := by
      have h1 := congrArg List.length hv
      have h2 := congrArg List.length hm'
      simp only [List.length_append, List.length_cons, List.length_nil] at h1 h2
      omega
    exact ih dm.length hlt dm dw' (parts_of_concat dw' x hx hdw) rfl (hm' ▸ hm)

theorem literal_verbatim (v rest : Bytes) (hv : Verbatim v) (hr : rest.head? ≠ some quote) :
    literal (v ++ quote :: rest) = some (v, rest) :=
  literal_complete (denotes_self v hv) rest hr

/-- **'v' denotes v only for verbatim v**, whatever follows the closing quote and parts from it -/
theorem verbatim_of_literal (v rest r : Bytes) (hp : Parts rest) (h : literal (v ++ quote :: rest) = some (v, r)) :
    Verbatim v := by
  obtain ⟨t, heq, ht, -⟩ := literal_sound _ _ _ h
  rcases List.append_eq_append_iff.1 heq with ⟨x, rfl, hx⟩ | ⟨x, rfl, hx⟩
  · -- the literal ends at its closing quote or behind it
    cases x with
    | nil => rw [List.append_nil] at ht; exact (denotes_self_iff v).1 ht
    | cons y x =>
      rw [List.cons_append, List.cons.injEq] at hx
      obtain ⟨rfl, rfl⟩ := hx
      exact absurd ht (no_overrun v x (parts_before_quote x r hp))
  · -- the literal ends inside v: then it denotes too little
    have := ht.length_le.1
    cases x with
    | nil => rw [List.append_nil] at this ht ⊢; exact (denotes_self_iff t).1 ht
    | cons y x => simp at this

/-- bytes without quotes and backslashes are read as they are -/
theorem literal_free (v input : Bytes) (h : ∀ b ∈ v, b ≠ quote ∧ b ≠ backslash) :
    literal (v ++ input) = (literal input).map fun p => (v ++ p.1, p.2) := by
  induction v with
  | nil => simp
  | cons b v ih =>
    obtain ⟨⟨hq, hb⟩, hv⟩ := List.forall_mem_cons.1 h
    have hrest := ih hv
    rw [List.cons_append]
    cases hvi : v ++ input with
    | nil =>
      obtain ⟨rfl, rfl⟩ := List.append_eq_nil_iff.1 hvi
      simp [literal, hq]
    | cons c rest =>
      rw [hvi] at hrest
      rw [literal, if_neg hq, if_neg hb, hrest, Option.map_map]
      rfl

/-! ## The lexer -/

inductive Token where
  | word (text : Bytes)
  | symbol (b : Byte)
  /-- a string literal, with the text it denotes -/
  | string (text : Bytes)
  | ident (text : Bytes)
deriving DecidableEq, Repr

/-- where the lexer is; the text read so far of what it is in -/
inductive Mode where
  | plain (word : Bytes)
  /-- inside a literal opened by `q` -/
  | quoted (q : Byte) (text : Bytes)
  /-- inside a literal, right behind a `q`: its end, or the first half of a doubled quote -/
  | quotedEnd (q : Byte) (text : Bytes)
  | quotedEscape (q : Byte) (text : Bytes)
  | ident (text : Bytes)
  | oneDash
  | twoDashes
  | oneSlash
  | lineComment
  | blockComment
  | blockStar
deriving DecidableEq, Repr

structure St where
  toks : List Token
  mode : Mode
deriving DecidableEq, Repr

/-- the tokens with the pending word, if there is one -/
def flush (toks : List Token) (word : Bytes) : List Token := if word = [] then toks else toks ++ [.word word]

/-- one byte outside literals and comments -/
def plainStep (toks : List Token) (word : Bytes) (b : Byte) : St :=
  if b = quote ∨ b = doubleQuote then ⟨flush toks word, .quoted b []⟩
  else if b = backtick then ⟨flush toks word, .ident []⟩
  else if b = hash then ⟨flush toks word, .lineComment⟩
  else if b = dash then ⟨flush toks word, .oneDash⟩
  else if b = slash then ⟨flush toks word, .oneSlash⟩
  else if isSpace b then ⟨flush toks word, .plain []⟩
  else if isWord b then ⟨toks, .plain (word ++ [b])⟩
  else ⟨flush toks word ++ [.symbol b], .plain []⟩

def step (st : St) (b : Byte) : St :=
  match st.mode with
  | .plain word => plainStep st.toks word b
  | .quoted q text =>
    if b = q then ⟨st.toks, .quotedEnd q text⟩
    else if b = backslash then ⟨st.toks, .quotedEscape q text⟩
    else ⟨st.toks, .quoted q (text ++ [b])⟩
  | .quotedEnd q text =>
    if b = q then ⟨st.toks, .quoted q (text ++ [q])⟩ else plainStep (st.toks ++ [.string text]) [] b
  | .quotedEscape q text => ⟨st.toks, .quoted q (text ++ escape b)⟩
  | .ident text => if b = backtick then ⟨st.toks ++ [.ident text], .plain []⟩ else ⟨st.toks, .ident (text ++ [b])⟩
  | .oneDash => if b = dash then ⟨st.toks, .twoDashes⟩ else plainStep (st.toks ++ [.symbol dash]) [] b
  | .twoDashes =>
    if isSpace b then ⟨st.toks, .lineComment⟩ else plainStep (st.toks ++ [.symbol dash, .symbol dash]) [] b
  | .oneSlash => if b = star then ⟨st.toks, .blockComment⟩ else plainStep (st.toks ++ [.symbol slash]) [] b
  | .lineComment => if b = newline then ⟨st.toks, .plain []⟩ else st
  | .blockComment => if b = star then ⟨st.toks, .blockStar⟩ else st
  | .blockStar =>
    if b = slash then ⟨st.toks, .plain []⟩ else if b = star then st else ⟨st.toks, .blockComment⟩

/-- the end of the text; `none` inside an unfinished literal, identifier or comment -/
def finish (st : St) : Option (List Token) :=
  match st.mode with
  | .plain word => some (flush st.toks word)
  | .quotedEnd _ text => some (st.toks ++ [.string text])
  | .oneDash => some (st.toks ++ [.symbol dash])
  | .twoDashes => some (st.toks ++ [.symbol dash, .symbol dash])
  | .oneSlash => some (st.toks ++ [.symbol slash])
  | .lineComment => some st.toks
  | _ => none

def tokenize (text : Bytes) : Option (List Token) := finish (text.foldl step ⟨[], .plain []⟩)

/-- the texts of the string literals, in order -/
def literals (toks : List Token) : List Bytes :=
  toks.filterMap fun
    | .string text => some text
    | _ => none

/-- the token with the content of a string literal blanked -/
def Token.shape : Token → Token
  | .string _ => .string []
  | t => t

theorem flush_extends (toks : List Token) (word : Bytes) : toks <+: flush toks word := by
  unfold flush
  split_ifs
  · exact List.prefix_refl _
  · exact List.prefix_append _ _

theorem plainStep_extends (toks : List Token) (word : Bytes) (b : Byte) : toks <+: (plainStep toks word b).toks := by
  unfold plainStep
  split_ifs
  all_goals first
    | exact flush_extends _ _
    | exact List.prefix_refl _
    | exact (flush_extends _ _).trans (List.prefix_append _ _)

/-- tokens once read stay -/
theorem step_extends (st : St) (b : Byte) : st.toks <+: (step st b).toks := by
  unfold step
  split <;> (try split_ifs)
  all_goals first
    | exact List.prefix_refl _
    | exact List.prefix_append _ _
    | exact plainStep_extends _ _ _
    | exact (List.prefix_append _ _).trans (plainStep_extends _ _ _)

theorem foldl_extends (st : St) (text : Bytes) : st.toks <+: (text.foldl step st).toks := by
  induction text generalizing st with
  | nil => exact List.prefix_refl _
  | cons b text ih => exact (step_extends st b).trans (ih _)

theorem finish_extends (st : St) (toks : List Token) (h : finish st = some toks) : st.toks <+: toks := by
  unfold finish at h
  split at h
  all_goals first
    | (cases h; exact flush_extends _ _)
    | (cases h; exact List.prefix_append _ _)
    | (cases h; exact List.prefix_refl _)
    | cases h

/-- the lexer inside a single-quoted literal: it reads the literal, then goes on behind it -/
theorem finish_quoted : (input : Bytes) → (toks : List Token) → (text : Bytes) →
    finish (input.foldl step ⟨toks, .quoted quote text⟩) =
      (literal input).bind fun p => finish (p.2.foldl step ⟨toks ++ [.string (text ++ p.1)], .plain []⟩)
  | [], toks, text => rfl
  | [b], toks, text => by
    by_cases hq : b = quote
    · simp [literal, step, hq, finish, flush]
    · by_cases hb : b = backslash
      · simp [literal, step, finish, hb, quote_ne_backslash.symm]
      · simp [literal, step, finish, hq, hb]
  | b :: c :: input, toks, text => by
    by_cases hq : b = quote
    · by_cases hc : c = quote
      · -- a doubled quote
        have ih := finish_quoted input toks (text ++ [quote])
        simp only [List.foldl_cons, step, hq, hc, if_true, literal, ih]
        cases literal input <;> simp
      · simp [literal, step, hq, hc]
    · by_cases hb : b = backslash
      · have ih := finish_quoted input toks (text ++ escape c)
        simp only [List.foldl_cons, step, hb, if_neg quote_ne_backslash.symm, if_true, literal, ih]
        cases literal input <;> simp
      · have ih := finish_quoted (c :: input) toks (text ++ [b])
        rw [List.foldl_cons]
        simp only [step, if_neg hq, if_neg hb, literal, ih]
        cases literal (c :: input) <;> simp

/-! ## Closed text -/

theorem flush_append (toks ts : List Token) (word : Bytes) : flush (toks ++ ts) word = toks ++ flush ts word := by
  unfold flush
  split_ifs <;> simp

theorem literals_append (s t : List Token) : literals (s ++ t) = literals s ++ literals t := by
  simp [literals, List.filterMap_append]

theorem literals_flush (toks : List Token) (word : Bytes) : literals (flush toks word) = literals toks := by
  unfold flush
  split_ifs <;> simp [literals]

/-- the state with tokens read before -/
def St.behind (toks : List Token) (st : St) : St := ⟨toks ++ st.toks, st.mode⟩

theorem plainStep_behind (toks ts : List Token) (word : Bytes) (b : Byte) :
    plainStep (toks ++ ts) word b = (plainStep ts word b).behind toks := by
  unfold plainStep
  split_ifs <;> simp [St.behind, flush_append]

/-- tokens read before do not matter -/
theorem step_behind (toks : List Token) (st : St) (b : Byte) : step (st.behind toks) b = (step st b).behind toks := by
  obtain ⟨ts, mode⟩ := st
  cases mode <;> simp only [step, St.behind, List.append_assoc, plainStep_behind]
  all_goals
    try split_ifs
    all_goals simp

theorem foldl_behind (toks : List Token) (st : St) (text : Bytes) :
    text.foldl step (st.behind toks) = (text.foldl step st).behind toks := by
  induction text generalizing st with
  | nil => rfl
  | cons b text ih => rw [List.foldl_cons, step_behind, ih, List.foldl_cons]

theorem finish_behind (toks : List Token) (st : St) : finish (st.behind toks) = (finish st).map (toks ++ ·) := by
  obtain ⟨ts, mode⟩ := st
  cases mode <;> simp [finish, St.behind, flush_append]

/-- the lexer behind a text, from outside literals -/
def scan (text : Bytes) : St := text.foldl step ⟨[], .plain []⟩

theorem foldl_eq_scan (toks : List Token) (text : Bytes) :
    text.foldl step ⟨toks, .plain []⟩ = (scan text).behind toks := by
  have h := foldl_behind toks ⟨[], .plain []⟩ text
  rwa [St.behind, List.append_nil] at h

/-- the tokens of a text in front of a literal -/
def pieceTokens (text : Bytes) : List Token := (step (scan text) quote).toks

/-- the text has no literal, and a quote behind it opens one -/
def Opens (text : Bytes) : Prop := (step (scan text) quote).mode = .quoted quote [] ∧ literals (pieceTokens text) = []

instance (text : Bytes) : Decidable (Opens text) := inferInstanceAs (Decidable (_ ∧ _))

/-- the tokens of a text at the end -/
def lastTokens (text : Bytes) : List Token := (tokenize text).getD []

/-- the text is complete, and has no literal -/
def Ends (text : Bytes) : Prop := (tokenize text).map literals = some []

instance (text : Bytes) : Decidable (Ends text) := inferInstanceAs (Decidable (_ = _))

theorem opens_run (text : Bytes) (h : Opens text) (toks : List Token) :
    step (text.foldl step ⟨toks, .plain []⟩) quote = ⟨toks ++ pieceTokens text, .quoted quote []⟩ := by
  rw [foldl_eq_scan, step_behind, St.behind, h.1, pieceTokens]

theorem ends_run (text : Bytes) (h : Ends text) :
    literals (lastTokens text) = [] ∧
      ∀ toks, finish (text.foldl step ⟨toks, .plain []⟩) = some (toks ++ lastTokens text) := by
  obtain ⟨ts, hts, hl⟩ := Option.map_eq_some_iff.1 h
  have hlast : lastTokens text = ts := by rw [lastTokens, hts, Option.getD_some]
  refine ⟨by rw [hlast, hl], fun toks => ?_⟩
  rw [foldl_eq_scan, finish_behind, show finish (scan text) = some ts from hts, hlast, Option.map_some]

/-! ## Inside a literal -/

/-- the text read so far of a literal -/
def Mode.pending : Mode → Option Bytes
  | .quoted _ text => some text
  | .quotedEnd _ text => some text
  | .quotedEscape _ text => some text
  | _ => none

/-- a literal goes on with its text, or is complete -/
theorem step_pending (st : St) (b : Byte) (text : Bytes) (h : st.mode.pending = some text) :
    (∃ more, (step st b).mode.pending = some (text ++ more) ∧ (step st b).mode ≠ .quoted quote []) ∨
      text ∈ literals (step st b).toks := by
  obtain ⟨toks, mode⟩ := st
  cases mode with
  | quoted q t =>
    cases h
    simp only [step]
    split_ifs
    · exact .inl ⟨[], by simp [Mode.pending], by simp⟩
    · exact .inl ⟨[], by simp [Mode.pending], by simp⟩
    · exact .inl ⟨[b], rfl, by simp⟩
  | quotedEnd q t =>
    cases h
    simp only [step]
    split_ifs
    · exact .inl ⟨[q], rfl, by simp⟩
    · obtain ⟨more, hmore⟩ := plainStep_extends (toks ++ [.string text]) [] b
      exact .inr (by rw [← hmore]; simp [literals])
  | quotedEscape q t =>
    cases h
    have hne : escape b ≠ [] := List.ne_nil_of_length_pos (escape_length b).1
    exact .inl ⟨escape b, rfl, by simp [step, hne]⟩
  | _ => cases h

theorem mem_literals_of_extends {s t : List Token} (h : s <+: t) {text : Bytes} (hm : text ∈ literals s) :
    text ∈ literals t := by
  obtain ⟨extra, rfl⟩ := h
  rw [literals_append]
  exact List.mem_append_left _ hm

/-- **Every literal begun is one of the literals read**, with the text it has so far as its beginning. -/
theorem pending_completed (st : St) (text input : Bytes) (ts : List Token) (h : st.mode.pending = some text)
    (hf : finish (input.foldl step st) = some ts) : ∃ t ∈ literals ts, text <+: t := by
  induction input generalizing st text with
  | nil =>
    obtain ⟨toks, mode⟩ := st
    cases mode with
    | quotedEnd q t =>
      cases h
      cases hf
      exact ⟨text, by simp [literals], List.prefix_refl text⟩
    | quoted q t => cases hf
    | quotedEscape q t => cases hf
    | _ => cases h
  | cons b input ih =>
    rw [List.foldl_cons] at hf
    rcases step_pending st b text h with ⟨more, hmore, -⟩ | hmem
    · obtain ⟨t, ht, hpre⟩ := ih (step st b) (text ++ more) hmore hf
      exact ⟨t, ht, (List.prefix_append text more).trans hpre⟩
    · exact ⟨text, mem_literals_of_extends ((foldl_extends _ _).trans (finish_extends _ _ hf)) hmem,
        List.prefix_refl text⟩

/-- inside a literal, no quote opens one before the literal is complete -/
theorem not_opens_inside (st : St) (text input : Bytes) (h : st.mode.pending = some text) :
    (step (input.foldl step st) quote).mode ≠ .quoted quote [] ∨
      literals (step (input.foldl step st) quote).toks ≠ [] := by
  induction input generalizing st text with
  | nil =>
    rcases step_pending st quote text h with ⟨more, -, hmode⟩ | hmem
    · exact .inl hmode
    · exact .inr (List.ne_nil_of_mem hmem)
  | cons b input ih =>
    rw [List.foldl_cons]
    rcases step_pending st b text h with ⟨more, hmore, -⟩ | hmem
    · exact ih (step st b) (text ++ more) hmore
    · exact .inr (List.ne_nil_of_mem
        (mem_literals_of_extends ((foldl_extends _ _).trans (step_extends _ _)) hmem))

/-- a closed text does not begin with a quote -/
theorem not_closed_quote (text : Bytes) : ¬ Opens (quote :: text) ∧ ¬ Ends (quote :: text) := by
  have hstart : scan (quote :: text) = text.foldl step ⟨[], .quoted quote []⟩ := rfl
  refine ⟨?_, ?_⟩
  · rintro ⟨hmode, hl⟩
    rcases not_opens_inside ⟨[], .quoted quote []⟩ [] text rfl with hne | hne
    · exact hne (hstart ▸ hmode)
    · exact hne (hstart ▸ hl)
  · intro h
    obtain ⟨ts, hts, hl⟩ := Option.map_eq_some_iff.1 h
    obtain ⟨t, ht, -⟩ := pending_completed ⟨[], .quoted quote []⟩ [] text ts rfl hts
    rw [hl] at ht
    cases ht

/-- nor does the text behind backslashes at its start -/
theorem closed_of_backslash (text : Bytes) (h : Opens (backslash :: text) ∨ Ends (backslash :: text)) :
    Opens text ∨ Ends text := by
  have hscan : scan (backslash :: text) = (scan text).behind [.symbol backslash] :=
    foldl_eq_scan [.symbol backslash] text
  rcases h with ⟨hmode, hl⟩ | h
  · rw [pieceTokens, hscan, step_behind] at hl
    rw [hscan, step_behind] at hmode
    exact .inl ⟨hmode, hl⟩
  · rw [Ends, tokenize, ← scan, hscan, finish_behind, Option.map_map] at h
    exact .inr h

/-- **Closed text parts from a quote before it**, if it has anything but quotes and backslashes. -/
theorem parts_of_closed (text : Bytes) (hc : Opens text ∨ Ends text) (hb : ∃ b ∈ text, b ≠ quote ∧ b ≠ backslash) :
    Parts text := by
  induction text with
  | nil =>
    obtain ⟨b, hb, -⟩ := hb
    cases hb
  | cons b text ih =>
    have hq : b ≠ quote := by
      rintro rfl
      exact hc.elim (not_closed_quote text).1 (not_closed_quote text).2
    refine ⟨hq, ?_⟩
    rintro rfl
    obtain ⟨b, hmem, hbq, hbb⟩ := hb
    refine ih (closed_of_backslash text hc) ⟨b, ?_, hbq, hbb⟩
    rcases List.mem_cons.1 hmem with h | h
    · exact absurd h hbb
    · exact h

/-! ## What the literals weigh -/

/-- the bytes of the literals among the tokens -/
def bytesOf (toks : List Token) : ℕ := ((literals toks).map List.length).sum

theorem bytesOf_append (s t : List Token) : bytesOf (s ++ t) = bytesOf s + bytesOf t := by
  simp [bytesOf, literals_append]

theorem bytesOf_flush (toks : List Token) (word : Bytes) : bytesOf (flush toks word) = bytesOf toks := by
  rw [bytesOf, literals_flush, bytesOf]

@[simp] theorem bytesOf_symbol (b : Byte) : bytesOf [.symbol b] = 0 := rfl

@[simp] theorem bytesOf_ident (text : Bytes) : bytesOf [.ident text] = 0 := rfl

@[simp] theorem bytesOf_dashes : bytesOf [.symbol dash, .symbol dash] = 0 := rfl

@[simp] theorem bytesOf_string (text : Bytes) : bytesOf [.string text] = text.length := rfl

theorem length_le_bytesOf (toks : List Token) (text : Bytes) (h : text ∈ literals toks) : text.length ≤ bytesOf toks :=
  List.single_le_sum (by simp) _ (List.mem_map_of_mem h)

/-- the bytes of the literal that is being read; of an escape, its backslash counts for what it stands for -/
def Mode.weight : Mode → ℕ
  | .quoted _ text => text.length
  | .quotedEnd _ text => text.length
  | .quotedEscape _ text => text.length + 1
  | _ => 0

/-- the bytes of all literals, complete or not -/
def St.weight (st : St) : ℕ := bytesOf st.toks + st.mode.weight

theorem weight_mk (toks : List Token) (mode : Mode) : St.weight ⟨toks, mode⟩ = bytesOf toks + mode.weight := rfl

theorem plainStep_weight (toks : List Token) (word : Bytes) (b : Byte) : (plainStep toks word b).weight = bytesOf toks := by
  unfold plainStep
  split_ifs <;> simp [weight_mk, Mode.weight, bytesOf_flush, bytesOf_append]

/-- a byte adds at most one -/
theorem step_weight (st : St) (b : Byte) : (step st b).weight ≤ st.weight + 1 := by
  obtain ⟨toks, mode⟩ := st
  have hescape := (escape_length b).2
  cases mode <;> simp only [step]
  all_goals
    try split_ifs
    all_goals
      simp only [weight_mk, Mode.weight, bytesOf_append, plainStep_weight, bytesOf_symbol, bytesOf_ident, bytesOf_dashes,
        bytesOf_string, List.length_append, List.length_singleton]
      omega

theorem foldl_weight (st : St) (text : Bytes) : (text.foldl step st).weight ≤ st.weight + text.length := by
  induction text generalizing st with
  | nil => exact le_rfl
  | cons b text ih =>
    calc (text.foldl step (step st b)).weight
      _ ≤ (step st b).weight + text.length := ih (step st b)
      _ ≤ st.weight + 1 + text.length := Nat.add_le_add_right (step_weight st b) _
      _ = st.weight + (b :: text).length := by rw [List.length_cons]; omega

theorem finish_weight (st : St) (ts : List Token) (h : finish st = some ts) : bytesOf ts ≤ st.weight := by
  obtain ⟨toks, mode⟩ := st
  cases mode <;> cases h <;> simp [weight_mk, Mode.weight, bytesOf_flush, bytesOf_append]

/-! ## Text that must be closed -/

/-- a word of n letters -/
def letters (n : ℕ) : Bytes := List.replicate n 97

theorem letters_free (n : ℕ) : ∀ b ∈ letters n, b ≠ quote ∧ b ≠ backslash := by
  intro b hb
  rw [List.eq_of_mem_replicate hb]
  decide

/-- inside an identifier or a comment, which no quote and no letter ends -/
def Mode.Quiet : Mode → Prop
  | .ident _ => True
  | .lineComment => True
  | .blockComment => True
  | _ => False

theorem Mode.Quiet.weight_eq {mode : Mode} (h : mode.Quiet) : mode.weight = 0 := by
  cases mode <;> first | rfl | exact h.elim

theorem step_quiet (st : St) (b : Byte) (h : st.mode.Quiet) (hb : b = quote ∨ b = 97) :
    (step st b).toks = st.toks ∧ (step st b).mode.Quiet := by
  obtain ⟨toks, mode⟩ := st
  cases mode with
  | ident t => rcases hb with rfl | rfl <;> exact ⟨rfl, trivial⟩
  | lineComment => rcases hb with rfl | rfl <;> exact ⟨rfl, trivial⟩
  | blockComment => rcases hb with rfl | rfl <;> exact ⟨rfl, trivial⟩
  | _ => exact h.elim

theorem letters_quiet (n : ℕ) (st : St) (h : st.mode.Quiet) :
    ((letters n).foldl step st).toks = st.toks ∧ ((letters n).foldl step st).mode.Quiet := by
  induction n generalizing st with
  | zero => exact ⟨rfl, h⟩
  | succ n ih =>
    obtain ⟨htoks, hquiet⟩ := step_quiet st 97 h (.inr rfl)
    have hrest := ih (step st 97) hquiet
    rw [htoks] at hrest
    exact hrest

/-- a quote that opens no literal: it gets into one, closes one, or means nothing -/
theorem quote_elsewhere (st : St) (h : (step st quote).mode ≠ .quoted quote []) :
    (∃ text, (step st quote).mode.pending = some text ∧ quote ∈ text) ∨
      (∃ text, st.mode = .quoted quote text ∧ step st quote = ⟨st.toks, .quotedEnd quote text⟩) ∨
      ((step st quote).toks = st.toks ∧ (step st quote).mode.Quiet) := by
  obtain ⟨toks, mode⟩ := st
  cases mode with
  | quoted q text =>
    by_cases hq : quote = q
    · subst hq
      exact .inr (.inl ⟨text, rfl, by simp [step]⟩)
    · exact .inl ⟨text ++ [quote], by simp [step, hq, quote_ne_backslash, Mode.pending], by simp⟩
  | quotedEnd q text =>
    by_cases hq : quote = q
    · subst hq
      exact .inl ⟨text ++ [quote], by simp [step, Mode.pending], by simp⟩
    · exact absurd (by simp [step, hq, plainStep]) h
  | quotedEscape q text => exact .inl ⟨text ++ escape quote, rfl, List.mem_append_right _ (by decide)⟩
  | ident text => exact .inr (.inr ⟨rfl, trivial⟩)
  | lineComment => exact .inr (.inr ⟨rfl, trivial⟩)
  | blockComment => exact .inr (.inr ⟨rfl, trivial⟩)
  | blockStar => exact .inr (.inr ⟨rfl, trivial⟩)
  | plain word => exact absurd rfl h
  | oneDash => exact absurd rfl h
  | twoDashes => exact absurd rfl h
  | oneSlash => exact absurd rfl h

section Words

variable (piece rest : Bytes) (size n : ℕ) (ts : List Token)
  (hf : finish ((piece ++ quote :: (letters size ++ quote :: rest)).foldl step ⟨[], .plain []⟩) = some ts)
  (hl : literals ts = List.replicate (n + 1) (letters size)) (hpiece : piece.length + 1 < size)

include hl in
/-- a literal read so far has the length of the word -/
theorem length_of_read (toks : List Token) (h : toks <+: ts) (text : Bytes) (hm : text ∈ literals toks) :
    text = letters size ∧ size ≤ bytesOf toks := by
  have htext : text = letters size := List.eq_of_mem_replicate (hl ▸ mem_literals_of_extends h hm)
  refine ⟨htext, ?_⟩
  calc size
    _ = text.length := by rw [htext, letters, List.length_replicate]
    _ ≤ bytesOf toks := length_le_bytesOf toks text hm

include hf hl hpiece in
/-- **The text before the first word opens its literal**, if the words read are as many as the bytes behind allow. -/
theorem opens_of_words (hrest : piece.length + rest.length < (n + 1) * size) : Opens piece := by
  have hsplit : (piece ++ quote :: (letters size ++ quote :: rest)).foldl step ⟨[], .plain []⟩ =
      rest.foldl step (step ((letters size).foldl step (step (scan piece) quote)) quote) := by
    rw [List.foldl_append, List.foldl_cons, List.foldl_append, List.foldl_cons]
    rfl
  rw [hsplit] at hf
  have hextends : (step ((letters size).foldl step (step (scan piece) quote)) quote).toks <+: ts :=
    (foldl_extends _ _).trans (finish_extends _ _ hf)
  have hquote : (step (scan piece) quote).toks <+: ts :=
    (foldl_extends _ _).trans ((step_extends _ _).trans hextends)
  have hweight : (scan piece).weight ≤ piece.length := by
    have h := foldl_weight ⟨[], .plain []⟩ piece
    rwa [show St.weight ⟨[], .plain []⟩ = 0 from rfl, Nat.zero_add] at h
  by_cases hmode : (step (scan piece) quote).mode = .quoted quote []
  · refine ⟨hmode, List.eq_nil_iff_forall_not_mem.2 fun text hm => ?_⟩
    have hlong := (length_of_read size n ts hl _ hquote text hm).2
    have hstep := step_weight (scan piece) quote
    have hshort : bytesOf (step (scan piece) quote).toks ≤ (step (scan piece) quote).weight := Nat.le_add_right _ _
    omega
  · exfalso
    rcases quote_elsewhere (scan piece) hmode with ⟨text, hpending, hmem⟩ | ⟨text, hin, hend⟩ | ⟨htoks, hquiet⟩
    · -- the quote got into a literal, which is then no word
      obtain ⟨t, ht, hpre⟩ := pending_completed _ text (letters size ++ quote :: rest) ts hpending
        (by rw [List.foldl_append, List.foldl_cons]; exact hf)
      have hword : t = letters size := List.eq_of_mem_replicate (hl ▸ ht)
      exact (letters_free size quote (hword ▸ hpre.subset hmem)).1 rfl
    · -- the quote ended a literal shorter than the word
      have hsize : size = (size - 1) + 1 := by omega
      have hword : letters size = 97 :: letters (size - 1) := by rw [hsize]; rfl
      have hread : text ∈ literals (step ⟨(scan piece).toks, .quotedEnd quote text⟩ 97).toks := by
        rcases step_pending ⟨(scan piece).toks, .quotedEnd quote text⟩ 97 text rfl with ⟨more, hmore, -⟩ | hmem
        · cases hmore
        · exact hmem
      have htoks : (step ⟨(scan piece).toks, .quotedEnd quote text⟩ 97).toks <+: ts := by
        rw [hword, List.foldl_cons, hend] at hextends
        exact (foldl_extends _ _).trans ((step_extends _ _).trans hextends)
      have htext := (length_of_read size n ts hl _ htoks text hread).1
      have hlen : text.length ≤ (scan piece).weight := by
        rw [St.weight, hin]
        exact Nat.le_add_left _ _
      rw [htext, letters, List.length_replicate] at hlen
      omega
    · -- the word is in an identifier or a comment, and the bytes left are too few
      obtain ⟨htoks₁, hquiet₁⟩ := letters_quiet size _ hquiet
      obtain ⟨htoks₂, hquiet₂⟩ := step_quiet _ quote hquiet₁ (.inl rfl)
      have hread : bytesOf ts = (n + 1) * size := by simp [bytesOf, hl, letters]
      have hbytes :=
        calc bytesOf ts
          _ ≤ (step ((letters size).foldl step (step (scan piece) quote)) quote).weight + rest.length :=
            (finish_weight _ ts hf).trans (foldl_weight _ rest)
          _ = bytesOf (scan piece).toks + rest.length := by
            rw [St.weight, hquiet₂.weight_eq, htoks₂, htoks₁, htoks, Nat.add_zero]
          _ ≤ piece.length + rest.length := Nat.add_le_add_right ((Nat.le_add_right _ _).trans hweight) _
      omega

end Words

end OwliesServer.SqlLexer
