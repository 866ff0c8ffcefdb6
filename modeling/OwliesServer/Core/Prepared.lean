/-
Statements with parameters, and the text that results from splicing quoted values into them.

`Prepared ι` is a statement whose parameters are named by ι: pieces of fixed text with a parameter between two of them.
It says what a database would execute if the values were handed over apart from the text. `text` writes the values into
the statement instead, each between two quotes, with no escaping.
- `Prepared.lit`, `append`, `cut`, `param`: building a statement the way a program assembles its text, and what each of
  them does to the text (`text_append`, `text_cut`, `text_param`);
- `Closed`: the lexer reads every piece of fixed text as closed. `structure_kept_iff`: for a closed statement and two
  assignments of values, the two texts lex to the same tokens up to the contents of the literals, with every literal
  denoting its value, exactly when all the values are verbatim.
- `closed_of_words`: no other statement keeps its structure, not even for words as values.
-/
import OwliesServer.Core.SqlLexer

namespace OwliesServer.SqlLexer

open OwliesServer.CChar

/-! ## Text with spliced literals -/

/-- for each hole a piece of text and a quoted value; then the last piece -/
def splice (last : Bytes) : List (Bytes × Bytes) → Bytes
  | [] => last
  | hole :: holes => hole.1 ++ quote :: (hole.2 ++ quote :: splice last holes)

/-- the tokens such a text is meant to have -/
def spliceTokens (last : Bytes) : List (Bytes × Bytes) → List Token
  | [] => lastTokens last
  | hole :: holes => pieceTokens hole.1 ++ .string hole.2 :: spliceTokens last holes

theorem splice_append (last more : Bytes) (holes : List (Bytes × Bytes)) :
    splice last holes ++ more = splice (last ++ more) holes := by
  induction holes with
  | nil => rfl
  | cons hole holes ih => simp [splice, ih]

theorem splice_concat (last piece value : Bytes) (holes : List (Bytes × Bytes)) :
    splice last (holes ++ [(piece, value)]) = splice piece holes ++ quote :: (value ++ quote :: last) := by
  induction holes with
  | nil => rfl
  | cons hole holes ih => simp [splice, ih]

theorem parts_splice (last : Bytes) (holes : List (Bytes × Bytes)) (hl : Parts last) (h : ∀ x ∈ holes, Parts x.1) :
    Parts (splice last holes) := by
  cases holes with
  | nil => exact hl
  | cons hole holes => exact (h hole List.mem_cons_self).append _

theorem head_of_parts {text : Bytes} (h : Parts text) : text.head? ≠ some quote := by
  cases text with
  | nil => exact h.elim
  | cons b text => simpa using h.1

/-- the lexer on a text with at least one hole -/
theorem finish_splice_cons (toks : List Token) (last : Bytes) (hole : Bytes × Bytes) (holes : List (Bytes × Bytes))
    (h : Opens hole.1) :
    finish ((splice last (hole :: holes)).foldl step ⟨toks, .plain []⟩) =
      (literal (hole.2 ++ quote :: splice last holes)).bind fun p =>
        finish (p.2.foldl step ⟨toks ++ pieceTokens hole.1 ++ [.string p.1], .plain []⟩) := by
  rw [splice, List.foldl_append, List.foldl_cons, opens_run hole.1 h toks, finish_quoted]
  simp

/-- the literal read behind a piece is the next one in the list of all literals -/
theorem literal_read (toks ts : List Token) (piece value d r : Bytes) (h : Opens piece)
    (hf : finish (r.foldl step ⟨toks ++ pieceTokens piece ++ [.string d], .plain []⟩) = some ts)
    (hlit : literals toks ++ [value] <+: literals ts) : d = value := by
  obtain ⟨extra, hextra⟩ := (foldl_extends _ _).trans (finish_extends _ _ hf)
  rw [← hextra, literals_append, literals_append, literals_append, h.2, List.append_nil, List.append_assoc,
    List.prefix_append_right_inj] at hlit
  exact (List.cons_prefix_cons.1 hlit).1.symm

theorem finish_splice (toks : List Token) (last : Bytes) (holes : List (Bytes × Bytes)) (hl : Ends last ∧ Parts last)
    (h : ∀ x ∈ holes, Opens x.1 ∧ Parts x.1) (hv : ∀ x ∈ holes, Verbatim x.2) :
    finish ((splice last holes).foldl step ⟨toks, .plain []⟩) = some (toks ++ spliceTokens last holes) := by
  induction holes generalizing toks with
  | nil => exact (ends_run last hl.1).2 toks
  | cons hole holes ih =>
    obtain ⟨hp, h'⟩ := List.forall_mem_cons.1 h
    obtain ⟨hvh, hv'⟩ := List.forall_mem_cons.1 hv
    have hparts := parts_splice last holes hl.2 fun x hx => (h' x hx).2
    rw [finish_splice_cons toks last hole holes hp.1, literal_verbatim hole.2 _ hvh (head_of_parts hparts),
      Option.bind_some, ih _ h' hv', spliceTokens]
    simp

theorem literals_spliceTokens (last : Bytes) (holes : List (Bytes × Bytes)) (hl : Ends last)
    (h : ∀ x ∈ holes, Opens x.1) : literals (spliceTokens last holes) = holes.map Prod.snd := by
  induction holes with
  | nil => exact (ends_run last hl).1
  | cons hole holes ih =>
    obtain ⟨hp, h'⟩ := List.forall_mem_cons.1 h
    have hrest := ih h'
    rw [spliceTokens, literals_append, hp.2]
    simp only [literals, List.filterMap_cons, List.nil_append, List.map_cons] at hrest ⊢
    rw [hrest]

/-- if the literals read are the values of the holes, these values are verbatim -/
theorem finish_literals (toks ts : List Token) (last : Bytes) (holes : List (Bytes × Bytes)) (hl : Parts last)
    (h : ∀ x ∈ holes, Opens x.1 ∧ Parts x.1)
    (hf : finish ((splice last holes).foldl step ⟨toks, .plain []⟩) = some ts)
    (hlit : literals toks ++ holes.map Prod.snd <+: literals ts) : ∀ x ∈ holes, Verbatim x.2 := by
  induction holes generalizing toks with
  | nil => simp
  | cons hole holes ih =>
    obtain ⟨hp, h'⟩ := List.forall_mem_cons.1 h
    have hparts := parts_splice last holes hl fun x hx => (h' x hx).2
    rw [finish_splice_cons toks last hole holes hp.1] at hf
    obtain ⟨⟨d, r⟩, hd, hf'⟩ := Option.bind_eq_some_iff.1 hf
    have hfirst : literals toks ++ [hole.2] <+: literals ts := by
      refine List.IsPrefix.trans ?_ hlit
      rw [List.map_cons, List.prefix_append_right_inj]
      exact List.cons_prefix_cons.2 ⟨rfl, List.nil_prefix⟩
    obtain rfl : d = hole.2 := literal_read toks ts hole.1 hole.2 d r hp.1 hf' hfirst
    have hv : Verbatim hole.2 := verbatim_of_literal _ _ r hparts hd
    have hr : r = splice last holes := by
      rw [literal_verbatim _ _ hv (head_of_parts hparts)] at hd
      cases hd
      rfl
    refine List.forall_mem_cons.2 ⟨hv, ih _ h' (hr ▸ hf') ?_⟩
    rw [literals_append, literals_append, hp.1.2, List.append_nil, List.append_assoc]
    exact hlit

/-! ## Words as values -/

/-- the length of the fixed text, with the quotes -/
def fixedLength (last : Bytes) (pieces : List Bytes) : ℕ := (pieces.map fun piece => piece.length + 2).sum + last.length

/-- a word in every hole -/
def wordHoles (size : ℕ) (pieces : List Bytes) : List (Bytes × Bytes) := pieces.map fun piece => (piece, letters size)

theorem length_splice_words (last : Bytes) (size : ℕ) (pieces : List Bytes) :
    (splice last (wordHoles size pieces)).length = fixedLength last pieces + pieces.length * size := by
  induction pieces with
  | nil => simp [splice, wordHoles, fixedLength]
  | cons piece pieces ih =>
    have hrest : (splice last (wordHoles size (piece :: pieces))).length =
        piece.length + (size + (splice last (wordHoles size pieces)).length + 1) + 1 := by
      simp [splice, wordHoles, letters]
      omega
    rw [hrest, ih, fixedLength, fixedLength, List.map_cons, List.sum_cons, List.length_cons, Nat.succ_mul]
    omega

/-- a word read as a literal: the text behind it does not double its quote -/
theorem literal_letters (size : ℕ) (rest r : Bytes)
    (h : literal (letters size ++ quote :: rest) = some (letters size, r)) : r = rest := by
  rw [literal_free _ _ (letters_free size)] at h
  obtain ⟨⟨d, r'⟩, hd, he⟩ := Option.map_eq_some_iff.1 h
  obtain ⟨hdnil, rfl⟩ : d = [] ∧ r' = r := by simpa using he
  subst hdnil
  cases rest with
  | nil => simpa [literal] using hd.symm
  | cons c rest =>
    by_cases hc : c = quote
    · simp [literal, hc] at hd
    · simpa [literal, hc] using hd.symm

/-- **Only closed text keeps the structure.** If the text with a long word in every hole is read as one literal for each
of them and no other, every piece is closed. -/
theorem closed_of_splice (last : Bytes) (size : ℕ) (pieces : List Bytes) (toks ts : List Token)
    (hsize : fixedLength last pieces < size)
    (hf : finish ((splice last (wordHoles size pieces)).foldl step ⟨toks, .plain []⟩) = some ts)
    (hlit : literals ts = literals toks ++ List.replicate pieces.length (letters size)) :
    (∀ piece ∈ pieces, Opens piece) ∧ Ends last := by
  induction pieces generalizing toks with
  | nil =>
    refine ⟨by simp, ?_⟩
    rw [wordHoles, List.map_nil, splice, foldl_eq_scan, finish_behind] at hf
    obtain ⟨ts', hts', rfl⟩ := Option.map_eq_some_iff.1 hf
    rw [literals_append, List.append_right_inj, List.length_nil, List.replicate_zero] at hlit
    rw [Ends, show tokenize last = some ts' from hts', Option.map_some, hlit]
  | cons piece pieces ih =>
    have hfixed : fixedLength last (piece :: pieces) = piece.length + 2 + fixedLength last pieces := by
      simp [fixedLength]
      omega
    have hopens : Opens piece := by
      rw [foldl_eq_scan, finish_behind] at hf
      obtain ⟨ts', hts', rfl⟩ := Option.map_eq_some_iff.1 hf
      rw [literals_append, List.append_right_inj] at hlit
      refine opens_of_words piece (splice last (wordHoles size pieces)) size pieces.length ts' hts' hlit (by omega) ?_
      rw [length_splice_words, Nat.succ_mul]
      omega
    rw [wordHoles, List.map_cons, finish_splice_cons toks last _ _ hopens] at hf
    obtain ⟨⟨d, r⟩, hd, hf'⟩ := Option.bind_eq_some_iff.1 hf
    have hfirst : literals toks ++ [letters size] <+: literals ts := by
      rw [hlit, List.length_cons, List.replicate_succ, List.prefix_append_right_inj]
      exact List.cons_prefix_cons.2 ⟨rfl, List.nil_prefix⟩
    obtain rfl : d = letters size := literal_read toks ts piece _ d r hopens hf' hfirst
    obtain rfl := literal_letters size _ r hd
    have hrest := ih (toks ++ pieceTokens piece ++ [.string (letters size)]) (by omega) hf' (by
      rw [hlit, literals_append, literals_append, hopens.2, List.append_nil, List.length_cons, List.replicate_succ,
        List.append_assoc]
      rfl)
    exact ⟨List.forall_mem_cons.2 ⟨hopens, hrest.1⟩, hrest.2⟩

/-! ## Statements with parameters -/

structure Prepared (ι : Type) where
  /-- each parameter with the text between it and the one before -/
  params : List (Bytes × ι)
  last : Bytes
deriving DecidableEq, Repr

namespace Prepared

variable {ι : Type}

def holes (p : Prepared ι) (v : ι → Bytes) : List (Bytes × Bytes) := p.params.map fun x => (x.1, v x.2)

/-- the statement with the values written into it -/
def text (p : Prepared ι) (v : ι → Bytes) : Bytes := splice p.last (p.holes v)

def tokens (p : Prepared ι) (v : ι → Bytes) : List Token := spliceTokens p.last (p.holes v)

/-- the values in the order in which they are spliced -/
def values (p : Prepared ι) (v : ι → Bytes) : List Bytes := p.params.map fun x => v x.2

/-- the lexer reads the text around the parameters as closed -/
def Closed (p : Prepared ι) : Prop := (∀ x ∈ p.params, Opens x.1) ∧ Ends p.last

instance (p : Prepared ι) : Decidable p.Closed := inferInstanceAs (Decidable (_ ∧ _))

/-- text with more than quotes and backslashes in it -/
def Solid (text : Bytes) : Prop := ∃ b ∈ text, b ≠ quote ∧ b ≠ backslash

instance (text : Bytes) : Decidable (Solid text) := inferInstanceAs (Decidable (∃ b ∈ text, _))

theorem Solid.append_left {text : Bytes} (h : Solid text) (more : Bytes) : Solid (text ++ more) := by
  obtain ⟨b, hb, hne⟩ := h
  exact ⟨b, List.mem_append_left _ hb, hne⟩

theorem Solid.append_right {text : Bytes} (h : Solid text) (before : Bytes) : Solid (before ++ text) := by
  obtain ⟨b, hb, hne⟩ := h
  exact ⟨b, List.mem_append_right _ hb, hne⟩

/-- there is such text between any two parameters, and behind the last -/
structure Parted (p : Prepared ι) : Prop where
  pieces : ∀ x ∈ p.params, Solid x.1
  last : Solid p.last

def lit (text : Bytes) : Prepared ι := ⟨[], text⟩

def append (p : Prepared ι) (more : Bytes) : Prepared ι := { p with last := p.last ++ more }

/-- without the last n bytes -/
def cut (p : Prepared ι) (n : ℕ) : Prepared ι := { p with last := p.last.take (p.last.length - n) }

def param (p : Prepared ι) (i : ι) : Prepared ι := ⟨p.params ++ [(p.last, i)], []⟩

@[simp] theorem text_lit (text : Bytes) (v : ι → Bytes) : (lit text).text v = text := rfl

@[simp] theorem text_append (p : Prepared ι) (more : Bytes) (v : ι → Bytes) :
    (p.append more).text v = p.text v ++ more := (splice_append _ _ _).symm

@[simp] theorem text_param (p : Prepared ι) (i : ι) (v : ι → Bytes) :
    (p.param i).text v = p.text v ++ quote :: (v i ++ [quote]) := by
  simp [text, holes, param, splice_concat]

theorem text_cut (p : Prepared ι) (n : ℕ) (v : ι → Bytes) (h : n ≤ p.last.length) :
    (p.cut n).text v = (p.text v).take ((p.text v).length - n) := by
  obtain ⟨before, hs⟩ : ∃ before, ∀ last : Bytes, splice last (p.holes v) = before ++ last :=
    ⟨splice [] (p.holes v), fun last => by rw [splice_append]; rfl⟩
  have hlen : (before ++ p.last).length - n = before.length + (p.last.length - n) := by
    rw [List.length_append]; omega
  simp only [text, hs, hlen, List.take_length_add_append]
  exact hs _

/-- a parameter behind text of this kind -/
theorem solid_param {p : Prepared ι} (h : ∀ x ∈ p.params, Solid x.1) (hl : Solid p.last) (i : ι) :
    ∀ x ∈ (p.param i).params, Solid x.1 := by
  intro x hx
  rcases List.mem_append.1 hx with hx | hx
  · exact h x hx
  · rw [List.mem_singleton.1 hx]
    exact hl

/-- a loop that appends to a text follows one that extends the statement -/
theorem foldlM_text {β : Type} (f : Bytes → β → Option Bytes) (g : Prepared ι → β → Prepared ι) (v : ι → Bytes)
    (l : List β) (p : Prepared ι) (h : ∀ p, ∀ x ∈ l, f (p.text v) x = some ((g p x).text v)) :
    l.foldlM f (p.text v) = some ((l.foldl g p).text v) := by
  induction l generalizing p with
  | nil => rfl
  | cons x l ih =>
    obtain ⟨hx, hl⟩ := List.forall_mem_cons.1 (fun x hx p => h p x hx)
    rw [List.foldlM_cons, hx p]
    exact ih _ fun p y hy => hl y hy p

/-- the tokens of a statement do not depend on the values, but for the contents of the literals -/
theorem shape_tokens (p : Prepared ι) (v w : ι → Bytes) :
    (p.tokens v).map Token.shape = (p.tokens w).map Token.shape := by
  simp only [tokens, holes]
  induction p.params with
  | nil => rfl
  | cons x params ih => simp [spliceTokens, ih, Token.shape]

section Structure

variable (p : Prepared ι) (hc : p.Closed) (hp : p.Parted)

include hc hp in
theorem closed_parted : (∀ x ∈ p.params, Opens x.1 ∧ Parts x.1) ∧ Ends p.last ∧ Parts p.last :=
  ⟨fun x hx => ⟨hc.1 x hx, parts_of_closed x.1 (.inl (hc.1 x hx)) (hp.pieces x hx)⟩, hc.2,
    parts_of_closed p.last (.inr hc.2) hp.last⟩

include hc hp in
theorem tokenize_text (v : ι → Bytes) (hv : ∀ x ∈ p.params, Verbatim (v x.2)) :
    tokenize (p.text v) = some (p.tokens v) ∧ literals (p.tokens v) = p.values v := by
  obtain ⟨hpieces, hlast⟩ := closed_parted p hc hp
  refine ⟨finish_splice [] _ _ hlast (List.forall_mem_map.2 hpieces) (List.forall_mem_map.2 hv), ?_⟩
  have hopens : ∀ x ∈ p.holes v, Opens x.1 := List.forall_mem_map.2 hc.1
  rw [tokens, literals_spliceTokens _ _ hc.2 hopens, holes, List.map_map]
  rfl

include hc hp in
theorem verbatim_of_literals (v : ι → Bytes) (ts : List Token) (ht : tokenize (p.text v) = some ts)
    (hl : literals ts = p.values v) : ∀ x ∈ p.params, Verbatim (v x.2) := by
  obtain ⟨hpieces, hlast⟩ := closed_parted p hc hp
  have hvalues : (p.holes v).map Prod.snd = p.values v := by
    rw [holes, List.map_map]
    rfl
  have hall := finish_literals [] ts p.last (p.holes v) hlast.2 (List.forall_mem_map.2 hpieces) ht
    (by rw [hl, ← hvalues]; exact List.prefix_refl _)
  intro x hx
  exact hall (x.1, v x.2) (List.mem_map_of_mem hx)

include hc hp in
/-- **A text keeps the structure of its statement exactly for verbatim values.** -/
theorem structure_kept_iff (v w : ι → Bytes) :
    (∃ s t, tokenize (p.text v) = some s ∧ tokenize (p.text w) = some t ∧ s.map Token.shape = t.map Token.shape ∧
      literals s = p.values v ∧ literals t = p.values w) ↔
    ∀ x ∈ p.params, Verbatim (v x.2) ∧ Verbatim (w x.2) := by
  constructor
  · rintro ⟨s, t, hs, ht, -, hls, hlt⟩ x hx
    exact ⟨verbatim_of_literals p hc hp v s hs hls x hx, verbatim_of_literals p hc hp w t ht hlt x hx⟩
  · intro hv
    obtain ⟨hs, hls⟩ := tokenize_text p hc hp v fun x hx => (hv x hx).1
    obtain ⟨ht, hlt⟩ := tokenize_text p hc hp w fun x hx => (hv x hx).2
    exact ⟨_, _, hs, ht, shape_tokens p v w, hls, hlt⟩

end Structure

/-- a word longer than the fixed text of the statement -/
def word (p : Prepared ι) : Bytes := letters (fixedLength p.last (p.params.map Prod.fst) + 1)

theorem verbatim_word (p : Prepared ι) : Verbatim p.word := verbatim_of_free _ (letters_free _)

/-- **A statement that keeps its structure for a word is closed.** -/
theorem closed_of_words (p : Prepared ι) (ts : List Token) (ht : tokenize (p.text fun _ => p.word) = some ts)
    (hl : literals ts = p.values fun _ => p.word) : p.Closed := by
  have hholes : p.holes (fun _ => p.word) =
      wordHoles (fixedLength p.last (p.params.map Prod.fst) + 1) (p.params.map Prod.fst) := by
    rw [holes, wordHoles, List.map_map]
    rfl
  rw [text, hholes] at ht
  have hclosed := closed_of_splice p.last _ (p.params.map Prod.fst) [] ts (Nat.lt_succ_self _) ht (by
    rw [hl, values, List.length_map, List.map_const', word]
    rfl)
  exact ⟨List.forall_mem_map.1 hclosed.1, hclosed.2⟩

end Prepared

end OwliesServer.SqlLexer
