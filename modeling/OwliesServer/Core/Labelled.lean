/-
Words in one text, with a different label before each word but the first. Nothing is escaped: a word may hold a label.

`labelled f [(l₁, g₁), …, (lₙ, gₙ)]` is the text f l₁ g₁ … lₙ gₙ.
- `Marked`: a label's first letter does not occur again in it, so that its occurrences in a text never overlap
  (`Marked.isPrefix_of_shifted`);
- `Clean`: no label occurs in the word before it or in the word behind it. It may occur further away;
- `labelled_injective_of_clean`, `exists_other_of_not_clean`: the words are determined by the text, and by the labels,
  exactly when they are clean.
-/
import Mathlib.Data.List.Infix
import Mathlib.Tactic

namespace OwliesServer.Labelled

variable {α : Type}

def labelled : List α → List (List α × List α) → List α
  | f, [] => f
  | f, (l, g) :: rest => f ++ l ++ labelled g rest

@[simp] theorem labelled_nil (f : List α) : labelled f [] = f := rfl

@[simp] theorem labelled_cons (f l g : List α) (rest : List (List α × List α)) :
    labelled f ((l, g) :: rest) = f ++ l ++ labelled g rest := rfl

theorem labelled_append (x f : List α) (ps : List (List α × List α)) : labelled (x ++ f) ps = x ++ labelled f ps := by
  cases ps with
  | nil => rfl
  | cons p ps =>
    obtain ⟨l, g⟩ := p
    simp only [labelled_cons, List.append_assoc]

/-- every letter of a word is one of the text -/
theorem mem_labelled {f w : List α} {ps : List (List α × List α)} {a : α} (hw : w ∈ f :: ps.map Prod.snd) (ha : a ∈ w) :
    a ∈ labelled f ps := by
  induction ps generalizing f with
  | nil =>
    obtain rfl : w = f := by simpa using hw
    exact ha
  | cons p ps ih =>
    obtain ⟨l, g⟩ := p
    rw [labelled_cons]
    obtain rfl | hw := List.mem_cons.1 hw
    · exact List.mem_append_left _ (List.mem_append_left _ ha)
    · exact List.mem_append_right _ (ih hw)

/-! ## Labels do not overlap -/

/-- the first letter does not occur again -/
def Marked (l : List α) : Prop := ∃ c t, l = c :: t ∧ c ∉ t

/-- an occurrence of a label before another one ends before it begins -/
theorem Marked.isPrefix_of_shifted {l : List α} (h : Marked l) {d t t' : List α} (hd : d ≠ [])
    (he : l ++ t = d ++ l ++ t') : ∃ e, d = l ++ e ∧ t = e ++ l ++ t' := by
  rw [List.append_assoc] at he
  obtain ⟨e, hle, hte⟩ | ⟨e, hle, hte⟩ := List.append_eq_append_iff.1 he
  · exact ⟨e, hle, by rw [hte, List.append_assoc]⟩
  · -- the first letter of the second occurrence would be one inside the first
    obtain ⟨c, w, rfl, hc⟩ := h
    obtain ⟨x, d, rfl⟩ := List.exists_cons_of_ne_nil hd
    rw [List.cons_append, List.cons.injEq] at hle
    cases e with
    | nil =>
      refine ⟨[], ?_, ?_⟩
      · rw [hle.1, hle.2]
        simp
      · simpa using hte.symm
    | cons y e =>
      rw [List.cons_append, List.cons_append, List.cons.injEq] at hte
      have : c ∈ w := by
        rw [hle.2, hte.1]
        simp
      exact absurd this hc

/-! ## Clean words -/

/-- no label occurs in the words next to it -/
def Clean : List α → List (List α × List α) → Prop
  | _, [] => True
  | f, (l, g) :: rest => ¬ l <:+: f ∧ ¬ l <:+: g ∧ Clean g rest

/-- **Clean words are determined by the text.** -/
theorem labelled_injective_of_clean (ps : List (List α × List α)) (hm : ∀ p ∈ ps, Marked p.1) (f : List α)
    (hc : Clean f ps) (f' : List α) (qs : List (List α × List α)) (hl : qs.map Prod.fst = ps.map Prod.fst)
    (he : labelled f ps = labelled f' qs) : f = f' ∧ ps = qs := by
  induction ps generalizing f f' qs with
  | nil =>
    obtain rfl : qs = [] := by simpa using hl
    exact ⟨he, rfl⟩
  | cons p ps ih =>
    obtain ⟨l, g⟩ := p
    obtain ⟨hf, hg, hrest⟩ := hc
    cases qs with
    | nil => simp at hl
    | cons q qs =>
      obtain ⟨l', g'⟩ := q
      simp only [List.map_cons, List.cons.injEq] at hl
      obtain ⟨rfl, hl⟩ := hl
      have hmark : Marked l' := hm (l', g) List.mem_cons_self
      have ih' := ih (fun p hp => hm p (List.mem_cons_of_mem _ hp)) g hrest
      simp only [labelled_cons, List.append_assoc] at he
      obtain ⟨d, hd, htail⟩ | ⟨d, hd, htail⟩ := List.append_eq_append_iff.1 he
      · -- the other label stands further right: it would have to stand in g, or g end behind it
        by_cases hnil : d = []
        · subst hnil
          obtain ⟨rfl, rfl⟩ := ih' g' qs hl (by simpa using htail)
          exact ⟨by simpa using hd.symm, rfl⟩
        · obtain ⟨e, -, hte⟩ := hmark.isPrefix_of_shifted hnil (htail.trans (List.append_assoc d l' _).symm)
          rw [← labelled_append] at hte
          obtain ⟨hge, -⟩ := ih' (e ++ l' ++ g') qs hl hte
          exact absurd ⟨e, g', hge.symm⟩ hg
      · by_cases hnil : d = []
        · subst hnil
          obtain ⟨rfl, rfl⟩ := ih' g' qs hl (by simpa using htail.symm)
          exact ⟨by simpa using hd, rfl⟩
        · obtain ⟨e, hde, -⟩ := hmark.isPrefix_of_shifted hnil (htail.trans (List.append_assoc d l' _).symm)
          exact absurd ⟨f', e, by rw [hd, hde, List.append_assoc]⟩ hf

/-- **Words that are not clean are not determined by the text**: a label inside a word next to it can be taken for the
label itself. -/
theorem exists_other_of_not_clean (ps : List (List α × List α)) (hm : ∀ p ∈ ps, p.1 ≠ []) (f : List α)
    (hc : ¬ Clean f ps) :
    ∃ f' qs, qs.map Prod.fst = ps.map Prod.fst ∧ labelled f' qs = labelled f ps ∧ ¬ (f = f' ∧ ps = qs) := by
  induction ps generalizing f with
  | nil => exact absurd trivial hc
  | cons p ps ih =>
    obtain ⟨l, g⟩ := p
    have hl : l ≠ [] := hm (l, g) List.mem_cons_self
    by_cases hf : l <:+: f
    · obtain ⟨x, y, rfl⟩ := hf
      refine ⟨x, (l, y ++ l ++ g) :: ps, rfl, by simp [labelled_append], ?_⟩
      intro hne
      have := congrArg List.length hne.1
      simp [hl] at this
    by_cases hg : l <:+: g
    · obtain ⟨x, y, rfl⟩ := hg
      refine ⟨f ++ l ++ x, (l, y) :: ps, rfl, by simp [labelled_append], ?_⟩
      intro hne
      have := congrArg List.length hne.1
      simp [hl] at this
    · have hrest : ¬ Clean g ps := fun h => hc ⟨hf, hg, h⟩
      obtain ⟨g', qs, hlab, htext, hne⟩ := ih (fun p hp => hm p (List.mem_cons_of_mem _ hp)) g hrest
      refine ⟨f, (l, g') :: qs, by simp [hlab], by simp [htext], ?_⟩
      intro h
      simp only [List.cons.injEq, Prod.mk.injEq, true_and] at h
      exact hne h

end OwliesServer.Labelled
