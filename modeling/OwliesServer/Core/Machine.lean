/-
Machines with a total step function, over any state type `σ` and operation type `α`. An operation that is not enabled
leaves the state as it is, so a run is a fold (`run`) and every list of operations is a trace.

- `observed`: what an observer of the operations `mine` sees along a run;
- `Guarded`: every operation of a trace meets a condition in the state it is applied to;
- `run_inv`, `guarded_inv`: what one (guarded) step preserves, a whole (guarded) run preserves;
- `holds_along_iff`: if the condition says exactly when a step keeps a property (under an invariant), then it holds in
  every state of a run exactly when the run is guarded;
- `isolated`: if the operations that are not `mine` leave a view of the state alone, and the others read only that view,
  then the view and the observations are those of the run in which only `mine` operations occur.
-/
import Mathlib.Tactic

namespace OwliesServer.Machine

variable {σ α β γ : Type*}

/-! ## Runs -/

def run (step : σ → α → σ) (s : σ) (ops : List α) : σ := ops.foldl step s

@[simp] theorem run_nil (step : σ → α → σ) (s : σ) : run step s [] = s := rfl

@[simp] theorem run_cons (step : σ → α → σ) (s : σ) (o : α) (ops : List α) :
    run step s (o :: ops) = run step (step s o) ops := rfl

theorem run_append (step : σ → α → σ) (s : σ) (l m : List α) : run step s (l ++ m) = run step (run step s l) m := by
  simp [run, List.foldl_append]

theorem run_inv (step : σ → α → σ) (I : σ → Prop) (hstep : ∀ s o, I s → I (step s o)) (s : σ) (ops : List α) (h : I s) :
    I (run step s ops) := by
  induction ops generalizing s with
  | nil => exact h
  | cons o ops ih => exact ih _ (hstep s o h)

/-! ## Guarded runs -/

/-- every operation meets `G` in the state it is applied to -/
def Guarded (step : σ → α → σ) (G : σ → α → Prop) : σ → List α → Prop
  | _, [] => True
  | s, o :: ops => G s o ∧ Guarded step G (step s o) ops

theorem guarded_inv (step : σ → α → σ) (G : σ → α → Prop) (I : σ → Prop) (hstep : ∀ s o, G s o → I s → I (step s o))
    (s : σ) (ops : List α) (hg : Guarded step G s ops) (h : I s) : I (run step s ops) := by
  induction ops generalizing s with
  | nil => exact h
  | cons o ops ih => exact ih _ hg.2 (hstep s o hg.1 h)

theorem guarded_mono (step : σ → α → σ) {G H : σ → α → Prop} (h : ∀ s o, G s o → H s o) (s : σ) (ops : List α)
    (hg : Guarded step G s ops) : Guarded step H s ops := by
  induction ops generalizing s with
  | nil => trivial
  | cons o ops ih => exact ⟨h s o hg.1, ih _ hg.2⟩

theorem guarded_append (step : σ → α → σ) (G : σ → α → Prop) (s : σ) (l m : List α) :
    Guarded step G s (l ++ m) ↔ Guarded step G s l ∧ Guarded step G (run step s l) m := by
  induction l generalizing s with
  | nil => simp [Guarded]
  | cons o l ih => simp only [List.cons_append, Guarded, run_cons, ih, and_assoc]

/-- the property holds in every state of the run -/
def HoldsAlong (step : σ → α → σ) (L : σ → Prop) (s : σ) (ops : List α) : Prop := ∀ pre, pre <+: ops → L (run step s pre)

theorem holds_along_iff (step : σ → α → σ) (G : σ → α → Prop) (I L : σ → Prop)
    (hstep : ∀ s o, I s → L s → I (step s o) ∧ (L (step s o) ↔ G s o)) (s : σ) (ops : List α) (hi : I s) (h : L s) :
    HoldsAlong step L s ops ↔ Guarded step G s ops := by
  induction ops generalizing s with
  | nil =>
    simp only [HoldsAlong, Guarded, List.prefix_nil, iff_true]
    intro pre hpre
    subst hpre
    exact h
  | cons o ops ih =>
    obtain ⟨hinext, hiff⟩ := hstep s o hi h
    apply Iff.intro
    · intro hall
      have hnext : L (step s o) := hall [o] (by simp)
      refine ⟨hiff.1 hnext, (ih _ hinext hnext).1 ?_⟩
      intro pre hpre
      exact hall (o :: pre) (by simpa using hpre)
    · intro ⟨hg, hrest⟩ pre hpre
      cases pre with
      | nil => exact h
      | cons o' pre =>
        obtain ⟨rfl, htail⟩ := List.cons_prefix_cons.1 hpre
        exact (ih _ hinext (hiff.2 hg)).2 hrest pre htail

/-! ## Observations and isolation -/

/-- what is observed of the operations `mine`, in order -/
def observed (step : σ → α → σ) (obs : σ → α → β) (mine : α → Bool) : σ → List α → List β
  | _, [] => []
  | s, o :: ops =>
    if mine o then obs s o :: observed step obs mine (step s o) ops else observed step obs mine (step s o) ops

/-- **Isolation.** The operations `mine` see, and leave behind in the view, what they would if they ran alone. -/
theorem isolated (step : σ → α → σ) (obs : σ → α → β) (mine : α → Bool) (view : σ → γ)
    (hother : ∀ s o, mine o = false → view (step s o) = view s)
    (hmine : ∀ s t o, mine o = true → view s = view t → view (step s o) = view (step t o) ∧ obs s o = obs t o)
    (s t : σ) (ops : List α) (h : view s = view t) :
    view (run step s ops) = view (run step t (ops.filter mine)) ∧
      observed step obs mine s ops = observed step obs mine t (ops.filter mine) := by
  induction ops generalizing s t with
  | nil => exact ⟨h, rfl⟩
  | cons o ops ih =>
    cases ho : mine o with
    | false =>
      rw [List.filter_cons_of_neg (by simp [ho])]
      simp only [run_cons, observed, ho, Bool.false_eq_true, if_false]
      exact ih _ _ ((hother s o ho).trans h)
    | true =>
      rw [List.filter_cons_of_pos ho]
      obtain ⟨h1, h2⟩ := hmine s t o ho h
      simp only [run_cons, observed, ho, if_true, h2]
      obtain ⟨i1, i2⟩ := ih _ _ h1
      exact ⟨i1, by rw [i2]⟩

end OwliesServer.Machine
