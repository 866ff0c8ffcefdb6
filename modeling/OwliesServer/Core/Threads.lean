/-
Threads over a shared state. A thread is given by its program point; its next action is atomic, changes the shared state
and replaces the thread by its successors (none if it ends, several if it starts others). New threads may start at any
time at one of the entry points. A run is any list of operations, so every interleaving is a run.

- `Pool`, `step`: the machine.
- `pool_inv`: an invariant that does not depend on the order of the threads holds in every run if it survives the start
  of a thread and the action of the first thread.
- `held f threads`: the resources the threads have, if `f` lists those of one thread.
-/
import OwliesServer.Core.Machine

namespace OwliesServer.Threads

variable {σ τ : Type}

/-! ## The machine -/

structure Pool (σ τ : Type) where
  shared : σ
  threads : List τ

inductive Op (τ : Type) where
  /-- a thread starts -/
  | start (t : τ)
  /-- the `i`-th thread does its next action -/
  | act (i : ℕ)

variable (act : σ → τ → σ × List τ) (entry : τ → Bool)

def step (p : Pool σ τ) : Op τ → Pool σ τ
  | .start t => if entry t then ⟨p.shared, t :: p.threads⟩ else p
  | .act i =>
    match p.threads[i]? with
    | none => p
    | some t => ⟨(act p.shared t).1, (act p.shared t).2 ++ p.threads.eraseIdx i⟩

/-! ## Invariants -/

section Invariant

variable (I : σ → List τ → Prop) (hperm : ∀ s ts us, ts.Perm us → I s ts → I s us)
  (hstart : ∀ s ts t, entry t = true → I s ts → I s (t :: ts))
  (hact : ∀ s t ts, I s (t :: ts) → I (act s t).1 ((act s t).2 ++ ts))

include hperm hstart hact

theorem step_inv (p : Pool σ τ) (o : Op τ) (h : I p.shared p.threads) :
    I (step act entry p o).shared (step act entry p o).threads := by
  cases o with
  | start t =>
    simp only [step]
    split_ifs with he
    · exact hstart _ _ _ he h
    · exact h
  | act i =>
    cases ht : p.threads[i]? with
    | none => simpa only [step, ht] using h
    | some t =>
      obtain ⟨hi, rfl⟩ := List.getElem?_eq_some_iff.1 ht
      simp only [step, ht]
      exact hact _ _ _ (hperm _ _ _ (List.getElem_cons_eraseIdx_perm hi).symm h)

theorem pool_inv (p : Pool σ τ) (ops : List (Op τ)) (h : I p.shared p.threads) :
    I (Machine.run (step act entry) p ops).shared (Machine.run (step act entry) p ops).threads :=
  Machine.run_inv (step act entry) (fun p => I p.shared p.threads)
    (fun p o h => step_inv act entry I hperm hstart hact p o h) p ops h

end Invariant

/-! ## Resources -/

/-- what the threads have, if `f` lists what one of them has -/
def held {ρ : Type} (f : τ → List ρ) (threads : List τ) : List ρ := threads.flatMap f

section Held

variable {ρ : Type} (f : τ → List ρ)

@[simp] theorem held_cons (t : τ) (ts : List τ) : held f (t :: ts) = f t ++ held f ts := List.flatMap_cons

@[simp] theorem held_append (ts us : List τ) : held f (ts ++ us) = held f ts ++ held f us := List.flatMap_append

theorem held_perm {ts us : List τ} (h : ts.Perm us) : (held f ts).Perm (held f us) := h.flatMap_right f

end Held

end OwliesServer.Threads
