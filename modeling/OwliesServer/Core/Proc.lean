/-
Procedures that call other services. A procedure returns, raises, or calls: it hands a request `q` to a service, is
suspended, and goes on with the reply. Between two calls it runs without interruption and touches no shared state.

`Q` is the type of requests and `R q` the type of replies to q, the failure of the call among them where the caller
catches it.
- `exec`: the procedure run to its end, with the replies taken from an oracle that sees the number of calls made before;
- `Returns`: every value the procedure can return, whatever the replies, satisfies a predicate.
-/
import Mathlib.Tactic

namespace OwliesServer

inductive Proc (Q : Type) (R : Q → Type) (α : Type) where
  | ret (a : α)
  | raise
  | call (q : Q) (k : R q → Proc Q R α)

namespace Proc

variable {Q : Type} {R : Q → Type} {α β : Type}

def bind : Proc Q R α → (α → Proc Q R β) → Proc Q R β
  | .ret a, f => f a
  | .raise, _ => .raise
  | .call q k, f => .call q fun r => (k r).bind f

instance : Monad (Proc Q R) where
  pure := .ret
  bind := .bind

/-- a pure computation that raises where it has no result -/
def ofOption : Option α → Proc Q R α
  | some a => .ret a
  | none => .raise

/-- one call, with its reply as result -/
def request (q : Q) : Proc Q R (R q) := .call q .ret

/-! ## Running a procedure to its end -/

/-- the result and the number of calls made so far; `none` if the procedure raises -/
def exec (oracle : ℕ → (q : Q) → R q) : Proc Q R α → ℕ → Option (α × ℕ)
  | .ret a, n => some (a, n)
  | .raise, _ => none
  | .call q k, n => (k (oracle n q)).exec oracle (n + 1)

@[simp] theorem exec_ret (oracle : ℕ → (q : Q) → R q) (a : α) (n : ℕ) :
    (Proc.ret a : Proc Q R α).exec oracle n = some (a, n) := rfl

@[simp] theorem exec_pure (oracle : ℕ → (q : Q) → R q) (a : α) (n : ℕ) :
    (pure a : Proc Q R α).exec oracle n = some (a, n) := rfl

@[simp] theorem exec_raise (oracle : ℕ → (q : Q) → R q) (n : ℕ) :
    (Proc.raise : Proc Q R α).exec oracle n = none := rfl

@[simp] theorem exec_ofOption (oracle : ℕ → (q : Q) → R q) (o : Option α) (n : ℕ) :
    (ofOption o : Proc Q R α).exec oracle n = o.map (fun a => (a, n)) := by
  cases o <;> rfl

@[simp] theorem exec_bind (oracle : ℕ → (q : Q) → R q) (p : Proc Q R α) (f : α → Proc Q R β) (n : ℕ) :
    (p >>= f).exec oracle n = (p.exec oracle n).bind fun r => (f r.1).exec oracle r.2 := by
  induction p generalizing n with
  | ret a => rfl
  | raise => rfl
  | call q k ih => exact ih _ _

/-- a continuation whose result does not depend on the number of calls made before -/
theorem map_fst_exec_bind (oracle : ℕ → (q : Q) → R q) (p : Proc Q R α) (f : α → Proc Q R β) (g : α → Option β)
    (h : ∀ a n, ((f a).exec oracle n).map Prod.fst = g a) (n : ℕ) :
    ((p >>= f).exec oracle n).map Prod.fst = ((p.exec oracle n).map Prod.fst).bind g := by
  rw [exec_bind]
  cases p.exec oracle n with
  | none => rfl
  | some r => exact h r.1 r.2

/-! ## What a procedure can return -/

def Returns (P : α → Prop) : Proc Q R α → Prop
  | .ret a => P a
  | .raise => True
  | .call _ k => ∀ r, (k r).Returns P

theorem returns_bind (P : β → Prop) (p : Proc Q R α) (f : α → Proc Q R β) (h : ∀ a, (f a).Returns P) :
    (p >>= f).Returns P := by
  induction p with
  | ret a => exact h a
  | raise => trivial
  | call q k ih => exact fun r => ih r

theorem returns_ofOption_bind (P : β → Prop) (o : Option α) (f : α → Proc Q R β)
    (h : ∀ a, o = some a → (f a).Returns P) : (ofOption o >>= f).Returns P := by
  cases o with
  | none => trivial
  | some a => exact h a rfl

end Proc

end OwliesServer
