/-
Parsers that take bytes off the front of their input and can fail, with two things that are proved of them rule by rule,
along the text of the parser.

- `Takes p bytes a`: the parser takes exactly `bytes`, whatever follows, and answers `a`.
- `Yields bad x Q`: a computation does not fail with what is `bad`, and an answer satisfies `Q`.
- `Meets bad n k p Q`: on fewer than `n` bytes the parser does not fail with `bad`, and an answer takes at least `k` bytes
  and satisfies `Q`. With a budget as `bad` this says that a recursive parser ends before its budget does.
-/
import OwliesServer.Core.CChar

namespace OwliesServer.Framing

open OwliesServer.CChar

abbrev Parser (ε α : Type) := StateT Bytes (Except ε) α

variable {ε α β : Type}

theorem ok_bind (a : α) (f : α → Except ε β) : (Except.ok a >>= f) = f a := rfl

theorem ok_ne_error (a : α) (e : ε) : (Except.ok a : Except ε α) ≠ .error e := by
  intro h
  cases h

theorem eq_ok_of_toOption {x : Except ε α} {a : α} (h : x.toOption = some a) : x = .ok a := by
  cases x with
  | error e => cases h
  | ok b => exact congrArg Except.ok (Option.some.inj h)

theorem bind_eq_ok {x : Except ε α} {f : α → Except ε β} {b : β} :
    (x >>= f) = .ok b ↔ ∃ a, x = .ok a ∧ f a = .ok b := by
  cases x with
  | error e => exact ⟨nofun, nofun⟩
  | ok a => exact ⟨fun h => ⟨a, rfl, h⟩, fun ⟨_, ha, h⟩ => Except.ok.inj ha ▸ h⟩

/-- an error that what follows does not raise is one of the first step -/
theorem bind_eq_error {ε α β : Type} {x : Except ε α} {f : α → Except ε β} {e : ε} (h : ∀ a, f a ≠ .error e) :
    (x >>= f) = .error e ↔ x = .error e := by
  cases x with
  | error e' =>
    change Except.error e' = _ ↔ _
    rw [Except.error.injEq, Except.error.injEq]
  | ok a => exact iff_of_false (h a) nofun

/-- no failure that is `bad`, and an answer satisfies `Q` -/
structure Yields (bad : ε → Prop) (x : Except ε α) (Q : α → Prop) : Prop where
  sound : ∀ e, x = .error e → ¬ bad e
  answer : ∀ a, x = .ok a → Q a

section Yields

variable {bad : ε → Prop} {x : Except ε α} {P Q : α → Prop}

theorem yields_ok {a : α} (h : Q a) : Yields bad (.ok a) Q := ⟨nofun, by rintro _ ⟨⟩; exact h⟩

theorem yields_error {e : ε} (h : ¬ bad e) : Yields bad (.error e) Q := ⟨by rintro _ ⟨⟩; exact h, nofun⟩

theorem yields_bind {f : α → Except ε β} {R : β → Prop} (hx : Yields bad x P) (hf : ∀ a, P a → Yields bad (f a) R) :
    Yields bad (x >>= f) R := by
  cases x with
  | error e => exact yields_error (hx.sound e rfl)
  | ok a => exact hf a (hx.answer a rfl)

theorem yields_ite {c : Prop} [Decidable c] {y : Except ε α} (hx : c → Yields bad x Q) (hy : ¬ c → Yields bad y Q) :
    Yields bad (if c then x else y) Q := by
  by_cases hc : c
  · rw [if_pos hc]
    exact hx hc
  · rw [if_neg hc]
    exact hy hc

end Yields

/-- the next `n` bytes; `e` is told how many there are -/
def take (n : ℕ) (e : ℕ → ε) : Parser ε Bytes := fun s =>
  if s.length < n then .error (e s.length) else .ok (s.take n, s.drop n)

/-- a failure that names the length of the rest -/
def fail (e : ℕ → ε) : Parser ε α := fun s => .error (e s.length)

theorem bind_run (p : Parser ε α) (f : α → Parser ε β) (s : Bytes) :
    (p >>= f) s = match p s with
      | .ok (a, rest) => f a rest
      | .error e => .error e := by
  change (p s >>= fun x => f x.1 x.2) = _
  cases p s <;> rfl

/-! ## What is taken -/

def Takes (p : Parser ε α) (bytes : Bytes) (a : α) : Prop := ∀ rest, p (bytes ++ rest) = .ok (a, rest)

theorem takes_pure (a : α) : Takes (pure a : Parser ε α) [] a := fun _ => rfl

theorem takes_bind {p : Parser ε α} {f : α → Parser ε β} {s t : Bytes} {a : α} {b : β} (hp : Takes p s a)
    (hf : Takes (f a) t b) : Takes (p >>= f) (s ++ t) b := by
  intro rest
  rw [List.append_assoc, bind_run, hp (t ++ rest)]
  exact hf rest

theorem takes_map {p : Parser ε α} {s : Bytes} {a : α} (hp : Takes p s a) (f : α → β) :
    Takes (do return f (← p)) s (f a) := by
  intro rest
  rw [bind_run, hp rest]
  rfl

theorem takes_take {n : ℕ} {e : ℕ → ε} {s : Bytes} (h : s.length = n) : Takes (take n e) s s := by
  intro rest
  subst h
  simp [take]

/-! ## What is answered, and how much is taken -/

/-- on fewer than `n` bytes the parser does not fail with `bad`, and an answer takes at least `k` bytes and satisfies `Q` -/
def Meets (bad : ε) (n k : ℕ) (p : Parser ε α) (Q : α → Prop) : Prop :=
  ∀ s, s.length < n → (∀ a rest, p s = .ok (a, rest) → rest.length + k ≤ s.length ∧ Q a) ∧ p s ≠ .error bad

section Meets

variable {bad : ε} {n k : ℕ} {p : Parser ε α} {P Q : α → Prop}

theorem Meets.mono {m j : ℕ} (h : Meets bad n k p P) (hm : m ≤ n) (hj : j ≤ k) (hPQ : ∀ a, P a → Q a) :
    Meets bad m j p Q := by
  intro s hs
  obtain ⟨hok, hbad⟩ := h s (hs.trans_le hm)
  refine ⟨?_, hbad⟩
  intro a rest hp
  obtain ⟨hlen, ha⟩ := hok a rest hp
  exact ⟨by omega, hPQ a ha⟩

theorem meets_pure {a : α} (h : Q a) : Meets bad n 0 (pure a) Q := by
  intro s hs
  refine ⟨?_, nofun⟩
  intro b rest hb
  cases hb
  exact ⟨le_rfl, h⟩

theorem meets_fail {e : ℕ → ε} (h : ∀ len, e len ≠ bad) : Meets bad n k (fail e) Q := by
  intro s hs
  refine ⟨nofun, ?_⟩
  intro hbad
  exact h s.length (by simpa [fail] using hbad)

theorem meets_take {m : ℕ} {e : ℕ → ε} (h : ∀ len, e len ≠ bad) :
    Meets bad n m (take m e) (fun bytes => bytes.length = m) := by
  intro s hs
  unfold take
  split_ifs with hlen
  · refine ⟨nofun, ?_⟩
    intro hbad
    exact h s.length (by simpa using hbad)
  · refine ⟨?_, nofun⟩
    intro a rest ha
    obtain ⟨rfl, rfl⟩ : s.take m = a ∧ s.drop m = rest := by simpa using ha
    simp only [List.length_drop, List.length_take]
    omega

theorem meets_bind {j : ℕ} {f : α → Parser ε β} {R : β → Prop} (hp : Meets bad n j p P)
    (hf : ∀ a, P a → Meets bad (n - j) k (f a) R) : Meets bad n (j + k) (p >>= f) R := by
  intro s hs
  obtain ⟨hok, hbad⟩ := hp s hs
  rw [bind_run]
  cases hps : p s with
  | error e =>
    rw [hps] at hbad
    exact ⟨nofun, fun h => hbad (by simpa using h)⟩
  | ok x =>
    obtain ⟨hlen, hx⟩ := hok x.1 x.2 hps
    obtain ⟨hokf, hbadf⟩ := hf x.1 hx x.2 (by omega)
    refine ⟨?_, hbadf⟩
    intro b rest hb
    obtain ⟨hlenf, hR⟩ := hokf b rest hb
    exact ⟨by omega, hR⟩

theorem meets_map {R : β → Prop} (hp : Meets bad n k p P) (f : α → β) (hf : ∀ a, P a → R (f a)) :
    Meets bad n k (do return f (← p)) R :=
  meets_bind hp fun a ha => meets_pure (hf a ha)

end Meets

end OwliesServer.Framing
