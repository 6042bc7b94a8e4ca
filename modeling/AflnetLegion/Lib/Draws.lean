/-- A computation that draws random numbers and may stop with a failure. The numbers to
come are a parameter, of which each draw takes the next one. -/
def Draws (ε α : Type) := (Nat → Nat) → Except ε (α × (Nat → Nat))

namespace Draws

variable {ε α β σ : Type}

/-- A value, with no number drawn. -/
protected def pure (a : α) : Draws ε α := fun numbers => .ok (a, numbers)

/-- One computation after the other: the second one draws from the numbers that the first one
has left. -/
protected def bind (x : Draws ε α) (f : α → Draws ε β) : Draws ε β := fun numbers =>
  match x numbers with
  | .ok (a, numbers) => f a numbers
  | .error cause => .error cause

instance : Monad (Draws ε) where
  pure := Draws.pure
  bind := Draws.bind

/-- The computation stops with this cause. -/
def fail (cause : ε) : Draws ε α := fun _ => .error cause

/-- A number below `limit`. There is none below 0. -/
def below (limit : Nat) (cause : ε) : Draws ε Nat := fun numbers =>
  if limit = 0 then .error cause else .ok (numbers 0 % limit, fun k => numbers (k + 1))

/-- Stops unless the condition holds. -/
def require (condition : Prop) [Decidable condition] (cause : ε) : Draws ε Unit :=
  if condition then pure () else fail cause

/-- So many rounds of a body, each of which may draw numbers and fail. A failure ends the loop.
-/
def rounds (body : σ → Draws ε σ) : Nat → σ → Draws ε σ
  | 0, s => pure s
  | n + 1, s => body s >>= rounds body n

/-- Whatever numbers are drawn, the computation does not fail and its value satisfies `Q`. -/
def Always (x : Draws ε α) (Q : α → Prop) : Prop :=
  ∀ numbers,
    match x numbers with
    | .ok (a, _) => Q a
    | .error _ => False

variable {x : Draws ε α} {P Q : α → Prop} {cause : ε}

/-- A value that satisfies the postcondition, whatever is drawn later. -/
theorem Always.pure {a : α} (h : Q a) : Always (pure a : Draws ε α) Q := fun _ => h

/-- The rule of sequencing for computations that cannot fail. -/
theorem Always.bind {f : α → Draws ε β} {R : β → Prop} (hx : Always x P) (hf : ∀ a, P a → Always (f a) R) :
    Always (x >>= f) R := by
  intro numbers
  have hfirst := hx numbers
  change match (match x numbers with
    | .ok (a, numbers) => f a numbers
    | .error cause => .error cause) with
    | .ok (b, _) => R b
    | .error _ => False
  cases hrun : x numbers with
  | error cause =>
    rw [hrun] at hfirst
    exact hfirst
  | ok result =>
    rw [hrun] at hfirst
    exact hf result.1 hfirst result.2

theorem Always.mono (hx : Always x P) (h : ∀ a, P a → Q a) : Always x Q := by
  intro numbers
  have hfirst := hx numbers
  cases hrun : x numbers with
  | error cause =>
    rw [hrun] at hfirst
    exact hfirst
  | ok result =>
    rw [hrun] at hfirst
    exact h result.1 hfirst

/-- There is a number below a limit that is not 0. This is where a division by zero of `UR`
would show. -/
theorem Always.below {limit : Nat} (h : 0 < limit) : Always (below limit cause) fun n => n < limit := by
  intro numbers
  rw [Draws.below, if_neg (Nat.ne_of_gt h)]
  exact Nat.mod_lt _ h

/-- A requirement that is met does not stop the computation. -/
theorem Always.require {condition : Prop} [Decidable condition] (h : condition) :
    Always (require condition cause) fun _ => True := by
  rw [Draws.require, if_pos h]
  exact Always.pure trivial

/-- The invariant rule of the rounds. -/
theorem Always.rounds {I : σ → Prop} {body : σ → Draws ε σ} (hbody : ∀ s, I s → Always (body s) I) (n : Nat) {s : σ}
    (hs : I s) : Always (rounds body n s) I := by
  induction n generalizing s with
  | zero => exact Always.pure hs
  | succ n ih => exact (hbody s hs).bind fun t ht => ih ht

/-- The invariant rule of a loop over a list. -/
theorem Always.foldlM {ι : Type} {I : σ → Prop} {body : σ → ι → Draws ε σ} {items : List ι}
    (hbody : ∀ i ∈ items, ∀ s, I s → Always (body s i) I) {s : σ} (hs : I s) : Always (items.foldlM body s) I := by
  induction items generalizing s with
  | nil => exact Always.pure hs
  | cons i items ih =>
    rw [List.foldlM_cons]
    exact (hbody i List.mem_cons_self s hs).bind fun t ht => ih (fun j hj => hbody j (List.mem_cons_of_mem i hj)) ht

/-- Whatever numbers are drawn, a value satisfies `Q` and a failure `E`. The two are apart
because some failures can happen and others must not. -/
def Ensures (E : ε → Prop) (x : Draws ε α) (Q : α → Prop) : Prop :=
  ∀ numbers,
    match x numbers with
    | .ok (a, _) => Q a
    | .error cause => E cause

variable {E : ε → Prop}

theorem Ensures.pure {a : α} (h : Q a) : Ensures E (pure a : Draws ε α) Q := fun _ => h

/-- A failure with a cause that the specification allows. -/
theorem Ensures.fail (h : E cause) : Ensures E (fail cause : Draws ε α) Q := fun _ => h

/-- The rule of sequencing. The failures of both parts have to be among those allowed. -/
theorem Ensures.bind {f : α → Draws ε β} {R : β → Prop} (hx : Ensures E x P) (hf : ∀ a, P a → Ensures E (f a) R) :
    Ensures E (x >>= f) R := by
  intro numbers
  have hfirst := hx numbers
  change match (match x numbers with
    | .ok (a, numbers) => f a numbers
    | .error cause => .error cause) with
    | .ok (b, _) => R b
    | .error cause => E cause
  cases hrun : x numbers with
  | error cause =>
    rw [hrun] at hfirst
    exact hfirst
  | ok result =>
    rw [hrun] at hfirst
    exact hf result.1 hfirst result.2

theorem Ensures.below {limit : Nat} (h : limit = 0 → E cause) : Ensures E (below limit cause) fun n => n < limit := by
  intro numbers
  rw [Draws.below]
  by_cases hlimit : limit = 0
  · rw [if_pos hlimit]
    exact h hlimit
  · rw [if_neg hlimit]
    exact Nat.mod_lt _ (Nat.pos_of_ne_zero hlimit)

/-- What is known of a run that does not fail. -/
theorem Ensures.of_ok {numbers numbers' : Nat → Nat} {a : α} (hx : Ensures E x Q) (h : x numbers = .ok (a, numbers')) : Q a := by
  have hrun := hx numbers
  rw [h] at hrun
  exact hrun

/-- A run that cannot fail has a value. -/
theorem Ensures.exists_eq (hx : Ensures (fun _ => False) x Q) (numbers : Nat → Nat) :
    ∃ a numbers', x numbers = .ok (a, numbers') ∧ Q a := by
  have hrun := hx numbers
  cases heq : x numbers with
  | error cause =>
    rw [heq] at hrun
    exact hrun.elim
  | ok result =>
    rw [heq] at hrun
    exact ⟨result.1, result.2, rfl, hrun⟩

end Draws
