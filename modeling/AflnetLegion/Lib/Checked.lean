import Mathlib.Logic.Basic

namespace Checked

/-- Why a computation stops before returning: it performed an operation that has
no defined result, or it aborted on a failed assertion. -/
inductive Stop (ε σ : Type) where
  | fault (cause : ε)
  | abort (site : σ)
  deriving DecidableEq, Repr

/-- A computation with soft assertions. The flag says whether a failed assertion
is only logged; the list is the log of the assertions that failed so far. -/
def Comp (ε σ α : Type) := Bool → List σ → Except (Stop ε σ) (α × List σ)

variable {ε σ α β γ : Type}

/-- A value, with the log as it was. -/
protected def pure (a : α) : Comp ε σ α := fun _ log => .ok (a, log)

/-- One computation after the other. The log is passed on, and the first stop is that of the
whole. -/
protected def bind (x : Comp ε σ α) (f : α → Comp ε σ β) : Comp ε σ β := fun ignore log =>
  match x ignore log with
  | .ok (a, log') => f a ignore log'
  | .error stop => .error stop

instance : Monad (Comp ε σ) where
  pure := Checked.pure
  bind := Checked.bind

/-- An operation that has no defined result. It stops the computation in both modes. -/
def fail (cause : ε) : Comp ε σ α := fun _ _ => .error (.fault cause)

/-- A failed assertion is appended to the log when failures are ignored and
aborts the computation otherwise. -/
def soft_assert (condition : Prop) [Decidable condition] (site : σ) : Comp ε σ Unit := fun ignore log =>
  if condition then .ok ((), log)
  else if ignore then .ok ((), log ++ [site])
  else .error (.abort site)

/-- A condition that nothing checks at run time. Where it fails the log says so, and the
computation goes on in both modes. -/
def note (condition : Prop) [Decidable condition] (site : σ) : Comp ε σ Unit := fun _ log =>
  if condition then .ok ((), log) else .ok ((), log ++ [site])

theorem run_pure (a : α) (ignore : Bool) (log : List σ) :
    (pure a : Comp ε σ α) ignore log = .ok (a, log) := rfl

theorem run_bind (x : Comp ε σ α) (f : α → Comp ε σ β) (ignore : Bool) (log : List σ) :
    (x >>= f) ignore log =
      match x ignore log with
      | .ok (a, log') => f a ignore log'
      | .error stop => .error stop := rfl

@[simp] theorem pure_bind (a : α) (f : α → Comp ε σ β) : (pure a : Comp ε σ α) >>= f = f a := rfl

theorem pure_injective {a b : α} (h : (pure a : Comp ε σ α) = pure b) : a = b := by
  have hrun := congrFun (congrFun h true) []
  cases hrun
  rfl

@[simp] theorem bind_assoc (x : Comp ε σ α) (f : α → Comp ε σ β) (g : β → Comp ε σ γ) :
    (x >>= f) >>= g = x >>= fun a => f a >>= g := by
  funext ignore log
  simp only [run_bind]
  cases x ignore log <;> rfl

instance : LawfulMonad (Comp ε σ) := by
  refine LawfulMonad.mk' (Comp ε σ) ?_ pure_bind bind_assoc
  intro α x
  funext ignore log
  change (x >>= fun a => pure (id a)) ignore log = x ignore log
  rw [run_bind]
  cases x ignore log <;> rfl

@[simp] theorem fail_bind (cause : ε) (f : α → Comp ε σ β) : (fail cause : Comp ε σ α) >>= f = fail cause := rfl

/-- A true assertion does nothing in either mode, so a program can be rewritten by the facts
that it asserts. -/
@[simp] theorem soft_assert_of_true {condition : Prop} [Decidable condition] (h : condition) (site : σ) :
    (soft_assert condition site : Comp ε σ Unit) = pure () := by
  funext ignore log
  simp [soft_assert, h, run_pure]

theorem note_of_true {condition : Prop} [Decidable condition] (h : condition) (site : σ) :
    (note condition site : Comp ε σ Unit) = pure () := by
  funext ignore log
  simp [note, h, run_pure]

/-- Only the truth of the condition matters for what an assertion does. -/
theorem soft_assert_congr {p q : Prop} [Decidable p] [Decidable q] (h : p ↔ q) (site : σ) :
    (soft_assert p site : Comp ε σ Unit) = soft_assert q site := by
  funext ignore log
  by_cases hp : p
  · rw [soft_assert, soft_assert, if_pos hp, if_pos (h.mp hp)]
  · rw [soft_assert, soft_assert, if_neg hp, if_neg (fun hq => hp (h.mpr hq))]

/-- A computation that returns can be split at any bind. -/
theorem bind_eq_ok_iff {x : Comp ε σ α} {f : α → Comp ε σ β} {ignore : Bool} {log final : List σ} {b : β} :
    (x >>= f) ignore log = .ok (b, final) ↔
      ∃ a middle, x ignore log = .ok (a, middle) ∧ f a ignore middle = .ok (b, final) := by
  rw [run_bind]
  cases h : x ignore log with
  | error stop => simp
  | ok result =>
    obtain ⟨a, middle⟩ := result
    constructor
    · intro hf
      exact ⟨a, middle, rfl, hf⟩
    · rintro ⟨_, _, heq, hf⟩
      cases heq
      exact hf

/-- `x` never faults, every assertion that fails in it is one of `A`, and each
value it returns satisfies `Q`. A computation aborts only when failures are not
ignored, so under `Holds` it always returns when they are. -/
def Holds (A : σ → Prop) (x : Comp ε σ α) (Q : α → Prop) : Prop :=
  ∀ ignore log,
    match x ignore log with
    | .ok (a, final) => Q a ∧ ∃ failed, final = log ++ failed ∧ ∀ site ∈ failed, A site
    | .error (.abort site) => ignore = false ∧ A site
    | .error (.fault _) => False

/-- A value that satisfies the postcondition, with no assertion involved. -/
theorem Holds.pure {A : σ → Prop} {Q : α → Prop} {a : α} (h : Q a) : Holds A (pure a : Comp ε σ α) Q := by
  intro ignore log
  exact ⟨h, [], by simp, by simp⟩

/-- The rule of sequencing: what is known of the result of the first part is the precondition of
the second one. -/
theorem Holds.bind {A : σ → Prop} {x : Comp ε σ α} {f : α → Comp ε σ β} {P : α → Prop} {Q : β → Prop}
    (hx : Holds A x P) (hf : ∀ a, P a → Holds A (f a) Q) : Holds A (x >>= f) Q := by
  intro ignore log
  have hstart := hx ignore log
  rw [run_bind]
  cases h : x ignore log with
  | error stop =>
    rw [h] at hstart
    cases stop with
    | abort site => exact hstart
    | fault cause => exact hstart
  | ok result =>
    obtain ⟨a, middle⟩ := result
    rw [h] at hstart
    obtain ⟨hp, before, rfl, hbefore⟩ := hstart
    have hrest := hf a hp ignore (log ++ before)
    dsimp only
    cases hrun : f a ignore (log ++ before) with
    | error stop =>
      rw [hrun] at hrest
      cases stop with
      | abort site => exact hrest
      | fault cause => exact hrest
    | ok result =>
      obtain ⟨b, final⟩ := result
      rw [hrun] at hrest
      obtain ⟨hq, after, rfl, hafter⟩ := hrest
      refine ⟨hq, before ++ after, by simp, ?_⟩
      intro site hsite
      rcases List.mem_append.mp hsite with hmem | hmem
      · exact hbefore site hmem
      · exact hafter site hmem

/-- The rule of consequence. More assertions may be allowed to fail, and less may be claimed of
the result. -/
theorem Holds.mono {A B : σ → Prop} {x : Comp ε σ α} {P Q : α → Prop} (h : Holds A x P)
    (hA : ∀ site, A site → B site) (hQ : ∀ a, P a → Q a) : Holds B x Q := by
  intro ignore log
  have hrun := h ignore log
  cases hx : x ignore log with
  | error stop =>
    rw [hx] at hrun
    cases stop with
    | abort site => exact ⟨hrun.1, hA site hrun.2⟩
    | fault cause => exact hrun
  | ok result =>
    rw [hx] at hrun
    obtain ⟨hp, failed, hlog, hfailed⟩ := hrun
    exact ⟨hQ _ hp, failed, hlog, fun site hsite => hA site (hfailed site hsite)⟩

/-- An assertion either is true or has to be one of those allowed to fail. -/
theorem Holds.soft_assert {A : σ → Prop} {condition : Prop} [Decidable condition] {site : σ}
    (h : condition ∨ A site) : Holds A (soft_assert condition site : Comp ε σ Unit) (fun _ => True) := by
  intro ignore log
  by_cases hc : condition
  · rw [soft_assert_of_true hc]
    exact ⟨trivial, [], by simp, by simp⟩
  · have hsite := h.resolve_left hc
    cases ignore with
    | false => simp [Checked.soft_assert, hc, hsite]
    | true => simpa [Checked.soft_assert, hc] using hsite

/-- A returned value satisfies the postcondition. -/
theorem Holds.of_ok {A : σ → Prop} {x : Comp ε σ α} {Q : α → Prop} (h : Holds A x Q)
    {ignore : Bool} {log final : List σ} {a : α} (hrun : x ignore log = .ok (a, final)) : Q a := by
  have := h ignore log
  rw [hrun] at this
  exact this.1

/-- What holds of every returned value may serve as the postcondition. -/
theorem Holds.of_forall_ok {A : σ → Prop} {x : Comp ε σ α} {P Q : α → Prop} (h : Holds A x P)
    (hQ : ∀ (ignore : Bool) (log final : List σ) (a : α), x ignore log = .ok (a, final) → Q a) : Holds A x Q := by
  intro ignore log
  have hrun := h ignore log
  cases hx : x ignore log with
  | error stop =>
    rw [hx] at hrun
    cases stop with
    | abort site => exact hrun
    | fault cause => exact hrun
  | ok result =>
    obtain ⟨a, final⟩ := result
    rw [hx] at hrun
    exact ⟨hQ ignore log final a hx, hrun.2⟩

/-- When failures are ignored the computation returns. -/
theorem Holds.returns {A : σ → Prop} {x : Comp ε σ α} {Q : α → Prop} (h : Holds A x Q) (log : List σ) :
    ∃ a final, x true log = .ok (a, final) ∧ Q a := by
  have hrun := h true log
  cases hx : x true log with
  | error stop =>
    rw [hx] at hrun
    cases stop with
    | abort site => simp at hrun
    | fault cause => exact hrun.elim
  | ok result =>
    rw [hx] at hrun
    exact ⟨result.1, result.2, rfl, hrun.1⟩

/-- When no assertion may fail the computation returns in both modes and leaves
the log as it was. -/
theorem Holds.returns_silently {x : Comp ε σ α} {Q : α → Prop} (h : Holds (fun _ => False) x Q)
    (ignore : Bool) (log : List σ) : ∃ a, x ignore log = .ok (a, log) ∧ Q a := by
  have hrun := h ignore log
  cases hx : x ignore log with
  | error stop =>
    rw [hx] at hrun
    cases stop with
    | abort site => exact hrun.2.elim
    | fault cause => exact hrun.elim
  | ok result =>
    obtain ⟨a, final⟩ := result
    rw [hx] at hrun
    obtain ⟨hq, failed, rfl, hfailed⟩ := hrun
    have hnone : failed = [] := List.eq_nil_iff_forall_not_mem.mpr hfailed
    exact ⟨a, by simp [hnone], hq⟩

/-- `x` has no defined result when failed assertions are only logged. -/
def Faults (x : Comp ε σ α) : Prop := ∀ log, ∃ cause, x true log = .error (.fault cause)

theorem Faults.fail (cause : ε) : Faults (fail cause : Comp ε σ α) := fun _ => ⟨cause, rfl⟩

/-- A fault of the second part is one of the whole, as the first part gets there: it returns
when failures are ignored. -/
theorem Faults.bind {A : σ → Prop} {x : Comp ε σ α} {f : α → Comp ε σ β} {P : α → Prop}
    (hx : Holds A x P) (hf : ∀ a, P a → Faults (f a)) : Faults (x >>= f) := by
  intro log
  obtain ⟨a, middle, hrun, hp⟩ := hx.returns log
  obtain ⟨cause, hfault⟩ := hf a hp middle
  exact ⟨cause, by rw [run_bind, hrun]; exact hfault⟩

/-- In the given mode the result of `x` is `a`, whatever the log is. -/
def Yields (ignore : Bool) (x : Comp ε σ α) (a : α) : Prop := ∀ log, ∃ final, x ignore log = .ok (a, final)

/-- In the given mode `x` stops before it returns. -/
def Stops (ignore : Bool) (x : Comp ε σ α) : Prop := ∀ log, ∃ stop, x ignore log = .error stop

theorem Yields.pure {ignore : Bool} (a : α) : Yields ignore (pure a : Comp ε σ α) a := fun log => ⟨log, rfl⟩

/-- Results follow one another as the parts do. The log in between does not matter. -/
theorem Yields.bind {ignore : Bool} {x : Comp ε σ α} {f : α → Comp ε σ β} {a : α} {b : β} (hx : Yields ignore x a)
    (hf : Yields ignore (f a) b) : Yields ignore (x >>= f) b := by
  intro log
  obtain ⟨middle, hrun⟩ := hx log
  obtain ⟨final, hrest⟩ := hf middle
  exact ⟨final, bind_eq_ok_iff.mpr ⟨a, middle, hrun, hrest⟩⟩

/-- An assertion passes if it is true or failures are ignored. -/
theorem Yields.soft_assert {ignore : Bool} {condition : Prop} [Decidable condition] (h : condition ∨ ignore = true)
    (site : σ) : Yields ignore (soft_assert condition site : Comp ε σ Unit) () := by
  intro log
  by_cases hc : condition
  · rw [soft_assert_of_true hc]
    exact ⟨log, rfl⟩
  · rw [h.resolve_left hc]
    exact ⟨log ++ [site], by simp [Checked.soft_assert, hc]⟩

theorem Stops.fail {ignore : Bool} (cause : ε) : Stops ignore (fail cause : Comp ε σ α) :=
  fun _ => ⟨.fault cause, rfl⟩

/-- A false assertion aborts. -/
theorem Stops.soft_assert {condition : Prop} [Decidable condition] (h : ¬ condition) (site : σ) :
    Stops false (soft_assert condition site : Comp ε σ Unit) := by
  intro log
  exact ⟨.abort site, by simp [Checked.soft_assert, h]⟩

theorem Stops.bind_left {ignore : Bool} {x : Comp ε σ α} (h : Stops ignore x) (f : α → Comp ε σ β) :
    Stops ignore (x >>= f) := by
  intro log
  obtain ⟨stop, hrun⟩ := h log
  exact ⟨stop, by rw [run_bind, hrun]⟩

/-- The whole stops where its second part does, provided that the first part gets there. -/
theorem Stops.bind {ignore : Bool} {x : Comp ε σ α} {f : α → Comp ε σ β} {a : α} (hx : Yields ignore x a)
    (hf : Stops ignore (f a)) : Stops ignore (x >>= f) := by
  intro log
  obtain ⟨middle, hrun⟩ := hx log
  obtain ⟨stop, hrest⟩ := hf middle
  exact ⟨stop, by rw [run_bind, hrun]; exact hrest⟩

/-- A computation in which no assertion may fail does not stop early. -/
theorem Holds.not_stops {x : Comp ε σ α} {Q : α → Prop} (h : Holds (fun _ => False) x Q) (ignore : Bool) :
    ¬ Stops ignore x := by
  intro hstops
  obtain ⟨a, hrun, _⟩ := h.returns_silently ignore []
  obtain ⟨stop, herror⟩ := hstops []
  rw [hrun] at herror
  cases herror

/-- `a` is a result of `x` in one of the two modes. -/
def Returns (x : Comp ε σ α) (a : α) : Prop := ∃ ignore log final, x ignore log = .ok (a, final)

/-- The postcondition holds of a result in either mode. -/
theorem Holds.of_returns {A : σ → Prop} {x : Comp ε σ α} {Q : α → Prop} (h : Holds A x Q) {a : α}
    (hrun : Returns x a) : Q a := by
  obtain ⟨ignore, log, final, hok⟩ := hrun
  exact h.of_ok hok

/-- A computation with one possible result returns it when failures are ignored. -/
theorem Holds.returns_eq {A : σ → Prop} {x : Comp ε σ α} {a : α} (h : Holds A x fun b => b = a) : Returns x a := by
  obtain ⟨b, final, hrun, rfl⟩ := h.returns []
  exact ⟨true, [], final, hrun⟩

theorem returns_pure {a b : α} (h : Returns (pure a : Comp ε σ α) b) : b = a := by
  obtain ⟨ignore, log, final, hok⟩ := h
  cases hok
  rfl

theorem returns_of_eq_pure {x : Comp ε σ α} {a : α} (h : x = pure a) : Returns x a := ⟨true, [], [], by rw [h, run_pure]⟩

theorem not_returns_fail {cause : ε} {a : α} : ¬ Returns (fail cause : Comp ε σ α) a := by
  rintro ⟨ignore, log, final, hok⟩
  cases hok

/-- A result of a sequence comes from results of its parts. -/
theorem returns_bind {x : Comp ε σ α} {f : α → Comp ε σ β} {b : β} (h : Returns (x >>= f) b) :
    ∃ a, Returns x a ∧ Returns (f a) b := by
  obtain ⟨ignore, log, final, hok⟩ := h
  obtain ⟨a, middle, hx, hf⟩ := bind_eq_ok_iff.mp hok
  exact ⟨a, ⟨ignore, log, middle, hx⟩, ignore, middle, final, hf⟩

/-- What follows a computation matters only for its results. -/
theorem bind_congr_of_returns {x : Comp ε σ α} {f g : α → Comp ε σ β} (h : ∀ a, Returns x a → f a = g a) :
    x >>= f = x >>= g := by
  funext ignore log
  simp only [run_bind]
  cases hx : x ignore log with
  | error stop => rfl
  | ok result => exact congrFun (congrFun (h result.1 ⟨ignore, log, result.2, hx⟩) ignore) result.2

/-- The invariant rule for a loop over the first numbers. -/
theorem returns_foldlM_range {I : Nat → β → Prop} {f : β → Nat → Comp ε σ β} {n : Nat} {b c : β} (hb : I 0 b)
    (hstep : ∀ i, i < n → ∀ a d, I i a → Returns (f a i) d → I (i + 1) d)
    (h : Returns ((List.range n).foldlM f b) c) : I n c := by
  induction n generalizing c with
  | zero =>
    rw [returns_pure h]
    exact hb
  | succ n ih =>
    rw [List.range_succ, List.foldlM_append] at h
    obtain ⟨a, ha, hc⟩ := returns_bind h
    obtain ⟨d, hd, hpure⟩ := returns_bind hc
    rw [returns_pure hpure]
    exact hstep n (Nat.lt_succ_self n) a d (ih (fun i hi => hstep i (Nat.lt_succ_of_lt hi)) ha) hd

/-- `x` does not stop for the given cause. -/
def Avoids (cause : ε) (x : Comp ε σ α) : Prop := ∀ ignore log, x ignore log ≠ .error (.fault cause)

theorem Avoids.pure {cause : ε} (a : α) : Avoids cause (pure a : Comp ε σ α) := by
  intro ignore log
  rw [run_pure]
  exact nofun

theorem Avoids.fail {cause other : ε} (h : other ≠ cause) : Avoids cause (fail other : Comp ε σ α) := by
  intro ignore log heq
  cases heq
  exact h rfl

/-- Only the results that the first part really has matter for what the second part does. -/
theorem Avoids.bind {cause : ε} {x : Comp ε σ α} {f : α → Comp ε σ β} (hx : Avoids cause x)
    (hf : ∀ a, Returns x a → Avoids cause (f a)) : Avoids cause (x >>= f) := by
  intro ignore log
  rw [run_bind]
  cases hrun : x ignore log with
  | error stop =>
    dsimp only
    intro heq
    cases heq
    exact hx ignore log hrun
  | ok result => exact hf result.1 ⟨ignore, log, result.2, hrun⟩ ignore result.2

/-- The rule of a loop for a single cause. The invariant is needed only to say that the body
avoids the cause in each round. -/
theorem Avoids.foldlM_range {cause : ε} {I : Nat → β → Prop} {f : β → Nat → Comp ε σ β} {n : Nat} {b : β} (hb : I 0 b)
    (hstep : ∀ i, i < n → ∀ a d, I i a → Returns (f a i) d → I (i + 1) d)
    (havoids : ∀ i, i < n → ∀ a, I i a → Avoids cause (f a i)) : Avoids cause ((List.range n).foldlM f b) := by
  induction n with
  | zero => exact .pure b
  | succ n ih =>
    rw [List.range_succ, List.foldlM_append]
    have hbefore := fun i (hi : i < n) => hstep i (Nat.lt_succ_of_lt hi)
    refine (ih hbefore fun i hi => havoids i (Nat.lt_succ_of_lt hi)).bind fun a ha => ?_
    refine (havoids n (Nat.lt_succ_self n) a ?_).bind fun d _ => .pure d
    exact returns_foldlM_range hb hbefore ha

section Guarded

variable {A B : σ → Prop} {P P' : Prop} {x : Comp ε σ α} {f : α → Comp ε σ β} {Q R : α → Prop} {T : β → Prop}

/-- `x` comes to an end when failures are ignored, but has then logged a site of `B`. -/
def Logs (B : σ → Prop) (x : Comp ε σ α) : Prop :=
  ∀ log, ∃ a failed, x true log = .ok (a, log ++ failed) ∧ ∃ site ∈ failed, B site

/-- Nothing is lost from the log behind a part that has logged a site. -/
theorem Logs.bind_left (hx : Logs B x) (hholds : Holds A x R) (hf : ∀ a, R a → Holds A (f a) T) : Logs B (x >>= f) := by
  intro log
  obtain ⟨a, failed, hrun, site, hsite, hb⟩ := hx log
  have ha := hholds true log
  rw [hrun] at ha
  have hrest := hf a ha.1 true (log ++ failed)
  rw [run_bind, hrun]
  dsimp only
  cases hlast : f a true (log ++ failed) with
  | error stop =>
    rw [hlast] at hrest
    cases stop with
    | abort site => simp at hrest
    | fault cause => exact hrest.elim
  | ok result =>
    obtain ⟨b, final⟩ := result
    rw [hlast] at hrest
    obtain ⟨_, more, rfl, _⟩ := hrest
    exact ⟨b, failed ++ more, by rw [List.append_assoc], site, List.mem_append_left _ hsite, hb⟩

/-- A site of the second part is logged by the whole if the first part comes to an end with what
the second part needs. -/
theorem Logs.bind (hx : Holds A x R) (hf : ∀ a, R a → Logs B (f a)) : Logs B (x >>= f) := by
  intro log
  have hstart := hx true log
  obtain ⟨a, final, hrun, ha⟩ := hx.returns log
  rw [hrun] at hstart
  obtain ⟨_, failed, rfl, _⟩ := hstart
  obtain ⟨b, more, hrest, site, hsite, hb⟩ := hf a ha (log ++ failed)
  refine ⟨b, failed ++ more, ?_, site, List.mem_append_right _ hsite, hb⟩
  rw [run_bind, hrun, ← List.append_assoc]
  exact hrest

/-- `x` meets `Q` and logs sites of `A` only, and `P` is the exact condition under which it
logs none of `B`. -/
structure Guarded (P : Prop) (A B : σ → Prop) (x : Comp ε σ α) (Q : α → Prop) : Prop where
  holds : Holds A x Q
  silent : P → Holds (fun site => A site ∧ ¬ B site) x Q
  logs : ¬ P → Logs B x

/-- A specification that allows no site of `B` to fail says that the condition is always met. -/
theorem Holds.guarded (h : Holds (fun site => A site ∧ ¬ B site) x Q) : Guarded True A B x Q :=
  ⟨h.mono (fun _ hsite => hsite.1) fun _ ha => ha, fun _ => h, fun hfalse => absurd trivial hfalse⟩

namespace Guarded

/-- A value that is there and is right, whatever the condition was. -/
theorem pure {a : α} (hp : P) (ha : Q a) : Guarded P A B (pure a : Comp ε σ α) Q :=
  ⟨Holds.pure ha, fun _ => Holds.pure ha, fun hnot => absurd hp hnot⟩

/-- What is noted has to be a site of both. -/
theorem note {p : Prop} [Decidable p] {site : σ} (hA : A site) (hB : B site) :
    Guarded p A B (note p site : Comp ε σ Unit) fun _ => True := by
  refine ⟨fun ignore log => ?_, fun hp => ?_, fun hp log => ?_⟩
  · by_cases hp : p
    · rw [note_of_true hp]
      exact ⟨trivial, [], by simp, by simp⟩
    · simpa [Checked.note, hp] using hA
  · rw [note_of_true hp]
    exact Holds.pure trivial
  · exact ⟨(), [site], by simp [Checked.note, hp], site, List.mem_singleton.mpr rfl, hB⟩

/-- The condition may be exchanged for an equivalent one, which is how exact conditions of parts
are brought into the form of the whole. -/
theorem congr (h : Guarded P A B x Q) (hiff : P ↔ P') : Guarded P' A B x Q :=
  ⟨h.holds, fun hp => h.silent (hiff.mpr hp), fun hp => h.logs fun hold => hp (hiff.mp hold)⟩

/-- Each part has a condition of its own. -/
theorem bind (hx : Guarded P A B x R) (hf : ∀ a, R a → Guarded P' A B (f a) T) : Guarded (P ∧ P') A B (x >>= f) T where
  holds := hx.holds.bind fun a ha => (hf a ha).holds
  silent := fun ⟨hp, hp'⟩ => (hx.silent hp).bind fun a ha => (hf a ha).silent hp'
  logs := by
    intro hnot
    by_cases hp : P
    · exact Logs.bind hx.holds fun a ha => (hf a ha).logs fun hp' => hnot ⟨hp, hp'⟩
    · exact (hx.logs hp).bind_left hx.holds fun a ha => (hf a ha).holds

/-- A first part that never logs a site of `B`. -/
theorem bind_holds (hx : Holds (fun site => A site ∧ ¬ B site) x R) (hf : ∀ a, R a → Guarded P A B (f a) T) :
    Guarded P A B (x >>= f) T :=
  (hx.guarded.bind hf).congr (iff_of_eq (true_and P))

end Guarded

end Guarded

end Checked
