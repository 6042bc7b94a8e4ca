import Mathlib.Data.List.Infix

/-- `while (more) body`, where the body may `break`, which is `ForInStep.done`. The
measure says why the loop ends. -/
structure Loop (σ : Type) where
  more : σ → Bool
  body : σ → ForInStep σ
  measure : σ → Nat
  decreases : ∀ s t, more s = true → body s = .yield t → measure t < measure s

namespace Loop

variable {σ : Type}

/-- At most `fuel` rounds, fewer if the loop ends before. -/
def iterate (loop : Loop σ) : Nat → σ → σ
  | 0, s => s
  | fuel + 1, s =>
    if loop.more s then
      match loop.body s with
      | .done t => t
      | .yield t => loop.iterate fuel t
    else s

/-- The state the loop ends in. -/
def exit (loop : Loop σ) (s : σ) : σ := loop.iterate (loop.measure s + 1) s

variable (loop : Loop σ)

/-- More rounds than the measure allows for change nothing: the fuel is not part of what the
loop does. -/
theorem iterate_eq {s : σ} {fuel : Nat} (h : loop.measure s < fuel) : loop.iterate fuel s = loop.exit s := by
  suffices ∀ fuel fuel' s, loop.measure s < fuel → loop.measure s < fuel' →
      loop.iterate fuel s = loop.iterate fuel' s from this _ _ s h (Nat.lt_succ_self _)
  clear h s fuel
  intro fuel
  induction fuel with
  | zero => exact fun _ _ hfalse => absurd hfalse (Nat.not_lt_zero _)
  | succ fuel ih =>
    intro fuel' s hlt hlt'
    cases fuel' with
    | zero => exact absurd hlt' (Nat.not_lt_zero _)
    | succ fuel' =>
      rw [iterate, iterate]
      split
      · rename_i hmore
        cases hbody : loop.body s with
        | done t => rfl
        | yield t =>
          have hdec := loop.decreases s t hmore hbody
          exact ih fuel' t (by omega) (by omega)
      · rfl

variable {loop} {s t : σ}

theorem exit_of_stop (h : loop.more s = false) : loop.exit s = s := by
  rw [exit, iterate, h, if_neg Bool.false_ne_true]

theorem exit_of_break (hmore : loop.more s = true) (hbody : loop.body s = .done t) : loop.exit s = t := by
  rw [exit, iterate, if_pos hmore]
  simp only [hbody]

/-- A round that goes on leaves the rest of the work to the loop from its state. -/
theorem exit_of_yield (hmore : loop.more s = true) (hbody : loop.body s = .yield t) : loop.exit s = loop.exit t := by
  rw [exit, iterate, if_pos hmore]
  simp only [hbody]
  exact loop.iterate_eq (loop.decreases s t hmore hbody)

/-- Induction along the rounds of the loop. -/
theorem rounds_induction {P : σ → Prop} (stop : ∀ s, loop.more s = false → P s)
    (last : ∀ s t, loop.more s = true → loop.body s = .done t → P s)
    (next : ∀ s t, loop.more s = true → loop.body s = .yield t → P t → P s) (s : σ) : P s := by
  induction hm : loop.measure s using Nat.strong_induction_on generalizing s with
  | h m ih =>
    cases hmore : loop.more s with
    | false => exact stop s hmore
    | true =>
      cases hbody : loop.body s with
      | done t => exact last s t hmore hbody
      | yield t => exact next s t hmore hbody (ih _ (hm ▸ loop.decreases s t hmore hbody) t rfl)

/-- The invariant rule. -/
theorem exit_rule {I Q : σ → Prop} (hs : I s) (stop : ∀ s, I s → loop.more s = false → Q s)
    (last : ∀ s t, I s → loop.more s = true → loop.body s = .done t → Q t)
    (next : ∀ s t, I s → loop.more s = true → loop.body s = .yield t → I t) : Q (loop.exit s) := by
  induction s using loop.rounds_induction with
  | stop s hmore =>
    rw [exit_of_stop hmore]
    exact stop s hs hmore
  | last s t hmore hbody =>
    rw [exit_of_break hmore hbody]
    exact last s t hs hmore hbody
  | next s t hmore hbody ih =>
    rw [exit_of_yield hmore hbody]
    exact ih (next s t hs hmore hbody)

section guarded

variable {I : σ → Prop} {more : σ → Bool} {body : σ → ForInStep σ} {measure : σ → Nat}

/-- A loop that need not end on states off the invariant `I`, which its body keeps. -/
def guarded (more : σ → Bool) (body : σ → ForInStep σ) (measure : σ → Nat)
    (keeps : ∀ s t, I s → body s = .done t ∨ body s = .yield t → I t)
    (decreases : ∀ s t, I s → more s = true → body s = .yield t → measure t < measure s) : Loop {s // I s} where
  more := fun s => more s.val
  body := fun s =>
    match hbody : body s.val with
    | .done t => .done ⟨t, keeps s.val t s.property (Or.inl hbody)⟩
    | .yield t => .yield ⟨t, keeps s.val t s.property (Or.inr hbody)⟩
  measure := fun s => measure s.val
  decreases := by
    intro s t hmore hbody
    split at hbody
    · cases hbody
    · rename_i hyield
      cases hbody
      exact decreases s.val _ s.property hmore hyield

variable {keeps : ∀ s t, I s → body s = .done t ∨ body s = .yield t → I t}
  {decreases : ∀ s t, I s → more s = true → body s = .yield t → measure t < measure s}

/-- The invariant rule, for a further invariant of the states. -/
theorem guarded_exit_rule {J Q : σ → Prop} {s : {s // I s}} (hs : J s.val) (stop : ∀ s, J s → more s = false → Q s)
    (last : ∀ s t, J s → more s = true → body s = .done t → Q t)
    (next : ∀ s t, J s → more s = true → body s = .yield t → J t) :
    Q ((guarded more body measure keeps decreases).exit s).val := by
  refine exit_rule (I := fun s : {s // I s} => J s.val) (Q := fun s => Q s.val) hs (fun s => stop s.val) ?_ ?_
  · intro s t hJ hmore hbody
    dsimp only [guarded] at hbody
    split at hbody
    · rename_i hdone
      cases hbody
      exact last s.val _ hJ hmore hdone
    · cases hbody
  · intro s t hJ hmore hbody
    dsimp only [guarded] at hbody
    split at hbody
    · cases hbody
    · rename_i hyield
      cases hbody
      exact next s.val _ hJ hmore hyield

end guarded

section output

variable {α : Type} {out : σ → List α}

/-- No round takes anything back from the output. -/
def Grows (loop : Loop σ) (out : σ → List α) : Prop :=
  ∀ s t, loop.more s = true → loop.body s = .done t ∨ loop.body s = .yield t → out s <+: out t

/-- What was put out before the loop is the start of what was put out in the end. -/
theorem Grows.exit (h : loop.Grows out) (s : σ) : out s <+: out (loop.exit s) := by
  refine exit_rule (I := fun t => out s <+: out t) List.prefix_rfl (fun t ht _ => ht) ?_ ?_
  · exact fun t u ht hmore hbody => ht.trans (h t u hmore (Or.inl hbody))
  · exact fun t u ht hmore hbody => ht.trans (h t u hmore (Or.inr hbody))

/-- A loop that does what a longer one does, up to a round after which it stops. -/
theorem exit_output_le {long : Loop σ} (hgrows : long.Grows out)
    (hmore : ∀ s, loop.more s = true → long.more s = true)
    (hbody : ∀ s, loop.more s = true → long.body s = loop.body s ∨
      ∃ t u, loop.body s = .yield t ∧ loop.more t = false ∧ long.body s = .yield u ∧ out t = out u) (s : σ) :
    out (loop.exit s) <+: out (long.exit s) := by
  induction s using loop.rounds_induction with
  | stop s hstop =>
    rw [exit_of_stop hstop]
    exact hgrows.exit s
  | last s t hs hlast =>
    rcases hbody s hs with hsame | ⟨u, _, hu, _⟩
    · rw [exit_of_break hs hlast, exit_of_break (hmore s hs) (hsame.trans hlast)]
    · rw [hlast] at hu
      cases hu
  | next s t hs hnext ih =>
    rw [exit_of_yield hs hnext]
    rcases hbody s hs with hsame | ⟨v, u, hv, hstop, hu, hout⟩
    · rw [exit_of_yield (hmore s hs) (hsame.trans hnext)]
      exact ih
    · rw [hnext] at hv
      cases hv
      rw [exit_of_stop hstop, exit_of_yield (hmore s hs) hu, hout]
      exact hgrows.exit u

end output

/-- A loop over the first numbers that does something in one round only. -/
theorem foldlM_range_single {m : Type → Type} [Monad m] [LawfulMonad m] {β : Type} {P : β → Prop} {f : β → Nat → m β}
    {b c : β} {k n : Nat} (hk : k < n) (hb : P b) (hc : P c) (hskip : ∀ i a, P a → i ≠ k → f a i = pure a)
    (hround : f b k = pure c) : (List.range n).foldlM f b = pure c := by
  suffices h : (List.range n).foldlM f b = pure (if k < n then c else b) by
    rw [h, if_pos hk]
  clear hk
  induction n with
  | zero => simp
  | succ n ih =>
    simp only [List.range_succ, List.foldlM_append, ih, pure_bind, List.foldlM_cons, List.foldlM_nil, bind_pure]
    rcases Nat.lt_trichotomy k n with hlt | rfl | hgt
    · rw [if_pos hlt, if_pos (Nat.lt_succ_of_lt hlt), hskip n c hc (Nat.ne_of_gt hlt)]
    · rw [if_neg (Nat.lt_irrefl _), if_pos (Nat.lt_succ_self _), hround]
    · rw [if_neg (Nat.not_lt_of_gt hgt), if_neg (by omega), hskip n b hb (Nat.ne_of_lt hgt)]

end Loop
