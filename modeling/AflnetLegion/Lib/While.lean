import AflnetLegion.Lib.Loop

/-- A computation with the indices it reads, in the order of the reads. It is used where reads
of a buffer are counted that do not change the result. -/
structure Traced (ι α : Type) where
  value : α
  reads : List ι

namespace Traced

variable {ι α β : Type}

instance : Monad (Traced ι) where
  pure a := { value := a, reads := [] }
  bind x f := { value := (f x.value).value, reads := x.reads ++ (f x.value).reads }

/-- The element `a` is read at the index `i`. -/
def read (i : ι) (a : α) : Traced ι α := { value := a, reads := [i] }

@[simp] theorem value_pure (a : α) : (pure a : Traced ι α).value = a := rfl

@[simp] theorem reads_pure (a : α) : (pure a : Traced ι α).reads = [] := rfl

@[simp] theorem value_bind (x : Traced ι α) (f : α → Traced ι β) : (x >>= f).value = (f x.value).value := rfl

/-- The reads of a sequence: first those of its first part. -/
@[simp] theorem reads_bind (x : Traced ι α) (f : α → Traced ι β) : (x >>= f).reads = x.reads ++ (f x.value).reads := rfl

@[simp] theorem value_read (i : ι) (a : α) : (read i a).value = a := rfl

@[simp] theorem reads_read (i : ι) (a : α) : (read i a).reads = [i] := rfl

end Traced

/-- `while (more) body`, where the body may `break`. Nothing says that it ends, which is what
distinguishes it from `Loop`. -/
structure While (ι σ : Type) where
  more : σ → Bool
  body : σ → Traced ι (ForInStep σ)

namespace While

variable {ι σ : Type}

/-- The state after at most so many rounds. The loop need not end, so this is defined for any
number. -/
def after (loop : While ι σ) : Nat → σ → σ
  | 0, s => s
  | rounds + 1, s =>
    if loop.more s then
      match (loop.body s).value with
      | .done t => t
      | .yield t => loop.after rounds t
    else s

/-- The state is at the head of the loop at some time. A state that a `break` leaves is none of
these. -/
inductive Reaches (loop : While ι σ) : σ → σ → Prop where
  | refl (s : σ) : Reaches loop s s
  | next {s t u : σ} (hmore : loop.more s = true) (hbody : (loop.body s).value = .yield t) (h : Reaches loop t u) :
      Reaches loop s u

/-- The loop ends, in this state: its condition is false there, or a round has left the loop by
`break`. -/
inductive Ends (loop : While ι σ) : σ → σ → Prop where
  | stop {s : σ} (hstop : loop.more s = false) : Ends loop s s
  | last {s t : σ} (hmore : loop.more s = true) (hbody : (loop.body s).value = .done t) : Ends loop s t
  | next {s t u : σ} (hmore : loop.more s = true) (hbody : (loop.body s).value = .yield t) (h : Ends loop t u) :
      Ends loop s u

/-- What holds whenever a round begins. -/
def EveryRound (loop : While ι σ) (s : σ) (P : σ → Prop) : Prop := ∀ t, loop.Reaches s t → loop.more t = true → P t

/-- A loop that ends, as a measure shows. Only the values of the rounds count for it, and not
what they read. -/
def toLoop (loop : While ι σ) (measure : σ → Nat)
    (decreases : ∀ s t, loop.more s = true → (loop.body s).value = .yield t → measure t < measure s) : Loop σ where
  more := loop.more
  body := fun s => (loop.body s).value
  measure := measure
  decreases := decreases

variable {loop : While ι σ} {s t u : σ}

theorem Reaches.trans (h : loop.Reaches s t) (h' : loop.Reaches t u) : loop.Reaches s u := by
  induction h with
  | refl s => exact h'
  | next hmore hbody _ ih => exact .next hmore hbody (ih h')

/-- One more round at the end. The definition adds rounds at the front. -/
theorem Reaches.snoc (h : loop.Reaches s t) (hmore : loop.more t = true) (hbody : (loop.body t).value = .yield u) :
    loop.Reaches s u :=
  h.trans (.next hmore hbody (.refl u))

/-- A loop that ends from a state it reaches ends in the same way from where it began. -/
theorem Reaches.ends (h : loop.Reaches s t) (h' : loop.Ends t u) : loop.Ends s u := by
  induction h with
  | refl s => exact h'
  | next hmore hbody _ ih => exact .next hmore hbody (ih h')

/-- A loop without `break` ends in a state at its head. -/
theorem Ends.reaches (h : loop.Ends s t) (hbreak : ∀ s t, (loop.body s).value ≠ .done t) :
    loop.Reaches s t ∧ loop.more t = false := by
  induction h with
  | stop hstop => exact ⟨.refl _, hstop⟩
  | last _ hbody => exact absurd hbody (hbreak _ _)
  | next hmore hbody _ ih => exact ⟨.next hmore hbody ih.1, ih.2⟩

/-- The invariant rule. -/
theorem Reaches.rule {I : σ → Prop} (h : loop.Reaches s t) (hs : I s)
    (next : ∀ s t, I s → loop.more s = true → (loop.body s).value = .yield t → I t) : I t := by
  induction h with
  | refl s => exact hs
  | next hmore hbody _ ih => exact ih (next _ _ hs hmore hbody)

/-- The invariant rule, with what holds whenever a round begins. -/
theorem EveryRound.rule {I P : σ → Prop} (h : loop.EveryRound s P) (hs : I s)
    (next : ∀ t u, P t → I t → loop.more t = true → (loop.body t).value = .yield u → I u) (ht : loop.Reaches s t) : I t := by
  induction ht with
  | refl s => exact hs
  | next hmore hbody _ ih =>
    exact ih (fun v hv => h v (.next hmore hbody hv)) (next _ _ (h _ (.refl _) hmore) hs hmore hbody)

/-- Two states that the loop reaches follow one another. -/
theorem Reaches.total (h : loop.Reaches s t) (h' : loop.Reaches s u) : loop.Reaches t u ∨ loop.Reaches u t := by
  induction h with
  | refl s => exact Or.inl h'
  | next hmore hbody htail ih =>
    cases h' with
    | refl => exact Or.inr (.next hmore hbody htail)
    | next hmore' hbody' htail' =>
      cases hbody.symm.trans hbody'
      exact ih htail'

/-- A later state is the same one, or comes after the next one. -/
theorem Reaches.eq_or_next (h : loop.Reaches s u) (hbody : (loop.body s).value = .yield t) : u = s ∨ loop.Reaches t u := by
  cases h with
  | refl => exact Or.inl rfl
  | next hmore hbody' htail =>
    cases hbody.symm.trans hbody'
    exact Or.inr htail

/-- A loop ends if every round goes down in a well-founded order. -/
theorem ends_of_wellFounded {r : σ → σ → Prop} (hr : WellFounded r)
    (h : loop.EveryRound s fun t => ∀ u, (loop.body t).value = .yield u → r u t) : ∃ t, loop.Ends s t := by
  induction s using hr.induction with
  | h s ih =>
    cases hmore : loop.more s with
    | false => exact ⟨s, .stop hmore⟩
    | true =>
      cases hbody : (loop.body s).value with
      | done t => exact ⟨t, .last hmore hbody⟩
      | yield t =>
        obtain ⟨u, hends⟩ := ih t (h s (.refl s) hmore t hbody) fun v hv => h v (.next hmore hbody hv)
        exact ⟨u, .next hmore hbody hends⟩

/-- A loop ends if a measure goes down in every round. -/
theorem ends_of_measure (measure : σ → Nat)
    (h : loop.EveryRound s fun t => ∀ u, (loop.body t).value = .yield u → measure u < measure t) : ∃ t, loop.Ends s t :=
  ends_of_wellFounded (InvImage.wf measure Nat.lt_wfRel.wf) h

/-- A loop does not end that always goes on to a state of the same kind. -/
theorem not_ends {P : σ → Prop} (hP : P s) (h : ∀ s, P s → loop.more s = true ∧ ∃ t, (loop.body s).value = .yield t ∧ P t) :
    ¬ loop.Ends s t := by
  intro hends
  induction hends with
  | stop hstop =>
    rw [(h _ hP).1] at hstop
    cases hstop
  | last _ hbody =>
    obtain ⟨_, u, hu, _⟩ := h _ hP
    cases hbody.symm.trans hu
  | next _ hbody _ ih =>
    obtain ⟨_, u, hu, hPu⟩ := h _ hP
    cases hbody.symm.trans hu
    exact ih hPu

/-- A loop whose condition is false stays where it is for any number of rounds. -/
theorem after_of_stop (hstop : loop.more s = false) (rounds : Nat) : loop.after rounds s = s := by
  cases rounds with
  | zero => rfl
  | succ rounds => rw [While.after, hstop, if_neg Bool.false_ne_true]

/-- The state of a `break` is the final one, however many rounds are still allowed. -/
theorem after_of_break (hmore : loop.more s = true) (hbody : (loop.body s).value = .done t) (rounds : Nat) :
    loop.after (rounds + 1) s = t := by
  rw [While.after, hmore, if_pos rfl, hbody]

/-- A round that goes on takes one of the allowed rounds. -/
theorem after_of_yield (hmore : loop.more s = true) (hbody : (loop.body s).value = .yield t) (rounds : Nat) :
    loop.after (rounds + 1) s = loop.after rounds t := by
  rw [While.after, hmore, if_pos rfl, hbody]

/-- A state that is reached is that after some number of rounds, from which the count goes on.
-/
theorem Reaches.after (h : loop.Reaches s t) : ∃ rounds, ∀ more, loop.after (rounds + more) s = loop.after more t := by
  induction h with
  | refl s => exact ⟨0, fun more => by rw [Nat.zero_add]⟩
  | next hmore hbody _ ih =>
    obtain ⟨rounds, ih⟩ := ih
    refine ⟨rounds + 1, fun more => ?_⟩
    rw [Nat.add_right_comm, after_of_yield hmore hbody]
    exact ih more

/-- The invariant rule for the state after some rounds. -/
theorem after_rule {I : σ → Prop} (hs : I s)
    (next : ∀ s t, I s → loop.more s = true → (loop.body s).value = .done t ∨ (loop.body s).value = .yield t → I t)
    (rounds : Nat) : I (loop.after rounds s) := by
  induction rounds generalizing s with
  | zero => exact hs
  | succ rounds ih =>
    rw [While.after]
    split
    · rename_i hmore
      split
      · rename_i t hbody
        exact next s t hs hmore (Or.inl hbody)
      · rename_i t hbody
        exact ih (next s t hs hmore (Or.inr hbody))
    · exact hs

/-- Two loops whose rounds agree. -/
theorem after_congr (loop other : While ι σ)
    (h : loop.EveryRound s fun t => (other.body t).value = (loop.body t).value) (hmore : other.more = loop.more) (rounds : Nat) :
    other.after rounds s = loop.after rounds s := by
  induction rounds generalizing s with
  | zero => rfl
  | succ rounds ih =>
    rw [While.after, While.after, hmore]
    split
    · rename_i hgo
      rw [h s (.refl s) hgo]
      split
      · rfl
      · rename_i t hbody
        exact ih fun u hu => h u (.next hgo hbody hu)
    · rfl

end While
