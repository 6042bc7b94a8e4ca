import AflnetLegion.State.Novelty
import AflnetLegion.Lib.Decimal

/-! The names of state sequences, which are part of file names. -/

namespace aflnet

open Decimal

/-- The size of the buffer for the name of one state, with its NUL. -/
def STATE_STR_LEN : Nat := 12

/-- What `snprintf` leaves of a text in a buffer of `size` bytes: one byte is for the NUL. -/
def snprintf (size : Nat) (text : List UInt8) : List UInt8 := text.take (size - 1)

/-- The piece of a state in front of others, `%d-`. -/
def dashed (state : UInt32) : List UInt8 := snprintf STATE_STR_LEN (int32 state ++ [45])

/-- The text `end-at-` and the last state of the sequence, which stand for all states that are
left out. -/
def end_at (last : UInt32) : List UInt8 :=
  snprintf STATE_STR_LEN [101, 110, 100, 45, 97, 116, 45] ++ snprintf STATE_STR_LEN (int32 last)

/-- The loop over the states; `earlier` and `previous` are the two before the current one. A
third equal state in a row is left out, also when it is the last one. -/
def name_states (last : UInt32) : Option UInt32 → Option UInt32 → List UInt32 → List UInt8 → List UInt8
  | _, _, [], out => out
  | earlier, previous, state :: stateSequence, out =>
    if previous = some state ∧ earlier = some state then name_states last previous (some state) stateSequence out
    else
      let out := out ++ if stateSequence = [] then snprintf STATE_STR_LEN (int32 state) else dashed state
      -- the length of a file name is limited
      if 150 < out.length ∧ stateSequence ≠ [] then out ++ end_at last
      else name_states last previous (some state) stateSequence out

/-- The name of a sequence for the file of an entry. Without states the pointer stays NULL. -/
def state_sequence_to_string (stateSequence : List UInt32) : Option (List UInt8) :=
  stateSequence.getLast?.map fun last => name_states last none none stateSequence []

/-- The name is that of the trimmed sequence, and a name that is not shortened
shows its codes, joined by single dashes. -/
def WellNamed (stateSequence : List UInt32) : Prop :=
  state_sequence_to_string stateSequence = state_sequence_to_string (trimmed_state_sequence stateSequence) ∧
    ∀ out, state_sequence_to_string stateSequence = some out → out.length ≤ 150 →
      out = joined [45] (trimmed_state_sequence stateSequence)

/-- The characters of the states that are kept, without the last one. -/
def len_before_last (stateSequence : List UInt32) : Nat :=
  ((trimmed_state_sequence stateSequence).dropLast.flatMap dashed).length

/-- The characters of the last state. -/
def len_last (stateSequence : List UInt32) : Nat :=
  (stateSequence.getLast?.elim [] int32).length

section Trimming

variable {earlier previous : Option UInt32} {state : UInt32} {front rest stateSequence : List UInt32}

/-- The two states before the current one, after the states of a list. They decide whether a
third equal one is left out. -/
def two_before (earlier previous : Option UInt32) : List UInt32 → Option UInt32 × Option UInt32
  | [] => (earlier, previous)
  | state :: stateSequence => two_before previous (some state) stateSequence

theorem two_before_append : two_before earlier previous (front ++ rest) =
    two_before (two_before earlier previous front).1 (two_before earlier previous front).2 rest := by
  induction front generalizing earlier previous with
  | nil => rfl
  | cons state front ih => exact ih

/-- Trimming goes on behind a first part with the two states before it. -/
theorem trim_loops_append : trim_loops earlier previous (front ++ rest) = trim_loops earlier previous front ++
    trim_loops (two_before earlier previous front).1 (two_before earlier previous front).2 rest := by
  induction front generalizing earlier previous with
  | nil => rfl
  | cons state front ih =>
    rw [List.cons_append, trim_loops, trim_loops, ih]
    split
    · rfl
    · rfl

/-- A state that is left out changes neither of the two states before the next one. -/
theorem two_before_trim_loops :
    two_before earlier previous (trim_loops earlier previous stateSequence) = two_before earlier previous stateSequence := by
  induction stateSequence generalizing earlier previous with
  | nil => rfl
  | cons state stateSequence ih =>
    rw [trim_loops]
    split
    · next hskip =>
      obtain ⟨rfl, rfl⟩ := hskip
      exact ih
    · exact ih

@[simp] theorem trim_loops_trim_loops :
    trim_loops earlier previous (trim_loops earlier previous stateSequence) = trim_loops earlier previous stateSequence := by
  induction stateSequence generalizing earlier previous with
  | nil => rfl
  | cons state stateSequence ih =>
    rw [trim_loops]
    split
    · next hskip =>
      obtain ⟨rfl, rfl⟩ := hskip
      exact ih
    · next hkeep => rw [trim_loops, if_neg hkeep, ih]

theorem mem_trim_loops_or (h : state ∈ stateSequence) :
    state ∈ trim_loops earlier previous stateSequence ∨ previous = some state := by
  induction stateSequence generalizing earlier previous with
  | nil => simp at h
  | cons next stateSequence ih =>
    rw [trim_loops]
    cases List.mem_cons.mp h with
    | inl hstate =>
      subst hstate
      split
      · next hskip => exact Or.inr hskip.1
      · simp
    | inr hrest =>
      split
      · next hskip =>
        obtain ⟨rfl, -⟩ := hskip
        exact ih hrest
      · have hkept : state ∈ trim_loops previous (some next) stateSequence ∨ some next = some state := ih hrest
        cases hkept with
        | inl hmem => exact Or.inl (List.mem_cons_of_mem next hmem)
        | inr hnext =>
          simp only [Option.some.injEq] at hnext
          simp [hnext]

theorem mem_trimmed_iff : state ∈ trimmed_state_sequence stateSequence ↔ state ∈ stateSequence := by
  constructor
  · exact fun h => (trim_loops_sublist none none stateSequence).subset h
  · intro h
    have hkept : state ∈ trim_loops none none stateSequence ∨ none = some state := mem_trim_loops_or h
    simpa [trimmed_state_sequence] using hkept

/-- The state has come twice already at the end of the list. -/
def ComesTwice (front : List UInt32) (state : UInt32) : Prop := two_before none none front = (some state, some state)

theorem comes_twice_iff : ComesTwice front state ↔ [state, state] <:+ front := by
  rcases List.eq_nil_or_concat' front with rfl | ⟨front, next, rfl⟩
  · simp [ComesTwice, two_before]
  · rcases List.eq_nil_or_concat' front with rfl | ⟨front, after, rfl⟩
    · have hshort : ¬[state, state] <:+ [next] := fun h => by simpa using h.length_le
      simp [ComesTwice, two_before, hshort]
    · rw [ComesTwice, two_before_append, two_before_append, List.append_assoc]
      simp only [two_before, Prod.mk.injEq, Option.some.injEq]
      constructor
      · rintro ⟨rfl, rfl⟩
        exact List.suffix_append front _
      · rintro ⟨other, heq⟩
        obtain ⟨-, hends⟩ := List.append_inj' heq rfl
        simp only [List.cons_append, List.nil_append, List.cons.injEq, and_true] at hends
        exact ⟨hends.1.symm, hends.2.symm⟩

theorem trim_loops_singleton : trim_loops earlier previous [state] =
    if previous = some state ∧ earlier = some state then [] else [state] := by
  rw [trim_loops, trim_loops]

theorem trimmed_of_comes_twice (h : ComesTwice front state) :
    trimmed_state_sequence (front ++ [state]) = trimmed_state_sequence front := by
  rw [trimmed_state_sequence, trim_loops_append, h, trim_loops_singleton]
  simp [trimmed_state_sequence]

theorem trimmed_of_not_comes_twice (h : ¬ComesTwice front state) :
    trimmed_state_sequence (front ++ [state]) = trimmed_state_sequence front ++ [state] := by
  rw [trimmed_state_sequence, trim_loops_append, trim_loops_singleton, if_neg]
  · rfl
  · rintro ⟨hprevious, hearlier⟩
    exact h (Prod.ext hearlier hprevious)

/-- Whether a state has come twice can be read from the trimmed list. -/
theorem comes_twice_trimmed_iff : ComesTwice (trimmed_state_sequence front) state ↔ ComesTwice front state := by
  rw [ComesTwice, ComesTwice, trimmed_state_sequence, two_before_trim_loops]

/-- Of a sequence that nothing is left out of every part is kept. -/
theorem kept_of_trimmed_concat (h : trimmed_state_sequence (front ++ [state]) = front ++ [state]) :
    trimmed_state_sequence front = front ∧ ¬ComesTwice front state := by
  have hlength := length_trim_loops_le none none front
  by_cases htwice : ComesTwice front state
  · rw [trimmed_of_comes_twice htwice] at h
    rw [← trimmed_state_sequence, h, List.length_append, List.length_singleton] at hlength
    omega
  · rw [trimmed_of_not_comes_twice htwice] at h
    exact ⟨List.append_cancel_right h, htwice⟩

/-- What is kept of a sequence ends in its last state. -/
theorem trimmed_eq_concat (front : List UInt32) (state : UInt32) :
    ∃ kept, trimmed_state_sequence (front ++ [state]) = kept ++ [state] := by
  by_cases h : ComesTwice front state
  · obtain ⟨kept, hkept⟩ := comes_twice_iff.mp (comes_twice_trimmed_iff.mpr h)
    exact ⟨kept ++ [state], by simp [trimmed_of_comes_twice h, ← hkept]⟩
  · exact ⟨_, trimmed_of_not_comes_twice h⟩

end Trimming

section Texts

variable {earlier previous : Option UInt32} {last state : UInt32} {front rest kept : List UInt32} {out : List UInt8}

/-- The name of kept states up to where it is cut off, with the last state of the sequence
behind it. -/
def cut_off (last : UInt32) : List UInt32 → List UInt8 → List UInt8
  | [], out => out
  | state :: kept, out =>
    if 150 < (out ++ dashed state).length then out ++ dashed state ++ end_at last
    else cut_off last kept (out ++ dashed state)

theorem name_states_skip (h : previous = some state ∧ earlier = some state) :
    name_states last earlier previous (state :: rest) out = name_states last previous (some state) rest out := by
  rw [name_states, if_pos h]

/-- A state that is kept adds its piece, and the name is cut off if it gets too long. -/
theorem name_states_keep (hkeep : ¬(previous = some state ∧ earlier = some state)) (hne : rest ≠ []) :
    name_states last earlier previous (state :: rest) out =
      if 150 < (out ++ dashed state).length then out ++ dashed state ++ end_at last
      else name_states last previous (some state) rest (out ++ dashed state) := by
  rw [name_states, if_neg hkeep]
  simp [hne]

/-- As long as the name is short the kept states are written with their dashes. -/
theorem name_states_short (hne : rest ≠ [])
    (hshort : (out ++ (trim_loops earlier previous front).flatMap dashed).length ≤ 150) :
    name_states last earlier previous (front ++ rest) out =
      name_states last (two_before earlier previous front).1 (two_before earlier previous front).2 rest
        (out ++ (trim_loops earlier previous front).flatMap dashed) := by
  induction front generalizing earlier previous out with
  | nil => simp [two_before, trim_loops]
  | cons state front ih =>
    rw [trim_loops] at hshort ⊢
    rw [List.cons_append, two_before]
    split at hshort
    · next hskip =>
      rw [name_states_skip hskip, if_pos hskip]
      exact ih hshort
    · next hkeep =>
      rw [List.flatMap_cons, ← List.append_assoc] at hshort
      have hstate : ¬150 < (out ++ dashed state).length := by
        rw [List.length_append] at hshort
        omega
      rw [name_states_keep hkeep (by simp [hne]), if_neg hstate, if_neg hkeep, ih hshort, List.flatMap_cons,
        List.append_assoc]

/-- A long name is cut off, and how depends on the kept states only. -/
theorem name_states_long (hne : rest ≠ []) (hout : out.length ≤ 150)
    (hlong : 150 < (out ++ (trim_loops earlier previous front).flatMap dashed).length) :
    name_states last earlier previous (front ++ rest) out = cut_off last (trim_loops earlier previous front) out := by
  induction front generalizing earlier previous out with
  | nil =>
    simp [trim_loops] at hlong
    omega
  | cons state front ih =>
    rw [trim_loops] at hlong ⊢
    rw [List.cons_append]
    split at hlong
    · next hskip =>
      rw [name_states_skip hskip, if_pos hskip]
      exact ih hout hlong
    · next hkeep =>
      rw [List.flatMap_cons, ← List.append_assoc] at hlong
      rw [name_states_keep hkeep (by simp [hne]), if_neg hkeep, cut_off]
      split
      · rfl
      · next hstate => exact ih (Nat.le_of_not_lt hstate) hlong

/-- States behind the cut do not count. -/
theorem cut_off_long (hout : out.length ≤ 150) (hlong : 150 < (out ++ kept.flatMap dashed).length) :
    150 < (cut_off last kept out).length ∧ ∀ more, cut_off last (kept ++ more) out = cut_off last kept out := by
  induction kept generalizing out with
  | nil =>
    simp at hlong
    omega
  | cons state kept ih =>
    rw [List.flatMap_cons, ← List.append_assoc] at hlong
    simp only [List.cons_append, cut_off]
    split
    · next hstate =>
      rw [List.length_append]
      exact ⟨by omega, fun _ => rfl⟩
    · next hstate => exact ih (Nat.le_of_not_lt hstate) hlong

theorem cut_off_concat (hshort : (out ++ kept.flatMap dashed).length ≤ 150)
    (hlong : 150 < (out ++ (kept ++ [state]).flatMap dashed).length) :
    cut_off last (kept ++ [state]) out = out ++ (kept ++ [state]).flatMap dashed ++ end_at last := by
  induction kept generalizing out with
  | nil =>
    simp at hlong ⊢
    rw [cut_off, if_pos (by simpa using hlong), List.append_assoc]
  | cons next kept ih =>
    rw [List.flatMap_cons, ← List.append_assoc] at hshort
    rw [List.cons_append, List.flatMap_cons, ← List.append_assoc] at hlong ⊢
    rw [cut_off, if_neg, ih hshort hlong]
    rw [List.length_append] at hshort
    omega

/-- The buffer has room for every state, with its sign. -/
theorem snprintf_int32 (state : UInt32) : snprintf STATE_STR_LEN (int32 state) = int32 state :=
  List.take_of_length_le (length_int32_le state)

theorem to_string_concat (front : List UInt32) (state : UInt32) :
    state_sequence_to_string (front ++ [state]) = some (name_states state none none (front ++ [state]) []) := by
  rw [state_sequence_to_string, List.getLast?_concat, Option.map_some]

theorem to_string_long (hlong : 150 < ((trimmed_state_sequence front).flatMap dashed).length) :
    state_sequence_to_string (front ++ [state]) = some (cut_off state (trimmed_state_sequence front) []) := by
  rw [to_string_concat, name_states_long (by simp) (by simp) hlong]
  rfl

theorem to_string_of_not_comes_twice (hshort : ((trimmed_state_sequence front).flatMap dashed).length ≤ 150)
    (h : ¬ComesTwice front state) :
    state_sequence_to_string (front ++ [state]) =
      some ((trimmed_state_sequence front).flatMap dashed ++ int32 state) := by
  have hkeep : ¬((two_before none none front).2 = some state ∧ (two_before none none front).1 = some state) :=
    fun htwice => h (Prod.ext htwice.2 htwice.1)
  rw [to_string_concat, name_states_short (by simp) hshort, name_states, if_neg hkeep]
  simp [snprintf_int32, name_states, trimmed_state_sequence]

/-- The last state leaves its dash behind when it is skipped itself. -/
theorem to_string_of_comes_twice (hshort : ((trimmed_state_sequence front).flatMap dashed).length ≤ 150)
    (h : ComesTwice front state) :
    state_sequence_to_string (front ++ [state]) = some ((trimmed_state_sequence front).flatMap dashed) := by
  rw [to_string_concat, name_states_short (by simp) hshort, h, name_states_skip ⟨rfl, rfl⟩, name_states]
  rfl

/-- A state with its dash, which is lost if the state takes all of the buffer. -/
theorem dashed_eq_append (state : UInt32) : dashed state = int32 state ++ [45].take (11 - (int32 state).length) := by
  change (int32 state ++ [45]).take 11 = _
  rw [List.take_append, List.take_of_length_le (length_int32_le state)]

theorem length_le_length_dashed (state : UInt32) : (int32 state).length ≤ (dashed state).length := by
  simp [dashed_eq_append]

theorem dashed_of_lt (h : state.toNat < 2147483648) : dashed state = Decimal.text state.toNat ++ [45] := by
  have hlength := length_int32_le_of_lt h
  rw [dashed_eq_append, int32_of_lt h] at *
  rw [List.take_of_length_le]
  rw [List.length_singleton]
  omega

/-- The pieces are the codes unless one of these is printed with a sign. -/
theorem pieces_eq_joined_iff : kept.flatMap dashed ++ int32 state = joined [45] (kept ++ [state]) ↔
    ∀ code ∈ kept ++ [state], code.toNat < 2147483648 := by
  induction kept with
  | nil =>
    simp only [List.flatMap_nil, List.nil_append, joined_singleton, List.mem_singleton, forall_eq]
    constructor
    · intro h
      have htext : int32 state ++ [] = Decimal.text state.toNat ++ [] := by simpa using h
      exact lt_of_text_eq_int32 htext
    · exact int32_of_lt
  | cons next kept ih =>
    rw [List.cons_append, joined_cons (by simp), List.flatMap_cons, List.forall_mem_cons, ← ih]
    constructor
    · intro h
      have hnext : next.toNat < 2147483648 := by
        rw [dashed_eq_append] at h
        simp only [List.append_assoc] at h
        exact lt_of_text_eq_int32 h
      rw [dashed_of_lt hnext] at h
      exact ⟨hnext, by simpa using h⟩
    · rintro ⟨hnext, hrest⟩
      rw [dashed_of_lt hnext, ← hrest]
      simp

end Texts

/-- The sequence ends with three equal states if the last one has come twice already. -/
theorem ends_in_three_iff {front : List UInt32} {state : UInt32} :
    (∃ last, [last, last, last] <:+ front ++ [state]) ↔ ComesTwice front state := by
  rw [comes_twice_iff]
  constructor
  · rintro ⟨last, other, heq⟩
    have hsplit : (other ++ [last, last]) ++ [last] = front ++ [state] := by simpa using heq
    obtain ⟨rfl, hlast⟩ := List.append_inj' hsplit rfl
    simp only [List.cons.injEq, and_true] at hlast
    subst hlast
    exact List.suffix_append other _
  · rintro ⟨other, rfl⟩
    exact ⟨state, other, by simp⟩

section Concat

variable {front kept : List UInt32} {state : UInt32}

/-- The characters before the last state, in terms of what is kept. -/
theorem len_before_last_of_trimmed (hkept : trimmed_state_sequence (front ++ [state]) = kept ++ [state]) :
    len_before_last (front ++ [state]) = (kept.flatMap dashed).length := by
  rw [len_before_last, hkept, List.dropLast_concat]

theorem trimmed_trimmed (stateSequence : List UInt32) :
    trimmed_state_sequence (trimmed_state_sequence stateSequence) = trimmed_state_sequence stateSequence := by
  simp [trimmed_state_sequence]

/-- Cut off before the last state, the names of a sequence and of its trimmed one are the same. -/
theorem well_named_of_long (hkept : trimmed_state_sequence (front ++ [state]) = kept ++ [state])
    (hlong : 150 < (kept.flatMap dashed).length) : WellNamed (front ++ [state]) := by
  have hcut : 150 < (cut_off state kept []).length ∧ ∀ more, cut_off state (kept ++ more) [] = cut_off state kept [] :=
    cut_off_long (by simp) (by simpa using hlong)
  have hname : state_sequence_to_string (front ++ [state]) = some (cut_off state kept []) := by
    by_cases h : ComesTwice front state
    · rw [trimmed_of_comes_twice h] at hkept
      have hwhole : 150 < ((trimmed_state_sequence front).flatMap dashed).length := by
        rw [hkept, List.flatMap_append, List.length_append]
        omega
      rw [to_string_long hwhole, hkept, hcut.2]
    · rw [trimmed_of_not_comes_twice h] at hkept
      have hfront := List.append_cancel_right hkept
      rw [to_string_long (by rwa [hfront]), hfront]
  have htrimmed := trimmed_trimmed (front ++ [state])
  rw [hkept] at htrimmed
  obtain ⟨hself, -⟩ := kept_of_trimmed_concat htrimmed
  constructor
  · rw [hkept, hname, to_string_long (by rwa [hself]), hself]
  · intro out hout hlength
    rw [hname, Option.some.injEq] at hout
    have hcutlength := hcut.1
    rw [hout] at hcutlength
    omega

/-- A last state that is kept. -/
theorem well_named_iff_of_not_comes_twice (h : ¬ComesTwice front state)
    (hshort : ((trimmed_state_sequence front).flatMap dashed).length ≤ 150) :
    WellNamed (front ++ [state]) ↔ (∀ code ∈ front ++ [state], code.toNat < 2147483648) ∨
      150 < ((trimmed_state_sequence front).flatMap dashed).length + (int32 state).length := by
  have hname := to_string_of_not_comes_twice hshort h
  have htrimmed : state_sequence_to_string (trimmed_state_sequence (front ++ [state])) =
      state_sequence_to_string (front ++ [state]) := by
    have hself := trimmed_trimmed front
    rw [trimmed_of_not_comes_twice h, hname, to_string_of_not_comes_twice (by rwa [hself])
      (by rwa [comes_twice_trimmed_iff]), hself]
  have hcodes : (∀ code ∈ front ++ [state], code.toNat < 2147483648) ↔
      (trimmed_state_sequence front).flatMap dashed ++ int32 state =
        joined [45] (trimmed_state_sequence (front ++ [state])) := by
    rw [trimmed_of_not_comes_twice h, pieces_eq_joined_iff, ← trimmed_of_not_comes_twice h]
    simp only [mem_trimmed_iff]
  rw [hcodes, WellNamed, htrimmed, hname]
  simp only [Option.some.injEq, forall_eq', true_and, List.length_append]
  rw [or_iff_not_imp_right, Nat.not_lt]

/-- A last state that is skipped. -/
theorem not_well_named_of_comes_twice (hkept : trimmed_state_sequence (front ++ [state]) = kept ++ [state])
    (h : ComesTwice front state) (hshort : (kept.flatMap dashed).length ≤ 150) : ¬WellNamed (front ++ [state]) := by
  have htrimmed := trimmed_trimmed (front ++ [state])
  rw [hkept] at htrimmed
  obtain ⟨hself, hlast⟩ := kept_of_trimmed_concat htrimmed
  have hfront : trimmed_state_sequence front = kept ++ [state] := by rw [← hkept, trimmed_of_comes_twice h]
  rintro ⟨hsame, hshown⟩
  rw [hkept, to_string_of_not_comes_twice (by rwa [hself]) hlast, hself] at hsame
  by_cases hwhole : ((trimmed_state_sequence front).flatMap dashed).length ≤ 150
  · have hname := to_string_of_comes_twice hwhole h
    have hcodes := hshown _ hname hwhole
    rw [hname, Option.some.injEq] at hsame
    rw [hsame, hkept, pieces_eq_joined_iff] at hcodes
    have hcode := hcodes state (by simp)
    rw [hfront] at hsame
    simp [dashed_of_lt hcode, int32_of_lt hcode] at hsame
  · have hdashed := length_le_length_dashed state
    rw [to_string_long (Nat.lt_of_not_le hwhole), hfront,
      cut_off_concat (by simpa using hshort) (by simpa [hfront] using hwhole), Option.some.injEq] at hsame
    have hlength := congrArg List.length hsame
    simp only [List.flatMap_append, List.flatMap_singleton, List.nil_append, List.length_append] at hlength
    have hend : 0 < (end_at state).length := by simp [end_at, snprintf, STATE_STR_LEN]
    omega

end Concat

/-- The name is right when it is cut off before the last state, or when the sequence does
not end in three equal states and no code is printed with a sign or the name is too long
to show the codes. -/
theorem well_named_iff (stateSequence : List UInt32) : WellNamed stateSequence ↔
    150 < len_before_last stateSequence ∨ (¬∃ state, [state, state, state] <:+ stateSequence) ∧
      ((∀ state ∈ stateSequence, state.toNat < 2147483648) ∨
        150 < len_before_last stateSequence + len_last stateSequence) := by
  rcases List.eq_nil_or_concat' stateSequence with rfl | ⟨front, state, rfl⟩
  · simp [WellNamed, state_sequence_to_string, trimmed_state_sequence, trim_loops]
  · obtain ⟨kept, hkept⟩ := trimmed_eq_concat front state
    have hlast : len_last (front ++ [state]) = (int32 state).length := by simp [len_last]
    rw [len_before_last_of_trimmed hkept, ends_in_three_iff, hlast]
    by_cases hlong : 150 < (kept.flatMap dashed).length
    · exact iff_of_true (well_named_of_long hkept hlong) (Or.inl hlong)
    · have hshort : (kept.flatMap dashed).length ≤ 150 := Nat.le_of_not_lt hlong
      by_cases h : ComesTwice front state
      · apply iff_of_false (not_well_named_of_comes_twice hkept h hshort)
        rintro (hcontra | ⟨hcontra, -⟩)
        · exact hlong hcontra
        · exact hcontra h
      · rw [trimmed_of_not_comes_twice h] at hkept
        have hfront := List.append_cancel_right hkept
        subst hfront
        simp only [hlong, h, false_or, not_false_eq_true, true_and]
        exact well_named_iff_of_not_comes_twice h hshort

/-- A third equal state at the end leaves a dash there. -/
theorem third_state_leaves_dash : state_sequence_to_string [0, 220, 220, 220] = some [48, 45, 50, 50, 48, 45, 50, 50, 48, 45] ∧
    state_sequence_to_string [0, 220, 220] = some [48, 45, 50, 50, 48, 45, 50, 50, 48] ∧
    trimmed_state_sequence [0, 220, 220, 220] = [0, 220, 220] ∧ ¬WellNamed [0, 220, 220, 220] := by
  refine ⟨by decide, by decide, by decide, ?_⟩
  intro h
  exact absurd h.1 (by decide)

end aflnet
