import AflnetLegion.Lib.Potential
import AflnetLegion.Tmin.Minimize

/-! The minimizer ends, and no byte of what it leaves can be deleted. -/

namespace aflnet.Tmin

/-- What every accepted change takes something off. -/
def weight (in_data : List UInt8) : Nat := in_data.length + in_data.countP (· ≠ 48)

variable {s t : Tmin} {pos len i : Nat}

theorem without_sublist (s : Tmin) (pos len : Nat) : (s.without pos len).Sublist s.in_data := by
  have htail : (s.in_data.drop (pos + len)).Sublist (s.in_data.drop pos) := by
    rw [← List.drop_drop]
    exact List.drop_sublist _ _
  have happend := (List.Sublist.refl (s.in_data.take pos)).append htail
  rwa [List.take_append_drop] at happend

theorem weight_without (hpos : pos < s.in_len) (hlen : 0 < len) : weight (s.without pos len) < weight s.in_data := by
  have hcount := (without_sublist s pos len).countP_le (p := (· ≠ 48))
  have hlength : (s.without pos len).length < s.in_data.length := by
    rw [in_len] at hpos
    simp [without]
    omega
  rw [weight, weight]
  omega

/-- A block and what is around it. -/
theorem in_data_eq (s : Tmin) (pos len : Nat) :
    s.in_data = s.in_data.take pos ++ s.block pos len ++ s.in_data.drop (pos + len) := by
  rw [block, List.append_assoc, ← List.drop_drop, List.take_append_drop, List.take_append_drop]

theorem length_zeroed (hfits : pos + len ≤ s.in_len) : (s.zeroed pos len).length = s.in_len := by
  rw [in_len] at hfits ⊢
  simp [zeroed]
  omega

/-- Setting a block to '0' takes weight unless all of it was '0' before, which the minimizer
checks. -/
theorem weight_zeroed (hfits : pos + len ≤ s.in_len) (hblock : (s.block pos len).all (· = 48) = false) :
    weight (s.zeroed pos len) < weight s.in_data := by
  have hcount : 0 < (s.block pos len).countP (· ≠ 48) := by
    simpa [List.countP_pos_iff] using hblock
  have hdata := congrArg (List.countP (· ≠ 48)) (in_data_eq s pos len)
  rw [weight, weight, length_zeroed hfits, in_len, hdata]
  simp only [zeroed, List.countP_append, List.countP_replicate]
  simp only [ne_eq, not_true_eq_false, decide_false, Bool.false_eq_true, if_false] at *
  omega

theorem weight_without_symbol (hi : i < 256) (hne : i ≠ 48) (hmem : UInt8.ofNat i ∈ s.in_data) :
    weight (s.without_symbol i) < weight s.in_data := by
  have hvalue : (UInt8.ofNat i).toNat = i := by
    rw [UInt8.toNat_ofNat']
    omega
  have hsymbol : UInt8.ofNat i ≠ 48 := by
    intro heq
    rw [heq] at hvalue
    exact hne hvalue.symm
  rw [weight, weight, without_symbol, List.length_map]
  apply Nat.add_lt_add_left
  apply Potential.countP_map_lt _ hmem
  · simpa using hsymbol
  · simp [hvalue]
  · intro c
    split
    · simp
    · exact id

theorem weight_set (hpos : pos < s.in_len) (hbyte : s.in_data.getD pos 0 ≠ 48) :
    weight (s.in_data.set pos 48) < weight s.in_data := by
  rw [in_len] at hpos
  have hget : s.in_data[pos]? = some (s.in_data.getD pos 0) := by
    simp [List.getD_eq_getElem?_getD, hpos]
  have hcount := Potential.countP_modify_of_drop (p := (· ≠ 48)) (f := fun _ => 48) hget (by simpa using hbyte) (by simp)
  rw [weight, weight, List.length_set, List.set_eq_modify]
  omega

/-- What the variables of a stage say about the data. The symbols counted are there as long as
they were not replaced, and the copy of the data is up to date. -/
def Stage.Coherent (in_data : List UInt8) : Stage → Prop
  | .normalize set_len _ => 0 < set_len
  | .delete del_len del_pos prev_del => 0 < del_len ∧ (prev_del = false → del_len ≤ del_pos)
  | .alphabet alpha_map i => ∀ j, i ≤ j → j < 256 → j ≠ 48 → alpha_map.getD j 0 ≠ 0 → UInt8.ofNat j ∈ in_data
  | .characters tmp_buf _ => tmp_buf = in_data
  | .finalize_all => True

section Run

variable (run_target : List UInt8 → Bool) (original : Nat)

/-- The input without one byte is rejected, for all bytes in front of a place. -/
def RejectedBelow (in_data : List UInt8) (bound : Nat) : Prop := ∀ pos < bound, run_target (in_data.eraseIdx pos) = false

/-- As long as a pass has changed nothing, the deletions that it tried are rejected. -/
def Stage.Minimal (in_data : List UInt8) (changed_any : Bool) : Stage → Prop
  | .normalize _ _ => True
  | .delete del_len del_pos _ => changed_any = false → del_len = 1 → RejectedBelow run_target in_data del_pos
  | .alphabet _ _ => changed_any = false → RejectedBelow run_target in_data in_data.length
  | .characters _ _ => changed_any = false → RejectedBelow run_target in_data in_data.length
  | .finalize_all => RejectedBelow run_target in_data in_data.length

/-- What holds in every state: the data are accepted and not longer than the input, and the
variables of the stage fit the data. -/
structure Invariant (s : Tmin) : Prop where
  accepted : run_target s.in_data = true
  bounded : s.in_len ≤ original
  coherent : s.stage.Coherent s.in_data
  minimal : s.stage.Minimal run_target s.in_data s.changed_any

end Run

/-- What is left of a stage: the stages after it, the size of the blocks and the rounds of
its loop. -/
def Stage.left (in_len : Nat) : Stage → Nat × Nat × Nat
  | .normalize _ set_pos => (4, 0, in_len - set_pos)
  | .delete del_len del_pos _ => (3, del_len, in_len - del_pos)
  | .alphabet _ i => (2, 0, 256 - i)
  | .characters _ i => (1, 0, in_len - i)
  | .finalize_all => (0, 0, 0)

/-- A new pass takes the note of a change, and a change takes weight. -/
def left (s : Tmin) : Nat × Nat × Nat × Nat := (2 * weight s.in_data + s.changed_any.toNat, s.stage.left s.in_len)

/-- The order of the stages: first the stage, then the size of its blocks, then the position. -/
abbrev StageLess : Nat × Nat × Nat → Nat × Nat × Nat → Prop := Prod.Lex (· < ·) (Prod.Lex (· < ·) (· < ·))

/-- The order in which every step goes down. -/
def Less (t s : Tmin) : Prop := Prod.Lex (· < ·) StageLess t.left s.left

theorem less_wellFounded : WellFounded Less :=
  InvImage.wf left (Prod.lex Nat.lt_wfRel (Prod.lex Nat.lt_wfRel (Prod.lex Nat.lt_wfRel Nat.lt_wfRel))).wf

/-- A step keeps the invariant and goes down in the order, so that there are only finitely many
of them. -/
structure Goes (run_target : List UInt8 → Bool) (original : Nat) (s t : Tmin) : Prop where
  invariant : Invariant run_target original t
  less : Less t s

variable {run_target : List UInt8 → Bool} {original : Nat}

/-- A step that leaves the data alone. -/
theorem goes_to (h : Invariant run_target original s) {stage : Stage} (hcoherent : stage.Coherent s.in_data)
    (hminimal : stage.Minimal run_target s.in_data s.changed_any)
    (hless : StageLess (stage.left s.in_len) (s.stage.left s.in_len)) : Goes run_target original s (s.go_to stage) where
  invariant := ⟨h.accepted, h.bounded, hcoherent, hminimal⟩
  less := Prod.Lex.right _ hless

/-- A step that changes the data, to something lighter that is accepted. -/
theorem goes_accept (h : Invariant run_target original s) {tmp_buf : List UInt8} {stage : Stage}
    (haccepted : run_target tmp_buf = true) (hlength : tmp_buf.length ≤ s.in_len) (hlighter : weight tmp_buf < weight s.in_data)
    (hcoherent : stage.Coherent tmp_buf) (hminimal : stage.Minimal run_target tmp_buf true) :
    Goes run_target original s ((s.accept tmp_buf).go_to stage) where
  invariant := ⟨haccepted, Nat.le_trans hlength h.bounded, hcoherent, hminimal⟩
  less := by
    apply Prod.Lex.left
    change 2 * weight tmp_buf + 1 < 2 * weight s.in_data + s.changed_any.toNat
    omega

/-- A new pass is begun only if the last one has changed something. -/
theorem goes_next_pass (h : Invariant run_target original s)
    (hless : s.changed_any = true ∨ 3 < (s.stage.left s.in_len).1) : Goes run_target original s s.next_pass where
  invariant := by
    refine ⟨h.accepted, h.bounded, ⟨?_, by simp⟩, ?_⟩
    · split <;> omega
    · intro _ _ pos hpos
      exact absurd hpos (Nat.not_lt_zero pos)
  less := by
    cases hless with
    | inl hchanged =>
      apply Prod.Lex.left
      change 2 * weight s.in_data + 0 < 2 * weight s.in_data + s.changed_any.toNat
      rw [hchanged]
      exact Nat.lt_succ_self _
    | inr hstage =>
      change Prod.Lex (· < ·) StageLess (2 * weight s.in_data + 0, _) (2 * weight s.in_data + s.changed_any.toNat, _)
      cases s.changed_any with
      | false => exact Prod.Lex.right _ (Prod.lex_def.mpr (Or.inl hstage))
      | true => exact Prod.Lex.left _ _ (Nat.lt_succ_self _)

theorem goes_normalize {set_len set_pos : Nat} (h : Invariant run_target original s) (hstage : s.stage = .normalize set_len set_pos) :
    Goes run_target original s (s.normalize run_target set_len set_pos) := by
  have hcoherent := h.coherent
  rw [hstage] at hcoherent
  rw [normalize]
  split
  · next hpos =>
    have hfits : set_pos + min set_len (s.in_len - set_pos) ≤ s.in_len := by omega
    have hround : StageLess ((Stage.normalize set_len (set_pos + set_len)).left s.in_len) (s.stage.left s.in_len) := by
      rw [hstage]
      have hpositive : 0 < set_len := hcoherent
      exact Prod.Lex.right _ (Prod.Lex.right _ (by omega))
    dsimp only
    split
    · exact goes_to h hcoherent trivial hround
    · next hblock =>
      split
      · next haccepted =>
        exact goes_accept h haccepted (Nat.le_of_eq (length_zeroed hfits))
          (weight_zeroed hfits (Bool.eq_false_iff.mpr hblock)) hcoherent trivial
      · exact goes_to h hcoherent trivial hround
  · exact goes_next_pass h (Or.inr (by rw [hstage]; exact Nat.lt_succ_self 3))

theorem without_one (s : Tmin) (pos : Nat) : s.without pos 1 = s.in_data.eraseIdx pos :=
  (List.eraseIdx_eq_take_drop_succ _ _).symm

/-- Of two equal bytes next to each other it does not matter which one is deleted. -/
theorem eraseIdx_of_block_eq (hpos : 0 < pos) (hlt : pos < s.in_len) (h : s.block (pos - 1) 1 = s.block pos 1) :
    s.in_data.eraseIdx pos = s.in_data.eraseIdx (pos - 1) := by
  obtain ⟨pos, rfl⟩ := Nat.exists_eq_succ_of_ne_zero (Nat.ne_of_gt hpos)
  rw [in_len] at hlt
  have hbefore : pos < s.in_data.length := Nat.lt_of_succ_lt hlt
  rw [block, block, Nat.succ_sub_one, List.drop_eq_getElem_cons hbefore, List.drop_eq_getElem_cons hlt] at h
  simp only [List.take_succ_cons, List.take_zero, List.cons.injEq, and_true] at h
  rw [List.eraseIdx_eq_take_drop_succ, List.eraseIdx_eq_take_drop_succ, Nat.succ_sub_one, List.drop_eq_getElem_cons hlt, ← h]
  rw [List.take_succ_eq_append_getElem hbefore, List.append_assoc, List.singleton_append]

theorem RejectedBelow.succ {in_data : List UInt8} (h : RejectedBelow run_target in_data pos)
    (hpos : run_target (in_data.eraseIdx pos) = false) : RejectedBelow run_target in_data (pos + 1) := by
  intro below hbelow
  by_cases heq : below = pos
  · rwa [heq]
  · exact h below (by omega)

/-- The loop over single bytes has tried all deletions. -/
theorem rejected_at_end {del_len del_pos : Nat} {in_data : List UInt8} {changed_any : Bool}
    (h : changed_any = false → del_len = 1 → RejectedBelow run_target in_data del_pos) (hlen : 0 < del_len)
    (hend : in_data.length ≤ del_pos) (hlast : ¬(1 < del_len ∧ 1 ≤ in_data.length)) :
    changed_any = false → RejectedBelow run_target in_data in_data.length := by
  intro hchanged pos hpos
  exact h hchanged (by omega) pos (by omega)

theorem mem_of_count_symbols {j : Nat} (hj : j < 256) (h : s.count_symbols.getD j 0 ≠ 0) : UInt8.ofNat j ∈ s.in_data := by
  apply List.count_pos_iff.mp
  apply Nat.pos_of_ne_zero
  simpa [count_symbols, List.getD_eq_getElem?_getD, hj] using h

/-- One deletion, tried or skipped. -/
theorem goes_delete_block {del_len del_pos : Nat} {prev_del : Bool} (h : Invariant run_target original s)
    (hstage : s.stage = .delete del_len del_pos prev_del) (hpos : del_pos < s.in_len) :
    Goes run_target original s (s.delete run_target del_len del_pos prev_del) := by
  have hcoherent := h.coherent
  have hminimal := h.minimal
  rw [hstage] at hcoherent hminimal
  obtain ⟨hlen, hprevious⟩ := hcoherent
  have hround : ∀ prev_del, StageLess ((Stage.delete del_len (del_pos + del_len) prev_del).left s.in_len) (s.stage.left s.in_len) := by
    intro prev_del
    rw [hstage]
    exact Prod.Lex.right _ (Prod.Lex.right _ (by omega))
  rw [delete, if_pos hpos]
  dsimp only
  split
  · next hskip =>
    obtain ⟨hprev, -, hblock⟩ := hskip
    have hbefore : del_len ≤ del_pos := hprevious (by simpa using hprev)
    refine goes_to h ⟨hlen, fun _ => Nat.le_add_left ..⟩ ?_ (hround prev_del)
    intro hchanged hone
    subst hone
    -- Deleting this byte gives what deleting the one before it gave.
    have hrejected := hminimal hchanged rfl
    apply hrejected.succ
    rw [eraseIdx_of_block_eq hbefore hpos hblock]
    exact hrejected (del_pos - 1) (by omega)
  · split
    · next haccepted =>
      have hshorter := (without_sublist s del_pos del_len).length_le
      exact goes_accept h haccepted hshorter (weight_without hpos hlen) ⟨hlen, by simp⟩ (by simp [Stage.Minimal])
    · next hrejected =>
      refine goes_to h ⟨hlen, fun _ => Nat.le_add_left ..⟩ ?_ (hround false)
      intro hchanged hone
      subst hone
      apply (hminimal hchanged rfl).succ
      rw [← without_one]
      exact Bool.eq_false_iff.mpr hrejected

/-- Behind the last block: smaller blocks, or the next stage. -/
theorem goes_delete_end {del_len del_pos : Nat} {prev_del : Bool} (h : Invariant run_target original s)
    (hstage : s.stage = .delete del_len del_pos prev_del) (hend : ¬del_pos < s.in_len) :
    Goes run_target original s (s.delete run_target del_len del_pos prev_del) := by
  have hcoherent := h.coherent
  have hminimal := h.minimal
  rw [hstage] at hcoherent hminimal
  rw [delete, if_neg hend]
  split
  · next hblocks =>
    refine goes_to h ⟨?_, by simp⟩ ?_ ?_
    · split <;> omega
    · intro _ _ pos hpos
      exact absurd hpos (Nat.not_lt_zero pos)
    · rw [hstage]
      exact Prod.Lex.right _ (Prod.Lex.left _ _ (by split <;> omega))
  · next hlast =>
    have hrejected := rejected_at_end hminimal hcoherent.1 (Nat.le_of_not_lt hend) hlast
    split
    · next hunchanged =>
      exact goes_to h trivial (hrejected hunchanged.2) (by rw [hstage]; exact Prod.Lex.left _ _ (by decide))
    · refine goes_to h ?_ hrejected (by rw [hstage]; exact Prod.Lex.left _ _ (by decide))
      intro j _ hj _ hcount
      exact mem_of_count_symbols hj hcount

theorem goes_alphabet {alpha_map : List Nat} (h : Invariant run_target original s) (hstage : s.stage = .alphabet alpha_map i) :
    Goes run_target original s (s.alphabet run_target alpha_map i) := by
  have hcoherent := h.coherent
  have hminimal := h.minimal
  rw [hstage] at hcoherent hminimal
  rw [alphabet]
  split
  · next hi =>
    have hround : StageLess ((Stage.alphabet alpha_map (i + 1)).left s.in_len) (s.stage.left s.in_len) := by
      rw [hstage]
      exact Prod.Lex.right _ (Prod.Lex.right _ (by omega))
    have hlater : (Stage.alphabet alpha_map (i + 1)).Coherent s.in_data :=
      fun j hj => hcoherent j (Nat.le_of_succ_le hj)
    dsimp only
    split
    · exact goes_to h hlater hminimal hround
    · next hsymbol =>
      rw [not_or] at hsymbol
      split
      · next haccepted =>
        have hmem := hcoherent i (Nat.le_refl i) hi hsymbol.1 hsymbol.2
        refine goes_accept h haccepted (Nat.le_of_eq (List.length_map _)) (weight_without_symbol hi hsymbol.1 hmem) ?_
          (by simp [Stage.Minimal])
        intro j hj hbound hne hcount
        have hother := hcoherent j (Nat.le_of_succ_le hj) hbound hne hcount
        have hvalue : (UInt8.ofNat j).toNat ≠ i := by
          rw [UInt8.toNat_ofNat']
          omega
        exact List.mem_map.mpr ⟨_, hother, if_neg hvalue⟩
      · exact goes_to h hlater hminimal hround
  · exact goes_to h rfl hminimal (by rw [hstage]; exact Prod.Lex.left _ _ (by decide))

theorem goes_characters {tmp_buf : List UInt8} (h : Invariant run_target original s) (hstage : s.stage = .characters tmp_buf i) :
    Goes run_target original s (s.characters run_target tmp_buf i) := by
  have hcoherent := h.coherent
  have hminimal := h.minimal
  rw [hstage] at hcoherent hminimal
  change tmp_buf = s.in_data at hcoherent
  rw [characters]
  split
  · next hi =>
    have hround : StageLess ((Stage.characters tmp_buf (i + 1)).left s.in_len) (s.stage.left s.in_len) := by
      rw [hstage]
      exact Prod.Lex.right _ (Prod.Lex.right _ (by omega))
    split
    · exact goes_to h hcoherent hminimal hround
    · next hbyte =>
      split
      · next haccepted =>
        rw [hcoherent] at hbyte haccepted ⊢
        exact goes_accept h haccepted (Nat.le_of_eq List.length_set) (weight_set hi hbyte) rfl (by simp [Stage.Minimal])
      · exact goes_to h hcoherent hminimal hround
  · split
    · next hchanged => exact goes_next_pass h (Or.inl hchanged)
    · next hunchanged =>
      exact goes_to h trivial (hminimal (Bool.eq_false_iff.mpr hunchanged)) (by rw [hstage]; exact Prod.Lex.left _ _ (by decide))

/-- Every step but the last one. -/
theorem goes_step (h : Invariant run_target original s) (hmore : s.stage ≠ .finalize_all) :
    Goes run_target original s (s.step run_target) := by
  rw [step]
  split
  · next hstage => exact goes_normalize h hstage
  · next del_len del_pos prev_del hstage =>
    by_cases hpos : del_pos < s.in_len
    · exact goes_delete_block h hstage hpos
    · exact goes_delete_end h hstage hpos
  · next hstage => exact goes_alphabet h hstage
  · next hstage => exact goes_characters h hstage
  · next hstage => exact absurd hstage hmore

theorem invariant_start {in_data : List UInt8} (changed_any : Bool) (h : run_target in_data = true) :
    Invariant run_target in_data.length (start in_data changed_any) where
  accepted := h
  bounded := Nat.le_refl _
  coherent := by
    change 0 < if _ < TMIN_SET_MIN_SIZE then TMIN_SET_MIN_SIZE else _
    split
    · decide
    · next hlarge => exact Nat.lt_of_lt_of_le (by decide) (Nat.le_of_not_lt hlarge)
  minimal := trivial

/-- The invariant holds in every state of a run. -/
theorem invariant_of_reaches {t : Tmin} (h : (minimize run_target).Reaches s t) (hs : Invariant run_target original s) :
    Invariant run_target original t := by
  apply h.rule hs
  intro s t hinvariant hmore hbody
  cases hbody
  exact (goes_step hinvariant (by simpa [minimize] using hmore)).invariant

/-- A run ends at `finalize_all` only. -/
theorem reaches_of_ends {final : Tmin} (h : (minimize run_target).Ends s final) :
    (minimize run_target).Reaches s final ∧ final.stage = .finalize_all := by
  obtain ⟨hreaches, hstop⟩ := h.reaches (by intro s t hbody; cases hbody)
  exact ⟨hreaches, by simpa [minimize] using hstop⟩

/-- Every run from such a state ends. -/
theorem minimize_ends (hs : Invariant run_target original s) : ∃ final, (minimize run_target).Ends s final := by
  apply While.ends_of_wellFounded less_wellFounded
  intro t hreaches hmore u hbody
  cases hbody
  exact (goes_step (invariant_of_reaches hreaches hs) (by simpa [minimize] using hmore)).less

/-- The minimizer ends for every target that accepts the input, with accepted data that are no
longer at all times, and no byte of the result can be deleted. Nothing is assumed of the target
but that it gives equal answers to equal data. -/
theorem minimize_spec (run_target : List UInt8 → Bool) (in_data : List UInt8) (changed_any : Bool)
    (haccepted : run_target in_data = true) :
    (∃ final, (minimize run_target).Ends (start in_data changed_any) final) ∧
      (∀ s, (minimize run_target).Reaches (start in_data changed_any) s →
        run_target s.in_data = true ∧ s.in_len ≤ in_data.length) ∧
      ∀ final, (minimize run_target).Ends (start in_data changed_any) final →
        run_target final.in_data = true ∧ final.in_len ≤ in_data.length ∧
          ∀ pos < final.in_len, run_target (final.in_data.eraseIdx pos) = false := by
  have hstart := invariant_start changed_any haccepted
  refine ⟨minimize_ends hstart, ?_, ?_⟩
  · intro s hreaches
    have hinvariant := invariant_of_reaches hreaches hstart
    exact ⟨hinvariant.accepted, hinvariant.bounded⟩
  · intro final hends
    obtain ⟨hreaches, hstage⟩ := reaches_of_ends hends
    have hinvariant := invariant_of_reaches hreaches hstart
    have hminimal := hinvariant.minimal
    rw [hstage] at hminimal
    exact ⟨hinvariant.accepted, hinvariant.bounded, hminimal⟩

/-- Whether the input has the byte `A`. -/
def has_letter (tmp_buf : List UInt8) : Bool := tmp_buf.contains 65

/-- The minimizer on three bytes of which the target needs the second one. -/
theorem minimize_letter : ∃ final, (minimize has_letter).Ends (start [48, 65, 66] true) final ∧
    (∀ s, (minimize has_letter).Reaches (start [48, 65, 66] true) s → has_letter s.in_data = true ∧ s.in_len ≤ 3) ∧
    has_letter final.in_data = true ∧ final.in_len ≤ 3 ∧ ∀ pos < final.in_len, has_letter (final.in_data.eraseIdx pos) = false := by
  obtain ⟨⟨final, hends⟩, halways, hminimal⟩ := minimize_spec has_letter [48, 65, 66] true (by decide)
  exact ⟨final, hends, halways, hminimal final hends⟩

end aflnet.Tmin
