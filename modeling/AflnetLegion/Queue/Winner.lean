import AflnetLegion.Queue.RefCount

namespace aflnet

/-- The product of time and length, without a bound. -/
def rated_entry.cost (e : rated_entry) : Nat := e.exec_us.toNat * e.len.toNat

theorem rated_entry.loses_iff (q w : rated_entry) : q.loses w = true ↔ q.unique_state_count < w.unique_state_count := by
  rw [rated_entry.loses, Bool.or_eq_true, Bool.and_eq_true, decide_eq_true_iff, decide_eq_true_iff]
  exact ⟨fun h => h.elim id And.left, Or.inl⟩

namespace Favorites

/-- What decides between entries does not differ: the number of states, the time and the length
of each entry. -/
structure SameRatings (s t : Favorites) : Prop where
  unique_state_count : ∀ q, (t.queue q).unique_state_count = (s.queue q).unique_state_count
  exec_us : ∀ q, (t.queue q).exec_us = (s.queue q).exec_us
  len : ∀ q, (t.queue q).len = (s.queue q).len

section ratings

variable {s t u : Favorites} {q w i : Nat} {trace_bits : Nat → UInt8}

theorem SameRatings.refl (s : Favorites) : s.SameRatings s := ⟨fun _ => rfl, fun _ => rfl, fun _ => rfl⟩

theorem SameRatings.trans (hst : s.SameRatings t) (htu : t.SameRatings u) : s.SameRatings u where
  unique_state_count := fun q => (htu.unique_state_count q).trans (hst.unique_state_count q)
  exec_us := fun q => (htu.exec_us q).trans (hst.exec_us q)
  len := fun q => (htu.len q).trans (hst.len q)

theorem SameRatings.cost (h : s.SameRatings t) (q : Nat) : (t.queue q).cost = (s.queue q).cost := by
  rw [rated_entry.cost, h.exec_us, h.len, rated_entry.cost]

theorem sameRatings_modify (s : Favorites) (q : Nat) {f : rated_entry → rated_entry}
    (hcount : ∀ e, (f e).unique_state_count = e.unique_state_count) (htime : ∀ e, (f e).exec_us = e.exec_us)
    (hlen : ∀ e, (f e).len = e.len) : s.SameRatings (s.modify q f) := by
  constructor <;> intro x <;> by_cases hx : x = q <;> simp [modify, hx, hcount, htime, hlen]

theorem sameRatings_win_slot (s : Favorites) (q : Nat) (trace_bits : Nat → UInt8) (i : Nat) :
    s.SameRatings (s.win_slot q trace_bits i) :=
  { sameRatings_modify s q (f := fun e => e.retain trace_bits) (fun _ => rfl) (fun _ => rfl) (fun _ => rfl) with }

theorem sameRatings_update_slot (s : Favorites) (q : Nat) (trace_bits : Nat → UInt8) (i : Nat) :
    s.SameRatings (update_slot q trace_bits s i) := by
  unfold update_slot
  split
  · exact .refl s
  · split
    · exact s.sameRatings_win_slot q trace_bits i
    · rename_i w _
      split
      · exact .refl s
      · exact (s.sameRatings_modify w (f := rated_entry.release) (fun _ => rfl) (fun _ => rfl) fun _ => rfl).trans
          (sameRatings_win_slot _ q trace_bits i)

theorem sameRatings_update_bitmap_score (s : Favorites) (q : Nat) (trace_bits : Nat → UInt8) :
    s.SameRatings (s.update_bitmap_score q trace_bits) :=
  update_bitmap_score_induction (P := s.SameRatings) q trace_bits (.refl s) fun t i _ ht =>
    ht.trans (t.sameRatings_update_slot q trace_bits i)

/-- `q` takes a slot that is free or whose winner is not better. -/
def Takes (s : Favorites) (q i : Nat) : Prop :=
  ∀ w, s.top_rated i = some w → (s.queue w).unique_state_count ≤ (s.queue q).unique_state_count

noncomputable instance (s : Favorites) (q i : Nat) : Decidable (s.Takes q i) := Classical.dec _

/-- Whether an entry takes a slot depends on the ratings and on the winner. -/
theorem Takes.of_ratings (h : s.SameRatings t) (htop : t.top_rated i = s.top_rated i) : t.Takes q i ↔ s.Takes q i := by
  simp [Takes, htop, h.unique_state_count]

/-- What a slot does to the winner of any slot. -/
theorem top_rated_update_slot (s : Favorites) (q : Nat) (trace_bits : Nat → UInt8) (i j : Nat) :
    (update_slot q trace_bits s i).top_rated j =
      if j = i ∧ trace_bits i ≠ 0 ∧ s.Takes q i then some q else s.top_rated j := by
  unfold update_slot
  by_cases hhit : trace_bits i = 0
  · simp [hhit]
  · rw [if_neg hhit]
    cases hwin : s.top_rated i with
    | none =>
      have htakes : s.Takes q i := fun w hw => by simp [hwin] at hw
      simp [win_slot, Function.update_apply, hhit, htakes]
    | some w =>
      have htakes : s.Takes q i ↔ ¬ (s.queue q).loses (s.queue w) = true := by
        rw [rated_entry.loses_iff, UInt32.not_lt]
        exact ⟨fun h => h w hwin, fun h x hx => Option.some.inj (hwin.symm.trans hx) ▸ h⟩
      dsimp only
      split
      · rename_i hloses
        simp [htakes, hloses]
      · rename_i hloses
        simp [win_slot, modify, Function.update_apply, hhit, htakes, hloses]

/-- The first slots are decided one by one, each by its own visit. -/
theorem foldl_update_slot (s : Favorites) (q : Nat) (trace_bits : Nat → UInt8) (n : Nat) :
    s.SameRatings ((List.range n).foldl (update_slot q trace_bits) s) ∧
      ∀ j, ((List.range n).foldl (update_slot q trace_bits) s).top_rated j =
        if j < n ∧ trace_bits j ≠ 0 ∧ s.Takes q j then some q else s.top_rated j := by
  induction n with
  | zero => exact ⟨.refl s, fun j => by simp⟩
  | succ n ih =>
    obtain ⟨hsame, htop⟩ := ih
    rw [List.range_succ, List.foldl_concat]
    refine ⟨hsame.trans (sameRatings_update_slot _ q trace_bits n), fun j => ?_⟩
    have hn := htop n
    rw [if_neg (fun h => Nat.lt_irrefl n h.1)] at hn
    simp only [top_rated_update_slot, Takes.of_ratings hsame hn, htop]
    by_cases hj : j = n
    · simp [hj]
    · have hlt : j < n + 1 ↔ j < n := by omega
      simp only [hlt]
      simp [hj]

/-- Each slot is visited once, so the whole loop decides it as the visit does. -/
theorem top_rated_update_bitmap_score (s : Favorites) (q : Nat) (trace_bits : Nat → UInt8) (i : Nat) :
    (s.update_bitmap_score q trace_bits).top_rated i =
      if i < MAP_SIZE ∧ trace_bits i ≠ 0 ∧ s.Takes q i then some q else s.top_rated i := by
  rw [update_bitmap_score, (foldl_update_slot s q trace_bits MAP_SIZE).2]

end ratings

/-- A queue that no call has rated yet. -/
def unrated (queue : Nat → rated_entry) : Favorites := { start false with queue }

@[simp] theorem queue_unrated (queue : Nat → rated_entry) : (unrated queue).queue = queue := rfl

/-- The calls, each with an entry and the trace of its run. -/
def rate (s : Favorites) (calls : List (Nat × (Nat → UInt8))) : Favorites :=
  calls.foldl (fun s call => s.update_bitmap_score call.1 call.2) s

/-- The entry has hit the slot in one of the calls. -/
def Hits (calls : List (Nat × (Nat → UInt8))) (i q : Nat) : Prop := ∃ trace_bits, (q, trace_bits) ∈ calls ∧ trace_bits i ≠ 0

/-- An entry that has hit the slot such that no other one is better: none has more states, and
none with as many costs less. -/
structure IsBest (queue : Nat → rated_entry) (calls : List (Nat × (Nat → UInt8))) (i w : Nat) : Prop where
  hits : Hits calls i w
  count : ∀ q, Hits calls i q → (queue q).unique_state_count ≤ (queue w).unique_state_count
  cost : ∀ q, Hits calls i q → (queue q).unique_state_count = (queue w).unique_state_count → (queue w).cost ≤ (queue q).cost

/-- Every slot that was hit has a winner, and the winner is the best entry of those that have
hit it. -/
structure WinnersAreBest (queue : Nat → rated_entry) (calls : List (Nat × (Nat → UInt8))) : Prop where
  won : ∀ i q, i < MAP_SIZE → Hits calls i q → ∃ w, ((unrated queue).rate calls).top_rated i = some w
  best : ∀ i w, i < MAP_SIZE → ((unrated queue).rate calls).top_rated i = some w → IsBest queue calls i w

/-- The entry of a call is not the more expensive one where it ties with the winner. -/
def TiesFavorably (s : Favorites) (q : Nat) (trace_bits : Nat → UInt8) : Prop :=
  ∀ i w, i < MAP_SIZE → trace_bits i ≠ 0 → s.top_rated i = some w →
    (s.queue q).unique_state_count = (s.queue w).unique_state_count → (s.queue q).cost ≤ (s.queue w).cost

section winners

variable {queue : Nat → rated_entry} {calls done rest : List (Nat × (Nat → UInt8))} {q w i : Nat} {trace_bits : Nat → UInt8}

theorem rate_concat (s : Favorites) (calls : List (Nat × (Nat → UInt8))) (q : Nat) (trace_bits : Nat → UInt8) :
    s.rate (calls ++ [(q, trace_bits)]) = (s.rate calls).update_bitmap_score q trace_bits := List.foldl_concat ..

theorem sameRatings_rate (s : Favorites) (calls : List (Nat × (Nat → UInt8))) : s.SameRatings (s.rate calls) :=
  List.foldlRecOn _ _ (.refl s) fun t ht call _ => ht.trans (t.sameRatings_update_bitmap_score call.1 call.2)

theorem hits_concat : Hits (calls ++ [(q, trace_bits)]) i w ↔ Hits calls i w ∨ w = q ∧ trace_bits i ≠ 0 := by
  simp only [Hits, List.mem_append, List.mem_singleton, Prod.mk.injEq, or_and_right, exists_or, and_assoc]
  refine or_congr_right ⟨fun ⟨_, hw, htrace, hhit⟩ => ⟨hw, htrace ▸ hhit⟩, fun ⟨hw, hhit⟩ => ⟨trace_bits, hw, rfl, hhit⟩⟩

theorem winnersAreBest_nil (queue : Nat → rated_entry) : WinnersAreBest queue [] where
  won := fun _ _ _ ⟨_, hmem, _⟩ => absurd hmem List.not_mem_nil
  best := fun _ _ _ hw => nomatch hw

/-- The winner of a slot after one more call. -/
theorem top_rated_rate_concat (queue : Nat → rated_entry) (calls : List (Nat × (Nat → UInt8))) (q : Nat)
    (trace_bits : Nat → UInt8) (hi : i < MAP_SIZE) :
    ((unrated queue).rate (calls ++ [(q, trace_bits)])).top_rated i =
      if trace_bits i ≠ 0 ∧ ((unrated queue).rate calls).Takes q i then some q
      else ((unrated queue).rate calls).top_rated i := by
  rw [rate_concat, top_rated_update_bitmap_score]
  simp [hi]

/-- After some calls an entry takes a slot if no winner has more states. -/
theorem takes_rate : ((unrated queue).rate calls).Takes q i ↔ ∀ w, ((unrated queue).rate calls).top_rated i = some w →
    (queue w).unique_state_count ≤ (queue q).unique_state_count := by
  have hsame := (unrated queue).sameRatings_rate calls
  simp [Takes, hsame.unique_state_count]

/-- What it means to tie favorably after some calls, in terms of the entries as they were. -/
theorem tiesFavorably_rate : ((unrated queue).rate calls).TiesFavorably q trace_bits ↔
    ∀ i w, i < MAP_SIZE → trace_bits i ≠ 0 → ((unrated queue).rate calls).top_rated i = some w →
      (queue q).unique_state_count = (queue w).unique_state_count → (queue q).cost ≤ (queue w).cost := by
  have hsame := (unrated queue).sameRatings_rate calls
  simp [TiesFavorably, hsame.unique_state_count, hsame.cost]

/-- An entry that takes a slot over is the best one if it ties favorably. -/
theorem WinnersAreBest.isBest_of_takes (h : WinnersAreBest queue calls) (hi : i < MAP_SIZE) (hhit : trace_bits i ≠ 0)
    (htakes : ((unrated queue).rate calls).Takes q i) (hties : ((unrated queue).rate calls).TiesFavorably q trace_bits) :
    IsBest queue (calls ++ [(q, trace_bits)]) i q := by
  rw [takes_rate] at htakes
  rw [tiesFavorably_rate] at hties
  have hbefore : ∀ x, Hits calls i x → (queue x).unique_state_count ≤ (queue q).unique_state_count ∧
      ((queue x).unique_state_count = (queue q).unique_state_count → (queue q).cost ≤ (queue x).cost) := by
    intro x hx
    obtain ⟨w, hw⟩ := h.won i x hi hx
    have hbest := h.best i w hi hw
    have hxw := hbest.count x hx
    have hwq := htakes w hw
    refine ⟨UInt32.le_trans hxw hwq, fun htie => ?_⟩
    have hqw : (queue q).unique_state_count = (queue w).unique_state_count := UInt32.le_antisymm (htie ▸ hxw) hwq
    exact Nat.le_trans (hties i w hi hhit hw hqw) (hbest.cost x hx (htie.trans hqw))
  refine ⟨hits_concat.mpr (Or.inr ⟨rfl, hhit⟩), fun x hx => ?_, fun x hx => ?_⟩
  · rcases hits_concat.mp hx with hx | ⟨rfl, _⟩
    · exact (hbefore x hx).1
    · exact UInt32.le_refl _
  · rcases hits_concat.mp hx with hx | ⟨rfl, _⟩
    · exact (hbefore x hx).2
    · exact fun _ => Nat.le_refl _

/-- A winner stays the best one against an entry that does not take its slot. -/
theorem WinnersAreBest.isBest_of_not_takes (h : WinnersAreBest queue calls) (hi : i < MAP_SIZE)
    (hnot : ¬ (trace_bits i ≠ 0 ∧ ((unrated queue).rate calls).Takes q i))
    (hw : ((unrated queue).rate calls).top_rated i = some w) : IsBest queue (calls ++ [(q, trace_bits)]) i w := by
  have hbest := h.best i w hi hw
  have hlower : trace_bits i ≠ 0 → (queue q).unique_state_count < (queue w).unique_state_count := by
    intro hhit
    refine UInt32.not_le.mp fun hle => hnot ⟨hhit, takes_rate.mpr fun x hx => ?_⟩
    rwa [← Option.some.inj (hw.symm.trans hx)]
  refine ⟨hits_concat.mpr (Or.inl hbest.hits), fun x hx => ?_, fun x hx => ?_⟩
  · rcases hits_concat.mp hx with hx | ⟨rfl, hhit⟩
    · exact hbest.count x hx
    · exact UInt32.le_of_lt (hlower hhit)
  · rcases hits_concat.mp hx with hx | ⟨rfl, hhit⟩
    · exact hbest.cost x hx
    · exact fun htie => absurd htie (UInt32.ne_of_lt (hlower hhit))

/-- One call keeps the winners the best ones if its entry ties favorably. -/
theorem WinnersAreBest.rate_concat (h : WinnersAreBest queue calls)
    (hties : ((unrated queue).rate calls).TiesFavorably q trace_bits) :
    WinnersAreBest queue (calls ++ [(q, trace_bits)]) where
  won := by
    intro i x hi hx
    rw [top_rated_rate_concat queue calls q trace_bits hi]
    split
    · exact ⟨q, rfl⟩
    · rename_i hnot
      rcases hits_concat.mp hx with hx | ⟨rfl, hhit⟩
      · exact h.won i x hi hx
      · cases hwin : ((unrated queue).rate calls).top_rated i with
        | some w => exact ⟨w, rfl⟩
        | none => exact absurd ⟨hhit, fun w hw => by simp [hwin] at hw⟩ hnot
  best := by
    intro i w hi hw
    rw [top_rated_rate_concat queue calls q trace_bits hi] at hw
    split at hw
    · rename_i htaken
      cases hw
      exact h.isBest_of_takes hi htaken.1 htaken.2 hties
    · rename_i hnot
      exact h.isBest_of_not_takes hi hnot hw

/-- An entry that ties with the winner takes the slot, whatever it costs. -/
theorem tiesFavorably_of_winnersAreBest (hbefore : WinnersAreBest queue calls)
    (hafter : WinnersAreBest queue (calls ++ [(q, trace_bits)])) :
    ((unrated queue).rate calls).TiesFavorably q trace_bits := by
  rw [tiesFavorably_rate]
  intro i w hi hhit hw htie
  have htakes : ((unrated queue).rate calls).Takes q i := by
    refine takes_rate.mpr fun x hx => ?_
    rw [htie, Option.some.inj (hw.symm.trans hx)]
    exact UInt32.le_refl _
  have htop := top_rated_rate_concat queue calls q trace_bits hi
  rw [if_pos ⟨hhit, htakes⟩] at htop
  have hhits : Hits (calls ++ [(q, trace_bits)]) i w := hits_concat.mpr (Or.inl (hbefore.best i w hi hw).hits)
  exact (hafter.best i q hi htop).cost w hhits htie.symm

/-- The winners are the best entries after every call if and only if no call is for an entry
that ties with a winner and costs more. The test of the number of states is made twice, and the
costs are never compared. -/
theorem winners_are_best_iff (queue : Nat → rated_entry) (calls : List (Nat × (Nat → UInt8))) :
    (∀ done rest, calls = done ++ rest → WinnersAreBest queue done) ↔
      ∀ done q trace_bits rest, calls = done ++ (q, trace_bits) :: rest →
        ((unrated queue).rate done).TiesFavorably q trace_bits := by
  constructor
  · intro h done q trace_bits rest hcalls
    refine tiesFavorably_of_winnersAreBest (h done _ hcalls) (h (done ++ [(q, trace_bits)]) rest ?_)
    simpa using hcalls
  · intro h done
    induction done using List.reverseRecOn with
    | nil => exact fun _ _ => winnersAreBest_nil queue
    | append_singleton done call ih =>
      intro rest hcalls
      have hsplit : calls = done ++ call :: rest := by simpa using hcalls
      exact (ih _ hsplit).rate_concat (h done call.1 call.2 rest hsplit)

end winners

/-- Two entries that differ in their times only. -/
def tied_queue (q : Nat) : rated_entry := { rated_entry.fresh q 1 0 with exec_us := UInt64.ofNat (q + 1) }

/-- The slower of two entries that tie wins the slot when it comes second. -/
theorem slower_entry_wins : ((unrated tied_queue).rate [(0, slot_zero), (1, slot_zero)]).top_rated 0 = some 1 ∧
    (tied_queue 0).unique_state_count = (tied_queue 1).unique_state_count ∧ (tied_queue 0).cost < (tied_queue 1).cost ∧
    ¬ WinnersAreBest tied_queue [(0, slot_zero), (1, slot_zero)] := by
  have htakes : ((unrated tied_queue).rate [(0, slot_zero)]).Takes 1 0 :=
    takes_rate.mpr fun w _ => UInt32.le_refl _
  have htop := top_rated_rate_concat tied_queue [(0, slot_zero)] 1 slot_zero (i := 0) (by decide)
  rw [if_pos ⟨by decide, htakes⟩, List.singleton_append] at htop
  refine ⟨htop, rfl, by decide, fun h => ?_⟩
  have hhits : Hits [(0, slot_zero), (1, slot_zero)] 0 0 := ⟨slot_zero, List.mem_cons_self, by decide⟩
  exact absurd ((h.best 0 1 (by decide) htop).cost 0 hhits rfl) (by decide)

end Favorites

end aflnet
