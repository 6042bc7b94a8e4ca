import AflnetLegion.State.Changes
import AflnetLegion.State.Selectable

open Checked

namespace aflnet

variable {g g' g'' : Ipsm} {id : UInt32} {q : Nat}

namespace Ipsm

/-- The index of a state is that of one of its seeds, or it has none yet, and its seeds are in the queue. -/
def Placed (g : Ipsm) : Prop :=
  ∀ id xs index, g.place id = some (xs, index) → (index = 0 ∨ index.toNat < xs.length) ∧ ∀ q ∈ xs, q < g.queue.length

/-- The states keep their indices while they get new seeds. -/
def PlacesGrow (g g' : Ipsm) : Prop :=
  ∀ id xs index, g.place id = some (xs, index) → ∃ ys, xs <+: ys ∧ g'.place id = some (ys, index)

theorem PlacesGrow.refl (g : Ipsm) : PlacesGrow g g := fun _ xs _ h => ⟨xs, List.prefix_rfl, h⟩

theorem PlacesGrow.trans (h : PlacesGrow g g') (h' : PlacesGrow g' g'') : PlacesGrow g g'' := by
  intro id xs index hplace
  obtain ⟨ys, hstarts, hplace'⟩ := h id xs index hplace
  obtain ⟨zs, hstarts', hplace''⟩ := h' id ys index hplace'
  exact ⟨zs, hstarts.trans hstarts', hplace''⟩

theorem placesGrow_of_same (h : g'.place = g.place) : PlacesGrow g g' := fun _ xs _ hplace =>
  ⟨xs, List.prefix_rfl, h ▸ hplace⟩

theorem place_congr (h : g'.khms_states = g.khms_states) : g'.place = g.place := by
  funext id
  rw [place, place, h]

/-- The places after one entry of the hashtable was written. -/
theorem place_of_update {state : state_info_t} (h : g'.khms_states = Function.update g.khms_states id (some state)) (other : UInt32) :
    g'.place other = if other = id then some (state.seeds, state.selected_seed_index) else g.place other := by
  rw [place, h]
  by_cases hother : other = id
  · rw [if_pos hother, hother, Function.update_self, Option.map_some]
  · rw [if_neg hother, Function.update_of_ne hother, place]

theorem Change.queue_length (h : Change q g g') : g'.queue.length = g.queue.length := by
  cases h <;> assumption

theorem Change.placesGrow (h : Change q g g') : PlacesGrow g g' := by
  cases h with
  | other hstates _ _ => exact placesGrow_of_same (place_congr hstates)
  | @insert id seeds hs _ hstates _ _ =>
    intro other xs index hplace
    refine ⟨xs, List.prefix_rfl, ?_⟩
    rw [place_of_update hstates, if_neg, hplace]
    rintro rfl
    rw [place, hs] at hplace
    cases hplace
  | @alter id state state' hs hseeds hindex hstates _ _ =>
    intro other xs index hplace
    rw [place_of_update hstates]
    by_cases hother : other = id
    · subst hother
      rw [place_eq hs] at hplace
      cases hplace
      rw [if_pos rfl, hindex]
      refine ⟨state'.seeds, ?_, rfl⟩
      rcases hseeds with hseeds | hseeds
      · exact hseeds ▸ List.prefix_rfl
      · exact hseeds ▸ List.prefix_append ..
    · rw [if_neg hother]
      exact ⟨xs, List.prefix_rfl, hplace⟩

/-- A change keeps the indices right: a state that gets its first seed has the index 0. -/
theorem Change.placed (h : Change q g g') (hq : q < g.queue.length) (hg : g.Placed) : g'.Placed := by
  have hqueue := h.queue_length
  cases h with
  | other hstates _ _ =>
    intro id xs index hplace
    rw [place_congr hstates] at hplace
    rw [hqueue]
    exact hg id xs index hplace
  | @insert s seeds hs hseeds hstates _ _ =>
    intro other xs index hplace
    rw [place_of_update hstates] at hplace
    rw [hqueue]
    split at hplace
    · cases hplace
      exact ⟨.inl rfl, fun x hx => hseeds x hx ▸ hq⟩
    · exact hg other xs index hplace
  | @alter s state state' hs hseeds hindex hstates _ _ =>
    intro other xs index hplace
    rw [place_of_update hstates] at hplace
    rw [hqueue]
    split at hplace
    · cases hplace
      obtain ⟨hin, hall⟩ := hg s _ _ (place_eq hs)
      rw [hindex]
      rcases hseeds with hseeds | hseeds
      · exact hseeds ▸ ⟨hin, hall⟩
      · rw [hseeds]
        constructor
        · exact hin.imp_right fun hlt => by
            rw [List.length_append]
            omega
        · intro x hx
          rcases List.mem_append.mp hx with hx | hx
          · exact hall x hx
          · exact List.mem_singleton.mp hx ▸ hq
    · exact hg other xs index hplace

theorem Changes.placed (h : Changes q g g') (hq : q < g.queue.length) (hg : g.Placed) : g'.Placed ∧ PlacesGrow g g' := by
  suffices hall : g'.queue.length = g.queue.length ∧ g'.Placed ∧ PlacesGrow g g' from hall.2
  induction h with
  | refl => exact ⟨rfl, hg, .refl g⟩
  | tail _ hchange ih =>
    obtain ⟨hqueue, hplaced, hgrow⟩ := ih
    exact ⟨hchange.queue_length.trans hqueue, hchange.placed (hqueue ▸ hq) hplaced, hgrow.trans hchange.placesGrow⟩

end Ipsm

/-- The steps between two selections. -/
abbrev AwareBetween : Ipsm → Ipsm → Prop := AwareStep fun g call => call.Consistent g ∧ call.Valid

theorem AwareStep.mono {Ok Ok' : Ipsm → AwareCall → Prop} (h : AwareStep Ok g g') (himp : ∀ g call, Ok g call → Ok' g call) :
    AwareStep Ok' g g' := by
  cases h with
  | add_to_queue q => exact .add_to_queue g q
  | update ok h => exact .update (himp _ _ ok) h

theorem queue_add_to_queue (g : Ipsm) (q : queue_entry) :
    (g.add_to_queue q).queue = g.queue ++ [aware_entry.new q g.queued_paths] := by
  rw [Ipsm.add_to_queue]
  dsimp only
  split <;> rfl

theorem place_add_to_queue (g : Ipsm) (q : queue_entry) : (g.add_to_queue q).place = g.place := by
  apply Ipsm.place_congr
  rw [Ipsm.add_to_queue]
  dsimp only
  split <;> rfl

/-- A step between two selections keeps the indices right. -/
theorem AwareStep.placed {Ok : Ipsm → AwareCall → Prop} (hok : ∀ g call, Ok g call → call.Consistent g)
    (h : AwareStep Ok g g') (hg : g.Placed) : g'.Placed ∧ g.PlacesGrow g' := by
  cases h with
  | add_to_queue q =>
    refine ⟨fun id xs index hplace => ?_, Ipsm.placesGrow_of_same (place_add_to_queue g q)⟩
    rw [place_add_to_queue] at hplace
    obtain ⟨hin, hall⟩ := hg id xs index hplace
    refine ⟨hin, fun x hx => ?_⟩
    have hlt := hall x hx
    rw [queue_add_to_queue, List.length_append]
    omega
  | update ok h =>
    rcases Ipsm.changes_update (hok _ _ ok) h with rfl | ⟨hq, hchanges⟩
    · exact ⟨hg, .refl _⟩
    · exact hchanges.placed hq hg

namespace Ipsm

/-- What a selection relies on: states are registered once, the map has their cells, and the
index of each state is that of one of its seeds. -/
structure Selectable (g : Ipsm) : Prop where
  registered : g.Registered
  fits : g.MapFits
  placed : g.Placed

/-- What is known of the map does not depend on counters. -/
theorem MapFits.of_rest (h : g.MapFits) (hrest : g' = { g with khms_states := g'.khms_states })
    (hsome : ∀ id, (g'.khms_states id).isSome = (g.khms_states id).isSome) : g'.MapFits := by
  rcases h with rfl | ⟨hmapped, hfresh⟩
  · refine .inl (hrest.trans ?_)
    have hnone : g'.khms_states = fun _ => none := funext fun id => by simpa [start] using hsome id
    rw [hnone]
    rfl
  · rw [hrest]
    exact .inr ⟨{ hmapped with registered := fun id => (hmapped.registered id).trans (hsome id ▸ Iff.rfl) }, hfresh⟩

/-- What is registered is decided by the keys of the hashtable and by `state_ids`. -/
theorem Registered.of_rest (h : g.Registered) (hids : g'.state_ids = g.state_ids)
    (hsome : ∀ id, (g'.khms_states id).isSome = (g.khms_states id).isSome) : g'.Registered where
  nodup := hids ▸ h.nodup
  mem_iff := fun id => by rw [hids, hsome id]; exact h.mem_iff id

theorem isSome_khms_states (g : Ipsm) (id : UInt32) : (g.khms_states id).isSome = (g.place id).isSome := by
  rw [place, Option.isSome_map]

/-- A change of the counters keeps what a selection relies on. -/
theorem Recounts.selectable (h : g.Recounts g') (hg : g.Selectable) : g'.Selectable := by
  have hsome : ∀ id, (g'.khms_states id).isSome = (g.khms_states id).isSome := fun id => by
    rw [isSome_khms_states, isSome_khms_states, h.places]
  refine ⟨hg.registered.of_rest h.state_ids hsome, hg.fits.of_rest h.rest hsome, fun id xs index hplace => ?_⟩
  rw [h.places] at hplace
  rw [h.queue]
  exact hg.placed id xs index hplace

theorem AwareBetween.selectable (h : AwareBetween g g') (hg : g.Selectable) : g'.Selectable where
  registered := (h.mono fun _ _ ok => ok.1).keeps.registered hg.registered
  fits := by
    cases h with
    | add_to_queue q => exact hg.fits.add_to_queue q
    | update ok h => exact hg.fits.update ok.2 h
  placed := (h.placed (fun _ _ ok => ok.1) hg.placed).1

/-- `was_fuzzed_map[row][column] = 1` -/
def mark_fuzzed (g : Ipsm) (row column : Nat) : Ipsm :=
  { g with was_fuzzed_map := g.was_fuzzed_map.modify row fun cells => cells.set column 1 }

/-- Marking a cell keeps it too, as the dimensions stay. -/
theorem Selectable.mark_fuzzed (hg : g.Selectable) (row column : Nat) : (g.mark_fuzzed row column).Selectable where
  registered := ⟨hg.registered.nodup, hg.registered.mem_iff⟩
  fits := by
    rcases hg.fits with rfl | ⟨hmapped, hfresh⟩
    · exact .inl (by simp [Ipsm.mark_fuzzed, start])
    · exact .inr ⟨{ hmapped with table := hmapped.table.modify row column 1 }, hfresh⟩
  placed := hg.placed

end Ipsm

end aflnet
