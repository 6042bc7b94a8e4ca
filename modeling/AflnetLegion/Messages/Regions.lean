import AflnetLegion.Messages.Construct

namespace aflnet

/-- Regions that follow one another from the first to the last byte of a buffer, none
of them empty. -/
structure Covers (regions : List region_t) (size : Nat) : Prop where
  tiles : Tiling.Tiles 0 (regions.map region_t.piece) size
  proper : ∀ region ∈ regions, 0 ≤ region.start_byte ∧ region.start_byte ≤ region.end_byte

/-- A covered buffer that can be allocated can be sent region by region. -/
theorem Covers.partitions {regions : List region_t} {size : Nat} (h : Covers regions size) (hmax : size ≤ MAX_ALLOC) :
    Partitions regions size where
  tiles := h.tiles
  proper := by
    intro region hregion
    obtain ⟨hstart, hle⟩ := h.proper region hregion
    have hbound := (h.tiles.bounds (List.mem_map_of_mem hregion)).2
    change region.start_byte.toNat + (region.end_byte + 1 - region.start_byte).toNat ≤ size at hbound
    exact ⟨hstart, hle, by omega⟩

/-- One more region, up to the byte before `stop`. -/
theorem Covers.concat {regions : List region_t} {size stop : Nat} (h : Covers regions size) (hlt : size < stop) :
    Covers (regions ++ [.fresh size ((stop : Int) - 1)]) stop := by
  have hpiece : (region_t.fresh size ((stop : Int) - 1)).piece = (size, stop - size) := by
    refine Prod.ext rfl ?_
    change ((stop : Int) - 1 + 1 - (size : Int)).toNat = stop - size
    omega
  constructor
  · rw [List.map_append, List.map_singleton, hpiece, Tiling.tiles_append]
    exact ⟨size, h.tiles, rfl, Nat.add_sub_cancel' (Nat.le_of_lt hlt)⟩
  · intro region hregion
    rcases List.mem_append.mp hregion with hold | hnew
    · exact h.proper region hold
    · rw [List.mem_singleton.mp hnew]
      change (0 : Int) ≤ size ∧ (size : Int) ≤ (stop : Int) - 1
      omega

/-- The regions of pieces that follow one another from `start` on. The end of a region is its
last byte, so that of an empty piece is before its start. -/
def consecutive_regions : Nat → List (List UInt8) → List region_t
  | _, [] => []
  | start, piece :: pieces =>
    .fresh start ((start + piece.length : Nat) - 1 : Int) :: consecutive_regions (start + piece.length) pieces

section consecutive_regions

variable {start : Nat} {pieces : List (List UInt8)} {piece : List UInt8}

theorem consecutive_regions_concat (start : Nat) (pieces : List (List UInt8)) (piece : List UInt8) :
    consecutive_regions start (pieces ++ [piece]) = consecutive_regions start pieces ++
      [.fresh (start + pieces.flatten.length : Nat) ((start + pieces.flatten.length + piece.length : Nat) - 1 : Int)] := by
  induction pieces generalizing start with
  | nil => rfl
  | cons first pieces ih =>
    rw [List.cons_append, consecutive_regions, ih, consecutive_regions, List.cons_append, List.flatten_cons,
      List.length_append, ← Nat.add_assoc]

/-- One more region, up to the byte `stop`. -/
theorem consecutive_regions_snoc {stop : Nat} (hstop : pieces.flatten.length + piece.length = stop + 1) :
    consecutive_regions 0 pieces ++ [.fresh pieces.flatten.length stop] = consecutive_regions 0 (pieces ++ [piece]) := by
  rw [consecutive_regions_concat, Nat.zero_add, hstop]
  congr 3
  omega

/-- The regions of pieces that are not empty cover what the pieces make up. -/
theorem covers_consecutive_regions (hne : ∀ piece ∈ pieces, piece ≠ []) :
    Covers (consecutive_regions 0 pieces) pieces.flatten.length := by
  induction pieces using List.reverseRecOn with
  | nil => exact ⟨rfl, fun _ hfalse => by cases hfalse⟩
  | append_singleton pieces piece ih =>
    have hbefore := ih fun l hl => hne l (List.mem_append_left _ hl)
    have hpos := List.length_pos_iff.mpr (hne piece (by simp))
    rw [consecutive_regions_concat, Nat.zero_add, List.flatten_append, List.length_append, List.flatten_singleton]
    exact hbefore.concat (Nat.lt_add_of_pos_right hpos)

end consecutive_regions

end aflnet
