import AflnetLegion.Messages.Regions
import AflnetLegion.Protocol.Requests

namespace aflnet

/-- One region is made for a buffer in which no region was found. -/
def regions_or_whole (regions : List region_t) (buf_size : Nat) : List region_t :=
  if regions.length = 0 ∧ 0 < buf_size then [.fresh 0 ((buf_size : Int) - 1)] else regions

theorem regions_or_whole_eq {regions : List region_t} (hne : regions ≠ []) (buf_size : Nat) :
    regions_or_whole regions buf_size = regions :=
  if_neg fun hboth => hne (List.length_eq_zero_iff.mp hboth.1)

theorem consecutive_regions_ne_nil {pieces : List (List UInt8)} (h : pieces ≠ []) : consecutive_regions 0 pieces ≠ [] := by
  cases pieces with
  | nil => exact absurd rfl h
  | cons piece pieces => exact List.cons_ne_nil _ _

/-- Non-empty pieces of the whole buffer. -/
theorem covers_of_pieces {pieces : List (List UInt8)} {buf_size : Nat} (hne : ∀ piece ∈ pieces, piece ≠ [])
    (hall : pieces.flatten.length = buf_size) (hpos : 0 < buf_size) :
    Covers (regions_or_whole (consecutive_regions 0 pieces) buf_size) buf_size := by
  have hsome : pieces ≠ [] := by
    rintro rfl
    exact absurd hall (Nat.ne_of_lt hpos)
  rw [regions_or_whole_eq (consecutive_regions_ne_nil hsome), ← hall]
  exact covers_consecutive_regions hne

/-- Pieces of all the buffer but some last bytes. -/
theorem not_covers_of_pieces {pieces : List (List UInt8)} {buf_size : Nat} (hne : ∀ piece ∈ pieces, piece ≠ [])
    (hsome : pieces ≠ []) (hshort : pieces.flatten.length < buf_size) :
    ¬ Covers (regions_or_whole (consecutive_regions 0 pieces) buf_size) buf_size := by
  intro hcovers
  rw [regions_or_whole_eq (consecutive_regions_ne_nil hsome)] at hcovers
  have hstop := hcovers.tiles.stop_eq
  rw [← (covers_consecutive_regions hne).tiles.stop_eq] at hstop
  omega

/-- A buffer of a single byte, in which nothing is cut, is one region. -/
theorem covers_whole : Covers (regions_or_whole (consecutive_regions 0 []) 1) 1 := ⟨⟨rfl, rfl⟩, by decide⟩

/-- A region that ends behind the buffer covers too much. -/
theorem not_covers_of_overrun {regions : List region_t} {buf_size start stop : Nat} (hmem : .fresh start stop ∈ regions)
    (hstop : buf_size ≤ stop) : ¬ Covers (regions_or_whole regions buf_size) buf_size := by
  intro hcovers
  rw [regions_or_whole_eq (List.ne_nil_of_mem hmem)] at hcovers
  have hbound := (hcovers.tiles.bounds (List.mem_map_of_mem hmem)).2
  have hle := (hcovers.proper _ hmem).2
  change (start : Int).toNat + ((stop : Int) + 1 - (start : Int)).toNat ≤ buf_size at hbound
  change (start : Int) ≤ stop at hle
  omega

theorem take_succ_getD {buf : List UInt8} {i : Nat} (h : i < buf.length) : buf.take (i + 1) = buf.take i ++ [buf[i]?.getD 0] := by
  rw [List.take_add_one, List.getElem?_eq_getElem h]
  rfl

section pieces

variable {buf piece : List UInt8} {buf_size : Nat} {before after : List (List UInt8)}

/-- A piece of a text of pieces ends where the text behind it starts. -/
theorem piece_stop_eq (hsize : buf_size ≤ buf.length) (htext : buf.take buf_size = (before ++ piece :: after).flatten) :
    before.flatten.length + piece.length + after.flatten.length = buf_size := by
  have hlength := congrArg List.length htext
  rw [List.length_take, Nat.min_eq_left hsize, List.flatten_append, List.flatten_cons, List.length_append, List.length_append] at hlength
  omega

/-- A byte of a piece in the buffer. -/
theorem getElem?_piece (hsize : buf_size ≤ buf.length) (htext : buf.take buf_size = (before ++ piece :: after).flatten) {i : Nat}
    (hi : i < piece.length) : buf[before.flatten.length + i]? = piece[i]? := by
  have hstop := piece_stop_eq hsize htext
  rw [← List.getElem?_take_of_lt (show before.flatten.length + i < buf_size by omega), htext, List.flatten_append, List.flatten_cons,
    List.getElem?_append_right (Nat.le_add_right _ _), Nat.add_sub_cancel_left, List.getElem?_append_left hi]

end pieces

/-- What an extractor has cut off the bytes up to `byte_count`, and what it has of the
current message. -/
structure CutInto (buf : List UInt8) (pieces : List (List UInt8)) (s : Split) : Prop where
  text : pieces.flatten ++ s.line = buf.take s.byte_count
  cur_start : s.cur_start = pieces.flatten.length
  cur_end : s.cur_end = s.byte_count
  regions : s.regions = consecutive_regions 0 pieces

namespace CutInto

variable {buf : List UInt8} {pieces : List (List UInt8)} {s : Split}

theorem start : CutInto buf [] .start := ⟨rfl, rfl, rfl, rfl⟩

/-- The text with the byte that the round reads. -/
theorem text_read (h : CutInto buf pieces s) (hin : s.byte_count < buf.length) :
    pieces.flatten ++ (s.line ++ [buf[s.byte_count]?.getD 0]) = buf.take (s.byte_count + 1) := by
  rw [take_succ_getD hin, ← h.text, List.append_assoc]

theorem next_read (h : CutInto buf pieces s) (hin : s.byte_count < buf.length) :
    CutInto buf pieces (s.read buf).next := by
  refine ⟨?_, h.cur_start, congrArg (· + 1) h.cur_end, h.regions⟩
  rw [show (s.read buf).next.line = s.line ++ [buf[s.byte_count]?.getD 0] from s.toReader.line_next_read buf]
  exact h.text_read hin

theorem length_line (h : CutInto buf pieces s) (hin : s.byte_count ≤ buf.length) :
    pieces.flatten.length + s.mem_count = s.byte_count := by
  have hlen := congrArg List.length h.text
  rw [List.length_append, Reader.length_line, List.length_take, Nat.min_eq_left hin] at hlen
  exact hlen

/-- A region up to the byte `stop`, which may be behind the bytes read. -/
theorem regions_snoc (h : CutInto buf pieces s) {piece : List UInt8} {stop : Nat}
    (hpiece : pieces.flatten ++ piece = buf.take (stop + 1)) (hstop : stop < buf.length) :
    s.regions ++ [.fresh s.cur_start stop] = consecutive_regions 0 (pieces ++ [piece]) := by
  rw [h.regions, h.cur_start]
  apply consecutive_regions_snoc
  rw [← List.length_append, hpiece, List.length_take]
  omega

/-- The message that ends at `t` is cut off. -/
theorem end_request (h : CutInto buf pieces s) {piece : List UInt8} {t : Split}
    (hpiece : pieces.flatten ++ piece = buf.take t.byte_count) (hin : t.byte_count ≤ buf.length)
    (hstart : t.cur_start = s.cur_start) (hend : t.cur_end + 1 = t.byte_count) (hregions : t.regions = s.regions) :
    CutInto buf (pieces ++ [piece]) t.end_request := by
  refine ⟨?_, ?_, hend, ?_⟩
  · rw [List.flatten_append, List.flatten_singleton]
    exact (List.append_nil _).trans hpiece
  · rw [List.flatten_append, List.flatten_singleton, hpiece, List.length_take, Nat.min_eq_left hin]
    exact hend
  · rw [← h.regions_snoc (hend ▸ hpiece) (by omega), ← hstart, ← hregions]
    rfl

end CutInto

end aflnet
