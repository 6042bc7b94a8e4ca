import AflnetLegion.Protocol.Pieces

namespace aflnet

/-- A byte of the buffer, at an unsigned int. -/
def byte_at (buf : List UInt8) (i : UInt32) : UInt8 := buf[i.toNat]?.getD 0

/-- The state of the extractor of DICOM requests. Positions are unsigned ints, which wrap as
those of the source do. -/
structure DicomSplit where
  byte_count : UInt32
  regions : List region_t

/-- The third to the sixth byte of a PDU, its length without the six bytes of the header. -/
def pdu_length (buf : List UInt8) (byte_count : UInt32) : UInt32 :=
  ntohl (byte_at buf (byte_count + 2)) (byte_at buf (byte_count + 3)) (byte_at buf (byte_count + 4))
    (byte_at buf (byte_count + 5))

/-- The loop's body. All sums are unsigned ints, and a sum that wraps ends the loop. So does a
PDU that is not whole. -/
def dicom_body (buf : List UInt8) (buf_size : UInt32) (s : DicomSplit) : ForInStep DicomSplit :=
  if s.byte_count + 2 ≥ buf_size ∨ s.byte_count + 5 ≥ buf_size then .done s
  else
    let packet_length := pdu_length buf s.byte_count + 6
    let first := s.byte_count
    let last := s.byte_count + packet_length - 1
    if last < first then .done s
    else if last ≥ buf_size then .done s
    else
      let s := { s with regions := s.regions ++ [.fresh first.toNat last.toNat] }
      if s.byte_count + packet_length < s.byte_count then .done s
      else if s.byte_count + packet_length < packet_length then .done s
      else .yield { s with byte_count := s.byte_count + packet_length }

section dicom_body

variable {buf : List UInt8} {buf_size : UInt32} {s t : DicomSplit}

/-- No region has a length that wraps around: a PDU ends in the buffer. -/
theorem packet_in_buffer {first packet_length : UInt32} (hlast : ¬ first + packet_length - 1 < first)
    (hsize : ¬ first + packet_length - 1 ≥ buf_size) :
    0 < packet_length.toNat ∧ first.toNat + packet_length.toNat ≤ buf_size.toNat ∧
      (first + packet_length).toNat = first.toNat + packet_length.toNat ∧
      (first + packet_length - 1).toNat + 1 = first.toNat + packet_length.toNat := by
  have hfirst := first.toNat_lt
  have hpacket := packet_length.toNat_lt
  have hbuf := buf_size.toNat_lt
  simp only [UInt32.lt_iff_toNat_lt, UInt32.le_iff_toNat_le, ge_iff_le, UInt32.toNat_sub, UInt32.toNat_add,
    UInt32.toNat_one] at hlast hsize ⊢
  omega

/-- A round ends the loop and leaves all as it is, or cuts off the PDU. -/
theorem dicom_body_cases (buf : List UInt8) (buf_size : UInt32) (s : DicomSplit) :
    dicom_body buf buf_size s = .done s ∨
      ∃ t, dicom_body buf buf_size s = .yield t ∧ s.byte_count.toNat < t.byte_count.toNat ∧ t.byte_count ≤ buf_size ∧
        t.byte_count.toNat = s.byte_count.toNat + (pdu_length buf s.byte_count + 6).toNat ∧
        t.regions = s.regions ++ [.fresh s.byte_count.toNat ((t.byte_count.toNat : Int) - 1)] := by
  rw [dicom_body]
  dsimp only
  split
  · exact Or.inl rfl
  split
  · exact Or.inl rfl
  split
  · exact Or.inl rfl
  rename_i hlast hsize
  obtain ⟨hpos, hin, hsum, hend⟩ := packet_in_buffer hlast hsize
  rw [if_neg, if_neg]
  · refine Or.inr ⟨_, rfl, ?_, ?_, hsum, ?_⟩
    · rw [hsum]
      exact Nat.lt_add_of_pos_right hpos
    · rw [UInt32.le_iff_toNat_le, hsum]
      exact hin
    · rw [hsum, ← hend]
      simp
  · rw [UInt32.lt_iff_toNat_lt, hsum]
    omega
  · rw [UInt32.lt_iff_toNat_lt, hsum]
    omega

/-- Every round that goes on reads at least one more byte: a length that wraps around to 0 ends
the loop. -/
theorem dicom_body_advances (hmore : s.byte_count < buf_size) (hbody : dicom_body buf buf_size s = .yield t) :
    buf_size.toNat - t.byte_count.toNat < buf_size.toNat - s.byte_count.toNat := by
  have hin := UInt32.lt_iff_toNat_lt.mp hmore
  rcases dicom_body_cases buf buf_size s with hdone | ⟨u, hyield, hlt, _⟩
  · cases hdone.symm.trans hbody
  · cases hyield.symm.trans hbody
    omega

end dicom_body

/-- The loop of the extractor, which ends as the position goes up. -/
def dicom_loop (buf : List UInt8) (buf_size : UInt32) : Loop DicomSplit where
  more := fun s => s.byte_count < buf_size
  body := dicom_body buf buf_size
  measure := fun s => buf_size.toNat - s.byte_count.toNat
  decreases := fun _ _ hmore hbody => dicom_body_advances (of_decide_eq_true hmore) hbody

/-- The bytes that are left make one more region: a PDU that is not whole, or fewer bytes than a
header has. -/
def extract_requests_dicom (buf : List UInt8) (buf_size : UInt32) : List region_t :=
  let s := (dicom_loop buf buf_size).exit { byte_count := 0, regions := [] }
  if s.byte_count < buf_size ∧ 0 < buf_size then
    s.regions ++ [.fresh s.byte_count.toNat (buf_size - 1).toNat]
  else s.regions

/-- The 32-bit number at the byte `i`, in network byte order and not modulo 2^32. -/
def length_field (buf : List UInt8) (i : Nat) : Nat :=
  (((buf[i]?.getD 0).toNat * 256 + (buf[i + 1]?.getD 0).toNat) * 256 + (buf[i + 2]?.getD 0).toNat) * 256 +
    (buf[i + 3]?.getD 0).toNat

/-- A region that is exactly one PDU. -/
def IsPdu (buf : List UInt8) (region : region_t) : Prop :=
  region.end_byte - region.start_byte + 1 = ((6 + length_field buf (region.start_byte.toNat + 2)) % UInt32.size : Nat)

section extract_requests_dicom

variable {buf : List UInt8} {buf_size : UInt32}

/-- The number in the header of a PDU, as it is added up byte by byte. -/
theorem toNat_pdu_length {byte_count : UInt32} (hlt : byte_count.toNat < 2 ^ 31) :
    (pdu_length buf byte_count).toNat = length_field buf (byte_count.toNat + 2) := by
  have hsum : ∀ k : UInt32, k.toNat < 6 → (byte_count + k).toNat = byte_count.toNat + k.toNat := fun k hk => by
    rw [UInt32.toNat_add]
    omega
  simp only [pdu_length, toNat_ntohl, byte_at, length_field]
  rw [hsum 2 (by decide), hsum 3 (by decide), hsum 4 (by decide), hsum 5 (by decide)]
  rfl

/-- The regions found so far: each is a PDU, and together they reach up to the byte that is read
next. -/
structure DicomCut (buf : List UInt8) (buf_size : UInt32) (s : DicomSplit) : Prop where
  covers : Covers s.regions s.byte_count.toNat
  pdus : ∀ region ∈ s.regions, IsPdu buf region
  within : s.byte_count ≤ buf_size

/-- At the end of the loop the regions are PDUs, one behind the other. -/
theorem dicom_loop_exit (hlt : buf_size.toNat < 2 ^ 31) :
    DicomCut buf buf_size ((dicom_loop buf buf_size).exit { byte_count := 0, regions := [] }) := by
  refine Loop.exit_rule (I := DicomCut buf buf_size) (Q := DicomCut buf buf_size) ?_ (fun s hs _ => hs) ?_ ?_
  · exact ⟨⟨rfl, List.forall_mem_nil _⟩, List.forall_mem_nil _, UInt32.le_iff_toNat_le.mpr (Nat.zero_le buf_size.toNat)⟩
  · intro s t hs _ hbody
    rcases dicom_body_cases buf buf_size s with hdone | ⟨u, hyield, _⟩
    · cases hdone.symm.trans hbody
      exact hs
    · cases hyield.symm.trans hbody
  · intro s t hs hmore hbody
    rcases dicom_body_cases buf buf_size s with hdone | ⟨u, hyield, hadvance, hin, hlength, hregions⟩
    · cases hdone.symm.trans hbody
    · cases hyield.symm.trans hbody
      have hstart : s.byte_count.toNat < 2 ^ 31 := Nat.lt_of_le_of_lt (UInt32.le_iff_toNat_le.mp hs.within) hlt
      rw [UInt32.toNat_add, toNat_pdu_length hstart, Nat.add_comm (length_field ..)] at hlength
      change _ = _ + (6 + length_field buf (s.byte_count.toNat + 2)) % UInt32.size at hlength
      refine ⟨?_, ?_, hin⟩
      · rw [hregions]
        exact hs.covers.concat hadvance
      · rw [hregions]
        refine List.forall_mem_append.mpr ⟨hs.pdus, List.forall_mem_singleton.mpr ?_⟩
        change (t.byte_count.toNat : Int) - 1 - (s.byte_count.toNat : Int) + 1 =
          ((6 + length_field buf (s.byte_count.toNat + 2)) % UInt32.size : Nat)
        omega

/-- The regions of DICOM requests are consecutive pieces of the whole buffer, and all but the last
one are PDUs. -/
theorem covers_extract_requests_dicom (hpos : 0 < buf_size.toNat) (hlt : buf_size.toNat < 2 ^ 31) :
    Covers (extract_requests_dicom buf buf_size) buf_size.toNat ∧
      ∀ region ∈ (extract_requests_dicom buf buf_size).dropLast, IsPdu buf region := by
  obtain ⟨hcovers, hpdus, hwithin⟩ := @dicom_loop_exit buf buf_size hlt
  rw [extract_requests_dicom]
  split
  · rename_i hleft
    have hlast : ((buf_size - 1).toNat : Int) = (buf_size.toNat : Int) - 1 := by
      rw [UInt32.toNat_sub_of_le buf_size 1 (UInt32.le_iff_toNat_le.mpr hpos)]
      change ((buf_size.toNat - 1 : Nat) : Int) = _
      omega
    rw [hlast, List.dropLast_concat]
    exact ⟨hcovers.concat (UInt32.lt_iff_toNat_lt.mp hleft.1), hpdus⟩
  · rename_i hnone
    have hall : ((dicom_loop buf buf_size).exit { byte_count := 0, regions := [] }).byte_count.toNat = buf_size.toNat := by
      refine Nat.le_antisymm (UInt32.le_iff_toNat_le.mp hwithin) (Nat.not_lt.mp fun hleft => hnone ?_)
      exact ⟨UInt32.lt_iff_toNat_lt.mpr hleft, UInt32.lt_iff_toNat_lt.mpr hpos⟩
    rw [hall] at hcovers
    exact ⟨hcovers, fun region hregion => hpdus region (List.dropLast_subset _ hregion)⟩

end extract_requests_dicom

end aflnet
