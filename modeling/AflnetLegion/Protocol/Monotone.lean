import AflnetLegion.Protocol.Responses

namespace aflnet

section body

variable {buf : List UInt8} {buf_size : Nat} {s t u : Scan}

/-- A round that ends the loop has not taken back a code. -/
theorem grows_of_done (h : (ForInStep.done u : ForInStep Scan) = .done t ∨ (ForInStep.done u : ForInStep Scan) = .yield t)
    (hgrows : s.state_sequence <+: u.state_sequence) : s.state_sequence <+: t.state_sequence := by
  simp only [ForInStep.done.injEq, reduceCtorEq, or_false] at h
  rwa [← h]

theorem grows_of_yield (h : (ForInStep.yield u : ForInStep Scan) = .done t ∨ (ForInStep.yield u : ForInStep Scan) = .yield t)
    (hgrows : s.state_sequence <+: u.state_sequence) : s.state_sequence <+: t.state_sequence := by
  simp only [ForInStep.yield.injEq, reduceCtorEq, false_or] at h
  rwa [← h]

theorem status_line_body_grows (h : status_line_body buf s = .done t ∨ status_line_body buf s = .yield t) :
    s.state_sequence <+: t.state_sequence := by
  rw [status_line_body] at h
  split at h
  · split at h
    · exact grows_of_done h List.prefix_rfl
    · exact grows_of_yield h (List.prefix_append ..)
  · exact grows_of_yield h List.prefix_rfl

theorem rtsp_body_grows (h : rtsp_body buf s = .done t ∨ rtsp_body buf s = .yield t) :
    s.state_sequence <+: t.state_sequence := by
  rw [rtsp_body] at h
  split at h
  · split at h
    · split at h
      · exact grows_of_done h List.prefix_rfl
      · exact grows_of_yield h (List.prefix_append ..)
    · exact grows_of_yield h List.prefix_rfl
  · exact grows_of_yield h List.prefix_rfl

theorem dns_body_grows (h : dns_body buf s = .done t ∨ dns_body buf s = .yield t) :
    s.state_sequence <+: t.state_sequence := by
  rw [dns_body] at h
  dsimp only at h
  split at h
  · exact grows_of_yield h (List.prefix_append ..)
  · exact grows_of_yield h List.prefix_rfl

theorem tls_body_grows (h : tls_body buf buf_size s = .done t ∨ tls_body buf buf_size s = .yield t) :
    s.state_sequence <+: t.state_sequence := by
  rw [tls_body] at h
  dsimp only at h
  split at h
  · exact grows_of_yield h (List.prefix_append ..)
  · exact grows_of_yield h List.prefix_rfl

/-- A round on the first `n` bytes does what it does on more bytes, unless the payload of
a record does not end before `n`. Then it is the last one. -/
theorem tls_body_cut {n m : Nat} (hle : n ≤ m) (s : Scan) : tls_body buf m s = tls_body buf n s ∨
    ∃ t u, tls_body buf n s = .yield t ∧ decide (t.byte_count < n) = false ∧ tls_body buf m s = .yield u ∧
      t.state_sequence = u.state_sequence := by
  rw [tls_body, tls_body]
  dsimp only
  split
  · rename_i hsix
    generalize (_ - 1 : UInt32).toNat = left
    by_cases hin : (s.read buf).byte_count + left < n
    · left
      have hskip : ∀ size, n ≤ size → skip_payload size left (s.read buf).byte_count = (s.read buf).byte_count + left := by
        intro size hsize
        rw [skip_payload_eq]
        omega
      rw [hskip m hle, hskip n (Nat.le_refl n), if_pos hin, if_pos (Nat.lt_of_lt_of_le hin hle)]
    · right
      refine ⟨_, _, rfl, ?_, rfl, rfl⟩
      have hskip : n ≤ skip_payload n left (s.read buf).byte_count := by
        rw [skip_payload_eq]
        omega
      rw [decide_eq_false_iff_not]
      simp only [if_neg (Nat.not_lt.mpr hskip)]
      exact Nat.not_lt.mpr hskip
  · exact Or.inl rfl

end body

/-- A loop that reads on in every round finds the same codes in a beginning of the response, and
maybe fewer of them. -/
theorem reading_loop_prefix {body : Scan → ForInStep Scan}
    {advances : ∀ s t, body s = .yield t → s.byte_count < t.byte_count}
    (hgrows : ∀ s t, body s = .done t ∨ body s = .yield t → s.state_sequence <+: t.state_sequence) {n m : Nat}
    (hle : n ≤ m) : ((reading_loop body n advances).exit .start).state_sequence <+:
      ((reading_loop body m advances).exit .start).state_sequence := by
  have hlong : (reading_loop body m advances).Grows Scan.state_sequence := fun s t _ => hgrows s t
  refine (reading_loop body n advances).exit_output_le hlong (fun s hmore => ?_) (fun _ _ => Or.inl rfl) Scan.start
  exact decide_eq_true (Nat.lt_of_lt_of_le (of_decide_eq_true hmore) hle)

/-- The codes of the beginning of a response are the first codes of the response, for each of
the six protocols and whatever the bytes are. The codes found in a part of a response stay when
more of it comes. -/
theorem extract_response_codes_prefix (p : protocol) (buf : List UInt8) (n m : Nat) (hle : n ≤ m) :
    extract_response_codes p buf n <+: extract_response_codes p buf m := by
  cases p with
  | smtp => exact reading_loop_prefix (fun _ _ => status_line_body_grows) hle
  | ftp => exact reading_loop_prefix (fun _ _ => status_line_body_grows) hle
  | rtsp => exact reading_loop_prefix (fun _ _ => rtsp_body_grows) hle
  | dns => exact reading_loop_prefix (fun _ _ => dns_body_grows) hle
  | dicom =>
    change extract_response_codes_dicom buf n <+: extract_response_codes_dicom buf m
    rw [extract_response_codes_dicom, extract_response_codes_dicom]
    by_cases hn : n = 0
    · rw [if_pos hn]
      exact List.nil_prefix
    · rw [if_neg hn, if_neg (by omega)]
  | tls =>
    have hlong : (tls_loop buf m).Grows Scan.state_sequence := fun _ _ _ => tls_body_grows
    refine (tls_loop buf n).exit_output_le hlong (fun s hmore => ?_) (fun s _ => ?_) Scan.start
    · exact decide_eq_true (Nat.lt_of_lt_of_le (of_decide_eq_true hmore) hle)
    · exact tls_body_cut hle s

/-- The buffer holds `220 ok`, a line end, and the start of the next line. -/
theorem smtp_prefix_of_two_lines : extract_response_codes .smtp [50, 50, 48, 32, 111, 107, 13, 10, 50, 53] 8 <+:
    extract_response_codes .smtp [50, 50, 48, 32, 111, 107, 13, 10, 50, 53] 10 :=
  extract_response_codes_prefix .smtp _ 8 10 (by decide)

end aflnet
