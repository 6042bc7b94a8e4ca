import AflnetLegion.Lib.PrefixCode
import AflnetLegion.Protocol.Pieces

open PrefixCode

namespace aflnet

/-- The loop's body. A DNS header is 12 bytes long, and the first null byte behind it ends
the query up to a tail of 4 bytes, which is skipped unread. -/
def dns_request_body (buf : List UInt8) (buf_size : Nat) (s : Split) : ForInStep Split :=
  let s := s.read buf
  if 12 ≤ s.mem_count ∧ s.mem s.mem_count = 0 then
    let s := { s with cur_end := s.cur_end + 4, byte_count := s.byte_count + 4 }
    if s.cur_end = buf_size - 1 then .done { s with regions := s.regions ++ [s.region] } else .yield s.end_request
  else
    let s := s.next
    if s.cur_end = buf_size - 1 then .done { s with regions := s.regions ++ [s.region] } else .yield s

theorem dns_request_body_advances {buf : List UInt8} {buf_size : Nat} {s t : Split}
    (h : dns_request_body buf buf_size s = .yield t) : s.byte_count < t.byte_count := by
  rw [dns_request_body] at h
  dsimp only at h
  split at h
  · split at h
    · cases h
    · cases h
      change s.byte_count < s.byte_count + 1 + 4
      omega
  · split at h
    · cases h
    · cases h
      exact Nat.lt_succ_self _

/-- The loop of the extractor. A round reads a byte or skips a whole query, so the position goes
up. -/
def dns_request_loop (buf : List UInt8) (buf_size : Nat) : Loop Split where
  more := fun s => s.byte_count < buf_size
  body := dns_request_body buf buf_size
  measure := fun s => buf_size - s.byte_count
  decreases := fun _ _ hmore hbody => Nat.sub_lt_sub_left (of_decide_eq_true hmore) (dns_request_body_advances hbody)

/-- `extract_requests_dns`: a buffer without any query makes one region. -/
def extract_requests_dns (buf : List UInt8) (buf_size : Nat) : List region_t :=
  regions_or_whole ((dns_request_loop buf buf_size).exit .start).regions buf_size

/-- A header, a name up to the null byte that ends it, and what follows. -/
def IsNamed (query body tail : List UInt8) : Prop := query = body ++ 0 :: tail ∧ 12 ≤ body.length ∧ 0 ∉ body.drop 12

/-- A whole query. -/
def IsQuery (query : List UInt8) : Prop := ∃ body tail, IsNamed query body tail ∧ tail.length = 4

/-- A query that ends within its tail, after at least one byte of it. -/
def IsTruncated (query : List UInt8) : Prop := ∃ body tail, IsNamed query body tail ∧ 1 ≤ tail.length ∧ tail.length ≤ 3

section query

variable {query query' body body' tail tail' current : List UInt8}

/-- The first null byte behind the header is in one place. -/
theorem IsNamed.unique (h : IsNamed query body tail) (h' : IsNamed query' body' tail') (hstarts : query <+: query') :
    body = body' ∧ tail <+: tail' := by
  have hnot : ∀ {x y rest : List UInt8}, 12 ≤ x.length → 0 ∉ (x ++ y).drop 12 → ∀ {z : List UInt8}, 0 :: rest = y ++ z → y = [] := by
    intro x y rest hlong hfree z heq
    cases y with
    | nil => rfl
    | cons c y =>
      rw [List.cons_append] at heq
      rw [List.drop_append_of_le_length hlong, ← (List.cons.inj heq).1] at hfree
      exact absurd (List.mem_append_right _ (List.mem_cons_self ..)) hfree
  obtain ⟨rfl, hlong, hfree⟩ := h
  obtain ⟨rfl, hlong', hfree'⟩ := h'
  obtain ⟨rest, heq⟩ := hstarts
  rw [List.append_assoc, List.cons_append] at heq
  rcases List.append_eq_append_iff.mp heq with ⟨more, rfl, hmore⟩ | ⟨more, rfl, hmore⟩
  · obtain rfl := hnot hlong hfree' hmore
    rw [List.nil_append] at hmore
    exact ⟨(List.append_nil _).symm, rest, (List.cons.inj hmore).2⟩
  · obtain rfl := hnot hlong' hfree hmore
    rw [List.nil_append] at hmore
    exact ⟨List.append_nil _, rest, (List.cons.inj hmore).2.symm⟩

/-- No query is the start of another one, as the first null byte behind the header decides where
it ends. -/
theorem prefixFree_isQuery : PrefixFree IsQuery := by
  rintro query query' ⟨body, tail, hnamed, hlen⟩ ⟨body', tail', hnamed', hlen'⟩ hstarts
  obtain ⟨rfl, htail⟩ := hnamed.unique hnamed' hstarts
  obtain rfl := htail.eq_of_length (hlen.trans hlen'.symm)
  exact hnamed.1.trans hnamed'.1.symm

theorem IsQuery.length_lt (h : IsQuery query) : 16 < query.length := by
  obtain ⟨body, tail, ⟨rfl, hlong, _⟩, hlen⟩ := h
  rw [List.length_append, List.length_cons, hlen]
  omega

theorem IsQuery.ne_nil (h : IsQuery query) : query ≠ [] :=
  List.ne_nil_of_length_pos (Nat.lt_of_le_of_lt (Nat.zero_le _) h.length_lt)

/-- A query that is cut short does not start with a whole one. -/
theorem wordless_of_truncated (h : IsTruncated query) : Wordless IsQuery query := by
  obtain ⟨body, tail, hnamed, _, hlen⟩ := h
  rintro query' ⟨body', tail', hnamed', hlen'⟩ hstarts
  obtain ⟨rfl, htail⟩ := hnamed'.unique hnamed hstarts
  have hle := htail.length_le
  omega

/-- The null byte of a name is seen before the last byte of the buffer is. -/
theorem IsNamed.null_mem (h : IsNamed query body tail) (hne : tail ≠ []) (rest : List UInt8) :
    0 ∈ (query ++ rest).dropLast.drop 12 := by
  obtain ⟨rfl, hlong, _⟩ := h
  rw [List.append_assoc, List.cons_append, List.dropLast_append_of_ne_nil (List.cons_ne_nil _ _),
    List.dropLast_cons_of_ne_nil (List.append_ne_nil_of_left_ne_nil hne _), List.drop_append_of_le_length hlong]
  exact List.mem_append_right _ (List.mem_cons_self ..)

/-- A query would have a null byte that has been looked for. -/
theorem wordless_of_no_null (h : 0 ∉ query.dropLast.drop 12) : Wordless IsQuery query := by
  rintro query' ⟨body, tail, hnamed, hlen⟩ ⟨rest, rfl⟩
  refine h (hnamed.null_mem ?_ rest)
  rintro rfl
  cases hlen

/-- Without a null byte behind the header there is no truncated query either. -/
theorem not_truncated_of_no_null (h : 0 ∉ query.dropLast.drop 12) : ¬ IsTruncated query := by
  rintro ⟨body, tail, hnamed, hlen, _⟩
  have hmem := hnamed.null_mem (List.length_pos_iff.mp hlen) []
  rw [List.append_nil] at hmem
  exact h hmem

end query

/-- What the DNS extractor has cut at the head of its loop. Only a query that has just ended
can leave the last byte to be read. -/
structure AtQuery (buf : List UInt8) (buf_size : Nat) (queries : List (List UInt8)) (s : Split) : Prop extends
    CutInto buf queries s where
  ended : ∀ query ∈ queries, IsQuery query
  unended : 0 ∉ s.line.drop 12
  within : s.byte_count ≤ buf_size
  one_left : s.byte_count + 1 = buf_size → s.line = []
  none_left : s.byte_count = buf_size → s.line.length = 1

/-- What the loop found: it cuts the buffer into queries and a rest. A rest of one byte is in
no region, the region of a truncated query ends behind the buffer, and in all other cases the
regions are consecutive pieces of the whole buffer. -/
def DnsFound (buf : List UInt8) (buf_size : Nat) (regions : List region_t) : Prop :=
  ∃ queries rest, (∀ query ∈ queries, IsQuery query) ∧ Wordless IsQuery rest ∧
    queries.flatten ++ rest = buf.take buf_size ∧
    ((rest.length = 1 ∧ regions = consecutive_regions 0 queries) ∨
      (IsTruncated rest ∧ ∃ start stop : Nat, .fresh start stop ∈ regions ∧ buf_size ≤ stop) ∨
      (rest.length ≠ 1 ∧ ¬ IsTruncated rest ∧ ∃ pieces, (∀ piece ∈ pieces, piece ≠ []) ∧
        pieces.flatten = buf.take buf_size ∧ regions = consecutive_regions 0 pieces))

section dns_request_body

variable {buf : List UInt8} {buf_size : Nat} {queries : List (List UInt8)} {s : Split}

theorem at_query_start (hpos : 0 < buf_size) : AtQuery buf buf_size [] .start where
  toCutInto := CutInto.start
  ended := fun _ hfalse => by cases hfalse
  unended := List.not_mem_nil
  within := Nat.zero_le _
  one_left := fun _ => rfl
  none_left := fun hzero => absurd hzero (Nat.ne_of_lt hpos)

/-- The branch taken depends on the byte just read and on those before it. -/
theorem ends_query_iff (s : Split) (buf : List UInt8) :
    (12 ≤ (s.read buf).mem_count ∧ (s.read buf).mem (s.read buf).mem_count = 0) ↔
      12 ≤ s.line.length ∧ buf[s.byte_count]?.getD 0 = 0 := by
  rw [Reader.length_line, ← s.toReader.mem_read buf]
  exact Iff.rfl

/-- The bytes up to the end of the tail. -/
theorem AtQuery.text_tail (h : AtQuery buf buf_size queries s) (hin : s.byte_count < buf_size) (hsize : buf_size ≤ buf.length)
    (hnull : buf[s.byte_count]?.getD 0 = 0) (len : Nat) :
    queries.flatten ++ (s.line ++ 0 :: (buf.drop (s.byte_count + 1)).take len) = buf.take (s.byte_count + 1 + len) := by
  have htext := h.text_read (Nat.lt_of_lt_of_le hin hsize)
  rw [hnull] at htext
  rw [List.take_add, ← htext]
  simp only [List.append_assoc, List.singleton_append]

/-- A null byte behind the header ends the name of the query that is being read. -/
theorem AtQuery.isNamed (h : AtQuery buf buf_size queries s) (hlong : 12 ≤ s.line.length) (tail : List UInt8) :
    IsNamed (s.line ++ 0 :: tail) s.line tail := ⟨rfl, hlong, h.unended⟩

/-- The null byte is not the last byte of the buffer. -/
theorem AtQuery.tail_in (h : AtQuery buf buf_size queries s) (hlong : 12 ≤ s.line.length) : s.byte_count + 1 ≠ buf_size := by
  intro hlast
  rw [h.one_left hlast] at hlong
  cases hlong

/-- The query whose tail is read to its end. -/
theorem AtQuery.isQuery (h : AtQuery buf buf_size queries s) (hlong : 12 ≤ s.line.length)
    (htail : s.byte_count + 5 ≤ buf.length) : IsQuery (s.line ++ 0 :: (buf.drop (s.byte_count + 1)).take 4) := by
  refine ⟨_, _, h.isNamed hlong _, ?_⟩
  rw [List.length_take, List.length_drop]
  omega

/-- A query whose tail is in the buffer is cut off with it. -/
theorem AtQuery.end_query (h : AtQuery buf buf_size queries s) (hin : s.byte_count < buf_size) (hsize : buf_size ≤ buf.length)
    (hlong : 12 ≤ s.line.length) (hnull : buf[s.byte_count]?.getD 0 = 0) (htail : s.byte_count + 5 < buf_size) :
    AtQuery buf buf_size (queries ++ [s.line ++ 0 :: (buf.drop (s.byte_count + 1)).take 4])
      { s.read buf with cur_end := s.cur_end + 4, byte_count := s.byte_count + 1 + 4 : Split }.end_request := by
  have hquery := h.isQuery hlong (by omega)
  have hcut := h.toCutInto.end_request (t := { s.read buf with cur_end := s.cur_end + 4, byte_count := s.byte_count + 1 + 4 : Split })
    (h.text_tail hin hsize hnull 4) (show s.byte_count + 1 + 4 ≤ buf.length by omega) rfl (congrArg (· + 5) h.cur_end) rfl
  exact ⟨hcut, List.forall_mem_append.mpr ⟨h.ended, List.forall_mem_singleton.mpr hquery⟩, List.not_mem_nil,
    Nat.le_of_lt htail, fun _ => rfl, fun hnone => absurd hnone (Nat.ne_of_lt htail)⟩

theorem AtQuery.next (h : AtQuery buf buf_size queries s) (hin : s.byte_count < buf_size) (hsize : buf_size ≤ buf.length)
    (hno : ¬ (12 ≤ s.line.length ∧ buf[s.byte_count]?.getD 0 = 0)) :
    CutInto buf queries (s.read buf).next ∧ 0 ∉ (s.read buf).next.line.drop 12 := by
  have hline : (s.read buf).next.line = s.line ++ [buf[s.byte_count]?.getD 0] := s.toReader.line_next_read buf
  refine ⟨h.next_read (Nat.lt_of_lt_of_le hin hsize), ?_⟩
  rw [hline]
  by_cases hlong : 12 ≤ s.line.length
  · rw [List.drop_append_of_le_length hlong, List.mem_append, List.mem_singleton]
    rintro (hbefore | hlast)
    · exact h.unended hbefore
    · exact hno ⟨hlong, hlast.symm⟩
  · rw [List.drop_eq_nil_of_le (by rw [List.length_append, List.length_singleton]; omega)]
    exact List.not_mem_nil

/-- The tail ends with the buffer. -/
theorem AtQuery.found_query (h : AtQuery buf buf_size queries s) (hin : s.byte_count < buf_size) (hsize : buf_size ≤ buf.length)
    (hlong : 12 ≤ s.line.length) (hnull : buf[s.byte_count]?.getD 0 = 0) (hlast : s.cur_end + 4 = buf_size - 1) :
    DnsFound buf buf_size (s.regions ++ [.fresh s.cur_start (s.cur_end + 4 : Nat)]) := by
  rw [h.cur_end] at hlast ⊢
  have htext := h.text_tail hin hsize hnull 4
  have hall : s.byte_count + 1 + 4 = buf_size := by omega
  have hqueries : ∀ query ∈ queries ++ [s.line ++ 0 :: (buf.drop (s.byte_count + 1)).take 4], IsQuery query :=
    List.forall_mem_append.mpr ⟨h.ended, List.forall_mem_singleton.mpr (h.isQuery hlong (by omega))⟩
  have hflatten : (queries ++ [s.line ++ 0 :: (buf.drop (s.byte_count + 1)).take 4]).flatten = buf.take buf_size := by
    rw [List.flatten_append, List.flatten_singleton, htext, hall]
  refine ⟨_, [], hqueries, wordless_of_short (fun _ hquery => hquery.length_lt) (Nat.zero_le _),
    (List.append_nil _).trans hflatten, Or.inr (Or.inr ⟨Nat.zero_ne_one, ?_, _, ?_, hflatten, ?_⟩)⟩
  · exact not_truncated_of_no_null List.not_mem_nil
  · exact fun query hquery => (hqueries query hquery).ne_nil
  · exact h.regions_snoc htext (by omega)

/-- A query whose tail goes beyond the buffer. -/
theorem AtQuery.found_truncated (h : AtQuery buf buf_size queries s) (hin : s.byte_count < buf_size)
    (hsize : buf_size ≤ buf.length) (hlong : 12 ≤ s.line.length) (hnull : buf[s.byte_count]?.getD 0 = 0)
    (htail : buf_size < s.byte_count + 5) : DnsFound buf buf_size (s.regions ++ [.fresh s.cur_start (s.cur_end + 4 : Nat)]) := by
  have hlast := h.tail_in hlong
  have htext := h.text_tail hin hsize hnull (buf_size - (s.byte_count + 1))
  rw [Nat.add_sub_cancel' hin] at htext
  have hlen : ((buf.drop (s.byte_count + 1)).take (buf_size - (s.byte_count + 1))).length = buf_size - (s.byte_count + 1) := by
    rw [List.length_take, List.length_drop]
    omega
  have htruncated : IsTruncated (s.line ++ 0 :: (buf.drop (s.byte_count + 1)).take (buf_size - (s.byte_count + 1))) :=
    ⟨_, _, h.isNamed hlong _, by omega, by omega⟩
  refine ⟨queries, _, h.ended, wordless_of_truncated htruncated, htext, Or.inr (Or.inl ⟨htruncated, _, _,
    List.mem_append_right _ (List.mem_singleton.mpr rfl), ?_⟩)⟩
  rw [h.cur_end]
  omega

/-- The last byte but one was read and ended no query. -/
theorem AtQuery.found_rest (h : AtQuery buf buf_size queries s) (hin : s.byte_count < buf_size) (hsize : buf_size ≤ buf.length)
    (hno : ¬ (12 ≤ s.line.length ∧ buf[s.byte_count]?.getD 0 = 0)) (hlast : s.cur_end + 1 = buf_size - 1) :
    DnsFound buf buf_size (s.regions ++ [.fresh s.cur_start (s.cur_end + 1 : Nat)]) := by
  obtain ⟨hcut, hunended⟩ := h.next hin hsize hno
  have hline : (s.read buf).next.line = s.line ++ [buf[s.byte_count]?.getD 0] := s.toReader.line_next_read buf
  rw [hline] at hunended
  rw [h.cur_end] at hlast ⊢
  have htext : queries.flatten ++ (s.line ++ [buf[s.byte_count]?.getD 0] ++ [buf[s.byte_count + 1]?.getD 0]) =
      buf.take (s.byte_count + 1 + 1) := by
    rw [take_succ_getD (by omega), ← h.text_read (by omega)]
    exact (List.append_assoc _ _ _).symm
  have hfree : 0 ∉ (s.line ++ [buf[s.byte_count]?.getD 0] ++ [buf[s.byte_count + 1]?.getD 0]).dropLast.drop 12 := by
    rw [List.dropLast_concat]
    exact hunended
  have hall : s.byte_count + 1 + 1 = buf_size := by omega
  refine ⟨queries, _, h.ended, wordless_of_no_null hfree, hall ▸ htext, Or.inr (Or.inr ⟨by simp, not_truncated_of_no_null hfree,
    queries ++ [s.line ++ [buf[s.byte_count]?.getD 0] ++ [buf[s.byte_count + 1]?.getD 0]], ?_, ?_, ?_⟩)⟩
  · exact List.forall_mem_append.mpr ⟨fun query hquery => (h.ended query hquery).ne_nil,
      List.forall_mem_singleton.mpr (List.append_ne_nil_of_right_ne_nil _ (List.cons_ne_nil _ _))⟩
  · rw [List.flatten_append, List.flatten_singleton, htext, hall]
  · exact h.regions_snoc htext (by omega)

/-- The round that breaks the loop. -/
theorem AtQuery.last {t : Split} (h : AtQuery buf buf_size queries s) (hin : s.byte_count < buf_size)
    (hsize : buf_size ≤ buf.length) (hbody : dns_request_body buf buf_size s = .done t) : DnsFound buf buf_size t.regions := by
  rw [dns_request_body] at hbody
  dsimp only at hbody
  split at hbody
  · rename_i hends
    obtain ⟨hlong, hnull⟩ := (ends_query_iff s buf).mp hends
    split at hbody
    · rename_i hlast
      cases hbody
      exact h.found_query hin hsize hlong hnull hlast
    · cases hbody
  · rename_i hgo
    split at hbody
    · rename_i hlast
      cases hbody
      exact h.found_rest hin hsize (fun hends => hgo ((ends_query_iff s buf).mpr hends)) hlast
    · cases hbody

/-- Any other round leads to the head of the loop again, or beyond the buffer. -/
theorem AtQuery.step {t : Split} (h : AtQuery buf buf_size queries s) (hin : s.byte_count < buf_size)
    (hsize : buf_size ≤ buf.length) (hbody : dns_request_body buf buf_size s = .yield t) :
    (∃ queries, AtQuery buf buf_size queries t) ∨ (buf_size < t.byte_count ∧ DnsFound buf buf_size t.regions) := by
  rw [dns_request_body] at hbody
  dsimp only at hbody
  split at hbody
  · rename_i hends
    obtain ⟨hlong, hnull⟩ := (ends_query_iff s buf).mp hends
    split at hbody
    · cases hbody
    · rename_i hnot
      cases hbody
      change s.cur_end + 4 ≠ buf_size - 1 at hnot
      rw [h.cur_end] at hnot
      by_cases htail : s.byte_count + 5 < buf_size
      · exact Or.inl ⟨_, h.end_query hin hsize hlong hnull htail⟩
      · refine Or.inr ⟨?_, h.found_truncated hin hsize hlong hnull (by omega)⟩
        change buf_size < s.byte_count + 1 + 4
        omega
  · rename_i hgo
    obtain ⟨hcut, hunended⟩ := h.next hin hsize fun hends => hgo ((ends_query_iff s buf).mpr hends)
    split at hbody
    · cases hbody
    · rename_i hnot
      cases hbody
      change s.cur_end + 1 ≠ buf_size - 1 at hnot
      rw [h.cur_end] at hnot
      refine Or.inl ⟨queries, hcut, h.ended, hunended, hin, fun hone => ?_, fun hnone => ?_⟩
      · change s.byte_count + 1 + 1 = buf_size at hone
        omega
      · rw [show (s.read buf).next.line = s.line ++ [buf[s.byte_count]?.getD 0] from s.toReader.line_next_read buf,
          h.one_left hnone]
        rfl

/-- All bytes have been read: the one behind the last query is left over. -/
theorem AtQuery.found_none (h : AtQuery buf buf_size queries s) (hall : s.byte_count = buf_size) :
    DnsFound buf buf_size s.regions := by
  have hone := h.none_left hall
  exact ⟨queries, s.line, h.ended, wordless_of_short (fun _ hquery => hquery.length_lt) (by omega),
    hall ▸ h.text, Or.inl ⟨hone, h.regions⟩⟩

/-- What the loop finds in any buffer that is not empty. -/
theorem dns_request_loop_exit (hpos : 0 < buf_size) (hsize : buf_size ≤ buf.length) :
    DnsFound buf buf_size ((dns_request_loop buf buf_size).exit .start).regions := by
  refine Loop.exit_rule
    (I := fun s => (∃ queries, AtQuery buf buf_size queries s) ∨ (buf_size < s.byte_count ∧ DnsFound buf buf_size s.regions))
    (Q := fun s => DnsFound buf buf_size s.regions) (Or.inl ⟨[], at_query_start hpos⟩) ?_ ?_ ?_
  · rintro s (⟨queries, h⟩ | ⟨_, hfound⟩) hstop
    · have hout : ¬ s.byte_count < buf_size := of_decide_eq_false hstop
      exact h.found_none (Nat.le_antisymm h.within (Nat.not_lt.mp hout))
    · exact hfound
  · rintro s t (⟨queries, h⟩ | ⟨hover, _⟩) hmore hbody
    · exact h.last (of_decide_eq_true hmore) hsize hbody
    · exact absurd (of_decide_eq_true hmore) (Nat.lt_asymm hover)
  · rintro s t (⟨queries, h⟩ | ⟨hover, _⟩) hmore hbody
    · exact h.step (of_decide_eq_true hmore) hsize hbody
    · exact absurd (of_decide_eq_true hmore) (Nat.lt_asymm hover)

end dns_request_body

/-- The text ends one byte behind its queries, or within the tail of a query. A text without a
query that ends so is covered all the same. -/
def DnsStray (text : List UInt8) : Prop :=
  ∃ queries rest, (∀ query ∈ queries, IsQuery query) ∧ queries.flatten ++ rest = text ∧
    ((queries ≠ [] ∧ rest.length = 1) ∨ IsTruncated rest)

theorem IsTruncated.length_lt {query : List UInt8} (h : IsTruncated query) : 1 < query.length := by
  obtain ⟨body, tail, ⟨rfl, hlong, _⟩, _⟩ := h
  rw [List.length_append, List.length_cons]
  omega

/-- The regions of DNS requests are consecutive pieces of the whole buffer, unless it ends one
byte behind its queries or within the tail of a query. -/
theorem covers_extract_requests_dns_iff {buf : List UInt8} {buf_size : Nat} (hpos : 0 < buf_size)
    (hsize : buf_size ≤ buf.length) :
    Covers (extract_requests_dns buf buf_size) buf_size ↔ ¬ DnsStray (buf.take buf_size) := by
  obtain ⟨queries, rest, hqueries, hrest, htext, hfound⟩ := dns_request_loop_exit hpos hsize
  have hne : ∀ query ∈ queries, query ≠ [] := fun query hquery => (hqueries query hquery).ne_nil
  have hlength : queries.flatten.length + rest.length = buf_size := by
    rw [← List.length_append, htext, List.length_take, Nat.min_eq_left hsize]
  have hstray : DnsStray (buf.take buf_size) ↔ (queries ≠ [] ∧ rest.length = 1) ∨ IsTruncated rest := by
    constructor
    · rintro ⟨queries', rest', hqueries', htext', hends⟩
      have hrest' : Wordless IsQuery rest' := by
        rcases hends with ⟨_, hone⟩ | htruncated
        · exact wordless_of_short (fun _ hquery => hquery.length_lt) (by omega)
        · exact wordless_of_truncated htruncated
      obtain ⟨rfl, rfl⟩ := prefixFree_isQuery.unique hqueries hqueries' hrest hrest' (htext'.trans htext.symm)
      exact hends
    · exact fun hends => ⟨queries, rest, hqueries, htext, hends⟩
  rw [hstray, extract_requests_dns]
  rcases hfound with ⟨hone, hregions⟩ | ⟨htruncated, start, stop, hmem, hstop⟩ | ⟨hlong, hwhole, pieces, hpieces, hall, hregions⟩
  · rw [hregions]
    by_cases hnil : queries = []
    · subst hnil
      rw [hone, List.flatten_nil, List.length_nil] at hlength
      subst hlength
      refine iff_of_true covers_whole ?_
      rintro (⟨hsome, _⟩ | htruncated)
      · exact hsome rfl
      · exact absurd hone (Nat.ne_of_gt htruncated.length_lt)
    · exact iff_of_false (not_covers_of_pieces hne hnil (by omega)) fun hnot => hnot (Or.inl ⟨hnil, hone⟩)
  · exact iff_of_false (not_covers_of_overrun hmem hstop) fun hnot => hnot (Or.inr htruncated)
  · rw [hregions]
    have hcovers := covers_of_pieces hpieces (by rw [hall, List.length_take, Nat.min_eq_left hsize]) hpos
    refine iff_of_true hcovers ?_
    rintro (⟨_, hone⟩ | htruncated)
    · exact hlong hone
    · exact hwhole htruncated

/-- A header of 12 bytes, the null byte of an empty name, and `tail` bytes behind it. -/
def root_query (tail : Nat) : List UInt8 := List.replicate 12 1 ++ 0 :: List.replicate tail 1

theorem whole_query_is_covered : Covers (extract_requests_dns (root_query 4) 17) 17 := by
  refine (covers_extract_requests_dns_iff (by decide) (by decide)).mpr ?_
  rintro ⟨queries, rest, hqueries, htext, hends⟩
  have hquery : IsQuery (root_query 4) := ⟨_, _, ⟨rfl, by decide, by decide⟩, rfl⟩
  cases queries with
  | nil =>
    rcases hends with ⟨hsome, _⟩ | htruncated
    · exact hsome rfl
    · rw [List.flatten_nil, List.nil_append] at htext
      exact wordless_of_truncated htruncated _ hquery (htext ▸ List.prefix_rfl)
  | cons query queries =>
    have hlong := (hqueries query (List.mem_cons_self ..)).length_lt
    have hlength := congrArg List.length htext
    rw [List.flatten_cons, List.length_append, List.length_append] at hlength
    change query.length + queries.flatten.length + rest.length = 17 at hlength
    rcases hends with ⟨_, hone⟩ | htruncated
    · omega
    · have hlong' := htruncated.length_lt
      omega

/-- The region of a query whose tail is cut short ends two bytes behind the buffer. -/
theorem truncated_query_overruns : extract_requests_dns (root_query 2) 15 = [.fresh 0 16] ∧
    ¬ Covers (extract_requests_dns (root_query 2) 15) 15 := by
  have heq : extract_requests_dns (root_query 2) 15 = [.fresh 0 16] := by decide
  refine ⟨heq, fun hcovers => ?_⟩
  have hstop := hcovers.tiles.stop_eq
  rw [heq] at hstop
  exact absurd hstop (by decide)

end aflnet
