import AflnetLegion.Protocol.Dtls

namespace aflnet

/-- `memcpy(mem, buf + i, n)`, with the places that are read, whether or not they are in the
buffer. -/
def read_bytes (buf : List UInt8) (i n : Nat) : Traced Nat (List UInt8) where
  value := (List.range' i n).map fun j => buf[j]?.getD 0
  reads := List.range' i n

/-- Whether a string, which goes up to the first null byte, contains another one. -/
def strstr (haystack needle : List UInt8) : Bool := needle <:+: haystack.takeWhile (· ≠ 0)

/-- The state of the extractor of SSH response codes. It looks for the end of an identification in a loop of
its own: while `searching`. -/
structure SshScan where
  byte_count : UInt32
  searching : Bool
  state_sequence : List UInt32

namespace SshScan

/-- Before the first round there is the initial state. -/
def start : SshScan := { byte_count := 0, searching := false, state_sequence := [0] }

/-- `byte_count += n`. -/
def advance (s : SshScan) (n : UInt32) : SshScan := { s with byte_count := s.byte_count + n }

/-- A code is added, and no newline is looked for any more. -/
def add_code (s : SshScan) (message_code : UInt32) : SshScan :=
  { s with searching := false, state_sequence := s.state_sequence ++ [message_code] }

end SshScan

/-- A round of the loop that reads up to a newline, wherever it is. Nothing compares the
position with the size of the buffer. -/
def newline_body (buf : List UInt8) (s : SshScan) : Traced Nat (ForInStep SshScan) := do
  let tmp ← read_byte buf s.byte_count.toNat
  if tmp = 0x0A then pure (.yield ((s.advance 1).add_code 256)) else pure (.yield (s.advance 1))

/-- A packet whose first 6 bytes are in `mem`. All sums are unsigned ints, and a packet that
announces more bytes than are left ends the loop. -/
def packet_step (mem : List UInt8) (buf_size : UInt32) (s : SshScan) : ForInStep SshScan :=
  let message_size := ntohl (mem[0]?.getD 0) (mem[1]?.getD 0) (mem[2]?.getD 0) (mem[3]?.getD 0)
  if message_size - 2 > buf_size - s.byte_count then .done s
  else
    let message_code := mem[5]?.getD 0
    let message_size := if 20 ≤ message_code ∧ message_code ≤ 49 then message_size else message_size + 8
    .yield ((s.add_code message_code.toUInt32).advance (message_size - 2))

/-- The loop's body. `mem` is an array of 7 bytes of which 6 are set: `stack` is what is behind
them, which `strstr` reads if there is no NUL before. -/
def ssh_response_body (stack buf : List UInt8) (buf_size : UInt32) (s : SshScan) : Traced Nat (ForInStep SshScan) :=
  if s.searching then newline_body buf s
  else do
    let mem ← read_bytes buf s.byte_count.toNat 6
    if strstr (mem ++ stack) [0x53, 0x53, 0x48] then pure (.yield { s.advance 6 with searching := true })
    else pure (packet_step mem buf_size (s.advance 6))

/-- Both loops as one, whose state says which of them it is in. The inner one reads up to a
newline and has no other end. -/
def ssh_response_while (stack buf : List UInt8) (buf_size : UInt32) : While Nat SshScan where
  more := fun s => s.searching || s.byte_count < buf_size
  body := ssh_response_body stack buf buf_size

/-- The codes found in so many rounds of the loops, which need not end. What lies behind `mem`
on the stack is a parameter. -/
def extract_response_codes_ssh (stack buf : List UInt8) (buf_size : UInt32) (rounds : Nat) : List UInt32 :=
  ((ssh_response_while stack buf buf_size).after rounds .start).state_sequence

example : extract_response_codes_ssh [0] [83, 83, 72, 45, 50, 46, 10, 0, 0, 0, 2, 9, 20] 13 9 = [0, 256, 20] := by decide

section strstr

variable {mem needle : List UInt8}

/-- The first null byte ends the string. -/
theorem takeWhile_append_of_null (h : 0 ∈ mem) (stack : List UInt8) :
    (mem ++ stack).takeWhile (· ≠ 0) = mem.takeWhile (· ≠ 0) := by
  rw [List.takeWhile_append, if_neg]
  intro hall
  rw [← (List.takeWhile_prefix _).eq_of_length hall] at h
  exact absurd (List.all_eq_true.mp List.all_takeWhile 0 h) (by decide)

/-- A string that does not end in `mem` goes on in the memory behind it. -/
theorem takeWhile_append_of_no_null (h : 0 ∉ mem) (stack : List UInt8) :
    (mem ++ stack).takeWhile (· ≠ 0) = mem ++ stack.takeWhile (· ≠ 0) :=
  List.takeWhile_append_of_pos fun _ hbyte => decide_eq_true fun hnull => h (hnull ▸ hbyte)

theorem takeWhile_of_no_null (h : 0 ∉ mem) : mem.takeWhile (· ≠ 0) = mem := by
  have hall := takeWhile_append_of_no_null h []
  rw [List.append_nil, List.takeWhile_nil, List.append_nil] at hall
  exact hall

/-- What is behind `mem` does not matter if the string ends in `mem` or contains the other one there. -/
theorem strstr_append (h : strstr mem needle = true ∨ 0 ∈ mem) (stack : List UInt8) :
    strstr (mem ++ stack) needle = strstr mem needle := by
  by_cases hnull : 0 ∈ mem
  · rw [strstr, takeWhile_append_of_null hnull]
    rfl
  · have hin := h.resolve_right hnull
    rw [hin]
    have hcontains : needle <:+: mem.takeWhile (· ≠ 0) := of_decide_eq_true hin
    refine decide_eq_true ?_
    rw [takeWhile_append_of_no_null hnull]
    exact (hcontains.trans (List.takeWhile_prefix _).isInfix).trans (List.prefix_append _ _).isInfix

/-- Otherwise it may end the string, or contain the other one. -/
theorem strstr_append_null (h : strstr mem needle = false) (hnull : 0 ∉ mem) : strstr (mem ++ [0]) needle = false := by
  have hstring : (mem ++ [0]).takeWhile (· ≠ 0) = mem.takeWhile (· ≠ 0) := by
    rw [takeWhile_append_of_no_null hnull, takeWhile_of_no_null hnull]
    exact List.append_nil mem
  rw [strstr, hstring]
  exact h

theorem strstr_append_needle (hnull : 0 ∉ mem) (hneedle : 0 ∉ needle) : strstr (mem ++ needle) needle = true := by
  refine decide_eq_true ?_
  rw [takeWhile_append_of_no_null hnull, takeWhile_of_no_null hneedle]
  exact (List.suffix_append ..).isInfix

end strstr

section rounds

variable {stack buf : List UInt8} {buf_size : UInt32} {s t : SshScan}

/-- The first 6 bytes at `byte_count`. -/
def six_bytes (buf : List UInt8) (byte_count : UInt32) : List UInt8 := (read_bytes buf byte_count.toNat 6).value

/-- `"SSH"` -/
def ssh_name : List UInt8 := [0x53, 0x53, 0x48]

/-- While a newline is looked for a round is one of the inner loop. -/
theorem body_of_searching (h : s.searching = true) : ssh_response_body stack buf buf_size s = newline_body buf s := by
  rw [ssh_response_body, if_pos h]

theorem reads_newline_body (buf : List UInt8) (s : SshScan) : (newline_body buf s).reads = [s.byte_count.toNat] := by
  rw [newline_body, Traced.reads_bind]
  split <;> rfl

theorem reads_of_not_searching (h : s.searching = false) :
    (ssh_response_body stack buf buf_size s).reads = List.range' s.byte_count.toNat 6 := by
  rw [ssh_response_body, h, if_neg Bool.false_ne_true, Traced.reads_bind]
  split <;> exact List.append_nil _

/-- A round that recognizes an identification begins to look for the newline. -/
theorem value_of_ident (h : s.searching = false) (hident : strstr (six_bytes buf s.byte_count ++ stack) ssh_name = true) :
    (ssh_response_body stack buf buf_size s).value = .yield { s.advance 6 with searching := true } := by
  rw [ssh_response_body, h, if_neg Bool.false_ne_true, Traced.value_bind]
  exact congrArg Traced.value (if_pos hident)

/-- Any other round takes the six bytes for those of a packet. -/
theorem value_of_packet (h : s.searching = false) (hident : ¬ strstr (six_bytes buf s.byte_count ++ stack) ssh_name = true) :
    (ssh_response_body stack buf buf_size s).value = packet_step (six_bytes buf s.byte_count) buf_size (s.advance 6) := by
  rw [ssh_response_body, h, if_neg Bool.false_ne_true, Traced.value_bind]
  exact congrArg Traced.value (if_neg hident)

/-- A packet ends the loop, or adds its code. -/
theorem packet_step_cases (mem : List UInt8) (buf_size : UInt32) (s : SshScan) :
    packet_step mem buf_size s = .done s ∨
      ∃ n, packet_step mem buf_size s = .yield ((s.add_code (mem[5]?.getD 0).toUInt32).advance n) := by
  rw [packet_step]
  dsimp only
  split
  · exact Or.inl rfl
  · exact Or.inr ⟨_, rfl⟩

/-- A round that is decided by the bytes of the buffer: it has 6 bytes, they tell whether they start an
identification, and an identification has an end. -/
structure WholeRound (buf : List UInt8) (buf_size byte_count : UInt32) : Prop where
  six : byte_count.toNat + 6 ≤ buf_size.toNat
  decided : strstr (six_bytes buf byte_count) ssh_name = true ∨ 0 ∈ six_bytes buf byte_count
  newline : strstr (six_bytes buf byte_count) ssh_name = true →
    ∃ i, byte_count.toNat + 6 ≤ i ∧ i < buf_size.toNat ∧ buf[i]?.getD 0 = 0x0A

/-- A newline is ahead, in the buffer. -/
def NewlineAhead (buf : List UInt8) (buf_size byte_count : UInt32) : Prop :=
  ∃ i, byte_count.toNat ≤ i ∧ i < buf_size.toNat ∧ buf[i]?.getD 0 = 0x0A

theorem toNat_advance {n : UInt32} (h : s.byte_count.toNat + n.toNat ≤ buf_size.toNat) :
    (s.advance n).byte_count.toNat = s.byte_count.toNat + n.toNat :=
  toNat_add_of_lt (Nat.lt_of_le_of_lt h buf_size.toNat_lt)

theorem value_of_searching (h : s.searching = true) : (ssh_response_body stack buf buf_size s).value =
    .yield (if buf[s.byte_count.toNat]?.getD 0 = 0x0A then (s.advance 1).add_code 256 else s.advance 1) := by
  rw [body_of_searching h, newline_body, Traced.value_bind, value_read_byte]
  split <;> rfl

/-- An invariant of the rounds: the search for a newline ends in the buffer. -/
theorem newline_ahead_next (hwhole : s.searching = false → WholeRound buf buf_size s.byte_count)
    (hahead : s.searching = true → NewlineAhead buf buf_size s.byte_count)
    (hbody : (ssh_response_body stack buf buf_size s).value = .yield t) (ht : t.searching = true) :
    NewlineAhead buf buf_size t.byte_count := by
  cases hs : s.searching with
  | true =>
    obtain ⟨i, hle, hlt, hnewline⟩ := hahead hs
    cases (value_of_searching hs).symm.trans hbody
    split at ht
    · cases ht
    · rename_i hnot
      have hne : i ≠ s.byte_count.toNat := fun heq => hnot (heq ▸ hnewline)
      have hnext : (s.advance 1).byte_count.toNat = s.byte_count.toNat + 1 :=
        toNat_advance (show s.byte_count.toNat + 1 ≤ buf_size.toNat by omega)
      rw [if_neg hnot]
      exact ⟨i, by omega, hlt, hnewline⟩
  | false =>
    obtain ⟨hsix, hdecided, hends⟩ := hwhole hs
    by_cases hident : strstr (six_bytes buf s.byte_count ++ stack) ssh_name = true
    · cases (@value_of_ident stack buf buf_size s hs hident).symm.trans hbody
      rw [strstr_append hdecided] at hident
      obtain ⟨i, hle, hlt, hnewline⟩ := hends hident
      have hnext : (s.advance 6).byte_count.toNat = s.byte_count.toNat + 6 := toNat_advance hsix
      exact ⟨i, Nat.le_trans (Nat.le_of_eq hnext) hle, hlt, hnewline⟩
    · have hvalue := (@value_of_packet stack buf buf_size s hs hident).symm.trans hbody
      rcases packet_step_cases (six_bytes buf s.byte_count) buf_size (s.advance 6) with hdone | ⟨n, hyield⟩
      · cases hdone.symm.trans hvalue
      · cases hyield.symm.trans hvalue
        cases ht

/-- What a round reads is in the buffer, and other bytes behind the buffer and behind `mem` make no difference. -/
theorem round_reads (hwhole : s.searching = false → WholeRound buf buf_size s.byte_count)
    (hahead : s.searching = true → NewlineAhead buf buf_size s.byte_count) :
    ∀ i ∈ (ssh_response_body stack buf buf_size s).reads, i < buf_size.toNat := by
  intro i hi
  cases hs : s.searching with
  | true =>
    obtain ⟨j, hle, hlt, _⟩ := hahead hs
    rw [body_of_searching hs, reads_newline_body, List.mem_singleton] at hi
    omega
  | false =>
    have hsix := (hwhole hs).six
    rw [reads_of_not_searching hs, List.mem_range'_1] at hi
    omega

/-- A round that is decided by the bytes of the buffer is the same for other bytes behind it. -/
theorem round_agrees {stack' buf' : List UInt8} (hwhole : s.searching = false → WholeRound buf buf_size s.byte_count)
    (hahead : s.searching = true → NewlineAhead buf buf_size s.byte_count)
    (hsame : ∀ i, i < buf_size.toNat → buf'[i]?.getD 0 = buf[i]?.getD 0) :
    (ssh_response_body stack' buf' buf_size s).value = (ssh_response_body stack buf buf_size s).value := by
  cases hs : s.searching with
  | true =>
    obtain ⟨j, hle, hlt, _⟩ := hahead hs
    rw [value_of_searching hs, value_of_searching hs, hsame _ (by omega)]
  | false =>
    obtain ⟨hsix, hdecided, _⟩ := hwhole hs
    have hbytes : six_bytes buf' s.byte_count = six_bytes buf s.byte_count :=
      List.map_congr_left fun i hi => hsame i (by have := List.mem_range'_1.mp hi; omega)
    have hstrstr : strstr (six_bytes buf' s.byte_count ++ stack') ssh_name = strstr (six_bytes buf s.byte_count ++ stack) ssh_name := by
      rw [hbytes, strstr_append hdecided, strstr_append hdecided]
    by_cases hident : strstr (six_bytes buf s.byte_count ++ stack) ssh_name = true
    · rw [value_of_ident hs hident, value_of_ident hs (hstrstr.trans hident)]
    · rw [value_of_packet hs hident, value_of_packet hs (hstrstr ▸ hident), hbytes]

end rounds

section agreement

variable {stack buf : List UInt8} {buf_size : UInt32} {s t : SshScan}

/-- From `s` on the codes are the same, whatever is behind the buffer and behind `mem`. -/
def Agrees (stack buf : List UInt8) (buf_size : UInt32) (s : SshScan) : Prop :=
  ∀ stack' buf' : List UInt8, (∀ i, i < buf_size.toNat → buf'[i]?.getD 0 = buf[i]?.getD 0) → ∀ rounds,
    ((ssh_response_while stack' buf' buf_size).after rounds s).state_sequence =
      ((ssh_response_while stack buf buf_size).after rounds s).state_sequence

/-- The search for a newline goes on without a look at the end of the buffer. -/
theorem more_of_searching (h : s.searching = true) : (ssh_response_while stack buf buf_size).more s = true :=
  Bool.or_eq_true_iff.mpr (Or.inl h)

/-- The search ends behind the newline, with one more code. -/
theorem reaches_newline {i : Nat} (h : s.searching = true) (hle : s.byte_count.toNat ≤ i) (hlt : i < 2 ^ 32)
    (hnewline : buf[i]?.getD 0 = 0x0A) : ∃ t, (ssh_response_while stack buf buf_size).Reaches s t ∧
      t.state_sequence = s.state_sequence ++ [256] := by
  induction hm : i - s.byte_count.toNat generalizing s with
  | zero =>
    have hat : s.byte_count.toNat = i := by omega
    refine ⟨_, .next (more_of_searching h) (value_of_searching h) (.refl _), ?_⟩
    rw [hat, if_pos hnewline]
    rfl
  | succ m ih =>
    by_cases hfound : buf[s.byte_count.toNat]?.getD 0 = 0x0A
    · refine ⟨_, .next (more_of_searching h) (value_of_searching h) (.refl _), ?_⟩
      rw [if_pos hfound]
      rfl
    · have hnext : (s.advance 1).byte_count.toNat = s.byte_count.toNat + 1 :=
        toNat_add_of_lt (show s.byte_count.toNat + 1 < 2 ^ 32 by omega)
      obtain ⟨t, ht, hcodes⟩ := ih (s := s.advance 1) h (by omega) (by omega)
      have hvalue := @value_of_searching stack buf buf_size s h
      rw [if_neg hfound] at hvalue
      exact ⟨t, .next (more_of_searching h) hvalue ht, hcodes⟩

/-- The next code for an identification. -/
theorem code_of_ident {i : Nat} (h : s.searching = false) (hmore : s.byte_count < buf_size)
    (hident : strstr (six_bytes buf s.byte_count ++ stack) ssh_name = true) (hle : (s.advance 6).byte_count.toNat ≤ i)
    (hlt : i < 2 ^ 32) (hnewline : buf[i]?.getD 0 = 0x0A) :
    ∃ rounds, ((ssh_response_while stack buf buf_size).after rounds s).state_sequence = s.state_sequence ++ [256] := by
  obtain ⟨t, ht, hcodes⟩ := @reaches_newline stack buf buf_size { s.advance 6 with searching := true } i rfl hle hlt hnewline
  have hmore' : (ssh_response_while stack buf buf_size).more s = true :=
    Bool.or_eq_true_iff.mpr (Or.inr (decide_eq_true hmore))
  obtain ⟨rounds, hrounds⟩ := (While.Reaches.next hmore' (value_of_ident h hident) ht).after
  refine ⟨rounds, ?_⟩
  rw [← Nat.add_zero rounds, hrounds 0]
  exact hcodes

/-- No round takes a code back. -/
theorem codes_grow (hbody : (ssh_response_body stack buf buf_size s).value = .done t ∨
    (ssh_response_body stack buf buf_size s).value = .yield t) : s.state_sequence <+: t.state_sequence := by
  cases hs : s.searching with
  | true =>
    rw [value_of_searching hs] at hbody
    rcases hbody with hbody | hbody
    · cases hbody
    · cases hbody
      split
      · exact List.prefix_append _ _
      · exact List.prefix_rfl
  | false =>
    by_cases hident : strstr (six_bytes buf s.byte_count ++ stack) ssh_name = true
    · rw [value_of_ident hs hident] at hbody
      rcases hbody with hbody | hbody
      · cases hbody
      · cases hbody
        exact List.prefix_rfl
    · rw [value_of_packet hs hident] at hbody
      rcases packet_step_cases (six_bytes buf s.byte_count) buf_size (s.advance 6) with hdone | ⟨n, hyield⟩
      · rw [hdone] at hbody
        rcases hbody with hbody | hbody
        · cases hbody
          exact List.prefix_rfl
        · cases hbody
      · rw [hyield] at hbody
        rcases hbody with hbody | hbody
        · cases hbody
        · cases hbody
          exact List.prefix_append _ _

theorem codes_grow_after (rounds : Nat) (s : SshScan) :
    s.state_sequence <+: ((ssh_response_while stack buf buf_size).after rounds s).state_sequence :=
  @While.after_rule _ _ (ssh_response_while stack buf buf_size) _ (fun t => s.state_sequence <+: t.state_sequence)
    List.prefix_rfl (fun _ _ ht _ hbody => ht.trans (codes_grow hbody)) rounds

/-- The code of a packet is a byte, so it is not that of an identification. -/
theorem toUInt32_ne_ident_code (byte : UInt8) : byte.toUInt32 ≠ 256 := by
  intro heq
  have hlt := byte.toNat_lt
  have hnat : byte.toNat = 256 := congrArg UInt32.toNat heq
  omega

/-- The next code for a packet is a byte. -/
theorem code_of_packet (h : s.searching = false) (hident : ¬ strstr (six_bytes buf s.byte_count ++ stack) ssh_name = true)
    (rounds : Nat) : ((ssh_response_while stack buf buf_size).after rounds s).state_sequence ≠ s.state_sequence ++ [256] := by
  have hself : s.state_sequence ≠ s.state_sequence ++ [256] := by simp
  cases rounds with
  | zero => exact hself
  | succ rounds =>
    cases hmore : (ssh_response_while stack buf buf_size).more s with
    | false =>
      rw [While.after_of_stop hmore]
      exact hself
    | true =>
      have hvalue := @value_of_packet stack buf buf_size s h hident
      rcases packet_step_cases (six_bytes buf s.byte_count) buf_size (s.advance 6) with hdone | ⟨n, hyield⟩
      · rw [While.after_of_break hmore (hvalue.trans hdone)]
        exact hself
      · rw [While.after_of_yield hmore (hvalue.trans hyield)]
        have hgrow := @codes_grow_after stack buf buf_size rounds
          (((s.advance 6).add_code ((six_bytes buf s.byte_count)[5]?.getD 0).toUInt32).advance n)
        intro heq
        rw [heq] at hgrow
        change s.state_sequence ++ [((six_bytes buf s.byte_count)[5]?.getD 0).toUInt32] <+: s.state_sequence ++ [256] at hgrow
        have hsame := List.append_cancel_left (hgrow.eq_of_length (by simp))
        exact toUInt32_ne_ident_code _ (List.singleton_inj.mp hsame)

/-- If the codes do not depend on what is behind the buffer and behind `mem`, the bytes of a round decide it. -/
theorem Agrees.decided (hagrees : Agrees stack buf buf_size s) (h : s.searching = false) (hmore : s.byte_count < buf_size)
    (hsix : s.byte_count.toNat + 6 ≤ buf_size.toNat)
    (hahead : strstr (six_bytes buf s.byte_count ++ stack) ssh_name = true → NewlineAhead buf buf_size (s.advance 6).byte_count) :
    strstr (six_bytes buf s.byte_count) ssh_name = true ∨ 0 ∈ six_bytes buf s.byte_count := by
  have hsize := buf_size.toNat_lt
  by_contra hopen
  obtain ⟨hnot, hnull⟩ := not_or.mp hopen
  by_cases hident : strstr (six_bytes buf s.byte_count ++ stack) ssh_name = true
  · -- a null byte behind `mem` makes it a packet
    obtain ⟨i, hle, hlt, hnewline⟩ := hahead hident
    obtain ⟨rounds, hcodes⟩ := code_of_ident h hmore hident hle (Nat.lt_trans hlt hsize) hnewline
    have hpacket : ¬ strstr (six_bytes buf s.byte_count ++ [0]) ssh_name = true := by
      rw [strstr_append_null (Bool.eq_false_iff.mpr hnot) hnull]
      exact Bool.false_ne_true
    exact code_of_packet h hpacket rounds ((hagrees [0] buf (fun _ _ => rfl) rounds).trans hcodes)
  · -- the name behind `mem` makes it an identification, with a newline behind the buffer
    let buf' := (List.range buf_size.toNat).map (fun i => buf[i]?.getD 0) ++ [0x0A]
    have hlength : ((List.range buf_size.toNat).map (fun i => buf[i]?.getD 0)).length = buf_size.toNat := by simp
    have hsame : ∀ i, i < buf_size.toNat → buf'[i]?.getD 0 = buf[i]?.getD 0 := by
      intro i hi
      rw [List.getElem?_append_left (hlength.symm ▸ hi), List.getElem?_map, List.getElem?_range hi]
      rfl
    have hnewline : buf'[buf_size.toNat]?.getD 0 = 0x0A := by
      rw [List.getElem?_append_right (Nat.le_of_eq hlength), hlength, Nat.sub_self]
      rfl
    have hbytes : six_bytes buf' s.byte_count = six_bytes buf s.byte_count :=
      List.map_congr_left fun i hi => hsame i (by have := List.mem_range'_1.mp hi; omega)
    have hname : strstr (six_bytes buf' s.byte_count ++ ssh_name) ssh_name = true := by
      rw [hbytes]
      exact strstr_append_needle hnull (by decide)
    have hnext : (s.advance 6).byte_count.toNat = s.byte_count.toNat + 6 := toNat_advance hsix
    obtain ⟨rounds, hcodes⟩ := code_of_ident h hmore hname (hnext.symm ▸ hsix) hsize hnewline
    exact code_of_packet h hident rounds ((hagrees ssh_name buf' hsame rounds).symm.trans hcodes)

/-- A search that reads in the buffer finds its newline there. -/
theorem newline_of_reads (hreads : (ssh_response_while stack buf buf_size).EveryRound .start fun s =>
      ∀ i ∈ (ssh_response_body stack buf buf_size s).reads, i < buf_size.toNat)
    (hs : (ssh_response_while stack buf buf_size).Reaches .start s) (h : s.searching = true) :
    NewlineAhead buf buf_size s.byte_count := by
  induction hm : buf_size.toNat - s.byte_count.toNat using Nat.strong_induction_on generalizing s with
  | h m ih =>
    have hin : s.byte_count.toNat < buf_size.toNat := by
      refine hreads s hs (more_of_searching h) _ ?_
      rw [body_of_searching h, reads_newline_body]
      exact List.mem_singleton.mpr rfl
    by_cases hfound : buf[s.byte_count.toNat]?.getD 0 = 0x0A
    · exact ⟨_, Nat.le_refl _, hin, hfound⟩
    · have hnext : (s.advance 1).byte_count.toNat = s.byte_count.toNat + 1 := toNat_advance hin
      have hvalue := @value_of_searching stack buf buf_size s h
      rw [if_neg hfound] at hvalue
      obtain ⟨i, hle, hlt, hnewline⟩ := ih _ (by omega) (hs.snoc (more_of_searching h) hvalue) h rfl
      exact ⟨i, by omega, hlt, hnewline⟩

/-- A round that reads in the buffer, from which on the codes do not depend on more, is decided by its bytes. -/
theorem Agrees.wholeRound (hagrees : Agrees stack buf buf_size s)
    (hreads : (ssh_response_while stack buf buf_size).EveryRound .start fun s =>
      ∀ i ∈ (ssh_response_body stack buf buf_size s).reads, i < buf_size.toNat)
    (hs : (ssh_response_while stack buf buf_size).Reaches .start s) (hmore : (ssh_response_while stack buf buf_size).more s = true)
    (h : s.searching = false) : WholeRound buf buf_size s.byte_count := by
  have hin : s.byte_count < buf_size := by
    have hor := Bool.or_eq_true_iff.mp hmore
    rw [h] at hor
    exact of_decide_eq_true (hor.resolve_left Bool.false_ne_true)
  have hsix : s.byte_count.toNat + 6 ≤ buf_size.toNat := by
    have hlast := hreads s hs hmore (s.byte_count.toNat + 5)
    rw [reads_of_not_searching h, List.mem_range'_1] at hlast
    omega
  have hnext : (s.advance 6).byte_count.toNat = s.byte_count.toNat + 6 := toNat_advance hsix
  have hahead : strstr (six_bytes buf s.byte_count ++ stack) ssh_name = true → NewlineAhead buf buf_size (s.advance 6).byte_count :=
    fun hident => newline_of_reads (s := { s.advance 6 with searching := true }) hreads (hs.snoc hmore (value_of_ident h hident)) rfl
  refine ⟨hsix, hagrees.decided h hin hsix hahead, fun hname => ?_⟩
  rw [← hnext]
  exact hahead ((strstr_append (Or.inl hname) stack).trans hname)

/-- A round decided by its bytes leads to the same state whatever is behind. -/
theorem Agrees.next (hagrees : Agrees stack buf buf_size s) (hmore : (ssh_response_while stack buf buf_size).more s = true)
    (hbody : (ssh_response_body stack buf buf_size s).value = .yield t)
    (hwhole : s.searching = false → WholeRound buf buf_size s.byte_count)
    (hahead : s.searching = true → NewlineAhead buf buf_size s.byte_count) : Agrees stack buf buf_size t := by
  intro stack' buf' hsame rounds
  have hafter : (ssh_response_while stack buf buf_size).after (rounds + 1) s =
      (ssh_response_while stack buf buf_size).after rounds t := While.after_of_yield hmore hbody rounds
  have hafter' : (ssh_response_while stack' buf' buf_size).after (rounds + 1) s =
      (ssh_response_while stack' buf' buf_size).after rounds t :=
    @While.after_of_yield _ _ (ssh_response_while stack' buf' buf_size) _ _ hmore ((round_agrees hwhole hahead hsame).trans hbody) rounds
  rw [← hafter, ← hafter']
  exact hagrees stack' buf' hsame (rounds + 1)

end agreement

/-- The extractor of SSH response codes reads in the buffer, and its codes depend on nothing else, if and only if
all packets and identifications that it finds have their first 6 bytes in the buffer, which tell the two apart, and
all identifications have their newline there. -/
theorem ssh_response_in_bounds_iff (stack buf : List UInt8) (buf_size : UInt32) :
    ((ssh_response_while stack buf buf_size).EveryRound .start fun s =>
        ∀ i ∈ (ssh_response_body stack buf buf_size s).reads, i < buf_size.toNat) ∧
      (∀ stack' buf' : List UInt8, (∀ i, i < buf_size.toNat → buf'[i]?.getD 0 = buf[i]?.getD 0) → ∀ rounds,
        extract_response_codes_ssh stack' buf' buf_size rounds = extract_response_codes_ssh stack buf buf_size rounds) ↔
    (ssh_response_while stack buf buf_size).EveryRound .start fun s =>
      s.searching = false → WholeRound buf buf_size s.byte_count := by
  constructor
  · rintro ⟨hreads, hagrees⟩
    intro s hs hmore
    have hkeeps : (ssh_response_while stack buf buf_size).Reaches .start s ∧ Agrees stack buf buf_size s := by
      refine hs.rule (I := fun s => (ssh_response_while stack buf buf_size).Reaches .start s ∧ Agrees stack buf buf_size s)
        ⟨.refl _, hagrees⟩ ?_
      rintro s t ⟨hs, hagrees⟩ hmore hbody
      exact ⟨hs.snoc hmore hbody, hagrees.next hmore hbody (hagrees.wholeRound hreads hs hmore) (newline_of_reads hreads hs)⟩
    exact hkeeps.2.wholeRound hreads hs hmore
  · intro hwhole
    have hahead : ∀ s, (ssh_response_while stack buf buf_size).Reaches .start s →
        s.searching = true → NewlineAhead buf buf_size s.byte_count :=
      fun s hs => hwhole.rule (I := fun s => s.searching = true → NewlineAhead buf buf_size s.byte_count)
        (fun hfalse => by cases hfalse) (fun t u ht hI _ hbody => newline_ahead_next ht hI hbody) hs
    refine ⟨fun s hs hmore => round_reads (hwhole s hs hmore) (hahead s hs), fun stack' buf' hsame rounds => ?_⟩
    have hafter : (ssh_response_while stack' buf' buf_size).after rounds .start =
        (ssh_response_while stack buf buf_size).after rounds .start :=
      While.after_congr (ssh_response_while stack buf buf_size) (ssh_response_while stack' buf' buf_size)
        (fun s hs hmore => round_agrees (hwhole s hs hmore) (hahead s hs) hsame) rfl rounds
    exact congrArg SshScan.state_sequence hafter

/-- An identification without its newline. -/
def open_ident : List UInt8 := [0x53, 0x53, 0x48, 0x2D, 0x32, 0x2E]

theorem open_ident_overruns : ¬ (ssh_response_while [0] open_ident 6).EveryRound .start fun s =>
    ∀ i ∈ (ssh_response_body [0] open_ident 6 s).reads, i < 6 := by
  intro h
  have hident : (ssh_response_body [0] open_ident 6 .start).value = .yield { SshScan.start.advance 6 with searching := true } :=
    value_of_ident rfl (by decide)
  have hin := h _ (.next (by decide) hident (.refl _)) rfl 6 (by decide)
  exact absurd hin (by decide)

end aflnet
