import AflnetLegion.Dictionary.Extras
import Mathlib.Data.List.TakeWhile

namespace aflnet

/-- A hexadecimal digit, with small or capital letters. -/
def hex_digit (upper : Bool) (n : Nat) : UInt8 :=
  UInt8.ofNat (if n < 10 then 48 + n else if upper then 55 + n else 87 + n)

/-- The ways to write a byte between the quotes: as itself, with a backslash, or in
hexadecimal. -/
inductive Spelling (byte : UInt8) : List UInt8 → Prop where
  | plain : 32 ≤ byte → byte ≤ 127 → byte ≠ 34 → byte ≠ 92 → Spelling byte [byte]
  | escaped : byte = 34 ∨ byte = 92 → Spelling byte [92, byte]
  | hex (u v : Bool) :
      Spelling byte [92, 120, hex_digit u (byte.toNat / 16), hex_digit v (byte.toNat % 16)]

/-- A token and one of the ways to write it, byte by byte. Each byte is written on its own,
plainly or as an escape. -/
inductive Spelled : List UInt8 → List UInt8 → Prop where
  | nil : Spelled [] []
  | cons {byte token head text} : Spelling byte head → Spelled token text → Spelled (byte :: token) (head ++ text)

/-- A digit that is written is recognized and has its value. -/
theorem hex_digit_read (upper : Bool) {n : Nat} (hn : n < 16) :
    is_xdigit (hex_digit upper n) = true ∧ hex_value (hex_digit upper n) = n := by
  have hread : ∀ (upper : Bool) (n : Fin 16), is_xdigit (hex_digit upper n) = true ∧ hex_value (hex_digit upper n) = n := by
    decide
  exact hread upper ⟨n, hn⟩

/-- `\x` and two digits are read as one byte, as long as there is room for it. -/
theorem read_hex {size : Nat} {data text : List UInt8} {high low byte : UInt8}
    (hhigh : is_xdigit high = true) (hlow : is_xdigit low = true) (hbyte : hex_value high <<< 4 ||| hex_value low = byte.toNat)
    (hlen : data.length < size) :
    read_keyword size (92 :: 120 :: high :: low :: text) data = read_keyword size text (data ++ [byte]) := by
  rw [read_keyword]
  simp [hhigh, hlow, hbyte, put_byte_bind hlen]

/-- A byte is read back, however it is written. -/
theorem read_keyword_spelling {size : Nat} {data head text : List UInt8} {byte : UInt8}
    (hspelling : Spelling byte head) (hlen : data.length < size) :
    read_keyword size (head ++ text) data = read_keyword size text (data ++ [byte]) := by
  cases hspelling with
  | plain hlow hhigh hquote hslash =>
    have hprint : ¬(byte < 32 ∨ 127 < byte) := by
      simp only [UInt8.lt_iff_toNat_lt, UInt8.le_iff_toNat_le] at *
      omega
    rw [List.singleton_append, read_keyword.eq_def]
    simp [hprint, hslash, put_byte_bind hlen]
  | escaped hbyte =>
    rw [List.cons_append, List.singleton_append, read_keyword.eq_def]
    simp [hbyte.symm, put_byte_bind hlen]
  | hex u v =>
    have hbound := byte.toNat_lt
    obtain ⟨hhigh, hhigh_value⟩ := hex_digit_read u (n := byte.toNat / 16) (by omega)
    obtain ⟨hlow, hlow_value⟩ := hex_digit_read v (n := byte.toNat % 16) (by omega)
    have hbyte : hex_value (hex_digit u (byte.toNat / 16)) <<< 4 ||| hex_value (hex_digit v (byte.toNat % 16)) = byte.toNat := by
      rw [hhigh_value, hlow_value, ← Nat.shiftLeft_add_eq_or_of_lt (Nat.mod_lt _ (by decide)), Nat.shiftLeft_eq]
      omega
    exact read_hex hhigh hlow hbyte hlen

theorem read_keyword_spelled {size : Nat} {token text : List UInt8} (hspelled : Spelled token text) :
    ∀ data : List UInt8, data.length + token.length ≤ size → read_keyword size text data = .ok (data ++ token) := by
  induction hspelled with
  | nil => simp [read_keyword]
  | cons hspelling _ ih =>
    intro data hlen
    rw [List.length_cons] at hlen
    rw [read_keyword_spelling hspelling (by omega), ih _ (by rw [List.length_append, List.length_singleton]; omega)]
    simp

/-- No spelling is shorter than the token, which is why the number of bytes left in the line is
enough to allocate. -/
theorem Spelled.length_le {token text : List UInt8} (hspelled : Spelled token text) : token.length ≤ text.length := by
  induction hspelled with
  | nil => simp
  | cons hspelling _ ih => cases hspelling <;> simp <;> omega

theorem hex_digit_printable (upper : Bool) {n : Nat} (hn : n < 16) : 32 ≤ hex_digit upper n := by
  have hprint : ∀ (upper : Bool) (n : Fin 16), 32 ≤ hex_digit upper n := by decide
  exact hprint upper ⟨n, hn⟩

/-- What is written is printable even if the byte is not. -/
theorem Spelling.printable {byte : UInt8} {head : List UInt8} (hspelling : Spelling byte head) : ∀ c ∈ head, 32 ≤ c := by
  cases hspelling with
  | plain hlow => simpa using hlow
  | escaped hbyte => rcases hbyte with rfl | rfl <;> simp
  | hex u v =>
    have hbound := byte.toNat_lt
    have hhigh := hex_digit_printable u (n := byte.toNat / 16) (by omega)
    have hlow := hex_digit_printable v (n := byte.toNat % 16) (by omega)
    simp [hhigh, hlow]

theorem Spelled.printable {token text : List UInt8} (hspelled : Spelled token text) : ∀ c ∈ text, 32 ≤ c := by
  induction hspelled with
  | nil => simp
  | cons hspelling _ ih =>
    intro c hc
    rw [List.mem_append] at hc
    obtain hc | hc := hc
    · exact hspelling.printable c hc
    · exact ih c hc

/-- Hexadecimal for the bytes that are not printable, and a backslash in front of the
quote and the backslash. -/
def escape (byte : UInt8) : List UInt8 :=
  if byte < 32 ∨ 127 < byte then [92, 120, hex_digit false (byte.toNat / 16), hex_digit false (byte.toNat % 16)]
  else if byte = 34 ∨ byte = 92 then [92, byte]
  else [byte]

/-- The usual way to write a byte is one of the spellings. -/
theorem escape_spelling (byte : UInt8) : Spelling byte (escape byte) := by
  rw [escape]
  split
  · exact .hex false false
  · rename_i hprint
    simp only [not_or, UInt8.not_lt] at hprint
    split
    · rename_i hquote
      exact .escaped hquote
    · rename_i hquote
      simp only [not_or] at hquote
      exact .plain hprint.1 hprint.2 hquote.1 hquote.2

theorem escape_spelled (token : List UInt8) : Spelled token (token.flatMap escape) := by
  induction token with
  | nil => exact .nil
  | cons byte token ih => exact .cons (escape_spelling byte) ih

/-- A level, written in decimal. Leading zeros are allowed, so the digits are not determined by
the value. -/
structure WrittenLevel where
  value : UInt32
  digits : List UInt8
  all_digits : ∀ c ∈ digits, is_digit c = true
  nonempty : digits ≠ []
  reads : decimal digits = value.toNat

/-- A token with what its line has in front of it: `label@level`, and `=` with white
space around it. The line does not start with white space. -/
structure Entry where
  label : List UInt8
  level : Option WrittenLevel
  between : List UInt8
  token : List UInt8
  text : List UInt8
  label_name : ∀ c ∈ label, is_alnum c = true ∨ c = 95
  between_skipped : ∀ c ∈ between, (is_space c = true ∨ c = 61) ∧ c ≠ 10
  between_first : label = [] → level = none → ∀ c ∈ between.head?, is_space c = false
  token_nonempty : token ≠ []
  token_length : token.length ≤ MAX_DICT_FILE
  spelled : Spelled token text

namespace Entry

/-- The default level is zero. -/
def level_value (e : Entry) : UInt32 := (e.level.map WrittenLevel.value).getD 0

/-- `@` and the digits, if the line has a level. Leading zeros are allowed, as `atoi` reads
them. -/
def level_text (e : Entry) : List UInt8 :=
  match e.level with
  | none => []
  | some level => 64 :: level.digits

/-- The line from behind the level to the closing quote. -/
def value_text (e : Entry) : List UInt8 := e.between ++ 34 :: e.text

/-- The line of an entry, up to and including the closing quote. -/
def line (e : Entry) : List UInt8 := e.label ++ (e.level_text ++ e.value_text) ++ [34]

theorem text_nonempty (e : Entry) : e.text ≠ [] := by
  intro hempty
  have hle := e.spelled.length_le
  have hpos := List.length_pos_of_ne_nil e.token_nonempty
  rw [hempty, List.length_nil] at hle
  omega

/-- What follows the label and the level starts with white space, `=` or the quote, so that
neither is read too far. -/
theorem value_head (e : Entry) :
    ∃ c rest, e.value_text = c :: rest ∧ (is_space c = true ∨ c = 61 ∨ c = 34) := by
  rw [value_text]
  cases hbetween : e.between with
  | nil => exact ⟨34, e.text, rfl, .inr (.inr rfl)⟩
  | cons c between =>
    have hc := (e.between_skipped c (by simp [hbetween])).1
    exact ⟨c, between ++ 34 :: e.text, rfl, by simpa [or_assoc] using Or.inl hc⟩

theorem read_value_text (e : Entry) : read_value e.value_text = .ok e.token := by
  have hskip : (e.value_text.dropWhile fun c => is_space c || c = 61) = 34 :: e.text := by
    rw [value_text, List.dropWhile_append_of_pos, List.dropWhile_cons_of_neg]
    · decide
    · intro c hc
      simpa using (e.between_skipped c hc).1
  have hread : read_keyword e.text.length e.text [] = .ok ([] ++ e.token) :=
    read_keyword_spelled e.spelled [] (by simpa using e.spelled.length_le)
  simp [read_value, hskip, e.text_nonempty, hread, bind, Except.bind, Nat.not_lt.mpr e.token_length]

end Entry

/-- The bytes of a label are neither white space nor the start of a comment. -/
theorem is_name_not_space {c : UInt8} (h : is_alnum c = true ∨ c = 95) : is_space c = false ∧ c ≠ 35 := by
  simp only [is_alnum, is_space, is_digit, decide_eq_true_eq, Bool.or_eq_true, Bool.and_eq_true, UInt8.le_iff_toNat_le,
    ← UInt8.toNat_inj, Bool.and_eq_false_iff, Bool.or_eq_false_iff, decide_eq_false_iff_not, ne_eq] at *
  simp at *
  omega

theorem is_name_not_end {c : UInt8} (h : is_alnum c = true ∨ c = 95) : c ≠ 0 ∧ c ≠ 10 := by
  constructor <;> (rintro rfl; revert h; decide)

/-- What ends a level is not a digit, and what ends a label is not part of one. -/
theorem is_space_not_digit {c : UInt8} (h : is_space c = true ∨ c = 61 ∨ c = 34) :
    is_digit c = false ∧ is_alnum c = false ∧ c ≠ 95 ∧ c ≠ 64 := by
  simp only [is_alnum, is_space, is_digit, decide_eq_true_eq, Bool.or_eq_true, Bool.and_eq_true, UInt8.le_iff_toNat_le,
    ← UInt8.toNat_inj, Bool.and_eq_false_iff, Bool.or_eq_false_iff, decide_eq_false_iff_not, ne_eq] at *
  simp at *
  omega

theorem decimal_append {digits rest : List UInt8} {c : UInt8} (hdigits : ∀ c ∈ digits, is_digit c = true)
    (hc : is_digit c = false) : decimal (digits ++ c :: rest) = decimal digits := by
  have htake : digits.takeWhile is_digit = digits := List.takeWhile_eq_self_iff.mpr hdigits
  rw [decimal, decimal, List.takeWhile_append_of_pos hdigits, List.takeWhile_cons_of_neg (by simp [hc]), htake, List.append_nil]

theorem atoi_digit {d : UInt8} {rest : List UInt8} (hd : is_digit d = true) : atoi (d :: rest) = decimal (d :: rest) := by
  have hrange : 48 ≤ d.toNat ∧ d.toNat ≤ 57 := by simpa [is_digit, UInt8.le_iff_toNat_le] using hd
  have hspace : is_space d = false := by
    simp [is_space, UInt8.le_iff_toNat_le, ← UInt8.toNat_inj]
    omega
  rw [atoi, List.dropWhile_cons_of_neg (by simp [hspace])]
  split
  · simp_all
  · simp_all
  · rfl

/-- A level is a number that both `long` and `u32` hold. -/
theorem line_level_of_atoi {lptr : List UInt8} {value : UInt32} (h : atoi lptr = value.toNat) : line_level lptr = value := by
  have hbound := value.toNat_lt
  have hmod : ((value.toNat : Int) % 4294967296).toNat = value.toNat := by omega
  rw [line_level, h, Int.min_eq_left (by omega), Int.max_eq_right (by omega)]
  simp [UInt32.ofInt, hmod]

theorem WrittenLevel.line_level_digits (level : WrittenLevel) : line_level level.digits = level.value := by
  apply line_level_of_atoi
  rw [← level.reads]
  cases hdigits : level.digits with
  | nil => exact absurd hdigits level.nonempty
  | cons d digits => exact atoi_digit (level.all_digits d (by simp [hdigits]))

theorem WrittenLevel.line_level_eq (level : WrittenLevel) {c : UInt8} {rest : List UInt8} (hc : is_digit c = false) :
    line_level (level.digits ++ c :: rest) = level.value := by
  have hatoi : atoi (level.digits ++ c :: rest) = level.value.toNat := by
    have hdecimal : decimal (level.digits ++ c :: rest) = decimal level.digits := decimal_append level.all_digits hc
    rw [← level.reads, ← hdecimal]
    cases hdigits : level.digits with
    | nil => exact absurd hdigits level.nonempty
    | cons d digits => exact atoi_digit (level.all_digits d (by simp [hdigits]))
  exact line_level_of_atoi hatoi

namespace Entry

/-- A line is kept exactly if its level is not above that of the dictionary. -/
theorem skip_level_eq (dict_level : UInt32) (e : Entry) :
    skip_level dict_level (e.level_text ++ e.value_text) =
      if e.level_value ≤ dict_level then some e.value_text else none := by
  obtain ⟨c, rest, hvalue, hc⟩ := e.value_head
  obtain ⟨hdigit, _, _, hat⟩ := is_space_not_digit hc
  rw [hvalue, level_text, level_value]
  cases hlevel : e.level with
  | none =>
    rw [List.nil_append, skip_level.eq_def]
    simp
    split
    · simp_all
    · rfl
  | some level =>
    have hdrop : (level.digits ++ c :: rest).dropWhile is_digit = c :: rest := by
      rw [List.dropWhile_append_of_pos level.all_digits, List.dropWhile_cons_of_neg (by simp [hdigit])]
    simp [skip_level, level.line_level_eq hdigit, hdrop]
    simp only [UInt32.lt_iff_toNat_lt, UInt32.le_iff_toNat_le]
    split <;> split <;> first | rfl | omega

theorem skip_label (e : Entry) :
    (e.label ++ (e.level_text ++ e.value_text)).dropWhile (fun c => is_alnum c || c = 95) = e.level_text ++ e.value_text := by
  obtain ⟨c, rest, hvalue, hc⟩ := e.value_head
  obtain ⟨_, halnum, hunder, _⟩ := is_space_not_digit hc
  rw [List.dropWhile_append_of_pos (by simpa using e.label_name), hvalue, level_text]
  cases e.level with
  | none => simp [halnum, hunder]
  | some level =>
    rw [List.cons_append, List.dropWhile_cons_of_neg]
    decide

/-- The line of an entry starts neither with white space nor as a comment. -/
theorem line_head (e : Entry) : ∃ c rest, e.line = c :: rest ∧ is_space c = false ∧ c ≠ 35 := by
  cases hlabel : e.label with
  | cons c label =>
    have hc := is_name_not_space (e.label_name c (by simp [hlabel]))
    exact ⟨c, label ++ (e.level_text ++ e.value_text) ++ [34], by simp [line, hlabel], hc⟩
  | nil =>
    cases hlevel : e.level with
    | some level => exact ⟨64, level.digits ++ e.value_text ++ [34], by simp [line, level_text, hlabel, hlevel], by decide⟩
    | none =>
      cases hbetween : e.between with
      | nil => exact ⟨34, e.text ++ [34], by simp [line, level_text, value_text, hlabel, hlevel, hbetween], by decide⟩
      | cons c between =>
        have hspace : is_space c = false := e.between_first hlabel hlevel c (by simp [hbetween])
        have hc : c = 61 := by simpa [hspace] using (e.between_skipped c (by simp [hbetween])).1
        refine ⟨c, between ++ 34 :: e.text ++ [34], ?_, hspace, by rw [hc]; decide⟩
        simp [line, level_text, value_text, hlabel, hlevel, hbetween]

/-- A line has neither NUL nor newline, so `fgets` and the string functions see all of it. -/
theorem line_bytes (e : Entry) : ∀ c ∈ e.line, c ≠ 0 ∧ c ≠ 10 := by
  intro c hc
  simp only [line, value_text, level_text, List.mem_append, List.mem_cons, List.not_mem_nil, or_false] at hc
  obtain (hlabel | hlevel | hbetween | rfl | htext) | rfl := hc
  · exact is_name_not_end (e.label_name c hlabel)
  · cases hlevel' : e.level with
    | none => simp [hlevel'] at hlevel
    | some level =>
      simp only [hlevel', List.mem_cons] at hlevel
      obtain rfl | hdigit := hlevel
      · decide
      · exact is_name_not_end (.inl (by simp [is_alnum, level.all_digits c hdigit]))
  · obtain ⟨hskipped, hne⟩ := e.between_skipped c hbetween
    refine ⟨?_, hne⟩
    rintro rfl
    revert hskipped
    decide
  · decide
  · have hprint := e.spelled.printable c htext
    constructor <;> (rintro rfl; revert hprint; decide)
  · decide

/-- The token of a line that is trimmed. -/
theorem read_line_trimmed (dict_level : UInt32) (e : Entry) {buf : List UInt8} (htrim : trim buf = e.line) :
    read_line dict_level buf = .ok (if e.level_value ≤ dict_level then some e.token else none) := by
  have hnonempty : e.line ≠ [] := by simp [line]
  have hquote : e.line.getLast? = some 34 := by simp [line]
  have hbody : e.line.dropLast = e.label ++ (e.level_text ++ e.value_text) := by simp [line]
  have hcomment : e.line.head? ≠ some 35 := by
    obtain ⟨c, rest, hline, _, hc⟩ := e.line_head
    simpa [hline] using hc
  simp [read_line, htrim, hnonempty, hquote, hcomment, hbody, e.skip_label, e.skip_level_eq]
  by_cases hlevel : e.level_value ≤ dict_level
  · simp [hlevel, e.read_value_text, bind, Except.bind]
  · simp [hlevel]

end Entry

theorem is_space_ne {c : UInt8} (h : is_space c = true) : c ≠ 0 := by
  rintro rfl
  revert h
  decide

theorem trim_blank {buf : List UInt8} (h : ∀ c ∈ buf, is_space c = true) : trim buf = [] := by
  have hstring : (buf.takeWhile fun c => c ≠ 0).dropWhile is_space = [] := by
    apply List.dropWhile_eq_nil_iff.mpr
    intro c hc
    exact h c (List.takeWhile_subset _ hc)
  rw [trim, hstring]
  rfl

/-- The white space on both sides goes, and the content stays as it is. -/
theorem trim_margins {left content right : List UInt8} {c d : UInt8} (hleft : ∀ c ∈ left, is_space c = true)
    (hright : ∀ c ∈ right, is_space c = true) (hcontent : ∀ c ∈ content, c ≠ 0)
    (hhead : content.head? = some c) (hc : is_space c = false) (hlast : content.getLast? = some d) (hd : is_space d = false) :
    trim (left ++ (content ++ right)) = content := by
  have hstring : ((left ++ (content ++ right)).takeWhile fun c => c ≠ 0) = left ++ (content ++ right) := by
    apply List.takeWhile_eq_self_iff.mpr
    intro c hc
    simp only [List.mem_append] at hc
    obtain hc | hc | hc := hc
    · simpa using is_space_ne (hleft c hc)
    · simpa using hcontent c hc
    · simpa using is_space_ne (hright c hc)
  have hstart : (left ++ (content ++ right)).dropWhile is_space = content ++ right := by
    obtain ⟨rest, rfl⟩ : ∃ rest, content = c :: rest := List.head?_eq_some_iff.mp hhead
    rw [List.dropWhile_append_of_pos hleft, List.cons_append, List.dropWhile_cons_of_neg (by simp [hc])]
  have hend : (content ++ right).reverse.dropWhile is_space = content.reverse := by
    obtain ⟨rest, rfl⟩ : ∃ rest, content = rest ++ [d] := List.getLast?_eq_some_iff.mp hlast
    rw [List.reverse_append, List.dropWhile_append_of_pos (by simpa using hright), List.reverse_concat,
      List.dropWhile_cons_of_neg (by simp [hd])]
  rw [trim, hstring, hstart, hend, List.reverse_reverse]

theorem trim_comment {left text : List UInt8} (hleft : ∀ c ∈ left, is_space c = true) :
    (trim (left ++ 35 :: text)).head? = some 35 := by
  have hstring : ((left ++ 35 :: text).takeWhile fun c => c ≠ 0) = left ++ 35 :: text.takeWhile fun c => c ≠ 0 := by
    rw [List.takeWhile_append_of_pos, List.takeWhile_cons_of_pos (by decide)]
    intro c hc
    simpa using is_space_ne (hleft c hc)
  rw [trim, hstring, List.dropWhile_append_of_pos hleft, List.dropWhile_cons_of_neg (by decide), List.reverse_cons,
    List.dropWhile_append]
  split
  · simp [is_space]
  · simp

/-- White space in a line. -/
abbrev Margin := { margin : List UInt8 // ∀ c ∈ margin, is_space c = true ∧ c ≠ 10 }

theorem Margin.spaces (m : Margin) : ∀ c ∈ m.1, is_space c = true := fun c hc => (m.2 c hc).1

theorem Margin.spaces_append (m : Margin) {tail : List UInt8} (htail : ∀ c ∈ tail, is_space c = true) :
    ∀ c ∈ m.1 ++ tail, is_space c = true := by
  intro c hc
  rw [List.mem_append] at hc
  obtain hc | hc := hc
  · exact m.spaces c hc
  · exact htail c hc

/-- A line of a dictionary file, with the white space around it: an empty one, a comment, or one
with a token. Lines that the loader refuses are not among them. -/
inductive Line where
  | blank (margin : Margin)
  | comment (margin : Margin) (text : { text : List UInt8 // ∀ c ∈ text, c ≠ 10 })
  | entry (left : Margin) (e : Entry) (right : Margin)

namespace Line

/-- The bytes of a line without its newline. White space may stand on both sides of an entry and
in front of a comment. -/
def bytes : Line → List UInt8
  | blank margin => margin.1
  | comment margin text => margin.1 ++ 35 :: text.1
  | entry left e right => left.1 ++ (e.line ++ right.1)

/-- The token of the line, if its level is not too high. A line that is blank or a comment has
none. -/
def token (dict_level : UInt32) : Line → Option (List UInt8)
  | blank _ => none
  | comment _ _ => none
  | entry _ e _ => if e.level_value ≤ dict_level then some e.token else none

theorem bytes_ne (line : Line) : ∀ c ∈ line.bytes, c ≠ 10 := by
  cases line with
  | blank margin => exact fun c hc => (margin.2 c hc).2
  | comment margin text =>
    intro c hc
    rw [bytes, List.mem_append, List.mem_cons] at hc
    obtain hc | rfl | hc := hc
    · exact (margin.2 c hc).2
    · decide
    · exact text.2 c hc
  | entry left e right =>
    intro c hc
    rw [bytes, List.mem_append, List.mem_append] at hc
    obtain hc | hc | hc := hc
    · exact (left.2 c hc).2
    · exact (e.line_bytes c hc).2
    · exact (right.2 c hc).2

/-- A line is read with or without the newline behind it. -/
theorem read_line_bytes (dict_level : UInt32) (line : Line) {tail : List UInt8} (htail : ∀ c ∈ tail, is_space c = true) :
    read_line dict_level (line.bytes ++ tail) = .ok (line.token dict_level) := by
  cases line with
  | blank margin =>
    have hblank : trim ((blank margin).bytes ++ tail) = [] := trim_blank (margin.spaces_append htail)
    simp [read_line, hblank, token]
  | comment margin text =>
    have hcomment : (trim ((comment margin text).bytes ++ tail)).head? = some 35 := by
      rw [bytes, List.append_assoc, List.cons_append]
      exact trim_comment margin.spaces
    simp [read_line, hcomment, token]
  | entry left e right =>
    obtain ⟨c, rest, hline, hc, _⟩ := e.line_head
    apply e.read_line_trimmed
    rw [bytes, List.append_assoc, List.append_assoc]
    apply trim_margins (c := c) (d := 34)
    · exact left.spaces
    · exact right.spaces_append htail
    · exact fun c hc => (e.line_bytes c hc).1
    · simp [hline]
    · exact hc
    · simp [Entry.line]
    · rfl

end Line

theorem takeWhile_line {text rest : List UInt8} (hne : ∀ c ∈ text, c ≠ 10) :
    (text ++ 10 :: rest).takeWhile (fun c => c ≠ 10) = text := by
  rw [List.takeWhile_append_of_pos (by simpa using hne), List.takeWhile_cons_of_neg (by decide), List.append_nil]

/-- A line that is shorter than the buffer is read with its newline, and the file goes on behind
it. -/
theorem fgets_line {size : Nat} {text rest : List UInt8} (hne : ∀ c ∈ text, c ≠ 10) (hlen : text.length + 1 < size) :
    fgets size (text ++ 10 :: rest) = some (text ++ [10], rest) := by
  have hmin : min (size - 1) (text.length + 1) = (text ++ [10]).length := by
    rw [List.length_append, List.length_singleton]
    omega
  have hfile : text ++ 10 :: rest = (text ++ [10]) ++ rest := by simp
  rw [fgets, if_neg (by simp), takeWhile_line hne, hmin, hfile]
  simp only [List.take_left, List.drop_left]

/-- A line that fills the buffer leaves its newline in the file. -/
theorem fgets_full {size : Nat} {text rest : List UInt8} (hne : ∀ c ∈ text, c ≠ 10) (hlen : text.length + 1 = size) :
    fgets size (text ++ 10 :: rest) = some (text, 10 :: rest) := by
  have hmin : min (size - 1) (text.length + 1) = text.length := by omega
  rw [fgets, if_neg (by simp), takeWhile_line hne, hmin]
  simp only [List.take_left, List.drop_left]

/-- The tokens with that of a line, if it has one. -/
def Loading.keep (s : Loading) (token : Option (List UInt8)) : Loading := token.elim s s.append

theorem load_lines_next {dict_level : UInt32} {file line rest : List UInt8} {token : Option (List UInt8)}
    (hfgets : fgets MAX_LINE file = some (line, rest)) (hread : read_line dict_level line = .ok token)
    (cur_line : UInt32) (s : Loading) :
    load_lines dict_level file cur_line s = load_lines dict_level rest (cur_line + 1) (s.keep token) := by
  rw [load_lines]
  split
  · simp_all
  · rename_i line' rest' hfgets'
    obtain ⟨rfl, rfl⟩ : line = line' ∧ rest = rest' := by simpa [hfgets] using hfgets'
    cases token <;> simp [hread, Loading.keep]

/-- A line is read by one `fgets`, or by two if it fills the buffer. -/
theorem load_line {dict_level : UInt32} {line : Line} {rest : List UInt8} {s s' : Loading} (hshort : line.bytes.length < MAX_LINE)
    (hrest : ∀ cur_line, load_lines dict_level rest cur_line (s.keep (line.token dict_level)) = .ok s') (cur_line : UInt32) :
    load_lines dict_level (line.bytes ++ 10 :: rest) cur_line s = .ok s' := by
  by_cases hfull : line.bytes.length + 1 = MAX_LINE
  · have hline : read_line dict_level (line.bytes ++ []) = .ok (line.token dict_level) := line.read_line_bytes dict_level (by simp)
    rw [List.append_nil] at hline
    have hnewline : fgets MAX_LINE (10 :: rest) = some ([10], rest) := @fgets_line MAX_LINE [] rest (by simp) (by decide)
    have hblank : read_line dict_level [10] = .ok none := by rfl
    rw [load_lines_next (fgets_full line.bytes_ne hfull) hline, load_lines_next hnewline hblank]
    exact hrest _
  · have hline : read_line dict_level (line.bytes ++ [10]) = .ok (line.token dict_level) := line.read_line_bytes dict_level (by simp [is_space])
    rw [load_lines_next (fgets_line line.bytes_ne (by omega)) hline]
    exact hrest _

/-- The lines with their newlines. -/
def encode (lines : List Line) : List UInt8 := lines.flatMap fun line => line.bytes ++ [10]

/-- The tokens whose level does not exceed the level of the dictionary. -/
def tokens (dict_level : UInt32) (lines : List Line) : List (List UInt8) := lines.filterMap (Line.token dict_level)

/-- Reading the lines one after the other adds their tokens in order. A line that fills the
buffer costs two rounds and one more line number. -/
theorem load_lines_encode {dict_level : UInt32} {lines : List Line} (hshort : ∀ line ∈ lines, line.bytes.length < MAX_LINE) :
    ∀ cur_line s, load_lines dict_level (encode lines) cur_line s = .ok ((tokens dict_level lines).foldl Loading.append s) := by
  induction lines with
  | nil =>
    intro cur_line s
    rw [load_lines]
    rfl
  | cons line lines ih =>
    intro cur_line s
    have hrest := ih fun line hline => hshort line (List.mem_cons_of_mem _ hline)
    have hencode : encode (line :: lines) = line.bytes ++ 10 :: encode lines := by simp [encode]
    rw [hencode]
    apply load_line (hshort line List.mem_cons_self)
    intro cur_line
    rw [hrest, tokens, tokens]
    cases htoken : line.token dict_level <;> simp [htoken, Loading.keep]

/-- The tokens that are added are behind those that were there, with no hits. -/
theorem foldl_append_extras (tokens : List (List UInt8)) :
    ∀ s : Loading, (tokens.foldl Loading.append s).extras = s.extras ++ tokens.map fun data => { data, hit_cnt := 0 } := by
  induction tokens with
  | nil => simp
  | cons data tokens ih =>
    intro s
    simp [ih, Loading.append]

/-- Reading a dictionary inverts writing it: the tokens whose level does not exceed the
level of the dictionary are appended in order, and the reading of each stays in what is
allocated for it. -/
theorem load_extras_file_encode (dict_level : UInt32) (lines : List Line) (hshort : ∀ line ∈ lines, line.bytes.length < MAX_LINE)
    (s : Loading) :
    ∃ s', load_extras_file (encode lines) dict_level s = .ok s' ∧
      s'.extras = s.extras ++ (tokens dict_level lines).map fun data => { data, hit_cnt := 0 } :=
  ⟨_, load_lines_encode hshort 0 s, foldl_append_extras _ s⟩

/-- The token of the quote, the backslash, the space and bytes that are not printable. -/
def problematic : Entry where
  label := [97, 95]
  level := some { value := 2, digits := [48, 50], all_digits := by simp [is_digit], nonempty := by decide, reads := by decide }
  between := [32, 61]
  token := [34, 92, 32, 0, 255]
  text := [34, 92, 32, 0, 255].flatMap escape
  label_name := by simp [is_alnum]
  between_skipped := by simp [is_space]
  between_first := by simp
  token_nonempty := by decide
  token_length := by decide
  spelled := escape_spelled _

theorem load_extras_file_problematic :
    ∃ s', load_extras_file (encode [.comment ⟨[9], by simp [is_space]⟩ ⟨[0], by simp⟩, .blank ⟨[], by simp⟩,
        .entry ⟨[], by simp⟩ problematic ⟨[13], by simp [is_space]⟩]) 2 ⟨[], 128, 0⟩ = .ok s' ∧
      s'.extras = [{ data := [34, 92, 32, 0, 255], hit_cnt := 0 }] :=
  load_extras_file_encode 2 [.comment ⟨[9], by simp [is_space]⟩ ⟨[0], by simp⟩, .blank ⟨[], by simp⟩,
    .entry ⟨[], by simp⟩ problematic ⟨[13], by simp [is_space]⟩] (by decide) ⟨[], 128, 0⟩

end aflnet
