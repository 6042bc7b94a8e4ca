import AflnetLegion.Dictionary.AutoExtras
import AflnetLegion.Protocol.Responses

namespace aflnet

/-- The limits of `config.h` on a line and on a token from a file. -/
def MAX_LINE : Nat := 8192

def MAX_DICT_FILE : Nat := 128

/-- `isalnum` and `isxdigit` in the C locale, by which the words before the quotes and the
escaped bytes are recognized. -/
def is_alnum (c : UInt8) : Bool := is_digit c || (65 ≤ c && c ≤ 90) || (97 ≤ c && c ≤ 122)

def is_xdigit (c : UInt8) : Bool := is_digit c || (65 ≤ c && c ≤ 70) || (97 ≤ c && c ≤ 102)

/-- The string `hexdigits`, in which a digit is looked up. -/
def hexdigits : List UInt8 := [48, 49, 50, 51, 52, 53, 54, 55, 56, 57, 97, 98, 99, 100, 101, 102]

/-- `strchr(hexdigits, tolower(c)) - hexdigits` -/
def hex_value (c : UInt8) : Nat := hexdigits.idxOf (tolower c)

/-- Why a line is refused. The last one is no message of the program: a byte is written
behind what was allocated. -/
inductive extras_cause where
  | malformed_value | malformed_keyword | empty_keyword | non_printable | invalid_escaping | keyword_too_big
  | out_of_bounds
  deriving DecidableEq, Repr

/-- A message and the number of the line that it names, counted from 1. The loader stops at the
first line that it refuses. -/
structure extras_fatal where
  cause : extras_cause
  cur_line : UInt32
  deriving DecidableEq, Repr

/-- What is read, and what is left of the file. A line is read with its newline, and a longer
one is read in pieces, each of which is then taken for a line. -/
def fgets (size : Nat) (file : List UInt8) : Option (List UInt8 × List UInt8) :=
  if file = [] then none
  else
    let n := min (size - 1) ((file.takeWhile fun c => c ≠ 10).length + 1)
    some (file.take n, file.drop n)

/-- The string in the buffer, without white space on the left and right. The string ends at the
first NUL, so what a line has behind one is not looked at. -/
def trim (buf : List UInt8) : List UInt8 :=
  (((buf.takeWhile fun c => c ≠ 0).dropWhile is_space).reverse.dropWhile is_space).reverse

/-- `*(wptr++) = byte`, into the bytes that were allocated for the token. The source does not
compare `wptr` with their end. -/
def put_byte (size : Nat) (data : List UInt8) (byte : UInt8) : Except extras_cause (List UInt8) :=
  if data.length < size then .ok (data ++ [byte]) else .error .out_of_bounds

/-- The copying of the data between the quotes to `size` bytes. A backslash begins an escaped
backslash, an escaped quote, or a byte in two hexadecimal digits. -/
def read_keyword (size : Nat) : List UInt8 → List UInt8 → Except extras_cause (List UInt8)
  | [], data => .ok data
  | c :: lptr, data =>
    if c < 32 ∨ 127 < c then .error .non_printable
    else if c = 92 then
      match lptr with
      | [] => .error .invalid_escaping
      | d :: lptr =>
        if d = 92 ∨ d = 34 then do
          let data ← put_byte size data d
          read_keyword size lptr data
        else
          match lptr with
          | high :: low :: lptr =>
            if d = 120 ∧ is_xdigit high ∧ is_xdigit low then do
              let data ← put_byte size data (UInt8.ofNat (hex_value high <<< 4 ||| hex_value low))
              read_keyword size lptr data
            else .error .invalid_escaping
          | _ => .error .invalid_escaping
    else do
      let data ← put_byte size data c
      read_keyword size lptr data

/-- `atoi(lptr)` as it is compared: `strtol` stops at the ends of a `long`, whose value is
cut to an `int` and taken as a `u32`. -/
def line_level (lptr : List UInt8) : UInt32 :=
  UInt32.ofInt (max (-9223372036854775808) (min (atoi lptr) 9223372036854775807))

/-- What follows the level, unless the line is skipped because of it. A line without a level is
read whatever the level of the dictionary is. -/
def skip_level (dict_level : UInt32) (lptr : List UInt8) : Option (List UInt8) :=
  match lptr with
  | 64 :: lptr => if line_level lptr > dict_level then none else some (lptr.dropWhile is_digit)
  | lptr => some lptr

/-- The value of a line whose closing quote is consumed. As many bytes are allocated as are
left, which is enough because no escape is shorter than what it stands for. -/
def read_value (lptr : List UInt8) : Except extras_cause (List UInt8) :=
  match lptr.dropWhile fun c => is_space c || c = 61 with
  | 34 :: lptr =>
    if lptr = [] then .error .empty_keyword
    else do
      let data ← read_keyword lptr.length lptr []
      if data.length > MAX_DICT_FILE then .error .keyword_too_big else .ok data
  | _ => .error .malformed_keyword

/-- The token of a line, if it has one that is not skipped. An empty line and a comment have
none, and what is wrong with another line is one of the fatal causes. -/
def read_line (dict_level : UInt32) (buf : List UInt8) : Except extras_cause (Option (List UInt8)) :=
  let lptr := trim buf
  if lptr = [] ∨ lptr.head? = some 35 then .ok none
  else if lptr.getLast? ≠ some 34 then .error .malformed_value
  else
    match skip_level dict_level (lptr.dropLast.dropWhile fun c => is_alnum c || c = 95) with
    | none => .ok none
    | some lptr => do
      let data ← read_value lptr
      .ok (some data)

/-- The tokens that were loaded so far, and the range of their lengths, which is shown when the
file is read. -/
structure Loading where
  extras : List extra_data
  min_len : Nat
  max_len : Nat
  deriving DecidableEq, Repr

/-- A token is added, and the range of the lengths takes it in. Its use count is 0 from the
start. -/
def Loading.append (s : Loading) (data : List UInt8) : Loading where
  extras := s.extras ++ [{ data, hit_cnt := 0 }]
  min_len := if s.min_len > data.length then data.length else s.min_len
  max_len := if s.max_len < data.length then data.length else s.max_len

/-- Every call of `fgets` takes something off the file. -/
theorem fgets_shorter {size : Nat} {file line rest : List UInt8} (hsize : 2 ≤ size) (h : fgets size file = some (line, rest)) :
    rest.length < file.length := by
  rw [fgets] at h
  split at h
  · cases h
  · rename_i hne
    cases h
    have hpos := List.length_pos_of_ne_nil hne
    rw [List.length_drop]
    omega

/-- The loop over the lines. It ends as the file gets shorter: `fgets` reads at least one byte
of what is left. -/
def load_lines (dict_level : UInt32) (file : List UInt8) (cur_line : UInt32) (s : Loading) : Except extras_fatal Loading :=
  match _h : fgets MAX_LINE file with
  | none => .ok s
  | some (line, rest) =>
    match read_line dict_level line with
    | .error cause => .error { cause, cur_line := cur_line + 1 }
    | .ok none => load_lines dict_level rest (cur_line + 1) s
    | .ok (some data) => load_lines dict_level rest (cur_line + 1) (s.append data)
termination_by file.length
decreasing_by all_goals exact fgets_shorter (by decide) _h

/-- The whole function, from the first line on. Sorting the tokens, and the limits on their
number and size, follow in `load_extras`. -/
def load_extras_file (file : List UInt8) (dict_level : UInt32) (s : Loading) : Except extras_fatal Loading :=
  load_lines dict_level file 0 s

theorem put_byte_bind {size : Nat} {data : List UInt8} {byte : UInt8} (h : data.length < size)
    (read : List UInt8 → Except extras_cause (List UInt8)) :
    (put_byte size data byte >>= read) = read (data ++ [byte]) := by
  rw [put_byte, if_pos h]
  rfl

/-- A byte is written within what was allocated if the bytes that are left fit. -/
theorem put_byte_in_bounds {size left : Nat} {data : List UInt8} {byte : UInt8} {read : List UInt8 → Except extras_cause (List UInt8)}
    (hread : ∀ data, data.length + left ≤ size → read data ≠ .error .out_of_bounds) (hsize : data.length + (left + 1) ≤ size) :
    (put_byte size data byte >>= read) ≠ .error .out_of_bounds := by
  rw [put_byte_bind (by omega)]
  apply hread
  rw [List.length_append, List.length_singleton]
  omega

/-- No byte takes less space in the line than in the token. -/
theorem read_keyword_in_bounds {size : Nat} {lptr data : List UInt8} (hsize : data.length + lptr.length ≤ size) :
    read_keyword size lptr data ≠ .error .out_of_bounds := by
  fun_induction read_keyword size lptr data with
  | case1 | case2 | case3 | case6 | case7 => simp
  | case4 data d lptr _ _ ih =>
    apply put_byte_in_bounds ih
    simp only [List.length_cons] at hsize
    omega
  | case5 data d _ high low lptr _ _ ih =>
    apply put_byte_in_bounds ih
    simp only [List.length_cons] at hsize
    omega
  | case8 c lptr data _ _ ih =>
    apply put_byte_in_bounds ih
    simpa using hsize

theorem read_value_in_bounds (lptr : List UInt8) : read_value lptr ≠ .error .out_of_bounds := by
  rw [read_value]
  split
  · rename_i lptr _
    split
    · simp
    · have hread : read_keyword lptr.length lptr [] ≠ .error .out_of_bounds := read_keyword_in_bounds (by simp)
      cases hkeyword : read_keyword lptr.length lptr [] with
      | error cause => simpa [hkeyword, bind, Except.bind] using hread
      | ok data =>
        simp only [bind, Except.bind]
        split <;> simp
  · simp

theorem read_line_in_bounds (dict_level : UInt32) (buf : List UInt8) :
    read_line dict_level buf ≠ .error .out_of_bounds := by
  rw [read_line]
  split
  · simp
  · split
    · simp
    · split
      · simp
      · rename_i lptr _
        have hread := read_value_in_bounds lptr
        cases hvalue : read_value lptr with
        | error cause => simpa [hvalue, bind, Except.bind] using hread
        | ok data => simp [bind, Except.bind]

theorem read_value_length {lptr data : List UInt8} (h : read_value lptr = .ok data) : data.length ≤ MAX_DICT_FILE := by
  rw [read_value] at h
  split at h
  · rename_i lptr _
    split at h
    · cases h
    · cases hkeyword : read_keyword lptr.length lptr [] with
      | error cause => simp [hkeyword, bind, Except.bind] at h
      | ok keyword =>
        simp only [hkeyword, bind, Except.bind] at h
        split at h
        · cases h
        · rename_i hle
          cases h
          exact Nat.le_of_not_lt hle
  · cases h

theorem read_line_length {dict_level : UInt32} {buf data : List UInt8} (h : read_line dict_level buf = .ok (some data)) :
    data.length ≤ MAX_DICT_FILE := by
  rw [read_line] at h
  split at h
  · cases h
  · split at h
    · cases h
    · split at h
      · cases h
      · rename_i lptr _
        cases hvalue : read_value lptr with
        | error cause => simp [hvalue, bind, Except.bind] at h
        | ok value =>
          simp only [hvalue, bind, Except.bind] at h
          cases h
          exact read_value_length hvalue

theorem load_lines_length {dict_level : UInt32} {file : List UInt8} {cur_line : UInt32} {s s' : Loading}
    (h : load_lines dict_level file cur_line s = .ok s') (hs : ∀ e ∈ s.extras, e.len ≤ MAX_DICT_FILE) :
    ∀ e ∈ s'.extras, e.len ≤ MAX_DICT_FILE := by
  fun_induction load_lines dict_level file cur_line s with
  | case1 =>
    cases h
    exact hs
  | case2 => cases h
  | case3 file cur_line s line rest _ _ ih => exact ih h hs
  | case4 file cur_line s line rest _ data hline ih =>
    apply ih h
    intro e he
    simp only [Loading.append, List.mem_append, List.mem_singleton] at he
    obtain he | rfl := he
    · exact hs e he
    · exact read_line_length hline

/-- What is loaded is never too big for the stages that use the dictionary. -/
theorem load_extras_file_length {file : List UInt8} {dict_level : UInt32} {s s' : Loading}
    (h : load_extras_file file dict_level s = .ok s') (hs : ∀ e ∈ s.extras, e.len ≤ MAX_DICT_FILE) :
    ∀ e ∈ s'.extras, e.len ≤ MAX_DICT_FILE := load_lines_length h hs

/-- No file makes the loader write behind what it allocated. -/
theorem load_extras_file_in_bounds (file : List UInt8) (dict_level cur_line : UInt32) (s : Loading) :
    load_extras_file file dict_level s ≠ .error { cause := .out_of_bounds, cur_line } := by
  suffices hlines : ∀ start, load_lines dict_level file start s ≠ .error { cause := .out_of_bounds, cur_line } from hlines 0
  intro start
  fun_induction load_lines dict_level file start s with
  | case1 => simp
  | case2 file start s line rest _ cause hline =>
    intro h
    cases h
    exact read_line_in_bounds dict_level line hline
  | case3 file start s line rest _ _ ih => exact ih
  | case4 file start s line rest _ data _ ih => exact ih

end aflnet
