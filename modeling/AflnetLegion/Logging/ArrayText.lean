import AflnetLegion.Lib.CString
import AflnetLegion.Lib.Decimal

/-! The texts of code sequences that the log lines are made of. -/

namespace aflnet

open CString Decimal

/-- The digits reserved for a code, `(u32)(floor(log10(a[i]))) + 1` or one for zero. The code is
an unsigned number here, while it is printed as a signed one. -/
def digits_len (code : UInt32) : UInt32 :=
  if code ≠ 0 then UInt32.ofNat (Nat.log 10 code.toNat) + 1 else 1

/-- The characters reserved for the text. All numbers are `u32`, so an empty array has `2 * (0 -
1)` bytes of delimiters. -/
def str_len (a : List UInt32) : UInt32 :=
  a.foldl (fun str_len code => str_len + digits_len code) 0 + 2 * (UInt32.ofNat a.length - 1)

/-- Bytes as they are found in memory, which is a parameter. Only what was written is known. -/
def malloc (memory : Nat → UInt8) (size : Nat) : List UInt8 := (List.range size).map memory

/-- The loop that writes the codes; `n` bytes are written so far. A delimiter is written as long
as the text is shorter than what was reserved, which `strlen` of the text decides. -/
def print_codes (str_len : UInt32) : List UInt32 → UInt32 → List UInt8 → Except Fault (List UInt8)
  | [], _, str => .ok str
  | code :: a, n, str => do
    let str ← print str n.toNat (int32 code)
    let n := n + UInt32.ofNat (int32 code).length
    let len ← strlen str
    if len < str_len.toNat then
      let str ← print str n.toNat [44, 32]
      print_codes str_len a (n + 2) str
    else print_codes str_len a n str

/-- The text of an array. The size is a `size_t`, where the NUL cannot wrap, and the loop may
write and read behind what was allocated. -/
def u32_array_to_str (memory : Nat → UInt8) (a : List UInt32) : Except Fault (List UInt8) :=
  print_codes (str_len a) a 0 (malloc memory ((str_len a).toNat + 1))

/-- All writes are in bounds and the string in the result is the codes joined by ", ",
whatever the memory held. -/
def Renders (a : List UInt32) : Prop :=
  ∀ memory, ∃ str, u32_array_to_str memory a = .ok str ∧ CString.text str = .ok (joined [44, 32] a)

variable {code : UInt32} {a : List UInt32}

theorem digits_len_eq (code : UInt32) : digits_len code = UInt32.ofNat (Decimal.text code.toNat).length := by
  by_cases h : code = 0
  · subst h
    rfl
  · have hvalue : code.toNat ≠ 0 := fun hzero => h (UInt32.toNat_inj.mp hzero)
    rw [digits_len, if_pos h, length_text hvalue, UInt32.ofNat_add]
    rfl

/-- The length reserved for the codes alone. -/
theorem foldl_digits_len (k : Nat) (a : List UInt32) :
    a.foldl (fun str_len code => str_len + digits_len code) (UInt32.ofNat k) =
      UInt32.ofNat (k + (a.flatMap fun code => Decimal.text code.toNat).length) := by
  induction a generalizing k with
  | nil => rfl
  | cons code a ih =>
    rw [List.foldl_cons, digits_len_eq, ← UInt32.ofNat_add, ih]
    simp [Nat.add_assoc]

/-- The text of the codes has two bytes more for every code but the last. -/
theorem length_joined (code : UInt32) (a : List UInt32) :
    (joined [44, 32] (code :: a)).length = ((code :: a).flatMap fun code => Decimal.text code.toNat).length + 2 * a.length := by
  induction a generalizing code with
  | nil => simp
  | cons next a ih =>
    rw [joined_cons (by simp)]
    simp only [List.length_append, ih, List.flatMap_cons, List.length_cons, List.length_nil]
    omega

/-- Up to wrapping, the length is right for every array but the empty one. -/
theorem str_len_eq (h : a ≠ []) : str_len a = UInt32.ofNat (joined [44, 32] a).length := by
  cases a with
  | nil => exact absurd rfl h
  | cons code a =>
    have hcodes := foldl_digits_len 0 (code :: a)
    have hdelimiters : 2 * (UInt32.ofNat (a.length + 1) - 1) = UInt32.ofNat (2 * a.length) := by
      rw [UInt32.ofNat_add, UInt32.ofNat_mul]
      congr 1
      exact UInt32.add_sub_cancel _ _
    rw [Nat.zero_add] at hcodes
    rw [str_len, length_joined, UInt32.ofNat_add, ← hcodes, List.length_cons, hdelimiters]
    rfl

/-- The size does not wrap as long as the text itself has fewer than 2^32 bytes. -/
theorem toNat_str_len (h : a ≠ []) (hfits : (joined [44, 32] a).length < 4294967296) : (str_len a).toNat = (joined [44, 32] a).length := by
  rw [str_len_eq h, UInt32.toNat_ofNat']
  exact Nat.mod_eq_of_lt hfits

section Loop

variable {limit n : UInt32} {done rest str : List UInt8}

/-- The first `n` bytes of the buffer are text, and `rest` is what is behind them. -/
structure Written (limit n : UInt32) (done rest : List UInt8) : Prop where
  position : n.toNat = done.length
  free : 0 ∉ done
  size : done.length + rest.length = limit.toNat + 1

namespace Written

/-- Neither the text nor a code that is printed behind it has a NUL, so the string goes on. -/
theorem free_code (h : Written limit n done rest) (code : UInt32) : 0 ∉ done ++ int32 code := by
  simp [h.free, nul_not_mem_int32]

theorem position_code (h : Written limit n done rest) (hfits : done.length + (int32 code).length ≤ limit.toNat) :
    (n + UInt32.ofNat (int32 code).length).toNat = (done ++ int32 code).length := by
  have hlimit := limit.toNat_lt
  rw [UInt32.toNat_add, UInt32.toNat_ofNat', h.position, List.length_append]
  omega

/-- A code is written. -/
theorem with_code (h : Written limit n done rest) (hfits : done.length + (int32 code).length ≤ limit.toNat) :
    Written limit (n + UInt32.ofNat (int32 code).length) (done ++ int32 code) (0 :: rest.drop ((int32 code).length + 1)) where
  position := h.position_code hfits
  free := h.free_code code
  size := by
    have hsize := h.size
    simp
    omega

/-- A code and a delimiter are written. -/
theorem with_delimiter (h : Written limit n done rest) (hroom : done.length + (int32 code).length + 2 ≤ limit.toNat) :
    Written limit (n + UInt32.ofNat (int32 code).length + 2) (done ++ int32 code ++ [44, 32])
      (0 :: rest.drop ((int32 code).length + 3)) where
  position := by
    have hlimit := limit.toNat_lt
    rw [UInt32.toNat_add, h.position_code (Nat.le_of_add_right_le hroom), List.length_append, List.length_append]
    simp
    omega
  free := by simp [h.free, nul_not_mem_int32]
  size := by
    have hsize := h.size
    simp
    omega

end Written

/-- A code that fills the buffer has no delimiter. -/
theorem print_codes_full (h : Written limit n done rest) (hfull : done.length + (int32 code).length = limit.toNat) :
    print_codes limit (code :: a) n (done ++ rest) =
      print_codes limit a (n + UInt32.ofNat (int32 code).length)
        (done ++ int32 code ++ 0 :: rest.drop ((int32 code).length + 1)) := by
  have hsize := h.size
  rw [print_codes, h.position, print_append (by omega)]
  simp only [ok_bind, strlen_append_nul (h.free_code code)]
  rw [if_neg (by simp [hfull])]

/-- In front of the end a delimiter follows. -/
theorem print_codes_delimiter (h : Written limit n done rest)
    (hroom : done.length + (int32 code).length + 2 ≤ limit.toNat) :
    print_codes limit (code :: a) n (done ++ rest) =
      print_codes limit a (n + UInt32.ofNat (int32 code).length + 2)
        (done ++ int32 code ++ [44, 32] ++ 0 :: rest.drop ((int32 code).length + 3)) := by
  have hsize := h.size
  have hdelimiter : ([44, 32] : List UInt8).length < (0 :: rest.drop ((int32 code).length + 1)).length := by
    simp
    omega
  rw [print_codes, h.position, print_append (by omega)]
  simp only [ok_bind, strlen_append_nul (h.free_code code)]
  rw [if_pos (by simp; omega), h.position_code (Nat.le_of_add_right_le hroom), print_append hdelimiter]
  simp [ok_bind]

/-- Every other length ends behind the buffer, with the code or with its delimiter. -/
theorem print_codes_overflow (h : Written limit n done rest) (hfull : done.length + (int32 code).length ≠ limit.toNat)
    (hroom : ¬done.length + (int32 code).length + 2 ≤ limit.toNat) :
    print_codes limit (code :: a) n (done ++ rest) = .error .out_of_bounds := by
  have hsize := h.size
  by_cases hcode : (int32 code).length < rest.length
  · have hfits : done.length + (int32 code).length ≤ limit.toNat := by omega
    have hdelimiter : (0 :: rest.drop ((int32 code).length + 1)).length ≤ ([44, 32] : List UInt8).length := by
      simp
      omega
    rw [print_codes, h.position, print_append hcode]
    simp only [ok_bind, strlen_append_nul (h.free_code code)]
    rw [if_pos (by simp; omega), h.position_code hfits, print_append_of_le hdelimiter]
    rfl
  · rw [print_codes, h.position, print_append_of_le (Nat.le_of_not_lt hcode)]
    rfl

/-- Whatever is returned has the size of the buffer and starts with the text of the first code. -/
theorem print_codes_extends (h : Written limit n done rest) (hend : a = [] → rest.head? = some 0)
    (hrun : print_codes limit a n (done ++ rest) = .ok str) :
    str.length = limit.toNat + 1 ∧
      ∃ t rest', str = done ++ t ++ 0 :: rest' ∧ 0 ∉ t ∧ ∀ code ∈ a.head?, int32 code <+: t := by
  induction a generalizing n done rest with
  | nil =>
    obtain ⟨rest, rfl⟩ := List.head?_eq_some_iff.mp (hend rfl)
    cases hrun
    exact ⟨by simpa using h.size, [], rest, by simp, by simp, by simp⟩
  | cons code a ih =>
    by_cases hfull : done.length + (int32 code).length = limit.toNat
    · rw [print_codes_full h hfull] at hrun
      obtain ⟨hlength, t, rest', rfl, ht, -⟩ := ih (h.with_code (Nat.le_of_eq hfull)) (by simp) hrun
      exact ⟨hlength, int32 code ++ t, rest', by simp, by simp [ht, nul_not_mem_int32], by simp⟩
    · by_cases hroom : done.length + (int32 code).length + 2 ≤ limit.toNat
      · rw [print_codes_delimiter h hroom] at hrun
        obtain ⟨hlength, t, rest', rfl, ht, -⟩ := ih (h.with_delimiter hroom) (by simp) hrun
        exact ⟨hlength, int32 code ++ ([44, 32] ++ t), rest', by simp, by simp [ht, nul_not_mem_int32], by simp⟩
      · rw [print_codes_overflow h hfull hroom] at hrun
        cases hrun

/-- Codes without sign bit are written as they are joined. -/
theorem print_codes_joined (h : Written limit n done rest) (hne : a ≠ [])
    (hlimit : done.length + (joined [44, 32] a).length = limit.toNat) (hcodes : ∀ code ∈ a, code.toNat < 2147483648) :
    ∃ rest', print_codes limit a n (done ++ rest) = .ok (done ++ joined [44, 32] a ++ 0 :: rest') := by
  induction a generalizing n done rest with
  | nil => exact absurd rfl hne
  | cons code a ih =>
    have htext : int32 code = Decimal.text code.toNat := int32_of_lt (hcodes code (by simp))
    by_cases hlast : a = []
    · subst hlast
      rw [joined_singleton, ← htext] at hlimit
      rw [print_codes_full h hlimit, joined_singleton, ← htext]
      exact ⟨_, rfl⟩
    · rw [joined_cons hlast, ← htext] at hlimit ⊢
      simp only [List.length_append, List.length_cons, List.length_nil] at hlimit
      have hroom : done.length + (int32 code).length + 2 ≤ limit.toNat := by omega
      rw [print_codes_delimiter h hroom]
      obtain ⟨rest', hrest⟩ := ih (h.with_delimiter hroom) hlast (by simp; omega) fun next hnext => hcodes next (by simp [hnext])
      exact ⟨rest', by simpa using hrest⟩

/-- A returned text of joined codes shows no sign. -/
theorem codes_of_print_codes (h : Written limit n done rest) (hne : a ≠ [])
    (hlimit : done.length + (joined [44, 32] a).length = limit.toNat) (hrun : print_codes limit a n (done ++ rest) = .ok str)
    (htext : CString.text str = .ok (done ++ joined [44, 32] a)) : ∀ code ∈ a, code.toNat < 2147483648 := by
  induction a generalizing n done rest with
  | nil => simp
  | cons code a ih =>
    obtain ⟨-, t, rest', rfl, ht, hfirst⟩ := print_codes_extends h (by simp) hrun
    rw [text_append_nul (by simp [h.free, ht])] at htext
    simp only [Except.ok.injEq, List.append_cancel_left_eq] at htext
    subst htext
    have hcode : code.toNat < 2147483648 := by
      obtain ⟨tail, htail⟩ := hfirst code (by simp)
      obtain ⟨tail', htail'⟩ := text_prefix_joined [44, 32] code a
      exact lt_of_text_eq_int32 (htail.trans htail'.symm)
    by_cases hlast : a = []
    · simpa [hlast] using hcode
    · have hjoined : joined [44, 32] (code :: a) = int32 code ++ ([44, 32] ++ joined [44, 32] a) := by
        rw [joined_cons hlast, int32_of_lt hcode]
      rw [hjoined, List.length_append, List.length_append] at hlimit
      have hroom : done.length + (int32 code).length + 2 ≤ limit.toNat := by
        simp only [List.length_cons, List.length_nil] at hlimit
        omega
      rw [print_codes_delimiter h hroom] at hrun
      have hshown : CString.text (done ++ joined [44, 32] (code :: a) ++ 0 :: rest') =
          .ok (done ++ int32 code ++ [44, 32] ++ joined [44, 32] a) := by
        rw [text_append_nul (by simp [h.free, nul_not_mem_joined]), hjoined]
        simp
      have hrest := ih (h.with_delimiter hroom) hlast (by simp at hlimit ⊢; omega) hrun hshown
      simpa [hcode] using hrest

end Loop

@[simp] theorem length_malloc (memory : Nat → UInt8) (size : Nat) : (malloc memory size).length = size := by
  simp [malloc]

/-- Nothing is written for an empty array, so its text has no end. -/
theorem not_renders_nil : ¬Renders [] := by
  intro h
  obtain ⟨str, hrun, htext⟩ := h fun _ => 1
  rw [u32_array_to_str, print_codes, Except.ok.injEq] at hrun
  rw [← hrun, text_of_not_mem (by simp [malloc])] at htext
  cases htext

/-- The reserved size is right unless the array is empty or the number of characters
wraps, and the text is the reserved one as long as no code is printed with a sign. -/
theorem renders_iff (a : List UInt32) :
    Renders a ↔ a ≠ [] ∧ (∀ code ∈ a, code.toNat < 2147483648) ∧ (joined [44, 32] a).length < 4294967296 := by
  have hstart (memory : Nat → UInt8) : Written (str_len a) 0 [] (malloc memory ((str_len a).toNat + 1)) :=
    ⟨rfl, List.not_mem_nil, by simp⟩
  constructor
  · intro h
    have hne : a ≠ [] := by
      rintro rfl
      exact not_renders_nil h
    obtain ⟨str, hrun, htext⟩ := h fun _ => 0
    have hfits : (joined [44, 32] a).length < 4294967296 := by
      obtain ⟨hlength, t, rest, rfl, ht, -⟩ := print_codes_extends (hstart _) (by simp [hne]) hrun
      rw [List.nil_append, text_append_nul ht] at htext
      cases htext
      have hlimit := (str_len a).toNat_lt
      simp at hlength
      omega
    refine ⟨hne, ?_, hfits⟩
    exact codes_of_print_codes (hstart _) hne (by simp [toNat_str_len hne hfits]) hrun htext
  · rintro ⟨hne, hcodes, hfits⟩ memory
    obtain ⟨rest, hrun⟩ := print_codes_joined (hstart memory) hne (by simp [toNat_str_len hne hfits]) hcodes
    exact ⟨_, hrun, text_append_nul (nul_not_mem_joined (by decide) a)⟩

/-- The sign takes a byte that is not reserved. -/
theorem u32_array_to_str_faults :
    (∀ memory, u32_array_to_str memory [2147483648] = .error .out_of_bounds) ∧ ¬Renders [] := by
  constructor
  · intro memory
    rfl
  · exact not_renders_nil

end aflnet
