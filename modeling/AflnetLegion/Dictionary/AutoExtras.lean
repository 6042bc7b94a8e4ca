import AflnetLegion.Lib.Qsort

namespace aflnet

/-- The constants of `config.h` for the tokens that are found: their allowed sizes, how many of
them are used in a stage, and how many are kept. -/
def MIN_AUTO_EXTRA : Nat := 3

def MAX_AUTO_EXTRA : Nat := 32

def USE_AUTO_EXTRAS : Nat := 50

def MAX_AUTO_EXTRAS : Nat := USE_AUTO_EXTRAS * 10

/-- A token of the dictionary with its use count. Its length is that of its data, so that the
two cannot disagree. -/
structure extra_data where
  data : List UInt8
  hit_cnt : UInt32
  deriving DecidableEq, Repr

def extra_data.len (e : extra_data) : Nat := e.data.length

/-- The tokens given by the user, which are sorted by size, and those found by the fuzzer, which
are sorted by use and then by size. The flag says that the latter have changed. -/
structure Dictionary where
  extras : List extra_data
  a_extras : List extra_data
  auto_changed : Bool
  deriving DecidableEq, Repr

/-- `INTERESTING_8`, `INTERESTING_16` and `INTERESTING_32` of `config.h`. Each list goes on
where the smaller one ends. -/
def interesting_8 : List Int := [-128, -1, 0, 1, 16, 32, 64, 100, 127]

def interesting_16 : List Int :=
  interesting_8 ++ [-32768, -129, 128, 255, 256, 512, 1000, 1024, 4096, 32767]

def interesting_32 : List Int :=
  interesting_16 ++ [-2147483648, -100663046, -32769, 32768, 65535, 65536, 100663045, 2147483647]

/-- `SWAP16`: the bytes of a half word the other way round. -/
def SWAP16 (x : UInt16) : UInt16 := (x <<< 8) ||| (x >>> 8)

/-- `SWAP32`: the bytes of a word the other way round. -/
def SWAP32 (x : UInt32) : UInt32 :=
  (x <<< 24) ||| (x >>> 24) ||| ((x <<< 8) &&& (0x00FF0000 : UInt32)) ||| ((x >>> 8) &&& (0x0000FF00 : UInt32))

/-- `*((u16*)mem)` -/
def u16_at (mem : List UInt8) : UInt16 := (mem.getD 0 0).toUInt16 ||| (mem.getD 1 0).toUInt16 <<< 8

/-- `*((u32*)mem)` -/
def u32_at (mem : List UInt8) : UInt32 :=
  (mem.getD 0 0).toUInt32 ||| (mem.getD 1 0).toUInt32 <<< 8 ||| (mem.getD 2 0).toUInt32 <<< 16 |||
    (mem.getD 3 0).toUInt32 <<< 24

/-- Whether a token is a number that is used anyway. The 16-bit numbers are compared as
`int`, so that the negative ones are found in the swapped order only. -/
def is_interesting (mem : List UInt8) : Bool :=
  mem.length = 2 ∧ (interesting_16.any fun value =>
      ((u16_at mem).toNat : Int) = value ∨ u16_at mem = SWAP16 (UInt16.ofInt value)) ∨
    mem.length = 4 ∧ interesting_32.any fun value =>
      u32_at mem = UInt32.ofInt value ∨ u32_at mem = SWAP32 (UInt32.ofInt value)

/-- `tolower` in the C locale, where only the letters of ASCII change. -/
def tolower (c : UInt8) : UInt8 := if 65 ≤ c ∧ c ≤ 90 then c + 32 else c

/-- `memcmp_nocase`, whose result is only tested for being 0: whether the first `len` bytes
differ in more than the case of letters. -/
def memcmp_nocase : List UInt8 → List UInt8 → Nat → Bool
  | a :: m1, b :: m2, len + 1 => if tolower a ^^^ tolower b ≠ 0 then true else memcmp_nocase m1 m2 len
  | _, _, _ => false

/-- Whether the loop over the bytes after the first one reaches the end: then all bytes are the
same, and the token is of no use. -/
def is_run : List UInt8 → Bool
  | [] => false
  | first :: rest => rest.all fun byte => first ^^^ byte = 0

/-- A value stored in an `int`. -/
def to_int (value : Int) : Int := value.bmod 4294967296

/-- `compare_extras_len`, a difference of sizes. -/
def compare_extras_len (e1 e2 : extra_data) : Int := to_int (e1.len - e2.len)

/-- `compare_extras_use_d`, a difference of use counts with the greater one first. It is taken
of unsigned numbers and returned as an `int`, so its sign is right for counts below 2^31. -/
def compare_extras_use_d (e1 e2 : extra_data) : Int := to_int (e2.hit_cnt.toNat - e1.hit_cnt.toNat)

/-- The search among the user's tokens of the same size. It relies on their order: it passes
over the smaller ones and stops at the first one that is larger. -/
def in_extras (extras : List extra_data) (mem : List UInt8) : Bool :=
  ((extras.dropWhile fun e => e.len < mem.length).takeWhile fun e => e.len = mem.length).any
    fun e => !memcmp_nocase e.data mem mem.length

/-- Whether a token that was found before is the one at hand, but for the case of its letters.
The tokens found are searched from the first one on, as their order is by use and not by size.
-/
def matches_token (mem : List UInt8) (e : extra_data) : Bool :=
  e.len = mem.length && !memcmp_nocase e.data mem mem.length

/-- `hit_cnt++`. -/
def extra_data.hit (e : extra_data) : extra_data := { e with hit_cnt := e.hit_cnt + 1 }

/-- A number below the limit, from what `random` returns. The source draws it from a generator
that it seeds again from time to time. -/
def UR (random limit : Nat) : Nat := random % limit

/-- The tokens found with another one, before they are sorted: it is counted if it is
known, appended if there is room, and else it replaces one of the second half. -/
def record_token (a_extras : List extra_data) (mem : List UInt8) (random : Nat) : List extra_data :=
  let i := a_extras.findIdx (matches_token mem)
  if i < a_extras.length then a_extras.modify i extra_data.hit
  else if a_extras.length < MAX_AUTO_EXTRAS then a_extras ++ [{ data := mem, hit_cnt := 0 }]
  else a_extras.set (MAX_AUTO_EXTRAS / 2 + UR random ((MAX_AUTO_EXTRAS + 1) / 2)) { data := mem, hit_cnt := 0 }

/-- All tokens are sorted by use count and then the first ones by size. `qsort` need not be
stable, so it is a parameter: which of several tokens of the same count come first is not known.
-/
def sort_a_extras (lib : Qsort extra_data) (a_extras : List extra_data) : List extra_data :=
  let a_extras := lib.qsort compare_extras_use_d a_extras
  let count := min USE_AUTO_EXTRAS a_extras.length
  lib.qsort compare_extras_len (a_extras.take count) ++ a_extras.drop count

/-- Whether a token is not looked up among those found: a run of one byte, an interesting value
or a token of the user is tried by other stages anyway. -/
def skips_token (extras : List extra_data) (mem : List UInt8) : Bool :=
  MAX_AUTO_EXTRAS = 0 || USE_AUTO_EXTRAS = 0 || is_run mem || is_interesting mem || in_extras extras mem

/-- `maybe_add_auto`: a token that is skipped changes nothing; any other one is looked up or
added, and all tokens are sorted. -/
def maybe_add_auto (lib : Qsort extra_data) (random : Nat) (mem : List UInt8) (d : Dictionary) : Dictionary :=
  if skips_token d.extras mem then d
  else { d with
    a_extras := sort_a_extras lib (record_token d.a_extras mem random)
    auto_changed := true }

end aflnet
