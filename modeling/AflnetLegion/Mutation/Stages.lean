import AflnetLegion.Lib.Overwrite
import AflnetLegion.Mutation.Havoc

open Overwrite Words

namespace aflnet

/-- The constants of `config.h` for the deterministic stages: how many tokens are surely tried,
and the size of the blocks of the effector map and when it is used. -/
def MAX_DET_EXTRAS : Nat := 200

def EFF_MAP_SCALE2 : Nat := 3

def EFF_MIN_LEN : Nat := 128

def EFF_MAX_PERC : Nat := 90

/-- `EFF_APOS(p)`: the block of a byte. A block has eight bytes. -/
def EFF_APOS (p : Nat) : Nat := p >>> EFF_MAP_SCALE2

/-- `EFF_REM(x)`: the place of a byte in its block. -/
def EFF_REM (x : Nat) : Nat := x &&& ((1 <<< EFF_MAP_SCALE2) - 1)

/-- `EFF_ALEN(l)`: the number of blocks of `l` bytes, with one more for a block that is not
full. -/
def EFF_ALEN (l : Nat) : Nat := EFF_APOS l + (decide (EFF_REM l ≠ 0)).toNat

/-- What a run of the target does to the stages: the entry is given up after it, or goes on
with this checksum of `trace_bits`. -/
structure Response where
  abandon_entry : Bool
  cksum : UInt32
  deriving DecidableEq, Repr

/-- The deterministic stages of `fuzz_one` on M2. What a run does may depend on all inputs up
to its own. -/
structure Deterministic where
  in_buf : List UInt8
  dumb_mode : Bool
  no_arith : Bool
  exec_cksum : UInt32
  respond : List (List UInt8) → Response
  lib : Qsort extra_data

/-- The effector map, a mark for each block of eight bytes, and the number of marks as the
program counts them. -/
structure Effector where
  eff_map : List Bool
  eff_cnt : Nat
  deriving DecidableEq, Repr

/-- The search for tokens, with the variables of `fuzz_one` for it. Those that were given to
`maybe_add_auto` are listed. -/
structure Collecting where
  prev_cksum : UInt32
  a_collect : List UInt8
  a_len : Nat
  offered : List (List UInt8)
  dictionary : Dictionary
  deriving DecidableEq, Repr

/-- The state of the stages. The inputs that were run are listed, and `random()` takes the next
one of the numbers. -/
structure Det where
  out_buf : List UInt8
  ex_tmp : List UInt8
  last_len : Nat
  executed : List (List UInt8)
  stage_cur : UInt32
  stage_max : UInt32
  eff : Effector
  tokens : Collecting
  numbers : Nat → Nat

/-- Whether one of `size` bytes is in a block with a mark. -/
def Effector.marks (eff : Effector) (i size : Nat) : Bool := (List.range size).any fun k => eff.eff_map.getD (EFF_APOS (i + k)) false

/-- Why the stages end early: the entry is given up, or a byte outside of a buffer is used. -/
inductive Deterministic.stop where
  | abandon_entry | out_of_bounds
  deriving DecidableEq, Repr

/-- A part of the stages, with the state that it is left in. -/
abbrev Deterministic.Outcome := Except (Deterministic.stop × Det) Det

namespace Det

/-- `stage_cur = 0` and another `stage_max` -/
def begin_stage (s : Det) (stage_max : Nat) : Det := { s with stage_cur := 0, stage_max := UInt32.ofNat stage_max }

/-- `stage_cur++` -/
def advance (s : Det) : Det := { s with stage_cur := s.stage_cur + 1 }

/-- `stage_max -= n` -/
def shorten (s : Det) (n : Nat) : Det := { s with stage_max := s.stage_max - UInt32.ofNat n }

/-- A random number is used up. -/
def random (s : Det) : Det := { s with numbers := fun k => s.numbers (k + 1) }

/-- The bytes of the buffer and the marks that are read are there. -/
def reads (s : Det) (i size : Nat) : Bool := i + size ≤ s.out_buf.length ∧ EFF_APOS (i + size - 1) < s.eff.eff_map.length

end Det

/-- Whether a flip stays within the buffer. A stage whose flip does not would write out of
bounds. -/
def Flip.inside (len : Nat) : Flip → Bool
  | walking bits stage_cur => stage_cur + bits ≤ 8 * len
  | whole bytes i => i + bytes ≤ len

namespace Collecting

/-- `if (a_len < MAX_AUTO_EXTRA) a_collect[a_len] = byte; a_len++`. The length is counted on
when the buffer is full, so that a token that is too long can be told. -/
def collect (s : Collecting) (byte : UInt8) : Collecting where
  prev_cksum := s.prev_cksum
  a_collect := if s.a_len < MAX_AUTO_EXTRA then s.a_collect.set s.a_len byte else s.a_collect
  a_len := s.a_len + 1
  offered := s.offered
  dictionary := s.dictionary

/-- What was collected is given to `maybe_add_auto` if it has one of the allowed sizes. What was
offered is put on record. -/
def offer (lib : Qsort extra_data) (random : Nat) (s : Collecting) : Collecting :=
  if MIN_AUTO_EXTRA ≤ s.a_len ∧ s.a_len ≤ MAX_AUTO_EXTRA then
    { s with
      offered := s.offered ++ [s.a_collect.take s.a_len]
      dictionary := maybe_add_auto lib random (s.a_collect.take s.a_len) s.dictionary }
  else s

/-- What `fuzz_one` does after the last bit of a byte was flipped and the input was run. A byte
is collected while the path is the same as for the one before, but not that of the entry. -/
def after_byte (lib : Qsort extra_data) (exec_cksum : UInt32) (random : Nat) (cksum : UInt32) (byte : UInt8) (last : Bool)
    (s : Collecting) : Collecting :=
  let s :=
    if last ∧ cksum = s.prev_cksum then (s.collect byte).offer lib random
    else if cksum ≠ s.prev_cksum then { s.offer lib random with a_len := 0, prev_cksum := cksum }
    else s
  if cksum ≠ exec_cksum then s.collect byte else s

end Collecting

namespace Deterministic

/-- `s32 len` -/
def len (env : Deterministic) : Nat := env.in_buf.length

/-- An input is run, which is where the entry may be given up. Every input is put on record; how
the target responds to it may depend on all inputs so far. -/
def common_fuzz_stuff (env : Deterministic) (buf : List UInt8) (s : Det) : Outcome :=
  let s := { s with executed := s.executed ++ [buf] }
  if (env.respond s.executed).abandon_entry then .error (.abandon_entry, s) else .ok s

/-- The checksum of `trace_bits` after the last run -/
def cksum (env : Deterministic) (s : Det) : UInt32 := (env.respond s.executed).cksum

section bitflip

/-- A flip in `out_buf` -/
def flip (s : Det) (f : Flip) : Outcome :=
  if f.inside s.out_buf.length then .ok { s with out_buf := f.apply s.out_buf } else .error (.out_of_bounds, s)

/-- A map in which most blocks have a mark is filled. The quotient is rounded down, and a map
that is full already is left alone. -/
def fill_dense (env : Deterministic) (eff : Effector) : Effector :=
  if eff.eff_cnt ≠ EFF_ALEN env.len ∧ eff.eff_cnt * 100 / EFF_ALEN env.len > EFF_MAX_PERC then
    { eff with eff_map := List.replicate (EFF_ALEN env.len) true }
  else eff

end bitflip

end Deterministic

/-- The values of a stage for the word that is replaced, in groups after each of which the
word is restored. A value that the stage skips is `none`. -/
structure WordStage where
  size : Nat
  fits : 1 ≤ size ∧ size ≤ 4
  /-- What a position without a mark takes from `stage_max`. -/
  cost : Nat
  groups : BitVec 32 → List (List (Option (BitVec 32)))
  tries : ∀ orig, (groups orig).flatten.length = cost

namespace WordStage

/-- `could_be_bitflip(orig ^ value)` -/
def skips_bitflip (size : Nat) (orig value : BitVec 32) : Bool := could_be_bitflip ⟨cast_to (8 * size) (orig ^^^ value)⟩

/-- A value of a stage, unless it is skipped. -/
def tried_unless (skipped : Bool) (value : BitVec 32) : Option (BitVec 32) := if skipped then none else some value

/-- The two values of `arith8` for one number. A value that is one of the bit flips is counted
off. -/
def arith8_round (orig : BitVec 32) (k : Nat) : List (Option (BitVec 32)) :=
  let j := BitVec.ofNat 32 (k + 1)
  [tried_unless (skips_bitflip 1 orig (orig + j)) (orig + j), tried_unless (skips_bitflip 1 orig (orig - j)) (orig - j)]

/-- `arith8`, with one restore for both values of a number. -/
def arith8 : WordStage where
  size := 1
  fits := by decide
  cost := 2 * ARITH_MAX
  groups orig := (List.range ARITH_MAX).map (arith8_round orig)
  tries orig := by simp [List.length_flatten, Function.comp_def, arith8_round, Nat.mul_comm]

/-- A change that stays inside the low half of the number is left to the stage before. -/
def arith_round (size : Nat) (swap : BitVec 32 → BitVec 32) (orig : BitVec 32) (k : Nat) : List (Option (BitVec 32)) :=
  let j := BitVec.ofNat 32 (k + 1)
  let low := (cast_to (4 * size) orig).toNat
  let low_be := (cast_to (4 * size) (swap orig)).toNat
  let sum_be := swap (swap orig + j)
  let difference_be := swap (swap orig - j)
  [tried_unless (¬ low + (k + 1) > 2 ^ (4 * size) - 1 || skips_bitflip size orig (orig + j)) (orig + j),
    tried_unless (¬ low < k + 1 || skips_bitflip size orig (orig - j)) (orig - j),
    tried_unless (¬ low_be + (k + 1) > 2 ^ (4 * size) - 1 || skips_bitflip size orig sum_be) sum_be,
    tried_unless (¬ low_be < k + 1 || skips_bitflip size orig difference_be) difference_be]

/-- `arith16` and `arith32`, which differ in the size of a word and in how its bytes are
swapped. -/
def arith (size : Nat) (fits : 1 ≤ size ∧ size ≤ 4) (swap : BitVec 32 → BitVec 32) : WordStage where
  size := size
  fits := fits
  cost := 4 * ARITH_MAX
  groups orig := (List.range ARITH_MAX).map (arith_round size swap orig)
  tries orig := by simp [List.length_flatten, Function.comp_def, arith_round, Nat.mul_comm]

/-- `arith16`. -/
def arith16 : WordStage := arith 2 (by decide) swap16

/-- `arith32`. -/
def arith32 : WordStage := arith 4 (by decide) swap32

/-- The value of `interest8` for one number. One that is a bit flip, or a sum or a difference,
is counted off. -/
def interest8_round (orig : BitVec 32) (value : Int) : List (Option (BitVec 32)) :=
  let new := cast_to 8 (BitVec.ofInt 32 value)
  [tried_unless (skips_bitflip 1 orig new || could_be_arith orig new 1) new]

/-- `interest8`, with a restore after each value. -/
def interest8 : WordStage where
  size := 1
  fits := by decide
  cost := interesting_8.length
  groups orig := interesting_8.map (interest8_round orig)
  tries orig := by simp [List.length_flatten, Function.comp_def, interest8_round]

/-- The two values of `interest16` or `interest32` for one number, in both orders of the bytes.
-/
def interest_round (size : Nat) (swap : BitVec 32 → BitVec 32) (orig : BitVec 32) (value : Int) : List (Option (BitVec 32)) :=
  let new := cast_to (8 * size) (BitVec.ofInt 32 value)
  [tried_unless (skips_bitflip size orig new || could_be_arith orig new size || could_be_interest orig new size false) new,
    tried_unless (new = swap new || skips_bitflip size orig (swap new) || could_be_arith orig (swap new) size ||
      could_be_interest orig (swap new) size true) (swap new)]

/-- `interest16` and `interest32`, in which the word is restored after all values -/
def interest (size : Nat) (fits : 1 ≤ size ∧ size ≤ 4) (swap : BitVec 32 → BitVec 32) (values : List Int) : WordStage where
  size := size
  fits := fits
  cost := 2 * values.length
  groups orig := [values.flatMap (interest_round size swap orig)]
  tries orig := by simp [List.length_flatMap, interest_round, Nat.mul_comm]

/-- `interest16`. -/
def interest16 : WordStage := interest 2 (by decide) swap16 interesting_16

/-- `interest32`. -/
def interest32 : WordStage := interest 4 (by decide) swap32 interesting_32

end WordStage

namespace Deterministic

section words

/-- A value is written and run, or counted off, as it was tried before by another stage. The
values of both orders are written as numbers of the machine. -/
def word_try (env : Deterministic) (size i : Nat) (s : Det) : Option (BitVec 32) → Outcome
  | none => .ok (s.shorten 1)
  | some value => do
    let s := { s with out_buf := put .le s.out_buf i size value }
    let s ← env.common_fuzz_stuff s.out_buf s
    pure s.advance

/-- The values between two restores of the word. The source restores it after a value or after
all of them, depending on the stage. -/
def word_group (env : Deterministic) (size i : Nat) (orig : BitVec 32) (s : Det) (group : List (Option (BitVec 32))) : Outcome := do
  let s ← group.foldlM (env.word_try size i) s
  pure { s with out_buf := put .le s.out_buf i size orig }

/-- A word, with all its values. They are computed from what the word was, and a word none of
whose blocks has a mark is passed over. -/
def word_round (env : Deterministic) (stage : WordStage) (s : Det) (i : Nat) : Outcome :=
  if ¬ s.reads i stage.size then .error (.out_of_bounds, s)
  else if ¬ s.eff.marks i stage.size then .ok (s.shorten stage.cost)
  else
    let orig := fetch 32 .le s.out_buf i stage.size
    (stage.groups orig).foldlM (env.word_group stage.size i orig) s

/-- A stage over the words of one size, at every position where such a word fits. The number of
rounds is that of all values, from which those passed over are counted off. -/
def words (env : Deterministic) (stage : WordStage) (s : Det) : Outcome :=
  if env.len < stage.size then .ok s
  else
    (List.range (env.len - (stage.size - 1))).foldlM (env.word_round stage)
      (s.begin_stage (stage.cost * (env.len - (stage.size - 1))))

end words

section extras

end extras

/-- The state in which the stages begin. The counter of the marks is 1 for the first block, and
nothing has been collected. -/
def start (env : Deterministic) (dictionary : Dictionary) (numbers : Nat → Nat) : Det where
  out_buf := env.in_buf
  ex_tmp := []
  last_len := 0
  executed := []
  stage_cur := 0
  stage_max := 0
  eff := { eff_map := [], eff_cnt := 1 }
  tokens := { prev_cksum := 0, a_collect := List.replicate MAX_AUTO_EXTRA 0, a_len := 0, offered := [], dictionary }
  numbers := numbers

end Deterministic

end aflnet
