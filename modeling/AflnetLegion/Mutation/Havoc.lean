import AflnetLegion.Dictionary.Extras
import AflnetLegion.Lib.Blocks
import AflnetLegion.Mutation.Bitflip
import AflnetLegion.Mutation.Interest
import AflnetLegion.Queue.SelectM2

open Draws

namespace aflnet

/-- The constants of `config.h` for the havoc stage: the largest input, the largest number of
stacked operations, and the limits on the lengths of blocks. -/
def MAX_FILE : Nat := 1 * 1024 * 1024

def HAVOC_STACK_POW2 : Nat := 7

def HAVOC_BLK_SMALL : Nat := 32

def HAVOC_BLK_MEDIUM : Nat := 128

def HAVOC_BLK_LARGE : Nat := 1500

def HAVOC_BLK_XL : Nat := 32768

/-- The value of an expression of the type `u32`. -/
def u32 (x : Int) : Nat := (x % 4294967296).toNat

/-- The length of a region, as `choose_source_region` computes it. -/
def source_region_len (region : region_t) : Nat := u32 (region.end_byte - region.start_byte + 1)

/-- What a round of the havoc stage finds: the seeds in the queue and their files, the
tokens of the dictionary, and the variables that it reads. -/
structure Surroundings where
  queue : List queue_entry
  file : String → List UInt8
  extras : List (List UInt8)
  a_extras : List (List UInt8)
  region_level_mutation : Bool
  queue_cycle : Nat
  run_over10m : Bool
  queued : queue ≠ []
  regions : ∀ q ∈ queue, ∀ region ∈ q.live_regions, 1 ≤ source_region_len region
  tokens : ∀ token ∈ extras ++ a_extras, token.length ≤ MAX_DICT_FILE
  cycle : 1 ≤ queue_cycle

namespace Surroundings

/-- `min_value` and `max_value`: how large blocks can be depends on the number of queue cycles,
once the fuzzer has run for ten minutes. -/
def choose_block_range (env : Surroundings) : Draws fuzz_one.fault (Nat × Nat) := do
  let rlim := if env.run_over10m then min env.queue_cycle 3 else 1
  let n ← fuzz_one.UR rlim
  match n with
  | 0 => pure (1, HAVOC_BLK_SMALL)
  | 1 => pure (HAVOC_BLK_SMALL, HAVOC_BLK_MEDIUM)
  | _ => do
    let large ← fuzz_one.UR 10
    pure (if large ≠ 0 then (HAVOC_BLK_MEDIUM, HAVOC_BLK_LARGE) else (HAVOC_BLK_LARGE, HAVOC_BLK_XL))

/-- `choose_block_len`: a random length in a range that gets larger with the queue cycles. It is
at least 1 and at most the limit. -/
def choose_block_len (env : Surroundings) (limit : Nat) : Draws fuzz_one.fault Nat := do
  let range ← env.choose_block_range
  let min_value := if range.1 ≥ limit then 1 else range.1
  let n ← fuzz_one.UR (u32 ((min range.2 limit : Nat) - min_value + 1))
  pure (min_value + n)

/-- The bytes of a region, with zeros behind the end of the file: the buffer is allocated with
the length of the region. -/
def fread_region (file : List UInt8) (start_byte : Int) (len : Nat) : List UInt8 :=
  let bytes := (file.drop start_byte.toNat).take len
  bytes ++ List.replicate (len - bytes.length) 0

/-- A random region of a random seed. The allocation of 0 bytes gives no memory, and a region
that is too large is not taken. -/
def choose_source_region (env : Surroundings) : Draws fuzz_one.fault (Option (List UInt8)) := do
  let index ← fuzz_one.UR env.queue.length
  match env.queue[index]? with
  | none => fail .out_of_bounds
  | some q =>
    if q.region_count = 0 then pure none
    else do
      let reg_index ← fuzz_one.UR q.region_count
      match q.regions[reg_index]? with
      | none => fail .out_of_bounds
      | some region =>
        if source_region_len region ≤ MAX_FILE then do
          require (source_region_len region ≠ 0) .no_memory
          pure (some (fread_region (env.file q.fname) region.start_byte (source_region_len region)))
        else pure none

/-- `!extras_cnt || (a_extras_cnt && UR(2))`: whether the token is one of those found. The
number is drawn only if there are both kinds. -/
def prefers_auto (env : Surroundings) : Draws fuzz_one.fault Bool :=
  if env.extras.length = 0 then pure true
  else if env.a_extras.length ≠ 0 then do
    let coin ← fuzz_one.UR 2
    pure (coin ≠ 0)
  else pure false

/-- A random token of one of the two lists, which must not both be empty. -/
def choose_extra (env : Surroundings) : Draws fuzz_one.fault (List UInt8) := do
  let auto ← env.prefers_auto
  let tokens := if auto then env.a_extras else env.extras
  let use_extra ← fuzz_one.UR tokens.length
  match tokens[use_extra]? with
  | none => fail .out_of_bounds
  | some data => pure data

end Surroundings

/-- The buffer that is mutated: all of what is allocated, and how much of it is in use. The
operations change both. -/
structure Havoc where
  out_buf : List UInt8
  temp_len : Int
  deriving DecidableEq, Repr

namespace Havoc

/-- Bytes of a buffer; reading outside of it is a fault. -/
def read (buf : List UInt8) (start n : Nat) : Draws fuzz_one.fault (List UInt8) := Blocks.read buf start n .out_of_bounds

/-- Bytes of a buffer are replaced; writing outside of it is a fault. -/
def write (buf : List UInt8) (pos : Nat) (bytes : List UInt8) : Draws fuzz_one.fault (List UInt8) :=
  Blocks.write buf pos bytes .out_of_bounds

/-- `memcpy` or `memmove` of `n` bytes of `src` from `start` on to `dst` at `pos`. -/
def memcpy (dst : List UInt8) (pos : Nat) (src : List UInt8) (start n : Nat) : Draws fuzz_one.fault (List UInt8) :=
  Blocks.copy dst pos src start n .out_of_bounds

/-- `memset` of `n` bytes from `pos` on. -/
def memset (dst : List UInt8) (pos : Nat) (byte : UInt8) (n : Nat) : Draws fuzz_one.fault (List UInt8) :=
  Blocks.fill dst pos byte n .out_of_bounds

/-- A new buffer. What is in it is overwritten before it is used. -/
def ck_alloc_nozero (n : Nat) : List UInt8 := List.replicate n 0

/-- `ck_realloc`, which fills up with zeros what is added to the buffer. -/
def ck_realloc (buf : List UInt8) (n : Nat) : List UInt8 := buf.take n ++ List.replicate (n - buf.length) 0

/-- Case 0: a random bit is flipped. The number of bits is cut to 32 bits. -/
def flip_bit (s : Havoc) : Draws fuzz_one.fault Havoc := do
  let b ← fuzz_one.UR (u32 (s.temp_len * 8))
  require (b / 8 < s.out_buf.length) .out_of_bounds
  pure { s with out_buf := FLIP_BIT s.out_buf b }

/-- A random byte is changed, by a random number below `limit`. The cases for bytes draw the
position first. -/
def change_byte (s : Havoc) (limit : Nat) (change : UInt8 → Nat → UInt8) : Draws fuzz_one.fault Havoc := do
  let pos ← fuzz_one.UR (u32 s.temp_len)
  let n ← fuzz_one.UR limit
  require (pos < s.out_buf.length) .out_of_bounds
  pure { s with out_buf := s.out_buf.modify pos fun byte => change byte n }

/-- Case 1 -/
def set_byte (s : Havoc) : Draws fuzz_one.fault Havoc :=
  s.change_byte interesting_8.length fun _ n => UInt8.ofInt (interesting_8.getD n 0)

/-- Case 4 -/
def sub_byte (s : Havoc) : Draws fuzz_one.fault Havoc := s.change_byte ARITH_MAX fun byte n => byte - UInt8.ofNat (1 + n)

/-- Case 5 -/
def add_byte (s : Havoc) : Draws fuzz_one.fault Havoc := s.change_byte ARITH_MAX fun byte n => byte + UInt8.ofNat (1 + n)

/-- Case 10 -/
def xor_byte (s : Havoc) : Draws fuzz_one.fault Havoc := s.change_byte 255 fun byte n => byte ^^^ UInt8.ofNat (1 + n)

/-- `SWAP16` or `SWAP32`, by the size of the word. -/
def swap_bytes (size : Nat) (x : BitVec 32) : BitVec 32 := if size = 2 then swap16 x else swap32 x

/-- A random word of 2 or 4 bytes is changed, by a random number below `limit` and in a
random order of its bytes. -/
def change_word (s : Havoc) (size limit : Nat) (change : Bool → BitVec 32 → Nat → BitVec 32) : Draws fuzz_one.fault Havoc :=
  if s.temp_len < size then pure s
  else do
    let little ← fuzz_one.UR 2
    let pos ← fuzz_one.UR (u32 (s.temp_len - (size - 1)))
    let n ← fuzz_one.UR limit
    let bytes ← read s.out_buf pos size
    let out_buf ← write s.out_buf pos (Words.store (change (little ≠ 0) (Words.load 32 bytes) n) size)
    pure { s with out_buf }

/-- Cases 2 and 3: a random word is set to an interesting value of its size, in a random order.
-/
def set_word (s : Havoc) (size : Nat) : Draws fuzz_one.fault Havoc :=
  s.change_word size (interesting size).length fun little _ n =>
    let value := BitVec.ofInt 32 ((interesting size).getD n 0)
    if little then value else swap_bytes size value

/-- Cases 6 and 8: a random number is subtracted from a random word, in a random order. -/
def sub_word (s : Havoc) (size : Nat) : Draws fuzz_one.fault Havoc :=
  s.change_word size ARITH_MAX fun little x n =>
    if little then x - BitVec.ofNat 32 (1 + n) else swap_bytes size (swap_bytes size x - BitVec.ofNat 32 (1 + n))

/-- Cases 7 and 9: a random number is added to a random word, in a random order. -/
def add_word (s : Havoc) (size : Nat) : Draws fuzz_one.fault Havoc :=
  s.change_word size ARITH_MAX fun little x n =>
    if little then x + BitVec.ofNat 32 (1 + n) else swap_bytes size (swap_bytes size x + BitVec.ofNat 32 (1 + n))

/-- Cases 11 and 12: a random block is deleted, but not the whole buffer. Deleting has two cases
so that buffers do not grow too much. -/
def delete_bytes (env : Surroundings) (s : Havoc) : Draws fuzz_one.fault Havoc :=
  if s.temp_len < 2 then pure s
  else do
    let del_len ← env.choose_block_len (u32 (s.temp_len - 1))
    let del_from ← fuzz_one.UR (u32 (s.temp_len - del_len + 1))
    let out_buf ← memcpy s.out_buf del_from s.out_buf (del_from + del_len) (u32 (s.temp_len - del_from - del_len))
    pure { out_buf, temp_len := s.temp_len - del_len }

/-- `UR(2) ? UR(256) : out_buf[UR(temp_len)]`: a random byte, or one of the buffer. -/
def fill_byte (s : Havoc) : Draws fuzz_one.fault UInt8 := do
  let coin ← fuzz_one.UR 2
  if coin ≠ 0 then do
    let value ← fuzz_one.UR 256
    pure (UInt8.ofNat value)
  else do
    let pos ← fuzz_one.UR (u32 s.temp_len)
    let bytes ← read s.out_buf pos 1
    pure (bytes.getD 0 0)

/-- `clone_from` and `clone_len`: a block of the buffer in three of four cases, and otherwise
the length of a block that is filled. -/
def choose_clone (env : Surroundings) (s : Havoc) (actually_clone : Nat) : Draws fuzz_one.fault (Nat × Nat) :=
  if actually_clone ≠ 0 then do
    let clone_len ← env.choose_block_len (u32 s.temp_len)
    let clone_from ← fuzz_one.UR (u32 (s.temp_len - clone_len + 1))
    pure (clone_from, clone_len)
  else do
    let clone_len ← env.choose_block_len HAVOC_BLK_XL
    pure (0, clone_len)

/-- A part of the buffer or a repeated byte is written to the new buffer. -/
def insert_clone (s : Havoc) (actually_clone : Nat) (new_buf : List UInt8) (clone_to clone_from clone_len : Nat) :
    Draws fuzz_one.fault (List UInt8) :=
  if actually_clone ≠ 0 then memcpy new_buf clone_to s.out_buf clone_from clone_len
  else do
    let byte ← s.fill_byte
    memset new_buf clone_to byte clone_len

/-- Case 13: a block is inserted, by way of a new buffer, unless the result could be too long.
-/
def clone_bytes (env : Surroundings) (s : Havoc) : Draws fuzz_one.fault Havoc :=
  if s.temp_len + HAVOC_BLK_XL < MAX_FILE then do
    let actually_clone ← fuzz_one.UR 4
    let clone ← choose_clone env s actually_clone
    let clone_to ← fuzz_one.UR (u32 s.temp_len)
    let head ← memcpy (ck_alloc_nozero (u32 (s.temp_len + clone.2))) 0 s.out_buf 0 clone_to
    let inserted ← s.insert_clone actually_clone head clone_to clone.1 clone.2
    let out_buf ← memcpy inserted (clone_to + clone.2) s.out_buf clone_to (u32 (s.temp_len - clone_to))
    pure { out_buf, temp_len := s.temp_len + clone.2 }
  else pure s

/-- A block is moved within the buffer, or filled. A block that would be moved to where it is is
left alone. -/
def overwrite_chunk (s : Havoc) (copy_to copy_from copy_len : Nat) : Draws fuzz_one.fault (List UInt8) := do
  let moved ← fuzz_one.UR 4
  if moved ≠ 0 then
    if copy_from ≠ copy_to then memcpy s.out_buf copy_to s.out_buf copy_from copy_len else pure s.out_buf
  else do
    let byte ← s.fill_byte
    memset s.out_buf copy_to byte copy_len

/-- Case 14: a random block is overwritten, by another one of the same length or by a single
byte. -/
def overwrite_bytes (env : Surroundings) (s : Havoc) : Draws fuzz_one.fault Havoc :=
  if s.temp_len < 2 then pure s
  else do
    let copy_len ← env.choose_block_len (u32 (s.temp_len - 1))
    let copy_from ← fuzz_one.UR (u32 (s.temp_len - copy_len + 1))
    let copy_to ← fuzz_one.UR (u32 (s.temp_len - copy_len + 1))
    let out_buf ← s.overwrite_chunk copy_to copy_from copy_len
    pure { s with out_buf }

/-- Case 15: a random token is written over a random place, if it fits. -/
def overwrite_extra (env : Surroundings) (s : Havoc) : Draws fuzz_one.fault Havoc :=
  if env.extras.length + env.a_extras.length = 0 then pure s
  else do
    let extra ← env.choose_extra
    if extra.length > u32 s.temp_len then pure s
    else do
      let insert_at ← fuzz_one.UR (u32 (s.temp_len - extra.length + 1))
      let out_buf ← memcpy s.out_buf insert_at extra 0 extra.length
      pure { s with out_buf }

/-- A block is inserted, by way of a new buffer. Each of the three parts is copied on its own.
-/
def insert_block (s : Havoc) (insert_at : Nat) (block : List UInt8) : Draws fuzz_one.fault Havoc := do
  let head ← memcpy (ck_alloc_nozero (u32 (s.temp_len + block.length))) 0 s.out_buf 0 insert_at
  let inserted ← memcpy head insert_at block 0 block.length
  let out_buf ← memcpy inserted (insert_at + block.length) s.out_buf insert_at (u32 (s.temp_len - insert_at))
  pure { out_buf, temp_len := s.temp_len + block.length }

/-- Case 16: a random token is inserted at a random place, unless the result is too long. -/
def insert_extra (env : Surroundings) (s : Havoc) : Draws fuzz_one.fault Havoc :=
  if env.extras.length + env.a_extras.length = 0 then pure s
  else do
    let insert_at ← fuzz_one.UR (u32 (s.temp_len + 1))
    let extra ← env.choose_extra
    if u32 (s.temp_len + extra.length) ≥ MAX_FILE then pure s else s.insert_block insert_at extra

/-- Case 17: the buffer is replaced by a region of a random seed, if there is one. -/
def replace_region (env : Surroundings) (s : Havoc) : Draws fuzz_one.fault Havoc := do
  let region ← env.choose_source_region
  match region with
  | none => pure s
  | some new_buf => pure { out_buf := new_buf, temp_len := new_buf.length }

/-- The buffers are copied into a new one, one after the other. The lengths are `u32`. -/
def join (first second : List UInt8) (first_len second_len : Nat) : Draws fuzz_one.fault Havoc := do
  let head ← memcpy (ck_alloc_nozero (u32 (first_len + second_len))) 0 first 0 first_len
  let out_buf ← memcpy head first_len second 0 second_len
  pure { out_buf, temp_len := first_len + second_len }

/-- Case 18: a region of a random seed is put in front of the buffer, unless the result is too
long. -/
def prepend_region (env : Surroundings) (s : Havoc) : Draws fuzz_one.fault Havoc := do
  let region ← env.choose_source_region
  match region with
  | none => pure s
  | some src_region =>
    if u32 (s.temp_len + src_region.length) ≥ MAX_FILE then pure s
    else join src_region s.out_buf src_region.length (u32 s.temp_len)

/-- Case 19: a region of a random seed is put behind the buffer, unless the result is too long.
-/
def append_region (env : Surroundings) (s : Havoc) : Draws fuzz_one.fault Havoc := do
  let region ← env.choose_source_region
  match region with
  | none => pure s
  | some src_region =>
    if u32 (s.temp_len + src_region.length) ≥ MAX_FILE then pure s
    else join s.out_buf src_region (u32 s.temp_len) src_region.length

/-- Case 20 -/
def duplicate_region (s : Havoc) : Draws fuzz_one.fault Havoc :=
  if s.temp_len * 2 ≥ MAX_FILE then pure s else join s.out_buf s.out_buf (u32 s.temp_len) (u32 s.temp_len)

/-- One of the stacked operations. The last four are for mutations of regions. Without extras of
either kind the numbers 15 and 16 do nothing. -/
def operation (env : Surroundings) (s : Havoc) : Draws fuzz_one.fault Havoc := do
  let n ← fuzz_one.UR (15 + 2 + if env.region_level_mutation then 4 else 0)
  match n with
  | 0 => s.flip_bit
  | 1 => s.set_byte
  | 2 => s.set_word 2
  | 3 => s.set_word 4
  | 4 => s.sub_byte
  | 5 => s.add_byte
  | 6 => s.sub_word 2
  | 7 => s.add_word 2
  | 8 => s.sub_word 4
  | 9 => s.add_word 4
  | 10 => s.xor_byte
  | 11 => s.delete_bytes env
  | 12 => s.delete_bytes env
  | 13 => s.clone_bytes env
  | 14 => s.overwrite_bytes env
  | 15 => s.overwrite_extra env
  | 16 => s.insert_extra env
  | 17 => s.replace_region env
  | 18 => s.prepend_region env
  | 19 => s.append_region env
  | 20 => s.duplicate_region
  | _ => pure s

/-- The buffer gets its original size and contents back. If it has shrunk it is extended first.
-/
def restore (in_buf : List UInt8) (s : Havoc) : Draws fuzz_one.fault Havoc := do
  let grown := if s.temp_len < in_buf.length then ck_realloc s.out_buf in_buf.length else s.out_buf
  let out_buf ← memcpy grown 0 in_buf 0 in_buf.length
  pure { out_buf, temp_len := in_buf.length }

/-- A round of the stage: up to 128 operations on the same buffer, and the restore step. The run
of the target leaves the buffer alone. -/
def fuzz_round (in_buf : List UInt8) (env : Surroundings) (s : Havoc) : Draws fuzz_one.fault Havoc := do
  let pow2 ← fuzz_one.UR HAVOC_STACK_POW2
  let stacked ← rounds (fun s => s.operation env) (2 ^ (1 + pow2)) s
  restore in_buf stacked

/-- The stage, for as many rounds as there are surroundings: what a round adds to the
queue, the next one finds there. -/
def havoc_stage (in_buf : List UInt8) (envs : List Surroundings) (s : Havoc) : Draws fuzz_one.fault Havoc :=
  envs.foldlM (fun s env => s.fuzz_round in_buf env) s

/-- The start of the stage: a copy of M2, and its length. -/
def start (in_buf : List UInt8) : Havoc where
  out_buf := in_buf
  temp_len := in_buf.length

end Havoc

end aflnet
