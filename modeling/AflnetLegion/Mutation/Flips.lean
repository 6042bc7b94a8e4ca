import AflnetLegion.Lib.Trials
import AflnetLegion.Mutation.Collect

open Trials

namespace aflnet

section flips

variable {a b buf : List UInt8} {f : Flip}

end flips

/-- `n` more rounds end a stage, in which `stage_cur` passes the first `stage_max` by `ahead`. -/
def Det.Due (ahead n : Nat) (s : Det) : Prop := s.stage_cur + UInt32.ofNat n = s.stage_max + UInt32.ofNat ahead

section counters

variable {ahead n k : Nat} {s : Det}

/-- A round that is run takes one of the rounds that are due. -/
theorem Det.Due.advance (h : s.Due ahead (n + 1)) : s.advance.Due ahead n := by
  unfold Det.Due at h ⊢
  rw [UInt32.ofNat_add] at h
  change s.stage_cur + 1 + UInt32.ofNat n = s.stage_max + UInt32.ofNat ahead
  rw [← h]
  grind

/-- So does one that is skipped, although it takes it from `stage_max`. -/
theorem Det.Due.shorten (h : s.Due ahead (n + k)) : (s.shorten k).Due ahead n := by
  unfold Det.Due at h ⊢
  rw [UInt32.ofNat_add] at h
  change s.stage_cur + UInt32.ofNat n = s.stage_max - UInt32.ofNat k + UInt32.ofNat ahead
  grind

/-- When no round is due the counter has come to the end. -/
theorem Det.Due.done (h : s.Due 0 0) : s.stage_cur = s.stage_max := by
  simpa [Det.Due] using h

end counters

/-- What a stage leaves as it was: the buffer is M2 again, and neither the effector map nor the
tokens have changed. -/
structure Det.Kept (env : Deterministic) (s t : Det) : Prop where
  out_buf : t.out_buf = env.in_buf
  eff : t.eff = s.eff
  tokens : t.tokens = s.tokens

namespace Deterministic

variable {env : Deterministic} {s t : Det} {buf : List UInt8} {f : Flip} {inputs : List (List UInt8)} {P : List UInt8 → Prop}

/-- Exactly these inputs are run, in this order, unless the entry is given up after one of
them. No access is out of bounds. -/
abbrev Tries (s : Det) (inputs : List (List UInt8)) (r : Outcome) (Q : Det → Prop) : Prop :=
  Trials.Tries Det.executed stop.abandon_entry s inputs r Q

/-- Only such inputs are run. -/
abbrev TriesOnly (s : Det) (P : List UInt8 → Prop) (r : Outcome) (Q : Det → Prop) : Prop :=
  Trials.TriesOnly Det.executed stop.abandon_entry s P r Q

/-- The inputs of a stage that flips so many bits. -/
def bit_flips (env : Deterministic) (bits : Nat) : List (List UInt8) :=
  (List.range (8 * env.len - (bits - 1))).map fun stage_cur => (Flip.walking bits stage_cur).apply env.in_buf

section flip1

open Collecting

/-- A byte, and the checksum of the run after its last bit was flipped. -/
def probe (env : Deterministic) (i : Nat) : Probe :=
  (env.in_buf.getD i 0, (env.respond ((env.bit_flips 1).take (8 * i + 8))).cksum)

/-- The bytes with their checksums, up to the byte `n`. -/
def probes (env : Deterministic) (n : Nat) : List Probe := (List.range n).map env.probe

/-- The tokens that the first stage finds. -/
def found_tokens (env : Deterministic) : List (List UInt8) :=
  if env.dumb_mode then [] else run_tokens env.exec_cksum (env.probes env.len)

end flip1

section effector

/-- The inputs of the stage that flips bytes. -/
def byte_flips (env : Deterministic) : List (List UInt8) := (List.range env.len).map fun i => (Flip.whole 1 i).apply env.in_buf

/-- What was run before the bytes are flipped. -/
def before_flip8 (env : Deterministic) : List (List UInt8) := env.bit_flips 1 ++ env.bit_flips 2 ++ env.bit_flips 4

/-- Whether the path changes when a byte is flipped. It is taken to do so if that is not looked at. -/
def changes_path (env : Deterministic) (i : Nat) : Bool :=
  env.dumb_mode ∨ env.len < EFF_MIN_LEN ∨ (env.respond (env.before_flip8 ++ env.byte_flips.take (i + 1))).cksum ≠ env.exec_cksum

/-- Whether a block has a mark after the first `n` bytes were flipped. -/
def marked (env : Deterministic) (n k : Nat) : Bool :=
  k = 0 ∨ k = EFF_APOS (env.len - 1) ∨ (List.range n).any fun i => EFF_APOS i = k ∧ env.changes_path i

/-- The map after the first `n` bytes were flipped. -/
def marks (env : Deterministic) (n : Nat) : List Bool := (List.range (EFF_ALEN env.len)).map (env.marked n)

/-- The effector map that the stages after `flip8` use. -/
def effector (env : Deterministic) : Effector :=
  env.fill_dense { eff_map := env.marks env.len, eff_cnt := (env.marks env.len).count true }

end effector

section words

/-- The positions of words that the effector map does not rule out. -/
def word_positions (env : Deterministic) (size : Nat) : List Nat :=
  (List.range (env.len - (size - 1))).filter fun i => env.effector.marks i size

/-- The inputs of a stage that flips words. -/
def word_flips (env : Deterministic) (size : Nat) : List (List UInt8) :=
  (env.word_positions size).map fun i => (Flip.whole size i).apply env.in_buf

end words

/-- The inputs of all stages that flip bits or bytes. -/
def flips (env : Deterministic) : List (List UInt8) :=
  env.before_flip8 ++ env.byte_flips ++ env.word_flips 2 ++ env.word_flips 4

end Deterministic

end aflnet
