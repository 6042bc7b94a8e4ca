import AflnetLegion.Mutation.Flips

open Overwrite Trials Words

namespace aflnet

theorem put_eq (buf : List UInt8) (i size : Nat) (value : BitVec 32) :
    put .le buf i size value = write_items buf i (store value size) := by
  rw [put, write_items, length_store]
  rfl

namespace Deterministic

variable {env : Deterministic} {s t : Det} {stage : WordStage} {i size n : Nat}

/-- The state inside of a round, in which the bytes of the word may be replaced. Everything else
in the buffer is that of M2. -/
structure InWord (env : Deterministic) (s : Det) (i size : Nat) (t : Det) : Prop where
  out_buf : ∃ bytes, bytes.length = size ∧ t.out_buf = write_items env.in_buf i bytes
  eff : t.eff = s.eff
  tokens : t.tokens = s.tokens

/-- Storing a value over a word that may hold another one. -/
theorem InWord.put (h : env.InWord s i size t) (hi : i + size ≤ env.len) (value : BitVec 32) :
    Words.put .le t.out_buf i size value = Words.put .le env.in_buf i size value := by
  obtain ⟨bytes, hlength, hbuf⟩ := h.out_buf
  rw [put_eq, put_eq, hbuf, overwrite_overwrite (by simp [hlength]) (hlength ▸ hi)]

/-- The inputs of a stage at a position, in the order in which they are run. Values that are
counted off have none. -/
def word_inputs (env : Deterministic) (stage : WordStage) (i : Nat) : List (List UInt8) :=
  (stage.groups (fetch 32 .le env.in_buf i stage.size)).flatMap fun group =>
    group.flatMap fun value => value.toList.map (put .le env.in_buf i stage.size)

/-- All inputs of a stage. -/
def stage_inputs (env : Deterministic) (stage : WordStage) : List (List UInt8) :=
  (env.word_positions stage.size).flatMap (env.word_inputs stage)

/-- The inputs of the stages that add and subtract, which are none if the option leaves them
out. -/
def arith_inputs (env : Deterministic) : List (List UInt8) :=
  if env.no_arith then []
  else env.stage_inputs .arith8 ++ (env.stage_inputs .arith16 ++ env.stage_inputs .arith32)

/-- The inputs of the stages that set interesting values. The option leaves out those of words,
and not those of bytes. -/
def interest_inputs (env : Deterministic) : List (List UInt8) :=
  env.stage_inputs .interest8 ++
    if env.no_arith then [] else env.stage_inputs .interest16 ++ env.stage_inputs .interest32

/-- What a part with some stages leaves as it was. -/
def Passes (env : Deterministic) (s t : Det) : Prop := s.Kept env t ∧ t.stage_cur = t.stage_max

theorem Passes.trans {u : Det} (h : env.Passes s t) (h' : env.Passes t u) : env.Passes s u :=
  ⟨⟨h'.1.out_buf, h'.1.eff.trans h.1.eff, h'.1.tokens.trans h.1.tokens⟩, h'.2⟩

end Deterministic

end aflnet
