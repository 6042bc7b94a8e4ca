import AflnetLegion.Mutation.Values

open Overwrite Trials

namespace aflnet

namespace Deterministic

variable {env : Deterministic} {s t : Det} {i n count : Nat} {limited : Bool} {token : List UInt8} {tokens rest : List (List UInt8)}

section overwriting

/-- A token fits at a position, and is not ruled out by the effector map. -/
def Placed (env : Deterministic) (i : Nat) (token : List UInt8) : Prop :=
  i + token.length ≤ env.len ∧ env.effector.marks i token.length = true

/-- A token is written over a part of M2. -/
def Overwritten (env : Deterministic) (tokens : List (List UInt8)) (x : List UInt8) : Prop :=
  ∃ i, ∃ token ∈ tokens, env.Placed i token ∧ x = write_items env.in_buf i token

/-- What a token gives is M2 itself or was run. -/
def Covered (env : Deterministic) (i : Nat) (token : List UInt8) (t : Det) : Prop :=
  env.Placed i token → write_items env.in_buf i token = env.in_buf ∨ write_items env.in_buf i token ∈ t.executed

theorem Covered.mono {u : Det} (h : env.Covered i token t) (hle : t.executed <+: u.executed) : env.Covered i token u :=
  fun hplaced => (h hplaced).imp_right fun hmem => hle.subset hmem

/-- The invariant of the loop over the tokens at position `i`, of which these are left: what was
written last is the only difference from M2, and the tokens before it have had their run. -/
structure Overwriting (env : Deterministic) (s : Det) (limited : Bool) (tokens : List (List UInt8)) (i : Nat)
    (rest : List (List UInt8)) (t : Det) : Prop where
  out_buf : ∃ bytes, bytes.length = t.last_len ∧ t.out_buf = write_items env.in_buf i bytes
  inside : i + t.last_len ≤ env.len
  known : t.out_buf = env.in_buf ∨ t.out_buf ∈ t.executed
  sorted : rest.Pairwise fun a b => a.length ≤ b.length
  longer : ∀ token ∈ rest, t.last_len ≤ token.length
  covered : limited = false ∨ tokens.length ≤ MAX_DET_EXTRAS → ∀ token ∈ tokens, token ∈ rest ∨ env.Covered i token t
  eff : t.eff = s.eff
  tokens : t.tokens = s.tokens

/-- A token that is passed over. -/
theorem Overwriting.skip (h : env.Overwriting s limited tokens i (token :: rest) t)
    (hcovered : limited = false ∨ tokens.length ≤ MAX_DET_EXTRAS → env.Covered i token t) (numbers : Nat → Nat) :
    env.Overwriting s limited tokens i rest ({ t with numbers }.shorten 1) where
  out_buf := h.out_buf
  inside := h.inside
  known := h.known
  sorted := h.sorted.of_cons
  longer := fun later hlater => h.longer later (List.mem_cons_of_mem _ hlater)
  covered := by
    intro hall later hlater
    rcases h.covered hall later hlater with hrest | hdone
    · rcases List.mem_cons.mp hrest with rfl | hrest
      · exact Or.inr (hcovered hall)
      · exact Or.inl hrest
    · exact Or.inr hdone
  eff := h.eff
  tokens := h.tokens

end overwriting

section inserting

/-- The inputs of the stage that inserts tokens: at every position, the one behind the last byte
included, every token that does not make the input too long. -/
def inserted (env : Deterministic) (tokens : List (List UInt8)) : List (List UInt8) :=
  (List.range (env.len + 1)).flatMap fun i => (tokens.filter fun token => env.len + token.length ≤ MAX_FILE).map fun token =>
    env.in_buf.take i ++ token ++ env.in_buf.drop i

end inserting

end Deterministic

end aflnet
