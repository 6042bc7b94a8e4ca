import AflnetLegion.Mutation.Lifting

open Overwrite Words

namespace aflnet

namespace Deterministic

variable {env : Deterministic} {order : Order} {i j k size half : Nat} {up : Bool} {orig value : BitVec 32} {x : List UInt8}

/-- The inputs of all stages before those that use the dictionary. -/
def inputs (env : Deterministic) : List (List UInt8) := env.flips ++ (env.arith_inputs ++ env.interest_inputs)

/-- All of these bytes are in blocks with a mark. -/
def Marked (env : Deterministic) (i size : Nat) : Prop := ∀ k < size, env.effector.eff_map.getD (EFF_APOS (i + k)) false = true

/-- Two buffers differ in a word, and there in a run of two or four bits that lies in more than one byte. -/
def Straddling (old new : List UInt8) : Prop :=
  ∃ i size, (size = 2 ∨ size = 4) ∧ i + size ≤ old.length ∧ new = write_items old i (window new i size) ∧
    Straddles (xor_val (window old i size) (window new i size))

/-- The stages run an input, or there is no need to, or it is taken for a bit flip by mistake. -/
def Tried (env : Deterministic) (x : List UInt8) : Prop := x = env.in_buf ∨ x ∈ env.inputs ∨ Straddling env.in_buf x

/-- A part of the bytes is in blocks with a mark as well. -/
theorem Marked.part (h : env.Marked i size) {m : Nat} (hm : k + m ≤ size) : env.Marked (i + k) m := by
  intro l hl
  have hmark := h (k + l) (by omega)
  rwa [← Nat.add_assoc] at hmark

theorem Marked.marks (h : env.Marked i size) (hpos : 1 ≤ size) : env.effector.marks i size = true :=
  List.any_eq_true.mpr ⟨0, List.mem_range.mpr hpos, h 0 hpos⟩

section bitflip

end bitflip

section stages

variable {group : List (Option (BitVec 32))} {skip : Bool}

end stages

section arith

variable {swap : BitVec 32 → BitVec 32}

end arith

section interest

variable {swap : BitVec 32 → BitVec 32} {check_le : Bool}

end interest

end Deterministic

end aflnet
