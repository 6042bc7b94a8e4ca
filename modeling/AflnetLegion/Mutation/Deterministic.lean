import AflnetLegion.Mutation.Complete
import AflnetLegion.Mutation.TokenStages

open Overwrite Trials Words

namespace aflnet

namespace Deterministic

variable {env : Deterministic} {s t : Det}

/-- What holds at the end of a part, or if the entry is given up before. Nothing else ends it. -/
inductive Ends (Q R : Det → Prop) : Outcome → Prop where
  | ended {t : Det} : Q t → Ends Q R (.ok t)
  | given_up {t : Det} : R t → Ends Q R (.error (.abandon_entry, t))

theorem Ends.mono {r : Outcome} {Q Q' R R' : Det → Prop} (h : Ends Q R r) (hQ : ∀ t, Q t → Q' t) (hR : ∀ t, R t → R' t) :
    Ends Q' R' r := by
  cases h with
  | ended ht => exact .ended (hQ _ ht)
  | given_up ht => exact .given_up (hR _ ht)

section integers

end integers

section extras

theorem Overwritten.mono {tokens tokens' : List (List UInt8)} {x : List UInt8} (h : env.Overwritten tokens x)
    (hsub : ∀ token ∈ tokens, token ∈ tokens') : env.Overwritten tokens' x := by
  obtain ⟨i, token, htoken, hplaced, heq⟩ := h
  exact ⟨i, token, hsub token htoken, hplaced, heq⟩

end extras

end Deterministic

end aflnet
