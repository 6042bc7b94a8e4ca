import Mathlib.Data.List.Infix

namespace PrefixCode

variable {α : Type} {IsWord : List α → Prop} {words words' : List (List α)} {rest rest' : List α}

/-- No word is the start of another one. -/
def PrefixFree (IsWord : List α → Prop) : Prop := ∀ w w', IsWord w → IsWord w' → w <+: w' → w = w'

/-- The text does not start with a word. -/
def Wordless (IsWord : List α → Prop) (text : List α) : Prop := ∀ w, IsWord w → ¬ w <+: text

theorem wordless_nil (hne : ∀ w, IsWord w → w ≠ []) : Wordless IsWord [] :=
  fun w hw hstarts => hne w hw (List.prefix_nil.mp hstarts)

/-- A text too short for any word. -/
theorem wordless_of_short {n : Nat} (hlong : ∀ w, IsWord w → n < w.length) (hshort : rest.length ≤ n) :
    Wordless IsWord rest := by
  intro w hw hstarts
  exact absurd (Nat.le_trans hstarts.length_le hshort) (Nat.not_le_of_lt (hlong w hw))

/-- A text is cut into words and a rest without further words in one way only. -/
theorem PrefixFree.unique (h : PrefixFree IsWord) (hwords : ∀ w ∈ words, IsWord w) (hwords' : ∀ w ∈ words', IsWord w)
    (hrest : Wordless IsWord rest) (hrest' : Wordless IsWord rest')
    (heq : words'.flatten ++ rest' = words.flatten ++ rest) : words' = words ∧ rest' = rest := by
  induction words generalizing words' with
  | nil =>
    cases words' with
    | nil => exact ⟨rfl, heq⟩
    | cons w' words' =>
      rw [List.flatten_nil, List.nil_append, List.flatten_cons, List.append_assoc] at heq
      exact absurd ⟨_, heq⟩ (hrest w' (hwords' w' (List.mem_cons_self ..)))
  | cons w words ih =>
    have hw := hwords w (List.mem_cons_self ..)
    rw [List.flatten_cons, List.append_assoc] at heq
    cases words' with
    | nil => exact absurd ⟨_, heq.symm⟩ (hrest' w hw)
    | cons w' words' =>
      have hw' := hwords' w' (List.mem_cons_self ..)
      rw [List.flatten_cons, List.append_assoc] at heq
      have hsame : w' = w := by
        rcases List.prefix_or_prefix_of_prefix (List.prefix_append w' (words'.flatten ++ rest'))
          (heq ▸ List.prefix_append w (words.flatten ++ rest)) with hstarts | hstarts
        · exact h w' w hw' hw hstarts
        · exact (h w w' hw hw' hstarts).symm
      subst hsame
      obtain ⟨rfl, hsame⟩ := ih (fun v hv => hwords v (List.mem_cons_of_mem _ hv))
        (fun v hv => hwords' v (List.mem_cons_of_mem _ hv)) (List.append_cancel_left heq)
      exact ⟨rfl, hsame⟩

/-- Words at the start of a text of words are its first ones. -/
theorem PrefixFree.exists_rest (h : PrefixFree IsWord) (hne : ∀ w, IsWord w → w ≠ []) (hwords : ∀ w ∈ words, IsWord w)
    (hwords' : ∀ w ∈ words', IsWord w) (heq : words.flatten ++ rest = words'.flatten) :
    ∃ more, words' = words ++ more ∧ more.flatten = rest := by
  induction words generalizing words' with
  | nil => exact ⟨words', rfl, heq.symm⟩
  | cons w words ih =>
    have hw := hwords w (List.mem_cons_self ..)
    rw [List.flatten_cons, List.append_assoc] at heq
    cases words' with
    | nil => exact absurd (List.append_eq_nil_iff.mp heq).1 (hne w hw)
    | cons w' words' =>
      have hw' := hwords' w' (List.mem_cons_self ..)
      rw [List.flatten_cons] at heq
      have hsame : w = w' := by
        rcases List.prefix_or_prefix_of_prefix (List.prefix_append w (words.flatten ++ rest))
          (heq ▸ List.prefix_append w' words'.flatten) with hstarts | hstarts
        · exact h w w' hw hw' hstarts
        · exact (h w' w hw' hw hstarts).symm
      subst hsame
      obtain ⟨more, rfl, hmore⟩ := ih (fun v hv => hwords v (List.mem_cons_of_mem _ hv))
        (fun v hv => hwords' v (List.mem_cons_of_mem _ hv)) (List.append_cancel_left heq)
      exact ⟨more, rfl, hmore⟩

end PrefixCode
