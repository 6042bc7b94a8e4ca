import AflnetLegion.Lib.PrefixCode

namespace Lines

variable {α : Type} {terminator line current : List α} {a : α}

/-- No terminator was read so far that ends a line. -/
def Open (terminator current : List α) : Prop :=
  ∀ start, start <+: current → terminator.length < start.length → ¬ terminator <:+ start

/-- One line, with the terminator that ends it and no earlier one. Right at the start
of a line a terminator does not count. -/
structure IsLine (terminator line : List α) : Prop where
  long : terminator.length < line.length
  ends : terminator <:+ line
  first : Open terminator line.dropLast

/-- A text of one or more lines, all of them ended. -/
def Complete (terminator text : List α) : Prop :=
  ∃ lines, lines ≠ [] ∧ (∀ line ∈ lines, IsLine terminator line) ∧ lines.flatten = text

/-- What is not longer than the terminator cannot have ended a line yet. -/
theorem open_of_short (h : current.length ≤ terminator.length) : Open terminator current :=
  fun _ hstart hlong => absurd (Nat.le_trans hstart.length_le h) (Nat.not_le_of_lt hlong)

theorem open_nil : Open terminator [] := open_of_short (Nat.zero_le _)

/-- One more element ends the line or leaves it open. -/
theorem Open.isLine (h : Open terminator current) (hlong : terminator.length < (current ++ [a]).length)
    (hends : terminator <:+ current ++ [a]) : IsLine terminator (current ++ [a]) :=
  ⟨hlong, hends, by rw [List.dropLast_concat]; exact h⟩

/-- An open line stays open when the next element does not complete a terminator. -/
theorem Open.concat (h : Open terminator current)
    (hnot : ¬ (terminator.length < (current ++ [a]).length ∧ terminator <:+ current ++ [a])) :
    Open terminator (current ++ [a]) := by
  intro start hstart hlong hends
  rcases List.prefix_concat_iff.mp hstart with rfl | hbefore
  · exact hnot ⟨hlong, hends⟩
  · exact h start hbefore hlong hends

/-- A line is open if all of it but the last element is and no terminator stands at its end. -/
theorem Open.of_dropLast (h : Open terminator current.dropLast) (hends : ¬ terminator <:+ current) : Open terminator current := by
  rcases List.eq_nil_or_concat current with rfl | ⟨start, a, rfl⟩
  · exact open_nil
  · rw [List.concat_eq_append, List.dropLast_concat] at h
    rw [List.concat_eq_append] at hends ⊢
    exact h.concat fun hboth => hends hboth.2

theorem IsLine.ne_nil (h : IsLine terminator line) : line ≠ [] := by
  rintro rfl
  exact absurd h.long (Nat.not_lt_zero _)

/-- An open part does not contain a whole line at its start. -/
theorem IsLine.not_prefix_of_open (h : IsLine terminator line) (hopen : Open terminator current) :
    ¬ line <+: current := fun hstarts => hopen line hstarts h.long h.ends

/-- Nothing can follow a line before the next line. -/
theorem IsLine.rest_eq_nil {rest : List α} (h : IsLine terminator line) (hopen : Open terminator (line ++ rest).dropLast) :
    rest = [] := by
  by_contra hrest
  refine h.not_prefix_of_open hopen ?_
  rw [List.dropLast_append_of_ne_nil hrest]
  exact List.prefix_append ..

/-- No line is the start of another one. -/
theorem IsLine.eq_of_prefix {line' : List α} (h : IsLine terminator line) (h' : IsLine terminator line')
    (hstarts : line <+: line') : line = line' := by
  obtain ⟨rest, rfl⟩ := hstarts
  rw [h.rest_eq_nil h'.first, List.append_nil]

/-- A text is cut into lines in one way only. -/
theorem flatten_eq_flatten_append {lines lines' : List (List α)} (hlines : ∀ line ∈ lines, IsLine terminator line)
    (hlines' : ∀ line ∈ lines', IsLine terminator line) (hopen : Open terminator current)
    (h : lines'.flatten = lines.flatten ++ current) : lines' = lines ∧ current = [] := by
  have hfree : PrefixCode.PrefixFree (IsLine terminator) := fun _ _ hline hline' => hline.eq_of_prefix hline'
  have hrest : PrefixCode.Wordless (IsLine terminator) current := fun _ hline => hline.not_prefix_of_open hopen
  obtain ⟨hsame, hnil⟩ := hfree.unique hlines hlines' hrest (PrefixCode.wordless_nil fun _ hline => hline.ne_nil)
    ((List.append_nil _).trans h)
  exact ⟨hsame, hnil.symm⟩

/-- Whether a text that has been cut is complete. -/
theorem complete_iff {lines : List (List α)} (hlines : ∀ line ∈ lines, IsLine terminator line)
    (hopen : Open terminator current) : Complete terminator (lines.flatten ++ current) ↔ lines ≠ [] ∧ current = [] := by
  constructor
  · rintro ⟨lines', hne, hlines', heq⟩
    obtain ⟨rfl, hnil⟩ := flatten_eq_flatten_append hlines hlines' hopen heq
    exact ⟨hne, hnil⟩
  · rintro ⟨hne, rfl⟩
    exact ⟨lines, hne, hlines, (List.append_nil _).symm⟩

end Lines
