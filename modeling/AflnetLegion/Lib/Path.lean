import Mathlib.Data.List.Basic

namespace Chain

variable {ν : Type}

/-- Following `next` from the pointer `p` leads through the nodes `xs` to the
pointer `r`. -/
def Path (next : ν → Option ν) : Option ν → List ν → Option ν → Prop
  | p, [], r => p = r
  | p, x :: xs, r => p = some x ∧ Path next (next x) xs r

variable {next next' : ν → Option ν} {p r m : Option ν} {x : ν} {xs ys : List ν}

@[simp] theorem path_nil : Path next p [] r ↔ p = r := Iff.rfl

@[simp] theorem path_cons : Path next p (x :: xs) r ↔ p = some x ∧ Path next (next x) xs r := Iff.rfl

/-- A path through two lists of nodes passes the pointer at which the second one begins. -/
theorem path_append : Path next p (xs ++ ys) r ↔ ∃ m, Path next p xs m ∧ Path next m ys r := by
  induction xs generalizing p with
  | nil => simp
  | cons x xs ih =>
    rw [List.cons_append, path_cons, ih]
    constructor
    · rintro ⟨hp, m, hxs, hys⟩
      exact ⟨m, ⟨hp, hxs⟩, hys⟩
    · rintro ⟨m, ⟨hp, hxs⟩, hys⟩
      exact ⟨hp, m, hxs, hys⟩

theorem path_concat : Path next p (xs ++ [x]) r ↔ Path next p xs (some x) ∧ next x = r := by
  rw [path_append]
  constructor
  · rintro ⟨m, hxs, rfl, hlast⟩
    exact ⟨hxs, hlast⟩
  · rintro ⟨hxs, hlast⟩
    exact ⟨some x, hxs, rfl, hlast⟩

/-- A path starts at its first node, or at its end if it has none. -/
theorem Path.start_eq (h : Path next p xs r) : p = xs.head?.or r := by
  cases xs with
  | nil => exact h
  | cons x xs => exact h.1

theorem Path.start_eq_head (h : Path next p xs r) (hne : xs ≠ []) : p = xs.head? := by
  cases xs with
  | nil => exact absurd rfl hne
  | cons x xs => exact h.1

/-- A path depends on the links of its own nodes only. -/
theorem Path.congr (h : Path next p xs r) (hsame : ∀ x ∈ xs, next' x = next x) : Path next' p xs r := by
  induction xs generalizing p with
  | nil => exact h
  | cons x xs ih =>
    obtain ⟨hp, hrest⟩ := h
    refine ⟨hp, ?_⟩
    rw [hsame x (List.mem_cons_self ..)]
    exact ih hrest fun y hy => hsame y (List.mem_cons_of_mem _ hy)

/-- Only the link of the last node decides where a path ends. -/
theorem Path.retarget (h : Path next p xs r) (hne : xs ≠ []) (hsame : ∀ x ∈ xs, xs.getLast? ≠ some x → next' x = next x)
    (hlast : ∀ x, xs.getLast? = some x → next' x = m) (hnodup : xs.Nodup) : Path next' p xs m := by
  obtain ⟨front, last, rfl⟩ := (List.eq_nil_or_concat xs).resolve_left hne
  rw [List.concat_eq_append] at *
  obtain ⟨hfront, -⟩ := path_concat.mp h
  refine path_concat.mpr ⟨hfront.congr ?_, hlast last (by simp)⟩
  intro x hx
  refine hsame x (List.mem_append_left _ hx) ?_
  rw [List.getLast?_concat]
  rintro heq
  cases heq
  exact (List.nodup_append.mp hnodup).2.2 last hx last (List.mem_singleton.mpr rfl) rfl

/-- Two paths from one pointer to one end outside of both are the same. -/
theorem Path.unique {t : ν} (hxs : Path next p xs (some t)) (hys : Path next p ys (some t)) (hxt : t ∉ xs)
    (hyt : t ∉ ys) : xs = ys := by
  induction xs generalizing p ys with
  | nil =>
    cases ys with
    | nil => rfl
    | cons y ys =>
      obtain ⟨hp, -⟩ := hys
      rw [path_nil] at hxs
      rw [hxs] at hp
      cases hp
      exact absurd (List.mem_cons_self ..) hyt
  | cons x xs ih =>
    obtain ⟨hp, hrest⟩ := hxs
    cases ys with
    | nil =>
      rw [path_nil, hp] at hys
      cases hys
      exact absurd (List.mem_cons_self ..) hxt
    | cons y ys =>
      obtain ⟨hp', hrest'⟩ := hys
      rw [hp] at hp'
      cases hp'
      rw [ih hrest hrest' (fun hmem => hxt (List.mem_cons_of_mem _ hmem)) fun hmem => hyt (List.mem_cons_of_mem _ hmem)]

theorem getLast?_ne_of_not_mem (h : x ∉ xs) : xs.getLast? ≠ some x := fun hlast => h (List.mem_of_getLast? hlast)

/-- Only the last link of two parts changes. Each part keeps its path, but for the end
of the one that has that link. -/
theorem Path.retarget_split {old : Option ν} (hxs : Path next p xs m) (hys : Path next m ys old) (hne : xs ≠ [])
    (hnodup : (xs ++ ys).Nodup) (hsame : ∀ x ∈ xs ++ ys, (xs ++ ys).getLast? ≠ some x → next' x = next x)
    (hlast : ∀ x, (xs ++ ys).getLast? = some x → next' x = r) :
    Path next' (ys.head?.or r) ys r ∧ Path next' p xs (ys.head?.or r) := by
  obtain ⟨hnxs, hnys, hdisjoint⟩ := List.nodup_append.mp hnodup
  cases ys with
  | nil =>
    rw [List.append_nil] at hlast hsame
    exact ⟨path_nil.mpr rfl, hxs.retarget hne hsame hlast hnxs⟩
  | cons y ys =>
    have hm : m = some y := hys.1
    have hlast_ys : (xs ++ y :: ys).getLast? = (y :: ys).getLast? := by
      rw [List.getLast?_append]
      cases hlast : (y :: ys).getLast? with
      | none => simp at hlast
      | some x => rfl
    rw [hlast_ys] at hlast hsame
    rw [hm] at hxs hys
    refine ⟨hys.retarget (List.cons_ne_nil y ys) (fun x hx => hsame x (List.mem_append_right _ hx)) hlast hnys, ?_⟩
    refine hxs.congr fun x hx => hsame x (List.mem_append_left _ hx) ?_
    exact getLast?_ne_of_not_mem fun hmem => hdisjoint x hx x hmem rfl

/-- The second of three parts of a list is replaced by a part appended at the end:
the part before it leads to the new one, the new one to the third part, and the
third part to the end. The removed part then leads to where it led before. -/
theorem Path.splice {as bs cs ds : List ν} {t : ν} (h : Path next p (as ++ bs ++ cs ++ ds) (some t))
    (hbs : bs ≠ []) (hds : ds ≠ []) (hnodup : (as ++ bs ++ cs ++ ds).Nodup)
    (hsame : ∀ x ∈ as ++ bs ++ cs ++ ds, as.getLast? ≠ some x → (bs ++ cs).getLast? ≠ some x → ds.getLast? ≠ some x →
      next' x = next x)
    (has : ∀ x, as.getLast? = some x → next' x = ds.head?)
    (hcs : ∀ x, (bs ++ cs).getLast? = some x → next' x = some t)
    (hlast : ∀ x, ds.getLast? = some x → next' x = cs.head?.or (some t)) :
    Path next' (if as = [] then ds.head? else p) (as ++ ds ++ cs) (some t) ∧
      Path next' bs.head? bs (cs.head?.or (some t)) := by
  obtain ⟨m₃, habc, hd⟩ := path_append.mp h
  obtain ⟨m₂, hab, hc⟩ := path_append.mp habc
  obtain ⟨m₁, ha, hb⟩ := path_append.mp hab
  obtain ⟨hnabc, hnd, hdisjd⟩ := List.nodup_append.mp hnodup
  obtain ⟨hnab, -, hdisjc⟩ := List.nodup_append.mp hnabc
  obtain ⟨hna, -, hdisjb⟩ := List.nodup_append.mp hnab
  have hm₃ : m₃ = ds.head? := hd.start_eq_head hds
  have hm₁ : m₁ = bs.head? := hb.start_eq_head hbs
  -- where the links stay as they are
  have hsame_a : ∀ x ∈ as, as.getLast? ≠ some x → next' x = next x := by
    intro x hx hnot
    refine hsame x (by simp [hx]) hnot ?_ ?_
    · refine getLast?_ne_of_not_mem fun hmem => ?_
      rcases List.mem_append.mp hmem with hmem | hmem
      · exact hdisjb x hx x hmem rfl
      · exact hdisjc x (List.mem_append_left _ hx) x hmem rfl
    · exact getLast?_ne_of_not_mem fun hmem => hdisjd x (by simp [hx]) x hmem rfl
  have hsame_bc : ∀ x ∈ bs ++ cs, (bs ++ cs).getLast? ≠ some x → next' x = next x := by
    intro x hx hnot
    have hmem : x ∈ as ++ bs ++ cs := by
      rw [List.append_assoc]
      exact List.mem_append_right _ hx
    refine hsame x (List.mem_append_left _ hmem) ?_ hnot ?_
    · refine getLast?_ne_of_not_mem fun hxa => ?_
      rcases List.mem_append.mp hx with hxb | hxc
      · exact hdisjb x hxa x hxb rfl
      · exact hdisjc x (List.mem_append_left _ hxa) x hxc rfl
    · exact getLast?_ne_of_not_mem fun hxd => hdisjd x hmem x hxd rfl
  have hsame_d : ∀ x ∈ ds, ds.getLast? ≠ some x → next' x = next x := by
    intro x hx hnot
    have hout : ∀ y ∈ as ++ bs ++ cs, y ≠ x := fun y hy => hdisjd y hy x hx
    refine hsame x (List.mem_append_right _ hx) ?_ ?_ hnot
    · exact getLast?_ne_of_not_mem fun hmem => hout x (by simp [hmem]) rfl
    · refine getLast?_ne_of_not_mem fun hmem => hout x ?_ rfl
      rw [List.append_assoc]
      exact List.mem_append_right _ hmem
  -- the three parts of the new list, and the removed one
  have hnewd : Path next' ds.head? ds (cs.head?.or (some t)) := by
    rw [← hm₃]
    exact hd.retarget hds hsame_d hlast hnd
  have hnewa : Path next' (if as = [] then ds.head? else p) as ds.head? := by
    by_cases hnil : as = []
    · rw [if_pos hnil, hnil]
      exact path_nil.mpr rfl
    · rw [if_neg hnil]
      exact ha.retarget hnil hsame_a has hna
  have hnewbc : Path next' (cs.head?.or (some t)) cs (some t) ∧ Path next' bs.head? bs (cs.head?.or (some t)) := by
    rw [List.append_assoc] at hnabc
    rw [← hm₁]
    exact hb.retarget_split hc hbs (List.nodup_append.mp hnabc).2.1 hsame_bc hcs
  refine ⟨?_, hnewbc.2⟩
  rw [List.append_assoc]
  exact path_append.mpr ⟨_, hnewa, path_append.mpr ⟨_, hnewd, hnewbc.1⟩⟩

end Chain
