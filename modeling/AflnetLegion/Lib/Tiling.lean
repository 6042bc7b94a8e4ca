import Mathlib.Algebra.GroupWithZero.Nat
import Mathlib.Data.List.Basic

namespace Tiling

variable {α : Type}

/-- `len` elements from the position `start` on. -/
def slice (l : List α) (start len : Nat) : List α := (l.drop start).take len

/-- Pieces, given by position and length, that follow one another from `a` to `b`. -/
def Tiles : Nat → List (Nat × Nat) → Nat → Prop
  | a, [], b => a = b
  | a, (start, len) :: rest, b => start = a ∧ Tiles (a + len) rest b

/-- Consecutive pieces of the given lengths, where the last ones are shorter or empty if the
list ends. -/
def reads : List Nat → List α → List (List α)
  | [], _ => []
  | len :: lens, l => l.take len :: reads lens (l.drop len)

variable {a b : Nat} {p : Nat × Nat} {ps qs : List (Nat × Nat)} {l : List α}

theorem length_slice {start len : Nat} (h : start + len ≤ l.length) : (slice l start len).length = len := by
  rw [slice, List.length_take, List.length_drop]
  omega

theorem slice_append (l : List α) (start n m : Nat) :
    slice l start n ++ slice l (start + n) m = slice l start (n + m) := by
  rw [slice, slice, slice, ← List.drop_drop, List.take_add]

theorem tiles_append : Tiles a (ps ++ qs) b ↔ ∃ m, Tiles a ps m ∧ Tiles m qs b := by
  induction ps generalizing a with
  | nil => simp [Tiles]
  | cons p ps ih =>
    obtain ⟨start, len⟩ := p
    rw [List.cons_append, Tiles, ih]
    constructor
    · rintro ⟨hstart, m, hps, hqs⟩
      exact ⟨m, ⟨hstart, hps⟩, hqs⟩
    · rintro ⟨m, ⟨hstart, hps⟩, hqs⟩
      exact ⟨hstart, m, hps, hqs⟩

/-- The pieces end where their lengths add up to. -/
theorem Tiles.stop_eq (h : Tiles a ps b) : b = a + (ps.map Prod.snd).sum := by
  induction ps generalizing a with
  | nil => exact h.symm
  | cons p ps ih =>
    obtain ⟨start, len⟩ := p
    rw [ih h.2, List.map_cons, List.sum_cons, Nat.add_assoc]

/-- A piece starts where the lengths before it add up to. -/
theorem Tiles.start_eq (h : Tiles a (ps ++ p :: qs) b) : p.1 = a + (ps.map Prod.snd).sum := by
  obtain ⟨m, hps, hp⟩ := tiles_append.mp h
  rw [← hps.stop_eq]
  exact hp.1

theorem Tiles.bounds (h : Tiles a ps b) (hp : p ∈ ps) : a ≤ p.1 ∧ p.1 + p.2 ≤ b := by
  obtain ⟨before, after, rfl⟩ := List.append_of_mem hp
  rw [h.start_eq, h.stop_eq, List.map_append, List.sum_append, List.map_cons, List.sum_cons]
  omega

/-- The last piece ends where all of them end. -/
theorem Tiles.last_stop (h : Tiles a (ps ++ [p]) b) : p.1 + p.2 = b := by
  obtain ⟨m, hps, hp⟩ := tiles_append.mp h
  rw [show p.1 = m from hp.1]
  exact hp.2

theorem slice_all (l : List α) : slice l 0 l.length = l := by
  simp [slice]

/-- Pieces that were put together are read one by one. -/
theorem reads_flatten (pieces : List (List α)) (rest : List α) :
    reads (pieces.map List.length) (pieces.flatten ++ rest) = pieces := by
  induction pieces with
  | nil => rfl
  | cons piece pieces ih =>
    rw [List.map_cons, reads, List.flatten_cons, List.append_assoc, List.take_left, List.drop_left, ih]

/-- Reading on finds each piece where the lengths before it add up to. -/
theorem getElem?_reads (lens : List Nat) (l : List α) (k : Nat) :
    (reads lens l)[k]? = lens[k]?.map fun len => slice l (lens.take k).sum len := by
  induction lens generalizing l k with
  | nil => rfl
  | cons len lens ih =>
    cases k with
    | zero => simp [reads, slice]
    | succ k =>
      rw [reads, List.getElem?_cons_succ, List.getElem?_cons_succ, ih]
      congr 1
      funext n
      rw [slice, slice, List.drop_drop, List.take_succ_cons, List.sum_cons]

/-- Slices at two positions agree in every list of a length only if the positions do. -/
theorem slice_eq_forall_iff {x y : α} (hxy : x ≠ y) {start other len n : Nat} (hlen : 0 < len)
    (hstart : start + len ≤ n) :
    (∀ l : List α, l.length = n → slice l other len = slice l start len) ↔ other = start := by
  constructor
  · intro h
    by_contra hne
    have hfirst : ∀ i, (slice ((List.replicate n x).set start y) i len)[0]? = ((List.replicate n x).set start y)[i]? := by
      intro i
      rw [slice, List.getElem?_take_of_lt hlen, List.getElem?_drop, Nat.add_zero]
    have heq := congrArg (fun l => l[0]?) (h ((List.replicate n x).set start y) (by simp))
    simp only [hfirst] at heq
    rw [List.getElem?_set_self (by simp; omega), List.getElem?_set_ne (Ne.symm hne), List.getElem?_replicate] at heq
    split at heq
    · exact hxy (Option.some.inj heq)
    · cases heq
  · rintro rfl l _
    rfl

section kept

variable {β : Type} {keep : β → Bool} {f : β → Nat} {rest : List β}

theorem sum_filter_le (keep : β → Bool) (f : β → Nat) (rest : List β) :
    ((rest.filter keep).map f).sum ≤ (rest.map f).sum := by
  induction rest with
  | nil => exact Nat.le_refl 0
  | cons x rest ih =>
    rw [List.filter_cons]
    split
    · rw [List.map_cons, List.map_cons, List.sum_cons, List.sum_cons]
      exact Nat.add_le_add_left ih _
    · rw [List.map_cons, List.sum_cons]
      exact Nat.le_trans ih (Nat.le_add_left _ _)

/-- Leaving out elements with positive values makes a sum smaller. -/
theorem sum_filter_eq_iff (hpos : ∀ x ∈ rest, 0 < f x) :
    ((rest.filter keep).map f).sum = (rest.map f).sum ↔ ∀ x ∈ rest, keep x = true := by
  induction rest with
  | nil => simp
  | cons x rest ih =>
    have hrest := ih fun y hy => hpos y (List.mem_cons_of_mem _ hy)
    have hx := hpos x (List.mem_cons_self ..)
    have hle := sum_filter_le keep f rest
    rw [List.filter_cons, List.forall_mem_cons, ← hrest]
    split
    · rename_i hkeep
      rw [List.map_cons, List.map_cons, List.sum_cons, List.sum_cons, Nat.add_left_cancel_iff]
      exact ⟨fun heq => ⟨hkeep, heq⟩, And.right⟩
    · rename_i hkeep
      rw [List.map_cons, List.sum_cons]
      exact ⟨fun heq => by omega, fun hboth => absurd hboth.1 hkeep⟩

/-- An element that was kept, with what stood before and behind it: the elements kept before it
are those of the first part. -/
theorem exists_of_getElem?_filter {k : Nat} {x : β} (h : (rest.filter keep)[k]? = some x) :
    ∃ before after, rest = before ++ x :: after ∧ (rest.filter keep).take k = before.filter keep := by
  induction rest generalizing k with
  | nil => cases h
  | cons y rest ih =>
    by_cases hy : keep y = true
    · rw [List.filter_cons_of_pos hy] at h ⊢
      cases k with
      | zero =>
        cases h
        exact ⟨[], rest, rfl, rfl⟩
      | succ k =>
        obtain ⟨before, after, heq, htake⟩ := ih h
        refine ⟨y :: before, after, by rw [heq, List.cons_append], ?_⟩
        rw [List.take_succ_cons, htake, List.filter_cons_of_pos hy]
    · rw [List.filter_cons_of_neg hy] at h ⊢
      obtain ⟨before, after, heq, htake⟩ := ih h
      refine ⟨y :: before, after, by rw [heq, List.cons_append], ?_⟩
      rw [htake, List.filter_cons_of_neg hy]

/-- When some of the pieces are left out and the others read one after the other,
each is read from its own place if and only if those left out all come last. -/
theorem Tiles.read_in_place_iff {piece : β → Nat × Nat} {n : Nat} (h : Tiles 0 (rest.map piece) n) (keep : β → Bool)
    (hpos : ∀ x ∈ rest, 0 < (piece x).2) :
    (∀ (k : Nat) (x : β), (rest.filter keep)[k]? = some x →
      (((rest.filter keep).map fun y => (piece y).2).take k).sum = (piece x).1) ↔
    ∀ (i j : Nat) (x y : β), i < j → rest[i]? = some x → rest[j]? = some y → keep y = true → keep x = true := by
  have hsum : ∀ before x after, rest = before ++ x :: after →
      ((((before.filter keep).map fun y => (piece y).2).sum = (piece x).1) ↔ ∀ y ∈ before, keep y = true) := by
    intro before x after heq
    rw [heq, List.map_append, List.map_cons] at h
    rw [h.start_eq, Nat.zero_add, List.map_map]
    exact sum_filter_eq_iff fun y hy => hpos y (by rw [heq]; exact List.mem_append_left _ hy)
  constructor
  · intro hplace i j x y hij hx hy hkeep
    obtain ⟨hj, hyj⟩ := List.getElem?_eq_some_iff.mp hy
    have hsplit : rest = rest.take j ++ y :: rest.drop (j + 1) := by
      rw [← hyj, ← List.drop_eq_getElem_cons hj, List.take_append_drop]
    have hfilter : rest.filter keep = (rest.take j).filter keep ++ y :: (rest.drop (j + 1)).filter keep := by
      conv_lhs => rw [hsplit]
      rw [List.filter_append, List.filter_cons_of_pos hkeep]
    have hread := hplace ((rest.take j).filter keep).length y (by rw [hfilter]; simp)
    rw [hfilter, ← List.map_take, List.take_left, hsum _ _ _ hsplit] at hread
    refine hread x (List.mem_of_getElem? (i := i) ?_)
    rw [List.getElem?_take_of_lt hij, hx]
  · intro hlast k x hk
    obtain ⟨before, after, heq, htake⟩ := exists_of_getElem?_filter hk
    rw [← List.map_take, htake, hsum before x after heq]
    intro y hy
    obtain ⟨i, hi⟩ := List.mem_iff_getElem?.mp hy
    have hlt := (List.getElem?_eq_some_iff.mp hi).1
    refine hlast i before.length y x hlt ?_ ?_ (List.of_mem_filter (List.mem_of_getElem? hk))
    · rw [heq, List.getElem?_append_left hlt, hi]
    · rw [heq, List.getElem?_append_right (Nat.le_refl _), Nat.sub_self, List.getElem?_cons_zero]

end kept

end Tiling
