import Mathlib.Data.List.Sort

/-- A comparison function as `qsort` expects it: the two orders of its arguments agree,
and it orders the elements. -/
structure Consistent {α : Type} (compar : α → α → Int) (l : List α) : Prop where
  swap : ∀ a ∈ l, ∀ b ∈ l, 0 < compar a b ↔ compar b a < 0
  trans : ∀ a ∈ l, ∀ b ∈ l, ∀ c ∈ l, compar a b ≤ 0 → compar b c ≤ 0 → compar a c ≤ 0

/-- The library function `qsort`. The order of elements that compare as equal is
unspecified, and so is the result for an inconsistent comparison. -/
structure Qsort (α : Type) where
  qsort : (α → α → Int) → List α → List α
  perm : ∀ compar l, Consistent compar l → (qsort compar l).Perm l
  sorted : ∀ compar l, Consistent compar l → (qsort compar l).Pairwise fun a b => compar a b ≤ 0

namespace Qsort

variable {α : Type} {compar : α → α → Int} {l : List α}

/-- A comparison by the difference of keys. -/
theorem consistent_of_keys {key : α → Int} (h : ∀ a ∈ l, ∀ b ∈ l, compar a b = key a - key b) :
    Consistent compar l where
  swap := by
    intro a ha b hb
    rw [h a ha b hb, h b hb a ha]
    omega
  trans := by
    intro a ha b hb c hc
    rw [h a ha b hb, h b hb c hc, h a ha c hc]
    omega

/-- What sorting by keys gives. -/
theorem sorted_by_keys (q : Qsort α) (key : α → Int) (h : ∀ a ∈ l, ∀ b ∈ l, compar a b = key a - key b) :
    (q.qsort compar l).Perm l ∧ (q.qsort compar l).Pairwise fun a b => key a ≤ key b := by
  have hperm := q.perm compar l (consistent_of_keys h)
  refine ⟨hperm, (q.sorted compar l (consistent_of_keys h)).imp_of_mem ?_⟩
  intro a b ha hb hle
  rw [h a (hperm.subset ha) b (hperm.subset hb)] at hle
  omega

/-- A `qsort` that leaves equal elements in their order: insertion sort, which the kernel can run. -/
def stable (α : Type) : Qsort α where
  qsort compar l := (l.attach.insertionSort fun a b => compar a.val b.val ≤ 0).map Subtype.val
  perm := by
    intro compar l _
    have hperm := (List.perm_insertionSort (fun a b => compar a.val b.val ≤ 0) l.attach).map Subtype.val
    rwa [List.attach_map_subtype_val] at hperm
  sorted := by
    intro compar l h
    rw [List.pairwise_map]
    have htotal : Std.Total fun a b : { x // x ∈ l } => compar a.val b.val ≤ 0 := ⟨fun a b => by
      have hswap := h.swap a a.2 b b.2
      omega⟩
    have htrans : IsTrans { x // x ∈ l } fun a b => compar a.val b.val ≤ 0 :=
      ⟨fun a b c => h.trans a a.2 b b.2 c c.2⟩
    exact List.pairwise_insertionSort _ l.attach

end Qsort
