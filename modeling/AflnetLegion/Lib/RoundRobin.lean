import Mathlib.Data.List.Count

/-! Round robin over a list that can grow between two picks. -/

/-- The place at which a round robin goes on, and how many places there are. With no place at
all it stands at 0. -/
@[ext] structure Cursor where
  index : Nat
  limit : Nat
  bound : index = 0 ∨ index < limit

namespace Cursor

/-- The place after this one. Behind the last place the turns start again, and the limit may
have grown since. -/
def next (c : Cursor) (h : c.index < c.limit) : Cursor where
  index := if c.index + 1 = c.limit then 0 else c.index + 1
  limit := c.limit
  bound := by split <;> omega

/-- The picks that are made on the way from one cursor to another, and how many of them are
picks of the last place. -/
inductive Turns : Cursor → List Nat → Nat → Cursor → Prop where
  | refl (c : Cursor) : Turns c [] 0 c
  | grow {a b c : Cursor} {picks : List Nat} {rounds : Nat} (h : Turns a picks rounds b) (hindex : c.index = b.index)
      (hlimit : b.limit ≤ c.limit) : Turns a picks rounds c
  | pick {a b : Cursor} {picks : List Nat} {rounds : Nat} (h : Turns a picks rounds b) (hlt : b.index < b.limit) :
      Turns a (picks ++ [b.index]) (if b.index + 1 = b.limit then rounds + 1 else rounds) (b.next hlt)

/-- Whether the place has had its turn in this round. -/
def passed (c : Cursor) (p : Nat) : Nat := if p < c.index then 1 else 0

variable {a b c : Cursor} {picks : List Nat} {rounds p q : Nat}

theorem passed_le (c : Cursor) (p : Nat) : c.passed p ≤ 1 := by
  unfold passed
  split <;> omega

theorem Turns.limit_le (h : Turns a picks rounds c) : a.limit ≤ c.limit := by
  induction h with
  | refl => exact Nat.le_refl _
  | grow _ _ hlimit ih => exact Nat.le_trans ih hlimit
  | pick _ _ ih => exact ih

theorem Turns.pick_lt (h : Turns a picks rounds c) : ∀ p ∈ picks, p < c.limit := by
  induction h with
  | refl => exact fun p hp => absurd hp List.not_mem_nil
  | grow _ _ hlimit ih => exact fun p hp => Nat.lt_of_lt_of_le (ih p hp) hlimit
  | pick _ hlt ih =>
    intro p hp
    rcases List.mem_append.mp hp with hp | hp
    · exact ih p hp
    · rw [List.mem_singleton.mp hp]
      exact hlt

/-- A place is picked once in every round. -/
theorem Turns.count_eq (h : Turns a picks rounds c) (hp : p < a.limit) :
    picks.count p + a.passed p = rounds + c.passed p := by
  induction h with
  | refl => rw [List.count_nil]
  | grow _ hindex _ ih =>
    rw [ih, passed, passed, hindex]
  | @pick b picks rounds hturns hlt ih =>
    have hlimit := Nat.lt_of_lt_of_le hp hturns.limit_le
    have hbefore := ih
    have hcount : (picks ++ [b.index]).count p = picks.count p + if b.index = p then 1 else 0 := by
      simp [List.count_append, List.count_singleton]
    rw [hcount]
    by_cases hwrap : b.index + 1 = b.limit
    · have hafter : (b.next hlt).passed p = 0 := if_neg (by simp [next, hwrap])
      have hpassed : b.passed p = if p < b.index then 1 else 0 := rfl
      rw [hafter, if_pos hwrap]
      split at hpassed <;> split <;> omega
    · have hafter : (b.next hlt).passed p = if p < b.index + 1 then 1 else 0 := by simp [passed, next, hwrap]
      have hpassed : b.passed p = if p < b.index then 1 else 0 := rfl
      rw [hafter, if_neg hwrap]
      split at hpassed <;> split <;> split <;> omega

/-- Only a pick of the last place begins a new round. -/
theorem Turns.length_le (h : Turns a picks rounds c) : picks.length + a.index ≤ rounds * c.limit + c.index := by
  induction h with
  | refl => simp
  | @grow b c picks rounds _ hindex hlimit ih =>
    have hmore := Nat.mul_le_mul_left rounds hlimit
    omega
  | @pick b picks rounds _ hlt ih =>
    rw [List.length_append, List.length_singleton]
    simp only [next]
    split
    · rw [Nat.succ_mul]
      omega
    · omega

/-- No place is ahead of another one by more than one turn. -/
theorem Turns.balanced (h : Turns a picks rounds c) (hp : p < a.limit) (hq : q < a.limit) :
    picks.count p ≤ picks.count q + 1 := by
  have hcount := h.count_eq hp
  have hcount' := h.count_eq hq
  simp only [passed] at hcount hcount'
  split at hcount <;> split at hcount <;> split at hcount' <;> split at hcount' <;> omega

/-- So many times the places that there are in the end give every place so many turns. -/
theorem Turns.le_count {turns : Nat} (h : Turns a picks rounds c) (hp : p < a.limit) (hlength : turns * c.limit ≤ picks.length) :
    turns ≤ picks.count p := by
  have hcount := h.count_eq hp
  have htotal := h.length_le
  have hlimit := Nat.lt_of_lt_of_le hp h.limit_le
  have hbound := c.bound
  have hpassed := a.passed_le p
  by_cases hbehind : a.index ≤ c.index
  · have hrounds : turns ≤ rounds := by
      by_contra hfew
      have hmul : (rounds + 1) * c.limit ≤ turns * c.limit := Nat.mul_le_mul_right _ (by omega)
      rw [Nat.succ_mul] at hmul
      omega
    have hpassed' : a.passed p ≤ c.passed p := by
      unfold passed
      split <;> split <;> omega
    omega
  · have hrounds : turns < rounds := by
      by_contra hfew
      have hmul : rounds * c.limit ≤ turns * c.limit := Nat.mul_le_mul_right _ (by omega)
      omega
    omega

end Cursor
