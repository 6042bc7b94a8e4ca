import Mathlib.Data.Nat.Basic

namespace aflnet

/-- The links of a queue entry. Entries are found by the order in which they were allocated. -/
structure linked_entry where
  index : Nat
  next : Option Nat
  next_100 : Option Nat
  deriving DecidableEq, Repr

/-- An entry as it is allocated, with both links NULL. -/
def linked_entry.fresh (index : Nat) : linked_entry where
  index := index
  next := none
  next_100 := none

/-- The queue as the global variables have it, with the marker `q_prev100` from which the next
link by hundreds is set. -/
structure Linked_queue where
  entries : List linked_entry
  queue : Option Nat
  queue_top : Option Nat
  q_prev100 : Option Nat
  queued_paths : Nat
  deriving DecidableEq, Repr

namespace Linked_queue

/-- The empty queue. -/
def start : Linked_queue where
  entries := []
  queue := none
  queue_top := none
  q_prev100 := none
  queued_paths := 0

/-- The new entry becomes the last one. The first one is also the start of the queue and of the
links by hundreds. -/
def append (s : Linked_queue) : Linked_queue :=
  let q := s.entries.length
  let entries := s.entries ++ [.fresh s.queued_paths]
  match s.queue_top with
  | some top => { s with
      entries := entries.modify top fun e => { e with next := some q }
      queue_top := some q
      queued_paths := s.queued_paths + 1 }
  | none => { s with
      entries
      queue := some q
      queue_top := some q
      q_prev100 := some q
      queued_paths := s.queued_paths + 1 }

/-- Each hundredth entry is linked from the marker and becomes the marker. The number of entries
is tested after the new one was counted. -/
def link_100 (s : Linked_queue) (q : Nat) : Option Linked_queue :=
  if s.queued_paths % 100 = 0 then
    s.q_prev100.map fun prev => { s with
      entries := s.entries.modify prev fun e => { e with next_100 := some q }
      q_prev100 := some q }
  else some s

def add_to_queue (s : Linked_queue) : Option Linked_queue := s.append.link_100 s.entries.length

/-- The queue after so many calls of `add_to_queue`. There is none if a link to NULL was
followed. -/
def build : Nat → Option Linked_queue
  | 0 => some start
  | n + 1 => build n >>= add_to_queue

/-- `while (tid >= 100) { target = target->next_100; tid -= 100; }`. It fails if it follows a
NULL link. -/
def seek_hundreds (s : Linked_queue) (target : Option Nat) (tid : Nat) : Option (Option Nat × Nat) :=
  if 100 ≤ tid then do
    let p ← target
    let e ← s.entries[p]?
    s.seek_hundreds e.next_100 (tid - 100)
  else some (target, tid)

/-- `while (tid--) target = target->next;`. The last link may be NULL as long as nothing is read
from it. -/
def seek_ones (s : Linked_queue) : Nat → Option Nat → Option (Option Nat)
  | 0, target => some target
  | tid + 1, target => do
    let p ← target
    let e ← s.entries[p]?
    s.seek_ones tid e.next

/-- What `fuzz_one` makes of the number of an entry. It fails if it follows a NULL link, while
the target that it ends at may be NULL. -/
def seek (s : Linked_queue) (tid : Nat) : Option (Option Nat) := do
  let (target, tid) ← s.seek_hundreds s.queue tid
  s.seek_ones tid target

/-- The entry that is found has the number that was asked for. -/
def Finds (s : Linked_queue) (tid : Nat) : Prop :=
  ∃ target e, s.seek tid = some (some target) ∧ s.entries[target]? = some e ∧ e.index = tid

end Linked_queue

/-- The entries that are linked by hundreds: the first one, and the last one of each hundred. -/
def marker (k : Nat) : Nat := 100 * k - 1

/-- The links of entry `i` of `n` entries, of which `m` count for the links by hundreds. -/
structure linked_entry.At (e : linked_entry) (i n m : Nat) : Prop where
  index : e.index = i
  next : i + 1 < n → e.next = some (i + 1)
  next_100 : ∀ k, i = marker k → 100 * (k + 1) ≤ m → e.next_100 = some (marker (k + 1))

namespace Linked_queue

/-- A queue of `n` entries, of which `m` count for the links by hundreds. The two differ only
between the two halves of `add_to_queue`. -/
structure Built (s : Linked_queue) (n m : Nat) : Prop where
  length : s.entries.length = n
  queued_paths : s.queued_paths = n
  queue : 0 < n → s.queue = some 0
  queue_top : s.queue_top = if n = 0 then none else some (n - 1)
  q_prev100 : 0 < n → s.q_prev100 = some (marker (m / 100))
  entry : ∀ i (e : linked_entry), s.entries[i]? = some e → e.At i n m

section build

variable {s : Linked_queue} {n : Nat}

theorem built_start : Built start 0 0 where
  length := rfl
  queued_paths := rfl
  queue := nofun
  queue_top := rfl
  q_prev100 := nofun
  entry := nofun

/-- The links of an entry that was just allocated: there are none. -/
theorem at_fresh (n : Nat) : (linked_entry.fresh n).At n (n + 1) n where
  index := rfl
  next := fun hlt => absurd hlt (Nat.lt_irrefl _)
  next_100 := by
    intro k hk hle
    rw [marker] at hk
    omega

/-- The last entry gets a link to the new one. -/
theorem Built.entry_append (h : s.Built n n) (hn : n ≠ 0) {i : Nat} {e : linked_entry}
    (he : ((s.entries ++ [linked_entry.fresh n]).modify (n - 1) fun e : linked_entry => { e with next := some n })[i]? = some e) :
    e.At i (n + 1) n := by
  rw [List.getElem?_modify] at he
  obtain ⟨old, hold, rfl⟩ := Option.map_eq_some_iff.mp he
  rcases Nat.lt_or_ge i n with hi | hi
  · rw [List.getElem?_append_left (h.length ▸ hi)] at hold
    have hbefore := h.entry i old hold
    split
    · rename_i htop
      exact ⟨hbefore.index, fun _ => congrArg some (by omega), hbefore.next_100⟩
    · rename_i htop
      exact ⟨hbefore.index, fun _ => hbefore.next (by omega), hbefore.next_100⟩
  · rw [List.getElem?_append_right (h.length ▸ hi), h.length] at hold
    obtain ⟨hi', rfl⟩ := List.getElem?_eq_some_iff.mp hold
    obtain rfl : i = n := Nat.le_antisymm (Nat.le_of_sub_eq_zero (Nat.lt_one_iff.mp hi')) hi
    rw [if_neg (by omega), List.getElem_singleton]
    exact at_fresh i

theorem Built.append (h : s.Built n n) : s.append.Built (n + 1) n := by
  unfold Linked_queue.append
  by_cases hn : n = 0
  · have hempty : s.entries = [] := List.eq_nil_of_length_eq_zero (h.length.trans hn)
    subst hn
    simp only [h.queue_top, if_true, h.queued_paths, hempty]
    refine ⟨rfl, rfl, fun _ => rfl, rfl, fun _ => rfl, fun i e he => ?_⟩
    obtain ⟨hi, rfl⟩ := List.getElem?_eq_some_iff.mp he
    obtain rfl : i = 0 := Nat.lt_one_iff.mp hi
    exact at_fresh 0
  · have hpos : 0 < n := Nat.pos_of_ne_zero hn
    simp only [h.queue_top, if_neg hn, h.length, h.queued_paths]
    exact ⟨by simp [h.length], rfl, fun _ => h.queue hpos, rfl, fun _ => h.q_prev100 hpos, fun _ _ => h.entry_append hn⟩

/-- Different numbers of hundreds have different markers. -/
theorem marker_injective {j k : Nat} (h : marker j = marker k) : j = k := by
  simp only [marker] at h
  omega

theorem Built.link_100 (h : s.Built (n + 1) n) : ∃ t, s.link_100 n = some t ∧ t.Built (n + 1) (n + 1) := by
  unfold Linked_queue.link_100
  rw [h.queued_paths]
  split
  · rename_i hhundred
    rw [h.q_prev100 (Nat.succ_pos n)]
    have hnext : marker ((n + 1) / 100) = n := by
      rw [marker]
      omega
    refine ⟨_, rfl, by simp [h.length], rfl, h.queue, h.queue_top, fun _ => by rw [hnext], fun i e he => ?_⟩
    rw [List.getElem?_modify] at he
    obtain ⟨old, hold, rfl⟩ := Option.map_eq_some_iff.mp he
    have hbefore := h.entry i old hold
    split
    · rename_i hprev
      refine ⟨hbefore.index, hbefore.next, fun k hk _ => congrArg some ?_⟩
      obtain rfl := marker_injective (hprev.trans hk)
      rw [marker]
      omega
    · rename_i hprev
      refine ⟨hbefore.index, hbefore.next, fun k hk hle => hbefore.next_100 k hk ?_⟩
      have hne : n / 100 ≠ k := fun heq => hprev (heq ▸ hk.symm)
      omega
  · rename_i hnot
    have hsame : (n + 1) / 100 = n / 100 := by omega
    refine ⟨s, rfl, h.length, h.queued_paths, h.queue, h.queue_top, fun hpos => hsame ▸ h.q_prev100 hpos, fun i e he => ?_⟩
    have hbefore := h.entry i e he
    exact ⟨hbefore.index, hbefore.next, fun k hk hle => hbefore.next_100 k hk (by omega)⟩

/-- Whatever the number of entries, their links are set. -/
theorem build_built (n : Nat) : ∃ s, build n = some s ∧ s.Built n n := by
  induction n with
  | zero => exact ⟨start, rfl, built_start⟩
  | succ n ih =>
    obtain ⟨s, hs, hbuilt⟩ := ih
    obtain ⟨t, ht, hnext⟩ := hbuilt.append.link_100
    refine ⟨t, ?_, hnext⟩
    rw [build, hs, Option.bind_eq_bind, Option.bind_some, add_to_queue, hbuilt.length, ht]

end build

section seek

variable {s : Linked_queue} {n tid k p : Nat}

/-- The entries of a queue that is built have the links they should have. -/
theorem Built.getElem? (h : s.Built n n) (hp : p < n) : ∃ e, s.entries[p]? = some e ∧ e.At p n n := by
  have hin : p < s.entries.length := h.length ▸ hp
  exact ⟨_, List.getElem?_eq_getElem hin, h.entry p _ (List.getElem?_eq_getElem hin)⟩

/-- The links by ones lead on as many steps as are asked for. -/
theorem Built.seek_ones (h : s.Built n n) (htid : p + tid < n) : s.seek_ones tid (some p) = some (some (p + tid)) := by
  induction tid generalizing p with
  | zero => rfl
  | succ tid ih =>
    obtain ⟨e, he, hlinks⟩ := h.getElem? (p := p) (by omega)
    have hnext := ih (p := p + 1) (by omega)
    simp only [Linked_queue.seek_ones, Option.bind_eq_bind, Option.bind_some, he, hlinks.next (by omega), hnext]
    rw [Nat.add_right_comm, Nat.add_assoc]

/-- The links by hundreds lead from marker to marker. -/
theorem Built.seek_hundreds (h : s.Built n n) (htid : 100 * k + tid < n) :
    s.seek_hundreds (some (marker k)) tid = some (some (marker (k + tid / 100)), tid % 100) := by
  induction tid using Nat.strongRecOn generalizing k with
  | ind tid ih =>
    rw [Linked_queue.seek_hundreds]
    split
    · rename_i hle
      obtain ⟨e, he, hlinks⟩ := h.getElem? (p := marker k) (by rw [marker]; omega)
      have hnext := ih (tid - 100) (by omega) (k := k + 1) (by omega)
      simp only [Option.bind_eq_bind, Option.bind_some, he, hlinks.next_100 k rfl (by omega), hnext]
      have hhops : k + 1 + (tid - 100) / 100 = k + tid / 100 := by omega
      rw [hhops, Nat.mod_eq_sub_mod hle]
    · rename_i hlt
      have hsmall : tid < 100 := Nat.lt_of_not_le hlt
      rw [Nat.div_eq_of_lt hsmall, Nat.mod_eq_of_lt hsmall, Nat.add_zero]

/-- No link that is followed is NULL, and the entry that is reached is the one before from the first hundred on. -/
theorem Built.seek (h : s.Built n n) (htid : tid < n) : s.seek tid = some (some (marker (tid / 100) + tid % 100)) := by
  have hstart : s.queue = some (marker 0) := h.queue (by omega)
  have hhundreds : s.seek_hundreds (some (marker 0)) tid = some (some (marker (0 + tid / 100)), tid % 100) :=
    h.seek_hundreds (by omega)
  rw [Nat.zero_add] at hhundreds
  have hones : s.seek_ones (tid % 100) (some (marker (tid / 100))) = some (some (marker (tid / 100) + tid % 100)) :=
    h.seek_ones (by rw [marker]; omega)
  simp only [Linked_queue.seek, Option.bind_eq_bind, Option.bind_some, hstart, hhundreds, hones]

/-- However many entries there are, no NULL link is followed, and the entry asked for is found
exactly in the first hundred. Links by hundreds lead one entry less far than they should, and so
does everything behind them. -/
theorem seek_finds_iff (htid : tid < n) :
    ∃ s, build n = some s ∧ (∃ target, s.seek tid = some (some target)) ∧ (s.Finds tid ↔ tid < 100) := by
  obtain ⟨s, hs, hbuilt⟩ := build_built n
  have hseek := hbuilt.seek htid
  refine ⟨s, hs, ⟨_, hseek⟩, ?_⟩
  obtain ⟨e, he, hlinks⟩ := hbuilt.getElem? (p := marker (tid / 100) + tid % 100) (by rw [marker]; omega)
  have hfinds : s.Finds tid ↔ marker (tid / 100) + tid % 100 = tid := by
    refine ⟨fun ⟨target, e', htarget, he', hindex⟩ => ?_, fun heq => ⟨_, e, hseek, he, hlinks.index.trans heq⟩⟩
    rw [hseek] at htarget
    cases htarget
    rw [he] at he'
    cases he'
    exact hlinks.index.symm.trans hindex
  rw [hfinds, marker]
  omega

/-- Two links by hundreds lead to entry 199, from where five steps are made. -/
theorem seek_among_250 : ∃ s, build 250 = some s ∧ (∃ target, s.seek 205 = some (some target)) ∧ (s.Finds 205 ↔ 205 < 100) :=
  seek_finds_iff (by decide)

/-- Of 101 entries, the one that is found for the last one is the one before it. -/
theorem seek_misses_last : ∃ s, build 101 = some s ∧ s.seek 100 = some (some 99) ∧ ¬ s.Finds 100 := by
  obtain ⟨s, hs, hbuilt⟩ := build_built 101
  have hseek : s.seek 100 = some (some 99) := hbuilt.seek (by decide)
  refine ⟨s, hs, hseek, fun ⟨target, e, htarget, he, hindex⟩ => ?_⟩
  rw [hseek] at htarget
  cases htarget
  have hwrong := (hbuilt.entry 99 e he).index.symm.trans hindex
  cases hwrong

end seek

end Linked_queue

end aflnet
