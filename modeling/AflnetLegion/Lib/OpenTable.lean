import Mathlib.Data.List.Nodup
import Mathlib.Data.List.Perm.Basic
import Mathlib.Data.List.Range

/-! Hash tables with open addressing: the buckets, the entries in them and the map that they stand for. -/

/-- A bucket with an entry, one that never had any, and one whose entry is gone. A search passes
the last of these and stops at the second. -/
inductive Bucket (α : Type) where
  | empty
  | deleted
  | live (entry : α)

namespace Bucket

variable {α : Type}

/-- The entry of a bucket, if it has one. An empty bucket and a deleted one differ only for a
search. -/
def pair : Bucket α → Option α
  | empty => none
  | deleted => none
  | live entry => some entry

/-- Whether a bucket counts as occupied, which one whose entry is gone still does. -/
def used : Bucket α → Bool
  | empty => false
  | deleted => true
  | live _ => true

variable {b : Bucket α} {a : α}

theorem pair_eq_some_iff : b.pair = some a ↔ b = live a := by
  cases b <;> simp [pair]

end Bucket

namespace OpenTable

variable {K V : Type} {n i j t : Nat} {b b' : Nat → Bucket (K × V)} {key k : K} {value : V} {entry : K × V}

/-- The entries in the first `n` buckets. -/
def contents (b : Nat → Bucket (K × V)) (n : Nat) : List (K × V) := (List.range n).filterMap fun i => (b i).pair

/-- The number of buckets that are not empty. -/
def occupied (b : Nat → Bucket (K × V)) (n : Nat) : Nat := (List.range n).countP fun i => (b i).used

theorem mem_contents_iff : entry ∈ contents b n ↔ ∃ i < n, b i = .live entry := by
  simp [contents, List.mem_filterMap, Bucket.pair_eq_some_iff]

/-- One bucket is brought to the front, which is how the lemmas on a single change are proved.
-/
theorem range_perm (hi : i < n) : (List.range n).Perm (i :: (List.range n).erase i) :=
  List.perm_cons_erase (List.mem_range.mpr hi)

theorem mem_erase_range (hj : j ∈ (List.range n).erase i) : j < n ∧ j ≠ i := by
  have hmem := (List.Nodup.mem_erase_iff (List.nodup_range (n := n))).mp hj
  exact ⟨List.mem_range.mp hmem.2, hmem.1⟩

/-- The buckets that follow have no entries. -/
theorem contents_extend {m : Nat} (hle : n ≤ m) (hsame : ∀ i < n, (b' i).pair = (b i).pair)
    (hnone : ∀ i, n ≤ i → i < m → (b' i).pair = none) : contents b' m = contents b n := by
  obtain ⟨d, rfl⟩ := Nat.exists_eq_add_of_le hle
  rw [contents, List.range_add, List.filterMap_append, contents]
  have hfirst : (List.range n).filterMap (fun i => (b' i).pair) = (List.range n).filterMap fun i => (b i).pair :=
    List.filterMap_congr fun i hi => hsame i (List.mem_range.mp hi)
  have hrest : ((List.range d).map (n + ·)).filterMap (fun i => (b' i).pair) = [] := by
    refine List.filterMap_eq_nil_iff.mpr fun i hi => ?_
    obtain ⟨r, hr, rfl⟩ := List.mem_map.mp hi
    exact hnone _ (Nat.le_add_right n r) (Nat.add_lt_add_left (List.mem_range.mp hr) n)
  rw [hfirst, hrest, List.append_nil]

/-- One bucket changes: what was in it makes room for what is in it. -/
theorem contents_replace (hi : i < n) (hother : ∀ j < n, j ≠ i → b' j = b j) :
    ((b i).pair.toList ++ contents b' n).Perm ((b' i).pair.toList ++ contents b n) := by
  have hsplit : ∀ c : Nat → Bucket (K × V), (contents c n).Perm
      ((c i).pair.toList ++ ((List.range n).erase i).filterMap fun j => (c j).pair) := by
    intro c
    refine ((range_perm hi).filterMap _).trans ?_
    cases hentry : (c i).pair with
    | none =>
      simp only [List.filterMap_cons, hentry, Option.toList_none, List.nil_append]
      exact List.Perm.refl _
    | some a =>
      simp only [List.filterMap_cons, hentry, Option.toList_some, List.cons_append, List.nil_append]
      exact List.Perm.refl _
  have hrest : ((List.range n).erase i).filterMap (fun j => (b' j).pair) =
      ((List.range n).erase i).filterMap fun j => (b j).pair := by
    refine List.filterMap_congr fun j hj => ?_
    obtain ⟨hjn, hji⟩ := mem_erase_range hj
    rw [hother j hjn hji]
  have hnew := (hsplit b').append_left (b i).pair.toList
  have hold := (hsplit b).append_left (b' i).pair.toList
  rw [hrest] at hnew
  refine hnew.trans (List.Perm.trans ?_ hold.symm)
  rw [← List.append_assoc, ← List.append_assoc]
  exact List.perm_append_comm.append_right _

/-- The number of occupied buckets changes by what the one bucket that is written contributes.
-/
theorem occupied_replace (hi : i < n) (hother : ∀ j < n, j ≠ i → b' j = b j) :
    occupied b' n + (b i).used.toNat = occupied b n + (b' i).used.toNat := by
  have hsplit : ∀ c : Nat → Bucket (K × V), occupied c n =
      ((List.range n).erase i).countP (fun j => (c j).used) + (c i).used.toNat := by
    intro c
    rw [occupied, (range_perm hi).countP_eq, List.countP_cons]
    cases (c i).used <;> rfl
  have hrest : ((List.range n).erase i).countP (fun j => (b' j).used) =
      ((List.range n).erase i).countP fun j => (b j).used := by
    refine List.countP_congr fun j hj => ?_
    obtain ⟨hjn, hji⟩ := mem_erase_range hj
    rw [hother j hjn hji]
  rw [hsplit b', hsplit b, hrest]
  omega

/-- Every entry occupies a bucket. Buckets whose entries are gone may come on top. -/
theorem length_contents_le_occupied : (contents b n).length ≤ occupied b n := by
  rw [contents, List.length_filterMap_eq_countP, occupied]
  refine List.countP_mono_left fun i _ hsome => ?_
  cases hb : b i with
  | empty => simp [hb, Bucket.pair] at hsome
  | deleted => rfl
  | live entry => rfl

/-- Nothing is deleted: every bucket that is not empty has an entry. -/
theorem length_contents_eq_occupied (h : ∀ i < n, b i ≠ .deleted) : (contents b n).length = occupied b n := by
  rw [contents, List.length_filterMap_eq_countP, occupied]
  refine List.countP_congr fun i hi => ?_
  cases hb : b i with
  | empty => simp [Bucket.pair, Bucket.used]
  | deleted => exact absurd hb (h i (List.mem_range.mp hi))
  | live entry => simp [Bucket.pair, Bucket.used]

/-- The entries that a table stands for as a map: each key has one entry, and the entries are
those of the map. -/
structure Represents (entries : List (K × V)) (map : K → Option V) : Prop where
  nodup : (entries.map Prod.fst).Nodup
  mem_iff : ∀ key value, (key, value) ∈ entries ↔ map key = some value

section maps

variable {entries entries' : List (K × V)} {map : K → Option V}

theorem represents_nil : Represents ([] : List (K × V)) fun _ => none where
  nodup := List.nodup_nil
  mem_iff := by simp

theorem Represents.perm (h : Represents entries map) (hperm : entries'.Perm entries) : Represents entries' map where
  nodup := (hperm.map Prod.fst).nodup_iff.mpr h.nodup
  mem_iff := fun key value => (hperm.mem_iff).trans (h.mem_iff key value)

theorem Represents.eq_none_iff (h : Represents entries map) : map key = none ↔ ∀ value, (key, value) ∉ entries := by
  constructor
  · intro hnone value hmem
    rw [h.mem_iff, hnone] at hmem
    cases hmem
  · intro hnot
    cases hmap : map key with
    | none => rfl
    | some value => exact absurd ((h.mem_iff key value).mpr hmap) (hnot value)

variable [DecidableEq K]

/-- An entry with a new key extends the map at that key. -/
theorem Represents.insert (h : Represents entries map) (hnew : map key = none) (value : V) :
    Represents ((key, value) :: entries) (Function.update map key (some value)) where
  nodup := by
    rw [List.map_cons, List.nodup_cons]
    refine ⟨fun hmem => ?_, h.nodup⟩
    obtain ⟨⟨other, held⟩, hentry, rfl⟩ := List.mem_map.mp hmem
    exact h.eq_none_iff.mp hnew held hentry
  mem_iff := by
    intro k v
    rw [List.mem_cons, h.mem_iff]
    by_cases hk : k = key
    · subst hk
      simp [hnew, eq_comm]
    · simp [hk]

/-- Without its first entry a table stands for the map without the key of that entry, as no
other entry has it. -/
theorem Represents.tail (h : Represents ((key, value) :: entries) map) : Represents entries (Function.update map key none) where
  nodup := (List.nodup_cons.mp h.nodup).2
  mem_iff := by
    intro k v
    have hnot : ∀ v, (key, v) ∉ entries := fun v hmem =>
      (List.nodup_cons.mp h.nodup).1 (List.mem_map.mpr ⟨(key, v), hmem, rfl⟩)
    by_cases hk : k = key
    · subst hk
      simpa using hnot v
    · have hmem := h.mem_iff k v
      simp only [List.mem_cons, Prod.mk.injEq, hk, false_and, false_or] at hmem
      simpa [hk] using hmem

theorem Represents.erase (h : Represents entries map) (hperm : ((key, value) :: entries').Perm entries) :
    Represents entries' (Function.update map key none) := (h.perm hperm).tail

/-- The entry of a key gets another value. -/
theorem Represents.modify (h : Represents entries map) {old : V} (hmem : (key, old) ∈ entries)
    (hperm : ((key, old) :: entries').Perm ((key, value) :: entries)) :
    Represents entries' (Function.update map key (some value)) := by
  obtain ⟨before, rest, hsplit⟩ := List.append_of_mem hmem
  have hout : entries.Perm ((key, old) :: (before ++ rest)) := hsplit ▸ List.perm_middle
  have hentries : entries'.Perm ((key, value) :: (before ++ rest)) :=
    List.Perm.cons_inv (hperm.trans ((hout.cons _).trans (List.Perm.swap _ _ _)))
  have hinsert := (h.erase hout.symm).insert (Function.update_self key none map) value
  rw [Function.update_idem] at hinsert
  exact hinsert.perm hentries

end maps

/-- A probe sequence stays within the buckets and comes to all of them in as many steps as there
are buckets. -/
structure Probes (probe : K → Nat → Nat) (n : Nat) : Prop where
  lt : ∀ key t, probe key t < n
  surj : ∀ key i, i < n → ∃ t < n, probe key t = i

/-- An entry is found on the way that its key takes: no bucket before it is empty. -/
def Reachable (probe : K → Nat → Nat) (b : Nat → Bucket (K × V)) (n : Nat) : Prop :=
  ∀ i < n, ∀ entry, b i = .live entry → ∃ t, probe entry.1 t = i ∧ ∀ u < t, (b (probe entry.1 u)).used = true

section search

variable {probe : K → Nat → Nat}

/-- In a table of empty buckets there is nothing to reach. -/
theorem reachable_of_empty (h : ∀ i < n, b i = .empty) : Reachable probe b n := by
  intro i hi entry hentry
  rw [h i hi] at hentry
  cases hentry

/-- One bucket changes. It may not become empty, and what is put there must be on the way of its key. -/
theorem Reachable.replace (h : Reachable probe b n) (hprobes : Probes probe n) (hother : ∀ j < n, j ≠ i → b' j = b j)
    (hused : (b i).used = true → (b' i).used = true)
    (hnew : ∀ entry, b' i = .live entry → ∃ t, probe entry.1 t = i ∧ ∀ u < t, (b (probe entry.1 u)).used = true) :
    Reachable probe b' n := by
  have hkeep : ∀ j < n, (b j).used = true → (b' j).used = true := by
    intro j hj hjused
    by_cases hji : j = i
    · subst hji
      exact hused hjused
    · rw [hother j hj hji]
      exact hjused
  intro j hj entry hentry
  have hway : ∃ t, probe entry.1 t = j ∧ ∀ u < t, (b (probe entry.1 u)).used = true := by
    by_cases hji : j = i
    · subst hji
      exact hnew entry hentry
    · rw [hother j hj hji] at hentry
      exact h j hj entry hentry
  obtain ⟨t, ht, hbefore⟩ := hway
  exact ⟨t, ht, fun u hu => hkeep _ (hprobes.lt _ u) (hbefore u hu)⟩

/-- A search that comes to an empty bucket has passed every bucket where the key could be. -/
theorem Reachable.not_mem (h : Reachable probe b n) (hempty : (b (probe key t)).used = false)
    (hpassed : ∀ u < t, ∀ value, b (probe key u) ≠ .live (key, value)) (value : V) : (key, value) ∉ contents b n := by
  intro hmem
  obtain ⟨i, hi, hlive⟩ := mem_contents_iff.mp hmem
  obtain ⟨s, hs, hbefore⟩ := h i hi _ hlive
  rcases Nat.lt_trichotomy s t with hlt | rfl | hgt
  · exact hpassed s hlt value (by rw [hs, hlive])
  · rw [hs, hlive] at hempty
    cases hempty
  · rw [hbefore t hgt] at hempty
    cases hempty

/-- A search ends before it has taken as many steps as there are buckets. -/
theorem exists_empty (hprobes : Probes probe n) (hroom : occupied b n < n) (key : K) :
    ∃ t < n, (b (probe key t)).used = false := by
  obtain ⟨i, hi, hempty⟩ : ∃ i < n, (b i).used = false := by
    by_contra hall
    push Not at hall
    have hcount : occupied b n = (List.range n).length :=
      List.countP_eq_length.mpr fun i hi => by simpa using hall i (List.mem_range.mp hi)
    rw [List.length_range] at hcount
    omega
  obtain ⟨t, ht, hti⟩ := hprobes.surj key i hi
  exact ⟨t, ht, by rw [hti, hempty]⟩

end search

end OpenTable
