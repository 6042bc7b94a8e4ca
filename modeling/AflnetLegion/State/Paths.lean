import AflnetLegion.Hash.Run
import AflnetLegion.State.Novelty

/-! The state sequences that have been seen, in a hash table as `is_state_sequence_interesting` keeps them. -/

namespace aflnet

/-- The set `khs_ipsm_paths`, whose hash function is the identity. -/
abbrev hs32 : Type := kh_t UInt32 Unit

/-- The fuzzer of these runs never runs out of memory. -/
def grant_all : Grant := { flags := true, keys := true, vals := true, shrunk_keys := true, shrunk_vals := true }

/-- `is_state_sequence_interesting` on the hash table: the key is looked up, and put if it is
not there. The allocations of the table are granted. -/
def look_up_sequence (khs_ipsm_paths : hs32) (state_sequence : List UInt32) : Option (Bool × hs32) := do
  let k ← kh_get id khs_ipsm_paths (hash_key state_sequence)
  if k ≠ khs_ipsm_paths.n_buckets then some (false, khs_ipsm_paths)
  else
    let (_, _, khs_ipsm_paths) ← kh_put id grant_all khs_ipsm_paths (hash_key state_sequence)
    some (true, khs_ipsm_paths)

/-- One state sequence after the other, and whether each is new. The table goes from one lookup
to the next. -/
def look_up_sequences : hs32 → List (List UInt32) → Option (List Bool × hs32)
  | khs_ipsm_paths, [] => some ([], khs_ipsm_paths)
  | khs_ipsm_paths, state_sequence :: state_sequences => do
    let (interesting, khs_ipsm_paths) ← look_up_sequence khs_ipsm_paths state_sequence
    let (rest, khs_ipsm_paths) ← look_up_sequences khs_ipsm_paths state_sequences
    some (interesting :: rest, khs_ipsm_paths)

/-- The same with the list of the keys, which is what the table stands for. -/
def interesting_sequences : List UInt32 → List (List UInt32) → List Bool
  | _, [] => []
  | paths, state_sequence :: state_sequences =>
    (is_state_sequence_interesting paths state_sequence).1 ::
      interesting_sequences (is_state_sequence_interesting paths state_sequence).2 state_sequences

/-- The set of the keys in a list. -/
def path_set (paths : List UInt32) (key : UInt32) : Option Unit := if key ∈ paths then some () else none

/-- The table has the keys of the list, and the list has each of them once. -/
structure SamePaths (h : hs32) (paths : List UInt32) : Prop where
  holds : h.Holds id (path_set paths)
  nodup : paths.Nodup

variable {h : hs32} {paths : List UInt32}

theorem update_path_set (paths : List UInt32) (key : UInt32) :
    Function.update (path_set paths) key (some ()) = path_set (key :: paths) := by
  funext k
  by_cases hk : k = key
  · subst hk
    simp [path_set]
  · simp [path_set, hk]

theorem SamePaths.size_eq (hsame : SamePaths h paths) : h.size = paths.length := by
  obtain ⟨hholds, hnodup⟩ := hsame
  have hperm : (h.entries.map Prod.fst).Perm paths := by
    refine (List.perm_ext_iff_of_nodup hholds.represents.nodup hnodup).mpr fun key => ?_
    have hmem := hholds.represents.mem_iff key ()
    rw [path_set] at hmem
    constructor
    · intro hkey
      obtain ⟨⟨_, ⟨⟩⟩, hentry, rfl⟩ := List.mem_map.mp hkey
      by_contra hnot
      rw [hmem, if_neg hnot] at hentry
      cases hentry
    · intro hkey
      exact List.mem_map.mpr ⟨(key, ()), hmem.mpr (if_pos hkey), rfl⟩
  rw [hholds.valid.size_eq, ← hperm.length_eq, List.length_map]

/-- One lookup gives the same answer on the table as on the list, and leaves the same keys. -/
theorem look_up_sequence_eq (hsame : SamePaths h paths) (hroom : paths.length < 2 ^ 30) (state_sequence : List UInt32) :
    ∃ h', look_up_sequence h state_sequence = some ((is_state_sequence_interesting paths state_sequence).1, h') ∧
      SamePaths h' (is_state_sequence_interesting paths state_sequence).2 := by
  obtain ⟨k, hget, hfound⟩ := hsame.holds.kh_get (hash_key state_sequence)
  rw [look_up_sequence, hget, is_state_sequence_interesting]
  simp only [Option.bind_eq_bind, Option.bind_some]
  by_cases hmem : hash_key state_sequence ∈ paths
  · have hk : k ≠ h.n_buckets := by
      rcases hfound with ⟨_, hnone⟩ | ⟨hlt, _⟩
      · rw [path_set, if_pos hmem] at hnone
        cases hnone
      · exact Nat.ne_of_lt hlt
    rw [if_pos hk, if_pos hmem]
    exact ⟨h, rfl, hsame⟩
  · have hk : k = h.n_buckets := by
      rcases hfound with ⟨hend, _⟩ | ⟨_, _, hsome⟩
      · exact hend
      · rw [path_set, if_neg hmem] at hsome
        cases hsome
    obtain ⟨x, ret, h', hput, _, hcases⟩ := hsame.holds.kh_put (by rw [hsame.size_eq]; exact hroom) grant_all (hash_key state_sequence)
    rw [if_neg (not_not.mpr hk), if_neg hmem, hput]
    refine ⟨h', rfl, ?_, List.nodup_cons.mpr ⟨hmem, hsame.nodup⟩⟩
    rcases hcases with ⟨_, hfailed, _⟩ | ⟨_, _, _, hholds⟩
    · exact absurd ⟨rfl, rfl, rfl⟩ hfailed
    · rw [← update_path_set]
      exact hholds

theorem look_up_sequences_eq (hsame : SamePaths h paths) (state_sequences : List (List UInt32))
    (hroom : paths.length + state_sequences.length ≤ 2 ^ 30) :
    ∃ h', look_up_sequences h state_sequences = some (interesting_sequences paths state_sequences, h') ∧
      h'.size = h.size + (interesting_sequences paths state_sequences).count true := by
  induction state_sequences generalizing h paths with
  | nil => exact ⟨h, rfl, rfl⟩
  | cons state_sequence state_sequences ih =>
    rw [List.length_cons] at hroom
    obtain ⟨h₁, hfirst, hsame₁⟩ := look_up_sequence_eq hsame (by omega) state_sequence
    have hgrown : (is_state_sequence_interesting paths state_sequence).2.length =
        paths.length + (is_state_sequence_interesting paths state_sequence).1.toNat := by
      rw [is_state_sequence_interesting]
      split <;> rfl
    have hone := Bool.toNat_le (is_state_sequence_interesting paths state_sequence).1
    obtain ⟨h₂, hrest, hsize⟩ := ih hsame₁ (by omega)
    refine ⟨h₂, ?_, ?_⟩
    · rw [look_up_sequences, hfirst]
      simp only [Option.bind_eq_bind, Option.bind_some, hrest]
      rfl
    · rw [hsize, hsame₁.size_eq, hgrown, hsame.size_eq, interesting_sequences, List.count_cons]
      cases (is_state_sequence_interesting paths state_sequence).1
      · rfl
      · exact Nat.add_right_comm _ _ _

/-- The hash table tells the new state sequences from the others as the list of all keys does,
and counts the new ones. Every allocation is granted, and the bound on their number keeps the
table below its largest size. -/
theorem look_up_sequences_refines (state_sequences : List (List UInt32)) (hroom : state_sequences.length ≤ 2 ^ 30) :
    ∃ h, look_up_sequences (kh_init UInt32 Unit) state_sequences = some (interesting_sequences [] state_sequences, h) ∧
      h.size = (interesting_sequences [] state_sequences).count true := by
  have hstart : SamePaths (kh_init UInt32 Unit) [] := ⟨holds_kh_init id, List.nodup_nil⟩
  obtain ⟨h, hrun, hsize⟩ := look_up_sequences_eq hstart state_sequences (by rw [List.length_nil, Nat.zero_add]; exact hroom)
  exact ⟨h, hrun, hsize.trans (Nat.zero_add _)⟩

/-- The third sequence is the first one again, and is not new. -/
theorem look_up_of_three_sequences :
    ∃ h, look_up_sequences (kh_init UInt32 Unit) [[0, 220], [0, 220, 331], [0, 220]] =
        some (interesting_sequences [] [[0, 220], [0, 220, 331], [0, 220]], h) ∧
      h.size = (interesting_sequences [] [[0, 220], [0, 220, 331], [0, 220]]).count true :=
  look_up_sequences_refines [[0, 220], [0, 220, 331], [0, 220]] (by decide)

end aflnet
