import Mathlib.Algebra.Group.Nat.Defs
import Mathlib.Data.List.Nodup
import AflnetLegion.Dictionary.AutoExtras

namespace aflnet

/-- A token with its letters in lower case. -/
def lower (token : List UInt8) : List UInt8 := token.map tolower

/-- The comparison of two tokens of one size is that of their lower case. -/
theorem memcmp_nocase_eq_false_iff {m1 m2 : List UInt8} (h : m1.length = m2.length) :
    memcmp_nocase m1 m2 m2.length = false ↔ lower m1 = lower m2 := by
  induction m1 generalizing m2 with
  | nil =>
    rw [List.eq_nil_of_length_eq_zero h.symm]
    simp [memcmp_nocase]
  | cons a m1 ih =>
    cases m2 with
    | nil => simp at h
    | cons b m2 =>
      have hrest := ih (Nat.succ.inj h)
      simp only [lower] at hrest
      simp [memcmp_nocase, lower, hrest]

/-- Two tokens match if they are the same in lower case. The sizes are the same then. -/
theorem matches_token_iff (mem : List UInt8) (e : extra_data) : matches_token mem e = true ↔ lower e.data = lower mem := by
  unfold matches_token
  by_cases hlen : e.len = mem.length
  · simp [hlen, memcmp_nocase_eq_false_iff hlen]
  · refine iff_of_false (by simp [hlen]) fun heq => hlen ?_
    simpa [lower, extra_data.len] using congrArg List.length heq

/-- A single byte, repeated. -/
def IsRun (token : List UInt8) : Prop := ∃ byte, token = List.replicate token.length byte

/-- The loop over the bytes recognizes the tokens of a single byte. The empty token is left out,
as the loop reads the first byte anyway. -/
theorem is_run_iff {mem : List UInt8} (hne : mem ≠ []) : is_run mem = true ↔ IsRun mem := by
  cases mem with
  | nil => exact absurd rfl hne
  | cons first rest =>
    unfold is_run IsRun
    simp only [List.all_eq_true, decide_eq_true_eq, UInt8.xor_eq_zero_iff]
    constructor
    · intro hall
      exact ⟨first, List.eq_replicate_iff.mpr ⟨rfl, List.forall_mem_cons.mpr ⟨rfl, fun b hb => (hall b hb).symm⟩⟩⟩
    · rintro ⟨byte, heq⟩ b hb
      have hbytes := (List.eq_replicate_iff.mp heq).2
      rw [hbytes first (List.mem_cons_self ..), hbytes b (List.mem_cons_of_mem _ hb)]

/-- What holds of the tokens before and after they are sorted, whatever their use counts are:
there are not too many of them, no two differ only in the case of letters, and none is a run of
one byte. -/
structure Tokens (tokens : List (List UInt8)) : Prop where
  count : tokens.length ≤ MAX_AUTO_EXTRAS
  distinct : (tokens.map lower).Nodup
  sizes : ∀ token ∈ tokens, token.length ≤ MAX_AUTO_EXTRA
  runs : ∀ token ∈ tokens, ¬ IsRun token

namespace Tokens

variable {tokens sorted : List (List UInt8)} {mem : List UInt8}

theorem perm (h : Tokens tokens) (hperm : sorted.Perm tokens) : Tokens sorted where
  count := Nat.le_trans (Nat.le_of_eq hperm.length_eq) h.count
  distinct := (hperm.map _).nodup_iff.mpr h.distinct
  sizes := fun token htoken => h.sizes token (hperm.subset htoken)
  runs := fun token htoken => h.runs token (hperm.subset htoken)

/-- A new token that matches none of those there, and is neither too long nor a run of one byte.
-/
theorem append (h : Tokens tokens) (hroom : tokens.length < MAX_AUTO_EXTRAS) (hnew : lower mem ∉ tokens.map lower)
    (hlen : mem.length ≤ MAX_AUTO_EXTRA) (hrun : ¬ IsRun mem) : Tokens (tokens ++ [mem]) where
  count := by
    rw [List.length_append]
    exact hroom
  distinct := by
    rw [List.map_append]
    refine List.nodup_append.mpr ⟨h.distinct, List.nodup_singleton _, ?_⟩
    intro a ha b hb heq
    rw [heq, List.mem_singleton.mp hb] at ha
    exact hnew ha
  sizes := by
    intro token htoken
    rcases List.mem_append.mp htoken with hold | heq
    · exact h.sizes token hold
    · rw [List.mem_singleton.mp heq]
      exact hlen
  runs := by
    intro token htoken
    rcases List.mem_append.mp htoken with hold | heq
    · exact h.runs token hold
    · rw [List.mem_singleton.mp heq]
      exact hrun

/-- A token is replaced. -/
theorem set (h : Tokens tokens) (i : Nat) (hnew : lower mem ∉ tokens.map lower) (hlen : mem.length ≤ MAX_AUTO_EXTRA)
    (hrun : ¬ IsRun mem) : Tokens (tokens.set i mem) where
  count := by
    rw [List.length_set]
    exact h.count
  distinct := by
    rw [List.map_set]
    exact List.Nodup.set h.distinct hnew
  sizes := by
    intro token htoken
    rcases List.mem_or_eq_of_mem_set htoken with hold | rfl
    · exact h.sizes token hold
    · exact hlen
  runs := by
    intro token htoken
    rcases List.mem_or_eq_of_mem_set htoken with hold | rfl
    · exact h.runs token hold
    · exact hrun

end Tokens

variable {a_extras : List extra_data} {mem : List UInt8}

/-- A token that is recorded keeps what holds of all tokens: it is counted, appended, or put in
the place of another one. -/
theorem tokens_record_token (h : Tokens (a_extras.map extra_data.data)) (hlen : mem.length ≤ MAX_AUTO_EXTRA)
    (hrun : ¬ IsRun mem) (random : Nat) : Tokens ((record_token a_extras mem random).map extra_data.data) := by
  unfold record_token
  dsimp only
  split
  · have hdata : (a_extras.modify (a_extras.findIdx (matches_token mem)) extra_data.hit).map extra_data.data =
        a_extras.map extra_data.data := by
      refine List.ext_getElem? fun j => ?_
      rw [List.getElem?_map, List.getElem?_map, List.getElem?_modify]
      cases a_extras[j]? with
      | none => rfl
      | some e =>
        refine congrArg some ?_
        split <;> rfl
    rw [hdata]
    exact h
  · rename_i hnone
    have hnew : lower mem ∉ (a_extras.map extra_data.data).map lower := by
      intro hmem
      obtain ⟨token, htoken, heq⟩ := List.mem_map.mp hmem
      obtain ⟨e, he, rfl⟩ := List.mem_map.mp htoken
      exact hnone (List.findIdx_lt_length_of_exists ⟨e, he, (matches_token_iff mem e).mpr heq⟩)
    split
    · rename_i hroom
      rw [List.map_append]
      refine h.append ?_ hnew hlen hrun
      rwa [List.length_map]
    · rw [List.map_set]
      exact h.set _ hnew hlen hrun

theorem to_int_eq {value : Int} (hlow : -2147483648 ≤ value) (hhigh : value < 2147483648) : to_int value = value :=
  Int.bmod_eq_of_le hlow hhigh

/-- The comparison of use counts is right as long as the counts are below 2^31. Above it the
difference could wrap. -/
theorem compare_extras_use_d_eq {e f : extra_data} (he : e.hit_cnt.toNat < 2 ^ 31) (hf : f.hit_cnt.toNat < 2 ^ 31) :
    compare_extras_use_d e f = -(e.hit_cnt.toNat : Int) - -(f.hit_cnt.toNat : Int) := by
  rw [compare_extras_use_d, to_int_eq (by omega) (by omega)]
  omega

theorem compare_extras_len_eq {e f : extra_data} (he : e.len ≤ MAX_AUTO_EXTRA) (hf : f.len ≤ MAX_AUTO_EXTRA) :
    compare_extras_len e f = (e.len : Int) - f.len := by
  have hmax : MAX_AUTO_EXTRA = 32 := rfl
  exact to_int_eq (by omega) (by omega)

/-- The two sorts leave the tokens with the highest use counts in front, by size. -/
theorem sort_a_extras_spec (hsizes : ∀ e ∈ a_extras, e.len ≤ MAX_AUTO_EXTRA)
    (hhits : ∀ e ∈ a_extras, e.hit_cnt.toNat < 2 ^ 31) (lib : Qsort extra_data) :
    ∃ first rest, sort_a_extras lib a_extras = first ++ rest ∧ (first ++ rest).Perm a_extras ∧
      first.length = min USE_AUTO_EXTRAS a_extras.length ∧ first.Pairwise (fun e f => e.len ≤ f.len) ∧
        ∀ e ∈ first, ∀ f ∈ rest, f.hit_cnt ≤ e.hit_cnt := by
  obtain ⟨hperm, hused⟩ := lib.sorted_by_keys (fun e => -(e.hit_cnt.toNat : Int))
    fun e he f hf => compare_extras_use_d_eq (hhits e he) (hhits f hf)
  unfold sort_a_extras
  dsimp only
  rw [hperm.length_eq]
  generalize lib.qsort compare_extras_use_d a_extras = used at hperm hused
  generalize hcount : min USE_AUTO_EXTRAS a_extras.length = count
  have hfront : ∀ e ∈ used.take count, e.len ≤ MAX_AUTO_EXTRA := fun e he =>
    hsizes e (hperm.subset (List.mem_of_mem_take he))
  obtain ⟨hfirst, hsorted⟩ := lib.sorted_by_keys (fun e => (e.len : Int))
    fun e he f hf => compare_extras_len_eq (hfront e he) (hfront f hf)
  refine ⟨_, _, rfl, ?_, ?_, hsorted.imp Int.ofNat_le.mp, ?_⟩
  · refine List.Perm.trans (hfirst.append_right _) ?_
    rw [List.take_append_drop]
    exact hperm
  · rw [hfirst.length_eq, List.length_take, hperm.length_eq, ← hcount]
    omega
  · intro e he f hf
    rw [← List.take_append_drop count used, List.pairwise_append] at hused
    have hle := hused.2.2 e (hfirst.subset he) f hf
    rw [UInt32.le_iff_toNat_le]
    omega

/-- What the tokens that were found satisfy between two calls. The first ones, which are used,
have the highest counts and are sorted by size; among equal counts nothing is said about which
come first. -/
structure Ordered (a_extras : List extra_data) : Prop where
  count : a_extras.length ≤ MAX_AUTO_EXTRAS
  distinct : a_extras.Pairwise fun e f => lower e.data ≠ lower f.data
  runs : ∀ e ∈ a_extras, ¬ IsRun e.data
  sizes : (a_extras.take (min USE_AUTO_EXTRAS a_extras.length)).Pairwise fun e f => e.len ≤ f.len
  used : ∀ e ∈ a_extras.take (min USE_AUTO_EXTRAS a_extras.length),
    ∀ f ∈ a_extras.drop (min USE_AUTO_EXTRAS a_extras.length), f.hit_cnt ≤ e.hit_cnt

/-- The runs of the dictionary: it gets tokens of the allowed sizes, and no use count
reaches 2^31. -/
inductive Dictionary.Run (lib : Qsort extra_data) : Dictionary → Prop where
  | start (extras : List extra_data) : Run lib { extras, a_extras := [], auto_changed := false }
  | step {d : Dictionary} (mem : List UInt8) (random : Nat) : Run lib d → MIN_AUTO_EXTRA ≤ mem.length →
      mem.length ≤ MAX_AUTO_EXTRA → (∀ e ∈ record_token d.a_extras mem random, e.hit_cnt.toNat < 2 ^ 31) →
      Run lib (maybe_add_auto lib random mem d)

/-- The invariant of the runs. It contains what is claimed of the tokens and the sizes that the
sort relies on. -/
structure Dictionary.Sound (d : Dictionary) : Prop where
  tokens : Tokens (d.a_extras.map extra_data.data)
  ordered : Ordered d.a_extras

theorem Dictionary.Sound.step {d : Dictionary} (h : d.Sound) (random : Nat) (hmin : MIN_AUTO_EXTRA ≤ mem.length)
    (hmax : mem.length ≤ MAX_AUTO_EXTRA) (hhits : ∀ e ∈ record_token d.a_extras mem random, e.hit_cnt.toNat < 2 ^ 31)
    (lib : Qsort extra_data) : (maybe_add_auto lib random mem d).Sound := by
  unfold maybe_add_auto
  split
  · exact h
  · rename_i hskip
    have hne : mem ≠ [] := by
      rintro rfl
      exact absurd hmin (by decide)
    have hrun : ¬ IsRun mem := by
      rw [← is_run_iff hne]
      intro hrun
      apply hskip
      simp [skips_token, hrun]
    have htokens := tokens_record_token h.tokens hmax hrun random
    have hsizes : ∀ e ∈ record_token d.a_extras mem random, e.len ≤ MAX_AUTO_EXTRA := fun e he =>
      htokens.sizes e.data (List.mem_map_of_mem he)
    obtain ⟨first, rest, heq, hperm, hlength, hsorted, hused⟩ := sort_a_extras_spec hsizes hhits lib
    have hsorted_tokens := htokens.perm (hperm.map extra_data.data)
    have hcount : min USE_AUTO_EXTRAS (first ++ rest).length = first.length := by rw [hperm.length_eq, hlength]
    rw [heq]
    refine ⟨hsorted_tokens, ?_, ?_, ?_, ?_, ?_⟩
    · simpa using hsorted_tokens.count
    · have hdistinct := hsorted_tokens.distinct
      rw [List.map_map] at hdistinct
      exact List.pairwise_map.mp hdistinct
    · exact fun e he => hsorted_tokens.runs e.data (List.mem_map_of_mem he)
    · rw [hcount, List.take_left]
      exact hsorted
    · rw [hcount, List.take_left, List.drop_left]
      exact hused

theorem Dictionary.Run.sound {lib : Qsort extra_data} {d : Dictionary} (h : Run lib d) : d.Sound := by
  induction h with
  | start extras =>
    refine ⟨⟨Nat.zero_le _, List.nodup_nil, nofun, nofun⟩, Nat.zero_le _, .nil, nofun, .nil, nofun⟩
  | step mem random _ hmin hmax hhits ih => exact ih.step random hmin hmax hhits _

/-- The tokens found are in order after any calls of `maybe_add_auto`: no two are the same up to
case, none is a run of one byte, and those in use have the highest counts and are sorted by
size. Nothing is assumed of the sort but that it sorts. -/
theorem auto_extras_ordered {lib : Qsort extra_data} {d : Dictionary} (h : d.Run lib) : Ordered d.a_extras :=
  h.sound.ordered

/-- What is found in an input: `GET`, the longer `POST`, and `get`, which is taken for the first one again. -/
def found_tokens : List (List UInt8) := [[71, 69, 84], [80, 79, 83, 84], [103, 101, 116]]

def found_dictionary : Dictionary :=
  found_tokens.foldl (fun d mem => maybe_add_auto (Qsort.stable _) 0 mem d) { extras := [], a_extras := [], auto_changed := false }

theorem auto_extras_of_three_tokens : Ordered found_dictionary.a_extras := by
  refine auto_extras_ordered (.step [103, 101, 116] 0 (.step [80, 79, 83, 84] 0 (.step [71, 69, 84] 0 (.start []) ?_ ?_ ?_) ?_ ?_ ?_)
    ?_ ?_ ?_) <;> decide

example : found_dictionary.a_extras.map extra_data.hit_cnt = [1, 0] := by decide

end aflnet
