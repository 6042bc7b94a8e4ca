import AflnetLegion.Hash.Table

namespace aflnet

variable {K V : Type} {hash : K → UInt32} {key : K} {flags : List (BitVec 32)} {keys : List K} {vals : List V} {i k n t T site : Nat}

/-- Masking with one less than a power of two is a remainder. -/
theorem and_mask (i k : Nat) : i &&& (2 ^ k - 1) = i % 2 ^ k := Nat.and_two_pow_sub_one_eq_mod i k

theorem probe_of_zero (key : K) : probe_of hash (2 ^ k) key 0 = (hash key).toNat &&& (2 ^ k - 1) := by
  rw [and_mask, probe_of, Probing.probe_zero]

/-- The step that the loops take is the next one of the probe sequence. -/
theorem next_bucket_probe_of (hk : k ≤ 32) (key : K) (t : Nat) :
    next_bucket (2 ^ k - 1) (probe_of hash (2 ^ k) key t) (t + 1) = probe_of hash (2 ^ k) key (t + 1) := by
  rw [next_bucket, and_mask, Nat.mod_mod_of_dvd _ (Nat.pow_dvd_pow 2 hk), probe_of, probe_of, Probing.probe_succ]

/-- The probe sequence of every key visits all buckets of a table whose size is a power of two.
-/
theorem probes_probe_of (hash : K → UInt32) (k : Nat) : OpenTable.Probes (probe_of hash (2 ^ k)) (2 ^ k) where
  lt := fun _ t => Probing.probe_lt (Nat.two_pow_pos k) t
  surj := fun _ _ hi => Probing.probe_surj hi

/-- Before the first bucket would come again, the search is over. -/
theorem probe_of_ne_first (hpos : 0 < t) (ht : t < 2 ^ k) : probe_of hash (2 ^ k) key t ≠ probe_of hash (2 ^ k) key 0 := by
  have hdouble : 2 ^ (k + 1) = 2 * 2 ^ k := by rw [Nat.pow_succ, Nat.mul_comm]
  rw [probe_of, probe_of, Probing.probe_zero]
  exact Probing.probe_ne_start hpos (by omega)

/-- The next bucket is the first one, or the search has not gone round yet. -/
theorem next_or_first {h : kh_t K V} {k t : Nat} (hpow : h.n_buckets = 2 ^ k) (hk : k ≤ 31) (ht : t + 1 < 2 * h.n_buckets)
    (hash : K → UInt32) (key : K) : next_bucket (h.n_buckets - 1) (probe_of hash h.n_buckets key t) (t + 1) = probe_of hash h.n_buckets key (t + 1) ∧
      (probe_of hash h.n_buckets key (t + 1) ≠ probe_of hash h.n_buckets key 0 → t + 1 + 1 < 2 * h.n_buckets) := by
  constructor
  · rw [hpow]
    exact next_bucket_probe_of (by omega) key t
  · intro hne
    by_contra hge
    have hlast : t + 1 = 2 * h.n_buckets - 1 := by omega
    rw [hlast, probe_of, probe_of, Probing.probe_return _ _ (by omega), Probing.probe_zero] at hne
    exact hne rfl

section loops

variable [DecidableEq K] [Inhabited K] {h : kh_t K V}

/-- Where a search stops: at the first bucket of its sequence that is empty or has the key. All
buckets before it are passed. -/
structure StopsAt (hash : K → UInt32) (h : kh_t K V) (key : K) (T : Nat) : Prop where
  lt : T < h.n_buckets
  stop : h.passes key (probe_of hash h.n_buckets key T) = false
  passed : ∀ t < T, h.passes key (probe_of hash h.n_buckets key t) = true

/-- The loop of `kh_get` comes to the place where the search stops. It says whether that bucket
has an entry. -/
theorem get_loop_eq (hpow : h.n_buckets = 2 ^ k) (hk : k ≤ 31) (hstops : StopsAt hash h key T) (ht : t ≤ T) {fuel : Nat} (hfuel : T - t < fuel) :
    get_loop h key (h.n_buckets - 1) (probe_of hash h.n_buckets key 0) fuel (probe_of hash h.n_buckets key t) t =
      some (if ac_iseither h.flags (probe_of hash h.n_buckets key T) then h.n_buckets else probe_of hash h.n_buckets key T) := by
  have hlt := hstops.lt
  induction fuel generalizing t with
  | zero => omega
  | succ fuel ih =>
    rw [get_loop]
    rcases Nat.eq_or_lt_of_le ht with rfl | hlater
    · rw [hstops.stop, if_neg Bool.false_ne_true]
    · have hnext : next_bucket (h.n_buckets - 1) (probe_of hash h.n_buckets key t) (t + 1) = probe_of hash h.n_buckets key (t + 1) := by
        rw [hpow]
        exact next_bucket_probe_of (by omega) key t
      have hne : probe_of hash h.n_buckets key (t + 1) ≠ probe_of hash h.n_buckets key 0 := by
        rw [hpow] at hlt ⊢
        exact probe_of_ne_first (Nat.succ_pos t) (by omega)
      rw [hstops.passed t hlater, if_pos rfl, hnext, if_neg hne]
      exact ih hlater (by omega)

/-- The loop ends without any assumption on the flags, as it comes back to the first bucket at
the latest. -/
theorem get_loop_ends (hpow : h.n_buckets = 2 ^ k) (hk : k ≤ 31) (ht : t + 1 < 2 * h.n_buckets) (fuel : Nat)
    (hfuel : 2 * h.n_buckets < t + 1 + fuel + 1) (hash : K → UInt32) (key : K) :
    ∃ x, get_loop h key (h.n_buckets - 1) (probe_of hash h.n_buckets key 0) fuel (probe_of hash h.n_buckets key t) t = some x ∧
      ((∀ i < h.n_buckets, h.passes key i = true) → x = h.n_buckets) := by
  induction fuel generalizing t with
  | zero => omega
  | succ fuel ih =>
    have hlt : probe_of hash h.n_buckets key t < h.n_buckets := by
      rw [hpow]
      exact (probes_probe_of hash k).lt key t
    rw [get_loop]
    cases hpass : h.passes key (probe_of hash h.n_buckets key t) with
    | false =>
      refine ⟨_, if_neg Bool.false_ne_true, fun hall => ?_⟩
      rw [hall _ hlt] at hpass
      cases hpass
    | true =>
      obtain ⟨hnext, hround⟩ := next_or_first hpow hk ht hash key
      rw [if_pos rfl, hnext]
      by_cases hlast : probe_of hash h.n_buckets key (t + 1) = probe_of hash h.n_buckets key 0
      · exact ⟨_, if_pos hlast, fun _ => rfl⟩
      · rw [if_neg hlast]
        exact ih (hround hlast) (by omega)

theorem put_loop_ends (hpow : h.n_buckets = 2 ^ k) (hk : k ≤ 31) (ht : t + 1 < 2 * h.n_buckets) (fuel : Nat)
    (hfuel : 2 * h.n_buckets < t + 1 + fuel + 1) (hash : K → UInt32) (key : K) (site : Nat) :
    (put_loop h key (h.n_buckets - 1) (probe_of hash h.n_buckets key 0) fuel (probe_of hash h.n_buckets key t) t site).isSome = true := by
  induction fuel generalizing t site with
  | zero => omega
  | succ fuel ih =>
    rw [put_loop]
    cases hpass : h.passes key (probe_of hash h.n_buckets key t) with
    | false => rfl
    | true =>
      obtain ⟨hnext, hround⟩ := next_or_first hpow hk ht hash key
      rw [if_pos rfl, hnext]
      by_cases hlast : probe_of hash h.n_buckets key (t + 1) = probe_of hash h.n_buckets key 0
      · rw [hlast]
        simp only [if_true]
        rfl
      · simp only [if_neg hlast]
        exact ih (hround hlast) (by omega) _

/-- Every search ends, whatever the flags and the keys are, and `kh_get` finds nothing in a
table that is full of other keys. The steps 1, 2, 3, ... of khash come to all buckets because
their number is a power of two. -/
theorem search_ends (hpow : h.n_buckets = 2 ^ k) (hk : k ≤ 31) (hash : K → UInt32) (key : K) :
    (find_site hash h key).isSome = true ∧
      ∃ x, kh_get hash h key = some x ∧ ((∀ i < h.n_buckets, h.passes key i = true) → x = h.n_buckets) := by
  have hpos := Nat.two_pow_pos k
  have hfirst : (hash key).toNat &&& (h.n_buckets - 1) = probe_of hash h.n_buckets key 0 := by rw [hpow, probe_of_zero]
  constructor
  · have hloop := put_loop_ends hpow hk (show 0 + 1 < 2 * h.n_buckets by omega) (2 * h.n_buckets) (by omega) hash key h.n_buckets
    obtain ⟨⟨x, i, site⟩, hrun⟩ := Option.isSome_iff_exists.mp hloop
    rw [find_site]
    simp only [hfirst, hrun, Option.bind_eq_bind, Option.bind_some]
    split
    · rfl
    · split
      · split <;> rfl
      · rfl
  · obtain ⟨x, hrun, hfull⟩ := get_loop_ends hpow hk (show 0 + 1 < 2 * h.n_buckets by omega) (2 * h.n_buckets) (by omega) hash key
    refine ⟨x, ?_, hfull⟩
    rw [kh_get, if_pos (by omega)]
    simp only [hfirst]
    exact hrun

/-- A table of four buckets that are all in use, and a key that is not there: the search goes
round and ends. -/
theorem search_ends_in_full_table :
    let full : kh_t UInt32 Unit := {
      n_buckets := 4, size := 4, n_occupied := 4, upper_bound := 3, flags := [0], keys := [0, 1, 2, 3], vals := [] }
    (find_site id full 4).isSome = true ∧
      ∃ x, kh_get id full 4 = some x ∧ ((∀ i < full.n_buckets, full.passes 4 i = true) → x = full.n_buckets) := by
  intro full
  exact search_ends (k := 2) (by decide) (by decide) id 4

end loops

variable [Inhabited K] [Inhabited V]

/-- A bucket counts as occupied unless its flag says that it is empty. -/
theorem used_bucket (flags : List (BitVec 32)) (keys : List K) (vals : List V) (i : Nat) :
    (bucket flags keys vals i).used = !ac_isempty flags i := by
  rw [bucket]
  cases ac_isempty flags i with
  | true => rfl
  | false => cases ac_isdel flags i <;> rfl

/-- A live bucket has neither flag, and its entry is what is in the arrays. -/
theorem bucket_eq_live_iff {entry : K × V} : bucket flags keys vals i = .live entry ↔
    ac_isempty flags i = false ∧ ac_isdel flags i = false ∧ entry = (keys.getD i default, vals.getD i default) := by
  rw [bucket]
  cases ac_isempty flags i <;> cases ac_isdel flags i <;> simp [eq_comm]

theorem ac_iseither_of_live {entry : K × V} (h : bucket flags keys vals i = .live entry) : ac_iseither flags i = false := by
  obtain ⟨hempty, hdel, _⟩ := bucket_eq_live_iff.mp h
  rw [ac_iseither_eq, hempty, hdel]
  rfl

variable [DecidableEq K] {h : kh_t K V}

/-- A search passes the deleted buckets and those with other keys. -/
theorem passes_iff : h.passes key i = true ↔ (h.bucket i).used = true ∧ ∀ value, h.bucket i ≠ .live (key, value) := by
  rw [kh_t.passes, kh_t.bucket, used_bucket, Bool.and_eq_true, and_congr_right_iff]
  intro hused
  have hempty : ac_isempty h.flags i = false := by simpa using hused
  cases hdel : ac_isdel h.flags i with
  | true => simp [bucket_eq_live_iff, hdel]
  | false =>
    rw [Bool.false_or, decide_eq_true_iff]
    constructor
    · intro hne value hlive
      exact hne (congrArg Prod.fst (bucket_eq_live_iff.mp hlive).2.2).symm
    · rintro hnot rfl
      exact hnot _ (bucket_eq_live_iff.mpr ⟨hempty, hdel, rfl⟩)

/-- In a valid table that has buckets the search for every key stops: at the key, or at the
first empty bucket. -/
theorem kh_t.Valid.exists_stops (hvalid : h.Valid hash) (hn : h.n_buckets ≠ 0) (key : K) : ∃ T, StopsAt hash h key T := by
  obtain hzero | ⟨k, hk, _, hpow⟩ := hvalid.buckets
  · exact absurd hzero hn
  have hroom : OpenTable.occupied h.bucket h.n_buckets < h.n_buckets := by
    have hupper := hash_upper_lt (hpow ▸ four_le_pow hk)
    have hle := hvalid.n_occupied_le
    rw [hvalid.upper_bound_eq, hvalid.n_occupied_eq] at hle
    omega
  have hprobes : OpenTable.Probes (probe_of hash h.n_buckets) h.n_buckets := hpow ▸ probes_probe_of hash k
  obtain ⟨t, ht, hempty⟩ := OpenTable.exists_empty hprobes hroom key
  have hstop : ∃ t, h.passes key (probe_of hash h.n_buckets key t) = false := by
    refine ⟨t, Bool.eq_false_iff.mpr fun hpass => ?_⟩
    rw [(passes_iff.mp hpass).1] at hempty
    cases hempty
  refine ⟨Nat.find hstop, ?_, Nat.find_spec hstop, fun u hu => ?_⟩
  · refine Nat.lt_of_le_of_lt (Nat.find_min' hstop (m := t) ?_) ht
    refine Bool.eq_false_iff.mpr fun hpass => ?_
    rw [(passes_iff.mp hpass).1] at hempty
    cases hempty
  · simpa using Nat.find_min hstop hu

/-- What is in the bucket where a search stops. -/
theorem StopsAt.cases (hstops : StopsAt hash h key T) :
    h.bucket (probe_of hash h.n_buckets key T) = .empty ∨ ∃ value, h.bucket (probe_of hash h.n_buckets key T) = .live (key, value) := by
  have hstop : ¬ _ := fun hpass => Bool.eq_false_iff.mp hstops.stop (passes_iff.mpr hpass)
  cases hbucket : h.bucket (probe_of hash h.n_buckets key T) with
  | empty => exact Or.inl rfl
  | deleted => exact absurd ⟨by rw [hbucket]; rfl, fun value => by rw [hbucket]; nofun⟩ hstop
  | live entry =>
    by_contra hnot
    refine hstop ⟨by rw [hbucket]; rfl, fun value hlive => hnot (Or.inr ⟨value, ?_⟩)⟩
    rw [← hlive, hbucket]

/-- What `kh_get` returns: the number of buckets for a key that has no entry, and otherwise a
bucket in which the key is live. -/
inductive GetResult (hash : K → UInt32) (h : kh_t K V) (key : K) : Nat → Prop where
  | absent (hnot : ∀ value, (key, value) ∉ h.entries) : GetResult hash h key h.n_buckets
  | present {x : Nat} (hx : x < h.n_buckets) (hlive : h.bucket x = .live (key, kh_value h x)) : GetResult hash h key x

/-- `kh_get` returns the bucket of the key if there is one. Otherwise it returns the number of
buckets. -/
theorem kh_t.Valid.kh_get (hvalid : h.Valid hash) (key : K) : ∃ x, kh_get hash h key = some x ∧ GetResult hash h key x := by
  by_cases hn : h.n_buckets = 0
  · refine ⟨h.n_buckets, ?_, .absent fun value hmem => ?_⟩
    · rw [aflnet.kh_get, if_neg (not_not.mpr hn), hn]
    · obtain ⟨i, hi, _⟩ := OpenTable.mem_contents_iff.mp hmem
      omega
  obtain hzero | ⟨k, _, hk, hpow⟩ := hvalid.buckets
  · exact absurd hzero hn
  obtain ⟨T, hstops⟩ := hvalid.exists_stops hn key
  have hlt := hstops.lt
  have hfirst : (hash key).toNat &&& (h.n_buckets - 1) = probe_of hash h.n_buckets key 0 := by rw [hpow, probe_of_zero]
  have hget := get_loop_eq hpow hk hstops (Nat.zero_le T) (show T - 0 < 2 * h.n_buckets by omega)
  refine ⟨_, by rw [aflnet.kh_get, if_pos hn]; simp only [hfirst]; exact hget, ?_⟩
  rcases hstops.cases with hempty | ⟨value, hlive⟩
  · have hused : (h.bucket (probe_of hash h.n_buckets key T)).used = false := by rw [hempty]; rfl
    have heither : ac_iseither h.flags (probe_of hash h.n_buckets key T) = true := by
      rw [kh_t.bucket, used_bucket, Bool.not_eq_false'] at hused
      rw [ac_iseither_eq, hused, Bool.true_or]
    rw [heither, if_pos rfl]
    exact .absent fun value =>
      hvalid.reachable.not_mem hused (fun t ht => (passes_iff.mp (hstops.passed t ht)).2) value
  · have heither : ac_iseither h.flags (probe_of hash h.n_buckets key T) = false := ac_iseither_of_live hlive
    have hvalue : value = kh_value h (probe_of hash h.n_buckets key T) := congrArg Prod.snd (bucket_eq_live_iff.mp hlive).2.2
    rw [heither, if_neg Bool.false_ne_true]
    refine .present ?_ (hvalue ▸ hlive)
    rw [hpow]
    exact (probes_probe_of hash k).lt key T

end aflnet
