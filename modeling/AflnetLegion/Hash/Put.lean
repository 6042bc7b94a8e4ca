import AflnetLegion.Hash.Search

namespace aflnet

variable {K V : Type}

/-- There is no bucket to delete. -/
theorem kh_del_n_buckets (h : kh_t K V) : kh_del h h.n_buckets = h := by
  rw [kh_del, decide_eq_false (not_not.mpr rfl), Bool.false_and, if_neg Bool.false_ne_true]

variable [Inhabited K] [Inhabited V] {hash : K → UInt32} {h h' : kh_t K V} {key : K} {value : V} {x t T k fuel : Nat}

/-- Only one bucket changes, and the arrays keep their sizes. What the counters become is left
open, as it depends on what was in the bucket. -/
structure Changes (h h' : kh_t K V) (x : Nat) : Prop where
  lt : x < h.n_buckets
  n_buckets : h'.n_buckets = h.n_buckets
  upper_bound : h'.upper_bound = h.upper_bound
  flags_length : h'.flags.length = h.flags.length
  keys_length : h'.keys.length = h.keys.length
  vals_length : h'.vals.length = h.vals.length
  other : ∀ j < h.n_buckets, j ≠ x → h'.bucket j = h.bucket j

/-- The entries of a table in which one bucket changes: the one that was there makes room for
the one that is. -/
theorem Changes.entries_perm (hchanges : Changes h h' x) :
    ((h.bucket x).pair.toList ++ h'.entries).Perm ((h'.bucket x).pair.toList ++ h.entries) := by
  rw [kh_t.entries, kh_t.entries, hchanges.n_buckets]
  exact OpenTable.contents_replace hchanges.lt hchanges.other

/-- The invariant after a change that the counters follow. -/
theorem kh_t.Valid.of_changes (hvalid : h.Valid hash) (hchanges : Changes h h' x)
    (hused : (h.bucket x).used = true → (h'.bucket x).used = true)
    (hnew : ∀ entry, h'.bucket x = .live entry → ∃ t, probe_of hash h.n_buckets entry.1 t = x ∧
      ∀ u < t, (h.bucket (probe_of hash h.n_buckets entry.1 u)).used = true)
    (hoccupied : h'.n_occupied + (h.bucket x).used.toNat = h.n_occupied + (h'.bucket x).used.toNat)
    (hle : h'.n_occupied ≤ h.upper_bound)
    (hsize : h'.size + (h.bucket x).pair.toList.length = h.size + (h'.bucket x).pair.toList.length) : h'.Valid hash := by
  have hlt := hchanges.lt
  obtain ⟨k, hpow⟩ : ∃ k, h.n_buckets = 2 ^ k := by
    obtain hzero | ⟨k, _, _, hpow⟩ := hvalid.buckets
    · omega
    · exact ⟨k, hpow⟩
  have hprobes : OpenTable.Probes (probe_of hash h.n_buckets) h.n_buckets := hpow ▸ probes_probe_of hash k
  have hcount := OpenTable.occupied_replace hlt hchanges.other
  have hlength := hchanges.entries_perm.length_eq
  rw [List.length_append, List.length_append, ← hvalid.size_eq] at hlength
  rw [← hvalid.n_occupied_eq] at hcount
  refine ⟨?_, ?_, ?_, ?_, ?_, ?_, ?_, ?_, ?_⟩
  · rw [hchanges.n_buckets]
    exact hvalid.buckets
  · rw [hchanges.upper_bound, hchanges.n_buckets]
    exact hvalid.upper_bound_eq
  · rw [hchanges.upper_bound]
    exact hle
  · rw [hchanges.n_buckets]
    omega
  · omega
  · rw [hchanges.n_buckets, hchanges.flags_length]
    exact hvalid.flags_length
  · rw [hchanges.n_buckets, hchanges.keys_length]
    exact hvalid.keys_length
  · rw [hchanges.n_buckets, hchanges.vals_length]
    exact hvalid.vals_length
  · rw [hchanges.n_buckets]
    exact hvalid.reachable.replace hprobes hchanges.other hused hnew

theorem getD_set_self {α : Type} {cells : List α} {a d : α} (hx : x < cells.length) : (cells.set x a).getD x d = a := by
  rw [List.getD_eq_getElem?_getD, List.getElem?_set_self hx, Option.getD_some]

theorem getD_set_ne {α : Type} {cells : List α} {a d : α} {j : Nat} (hj : j ≠ x) : (cells.set x a).getD j d = cells.getD j d := by
  rw [List.getD_eq_getElem?_getD, List.getElem?_set_ne (Ne.symm hj), List.getD_eq_getElem?_getD]

/-- The value of an entry is written. -/
theorem changes_set_kh_value (hx : x < h.n_buckets) (value : V) : Changes h (set_kh_value h x value) x where
  lt := hx
  n_buckets := rfl
  upper_bound := rfl
  flags_length := rfl
  keys_length := rfl
  vals_length := List.length_set
  other := by
    intro j _ hj
    rw [kh_t.bucket, kh_t.bucket, set_kh_value, bucket, bucket, getD_set_ne hj]

/-- Writing the value of a live bucket updates the map at its key. -/
theorem kh_t.Holds.set_kh_value [DecidableEq K] {map : K → Option V} (hholds : h.Holds hash map) (hx : x < h.n_buckets)
    {old : V} (hlive : h.bucket x = .live (key, old)) (value : V) :
    (set_kh_value h x value).Holds hash (Function.update map key (some value)) := by
  obtain ⟨hvalid, hrepresents⟩ := hholds
  have hchanges := changes_set_kh_value hx value
  have hnew : (aflnet.set_kh_value h x value).bucket x = .live (key, value) := by
    obtain ⟨hempty, hdel, hentry⟩ := bucket_eq_live_iff.mp hlive
    refine bucket_eq_live_iff.mpr ⟨hempty, hdel, ?_⟩
    rw [aflnet.set_kh_value, getD_set_self (Nat.lt_of_lt_of_le hx hvalid.vals_length)]
    exact congrArg (fun entry => (Prod.fst entry, value)) hentry
  have hperm := hchanges.entries_perm
  rw [hlive, hnew] at hperm
  obtain ⟨s, hs, hbefore⟩ := hvalid.reachable x hx _ hlive
  constructor
  · refine hvalid.of_changes hchanges (fun _ => by rw [hnew]; rfl) (fun entry hentry => ?_) ?_ hvalid.n_occupied_le ?_
    · obtain rfl := Bucket.live.inj (hnew.symm.trans hentry)
      exact ⟨s, hs, hbefore⟩
    · rw [hlive, hnew]
      rfl
    · rw [hlive, hnew]
      rfl
  · have hmem : (key, old) ∈ h.entries := OpenTable.mem_contents_iff.mpr ⟨x, hx, hlive⟩
    exact hrepresents.modify hmem hperm

section deletion

/-- A deletion turns the one bucket into a deleted one. It stays occupied, so only the size goes
down. -/
theorem changes_kh_del (hvalid : h.Valid hash) (hx : x < h.n_buckets) (hlive : ac_iseither h.flags x = false) :
    Changes h (kh_del h x) x ∧ (kh_del h x).bucket x = .deleted ∧ (kh_del h x).size = h.size - 1 ∧
      (kh_del h x).n_occupied = h.n_occupied := by
  have hdel : kh_del h x = { h with flags := ac_set_isdel_true h.flags x, size := h.size - 1 } := by
    rw [kh_del, hlive, decide_eq_true (Nat.ne_of_lt hx)]
    rfl
  have hword := hvalid.flags_length x hx
  rw [ac_iseither_eq, Bool.or_eq_false_iff] at hlive
  rw [hdel]
  refine ⟨⟨hx, rfl, rfl, length_ac_set_isdel_true, rfl, rfl, fun j _ hj => ?_⟩, ?_, rfl, rfl⟩
  · simp only [kh_t.bucket, bucket, ac_isempty_set_isdel_true hword, ac_isdel_set_isdel_true hword, hj, decide_false, Bool.or_false]
  · simp only [kh_t.bucket, bucket, ac_isempty_set_isdel_true hword, ac_isdel_set_isdel_true hword, hlive.1, decide_true,
      Bool.or_true, Bool.false_eq_true, if_false, if_true]

variable [DecidableEq K] {map : K → Option V}

/-- Deleting a live bucket removes its key from the map. -/
theorem kh_t.Holds.kh_del (hholds : h.Holds hash map) (hx : x < h.n_buckets) (hlive : h.bucket x = .live (key, value)) :
    (kh_del h x).Holds hash (Function.update map key none) := by
  obtain ⟨hvalid, hrepresents⟩ := hholds
  obtain ⟨hchanges, hdeleted, hsize, hoccupied⟩ := changes_kh_del hvalid hx (ac_iseither_of_live hlive)
  have hperm := hchanges.entries_perm
  rw [hlive, hdeleted] at hperm
  have hpos : 0 < h.size := by
    rw [hvalid.size_eq]
    exact List.length_pos_of_mem (OpenTable.mem_contents_iff.mpr ⟨x, hx, hlive⟩)
  constructor
  · refine hvalid.of_changes hchanges (fun _ => by rw [hdeleted]; rfl) (fun entry hentry => ?_) ?_ ?_ ?_
    · rw [hdeleted] at hentry
      cases hentry
    · rw [hlive, hdeleted, hoccupied]
      rfl
    · rw [hoccupied]
      exact hvalid.n_occupied_le
    · rw [hlive, hdeleted, hsize]
      exact Nat.sub_add_cancel hpos
  · exact hrepresents.erase hperm

end deletion

section insertion

/-- The key is written into a bucket without an entry. -/
theorem changes_put_key (hvalid : h.Valid hash) (hx : x < h.n_buckets) (hnot : ∀ entry, h.bucket x ≠ .live entry) (key : K) :
    Changes h (put_key h key x).2 x ∧ (put_key h key x).2.bucket x = .live (key, kh_value h x) ∧
      (put_key h key x).2.size = h.size + 1 ∧
      (put_key h key x).2.n_occupied + (h.bucket x).used.toNat = h.n_occupied + 1 ∧
      ((put_key h key x).1 = 1 ∨ (put_key h key x).1 = 2) := by
  have hword := hvalid.flags_length x hx
  have hkeys := Nat.lt_of_lt_of_le hx hvalid.keys_length
  have hchanges : ∀ size n_occupied, Changes h { h with
      keys := h.keys.set x key, flags := ac_set_isboth_false h.flags x, size := size, n_occupied := n_occupied } x := by
    intro size n_occupied
    refine ⟨hx, rfl, rfl, length_ac_set_isboth_false, List.length_set, rfl, fun j _ hj => ?_⟩
    simp only [kh_t.bucket, bucket, ac_isempty_set_isboth_false hword, ac_isdel_set_isboth_false hword, hj, decide_false,
      Bool.not_false, Bool.and_true, getD_set_ne hj]
  have hentry : bucket (ac_set_isboth_false h.flags x) (h.keys.set x key) h.vals x = .live (key, kh_value h x) := by
    simp only [bucket, ac_isempty_set_isboth_false hword, ac_isdel_set_isboth_false hword, decide_true, Bool.not_true, Bool.and_false,
      Bool.false_eq_true, if_false, getD_set_self hkeys, kh_value]
  rw [put_key]
  cases hempty : ac_isempty h.flags x with
  | true =>
    have hbucket : h.bucket x = .empty := by rw [kh_t.bucket, bucket, hempty, if_pos rfl]
    rw [if_pos rfl, hbucket]
    exact ⟨hchanges _ _, hentry, rfl, rfl, Or.inl rfl⟩
  | false =>
    cases hdel : ac_isdel h.flags x with
    | true =>
      have hbucket : h.bucket x = .deleted := by rw [kh_t.bucket, bucket, hempty, hdel, if_neg Bool.false_ne_true, if_pos rfl]
      rw [if_neg Bool.false_ne_true, if_pos rfl, hbucket]
      exact ⟨hchanges _ _, hentry, rfl, rfl, Or.inr rfl⟩
    | false => exact absurd (bucket_eq_live_iff.mpr ⟨hempty, hdel, rfl⟩) (hnot _)

/-- A key that is there is not written again, and `*ret` is 0. -/
theorem put_key_of_live {entry : K × V} (hlive : h.bucket x = .live entry) : put_key h key x = (0, h) := by
  obtain ⟨hempty, hdel, _⟩ := bucket_eq_live_iff.mp hlive
  rw [put_key, hempty, hdel, if_neg Bool.false_ne_true, if_neg Bool.false_ne_true]

variable [DecidableEq K]

/-- The bucket for a key: the key is there, or it is nowhere in the table and would be found
there, as no bucket on the way to it is empty. -/
structure Site (hash : K → UInt32) (h : kh_t K V) (key : K) (x : Nat) : Prop where
  lt : x < h.n_buckets
  way : ∃ t, probe_of hash h.n_buckets key t = x ∧ ∀ u < t, (h.bucket (probe_of hash h.n_buckets key u)).used = true
  key_or_absent : (∃ value, h.bucket x = .live (key, value)) ∨
    (∀ entry, h.bucket x ≠ .live entry) ∧ ∀ value, (key, value) ∉ h.entries

/-- The loop stops where the search for the key does. The site it remembers is a deleted bucket
that it has passed, if there was one. -/
theorem put_loop_eq (hpow : h.n_buckets = 2 ^ k) (hk : k ≤ 31) (hstops : StopsAt hash h key T) (ht : t ≤ T) (hfuel : T - t < fuel)
    (site : Nat) : ∃ found, put_loop h key (h.n_buckets - 1) (probe_of hash h.n_buckets key 0) fuel (probe_of hash h.n_buckets key t) t site =
      some (h.n_buckets, probe_of hash h.n_buckets key T, found) ∧
      (found = site ∨ ∃ u < T, found = probe_of hash h.n_buckets key u ∧ h.bucket found = .deleted) := by
  have hlt := hstops.lt
  induction fuel generalizing t site with
  | zero => omega
  | succ fuel ih =>
    rw [put_loop]
    rcases Nat.eq_or_lt_of_le ht with rfl | hlater
    · rw [hstops.stop, if_neg Bool.false_ne_true]
      exact ⟨site, rfl, Or.inl rfl⟩
    · have hnext : next_bucket (h.n_buckets - 1) (probe_of hash h.n_buckets key t) (t + 1) = probe_of hash h.n_buckets key (t + 1) := by
        rw [hpow]
        exact next_bucket_probe_of (by omega) key t
      have hne : probe_of hash h.n_buckets key (t + 1) ≠ probe_of hash h.n_buckets key 0 := by
        rw [hpow] at hlt ⊢
        exact probe_of_ne_first (Nat.succ_pos t) (by omega)
      rw [hstops.passed t hlater, if_pos rfl, hnext, if_neg hne]
      obtain ⟨found, hloop, hfound⟩ := ih hlater (by omega)
        (if ac_isdel h.flags (probe_of hash h.n_buckets key t) then probe_of hash h.n_buckets key t else site)
      refine ⟨found, hloop, ?_⟩
      rcases hfound with rfl | hlast
      · cases hdel : ac_isdel h.flags (probe_of hash h.n_buckets key t) with
        | false => exact Or.inl (if_neg Bool.false_ne_true)
        | true =>
          refine Or.inr ⟨t, hlater, if_pos rfl, ?_⟩
          have hused := (passes_iff.mp (hstops.passed t hlater)).1
          rw [if_pos rfl, kh_t.bucket, bucket, hdel]
          rw [kh_t.bucket, used_bucket, Bool.not_eq_true'] at hused
          rw [hused, if_neg Bool.false_ne_true, if_pos rfl]
      · exact Or.inr hlast

/-- `kh_put` finds a bucket for every key in a table that has buckets, as one of them is empty.
-/
theorem kh_t.Valid.find_site (hvalid : h.Valid hash) (hn : h.n_buckets ≠ 0) (key : K) :
    ∃ x, find_site hash h key = some x ∧ Site hash h key x := by
  obtain hzero | ⟨k, _, hk, hpow⟩ := hvalid.buckets
  · exact absurd hzero hn
  obtain ⟨T, hstops⟩ := hvalid.exists_stops hn key
  have hlt := hstops.lt
  have hprobes : OpenTable.Probes (probe_of hash h.n_buckets) h.n_buckets := hpow ▸ probes_probe_of hash k
  have hused : ∀ u < T, (h.bucket (probe_of hash h.n_buckets key u)).used = true := fun u hu => (passes_iff.mp (hstops.passed u hu)).1
  have habsent : h.bucket (probe_of hash h.n_buckets key T) = .empty → ∀ value, (key, value) ∉ h.entries := by
    intro hempty
    refine hvalid.reachable.not_mem (by rw [hempty]; rfl) fun t ht => ?_
    exact (passes_iff.mp (hstops.passed t ht)).2
  have hlast : Site hash h key (probe_of hash h.n_buckets key T) := by
    refine ⟨hprobes.lt key T, ⟨T, rfl, hused⟩, ?_⟩
    rcases hstops.cases with hempty | hlive
    · exact Or.inr ⟨fun entry => by simp [hempty], habsent hempty⟩
    · exact Or.inl hlive
  have hfirst : (hash key).toNat &&& (h.n_buckets - 1) = probe_of hash h.n_buckets key 0 := by rw [hpow, probe_of_zero]
  have hflag : ∀ i, ac_isempty h.flags i = true → h.bucket i = .empty := fun i hi => by
    rw [kh_t.bucket, aflnet.bucket, hi, if_pos rfl]
  rw [aflnet.find_site]
  simp only [hfirst]
  cases hempty : ac_isempty h.flags (probe_of hash h.n_buckets key 0) with
  | true =>
    obtain rfl : T = 0 := by
      by_contra hpos
      have hfirstUsed := hused 0 (by omega)
      rw [hflag _ hempty] at hfirstUsed
      cases hfirstUsed
    exact ⟨_, rfl, hlast⟩
  | false =>
    obtain ⟨found, hloop, hfound⟩ := put_loop_eq hpow hk hstops (Nat.zero_le T)
      (show T - 0 < 2 * h.n_buckets by omega) h.n_buckets
    rw [if_neg Bool.false_ne_true, hloop]
    simp only [Option.bind_eq_bind, Option.bind_some, if_true]
    by_cases hsite : found = h.n_buckets
    · rw [hsite, decide_eq_false (not_not.mpr rfl), Bool.and_false, if_neg Bool.false_ne_true]
      exact ⟨_, rfl, hlast⟩
    cases hend : ac_isempty h.flags (probe_of hash h.n_buckets key T) with
    | false => exact ⟨_, rfl, hlast⟩
    | true =>
      obtain ⟨u, hu, hprobe, hdeleted⟩ := hfound.resolve_left hsite
      rw [decide_eq_true hsite]
      refine ⟨found, rfl, ⟨hprobe ▸ hprobes.lt key u, ⟨u, hprobe.symm, fun v hv => hused v (Nat.lt_trans hv hu)⟩, Or.inr ⟨?_, habsent (hflag _ hend)⟩⟩⟩
      intro entry
      simp [hdeleted]

/-- What `kh_put` says about the key. -/
def Answer (map : K → Option V) (key : K) (ret : Int) : Prop :=
  ret = 0 ∧ map key ≠ none ∨ (ret = 1 ∨ ret = 2) ∧ map key = none

/-- Once the bucket is known, a put makes the key one of the map, with whatever value the bucket
has. Room for one more entry was made before. -/
theorem kh_t.Holds.put_key {map : K → Option V} (hholds : h.Holds hash map) (hroom : h.n_occupied < h.upper_bound)
    (hsite : Site hash h key x) :
    (put_key h key x).2.Holds hash (Function.update map key (some (kh_value (put_key h key x).2 x))) ∧
      (aflnet.put_key h key x).2.bucket x = .live (key, kh_value (aflnet.put_key h key x).2 x) ∧
      x < (aflnet.put_key h key x).2.n_buckets ∧ (aflnet.put_key h key x).2.size ≤ h.size + 1 ∧
      Answer map key (aflnet.put_key h key x).1 := by
  obtain ⟨hvalid, hrepresents⟩ := hholds
  rcases hsite.key_or_absent with ⟨value, hlive⟩ | ⟨hnot, habsent⟩
  · have hvalue : value = kh_value h x := congrArg Prod.snd (bucket_eq_live_iff.mp hlive).2.2
    have hmap : map key = some value :=
      (hrepresents.mem_iff key value).mp (OpenTable.mem_contents_iff.mpr ⟨x, hsite.lt, hlive⟩)
    rw [put_key_of_live hlive]
    refine ⟨?_, hvalue ▸ hlive, hsite.lt, Nat.le_succ _, Or.inl ⟨rfl, by rw [hmap]; nofun⟩⟩
    rw [← hvalue, ← hmap, Function.update_eq_self]
    exact ⟨hvalid, hrepresents⟩
  · obtain ⟨hchanges, hentry, hsize, hoccupied, hret⟩ := changes_put_key hvalid hsite.lt hnot key
    have hvalue : kh_value (aflnet.put_key h key x).2 x = kh_value h x :=
      (congrArg Prod.snd (bucket_eq_live_iff.mp hentry).2.2).symm
    have hmap : map key = none := hrepresents.eq_none_iff.mpr habsent
    have hnone : (h.bucket x).pair = none := by
      cases hbucket : h.bucket x with
      | empty => rfl
      | deleted => rfl
      | live entry => exact absurd hbucket (hnot entry)
    have hperm := hchanges.entries_perm
    rw [hnone, hentry] at hperm
    rw [hvalue]
    refine ⟨⟨?_, (hrepresents.insert hmap _).perm hperm⟩, hentry, hchanges.n_buckets ▸ hsite.lt, Nat.le_of_eq hsize, Or.inr ⟨hret, hmap⟩⟩
    refine hvalid.of_changes hchanges (fun _ => by rw [hentry]; rfl) (fun entry hnew => ?_) ?_ ?_ ?_
    · obtain rfl := Bucket.live.inj (hentry.symm.trans hnew)
      exact hsite.way
    · rw [hentry]
      exact hoccupied
    · omega
    · rw [hnone, hentry, hsize]
      rfl

end insertion

end aflnet
