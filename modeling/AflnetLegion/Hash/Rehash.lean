import AflnetLegion.Hash.Put

namespace aflnet

/-- Which of the allocations of `kh_resize` succeed: that of the new flags, those that make the
arrays larger, and those that make them smaller, whose results nothing checks. -/
structure Grant where
  flags : Bool
  keys : Bool
  vals : Bool
  shrunk_keys : Bool
  shrunk_vals : Bool

/-- The cells are kept as far as there is room for them. What is behind them has no value yet,
for which the default one stands. -/
def krealloc {α : Type} [Inhabited α] (cells : List α) (n : Nat) : List α := cells.take n ++ List.replicate (n - cells.length) default

/-- The arrays while `kh_resize` moves the entries within them. Which entries wait is told by
the old flags, and which buckets are taken by the new ones. -/
structure Rehash (K V : Type) where
  flags : List (BitVec 32)
  new_flags : List (BitVec 32)
  keys : List K
  vals : List V

/-- The inner loop of the rehash: `while (!__ac_isempty(new_flags, i)) i = (i + (++step)) &
new_mask`. It has no test for an end, and relies on there being an empty bucket. -/
def find_empty (new_flags : List (BitVec 32)) (new_mask : Nat) : Nat → Nat → Nat → Option Nat
  | 0, _, _ => none
  | fuel + 1, i, step =>
    if ac_isempty new_flags i then some i
    else find_empty new_flags new_mask fuel (next_bucket new_mask i (step + 1)) (step + 1)

/-- The loop follows the probe sequence of the key to the first bucket that is still empty in
the new flags. -/
theorem find_empty_eq {K : Type} {hash : K → UInt32} {new_flags : List (BitVec 32)} {key : K} {k t T fuel : Nat} (hk : k ≤ 32)
    (hempty : ac_isempty new_flags (probe_of hash (2 ^ k) key T) = true)
    (hused : ∀ t < T, ac_isempty new_flags (probe_of hash (2 ^ k) key t) = false) (ht : t ≤ T) (hfuel : T - t < fuel) :
    find_empty new_flags (2 ^ k - 1) fuel (probe_of hash (2 ^ k) key t) t = some (probe_of hash (2 ^ k) key T) := by
  induction fuel generalizing t with
  | zero => omega
  | succ fuel ih =>
    rw [find_empty]
    rcases Nat.eq_or_lt_of_le ht with rfl | hlater
    · rw [hempty, if_pos rfl]
    · rw [hused t hlater, if_neg Bool.false_ne_true, next_bucket_probe_of hk]
      exact ih hlater (by omega)

variable {K V : Type} [Inhabited K] [Inhabited V] (hash : K → UInt32)

/-- The key and the value of a bucket. -/
def Rehash.cell (s : Rehash K V) (i : Nat) : K × V := (s.keys.getD i default, s.vals.getD i default)

/-- The entry is written to a bucket, which is no longer empty then. -/
def Rehash.place (s : Rehash K V) (i : Nat) (entry : K × V) : Rehash K V :=
  { s with new_flags := ac_set_isempty_false s.new_flags i, keys := s.keys.set i entry.1, vals := s.vals.set i entry.2 }

/-- The entry is put into its bucket; one that is still there goes on to its own. The old entry
is marked as deleted, so that the outer loop does not move it a second time. -/
def kick_out (n_buckets new_mask : Nat) : Nat → K × V → Rehash K V → Option (Rehash K V)
  | 0, _, _ => none
  | fuel + 1, entry, s => do
    let i ← find_empty s.new_flags new_mask (new_mask + 1) ((hash entry.1).toNat &&& new_mask) 0
    if decide (i < n_buckets) && !ac_iseither s.flags i then
      kick_out n_buckets new_mask fuel (s.cell i) { s.place i entry with flags := ac_set_isdel_true s.flags i }
    else some (s.place i entry)

/-- One round of the outer loop. A bucket without an entry, or one whose entry has been moved
already, is left alone. -/
def move_bucket (n_buckets new_mask : Nat) (s : Rehash K V) (j : Nat) : Option (Rehash K V) :=
  if ac_iseither s.flags j then some s
  else kick_out hash n_buckets new_mask (n_buckets + 1) (s.cell j) { s with flags := ac_set_isdel_true s.flags j }

/-- The outer loop over the old buckets. The arrays are used for the old and the new entries at
once, and the two arrays of flags tell them apart. -/
def move_buckets (n_buckets new_mask : Nat) (s : Rehash K V) (buckets : List Nat) : Option (Rehash K V) :=
  buckets.foldlM (move_bucket hash n_buckets new_mask) s

/-- The arrays are made larger, if need be: whether that has worked, and the table. If there is
no room for the values, the larger array of keys stays, which does no harm. -/
def enlarge (grant : Grant) (h : kh_t K V) (new_n_buckets : Nat) : Bool × kh_t K V :=
  if h.n_buckets < new_n_buckets then
    if !grant.keys then (false, h)
    else if !grant.vals then (false, { h with keys := krealloc h.keys new_n_buckets })
    else (true, { h with keys := krealloc h.keys new_n_buckets, vals := krealloc h.vals new_n_buckets })
  else (true, h)

/-- An array after the unchecked `krealloc` to a smaller size; NULL if that has failed. The
entries are lost then, and the table still counts them. -/
def shrink {α : Type} [Inhabited α] (granted : Bool) (cells : List α) (n : Nat) : List α := if granted then krealloc cells n else []

/-- The rehash and what follows it: the entries are moved, the arrays made smaller if the table
is, and the counters set anew. -/
def rehash (grant : Grant) (h : kh_t K V) (new_n_buckets : Nat) : Option (kh_t K V) := do
  let start : Rehash K V := { flags := h.flags, new_flags := empty_flags new_n_buckets, keys := h.keys, vals := h.vals }
  let s ← move_buckets hash h.n_buckets (new_n_buckets - 1) start (List.range h.n_buckets)
  some {
    n_buckets := new_n_buckets
    size := h.size
    n_occupied := h.size
    upper_bound := hash_upper new_n_buckets
    flags := s.new_flags
    keys := if new_n_buckets < h.n_buckets then shrink grant.shrunk_keys s.keys new_n_buckets else s.keys
    vals := if new_n_buckets < h.n_buckets then shrink grant.shrunk_vals s.vals new_n_buckets else s.vals }

/-- What is returned, and the table. A table with too many entries for the new size is left as
it is, and so is one for whose new flags there is no room. -/
def kh_resize (grant : Grant) (h : kh_t K V) (new_n_buckets : UInt32) : Option (Int × kh_t K V) :=
  if hash_upper (new_buckets new_n_buckets) ≤ h.size then some (0, h)
  else if !grant.flags then some (-1, h)
  else
    let enlarged := enlarge grant h (new_buckets new_n_buckets)
    if enlarged.1 then (rehash hash grant enlarged.2 (new_buckets new_n_buckets)).map fun h => (0, h)
    else some (-1, enlarged.2)

section moving

variable {hash} {h : kh_t K V} {s s' : Rehash K V} {hand entries : List (K × V)} {entry : K × V} {N M L k i j : Nat}

/-- The entry of the bucket has not been moved yet. -/
def Rehash.waits (s : Rehash K V) (N i : Nat) : Bool := decide (i < N) && !ac_iseither s.flags i

/-- The bucket as the old and the new flags together see it. -/
def Rehash.held (s : Rehash K V) (N M i : Nat) : Bucket (K × V) :=
  if s.waits N i || (decide (i < M) && !ac_isempty s.new_flags i) then .live (s.cell i) else .empty

/-- The bucket as the new flags see it. -/
def Rehash.moved (s : Rehash K V) : Nat → Bucket (K × V) := bucket s.new_flags s.keys s.vals

/-- The invariant of moving `entries` from `N` to `M` buckets. The entries in `hand` are in no bucket. -/
structure Rehash.Keeps (hash : K → UInt32) (N M L : Nat) (entries hand : List (K × V)) (s : Rehash K V) : Prop where
  old_le : N ≤ L
  new_le : M ≤ L
  flags_length : ∀ i < N, i / 16 < s.flags.length
  new_flags_length : ∀ i < M, i / 16 < s.new_flags.length
  keys_length : L ≤ s.keys.length
  vals_length : L ≤ s.vals.length
  apart : ∀ i < M, ac_isempty s.new_flags i = false → s.waits N i = false
  not_deleted : ∀ i < M, ac_isdel s.new_flags i = false
  perm : (hand ++ OpenTable.contents (s.held N M) L).Perm entries
  reachable : OpenTable.Reachable (probe_of hash M) s.moved M

theorem Rehash.held_of_waits (hwaits : s.waits N i = true) : s.held N M i = .live (s.cell i) := by
  rw [held, hwaits, Bool.true_or, if_pos rfl]

/-- While the entries are moved, a bucket of the new flags is empty or live and never deleted.
-/
theorem Rehash.Keeps.moved_eq (hkeeps : s.Keeps hash N M L entries hand) (hi : i < M) :
    s.moved i = if ac_isempty s.new_flags i then .empty else .live (s.cell i) := by
  rw [moved, bucket, hkeeps.not_deleted i hi, if_neg Bool.false_ne_true]
  rfl

/-- A bucket whose entry does not wait is what the new flags say. -/
theorem Rehash.Keeps.held_of_not_waits (hkeeps : s.Keeps hash N M L entries hand) (hi : i < M) (hwaits : s.waits N i = false) :
    s.held N M i = s.moved i := by
  rw [hkeeps.moved_eq hi, held, hwaits, decide_eq_true hi]
  cases ac_isempty s.new_flags i <;> rfl

/-- Every moved entry is one of those that are kept. -/
theorem Rehash.Keeps.occupied_le (hkeeps : s.Keeps hash N M L entries hand) :
    OpenTable.occupied s.moved M + hand.length ≤ entries.length := by
  have hlength := hkeeps.perm.length_eq
  rw [List.length_append, OpenTable.contents, List.length_filterMap_eq_countP] at hlength
  have hmono : OpenTable.occupied s.moved M ≤ (List.range L).countP fun i => (s.held N M i).pair.isSome := by
    refine Nat.le_trans ?_ ((List.range_sublist.mpr hkeeps.new_le).countP_le)
    refine List.countP_mono_left fun i hi hused => ?_
    have hlt := List.mem_range.mp hi
    rw [hkeeps.moved_eq hlt] at hused
    rw [held, decide_eq_true hlt, Bool.true_and]
    cases hempty : ac_isempty s.new_flags i with
    | true => rw [hempty] at hused; cases hused
    | false => rw [Bool.not_false, Bool.or_true, if_pos rfl]; rfl
  omega

/-- An empty bucket on the way of the key is found. -/
theorem Rehash.Keeps.find_empty (hkeeps : s.Keeps hash N (2 ^ k) L entries hand) (hk : k ≤ 31) (hroom : entries.length < 2 ^ k) (key : K) :
    ∃ i, find_empty s.new_flags (2 ^ k - 1) (2 ^ k - 1 + 1) ((hash key).toNat &&& (2 ^ k - 1)) 0 = some i ∧ i < 2 ^ k ∧
      ac_isempty s.new_flags i = true ∧
      ∃ t, probe_of hash (2 ^ k) key t = i ∧ ∀ u < t, (s.moved (probe_of hash (2 ^ k) key u)).used = true := by
  have hprobes := probes_probe_of hash k
  have hcount := hkeeps.occupied_le
  obtain ⟨t, ht, hfree⟩ := OpenTable.exists_empty hprobes (show OpenTable.occupied s.moved (2 ^ k) < 2 ^ k by omega) key
  have hflag : ∀ t, (s.moved (probe_of hash (2 ^ k) key t)).used = !ac_isempty s.new_flags (probe_of hash (2 ^ k) key t) :=
    fun t => used_bucket _ _ _ _
  rw [hflag, Bool.not_eq_false'] at hfree
  have hexists : ∃ t, ac_isempty s.new_flags (probe_of hash (2 ^ k) key t) = true := ⟨t, hfree⟩
  have hbefore : ∀ u < Nat.find hexists, ac_isempty s.new_flags (probe_of hash (2 ^ k) key u) = false := fun u hu =>
    Bool.eq_false_iff.mpr (Nat.find_min hexists hu)
  have hlt : Nat.find hexists < 2 ^ k := Nat.lt_of_le_of_lt (Nat.find_min' hexists hfree) ht
  refine ⟨_, ?_, hprobes.lt key _, Nat.find_spec hexists, _, rfl, fun u hu => by rw [hflag, hbefore u hu]; rfl⟩
  rw [← probe_of_zero]
  exact find_empty_eq (by omega) (Nat.find_spec hexists) hbefore (Nat.zero_le _) (by omega)

theorem Rehash.cell_place_self (hkeys : i < s.keys.length) (hvals : i < s.vals.length) : (s.place i entry).cell i = entry := by
  rw [cell, place, getD_set_self hkeys, getD_set_self hvals]

theorem Rehash.cell_place_ne (hj : j ≠ i) : (s.place i entry).cell j = s.cell j := by
  rw [cell, place, getD_set_ne hj, getD_set_ne hj, cell]

/-- The entry in hand is put into an empty bucket on its way. An entry that waits there comes into hand. -/
theorem Rehash.Keeps.place (hkeeps : s.Keeps hash N M L entries [entry]) (hprobes : OpenTable.Probes (probe_of hash M) M) (hi : i < M)
    (hempty : ac_isempty s.new_flags i = true)
    (hway : ∃ t, probe_of hash M entry.1 t = i ∧ ∀ u < t, (s.moved (probe_of hash M entry.1 u)).used = true)
    {flags : List (BitVec 32)} (hlength : flags.length = s.flags.length)
    (hwaits : ∀ j, Rehash.waits { s.place i entry with flags := flags } N j = (s.waits N j && !decide (j = i))) :
    Rehash.Keeps hash N M L entries (if s.waits N i then [s.cell i] else []) { s.place i entry with flags := flags } ∧
      OpenTable.occupied (Rehash.moved { s.place i entry with flags := flags }) M = OpenTable.occupied s.moved M + 1 := by
  have hword := hkeeps.new_flags_length i hi
  have hiL := Nat.lt_of_lt_of_le hi hkeeps.new_le
  have hself : (s.place i entry).cell i = entry :=
    cell_place_self (Nat.lt_of_lt_of_le hiL hkeeps.keys_length) (Nat.lt_of_lt_of_le hiL hkeeps.vals_length)
  have hflag : ∀ j, ac_isempty (s.place i entry).new_flags j = (ac_isempty s.new_flags j && !decide (j = i)) :=
    ac_isempty_set_isempty_false hword
  have hdel : ∀ j, ac_isdel (s.place i entry).new_flags j = ac_isdel s.new_flags j := ac_isdel_set_isempty_false hword
  have hold : s.moved i = .empty := by rw [hkeeps.moved_eq hi, hempty, if_pos rfl]
  have hnew : Rehash.moved { s.place i entry with flags := flags } i = .live entry := by
    refine bucket_eq_live_iff.mpr ⟨?_, ?_, hself.symm⟩
    · rw [hflag, decide_eq_true rfl, Bool.not_true, Bool.and_false]
    · rw [hdel, hkeeps.not_deleted i hi]
  have hother : ∀ j < M, j ≠ i → Rehash.moved { s.place i entry with flags := flags } j = s.moved j := by
    intro j _ hj
    simp only [moved, bucket, hflag, hdel, hj, decide_false, Bool.not_false, Bool.and_true]
    exact congrArg (fun cell => if ac_isempty s.new_flags j then Bucket.empty else if ac_isdel s.new_flags j then .deleted else .live cell)
      (cell_place_ne hj)
  constructor
  · refine ⟨hkeeps.old_le, hkeeps.new_le, ?_, ?_, ?_, ?_, fun j hj hflagged => ?_, fun j hj => ?_, ?_, ?_⟩
    · intro j hj
      rw [hlength]
      exact hkeeps.flags_length j hj
    · intro j hj
      exact Nat.lt_of_lt_of_eq (hkeeps.new_flags_length j hj) length_ac_set_isempty_false.symm
    · exact Nat.le_trans hkeeps.keys_length (Nat.le_of_eq List.length_set.symm)
    · exact Nat.le_trans hkeeps.vals_length (Nat.le_of_eq List.length_set.symm)
    · rw [hwaits]
      by_cases hji : j = i
      · rw [decide_eq_true hji, Bool.not_true, Bool.and_false]
      · have hsame : ac_isempty s.new_flags j = false := by
          rw [hflag, decide_eq_false hji, Bool.not_false, Bool.and_true] at hflagged
          exact hflagged
        rw [hkeeps.apart j hj hsame, Bool.false_and]
    · rw [hdel]
      exact hkeeps.not_deleted j hj
    · have hheldNew : Rehash.held { s.place i entry with flags := flags } N M i = .live entry := by
        rw [held, hflag, decide_eq_true hi, decide_eq_true rfl, Bool.not_true, Bool.and_false, Bool.not_false, Bool.and_true,
          Bool.or_true, if_pos rfl]
        exact congrArg Bucket.live hself
      have hheldOld : (s.held N M i).pair.toList = if s.waits N i then [s.cell i] else [] := by
        rw [held, hempty, Bool.not_true, Bool.and_false, Bool.or_false]
        cases s.waits N i <;> rfl
      have hrest : ∀ j < L, j ≠ i → Rehash.held { s.place i entry with flags := flags } N M j = s.held N M j := by
        intro j _ hj
        simp only [held, hwaits, hflag, hj, decide_false, Bool.not_false, Bool.and_true]
        exact congrArg (fun cell => if (s.waits N j || decide (j < M) && !ac_isempty s.new_flags j) = true then Bucket.live cell else .empty)
          (cell_place_ne hj)
      have hreplace := OpenTable.contents_replace hiL hrest
      rw [hheldOld, hheldNew] at hreplace
      exact hreplace.trans hkeeps.perm
    · refine hkeeps.reachable.replace hprobes hother (fun _ => by rw [hnew]; rfl) fun other hlive => ?_
      obtain rfl := Bucket.live.inj (hnew.symm.trans hlive)
      exact hway
  · have hcount := OpenTable.occupied_replace hi hother
    rw [hold, hnew] at hcount
    exact hcount

/-- One entry has been marked as moved. -/
theorem waits_set_isdel_true {flags : List (BitVec 32)} (hword : i / 16 < flags.length) (j : Nat) :
    (decide (j < N) && !ac_iseither (ac_set_isdel_true flags i) j) = (decide (j < N) && !ac_iseither flags j && !decide (j = i)) := by
  rw [ac_iseither_eq, ac_iseither_eq, ac_isempty_set_isdel_true hword, ac_isdel_set_isdel_true hword]
  cases ac_isempty flags j <;> cases ac_isdel flags j <;> cases decide (j = i) <;> simp

/-- Every entry that is kicked out finds a place. -/
theorem Rehash.Keeps.kick_out (hk : k ≤ 31) (hroom : entries.length < 2 ^ k) (hkeeps : s.Keeps hash N (2 ^ k) L entries [entry])
    (fuel : Nat) (hfuel : entries.length < OpenTable.occupied s.moved (2 ^ k) + fuel) :
    ∃ s', kick_out hash N (2 ^ k - 1) fuel entry s = some s' ∧ s'.Keeps hash N (2 ^ k) L entries [] ∧
      ∀ j, s.waits N j = false → s'.waits N j = false := by
  induction fuel generalizing s entry with
  | zero =>
    have hcount := hkeeps.occupied_le
    omega
  | succ fuel ih =>
    obtain ⟨i, hfind, hi, hempty, hway⟩ := hkeeps.find_empty hk hroom entry.1
    have hprobes := probes_probe_of hash k
    rw [aflnet.kick_out, hfind]
    simp only [Option.bind_eq_bind, Option.bind_some]
    cases hwaits : s.waits N i with
    | true =>
      have hcond : (decide (i < N) && !ac_iseither s.flags i) = true := hwaits
      have hlt : i < N := of_decide_eq_true (Bool.and_eq_true_iff.mp hcond).1
      have hmark : ∀ j, waits { s.place i entry with flags := ac_set_isdel_true s.flags i } N j = (s.waits N j && !decide (j = i)) :=
        waits_set_isdel_true (hkeeps.flags_length i hlt)
      obtain ⟨hnext, hcount⟩ := hkeeps.place hprobes hi hempty hway length_ac_set_isdel_true hmark
      rw [hwaits, if_pos rfl] at hnext
      obtain ⟨s', hrun, hend, hkeep⟩ := ih hnext (by omega)
      rw [hcond, if_pos rfl]
      refine ⟨s', hrun, hend, fun j hj => hkeep j ?_⟩
      rw [hmark, hj, Bool.false_and]
    | false =>
      have hcond : (decide (i < N) && !ac_iseither s.flags i) = false := hwaits
      have hmark : ∀ j, waits { s.place i entry with flags := s.flags } N j = (s.waits N j && !decide (j = i)) := by
        intro j
        by_cases hji : j = i
        · subst hji
          rw [hwaits, Bool.false_and]
          exact hwaits
        · rw [decide_eq_false hji, Bool.not_false, Bool.and_true]
          rfl
      obtain ⟨hend, _⟩ := hkeeps.place hprobes hi hempty hway rfl hmark
      rw [hwaits, if_neg Bool.false_ne_true] at hend
      rw [hcond, if_neg Bool.false_ne_true]
      exact ⟨_, rfl, hend, fun j hj => hj⟩

/-- The entry of a bucket is taken into the hand. -/
theorem Rehash.Keeps.take (hkeeps : s.Keeps hash N M L entries []) (hj : j < N) (hwaits : s.waits N j = true) :
    Rehash.Keeps hash N M L entries [s.cell j] { s with flags := ac_set_isdel_true s.flags j } := by
  have hmark : ∀ i, waits { s with flags := ac_set_isdel_true s.flags j } N i = (s.waits N i && !decide (i = j)) :=
    waits_set_isdel_true (hkeeps.flags_length j hj)
  have hjL := Nat.lt_of_lt_of_le hj hkeeps.old_le
  have hempty : j < M → ac_isempty s.new_flags j = true := by
    intro hjM
    by_contra hused
    rw [hkeeps.apart j hjM (Bool.eq_false_iff.mpr hused)] at hwaits
    cases hwaits
  refine ⟨hkeeps.old_le, hkeeps.new_le, ?_, hkeeps.new_flags_length, hkeeps.keys_length, hkeeps.vals_length, fun i hi hflagged => ?_,
    hkeeps.not_deleted, ?_, hkeeps.reachable⟩
  · intro i hi
    exact Nat.lt_of_lt_of_eq (hkeeps.flags_length i hi) length_ac_set_isdel_true.symm
  · rw [hmark, hkeeps.apart i hi hflagged, Bool.false_and]
  · have hold : s.held N M j = .live (s.cell j) := held_of_waits hwaits
    have hnew : held { s with flags := ac_set_isdel_true s.flags j } N M j = .empty := by
      rw [held, hmark, decide_eq_true rfl, Bool.not_true, Bool.and_false, Bool.false_or, if_neg]
      rw [Bool.and_eq_true, decide_eq_true_iff]
      rintro ⟨hjM, hused⟩
      rw [hempty hjM] at hused
      cases hused
    have hrest : ∀ i < L, i ≠ j → held { s with flags := ac_set_isdel_true s.flags j } N M i = s.held N M i := by
      intro i _ hi
      rw [held, hmark, decide_eq_false hi, Bool.not_false, Bool.and_true]
      rfl
    have hreplace := OpenTable.contents_replace hjL hrest
    rw [hold, hnew] at hreplace
    exact hreplace.trans hkeeps.perm

/-- One round keeps the entries and leaves nothing in the hand. The bucket it was about does not
wait any more. -/
theorem Rehash.Keeps.move_bucket (hk : k ≤ 31) (hroom : entries.length < 2 ^ k) (hle : entries.length ≤ N)
    (hkeeps : s.Keeps hash N (2 ^ k) L entries []) (hj : j < N) :
    ∃ s', move_bucket hash N (2 ^ k - 1) s j = some s' ∧ s'.Keeps hash N (2 ^ k) L entries [] ∧ s'.waits N j = false ∧
      ∀ i, s.waits N i = false → s'.waits N i = false := by
  rw [aflnet.move_bucket]
  cases heither : ac_iseither s.flags j with
  | true =>
    rw [if_pos rfl]
    exact ⟨s, rfl, hkeeps, by rw [waits, heither, Bool.not_true, Bool.and_false], fun i hi => hi⟩
  | false =>
    have hwaits : s.waits N j = true := by rw [waits, heither, decide_eq_true hj]; rfl
    have hmark : ∀ i, waits { s with flags := ac_set_isdel_true s.flags j } N i = (s.waits N i && !decide (i = j)) :=
      waits_set_isdel_true (hkeeps.flags_length j hj)
    obtain ⟨s', hrun, hend, hkeep⟩ := Rehash.Keeps.kick_out hk hroom (hkeeps.take hj hwaits) (N + 1) (by omega)
    rw [if_neg Bool.false_ne_true]
    refine ⟨s', hrun, hend, hkeep j ?_, fun i hi => hkeep i ?_⟩
    · rw [hmark, decide_eq_true rfl, Bool.not_true, Bool.and_false]
    · rw [hmark, hi, Bool.false_and]

/-- After the loop none of its buckets has an entry that waits, so that all entries are where
the new flags say. -/
theorem Rehash.Keeps.move_buckets (hk : k ≤ 31) (hroom : entries.length < 2 ^ k) (hle : entries.length ≤ N)
    (hkeeps : s.Keeps hash N (2 ^ k) L entries []) (buckets : List Nat) (hbuckets : ∀ j ∈ buckets, j < N) :
    ∃ s', move_buckets hash N (2 ^ k - 1) s buckets = some s' ∧ s'.Keeps hash N (2 ^ k) L entries [] ∧
      (∀ j ∈ buckets, s'.waits N j = false) ∧ ∀ i, s.waits N i = false → s'.waits N i = false := by
  induction buckets generalizing s with
  | nil => exact ⟨s, rfl, hkeeps, fun j hj => absurd hj List.not_mem_nil, fun i hi => hi⟩
  | cons j buckets ih =>
    obtain ⟨s₁, hfirst, hkeeps₁, hdone, hkeep₁⟩ := hkeeps.move_bucket hk hroom hle (hbuckets j List.mem_cons_self)
    obtain ⟨s₂, hrest, hkeeps₂, hall, hkeep₂⟩ := ih hkeeps₁ fun i hi => hbuckets i (List.mem_cons_of_mem j hi)
    refine ⟨s₂, ?_, hkeeps₂, fun i hi => ?_, fun i hi => hkeep₂ i (hkeep₁ i hi)⟩
    · rw [aflnet.move_buckets, List.foldlM_cons, hfirst]
      exact hrest
    · rcases List.mem_cons.mp hi with rfl | hmem
      · exact hkeep₂ i hdone
      · exact hall i hmem

end moving

section resizing

variable {hash} {h h' : kh_t K V} {map : K → Option V} {grant : Grant} {k n i : Nat}

theorem length_krealloc {α : Type} [Inhabited α] (cells : List α) (n : Nat) : (krealloc cells n).length = n := by
  rw [krealloc, List.length_append, List.length_take, List.length_replicate]
  omega

theorem getD_krealloc {α : Type} [Inhabited α] (cells : List α) (hi : i < n) : (krealloc cells n).getD i default = cells.getD i default := by
  rw [krealloc, List.getD_eq_getElem?_getD, List.getD_eq_getElem?_getD]
  by_cases hlt : i < cells.length
  · have hfit : i < (cells.take n).length := by rw [List.length_take]; omega
    rw [List.getElem?_append_left hfit, List.getElem?_take_of_lt hi]
  · have hout : (cells.take n).length ≤ i := by rw [List.length_take]; omega
    rw [List.getElem?_append_right hout, List.getElem?_eq_none (Nat.not_lt.mp hlt), List.getElem?_replicate]
    split <;> rfl

/-- Tables with the same counters and buckets. -/
theorem kh_t.Holds.congr (hholds : h.Holds hash map) (hbuckets : h'.n_buckets = h.n_buckets) (hsize : h'.size = h.size)
    (hoccupied : h'.n_occupied = h.n_occupied) (hupper : h'.upper_bound = h.upper_bound) (hflags : h'.flags = h.flags)
    (hkeys : h.n_buckets ≤ h'.keys.length) (hvals : h.n_buckets ≤ h'.vals.length)
    (hsame : ∀ i < h.n_buckets, h'.bucket i = h.bucket i) : h'.Holds hash map := by
  obtain ⟨hvalid, hrepresents⟩ := hholds
  have hentries : h'.entries = h.entries := by
    rw [kh_t.entries, kh_t.entries, hbuckets]
    exact List.filterMap_congr fun i hi => by rw [hsame i (List.mem_range.mp hi)]
  have hcount : OpenTable.occupied h'.bucket h.n_buckets = OpenTable.occupied h.bucket h.n_buckets :=
    List.countP_congr fun i hi => by rw [hsame i (List.mem_range.mp hi)]
  refine ⟨⟨hbuckets ▸ hvalid.buckets, by rw [hupper, hbuckets, hvalid.upper_bound_eq], by rw [hoccupied, hupper]; exact hvalid.n_occupied_le,
    by rw [hoccupied, hbuckets, hcount, hvalid.n_occupied_eq], by rw [hsize, hentries, hvalid.size_eq],
    by rw [hbuckets, hflags]; exact hvalid.flags_length, by rw [hbuckets]; exact hkeys, by rw [hbuckets]; exact hvals, ?_⟩,
    hentries ▸ hrepresents⟩
  rw [hbuckets]
  intro i hi entry hentry
  rw [hsame i hi] at hentry
  obtain ⟨t, ht, hbefore⟩ := hvalid.reachable i hi entry hentry
  refine ⟨t, ht, fun u hu => ?_⟩
  have hlt : probe_of hash h.n_buckets entry.1 u < h.n_buckets := Probing.probe_lt (Nat.lt_of_le_of_lt (Nat.zero_le i) hi) u
  rw [hsame _ hlt]
  exact hbefore u hu

/-- A power of two fills its words of sixteen, unless it is smaller than one. -/
theorem mod_or_lt (k : Nat) : 2 ^ k % 16 = 0 ∨ 2 ^ k < 16 := by
  by_cases hk : 4 ≤ k
  · exact Or.inl (Nat.mod_eq_zero_of_dvd (Nat.pow_dvd_pow 2 hk))
  · exact Or.inr (Nat.pow_lt_pow_right (by decide) (Nat.lt_of_not_le hk))

/-- Nothing has been moved yet. -/
theorem kh_t.Valid.keeps (hvalid : h.Valid hash) {L : Nat} (hold : h.n_buckets ≤ L) (hnew : 2 ^ k ≤ L) (hkeys : L ≤ h.keys.length)
    (hvals : L ≤ h.vals.length) : Rehash.Keeps hash h.n_buckets (2 ^ k) L h.entries []
      { flags := h.flags, new_flags := empty_flags (2 ^ k), keys := h.keys, vals := h.vals } := by
  have hword : ∀ i < 2 ^ k, i / 16 < ac_fsize (2 ^ k) := fun i hi => div_lt_ac_fsize hi (mod_or_lt k)
  have hempty : ∀ i < 2 ^ k, ac_isempty (empty_flags (2 ^ k)) i = true := fun i hi => ac_isempty_empty_flags (hword i hi)
  have hnone : ∀ i, (decide (i < 2 ^ k) && !ac_isempty (empty_flags (2 ^ k)) i) = false := by
    intro i
    by_cases hlt : i < 2 ^ k
    · rw [hempty i hlt, Bool.not_true, Bool.and_false]
    · rw [decide_eq_false hlt, Bool.false_and]
  refine ⟨hold, hnew, hvalid.flags_length, ?_, hkeys, hvals, fun i hi hused => ?_, fun i hi => ac_isdel_empty_flags (hword i hi), ?_, ?_⟩
  · rw [empty_flags, List.length_replicate]
    exact hword
  · rw [hempty i hi] at hused
    cases hused
  · rw [List.nil_append]
    refine List.Perm.of_eq (OpenTable.contents_extend hold (fun i hi => ?_) fun i hi _ => ?_)
    · rw [Rehash.held, hnone, Bool.or_false, Rehash.waits, decide_eq_true hi, Bool.true_and, kh_t.bucket, aflnet.bucket, ac_iseither_eq]
      cases ac_isempty h.flags i <;> cases ac_isdel h.flags i <;> rfl
    · rw [Rehash.held, hnone, Bool.or_false, Rehash.waits, decide_eq_false (Nat.not_lt.mpr hi), Bool.false_and, if_neg Bool.false_ne_true]
      rfl
  · refine OpenTable.reachable_of_empty fun i hi => ?_
    rw [Rehash.moved, aflnet.bucket, hempty i hi, if_pos rfl]

/-- The table that `kh_resize` leaves, with as many buckets as it has made room for. Deleted
buckets are gone, so every occupied one has an entry. -/
structure Resized (h h' : kh_t K V) (n : Nat) : Prop where
  n_buckets : h'.n_buckets = n
  size : h'.size = h.size
  n_occupied : h'.n_occupied = h.size
  upper_bound : h'.upper_bound = hash_upper n

/-- Where the table gets smaller, both arrays have to be there afterwards. -/
theorem kh_t.Holds.rehash (hholds : h.Holds hash map) (hk : 2 ≤ k) (hk' : k ≤ 31) (hroom : h.size < hash_upper (2 ^ k))
    (hkeys : 2 ^ k ≤ h.keys.length) (hvals : 2 ^ k ≤ h.vals.length)
    (hgrant : 2 ^ k < h.n_buckets → grant.shrunk_keys = true ∧ grant.shrunk_vals = true) :
    ∃ h', rehash hash grant h (2 ^ k) = some h' ∧ h'.Holds hash map ∧ Resized h h' (2 ^ k) := by
  obtain ⟨hvalid, hrepresents⟩ := hholds
  have hupper := hash_upper_lt (four_le_pow hk)
  have hlength : h.entries.length ≤ h.n_buckets := by
    refine Nat.le_trans (List.length_filterMap_le _ _) ?_
    rw [List.length_range]
  have hstart := hvalid.keeps (Nat.le_max_left h.n_buckets (2 ^ k)) (Nat.le_max_right h.n_buckets (2 ^ k))
    (Nat.max_le.mpr ⟨hvalid.keys_length, hkeys⟩) (Nat.max_le.mpr ⟨hvalid.vals_length, hvals⟩)
  obtain ⟨s, hrun, hkeeps, hdone, _⟩ := hstart.move_buckets hk' (by rw [← hvalid.size_eq]; omega) hlength
    (List.range h.n_buckets) fun j hj => List.mem_range.mp hj
  have hwaits : ∀ i, s.waits h.n_buckets i = false := by
    intro i
    by_cases hi : i < h.n_buckets
    · exact hdone i (List.mem_range.mpr hi)
    · rw [Rehash.waits, decide_eq_false hi, Bool.false_and]
  have hcontents : OpenTable.contents (s.held h.n_buckets (2 ^ k)) (max h.n_buckets (2 ^ k)) = OpenTable.contents s.moved (2 ^ k) := by
    refine OpenTable.contents_extend hkeeps.new_le (fun i hi => ?_) fun i hi _ => ?_
    · rw [hkeeps.held_of_not_waits hi (hwaits i)]
    · rw [Rehash.held, hwaits, decide_eq_false (Nat.not_lt.mpr hi), Bool.false_and, Bool.false_or, if_neg Bool.false_ne_true]
      rfl
  have hperm := hkeeps.perm
  rw [hcontents, List.nil_append] at hperm
  -- The entries are in the buckets of the new table, which are those below the new size.
  let keys := if 2 ^ k < h.n_buckets then krealloc s.keys (2 ^ k) else s.keys
  let vals := if 2 ^ k < h.n_buckets then krealloc s.vals (2 ^ k) else s.vals
  have hshrunk : (if 2 ^ k < h.n_buckets then shrink grant.shrunk_keys s.keys (2 ^ k) else s.keys) = keys ∧
      (if 2 ^ k < h.n_buckets then shrink grant.shrunk_vals s.vals (2 ^ k) else s.vals) = vals := by
    by_cases hsmaller : 2 ^ k < h.n_buckets
    · obtain ⟨hgrantedKeys, hgrantedVals⟩ := hgrant hsmaller
      rw [hgrantedKeys, hgrantedVals]
      exact ⟨rfl, rfl⟩
    · exact ⟨(if_neg hsmaller).trans (if_neg hsmaller).symm, (if_neg hsmaller).trans (if_neg hsmaller).symm⟩
  have hsame : ∀ i < 2 ^ k, aflnet.bucket s.new_flags keys vals i = s.moved i := by
    intro i hi
    have hkey : keys.getD i default = s.keys.getD i default := by
      by_cases hshrink : 2 ^ k < h.n_buckets
      · exact (congrArg (fun l => List.getD l i default) (if_pos hshrink)).trans (getD_krealloc s.keys hi)
      · exact congrArg (fun l => List.getD l i default) (if_neg hshrink)
    have hval : vals.getD i default = s.vals.getD i default := by
      by_cases hshrink : 2 ^ k < h.n_buckets
      · exact (congrArg (fun l => List.getD l i default) (if_pos hshrink)).trans (getD_krealloc s.vals hi)
      · exact congrArg (fun l => List.getD l i default) (if_neg hshrink)
    rw [Rehash.moved, aflnet.bucket, aflnet.bucket, hkey, hval]
  have hentries : OpenTable.contents (aflnet.bucket s.new_flags keys vals) (2 ^ k) = OpenTable.contents s.moved (2 ^ k) :=
    List.filterMap_congr fun i hi => by rw [hsame i (List.mem_range.mp hi)]
  have hoccupied : OpenTable.occupied (aflnet.bucket s.new_flags keys vals) (2 ^ k) = OpenTable.occupied s.moved (2 ^ k) :=
    List.countP_congr fun i hi => by rw [hsame i (List.mem_range.mp hi)]
  have hcount : OpenTable.occupied s.moved (2 ^ k) = h.size := by
    rw [← OpenTable.length_contents_eq_occupied, hperm.length_eq, hvalid.size_eq]
    intro i hi
    rw [hkeeps.moved_eq hi]
    cases ac_isempty s.new_flags i <;> simp
  let result : kh_t K V := {
    n_buckets := 2 ^ k, size := h.size, n_occupied := h.size, upper_bound := hash_upper (2 ^ k), flags := s.new_flags, keys, vals }
  have hresult : aflnet.rehash hash grant h (2 ^ k) = some result := by
    rw [aflnet.rehash]
    simp only [hrun, Option.bind_eq_bind, Option.bind_some, hshrunk.1, hshrunk.2]
    rfl
  refine ⟨result, hresult, ⟨⟨?_, rfl, ?_, ?_, ?_, ?_, ?_, ?_, ?_⟩, ?_⟩,
    ⟨rfl, rfl, rfl, rfl⟩⟩
  · exact Or.inr ⟨k, hk, hk', rfl⟩
  · exact Nat.le_of_lt hroom
  · exact (hoccupied.trans hcount).symm
  · exact (hvalid.size_eq.trans hperm.length_eq.symm).trans (congrArg List.length hentries.symm)
  · exact hkeeps.new_flags_length
  · change 2 ^ k ≤ keys.length
    by_cases hshrink : 2 ^ k < h.n_buckets
    · rw [show keys = _ from if_pos hshrink, length_krealloc]
    · rw [show keys = _ from if_neg hshrink]
      exact Nat.le_trans hkeeps.new_le hkeeps.keys_length
  · change 2 ^ k ≤ vals.length
    by_cases hshrink : 2 ^ k < h.n_buckets
    · rw [show vals = _ from if_pos hshrink, length_krealloc]
    · rw [show vals = _ from if_neg hshrink]
      exact Nat.le_trans hkeeps.new_le hkeeps.vals_length
  · intro i hi entry hentry
    obtain ⟨t, ht, hbefore⟩ := hkeeps.reachable i hi entry ((hsame i hi).symm.trans hentry)
    refine ⟨t, ht, fun u hu => ?_⟩
    have hlt := (probes_probe_of hash k).lt entry.1 u
    exact (congrArg Bucket.used (hsame _ hlt)).trans (hbefore u hu)
  · exact hrepresents.perm ((List.Perm.of_eq hentries).trans hperm)

/-- Enlarging the arrays changes no bucket. -/
theorem kh_t.Holds.enlarge (hholds : h.Holds hash map) (grant : Grant) (n : Nat) :
    (enlarge grant h n).2.Holds hash map ∧ (enlarge grant h n).2.n_buckets = h.n_buckets ∧ (enlarge grant h n).2.size = h.size ∧
      ((aflnet.enlarge grant h n).1 = true →
        n ≤ (aflnet.enlarge grant h n).2.keys.length ∧ n ≤ (aflnet.enlarge grant h n).2.vals.length) ∧
      (grant.keys = true → grant.vals = true → (aflnet.enlarge grant h n).1 = true) := by
  have hvalid := hholds.valid
  have hcell : ∀ keys vals, (∀ i < h.n_buckets, keys.getD i default = h.keys.getD i default) →
      (∀ i < h.n_buckets, vals.getD i default = h.vals.getD i default) → ∀ i < h.n_buckets,
      aflnet.bucket h.flags keys vals i = h.bucket i := by
    intro keys vals hkeys hvals i hi
    rw [kh_t.bucket, aflnet.bucket, aflnet.bucket, hkeys i hi, hvals i hi]
  rw [aflnet.enlarge]
  by_cases hgrow : h.n_buckets < n
  · rw [if_pos hgrow]
    have hkept : ∀ i < h.n_buckets, (krealloc h.keys n).getD i default = h.keys.getD i default := fun i hi =>
      getD_krealloc h.keys (Nat.lt_trans hi hgrow)
    cases hkeys : grant.keys with
    | false => exact ⟨hholds, rfl, rfl, fun h => absurd h Bool.false_ne_true, fun h _ => absurd h Bool.false_ne_true⟩
    | true =>
      cases hvals : grant.vals with
      | false =>
        refine ⟨hholds.congr rfl rfl rfl rfl rfl ?_ hvalid.vals_length (hcell _ _ hkept fun i _ => rfl), rfl, rfl,
          fun h => absurd h Bool.false_ne_true, fun _ h => absurd h Bool.false_ne_true⟩
        exact Nat.le_of_lt (Nat.lt_of_lt_of_eq hgrow (length_krealloc h.keys n).symm)
      | true =>
        have hlengths : n ≤ (krealloc h.keys n).length ∧ n ≤ (krealloc h.vals n).length := by
          rw [length_krealloc, length_krealloc]
          exact ⟨Nat.le_refl n, Nat.le_refl n⟩
        refine ⟨hholds.congr rfl rfl rfl rfl rfl ?_ ?_ (hcell _ _ hkept fun i hi => getD_krealloc h.vals (Nat.lt_trans hi hgrow)), rfl,
          rfl, fun _ => hlengths, fun _ _ => rfl⟩
        · exact Nat.le_trans (Nat.le_of_lt hgrow) hlengths.1
        · exact Nat.le_trans (Nat.le_of_lt hgrow) hlengths.2
  · rw [if_neg hgrow]
    have hle := Nat.not_lt.mp hgrow
    exact ⟨hholds, rfl, rfl, fun _ => ⟨Nat.le_trans hle hvalid.keys_length, Nat.le_trans hle hvalid.vals_length⟩, fun _ _ => rfl⟩

/-- Every allocation whose result is checked succeeds. -/
def Grant.all (grant : Grant) : Prop := grant.flags = true ∧ grant.keys = true ∧ grant.vals = true

/-- Whatever the size asked for and whichever checked allocation fails, the map stays. -/
theorem kh_t.Holds.kh_resize (hholds : h.Holds hash map) (grant : Grant) (x : UInt32)
    (hgrant : new_buckets x < h.n_buckets → grant.shrunk_keys = true ∧ grant.shrunk_vals = true) :
    ∃ ret h', kh_resize hash grant h x = some (ret, h') ∧ h'.Holds hash map ∧ h'.size = h.size ∧
      (ret = 0 ∧ (h' = h ∧ hash_upper (new_buckets x) ≤ h.size ∨ h.size < hash_upper (new_buckets x) ∧ Resized h h' (new_buckets x)) ∨
        ret = -1 ∧ ¬ grant.all) := by
  rw [aflnet.kh_resize]
  by_cases hsmall : hash_upper (new_buckets x) ≤ h.size
  · rw [if_pos hsmall]
    exact ⟨0, h, rfl, hholds, rfl, Or.inl ⟨rfl, Or.inl ⟨rfl, hsmall⟩⟩⟩
  rw [if_neg hsmall]
  cases hflags : grant.flags with
  | false => exact ⟨-1, h, rfl, hholds, rfl, Or.inr ⟨rfl, fun hall => by rw [hall.1] at hflags; cases hflags⟩⟩
  | true =>
    obtain ⟨hlarger, hbuckets, hsize, hlengths, hgranted⟩ := hholds.enlarge grant (new_buckets x)
    simp only [Bool.not_true, Bool.false_eq_true, if_false]
    cases hok : (aflnet.enlarge grant h (new_buckets x)).1 with
    | false =>
      refine ⟨-1, _, rfl, hlarger, hsize, Or.inr ⟨rfl, fun hall => ?_⟩⟩
      rw [hgranted hall.2.1 hall.2.2] at hok
      cases hok
    | true =>
      obtain ⟨k, hk, hk', hpow⟩ := exists_new_buckets_eq x
      have hroom : (aflnet.enlarge grant h (new_buckets x)).2.size < hash_upper (2 ^ k) := by
        rw [hsize, ← hpow]
        exact Nat.lt_of_not_le hsmall
      obtain ⟨hkeys, hvals⟩ := hlengths hok
      obtain ⟨h', hrun, hh', hresized⟩ := hlarger.rehash hk hk' hroom (hpow ▸ hkeys) (hpow ▸ hvals) fun hsmaller =>
        hgrant (by rw [hpow, ← hbuckets]; exact hsmaller)
      rw [← hpow] at hrun hresized
      refine ⟨0, h', by rw [if_pos rfl, hrun]; rfl, hh', hresized.size.trans hsize, Or.inl ⟨rfl, Or.inr ⟨Nat.lt_of_not_le hsmall, ?_⟩⟩⟩
      exact ⟨hresized.n_buckets, hresized.size.trans hsize, hresized.n_occupied.trans hsize, hresized.upper_bound⟩

end resizing

end aflnet
