import AflnetLegion.Hash.Rehash

namespace aflnet

variable {K V : Type} [Inhabited K] [Inhabited V] (hash : K → UInt32)

/-- Room for one more entry: what `kh_resize` returns, and the table. If fewer than half of the
buckets have entries, the table is rehashed in its size to get rid of deleted ones. -/
def make_room (grant : Grant) (h : kh_t K V) : Option (Int × kh_t K V) :=
  if h.upper_bound ≤ h.n_occupied then
    if (h.size <<< 1) % 2 ^ 32 < h.n_buckets then kh_resize hash grant h (UInt32.ofNat (h.n_buckets - 1))
    else kh_resize hash grant h (UInt32.ofNat (h.n_buckets + 1))
  else some (0, h)

section room

variable {hash} {h : kh_t K V} {map : K → Option V}

theorem kh_t.Valid.size_le (hvalid : h.Valid hash) : h.size ≤ h.n_occupied := by
  rw [hvalid.size_eq, hvalid.n_occupied_eq]
  exact OpenTable.length_contents_le_occupied

/-- There is room for one more entry afterwards, or an allocation has failed. The map stays in
both cases. -/
theorem kh_t.Holds.make_room (hholds : h.Holds hash map) (hsize : h.size < 2 ^ 30) (grant : Grant) :
    ∃ ret h', make_room hash grant h = some (ret, h') ∧ h'.Holds hash map ∧ h'.size = h.size ∧
      (ret = 0 ∧ h'.n_occupied < h'.upper_bound ∨ ret = -1 ∧ ¬ grant.all) := by
  have hvalid := hholds.valid
  have hle := hvalid.size_le
  have hupper := hvalid.upper_bound_eq
  have hoccupied := hvalid.n_occupied_le
  rw [aflnet.make_room]
  by_cases hfull : h.upper_bound ≤ h.n_occupied
  · rw [if_pos hfull]
    -- Either branch asks for a number of buckets that leaves room, and for no fewer than there are.
    have hresize : ∀ x, h.size < hash_upper (new_buckets x) → h.n_buckets ≤ new_buckets x →
        ∃ ret h', aflnet.kh_resize hash grant h x = some (ret, h') ∧ h'.Holds hash map ∧ h'.size = h.size ∧ (ret = 0 ∧ h'.n_occupied < h'.upper_bound ∨ ret = -1 ∧ ¬ grant.all) := by
      intro x hroom hlarge
      obtain ⟨ret, h', hrun, hh', hsize', hcases⟩ :=
        hholds.kh_resize grant x fun hsmaller => absurd hsmaller (Nat.not_lt.mpr hlarge)
      refine ⟨ret, h', hrun, hh', hsize', ?_⟩
      rcases hcases with ⟨hret, ⟨_, hsmall⟩ | ⟨_, hresized⟩⟩ | hfailed
      · exact absurd hroom (Nat.not_lt.mpr hsmall)
      · exact Or.inl ⟨hret, by rw [hresized.n_occupied, hresized.upper_bound]; exact hroom⟩
      · exact Or.inr hfailed
    have hdouble : (h.size <<< 1) % 2 ^ 32 = 2 * h.size := by
      rw [Nat.shiftLeft_eq]
      omega
    rw [hdouble]
    obtain hzero | ⟨k, hk, hk', hpow⟩ := hvalid.buckets
    · rw [hzero, hash_upper_zero] at hupper
      rw [hzero, if_neg (Nat.not_lt_zero _)]
      refine hresize _ ?_ (by rw [hzero]; exact Nat.zero_le _)
      have hfour : hash_upper (new_buckets (UInt32.ofNat (0 + 1))) = 3 := by decide
      omega
    · have hfour := four_le_pow hk
      have hlt := hash_upper_lt hfour
      have hhalf := lt_two_mul_hash_upper hfour
      rw [hpow] at hupper ⊢
      by_cases hmany : 2 * h.size < 2 ^ k
      · rw [if_pos hmany]
        have hsame := new_buckets_pred hk hk'
        refine hresize _ ?_ (Nat.le_of_eq (hpow.trans hsame.symm))
        rw [hsame]
        omega
      · rw [if_neg hmany]
        have hsmall : k ≤ 30 := by
          by_contra hbig
          have : 2 ^ 31 ≤ 2 ^ k := Nat.pow_le_pow_right (by decide) (by omega)
          omega
        have hdoubled := new_buckets_succ hk hsmall
        have hnext := lt_two_mul_hash_upper (four_le_pow (show 2 ≤ k + 1 by omega))
        refine hresize _ ?_ (by rw [hdoubled, hpow, Nat.pow_succ]; omega)
        rw [hdoubled]
        rw [Nat.pow_succ] at hnext ⊢
        omega
  · rw [if_neg hfull]
    exact ⟨0, h, rfl, hholds, rfl, Or.inl ⟨rfl, Nat.lt_of_not_le hfull⟩⟩

theorem kh_t.Valid.n_buckets_ne_zero (hvalid : h.Valid hash) (hroom : h.n_occupied < h.upper_bound) : h.n_buckets ≠ 0 := by
  intro hzero
  rw [hvalid.upper_bound_eq, hzero, hash_upper_zero] at hroom
  exact absurd hroom (Nat.not_lt_zero _)

/-- A table with empty buckets only. -/
theorem holds_of_empty {h' : kh_t K V} (hvalid : h.Valid hash) (hbuckets : h'.n_buckets = h.n_buckets) (hupper : h'.upper_bound = h.upper_bound)
    (hkeys : h'.keys = h.keys) (hvals : h'.vals = h.vals) (hflags : ∀ i < h.n_buckets, i / 16 < h'.flags.length)
    (hsize : h'.size = 0) (hoccupied : h'.n_occupied = 0) (hempty : ∀ i < h.n_buckets, h'.bucket i = .empty) :
    h'.Holds hash fun _ => none := by
  have hentries : h'.entries = [] := by
    rw [kh_t.entries, hbuckets, OpenTable.contents]
    refine List.filterMap_eq_nil_iff.mpr fun i hi => ?_
    rw [hempty i (List.mem_range.mp hi)]
    rfl
  have hcount : OpenTable.occupied h'.bucket h.n_buckets = 0 := by
    refine List.countP_eq_zero.mpr fun i hi => ?_
    rw [hempty i (List.mem_range.mp hi)]
    exact Bool.false_ne_true
  refine ⟨⟨hbuckets ▸ hvalid.buckets, ?_, ?_, ?_, ?_, ?_, ?_, ?_, ?_⟩, hentries ▸ OpenTable.represents_nil⟩
  · rw [hupper, hbuckets, hvalid.upper_bound_eq]
  · rw [hoccupied]
    exact Nat.zero_le _
  · rw [hoccupied, hbuckets, hcount]
  · rw [hsize, hentries]
    rfl
  · rw [hbuckets]
    exact hflags
  · rw [hbuckets, hkeys]
    exact hvalid.keys_length
  · rw [hbuckets, hvals]
    exact hvalid.vals_length
  · rw [hbuckets]
    exact OpenTable.reachable_of_empty hempty

/-- A table that is cleared stands for the empty map, whatever it held. -/
theorem kh_t.Holds.kh_clear (hholds : h.Holds hash map) : (kh_clear h).Holds hash fun _ => none := by
  have hvalid := hholds.valid
  rw [aflnet.kh_clear]
  by_cases hflags : h.flags = []
  · have hzero : h.n_buckets = 0 := by
      by_contra hne
      have hword := hvalid.flags_length 0 (Nat.pos_of_ne_zero hne)
      rw [hflags] at hword
      exact absurd hword (Nat.not_lt_zero _)
    have hoccupied : h.n_occupied = 0 := by
      have hle := hvalid.n_occupied_le
      rw [hvalid.upper_bound_eq, hzero, hash_upper_zero] at hle
      exact Nat.eq_zero_of_le_zero hle
    have hsize : h.size = 0 := Nat.eq_zero_of_le_zero (hoccupied ▸ hvalid.size_le)
    rw [if_neg (not_not.mpr hflags)]
    exact holds_of_empty hvalid rfl rfl rfl rfl hvalid.flags_length hsize hoccupied fun i hi => absurd hi (by omega)
  · rw [if_pos hflags]
    have hword : ∀ i < h.n_buckets, i / 16 < ac_fsize h.n_buckets := by
      intro i hi
      obtain hzero | ⟨k, _, _, hpow⟩ := hvalid.buckets
      · omega
      · exact div_lt_ac_fsize hi (hpow ▸ mod_or_lt k)
    refine holds_of_empty hvalid rfl rfl rfl rfl (fun i hi => ?_) rfl rfl fun i hi => ?_
    · rw [empty_flags, List.length_replicate]
      exact hword i hi
    · rw [kh_t.bucket, aflnet.bucket, ac_isempty_empty_flags (hword i hi), if_pos rfl]

theorem holds_kh_init (hash : K → UInt32) : (kh_init K V).Holds hash fun _ => none :=
  ⟨⟨Or.inl rfl, hash_upper_zero.symm, Nat.le_refl 0, rfl, rfl, fun _ hi => absurd hi (Nat.not_lt_zero _), Nat.le_refl 0, Nat.le_refl 0,
    fun _ hi => absurd hi (Nat.not_lt_zero _)⟩, OpenTable.represents_nil⟩

end room

variable [DecidableEq K]

/-- The bucket, `*ret` and the table. Without room for another entry -1 is stored in `*ret` and
nothing is put, even if the key is there already. -/
def kh_put (grant : Grant) (h : kh_t K V) (key : K) : Option (Nat × Int × kh_t K V) := do
  let (status, h) ← make_room hash grant h
  if status < 0 then some (h.n_buckets, -1, h)
  else
    let x ← find_site hash h key
    some (x, put_key h key x)

/-- A use of a table, with the allocations that are granted to it. What is put is a key with its
value, unless there is no room; `clear` and `resize` are there because the program uses them,
too. -/
inductive TableOp (K V : Type) where
  | put (grant : Grant) (key : K) (value : V)
  | get (key : K)
  | del (key : K)
  | clear
  | resize (grant : Grant) (new_n_buckets : UInt32)

/-- What a use of a table returns: the status of a put or a resize, or the value that was found.
-/
inductive TableReply (V : Type) where
  | status (ret : Int)
  | value (found : Option V)
  | done

/-- One use of a table, with the functions of `khash.h` called as the program calls them: a
value is written behind a put that worked, and a key is looked up before it is deleted. -/
def table_step (h : kh_t K V) : TableOp K V → Option (TableReply V × kh_t K V)
  | .put grant key value => do
    let (x, ret, h) ← kh_put hash grant h key
    some (.status ret, if ret = -1 then h else set_kh_value h x value)
  | .get key => do
    let x ← kh_get hash h key
    some (.value (if x = h.n_buckets then none else some (kh_value h x)), h)
  | .del key => do
    let x ← kh_get hash h key
    some (.done, kh_del h x)
  | .clear => some (.done, kh_clear h)
  | .resize grant new_n_buckets => do
    let (ret, h) ← kh_resize hash grant h new_n_buckets
    some (.status ret, h)

/-- Uses one after the other, with their replies. The run has no result where a use reads an
array that is not there. -/
def table_run (h : kh_t K V) : List (TableOp K V) → Option (List (TableReply V) × kh_t K V)
  | [] => some ([], h)
  | op :: ops => do
    let (reply, h) ← table_step hash h op
    let (replies, h) ← table_run h ops
    some (reply :: replies, h)

/-- What a use of a map does, with the reply. A put of a new key may answer 1 or 2, by whether a
deleted bucket was reused, and only an allocation that fails keeps an entry out. -/
inductive MapStep (map : K → Option V) : TableOp K V → TableReply V → (K → Option V) → Prop where
  | put_new {grant key value ret} (hnew : map key = none) (hret : ret = 1 ∨ ret = 2) :
      MapStep map (.put grant key value) (.status ret) (Function.update map key (some value))
  | put_again {grant key value} (hold : map key ≠ none) :
      MapStep map (.put grant key value) (.status 0) (Function.update map key (some value))
  | put_failed {grant key value} (hfailed : ¬ grant.all) : MapStep map (.put grant key value) (.status (-1)) map
  | get {key} : MapStep map (.get key) (.value (map key)) map
  | del {key} : MapStep map (.del key) .done (Function.update map key none)
  | clear : MapStep map .clear .done fun _ => none
  | resize {grant new_n_buckets} : MapStep map (.resize grant new_n_buckets) (.status 0) map
  | resize_failed {grant new_n_buckets} (hfailed : ¬ grant.all) : MapStep map (.resize grant new_n_buckets) (.status (-1)) map

/-- The same uses of a map, one after the other. What a map replies is not always determined, as
`kh_put` may fail. -/
inductive MapRun : (K → Option V) → List (TableOp K V) → List (TableReply V) → (K → Option V) → Prop where
  | nil {map} : MapRun map [] [] map
  | cons {map map' last op ops reply replies} (hstep : MapStep map op reply map') (hrest : MapRun map' ops replies last) :
      MapRun map (op :: ops) (reply :: replies) last

/-- Whether the use may add an entry, which is what the size of a table is bounded by. -/
def TableOp.isPut : TableOp K V → Bool
  | .put .. => true
  | _ => false

/-- A call of `kh_resize` whose arrays can be made smaller. A put never makes them smaller. -/
def TableOp.shrinks : TableOp K V → Bool
  | .resize grant _ => grant.shrunk_keys && grant.shrunk_vals
  | _ => true

variable {hash} {h : kh_t K V} {map : K → Option V} {grant : Grant} {key : K} {value : V}

/-- The key has a bucket, or an allocation has failed and the map is the same. -/
theorem kh_t.Holds.kh_put (hholds : h.Holds hash map) (hsize : h.size < 2 ^ 30) (grant : Grant) (key : K) :
    ∃ x ret h', kh_put hash grant h key = some (x, ret, h') ∧ h'.size ≤ h.size + 1 ∧
      (ret = -1 ∧ ¬ grant.all ∧ h'.Holds hash map ∨ Answer map key ret ∧ x < h'.n_buckets ∧ h'.bucket x = .live (key, kh_value h' x) ∧
        h'.Holds hash (Function.update map key (some (kh_value h' x)))) := by
  obtain ⟨status, h₁, hroom, hholds₁, hsize₁, hcases⟩ := hholds.make_room hsize grant
  rw [aflnet.kh_put, hroom]
  simp only [Option.bind_eq_bind, Option.bind_some]
  rcases hcases with ⟨rfl, hfree⟩ | ⟨rfl, hfailed⟩
  · obtain ⟨x, hfind, hsite⟩ := hholds₁.valid.find_site (hholds₁.valid.n_buckets_ne_zero hfree) key
    obtain ⟨hput, hlive, hlt, hgrown, hanswer⟩ := hholds₁.put_key hfree hsite
    rw [if_neg (Int.lt_irrefl 0), hfind]
    exact ⟨x, _, _, rfl, hsize₁ ▸ hgrown, Or.inr ⟨hanswer, hlt, hlive, hput⟩⟩
  · exact ⟨_, _, h₁, if_pos (by decide), by omega, Or.inl ⟨rfl, hfailed, hholds₁⟩⟩

/-- What `kh_get` says about the key. -/
theorem kh_t.Holds.kh_get (hholds : h.Holds hash map) (key : K) : ∃ x, kh_get hash h key = some x ∧
    (x = h.n_buckets ∧ map key = none ∨ x < h.n_buckets ∧ h.bucket x = .live (key, kh_value h x) ∧ map key = some (kh_value h x)) := by
  obtain ⟨hvalid, hrepresents⟩ := hholds
  obtain ⟨x, hget, hfound⟩ := hvalid.kh_get key
  refine ⟨x, hget, ?_⟩
  cases hfound with
  | absent hnot => exact Or.inl ⟨rfl, hrepresents.eq_none_iff.mpr hnot⟩
  | present hx hlive =>
    exact Or.inr ⟨hx, hlive, (hrepresents.mem_iff key _).mp (OpenTable.mem_contents_iff.mpr ⟨x, hx, hlive⟩)⟩

/-- One use of a table is a use of the map that it stands for, and has the same reply. It may
add at most one entry. -/
theorem kh_t.Holds.table_step (hholds : h.Holds hash map) (op : TableOp K V) (hsize : op.isPut = true → h.size < 2 ^ 30)
    (hshrinks : op.shrinks = true) :
    ∃ reply h' map', table_step hash h op = some (reply, h') ∧ MapStep map op reply map' ∧ h'.Holds hash map' ∧
      h'.size ≤ h.size + op.isPut.toNat := by
  cases op with
  | put grant key value =>
    obtain ⟨x, ret, h', hput, hgrown, hcases⟩ := hholds.kh_put (hsize rfl) grant key
    rw [aflnet.table_step, hput]
    rcases hcases with ⟨rfl, hfailed, hsame⟩ | ⟨hanswer, hx, hlive, hholds'⟩
    · exact ⟨_, h', map, rfl, .put_failed hfailed, hsame, hgrown⟩
    · have hne : ret ≠ -1 := by
        rintro rfl
        rcases hanswer with ⟨hret, _⟩ | ⟨hret | hret, _⟩ <;> cases hret
      have hwritten := hholds'.set_kh_value hx hlive value
      rw [Function.update_idem] at hwritten
      refine ⟨.status ret, aflnet.set_kh_value h' x value, _, ?_, ?_, hwritten, hgrown⟩
      · simp only [Option.bind_eq_bind, Option.bind_some, if_neg hne]
      · rcases hanswer with ⟨rfl, hold⟩ | ⟨hret, hnew⟩
        · exact .put_again hold
        · exact .put_new hnew hret
  | get key =>
    obtain ⟨x, hget, hcases⟩ := hholds.kh_get key
    have hvalue : (if x = h.n_buckets then none else some (kh_value h x)) = map key := by
      rcases hcases with ⟨hend, hmap⟩ | ⟨hx, _, hmap⟩
      · rw [if_pos hend, hmap]
      · rw [if_neg (Nat.ne_of_lt hx), hmap]
    refine ⟨.value (map key), h, map, ?_, .get, hholds, Nat.le_refl _⟩
    rw [aflnet.table_step, hget, ← hvalue]
    rfl
  | del key =>
    obtain ⟨x, hget, hcases⟩ := hholds.kh_get key
    rw [aflnet.table_step, hget]
    refine ⟨.done, aflnet.kh_del h x, _, rfl, .del, ?_, ?_⟩
    · rcases hcases with ⟨rfl, hmap⟩ | ⟨hx, hlive, _⟩
      · rw [kh_del_n_buckets, ← hmap, Function.update_eq_self]
        exact hholds
      · exact hholds.kh_del hx hlive
    · rw [aflnet.kh_del]
      split
      · exact Nat.sub_le _ _
      · exact Nat.le_refl _
  | clear =>
    refine ⟨.done, aflnet.kh_clear h, _, rfl, .clear, hholds.kh_clear, ?_⟩
    rw [aflnet.kh_clear]
    split
    · exact Nat.zero_le _
    · exact Nat.le_refl _
  | resize grant new_n_buckets =>
    obtain ⟨ret, h', hrun, hholds', hsize', hcases⟩ :=
      hholds.kh_resize grant new_n_buckets fun _ => Bool.and_eq_true_iff.mp hshrinks
    refine ⟨.status ret, h', map, by rw [aflnet.table_step, hrun]; rfl, ?_, hholds', Nat.le_of_eq hsize'⟩
    rcases hcases with ⟨rfl, _⟩ | ⟨rfl, hfailed⟩
    · exact .resize
    · exact .resize_failed hfailed

/-- Any uses of a table are uses of the map, as long as there are no more puts than a table can
hold. -/
theorem kh_t.Holds.table_run (hholds : h.Holds hash map) (ops : List (TableOp K V)) (hsize : h.size + ops.countP TableOp.isPut ≤ 2 ^ 30)
    (hshrinks : ∀ op ∈ ops, op.shrinks = true) :
    ∃ replies h' map', table_run hash h ops = some (replies, h') ∧ MapRun map ops replies map' ∧ h'.Holds hash map' := by
  induction ops generalizing h map with
  | nil => exact ⟨[], h, map, rfl, .nil, hholds⟩
  | cons op ops ih =>
    rw [List.countP_cons] at hsize
    have hroom : op.isPut = true → h.size < 2 ^ 30 := fun hput => by
      rw [hput, if_pos rfl] at hsize
      omega
    obtain ⟨reply, h₁, map₁, hstep, hmap, hholds₁, hgrown⟩ := hholds.table_step op hroom (hshrinks op List.mem_cons_self)
    have hbound : h₁.size + ops.countP TableOp.isPut ≤ 2 ^ 30 := by
      cases hput : op.isPut with
      | true =>
        rw [hput, Bool.toNat_true] at hgrown
        rw [hput, if_pos rfl] at hsize
        omega
      | false =>
        rw [hput, Bool.toNat_false] at hgrown
        rw [hput, if_neg Bool.false_ne_true] at hsize
        omega
    obtain ⟨replies, h₂, map₂, hrest, hmaps, hholds₂⟩ :=
      ih hholds₁ hbound fun other hother => hshrinks other (List.mem_cons_of_mem op hother)
    refine ⟨reply :: replies, h₂, map₂, ?_, .cons hmap hmaps, hholds₂⟩
    rw [aflnet.table_run, hstep]
    simp only [Option.bind_eq_bind, Option.bind_some, hrest]

/-- A table used in any way answers as the map does that it stands for, whichever of its growing
allocations fail, as long as the arrays are there after they have been made smaller. -/
theorem table_refines_map (hash : K → UInt32) (ops : List (TableOp K V)) (hputs : ops.countP TableOp.isPut ≤ 2 ^ 30)
    (hshrinks : ∀ op ∈ ops, op.shrinks = true) :
    ∃ replies h map, table_run hash (kh_init K V) ops = some (replies, h) ∧ MapRun (fun _ => none) ops replies map ∧ h.Holds hash map :=
  (holds_kh_init hash).table_run ops (by rw [kh_init, Nat.zero_add]; exact hputs) hshrinks

/-- The keys 5 and 9 share a bucket of four. The table grows to eight buckets without room for the
values, and then with it, and is made smaller again. -/
theorem table_refines_map_of_colliding_keys : ∃ replies h map,
    table_run id (kh_init UInt32 UInt8) [.put ⟨true, true, true, true, true⟩ 5 50, .put ⟨true, false, true, true, true⟩ 9 90,
      .resize ⟨true, true, false, true, true⟩ 8, .resize ⟨true, true, true, true, true⟩ 8, .del 5,
      .resize ⟨true, true, true, true, true⟩ 4, .get 9] = some (replies, h) ∧
      MapRun (fun _ => none) [.put ⟨true, true, true, true, true⟩ 5 50, .put ⟨true, false, true, true, true⟩ 9 90,
        .resize ⟨true, true, false, true, true⟩ 8, .resize ⟨true, true, true, true, true⟩ 8, .del 5,
        .resize ⟨true, true, true, true, true⟩ 4, .get 9] replies map ∧ h.Holds id map :=
  table_refines_map id [.put ⟨true, true, true, true, true⟩ 5 50, .put ⟨true, false, true, true, true⟩ 9 90,
    .resize ⟨true, true, false, true, true⟩ 8, .resize ⟨true, true, true, true, true⟩ 8, .del 5,
    .resize ⟨true, true, true, true, true⟩ 4, .get 9] (by decide) (by decide)

end aflnet
