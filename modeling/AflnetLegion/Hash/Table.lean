import AflnetLegion.Hash.Flags
import AflnetLegion.Hash.Size
import AflnetLegion.Lib.Probing

namespace aflnet

/-- A table of `khash.h`. In a set, the values say nothing. The arrays are lists, which are
empty before the first allocation, and the flags hold two bits for each bucket. -/
structure kh_t (K V : Type) where
  n_buckets : Nat
  size : Nat
  n_occupied : Nat
  upper_bound : Nat
  flags : List (BitVec 32)
  keys : List K
  vals : List V

variable {K V : Type} [DecidableEq K] [Inhabited K] [Inhabited V] (hash : K → UInt32)

/-- `kh_init`: all fields are 0, and no array has been allocated. The first `kh_put` makes the
arrays. -/
def kh_init (K V : Type) : kh_t K V :=
  { n_buckets := 0, size := 0, n_occupied := 0, upper_bound := 0, flags := [], keys := [], vals := [] }

/-- `kh_clear`: the flags are those of empty buckets. The arrays of a table without flags do not
exist. -/
def kh_clear (h : kh_t K V) : kh_t K V :=
  if h.flags ≠ [] then { h with flags := empty_flags h.n_buckets, size := 0, n_occupied := 0 } else h

/-- `i = (i + (++step)) & mask`, where `step` has been counted up already. The distances from
the first bucket are the triangular numbers. -/
def next_bucket (mask i step : Nat) : Nat := (i + step) % 2 ^ 32 &&& mask

/-- Whether a search goes on at this bucket: it is not empty, and it is deleted or has another
key. -/
def kh_t.passes (h : kh_t K V) (key : K) (i : Nat) : Bool :=
  !ac_isempty h.flags i && (ac_isdel h.flags i || decide (h.keys.getD i default ≠ key))

/-- The loop of `kh_get`. The result is the bucket of the key or the number of buckets, and
`none` only if the fuel does not suffice. -/
def get_loop (h : kh_t K V) (key : K) (mask last : Nat) : Nat → Nat → Nat → Option Nat
  | 0, _, _ => none
  | fuel + 1, i, step =>
    if h.passes key i then
      if next_bucket mask i (step + 1) = last then some h.n_buckets
      else get_loop h key mask last fuel (next_bucket mask i (step + 1)) (step + 1)
    else some (if ac_iseither h.flags i then h.n_buckets else i)

/-- The bucket of the key, or the number of buckets if there is none. The search gives up when
it is back at the bucket it started from. -/
def kh_get (h : kh_t K V) (key : K) : Option Nat :=
  if h.n_buckets ≠ 0 then
    let mask := h.n_buckets - 1
    let i := (hash key).toNat &&& mask
    get_loop h key mask i (2 * h.n_buckets) i 0
  else some 0

/-- The loop of `kh_put`: `x`, the bucket where it stops, and `site`, which is the last deleted
bucket it has come through. -/
def put_loop (h : kh_t K V) (key : K) (mask last : Nat) : Nat → Nat → Nat → Nat → Option (Nat × Nat × Nat)
  | 0, _, _, _ => none
  | fuel + 1, i, step, site =>
    if h.passes key i then
      let site := if ac_isdel h.flags i then i else site
      if next_bucket mask i (step + 1) = last then some (site, last, site)
      else put_loop h key mask last fuel (next_bucket mask i (step + 1)) (step + 1) site
    else some (h.n_buckets, i, site)

/-- The bucket that `kh_put` chooses: that of the key if it is there, otherwise a deleted one
that the search came through, or the empty one at which it ended. -/
def find_site (h : kh_t K V) (key : K) : Option Nat :=
  let mask := h.n_buckets - 1
  let i := (hash key).toNat &&& mask
  if ac_isempty h.flags i then some i
  else do
    let (x, i, site) ← put_loop h key mask i (2 * h.n_buckets) i 0 h.n_buckets
    if x = h.n_buckets then
      if ac_isempty h.flags i && decide (site ≠ h.n_buckets) then some site else some i
    else some x

/-- The key is written, unless it is there: 1 for an empty bucket, 2 for a deleted one. A
deleted bucket counts as occupied already. -/
def put_key (h : kh_t K V) (key : K) (x : Nat) : Int × kh_t K V :=
  if ac_isempty h.flags x then
    (1, { h with
      keys := h.keys.set x key, flags := ac_set_isboth_false h.flags x, size := h.size + 1, n_occupied := h.n_occupied + 1 })
  else if ac_isdel h.flags x then
    (2, { h with keys := h.keys.set x key, flags := ac_set_isboth_false h.flags x, size := h.size + 1 })
  else (0, h)

/-- `kh_del`, which ignores a bucket without an entry and the number of buckets itself. Only the
flag is set; the key and the value stay. -/
def kh_del (h : kh_t K V) (x : Nat) : kh_t K V :=
  if decide (x ≠ h.n_buckets) && !ac_iseither h.flags x then
    { h with flags := ac_set_isdel_true h.flags x, size := h.size - 1 }
  else h

/-- `kh_value(h, x)`, which reads the cell whether or not the bucket has an entry. -/
def kh_value (h : kh_t K V) (x : Nat) : V := h.vals.getD x default

/-- `kh_value(h, x) = value`. -/
def set_kh_value (h : kh_t K V) (x : Nat) (value : V) : kh_t K V := { h with vals := h.vals.set x value }

/-- What the flags and the arrays say about a bucket. A cell that is not there reads as the
default. -/
def bucket (flags : List (BitVec 32)) (keys : List K) (vals : List V) (i : Nat) : Bucket (K × V) :=
  if ac_isempty flags i then .empty
  else if ac_isdel flags i then .deleted
  else .live (keys.getD i default, vals.getD i default)

/-- The buckets of a table. -/
def kh_t.bucket (h : kh_t K V) : Nat → Bucket (K × V) := aflnet.bucket h.flags h.keys h.vals

/-- The entries of a table, in the order of their buckets. -/
def kh_t.entries (h : kh_t K V) : List (K × V) := OpenTable.contents h.bucket h.n_buckets

/-- The bucket that is looked at for a key after so many steps. -/
def probe_of (n_buckets : Nat) (key : K) (step : Nat) : Nat := Probing.probe n_buckets (hash key).toNat step

/-- The invariant of a table. The number of buckets is a power of two or 0, the counters agree
with the flags, and every live key is found by its probe sequence. -/
structure kh_t.Valid (h : kh_t K V) : Prop where
  buckets : h.n_buckets = 0 ∨ ∃ k, 2 ≤ k ∧ k ≤ 31 ∧ h.n_buckets = 2 ^ k
  upper_bound_eq : h.upper_bound = hash_upper h.n_buckets
  n_occupied_le : h.n_occupied ≤ h.upper_bound
  n_occupied_eq : h.n_occupied = OpenTable.occupied h.bucket h.n_buckets
  size_eq : h.size = h.entries.length
  flags_length : ∀ i < h.n_buckets, i / 16 < h.flags.length
  keys_length : h.n_buckets ≤ h.keys.length
  vals_length : h.n_buckets ≤ h.vals.length
  reachable : OpenTable.Reachable (probe_of hash h.n_buckets) h.bucket h.n_buckets

/-- The table stands for the map: its live buckets are the entries of the map, each of them
once. -/
structure kh_t.Holds (h : kh_t K V) (map : K → Option V) : Prop where
  valid : h.Valid hash
  represents : OpenTable.Represents h.entries map

end aflnet
