import Mathlib.Data.List.Basic

namespace aflnet

/-- A slice of a seed file holding one request. A missing `state_sequence` is the
NULL pointer of a region without annotation; `state_count` may be smaller than the
array it counts into, but never larger. -/
structure region_t where
  start_byte : Int
  end_byte : Int
  state_sequence : Option (List UInt32)
  state_count : Nat
  allocated : state_count ≤ (state_sequence.getD []).length
  deriving DecidableEq, Repr

/-- A region as it is found in a buffer, without annotation. -/
def region_t.fresh (start_byte end_byte : Int) : region_t :=
  { start_byte, end_byte, state_sequence := none, state_count := 0, allocated := Nat.zero_le _ }

/-- A region annotated with a freshly extracted code sequence. -/
def region_t.annotated (start_byte end_byte : Int) (codes : List UInt32) : region_t :=
  { start_byte, end_byte, state_sequence := some codes, state_count := codes.length, allocated := by simp }

/-- The codes a region is annotated with. -/
def region_t.codes (region : region_t) : List UInt32 :=
  (region.state_sequence.getD []).take region.state_count

/-- The codes are as many as `state_count` says, whatever the array holds behind them. -/
@[simp] theorem region_t.length_codes (region : region_t) :
    region.codes.length = region.state_count := by
  simp [region_t.codes, region.allocated]

/-- A region that is annotated with codes has these codes. -/
@[simp] theorem region_t.codes_annotated (start_byte end_byte : Int) (codes : List UInt32) :
    (region_t.annotated start_byte end_byte codes).codes = codes := by
  simp [region_t.codes, region_t.annotated]

@[simp] theorem region_t.state_count_annotated (start_byte end_byte : Int) (codes : List UInt32) :
    (region_t.annotated start_byte end_byte codes).state_count = codes.length := rfl

/-- A seed of the queue. Only the first `region_count` entries of the region array are in use,
and the array has at least as many: after regions were removed there are more. -/
structure queue_entry where
  fname : String
  regions : List region_t
  region_count : Nat
  allocated : region_count ≤ regions.length
  deriving DecidableEq, Repr

/-- A queue entry all of whose regions are in use. -/
def queue_entry.of_regions (fname : String) (regions : List region_t) : queue_entry :=
  { fname, regions, region_count := regions.length, allocated := Nat.le_refl _ }

/-- The regions in use. -/
def queue_entry.live_regions (q : queue_entry) : List region_t := q.regions.take q.region_count

@[simp] theorem queue_entry.length_live_regions (q : queue_entry) :
    q.live_regions.length = q.region_count := by
  simp [queue_entry.live_regions, q.allocated]

@[simp] theorem queue_entry.live_regions_of_regions (fname : String) (regions : List region_t) :
    (queue_entry.of_regions fname regions).live_regions = regions := by
  simp [queue_entry.live_regions, queue_entry.of_regions]

/-- The bytes of a `u32` as a little-endian machine stores it. -/
def u32_bytes (code : UInt32) : List UInt8 :=
  [code.toUInt8, (code >>> 8).toUInt8, (code >>> 16).toUInt8, (code >>> 24).toUInt8]

/-- The bytes of an array of codes in memory. -/
def bytes_of (codes : List UInt32) : List UInt8 := codes.flatMap u32_bytes

/-- `memcmp(a, b, count) == 0` on two arrays of codes: `count` is in bytes, while the callers
pass numbers of codes. -/
def memcmp_eq (a b : List UInt32) (count : Nat) : Bool :=
  (bytes_of a).take count == (bytes_of b).take count

/-- The first `count` bytes of an array lie in its first `count` codes. -/
theorem take_bytes_of_take (codes : List UInt32) {count kept : Nat} (h : count ≤ 4 * kept) :
    (bytes_of (codes.take kept)).take count = (bytes_of codes).take count := by
  induction codes generalizing count kept with
  | nil => simp
  | cons code rest ih =>
    cases kept with
    | zero => simp [Nat.le_zero.mp h]
    | succ kept =>
      have hlen : (u32_bytes code).length = 4 := rfl
      simp only [bytes_of, List.take_succ_cons, List.flatMap_cons, List.take_append, hlen] at ih ⊢
      rw [ih (by omega)]

/-- Arrays that agree on their first `kept` codes agree on every byte range
inside them. -/
theorem memcmp_eq_of_take_eq {a b : List UInt32} {count kept : Nat} (h : a.take kept = b.take kept)
    (hcount : count ≤ 4 * kept) : memcmp_eq a b count = true := by
  rw [memcmp_eq, ← take_bytes_of_take a hcount, ← take_bytes_of_take b hcount, h]
  simp

end aflnet
