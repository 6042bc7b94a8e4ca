import AflnetLegion.Messages.Boundaries

open Checked

namespace aflnet

/-- The call returns before it does anything: the post handler returned no buffer. -/
def Stuff.Dropped (stuff : Stuff) : Prop := stuff.post_handler.isSome = true ∧ stuff.handled = []

/-- The call sends a buffer that is not empty and can be allocated, and the extractor
cuts it into consecutive regions. -/
structure Stuff.Sends (stuff : Stuff) : Prop where
  nonempty : stuff.handled ≠ []
  allocatable : stuff.handled.length ≤ MAX_ALLOC
  partitions : Partitions (stuff.extract_requests stuff.handled) stuff.handled.length

namespace Messages.Split

variable {st : Messages} {A B C : List Nat} {t : Nat} {M1 M2 M3 : List message_t}

theorem size_eq (h : st.Split A B C t M1 M2 M3) : st.kl_messages.size = (M1 ++ M2 ++ M3).length :=
  h.lists.size.trans h.lists.length_eq

/-- One call that sends a buffer: the new messages are the parts of the buffer and take the
place of M2; M1 and M3 stay. -/
theorem common_fuzz_stuff (h : st.Split A B C t M1 M2 M3) {stuff : Stuff} (hsends : stuff.Sends) :
    ∃ st' D t' N, aflnet.common_fuzz_stuff stuff st = pure st' ∧ st'.Split A D C t' M1 N M3 ∧
      (N.map message_t.mdata).flatten = stuff.handled ∧ st.Released B D st' := by
  rw [aflnet.common_fuzz_stuff, if_neg (fun hdropped => hsends.nonempty hdropped.2)]
  exact h.update hsends.partitions hsends.nonempty hsends.allocatable stuff.max_seed_region_count

/-- M1 and M3 stay over any number of calls. -/
theorem fuzz_all {calls : List Stuff} (h : st.Split A B C t M1 M2 M3)
    (hcalls : ∀ stuff ∈ calls, stuff.Dropped ∨ stuff.Sends) :
    ∃ st' D t' N, aflnet.fuzz_all calls st = pure st' ∧ st'.Split A D C t' M1 N M3 := by
  induction calls generalizing st B t M2 with
  | nil => exact ⟨st, B, t, M2, rfl, h⟩
  | cons stuff calls ih =>
    have hrest : ∀ other ∈ calls, other.Dropped ∨ other.Sends := fun other hother =>
      hcalls other (List.mem_cons_of_mem _ hother)
    rcases hcalls stuff (List.mem_cons_self ..) with ⟨hhandler, hnone⟩ | hsends
    · obtain ⟨st', D, t', N, heq, hsplit⟩ := ih h hrest
      refine ⟨st', D, t', N, ?_, hsplit⟩
      rw [aflnet.fuzz_all, aflnet.common_fuzz_stuff, if_pos ⟨hhandler, hnone⟩, pure_bind, heq]
    · obtain ⟨st₁, E, u, L, hcall, hsplit₁, _⟩ := h.common_fuzz_stuff hsends
      obtain ⟨st', D, t', N, heq, hsplit⟩ := ih hsplit₁ hrest
      refine ⟨st', D, t', N, ?_, hsplit⟩
      rw [aflnet.fuzz_all, hcall, pure_bind, heq]

end Messages.Split

/-- From the list that `fuzz_one` builds on, and after any number of calls of
`common_fuzz_stuff`, a further call leaves M1 and M3 as they are, puts messages that
make up the buffer between them, and releases the previous M2 and nothing else. -/
theorem M2_replacement_keeps_list {heap : Heap message_t} {file in_buf : List UInt8} {regions : List region_t}
    {region_count : Nat} {M2_start_region_ID M2_region_count : UInt32} {st : Messages}
    (hbuilt : Returns (fuzz_one_messages heap file regions region_count M2_start_region_ID M2_region_count) (st, in_buf))
    (hstart : M2_start_region_ID.toNat < (regions.take region_count).length) (hcount : 0 < M2_region_count.toNat)
    (hfew : region_count < 4294967296) (hwrap : M2_start_region_ID.toNat + M2_region_count.toNat < 4294967296) :
    ∃ A B C t M1 M2 M3, st.Split A B C t M1 M2 M3 ∧
      M1 ++ M2 ++ M3 = fread_messages (regions.take region_count) file ∧ M1.length = M2_start_region_ID.toNat ∧
      in_buf = (M2.map message_t.mdata).flatten ∧
      ∀ calls : List Stuff, (∀ stuff ∈ calls, stuff.Dropped ∨ stuff.Sends) →
        ∃ st₁ B₁ t₁ N₁, fuzz_all calls st = pure st₁ ∧ st₁.Split A B₁ C t₁ M1 N₁ M3 ∧
          ∀ stuff : Stuff, stuff.Sends → ∃ st₂ B₂ t₂ N₂,
            common_fuzz_stuff stuff st₁ = pure st₂ ∧ st₂.Split A B₂ C t₂ M1 N₂ M3 ∧
              (N₂.map message_t.mdata).flatten = stuff.handled ∧
              st₂.kl_messages.size = (M1 ++ N₂ ++ M3).length ∧ st₁.Released B₁ B₂ st₂ := by
  obtain ⟨A, B, C, t, M1, M2, M3, hsplit, hmessages, hfirst, hbuf⟩ :=
    fuzz_one_messages_split hbuilt hstart hcount hfew hwrap
  refine ⟨A, B, C, t, M1, M2, M3, hsplit, hmessages, hfirst, hbuf, fun calls hcalls => ?_⟩
  obtain ⟨st₁, B₁, t₁, N₁, hrun, hsplit₁⟩ := hsplit.fuzz_all hcalls
  refine ⟨st₁, B₁, t₁, N₁, hrun, hsplit₁, fun stuff hsends => ?_⟩
  obtain ⟨st₂, B₂, t₂, N₂, hcall, hsplit₂, hflatten, hreleased⟩ := hsplit₁.common_fuzz_stuff hsends
  exact ⟨st₂, B₂, t₂, N₂, hcall, hsplit₂, hflatten, hsplit₂.size_eq, hreleased⟩

/-- A call that sends a buffer which has been cut into the given regions. -/
def Stuff.of_regions (out_buf : List UInt8) (regions : List region_t) (max_seed_region_count : Nat) : Stuff :=
  { out_buf, post_handler := none, extract_requests := fun _ => regions, max_seed_region_count }

/-- Two commands of three bytes each take the place of the second of three, and one
takes theirs. -/
theorem M2_replaced_twice : ∃ st in_buf, Returns (fuzz_one_messages ⟨[]⟩ [85, 13, 10, 80, 13, 10, 81, 13, 10]
      [.fresh 0 2, .fresh 3 5, .fresh 6 8] 3 1 1) (st, in_buf) ∧ in_buf = [80, 13, 10] ∧
    ∃ A C M1 M3 st₁ st₂ B t N,
      fuzz_all [.of_regions [65, 13, 10, 66, 13, 10] [.fresh 0 2, .fresh 3 5] 10] st = pure st₁ ∧
      common_fuzz_stuff (.of_regions [67, 13, 10] [.fresh 0 2] 10) st₁ = pure st₂ ∧ st₂.Split A B C t M1 N M3 ∧
      M1.length = 1 ∧ (N.map message_t.mdata).flatten = [67, 13, 10] := by
  have hfirst : (Stuff.of_regions [65, 13, 10, 66, 13, 10] [.fresh 0 2, .fresh 3 5] 10).Sends :=
    ⟨by decide, by decide, ⟨⟨rfl, rfl, rfl⟩, by decide⟩⟩
  have hsecond : (Stuff.of_regions [67, 13, 10] [.fresh 0 2] 10).Sends :=
    ⟨by decide, by decide, ⟨⟨rfl, rfl⟩, by decide⟩⟩
  have hbuilt : ∃ st in_buf, Returns (fuzz_one_messages ⟨[]⟩ [85, 13, 10, 80, 13, 10, 81, 13, 10]
      [.fresh 0 2, .fresh 3 5, .fresh 6 8] 3 1 1) (st, in_buf) ∧ in_buf = [80, 13, 10] :=
    ⟨_, _, ⟨true, [], [], rfl⟩, rfl⟩
  obtain ⟨st, in_buf, hbuilt, hbuf⟩ := hbuilt
  obtain ⟨A, _, C, _, M1, _, M3, _, _, hlength, _, hcalls⟩ :=
    M2_replacement_keeps_list hbuilt (by decide) (by decide) (by decide) (by decide)
  obtain ⟨st₁, _, _, _, hrun, _, hcall⟩ := hcalls [.of_regions [65, 13, 10, 66, 13, 10] [.fresh 0 2, .fresh 3 5] 10]
    fun stuff hstuff => Or.inr (List.mem_singleton.mp hstuff ▸ hfirst)
  obtain ⟨st₂, B, t, N, hlast, hsplit, hflatten, _⟩ := hcall _ hsecond
  exact ⟨st, in_buf, hbuilt, hbuf, A, C, M1, M3, st₁, st₂, B, t, N, hrun, hlast, hsplit, hlength, hflatten⟩

end aflnet
