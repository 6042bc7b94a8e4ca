import AflnetLegion.Exec.Consistent
import Mathlib.Data.List.Infix

namespace aflnet.World

variable {setting : Setting} {w : World} {status : Wait}

/-- What the two programs agree on in any world, in terms of the history: the children that were
started, those that were waited for with their statuses, and the statuses that `run_target` took
for those of its children. -/
structure Agrees (w : World) : Prop where
  /-- Every request is served by one child, which is waited for once, before the next request. -/
  served : w.waited.map Prod.fst <+: w.started ∧ w.started.length ≤ w.waited.length + 1
  /-- `run_target` reads each status once, in order, and takes it for that of the child it belongs to. -/
  read : w.reported <+: w.reports ∧ w.waited.length ≤ w.reported.length + 1
  ctl_bounded : w.ctl.length ≤ 1
  st_bounded : w.st.length ≤ 2
  /-- What is taken for a process id is one, and what is taken for a status is one. -/
  pid_first : w.fuzzer.phase = .requested → w.st = [] ∨ ∃ rest, w.st = .pid w.server.child_pid :: rest
  status_first : w.fuzzer.phase = .awaiting_status → w.st = [] ∨ ∃ status, w.st = [.status status]
  /-- Between two runs nothing is in a pipe and everything has been read. -/
  idle : w.fuzzer.phase = .idle → w.ctl = [] ∧ w.st = [] ∧ w.reported = w.reports ∧ w.started.length = w.reported.length

/-- When the fork server is idle, as many children were waited for as were started. -/
theorem served_of_eq (hstarted : w.started = w.waited.map Prod.fst) :
    w.waited.map Prod.fst <+: w.started ∧ w.started.length ≤ w.waited.length + 1 := by
  rw [hstarted, List.length_map]
  exact ⟨List.prefix_refl _, Nat.le_succ _⟩

/-- While it is busy with a child, that child is the one that is missing. -/
theorem served_of_append {pid : Nat} (hstarted : w.started = w.waited.map Prod.fst ++ [pid]) :
    w.waited.map Prod.fst <+: w.started ∧ w.started.length ≤ w.waited.length + 1 := by
  rw [hstarted, List.length_append, List.length_map]
  exact ⟨List.prefix_append _ _, Nat.le_refl _⟩

/-- When the status pipe is empty, everything that was written has been read. -/
theorem read_of_eq (hreported : w.reported = w.reports) : w.reported <+: w.reports ∧ w.waited.length ≤ w.reported.length + 1 := by
  rw [hreported, reports, List.length_map]
  exact ⟨List.prefix_refl _, Nat.le_succ _⟩

theorem read_of_append {report : Int × Wait} (hreported : w.reported ++ [report] = w.reports) :
    w.reported <+: w.reports ∧ w.waited.length ≤ w.reported.length + 1 := by
  have hlength := congrArg List.length hreported
  rw [List.length_append, reports, List.length_map] at hlength
  exact ⟨hreported ▸ List.prefix_append _ _, Nat.le_of_eq hlength.symm⟩

/-- What is in the pipe of a busy fork server, and what follows it. -/
theorem Front.pipe {before after : List Report} (hfront : w.Front before) (hst : w.st = before ++ after)
    (hafter : after = [] ∨ ∃ status, after = [.status status]) :
    w.st.length ≤ 2 ∧ (w.fuzzer.phase = .requested → w.st = [] ∨ ∃ rest, w.st = .pid w.server.child_pid :: rest) ∧
      (w.fuzzer.phase = .awaiting_status → w.st = [] ∨ ∃ status, w.st = [.status status]) := by
  have hlength : after.length ≤ 1 := by
    rcases hafter with rfl | ⟨_, rfl⟩
    · exact Nat.zero_le 1
    · exact Nat.le_refl 1
  cases hfront with
  | requested hphase =>
    refine ⟨?_, fun _ => Or.inr ⟨after, hst⟩, fun hf => by cases hphase.symm.trans hf⟩
    rw [hst]
    exact Nat.succ_le_succ hlength
  | running hphase =>
    rw [List.nil_append] at hst
    refine ⟨?_, fun hf => ?_, fun _ => ?_⟩
    · rw [hst]
      exact Nat.le_succ_of_le hlength
    · rcases hphase with hp | hp | hp <;> cases hp.symm.trans hf
    · rw [hst]
      exact hafter

/-- The agreement follows from the invariant, in each of the places where the two programs can
be. -/
theorem Consistent.agrees (h : Consistent setting w) : w.Agrees := by
  cases h.row with
  | idle hfuzzer _ hctl hst _ _ hstarted hreported =>
    refine ⟨served_of_eq hstarted, read_of_eq hreported, by rw [hctl]; exact Nat.zero_le 1, by rw [hst]; exact Nat.zero_le 2,
      fun _ => Or.inl hst, fun _ => Or.inl hst, fun _ => ⟨hctl, hst, hreported, ?_⟩⟩
    rw [hstarted, hreported, reports, List.length_map, List.length_map]
  | asked hfuzzer _ _ hctl hst _ _ hstarted hreported =>
    exact ⟨served_of_eq hstarted, read_of_eq hreported, by rw [hctl]; exact Nat.le_refl 1, by rw [hst]; exact Nat.zero_le 2,
      fun _ => Or.inl hst, fun _ => Or.inl hst, fun hf => by cases hfuzzer.symm.trans hf⟩
  | reaping hfuzzer _ _ hctl hst _ _ _ hstarted hreported | forking hfuzzer _ _ hctl hst _ _ _ hstarted hreported =>
    exact ⟨served_of_eq hstarted, read_of_eq hreported, by rw [hctl]; exact Nat.zero_le 1, by rw [hst]; exact Nat.zero_le 2,
      fun _ => Or.inl hst, fun _ => Or.inl hst, fun hf => by cases hfuzzer.symm.trans hf⟩
  | started hfuzzer _ _ hctl hst _ _ _ hstarted hreported =>
    exact ⟨served_of_append hstarted, read_of_eq hreported, by rw [hctl]; exact Nat.zero_le 1, by rw [hst]; exact Nat.zero_le 2,
      fun _ => Or.inl hst, fun _ => Or.inl hst, fun hf => by cases hfuzzer.symm.trans hf⟩
  | running hfront hctl _ _ _ _ hstarted hreported =>
    obtain ⟨hlength, hpid, hstatus⟩ := hfront.pipe (List.append_nil _).symm (Or.inl rfl)
    refine ⟨served_of_append hstarted, read_of_eq hreported, by rw [hctl]; exact Nat.zero_le 1, hlength, hpid, hstatus, fun hf => ?_⟩
    rcases hfront.requested_or_busy with hp | hp | hp | hp <;> cases hp.symm.trans hf
  | waited status hfront hctl _ _ hstarted hreported =>
    obtain ⟨hlength, hpid, hstatus⟩ := hfront.pipe (List.append_nil _).symm (Or.inl rfl)
    refine ⟨served_of_eq hstarted, read_of_append hreported, by rw [hctl]; exact Nat.zero_le 1, hlength, hpid, hstatus, fun hf => ?_⟩
    rcases hfront.requested_or_busy with hp | hp | hp | hp <;> cases hp.symm.trans hf
  | told status before hfront hctl hst _ _ hstarted hreported =>
    obtain ⟨hlength, hpid, hstatus⟩ := hfront.pipe hst (Or.inr ⟨status, rfl⟩)
    refine ⟨served_of_eq hstarted, read_of_append hreported, by rw [hctl]; exact Nat.zero_le 1, hlength, hpid, hstatus, fun hf => ?_⟩
    rcases hfront.requested_or_busy with hp | hp | hp | hp <;> cases hp.symm.trans hf
  | status_read status hfuzzer _ _ hctl hst _ _ hstarted hreported | child_forgotten status hfuzzer _ _ hctl hst _ _ hstarted hreported =>
    exact ⟨served_of_eq hstarted, read_of_eq hreported, by rw [hctl]; exact Nat.zero_le 1, by rw [hst]; exact Nat.zero_le 2,
      fun _ => Or.inl hst, fun _ => Or.inl hst, fun hf => by cases hfuzzer.symm.trans hf⟩

/-- No status is lost, read twice or taken for another child's. The steps of the fuzzer, the
fork server, the child and the timer may come in any order, and the child may die of any signal
by itself. -/
theorem statuses_are_exact (setting : Setting) (h : w.Reachable setting) : w.Agrees := h.consistent.agrees

/-- A run that the timer ends. -/
def timed_out_run : List Action :=
  [.request, .read_request, .fork 7, .write_pid, .read_pid, .alarm, .wait, .write_status, .read_status, .forget_child]

/-- The run below leads to a reachable world, in which the status of the killed child has been
read. -/
theorem exists_timed_out (setting : Setting) : ∃ w : World, w.Reachable { setting with use_net := false } ∧
    w.fuzzer.phase = .child_forgotten (.signaled SIGKILL) := by
  obtain ⟨use_net, is_persistent⟩ := setting
  exact ⟨_, ⟨timed_out_run, .cons rfl (.cons rfl (.cons rfl (.cons rfl (.cons rfl (.cons rfl (.cons rfl (.cons rfl (.cons rfl (.cons rfl
    (.nil _))))))))))⟩, rfl⟩

theorem statuses_after_timeout : ∃ w : World, w.fuzzer.phase = .child_forgotten (.signaled SIGKILL) ∧ w.Agrees := by
  obtain ⟨w, hreachable, hphase⟩ := exists_timed_out { use_net := false, is_persistent := true }
  exact ⟨w, hphase, statuses_are_exact _ hreachable⟩

/-- What is known about the children in any world, and what follows for the steps that are about
a child: it is continued or waited for only in the state that the code takes for granted. -/
structure Accounted (w : World) : Prop where
  /-- There is one child at a time, and nobody has to wait for another one. -/
  one : ∀ pid, pid ≠ w.server.child_pid → w.process pid = .gone
  /-- A request says truly whether the child that has stopped was killed. -/
  told : w.server.child_stopped = true → ∀ was_killed ∈ w.ctl,
    w.process w.server.child_pid = if was_killed then .dead (.signaled SIGKILL) else .stopped
  /-- A child is waited for without a request only when it is dead. -/
  reaped : w.server.phase = .reaping → w.process w.server.child_pid = .dead (.signaled SIGKILL)
  /-- After a run the child is gone, unless it has stopped itself. -/
  idle : w.fuzzer.phase = .idle → w.server.child_stopped = false → w.process w.server.child_pid = .gone

/-- What is known about the children follows from the invariant too. -/
theorem Consistent.accounted (h : Consistent setting w) : w.Accounted := by
  have hnone : w.ctl = [] → w.server.child_stopped = true → ∀ was_killed ∈ w.ctl,
      w.process w.server.child_pid = if was_killed then .dead (.signaled SIGKILL) else .stopped := by
    intro hctl _ was_killed hmem
    rw [hctl] at hmem
    cases hmem
  cases h.row with
  | idle hfuzzer _ hctl _ hserver hrests =>
    refine ⟨h.others_gone, hnone hctl, fun hs => (by cases hserver.symm.trans hs), fun _ hstopped => ?_⟩
    rw [Rests, hstopped, if_neg Bool.false_ne_true] at hrests
    exact hrests
  | asked hfuzzer _ _ hctl _ hserver hrests =>
    refine ⟨h.others_gone, fun hstopped was_killed hmem => ?_, fun hs => (by cases hserver.symm.trans hs),
      fun hf => (by cases hfuzzer.symm.trans hf)⟩
    rw [hctl] at hmem
    rw [List.mem_singleton.mp hmem]
    rw [Rests, hstopped, if_pos rfl] at hrests
    exact hrests
  | reaping hfuzzer _ _ hctl _ _ _ hdead =>
    exact ⟨h.others_gone, hnone hctl, fun _ => hdead, fun hf => by cases hfuzzer.symm.trans hf⟩
  | forking hfuzzer _ _ hctl _ hserver | started hfuzzer _ _ hctl _ hserver =>
    exact ⟨h.others_gone, hnone hctl, fun hs => (by cases hserver.symm.trans hs), fun hf => by cases hfuzzer.symm.trans hf⟩
  | running hfront hctl hserver | waited _ hfront hctl hserver | told _ _ hfront hctl _ hserver =>
    refine ⟨h.others_gone, hnone hctl, fun hs => (by cases hserver.symm.trans hs), fun hf => ?_⟩
    rcases hfront.requested_or_busy with hp | hp | hp | hp <;> cases hp.symm.trans hf
  | status_read _ hfuzzer _ _ hctl _ hserver | child_forgotten _ hfuzzer _ _ hctl _ hserver =>
    exact ⟨h.others_gone, hnone hctl, fun hs => (by cases hserver.symm.trans hs), fun hf => by cases hfuzzer.symm.trans hf⟩

/-- The fork server continues a child only if it is alive and has stopped, and waits for a killed one only if it is dead,
although the timer may kill the child at any time. -/
theorem children_are_accounted_for (setting : Setting) (h : w.Reachable setting) : w.Accounted := h.consistent.accounted

theorem children_after_timeout : ∃ w : World, w.fuzzer.phase = .child_forgotten (.signaled SIGKILL) ∧ w.Accounted := by
  obtain ⟨w, hreachable, hphase⟩ := exists_timed_out { use_net := false, is_persistent := true }
  exact ⟨w, hphase, children_are_accounted_for _ hreachable⟩

end aflnet.World
