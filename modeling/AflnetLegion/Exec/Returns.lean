import AflnetLegion.Exec.Bounded

namespace aflnet.World

variable {setting : Setting} {w : World}

/-- A step of one of the two programs or of the timer is possible that is not a poll, which would leave everything as it is. -/
def CanGoOn (setting : Setting) (w : World) : Prop := ∃ action : Action, action.isOwn = true ∧ (w.step setting action).isSome = true

/-- The process id is in the pipe before anything else. -/
theorem canGoOn_of_pid {st : List Report} {pid : Nat} (hphase : w.fuzzer.phase = .requested) (hst : w.st = .pid pid :: st) :
    w.CanGoOn setting := by
  refine ⟨.read_pid, rfl, ?_⟩
  rw [World.step, read_pid, if_pos hphase, hst]
  rfl

/-- While the fork server waits for the child, the child is dead, or the timer is still set. -/
theorem Consistent.canGoOn_of_running {before : List Report} (hst : w.st = before) (hfront : w.Front before)
    (hserver : w.server.phase = .pid_written)
    (hdead : w.fuzzer.child_timed_out = true → ∃ status, w.process w.server.child_pid = .dead status) : w.CanGoOn setting := by
  cases hfront with
  | requested hphase => exact canGoOn_of_pid hphase hst
  | running _ hpid htimer hpos =>
    rcases htimer with htimer | htimed
    · refine ⟨.alarm, rfl, ?_⟩
      rw [World.step, World.alarm, if_pos htimer, hpid, if_pos (Int.natCast_pos.mpr hpos)]
      rfl
    · obtain ⟨status, hstatus⟩ := hdead htimed
      refine ⟨.wait, rfl, ?_⟩
      rw [World.step, World.wait, if_pos hserver, hstatus]
      rfl

/-- A status in the pipe is read, as long as nobody waits for the exit of a child that has only stopped. -/
theorem Consistent.canGoOn_of_told {before : List Report} {status : Wait} (h : Consistent setting w)
    (hsetting : ¬ (setting.use_net = true ∧ setting.is_persistent = true)) (hst : w.st = before ++ [.status status])
    (hfront : w.Front before) (hgot : w.Got status) : w.CanGoOn setting := by
  cases hfront with
  | requested hphase => exact canGoOn_of_pid hphase hst
  | running hphase hpid =>
    rcases hphase with hphase | hphase | hphase
    · refine ⟨.send true, rfl, ?_⟩
      rw [World.step, World.send, if_pos hphase]
      rfl
    · have hstopped : w.server.child_stopped = false := by
        by_contra hstopped
        exact hsetting ⟨h.net (Or.inr hphase), h.persistent (Bool.not_eq_false _ ▸ hstopped)⟩
      have hgone := hgot.rests
      rw [Rests, hstopped, if_neg Bool.false_ne_true] at hgone
      refine ⟨.notice_exit, rfl, ?_⟩
      rw [World.step, World.notice_exit, hpid, Int.toNat_natCast, if_pos ⟨hphase, hgone⟩]
      rfl
    · refine ⟨.read_status, rfl, ?_⟩
      rw [World.step, World.read_status, if_pos hphase, hst]
      rfl

/-- Until `run_target` returns there is always a step to take, if no child that stops itself is fuzzed over the network. -/
theorem Consistent.canGoOn (h : Consistent setting w) (hsetting : ¬ (setting.use_net = true ∧ setting.is_persistent = true))
    (hidle : w.fuzzer.phase ≠ .idle) : w.CanGoOn setting := by
  cases h.row with
  | idle hfuzzer => exact absurd hfuzzer hidle
  | asked _ _ _ hctl _ hserver =>
    refine ⟨.read_request, rfl, ?_⟩
    rw [World.step, World.read_request, if_pos hserver, hctl]
    dsimp only
    split
    · rfl
    · split <;> rfl
  | reaping _ _ _ _ _ hserver _ hdead =>
    refine ⟨.reap, rfl, ?_⟩
    rw [World.step, World.reap, if_pos hserver, hdead]
    rfl
  | forking _ _ _ _ _ hserver =>
    have hfree := h.others_gone (w.server.child_pid + 1) (Nat.succ_ne_self _)
    refine ⟨.fork (w.server.child_pid + 1), rfl, ?_⟩
    rw [World.step, World.fork, if_pos ⟨hserver, Nat.succ_pos _, hfree⟩]
    rfl
  | started _ _ _ _ _ hserver =>
    refine ⟨.write_pid, rfl, ?_⟩
    rw [World.step, World.write_pid, if_pos hserver]
    rfl
  | running hfront _ hserver _ _ hdead => exact Consistent.canGoOn_of_running rfl hfront hserver hdead
  | waited status _ _ hserver =>
    refine ⟨.write_status, rfl, ?_⟩
    rw [World.step, World.write_status, hserver]
    rfl
  | told status before hfront _ hst _ hgot => exact h.canGoOn_of_told hsetting hst hfront hgot
  | status_read status hfuzzer =>
    refine ⟨.forget_child, rfl, ?_⟩
    rw [World.step, World.forget_child, hfuzzer]
    rfl
  | child_forgotten status hfuzzer =>
    refine ⟨.finish, rfl, ?_⟩
    rw [World.step, World.finish, hfuzzer]
    rfl

/-- A child that stops itself and is killed then, while `send_over_network` waits for its exit. -/
def stopping_child : List Action :=
  [.request, .read_request, .fork 1, .write_pid, .child 1 .stopped, .read_pid, .send false, .wait, .write_status, .alarm]

/-- The fork server waits for a request, and `run_target` for the exit of a child that nobody waits for. -/
theorem exists_stuck (hsetting : setting.use_net = true ∧ setting.is_persistent = true) :
    ∃ w : World, w.Reachable setting ∧ w.fuzzer.phase = .awaiting_exit ∧ w.server.phase = .awaiting_request ∧ w.ctl = [] ∧
      w.fuzzer.timer = false ∧ w.process w.fuzzer.child_pid.toNat ≠ .gone := by
  obtain ⟨use_net, is_persistent⟩ := setting
  obtain ⟨rfl, rfl⟩ := hsetting
  refine ⟨_, ⟨stopping_child, .cons rfl (.cons rfl (.cons rfl (.cons rfl (.cons rfl (.cons rfl (.cons rfl (.cons rfl (.cons rfl (.cons rfl
    (.nil _))))))))))⟩, rfl, rfl, rfl, rfl, ?_⟩
  decide

/-- `run_target` can go on from every reachable world until it returns, unless a program that
stops itself is fuzzed over the network. Such a child stays while it is stopped, and
`send_over_network` waits for its end. -/
theorem run_target_returns_iff (setting : Setting) :
    (∀ w : World, w.Reachable setting → w.fuzzer.phase ≠ .idle → w.CanGoOn setting) ↔
      ¬ (setting.use_net = true ∧ setting.is_persistent = true) := by
  constructor
  · intro hall hsetting
    obtain ⟨w, hreachable, hphase, hserver, hctl, htimer, hhere⟩ := exists_stuck hsetting
    obtain ⟨action, hown, hstep⟩ := hall w hreachable (by rw [hphase]; nofun)
    cases action with
    | request | poll | child => cases hown
    | read_pid => rw [step, read_pid, hphase] at hstep; cases hstep
    | send early => rw [step, send, hphase] at hstep; cases hstep
    | notice_exit => rw [step, notice_exit, if_neg fun hguard => hhere hguard.2] at hstep; cases hstep
    | read_status => rw [step, read_status, hphase] at hstep; cases hstep
    | forget_child => rw [step, forget_child, hphase] at hstep; cases hstep
    | finish => rw [step, finish, hphase] at hstep; cases hstep
    | alarm => rw [step, alarm, htimer] at hstep; cases hstep
    | read_request => rw [step, read_request, if_pos hserver, hctl] at hstep; cases hstep
    | reap => rw [step, reap, hserver] at hstep; cases hstep
    | fork pid => rw [step, fork, hserver] at hstep; cases hstep
    | write_pid => rw [step, write_pid, hserver] at hstep; cases hstep
    | wait => rw [step, wait, hserver] at hstep; cases hstep
    | write_status => rw [step, write_status, hserver] at hstep; cases hstep
  · intro hsetting w hreachable hidle
    exact hreachable.consistent.canGoOn hsetting hidle

end aflnet.World
