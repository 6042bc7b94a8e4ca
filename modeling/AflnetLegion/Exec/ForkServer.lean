import Mathlib.Logic.Function.Basic

/-! The fork server of an instrumented program and `run_target`, which uses it. -/

namespace aflnet

/-- What `waitpid` says about a process: that it has exited, that a signal has terminated it, or
that it has stopped. Only a persistent program stops. -/
inductive Wait where
  | exited (code : UInt8)
  | signaled (sig : Nat)
  | stopped
  deriving DecidableEq

/-- The signals and the exit code that `run_target` asks for. -/
def SIGKILL : Nat := 9

def SIGTERM : Nat := 15

def MSAN_ERROR : UInt8 := 86

/-- A child of the fork server. A process that is dead is `gone` as soon as the fork server has waited for it. -/
inductive Process where
  | gone
  | running
  | stopped
  | dead (status : Wait)
  deriving DecidableEq

/-- Four bytes in the status pipe: the process id of a child that was started, or the status of
one that was waited for. The reader has to know which of them comes next. -/
inductive Report where
  | pid (child_pid : Nat)
  | status (status : Wait)
  deriving DecidableEq

/-- Where `run_target` is, by the call that it makes next. Over the network it sends the
messages and waits for the child to exit before it reads the status. -/
inductive Asking where
  | idle
  | requested
  | sending
  | awaiting_exit
  | awaiting_status
  | status_read (status : Wait)
  | child_forgotten (status : Wait)
  deriving DecidableEq

/-- The variables of `run_target`: where it is, the child it knows, the two flags, and whether
the timer is set. -/
structure Fuzzer where
  phase : Asking
  child_pid : Int
  child_timed_out : Bool
  prev_timed_out : Bool
  timer : Bool
  deriving DecidableEq

/-- Where `__afl_start_forkserver` is, by the call that it makes next. A child that was killed
while it had stopped is waited for first. -/
inductive Serving where
  | awaiting_request
  | reaping
  | forking
  | child_started
  | pid_written
  | child_waited (status : Wait)
  deriving DecidableEq

/-- The variables of the fork server: where it is, its child, and whether that one has stopped.
-/
structure Server where
  phase : Serving
  child_pid : Nat
  child_stopped : Bool
  deriving DecidableEq

/-- Both programs, the pipes between them and the children. The last three fields are the history: which child each
request was served by, what it was waited for with, and what `run_target` has read. -/
structure World where
  fuzzer : Fuzzer
  server : Server
  ctl : List Bool
  st : List Report
  process : Nat → Process
  started : List Nat
  waited : List (Nat × Wait)
  reported : List (Int × Wait)

/-- The two settings that matter here: `use_net` of the fuzzer and `is_persistent` of the
program. -/
structure Setting where
  use_net : Bool
  is_persistent : Bool

/-- After the handshake: nobody has asked for anything, both pipes are empty, and there are no
processes. -/
def World.start : World where
  fuzzer := { phase := .idle, child_pid := -1, child_timed_out := false, prev_timed_out := false, timer := false }
  server := { phase := .awaiting_request, child_pid := 0, child_stopped := false }
  ctl := []
  st := []
  process := fun _ => .gone
  started := []
  waited := []
  reported := []

/-- `SIGKILL` reaches a process that runs or has stopped. To a dead one it does nothing. -/
def Process.kill : Process → Process
  | .running => .dead (.signaled SIGKILL)
  | .stopped => .dead (.signaled SIGKILL)
  | process => process

/-- `SIGCONT`, which does nothing to a process that has not stopped. -/
def Process.continue : Process → Process
  | .stopped => .running
  | process => process

namespace World

/-- The process with this id changes. -/
def set_process (w : World) (pid : Nat) (process : Process) : World := { w with process := Function.update w.process pid process }

/-- Only `run_target` changes. -/
def set_fuzzer (w : World) (fuzzer : Fuzzer) : World := { w with fuzzer }

/-- Only the fork server changes. -/
def set_server (w : World) (server : Server) : World := { w with server }

/-- `write(fsrv_ctl_fd, &prev_timed_out, 4)`, after `child_timed_out = 0`. The fork server is
told whether the child of the previous run was killed. -/
def request (w : World) : Option World :=
  if w.fuzzer.phase = .idle then
    some { w with
      fuzzer := { w.fuzzer with phase := .requested, child_timed_out := false }
      ctl := w.ctl ++ [w.fuzzer.prev_timed_out] }
  else none

/-- `read(fsrv_st_fd, &child_pid, 4)`, and the timer is set. From here on the timer can kill the
child. Over the network the messages are sent next, otherwise the status is awaited. -/
def read_pid (setting : Setting) (w : World) : Option World :=
  if w.fuzzer.phase = .requested then
    match w.st with
    | .pid child_pid :: st =>
      let phase := if setting.use_net then Asking.sending else .awaiting_status
      some { w with fuzzer := { w.fuzzer with phase, child_pid, timer := true }, st }
    | _ => none
  else none

/-- The messages are sent, which is one step here, and `send_over_network` returns early, or it goes on to wait until there is
no such process any more. -/
def send (w : World) (early : Bool) : Option World :=
  if w.fuzzer.phase = .sending then
    some (w.set_fuzzer { w.fuzzer with phase := if early then .awaiting_status else .awaiting_exit })
  else none

/-- A round of `while(1)` in `send_over_network`: `kill(child_pid, 0)` finds the process, be it dead and not yet waited for. -/
def poll (w : World) : Option World :=
  if w.fuzzer.phase = .awaiting_exit ∧ w.process w.fuzzer.child_pid.toNat ≠ .gone then some w else none

/-- `kill(child_pid, 0)` fails with `ESRCH`, which ends the loop of `send_over_network`. As long
as there is such a process, even a dead one that nobody has waited for, the loop polls on. -/
def notice_exit (w : World) : Option World :=
  if w.fuzzer.phase = .awaiting_exit ∧ w.process w.fuzzer.child_pid.toNat = .gone then
    some (w.set_fuzzer { w.fuzzer with phase := .awaiting_status })
  else none

/-- `read(fsrv_st_fd, &status, 4)`. Which process the status is taken for is put on record, to
be compared with what was waited for. -/
def read_status (w : World) : Option World :=
  if w.fuzzer.phase = .awaiting_status then
    match w.st with
    | .status status :: st =>
      some { w with
        fuzzer := { w.fuzzer with phase := .status_read status }
        st
        reported := w.reported ++ [(w.fuzzer.child_pid, status)] }
    | _ => none
  else none

/-- `if (!WIFSTOPPED(status)) child_pid = 0`. Between the read of the status and this step the
timer can still go off, and kills the process id of a child that is gone. -/
def forget_child (w : World) : Option World :=
  match w.fuzzer.phase with
  | .status_read status =>
    some (w.set_fuzzer { w.fuzzer with
      phase := .child_forgotten status
      child_pid := if status = .stopped then w.fuzzer.child_pid else 0 })
  | _ => none

/-- The timer is set to zero, and `prev_timed_out = child_timed_out`. From here on the flag
tells the fork server at the next request that the child was killed. -/
def finish (w : World) : Option World :=
  match w.fuzzer.phase with
  | .child_forgotten _ => some (w.set_fuzzer { w.fuzzer with phase := .idle, timer := false, prev_timed_out := w.fuzzer.child_timed_out })
  | _ => none

/-- `handle_timeout`, which the timer calls once. Without a known child there is nothing to
kill, and the flag is not set. -/
def alarm (w : World) : Option World :=
  if w.fuzzer.timer then
    if w.fuzzer.child_pid > 0 then
      some { w with
        fuzzer := { w.fuzzer with timer := false, child_timed_out := true }
        process := Function.update w.process w.fuzzer.child_pid.toNat (w.process w.fuzzer.child_pid.toNat).kill }
    else some (w.set_fuzzer { w.fuzzer with timer := false })
  else none

/-- `read(FORKSRV_FD, &was_killed, 4)`. A child that has stopped is continued, unless it was
killed: then it is waited for, and a new one is forked. -/
def read_request (w : World) : Option World :=
  if w.server.phase = .awaiting_request then
    match w.ctl with
    | was_killed :: ctl =>
      if w.server.child_stopped && was_killed then
        some { w with ctl, server := { w.server with phase := .reaping, child_stopped := false } }
      else if !w.server.child_stopped then some { w with ctl, server := { w.server with phase := .forking } }
      else
        some { w with
          ctl
          server := { w.server with phase := .child_started, child_stopped := false }
          process := Function.update w.process w.server.child_pid (w.process w.server.child_pid).continue
          started := w.started ++ [w.server.child_pid] }
    | [] => none
  else none

/-- `waitpid(child_pid, &status, 0)` for the child that was killed while it was stopped. Its
status is thrown away. -/
def reap (w : World) : Option World :=
  if w.server.phase = .reaping then
    match w.process w.server.child_pid with
    | .dead _ => some ((w.set_server { w.server with phase := .forking }).set_process w.server.child_pid .gone)
    | _ => none
  else none

/-- `fork()`, which returns a process id that is not in use. An id can be used again once its
process was waited for. -/
def fork (w : World) (pid : Nat) : Option World :=
  if w.server.phase = .forking ∧ 0 < pid ∧ w.process pid = .gone then
    some { w with
      server := { w.server with phase := .child_started, child_pid := pid }
      process := Function.update w.process pid .running
      started := w.started ++ [pid] }
  else none

/-- `write(FORKSRV_FD + 1, &child_pid, 4)`. The child runs from the fork on, so it can be dead
or stopped before the fuzzer gets to know it. -/
def write_pid (w : World) : Option World :=
  if w.server.phase = .child_started then
    some { w with st := w.st ++ [.pid w.server.child_pid], server := { w.server with phase := .pid_written } }
  else none

/-- `waitpid(child_pid, &status, is_persistent ? WUNTRACED : 0)`. A stopped child counts only
for a persistent program, and remains; a dead one is gone once its status was taken. -/
def wait (setting : Setting) (w : World) : Option World :=
  if w.server.phase = .pid_written then
    match w.process w.server.child_pid with
    | .dead status =>
      some { w with
        server := { w.server with phase := .child_waited status }
        process := Function.update w.process w.server.child_pid .gone
        waited := w.waited ++ [(w.server.child_pid, status)] }
    | .stopped =>
      if setting.is_persistent then
        some { w with
          server := { w.server with phase := .child_waited .stopped, child_stopped := true }
          waited := w.waited ++ [(w.server.child_pid, .stopped)] }
      else none
    | _ => none
  else none

/-- `write(FORKSRV_FD + 1, &status, 4)`, after which the fork server waits for the next request.
-/
def write_status (w : World) : Option World :=
  match w.server.phase with
  | .child_waited status => some { w with st := w.st ++ [.status status], server := { w.server with phase := .awaiting_request } }
  | _ => none

/-- A child that runs exits, is terminated by a signal, or stops. The signal may be any, also a `SIGKILL` that the timer has
nothing to do with, such as that of a system out of memory. -/
def child (w : World) (pid : Nat) (status : Wait) : Option World :=
  if w.process pid = .running then
    some (w.set_process pid (if status = .stopped then .stopped else .dead status))
  else none

section cases

variable {setting : Setting} {w w' : World}

-- What each step needs and does. What holds over runs is derived from these facts, and no
-- step is unfolded again.

theorem request_cases (hstep : w.request = some w') : w.fuzzer.phase = .idle ∧
    w' = { w with
      fuzzer := { w.fuzzer with phase := .requested, child_timed_out := false }
      ctl := w.ctl ++ [w.fuzzer.prev_timed_out] } := by
  rw [request] at hstep
  split at hstep
  · rename_i hphase
    exact ⟨hphase, (Option.some.inj hstep).symm⟩
  · cases hstep

theorem read_pid_cases (hstep : w.read_pid setting = some w') : w.fuzzer.phase = .requested ∧
    ∃ child_pid st, w.st = .pid child_pid :: st ∧
      w' = { w with
        fuzzer := { w.fuzzer with
          phase := if setting.use_net then Asking.sending else .awaiting_status, child_pid, timer := true }
        st } := by
  rw [read_pid] at hstep
  split at hstep
  · rename_i hphase
    split at hstep
    · rename_i child_pid st hpipe
      exact ⟨hphase, child_pid, st, hpipe, (Option.some.inj hstep).symm⟩
    · cases hstep
  · cases hstep

theorem send_cases {early : Bool} (hstep : w.send early = some w') : w.fuzzer.phase = .sending ∧
    w' = w.set_fuzzer { w.fuzzer with phase := if early then .awaiting_status else .awaiting_exit } := by
  rw [send] at hstep
  split at hstep
  · rename_i hphase
    exact ⟨hphase, (Option.some.inj hstep).symm⟩
  · cases hstep

theorem poll_cases (hstep : w.poll = some w') :
    w.fuzzer.phase = .awaiting_exit ∧ w.process w.fuzzer.child_pid.toNat ≠ .gone ∧ w' = w := by
  rw [poll] at hstep
  split at hstep
  · rename_i hguard
    exact ⟨hguard.1, hguard.2, (Option.some.inj hstep).symm⟩
  · cases hstep

theorem notice_exit_cases (hstep : w.notice_exit = some w') : w.fuzzer.phase = .awaiting_exit ∧
    w.process w.fuzzer.child_pid.toNat = .gone ∧ w' = w.set_fuzzer { w.fuzzer with phase := .awaiting_status } := by
  rw [notice_exit] at hstep
  split at hstep
  · rename_i hguard
    exact ⟨hguard.1, hguard.2, (Option.some.inj hstep).symm⟩
  · cases hstep

theorem read_status_cases (hstep : w.read_status = some w') : w.fuzzer.phase = .awaiting_status ∧
    ∃ status st, w.st = .status status :: st ∧
      w' = { w with
        fuzzer := { w.fuzzer with phase := .status_read status }
        st
        reported := w.reported ++ [(w.fuzzer.child_pid, status)] } := by
  rw [read_status] at hstep
  split at hstep
  · rename_i hphase
    split at hstep
    · rename_i status st hpipe
      exact ⟨hphase, status, st, hpipe, (Option.some.inj hstep).symm⟩
    · cases hstep
  · cases hstep

theorem forget_child_cases (hstep : w.forget_child = some w') : ∃ status, w.fuzzer.phase = .status_read status ∧
    w' = w.set_fuzzer { w.fuzzer with
      phase := .child_forgotten status
      child_pid := if status = .stopped then w.fuzzer.child_pid else 0 } := by
  rw [forget_child] at hstep
  split at hstep
  · rename_i status hphase
    exact ⟨status, hphase, (Option.some.inj hstep).symm⟩
  · cases hstep

theorem finish_cases (hstep : w.finish = some w') : ∃ status, w.fuzzer.phase = .child_forgotten status ∧
    w' = w.set_fuzzer { w.fuzzer with phase := .idle, timer := false, prev_timed_out := w.fuzzer.child_timed_out } := by
  rw [finish] at hstep
  split at hstep
  · rename_i status hphase
    exact ⟨status, hphase, (Option.some.inj hstep).symm⟩
  · cases hstep

/-- The timer kills the child if `run_target` knows one. Otherwise it is over without having done anything. -/
theorem alarm_cases (hstep : w.alarm = some w') : w.fuzzer.timer = true ∧
    (0 < w.fuzzer.child_pid ∧ w' = { w with
        fuzzer := { w.fuzzer with timer := false, child_timed_out := true }
        process := Function.update w.process w.fuzzer.child_pid.toNat (w.process w.fuzzer.child_pid.toNat).kill } ∨
      ¬ 0 < w.fuzzer.child_pid ∧ w' = w.set_fuzzer { w.fuzzer with timer := false }) := by
  rw [alarm] at hstep
  split at hstep
  · rename_i htimer
    split at hstep
    · rename_i hpid
      exact ⟨htimer, Or.inl ⟨hpid, (Option.some.inj hstep).symm⟩⟩
    · rename_i hpid
      exact ⟨htimer, Or.inr ⟨hpid, (Option.some.inj hstep).symm⟩⟩
  · cases hstep

/-- The fork server waits for a stopped child that was killed, forks a child if there is none, or continues the stopped one. -/
theorem read_request_cases (hstep : w.read_request = some w') : w.server.phase = .awaiting_request ∧
    ∃ was_killed ctl, w.ctl = was_killed :: ctl ∧
      (w.server.child_stopped = true ∧ was_killed = true ∧
          w' = { w with ctl, server := { w.server with phase := .reaping, child_stopped := false } } ∨
        w.server.child_stopped = false ∧ w' = { w with ctl, server := { w.server with phase := .forking } } ∨
        w.server.child_stopped = true ∧ was_killed = false ∧
          w' = { w with
            ctl
            server := { w.server with phase := .child_started, child_stopped := false }
            process := Function.update w.process w.server.child_pid (w.process w.server.child_pid).continue
            started := w.started ++ [w.server.child_pid] }) := by
  rw [read_request] at hstep
  split at hstep
  · rename_i hphase
    split at hstep
    · rename_i was_killed ctl hpipe
      refine ⟨hphase, was_killed, ctl, hpipe, ?_⟩
      cases hstopped : w.server.child_stopped with
      | false =>
        rw [hstopped, Bool.false_and, if_neg Bool.false_ne_true, Bool.not_false, if_pos rfl] at hstep
        exact Or.inr (Or.inl ⟨rfl, (Option.some.inj hstep).symm⟩)
      | true =>
        cases was_killed with
        | true =>
          rw [hstopped, Bool.true_and, if_pos rfl] at hstep
          exact Or.inl ⟨rfl, rfl, (Option.some.inj hstep).symm⟩
        | false =>
          rw [hstopped, Bool.and_false, if_neg Bool.false_ne_true, Bool.not_true, if_neg Bool.false_ne_true] at hstep
          exact Or.inr (Or.inr ⟨rfl, rfl, (Option.some.inj hstep).symm⟩)
    · cases hstep
  · cases hstep

theorem reap_cases (hstep : w.reap = some w') : w.server.phase = .reaping ∧
    ∃ status, w.process w.server.child_pid = .dead status ∧
      w' = (w.set_server { w.server with phase := .forking }).set_process w.server.child_pid .gone := by
  rw [reap] at hstep
  split at hstep
  · rename_i hphase
    split at hstep
    · rename_i status hdead
      exact ⟨hphase, status, hdead, (Option.some.inj hstep).symm⟩
    · cases hstep
  · cases hstep

theorem fork_cases {pid : Nat} (hstep : w.fork pid = some w') : w.server.phase = .forking ∧ 0 < pid ∧ w.process pid = .gone ∧
    w' = { w with
      server := { w.server with phase := .child_started, child_pid := pid }
      process := Function.update w.process pid .running
      started := w.started ++ [pid] } := by
  rw [fork] at hstep
  split at hstep
  · rename_i hguard
    exact ⟨hguard.1, hguard.2.1, hguard.2.2, (Option.some.inj hstep).symm⟩
  · cases hstep

theorem write_pid_cases (hstep : w.write_pid = some w') : w.server.phase = .child_started ∧
    w' = { w with st := w.st ++ [.pid w.server.child_pid], server := { w.server with phase := .pid_written } } := by
  rw [write_pid] at hstep
  split at hstep
  · rename_i hphase
    exact ⟨hphase, (Option.some.inj hstep).symm⟩
  · cases hstep

/-- The child is dead and goes, or it has stopped and stays, which only a persistent program is waited for. -/
theorem wait_cases (hstep : w.wait setting = some w') : w.server.phase = .pid_written ∧
    ((∃ status, w.process w.server.child_pid = .dead status ∧
        w' = { w with
          server := { w.server with phase := .child_waited status }
          process := Function.update w.process w.server.child_pid .gone
          waited := w.waited ++ [(w.server.child_pid, status)] }) ∨
      setting.is_persistent = true ∧ w.process w.server.child_pid = .stopped ∧
        w' = { w with
          server := { w.server with phase := .child_waited .stopped, child_stopped := true }
          waited := w.waited ++ [(w.server.child_pid, .stopped)] }) := by
  rw [wait] at hstep
  split at hstep
  · rename_i hphase
    split at hstep
    · rename_i status hdead
      exact ⟨hphase, Or.inl ⟨status, hdead, (Option.some.inj hstep).symm⟩⟩
    · rename_i hstopped
      split at hstep
      · rename_i hpersistent
        exact ⟨hphase, Or.inr ⟨hpersistent, hstopped, (Option.some.inj hstep).symm⟩⟩
      · cases hstep
    · cases hstep
  · cases hstep

theorem write_status_cases (hstep : w.write_status = some w') : ∃ status, w.server.phase = .child_waited status ∧
    w' = { w with st := w.st ++ [.status status], server := { w.server with phase := .awaiting_request } } := by
  rw [write_status] at hstep
  split at hstep
  · rename_i status hphase
    exact ⟨status, hphase, (Option.some.inj hstep).symm⟩
  · cases hstep

theorem child_cases {pid : Nat} {status : Wait} (hstep : w.child pid status = some w') : w.process pid = .running ∧
    w' = w.set_process pid (if status = .stopped then .stopped else .dead status) := by
  rw [child] at hstep
  split at hstep
  · rename_i hrunning
    exact ⟨hrunning, (Option.some.inj hstep).symm⟩
  · cases hstep

end cases

end World

/-- What can happen next. A child that has stopped is left alone by all but the timer and the fork server. -/
inductive Action where
  | request
  | read_pid
  | send (early : Bool)
  | poll
  | notice_exit
  | read_status
  | forget_child
  | finish
  | alarm
  | read_request
  | reap
  | fork (pid : Nat)
  | write_pid
  | wait
  | write_status
  | child (pid : Nat) (status : Wait)

/-- The step that an action is, in the worlds where it is possible. Each party has at most one
action at a time, while the timer and the child may act between any two of them. -/
def World.step (setting : Setting) (w : World) : Action → Option World
  | .request => w.request
  | .read_pid => w.read_pid setting
  | .send early => w.send early
  | .poll => w.poll
  | .notice_exit => w.notice_exit
  | .read_status => w.read_status
  | .forget_child => w.forget_child
  | .finish => w.finish
  | .alarm => w.alarm
  | .read_request => w.read_request
  | .reap => w.reap
  | .fork pid => w.fork pid
  | .write_pid => w.write_pid
  | .wait => w.wait setting
  | .write_status => w.write_status
  | .child pid status => w.child pid status

/-- The steps of both programs, the timer and the children, in any order. The list of actions is
kept, as some results are about how often a step is made. -/
inductive Steps (setting : Setting) : World → List Action → World → Prop where
  | nil (w : World) : Steps setting w [] w
  | cons {w w₁ w₂ : World} {action : Action} {actions : List Action} (hstep : w.step setting action = some w₁)
      (hrest : Steps setting w₁ actions w₂) : Steps setting w (action :: actions) w₂

/-- The worlds that can come about after the handshake. -/
def World.Reachable (setting : Setting) (w : World) : Prop := ∃ actions, Steps setting .start actions w

/-- What `run_target` returns, and the two values that only a calibration does. They keep their
names; their numbers are not used. -/
inductive FaultCode where
  | FAULT_NONE
  | FAULT_TMOUT
  | FAULT_CRASH
  | FAULT_ERROR
  | FAULT_NOINST
  | FAULT_NOBITS
  deriving DecidableEq, Repr

/-- The classification at the end of `run_target`, from the status and the flag. `MSAN` reports
by an exit code of its own, which counts as a crash if the target uses a sanitizer. -/
def run_target_fault (uses_asan child_timed_out : Bool) (status : Wait) : FaultCode :=
  match status with
  | .signaled kill_signal =>
    if child_timed_out ∧ kill_signal = SIGKILL then .FAULT_TMOUT
    else if kill_signal = SIGTERM then .FAULT_NONE
    else .FAULT_CRASH
  | .exited code => if uses_asan ∧ code = MSAN_ERROR then .FAULT_CRASH else .FAULT_NONE
  | .stopped => .FAULT_NONE

end aflnet
