import AflnetLegion.Exec.ForkServer

namespace aflnet

namespace World

/-- The child after the fork server has waited for it: it has stopped, unless it was killed then, or it is gone. -/
def Rests (w : World) (killed : Bool) : Prop :=
  if w.server.child_stopped then
    w.process w.server.child_pid = if killed then .dead (.signaled SIGKILL) else .stopped
  else w.process w.server.child_pid = .gone

/-- What `run_target` does while the fork server is busy with its child, and what is in the status pipe already. -/
inductive Front (w : World) : List Report → Prop where
  | requested (hphase : w.fuzzer.phase = .requested) (hfresh : w.fuzzer.child_timed_out = false) (htimer : w.fuzzer.timer = false)
      (hpos : 0 < w.server.child_pid) : Front w [.pid w.server.child_pid]
  | running (hphase : w.fuzzer.phase = .sending ∨ w.fuzzer.phase = .awaiting_exit ∨ w.fuzzer.phase = .awaiting_status)
      (hpid : w.fuzzer.child_pid = w.server.child_pid) (htimer : w.fuzzer.timer = true ∨ w.fuzzer.child_timed_out = true)
      (hpos : 0 < w.server.child_pid) : Front w []

/-- A status that the fork server has got from `waitpid`, and what it says about the child: it
has stopped exactly if the status says so, and nothing but the timer can change it after that.
-/
structure Got (w : World) (status : Wait) : Prop where
  stopped_iff : w.server.child_stopped = true ↔ status = .stopped
  rests : w.Rests w.fuzzer.child_timed_out

/-- What `run_target` will have read, if it reads all that the fork server has got. -/
def reports (w : World) : List (Int × Wait) := w.waited.map fun report => ((report.1 : Int), report.2)

/-- Where the two programs can be at the same time. Each case fixes what is in the two pipes and
what the history says; no other combination is reached. -/
inductive Row (w : World) : Prop where
  | idle (hfuzzer : w.fuzzer.phase = .idle) (htimer : w.fuzzer.timer = false) (hctl : w.ctl = []) (hst : w.st = [])
      (hserver : w.server.phase = .awaiting_request) (hrests : w.Rests w.fuzzer.prev_timed_out)
      (hstarted : w.started = w.waited.map Prod.fst) (hreported : w.reported = w.reports)
  | asked (hfuzzer : w.fuzzer.phase = .requested) (htimer : w.fuzzer.timer = false) (hfresh : w.fuzzer.child_timed_out = false)
      (hctl : w.ctl = [w.fuzzer.prev_timed_out]) (hst : w.st = []) (hserver : w.server.phase = .awaiting_request)
      (hrests : w.Rests w.fuzzer.prev_timed_out) (hstarted : w.started = w.waited.map Prod.fst) (hreported : w.reported = w.reports)
  | reaping (hfuzzer : w.fuzzer.phase = .requested) (htimer : w.fuzzer.timer = false) (hfresh : w.fuzzer.child_timed_out = false)
      (hctl : w.ctl = []) (hst : w.st = []) (hserver : w.server.phase = .reaping) (hstopped : w.server.child_stopped = false)
      (hdead : w.process w.server.child_pid = .dead (.signaled SIGKILL))
      (hstarted : w.started = w.waited.map Prod.fst) (hreported : w.reported = w.reports)
  | forking (hfuzzer : w.fuzzer.phase = .requested) (htimer : w.fuzzer.timer = false) (hfresh : w.fuzzer.child_timed_out = false)
      (hctl : w.ctl = []) (hst : w.st = []) (hserver : w.server.phase = .forking) (hstopped : w.server.child_stopped = false)
      (hgone : w.process w.server.child_pid = .gone)
      (hstarted : w.started = w.waited.map Prod.fst) (hreported : w.reported = w.reports)
  | started (hfuzzer : w.fuzzer.phase = .requested) (htimer : w.fuzzer.timer = false) (hfresh : w.fuzzer.child_timed_out = false)
      (hctl : w.ctl = []) (hst : w.st = []) (hserver : w.server.phase = .child_started) (hstopped : w.server.child_stopped = false)
      (hhere : w.process w.server.child_pid ≠ .gone)
      (hstarted : w.started = w.waited.map Prod.fst ++ [w.server.child_pid]) (hreported : w.reported = w.reports)
  | running (hfront : w.Front w.st) (hctl : w.ctl = []) (hserver : w.server.phase = .pid_written)
      (hstopped : w.server.child_stopped = false) (hhere : w.process w.server.child_pid ≠ .gone)
      (hdead : w.fuzzer.child_timed_out = true → ∃ status, w.process w.server.child_pid = .dead status)
      (hstarted : w.started = w.waited.map Prod.fst ++ [w.server.child_pid]) (hreported : w.reported = w.reports)
  | waited (status : Wait) (hfront : w.Front w.st) (hctl : w.ctl = []) (hserver : w.server.phase = .child_waited status)
      (hgot : w.Got status) (hstarted : w.started = w.waited.map Prod.fst)
      (hreported : w.reported ++ [((w.server.child_pid : Int), status)] = w.reports)
  | told (status : Wait) (before : List Report) (hfront : w.Front before) (hctl : w.ctl = []) (hst : w.st = before ++ [.status status])
      (hserver : w.server.phase = .awaiting_request) (hgot : w.Got status) (hstarted : w.started = w.waited.map Prod.fst)
      (hreported : w.reported ++ [((w.server.child_pid : Int), status)] = w.reports)
  | status_read (status : Wait) (hfuzzer : w.fuzzer.phase = .status_read status) (hpid : w.fuzzer.child_pid = w.server.child_pid)
      (hpos : 0 < w.server.child_pid) (hctl : w.ctl = []) (hst : w.st = []) (hserver : w.server.phase = .awaiting_request)
      (hgot : w.Got status) (hstarted : w.started = w.waited.map Prod.fst) (hreported : w.reported = w.reports)
  | child_forgotten (status : Wait) (hfuzzer : w.fuzzer.phase = .child_forgotten status)
      (hpid : w.fuzzer.child_pid = if status = .stopped then (w.server.child_pid : Int) else 0)
      (hpos : 0 < w.server.child_pid) (hctl : w.ctl = []) (hst : w.st = []) (hserver : w.server.phase = .awaiting_request)
      (hgot : w.Got status) (hstarted : w.started = w.waited.map Prod.fst) (hreported : w.reported = w.reports)

/-- The invariant of the two programs and the children. It says which processes there are, what
`run_target` knows about the timer and its child, and in which row of the table below the two
programs are. -/
structure Consistent (setting : Setting) (w : World) : Prop where
  others_gone : ∀ pid, pid ≠ w.server.child_pid → w.process pid = .gone
  zero_gone : w.process 0 = .gone
  dead_for_good : w.process w.server.child_pid ≠ .dead .stopped
  persistent : w.server.child_stopped = true → setting.is_persistent = true
  net : w.fuzzer.phase = .sending ∨ w.fuzzer.phase = .awaiting_exit → setting.use_net = true
  row : w.Row

variable {setting : Setting} {w w' : World} {status : Wait} {pid : Nat} {early : Bool}

/-- After the handshake both programs wait, no request is on its way, and there is no child. -/
theorem consistent_start (setting : Setting) : Consistent setting start where
  others_gone := fun _ _ => rfl
  zero_gone := rfl
  dead_for_good := nofun
  persistent := nofun
  net := by
    rintro (h | h) <;> cases h
  row := .idle rfl rfl rfl rfl rfl rfl rfl rfl

/-- What a step of `run_target` that leaves the children and the fork server alone has to keep. -/
theorem Consistent.of_fuzzer (h : Consistent setting w) (hserver : w'.server = w.server) (hprocess : w'.process = w.process)
    (hnet : w'.fuzzer.phase = .sending ∨ w'.fuzzer.phase = .awaiting_exit → setting.use_net = true) (hrow : w'.Row) :
    Consistent setting w' := by
  refine ⟨?_, ?_, ?_, ?_, hnet, hrow⟩
  · rw [hserver, hprocess]
    exact h.others_gone
  · rw [hprocess]
    exact h.zero_gone
  · rw [hserver, hprocess]
    exact h.dead_for_good
  · rw [hserver]
    exact h.persistent

/-- While the fork server is busy, `run_target` is between its request and the status. -/
theorem Front.requested_or_busy {before : List Report} (hfront : w.Front before) :
    w.fuzzer.phase = .requested ∨ w.fuzzer.phase = .sending ∨ w.fuzzer.phase = .awaiting_exit ∨ w.fuzzer.phase = .awaiting_status := by
  cases hfront with
  | requested hphase => exact Or.inl hphase
  | running hphase => exact Or.inr hphase

/-- The request goes to a fork server that waits for one, as `run_target` returned only after it
had the last status. -/
theorem Consistent.request (h : Consistent setting w) (hstep : w.request = some w') : Consistent setting w' := by
  obtain ⟨hphase, rfl⟩ := request_cases hstep
  refine h.of_fuzzer rfl rfl (by rintro (hnet | hnet) <;> cases hnet) ?_
  cases h.row with
  | idle hfuzzer htimer hctl hst hserver hrests hstarted hreported =>
    exact .asked rfl htimer rfl (by rw [hctl]; rfl) hst hserver hrests hstarted hreported
  | running hfront | waited _ hfront | told _ _ hfront =>
    rcases hfront.requested_or_busy with hf | hf | hf | hf <;> cases hphase.symm.trans hf
  | asked hfuzzer | reaping hfuzzer | forking hfuzzer | started hfuzzer => cases hphase.symm.trans hfuzzer
  | status_read _ hfuzzer | child_forgotten _ hfuzzer => cases hphase.symm.trans hfuzzer

/-- The process id in the pipe is the one of the child that the fork server is busy with. -/
theorem Consistent.read_pid (h : Consistent setting w) (hstep : w.read_pid setting = some w') : Consistent setting w' := by
  obtain ⟨hphase, child_pid, st, hpipe, rfl⟩ := read_pid_cases hstep
  have hnet : ∀ phase, phase = (if setting.use_net then Asking.sending else .awaiting_status) →
      phase = .sending ∨ phase = .awaiting_exit ∨ phase = .awaiting_status := by
    rintro phase rfl
    cases setting.use_net
    · exact Or.inr (Or.inr rfl)
    · exact Or.inl rfl
  -- What was before the rest of the pipe is the process id.
  have hread : ∀ before after, w.Front before → w.st = before ++ after →
      st = after ∧ child_pid = w.server.child_pid ∧ 0 < w.server.child_pid := by
    intro before after hfront hst
    cases hfront with
    | requested _ _ _ hpos =>
      rw [hpipe] at hst
      cases hst
      exact ⟨rfl, rfl, hpos⟩
    | running hf =>
      rcases hf with hf | hf | hf <;> cases hphase.symm.trans hf
  refine h.of_fuzzer rfl rfl (fun hsend => ?_) ?_
  · cases hset : setting.use_net with
    | true => rfl
    | false =>
      simp only [hset, Bool.false_eq_true, if_false] at hsend
      rcases hsend with hsend | hsend <;> cases hsend
  cases h.row with
  | running hfront hctl hserver hstopped hhere hdead hstarted hreported =>
    obtain ⟨rfl, rfl, hpos⟩ := hread w.st [] hfront (List.append_nil _).symm
    exact .running (.running (hnet _ rfl) rfl (Or.inl rfl) hpos) hctl hserver hstopped hhere hdead hstarted hreported
  | waited status hfront hctl hserver hgot hstarted hreported =>
    obtain ⟨rfl, rfl, hpos⟩ := hread w.st [] hfront (List.append_nil _).symm
    exact .waited status (.running (hnet _ rfl) rfl (Or.inl rfl) hpos) hctl hserver ⟨hgot.1, hgot.2⟩ hstarted hreported
  | told status before hfront hctl hst hserver hgot hstarted hreported =>
    obtain ⟨rfl, rfl, hpos⟩ := hread before [.status status] hfront hst
    exact .told status [] (.running (hnet _ rfl) rfl (Or.inl rfl) hpos) hctl rfl hserver ⟨hgot.1, hgot.2⟩ hstarted hreported
  | idle hfuzzer => cases hphase.symm.trans hfuzzer
  | asked _ _ _ _ hst | reaping _ _ _ _ hst | forking _ _ _ _ hst | started _ _ _ _ hst => cases hpipe.symm.trans hst
  | status_read _ hfuzzer | child_forgotten _ hfuzzer => cases hphase.symm.trans hfuzzer

/-- Sending the messages and waiting for the exit leave everything else alone. -/
theorem Consistent.set_phase (h : Consistent setting w) (hphase : w.fuzzer.phase = .sending ∨ w.fuzzer.phase = .awaiting_exit)
    {phase : Asking} (hnext : phase = .awaiting_exit ∨ phase = .awaiting_status) :
    Consistent setting (w.set_fuzzer { w.fuzzer with phase }) := by
  have hbusy : phase = .sending ∨ phase = .awaiting_exit ∨ phase = .awaiting_status := Or.inr hnext
  have hfront : ∀ before, w.Front before → (w.set_fuzzer { w.fuzzer with phase }).Front before := by
    intro before hfront
    cases hfront with
    | requested hf => rcases hphase with hp | hp <;> cases hp.symm.trans hf
    | running _ hpid htimer hpos => exact .running hbusy hpid htimer hpos
  refine h.of_fuzzer rfl rfl (fun _ => h.net hphase) ?_
  cases h.row with
  | running hf hctl hserver hstopped hhere hdead hstarted hreported =>
    exact .running (hfront _ hf) hctl hserver hstopped hhere hdead hstarted hreported
  | waited status hf hctl hserver hgot hstarted hreported =>
    exact .waited status (hfront _ hf) hctl hserver ⟨hgot.1, hgot.2⟩ hstarted hreported
  | told status before hf hctl hst hserver hgot hstarted hreported =>
    exact .told status before (hfront _ hf) hctl hst hserver ⟨hgot.1, hgot.2⟩ hstarted hreported
  | idle hfuzzer | asked hfuzzer | reaping hfuzzer | forking hfuzzer | started hfuzzer =>
    rcases hphase with hp | hp <;> cases hp.symm.trans hfuzzer
  | status_read _ hfuzzer | child_forgotten _ hfuzzer => rcases hphase with hp | hp <;> cases hp.symm.trans hfuzzer

/-- Sending leads to one of the two places where `run_target` waits next. -/
theorem Consistent.send (h : Consistent setting w) (hstep : w.send early = some w') : Consistent setting w' := by
  obtain ⟨hphase, rfl⟩ := send_cases hstep
  cases early
  · exact h.set_phase (Or.inl hphase) (Or.inl rfl)
  · exact h.set_phase (Or.inl hphase) (Or.inr rfl)

theorem Consistent.poll (h : Consistent setting w) (hstep : w.poll = some w') : Consistent setting w' := by
  obtain ⟨_, _, rfl⟩ := poll_cases hstep
  exact h

theorem Consistent.notice_exit (h : Consistent setting w) (hstep : w.notice_exit = some w') : Consistent setting w' := by
  obtain ⟨hphase, _, rfl⟩ := notice_exit_cases hstep
  exact h.set_phase (Or.inr hphase) (Or.inr rfl)

/-- The status that is read is the next one that was reported, so nothing is lost or read twice.
-/
theorem Consistent.read_status (h : Consistent setting w) (hstep : w.read_status = some w') : Consistent setting w' := by
  obtain ⟨hphase, status, st, hpipe, rfl⟩ := read_status_cases hstep
  have hrunning : ∀ before after, w.Front before → w.st = before ++ after →
      before = [] ∧ w.fuzzer.child_pid = w.server.child_pid ∧ 0 < w.server.child_pid := by
    intro before after hfront hst
    cases hfront with
    | requested hf => cases hphase.symm.trans hf
    | running _ hpid _ hpos => exact ⟨rfl, hpid, hpos⟩
  refine h.of_fuzzer rfl rfl (by rintro (hnet | hnet) <;> cases hnet) ?_
  cases h.row with
  | told told before hfront hctl hst hserver hgot hstarted hreported =>
    obtain ⟨rfl, hpid, hpos⟩ := hrunning before _ hfront hst
    rw [hpipe] at hst
    cases hst
    refine .status_read status rfl hpid hpos hctl rfl hserver ⟨hgot.1, hgot.2⟩ hstarted ?_
    rw [← hpid] at hreported
    exact hreported
  | running hfront | waited _ hfront =>
    obtain ⟨hnil, _⟩ := hrunning _ [] hfront (List.append_nil _).symm
    cases hpipe.symm.trans hnil
  | idle hfuzzer | asked hfuzzer | reaping hfuzzer | forking hfuzzer | started hfuzzer => cases hphase.symm.trans hfuzzer
  | status_read _ hfuzzer | child_forgotten _ hfuzzer => cases hphase.symm.trans hfuzzer

/-- A child that has only stopped stays known as `child_pid`, and so does its id to the fork
server. -/
theorem Consistent.forget_child (h : Consistent setting w) (hstep : w.forget_child = some w') : Consistent setting w' := by
  obtain ⟨status, hphase, rfl⟩ := forget_child_cases hstep
  refine h.of_fuzzer rfl rfl (by rintro (hnet | hnet) <;> cases hnet) ?_
  cases h.row with
  | status_read read hfuzzer hpid hpos hctl hst hserver hgot hstarted hreported =>
    cases hphase.symm.trans hfuzzer
    refine .child_forgotten status rfl ?_ hpos hctl hst hserver ⟨hgot.1, hgot.2⟩ hstarted hreported
    exact congrArg (fun pid => if status = .stopped then pid else 0) hpid
  | running hfront | waited _ hfront | told _ _ hfront =>
    rcases hfront.requested_or_busy with hf | hf | hf | hf <;> cases hphase.symm.trans hf
  | idle hfuzzer | asked hfuzzer | reaping hfuzzer | forking hfuzzer | started hfuzzer => cases hphase.symm.trans hfuzzer
  | child_forgotten _ hfuzzer => cases hphase.symm.trans hfuzzer

theorem Consistent.finish (h : Consistent setting w) (hstep : w.finish = some w') : Consistent setting w' := by
  obtain ⟨status, hphase, rfl⟩ := finish_cases hstep
  refine h.of_fuzzer rfl rfl (by rintro (hnet | hnet) <;> cases hnet) ?_
  cases h.row with
  | child_forgotten _ _ _ _ hctl hst hserver hgot hstarted hreported =>
    exact .idle rfl rfl hctl hst hserver hgot.rests hstarted hreported
  | running hfront | waited _ hfront | told _ _ hfront =>
    rcases hfront.requested_or_busy with hf | hf | hf | hf <;> cases hphase.symm.trans hf
  | idle hfuzzer | asked hfuzzer | reaping hfuzzer | forking hfuzzer | started hfuzzer => cases hphase.symm.trans hfuzzer
  | status_read _ hfuzzer => cases hphase.symm.trans hfuzzer

/-- A child that rests is still one that rests after it was killed, and the fork server will be
told so. -/
theorem Rests.kill {killed : Bool} (hrests : w.Rests killed) (hserver : w'.server = w.server)
    (hprocess : w'.process w.server.child_pid = (w.process w.server.child_pid).kill) : w'.Rests true := by
  rw [Rests] at hrests ⊢
  rw [hserver, hprocess]
  cases hstopped : w.server.child_stopped with
  | true =>
    rw [hstopped, if_pos rfl] at hrests
    rw [if_pos rfl, if_pos rfl, hrests]
    cases killed <;> rfl
  | false =>
    rw [hstopped, if_neg Bool.false_ne_true] at hrests
    rw [if_neg Bool.false_ne_true, hrests]
    rfl

/-- A signal changes a process that runs or has stopped, and no other one. -/
theorem Process.kill_cases (process : Process) : process.kill = process ∧ (process = .gone ∨ ∃ status, process = .dead status) ∨
    process.kill = .dead (.signaled SIGKILL) ∧ (process = .running ∨ process = .stopped) := by
  cases process with
  | gone => exact Or.inl ⟨rfl, Or.inl rfl⟩
  | running => exact Or.inr ⟨rfl, Or.inl rfl⟩
  | stopped => exact Or.inr ⟨rfl, Or.inr rfl⟩
  | dead status => exact Or.inl ⟨rfl, Or.inr ⟨status, rfl⟩⟩

/-- The world after the timer has killed the child of the fork server. A process that is dead or
gone stays as it is. -/
def killed (w : World) : World :=
  { w with
    fuzzer := { w.fuzzer with timer := false, child_timed_out := true }
    process := Function.update w.process w.server.child_pid (w.process w.server.child_pid).kill }

/-- A status that was got before the timer went off stays the one that was got. -/
theorem Got.killed (hgot : w.Got status) : w.killed.Got status :=
  ⟨hgot.stopped_iff, hgot.rests.kill rfl (Function.update_self ..)⟩

theorem Front.killed {before : List Report} (htimer : w.fuzzer.timer = true) (hfront : w.Front before) : w.killed.Front before := by
  cases hfront with
  | requested _ _ hoff => cases htimer.symm.trans hoff
  | running hphase hpid _ hpos => exact .running hphase hpid (Or.inr rfl) hpos

/-- The invariant after `handle_timeout` has killed the child, whether it ran, had stopped, or
was dead already. -/
theorem Consistent.killed (h : Consistent setting w) (htimer : w.fuzzer.timer = true) (hpos : 0 < w.server.child_pid) :
    Consistent setting w.killed := by
  have hself : w.killed.process w.server.child_pid = (w.process w.server.child_pid).kill := Function.update_self ..
  have hcases := Process.kill_cases (w.process w.server.child_pid)
  rw [← hself] at hcases
  refine ⟨fun pid hpid => ?_, ?_, ?_, h.persistent, h.net, ?_⟩
  · exact (Function.update_of_ne hpid ..).trans (h.others_gone pid hpid)
  · exact (Function.update_of_ne (Nat.ne_of_lt hpos) ..).trans h.zero_gone
  · rcases hcases with ⟨hsame, _⟩ | ⟨hdead, _⟩
    · exact fun hstopped => h.dead_for_good (hsame.symm.trans hstopped)
    · exact fun hstopped => by cases hdead.symm.trans hstopped
  cases h.row with
  | running hfront hctl hserver hstopped hhere hdead hstarted hreported =>
    have hnow : ∃ status, w.killed.process w.server.child_pid = .dead status := by
      rcases hcases with ⟨hsame, hgone | ⟨status, hstatus⟩⟩ | ⟨hstatus, _⟩
      · exact absurd hgone hhere
      · exact ⟨status, hsame.trans hstatus⟩
      · exact ⟨_, hstatus⟩
    refine .running (hfront.killed htimer) hctl hserver hstopped ?_ (fun _ => hnow) hstarted hreported
    obtain ⟨status, hstatus⟩ := hnow
    exact fun hgone => by cases hstatus.symm.trans hgone
  | waited status hfront hctl hserver hgot hstarted hreported =>
    exact .waited status (hfront.killed htimer) hctl hserver hgot.killed hstarted hreported
  | told status before hfront hctl hst hserver hgot hstarted hreported =>
    exact .told status before (hfront.killed htimer) hctl hst hserver hgot.killed hstarted hreported
  | status_read status hfuzzer hpid hpos hctl hst hserver hgot hstarted hreported =>
    exact .status_read status hfuzzer hpid hpos hctl hst hserver hgot.killed hstarted hreported
  | child_forgotten status hfuzzer hpid hpos hctl hst hserver hgot hstarted hreported =>
    exact .child_forgotten status hfuzzer hpid hpos hctl hst hserver hgot.killed hstarted hreported
  | idle _ hoff | asked _ hoff | reaping _ hoff | forking _ hoff | started _ hoff => cases htimer.symm.trans hoff

/-- While the timer is set, `child_pid` is the child of the fork server, or the run is over. -/
theorem Consistent.child_pid_of_timer (h : Consistent setting w) (htimer : w.fuzzer.timer = true) :
    w.fuzzer.child_pid = w.server.child_pid ∧ 0 < w.server.child_pid ∨
      ∃ status, w.fuzzer.phase = .child_forgotten status ∧ w.fuzzer.child_pid = 0 := by
  have hfront : ∀ before, w.Front before → w.fuzzer.child_pid = w.server.child_pid ∧ 0 < w.server.child_pid := by
    intro before hfront
    cases hfront with
    | requested _ _ hoff => cases htimer.symm.trans hoff
    | running _ hpid _ hpos => exact ⟨hpid, hpos⟩
  cases h.row with
  | running hf | waited _ hf | told _ _ hf => exact Or.inl (hfront _ hf)
  | status_read _ _ hpid hpos => exact Or.inl ⟨hpid, hpos⟩
  | child_forgotten status hfuzzer hpid hpos =>
    by_cases hstopped : status = .stopped
    · rw [if_pos hstopped] at hpid
      exact Or.inl ⟨hpid, hpos⟩
    · rw [if_neg hstopped] at hpid
      exact Or.inr ⟨status, hfuzzer, hpid⟩
  | idle _ hoff | asked _ hoff | reaping _ hoff | forking _ hoff | started _ hoff => cases htimer.symm.trans hoff

/-- The timer does nothing to the children while `child_pid` is not positive. -/
theorem Consistent.alarm (h : Consistent setting w) (hstep : w.alarm = some w') : Consistent setting w' := by
  obtain ⟨htimer, hcases⟩ := alarm_cases hstep
  rcases h.child_pid_of_timer htimer with ⟨hpid, hpos⟩ | ⟨status, hphase, hpid⟩
  · have hknown : 0 < w.fuzzer.child_pid := hpid ▸ Int.natCast_pos.mpr hpos
    obtain ⟨_, rfl⟩ | ⟨hnot, _⟩ := hcases
    · have hkilled := h.killed htimer hpos
      rw [World.killed] at hkilled
      simpa only [hpid, Int.toNat_natCast] using hkilled
    · exact absurd hknown hnot
  · obtain ⟨hknown, _⟩ | ⟨_, rfl⟩ := hcases
    · rw [hpid] at hknown
      exact absurd hknown (Int.lt_irrefl 0)
    · refine h.of_fuzzer rfl rfl h.net ?_
      cases h.row with
      | child_forgotten status hfuzzer hpid hpos hctl hst hserver hgot hstarted hreported =>
        exact .child_forgotten status hfuzzer hpid hpos hctl hst hserver ⟨hgot.1, hgot.2⟩ hstarted hreported
      | running hfront | waited _ hfront | told _ _ hfront =>
        rcases hfront.requested_or_busy with hf | hf | hf | hf <;> cases hphase.symm.trans hf
      | idle hfuzzer | asked hfuzzer | reaping hfuzzer | forking hfuzzer | started hfuzzer => cases hphase.symm.trans hfuzzer
      | status_read _ hfuzzer => cases hphase.symm.trans hfuzzer

/-- The fork server goes on in one of three ways: a stopped child is continued, a killed one is
waited for, or a new one is forked. -/
theorem Consistent.read_request (h : Consistent setting w) (hstep : w.read_request = some w') : Consistent setting w' := by
  obtain ⟨_, was_killed, ctl, hpipe, hcases⟩ := read_request_cases hstep
  cases h.row with
  | asked hfuzzer htimer hfresh hctl hst hserver hrests hstarted hreported =>
    rw [hpipe] at hctl
    cases hctl
    have hnet : w.fuzzer.phase = .sending ∨ w.fuzzer.phase = .awaiting_exit → setting.use_net = true := h.net
    rw [Rests] at hrests
    obtain ⟨hstopped, hkilled, rfl⟩ | ⟨hstopped, rfl⟩ | ⟨hstopped, hkilled, rfl⟩ := hcases
    · rw [hstopped, if_pos rfl, hkilled, if_pos rfl] at hrests
      exact ⟨h.others_gone, h.zero_gone, h.dead_for_good, nofun, hnet,
        .reaping hfuzzer htimer hfresh rfl hst rfl rfl hrests hstarted hreported⟩
    · rw [hstopped, if_neg Bool.false_ne_true] at hrests
      exact ⟨h.others_gone, h.zero_gone, h.dead_for_good, h.persistent, hnet,
        .forking hfuzzer htimer hfresh rfl hst rfl hstopped hrests hstarted hreported⟩
    · rw [hstopped, if_pos rfl, hkilled, if_neg Bool.false_ne_true] at hrests
      have hself : Function.update w.process w.server.child_pid (w.process w.server.child_pid).continue w.server.child_pid =
          .running := by
        rw [hrests]
        exact Function.update_self ..
      have hzero : w.server.child_pid ≠ 0 := fun hzero => by
        rw [hzero, h.zero_gone] at hrests
        cases hrests
      refine ⟨fun pid hpid => (Function.update_of_ne hpid ..).trans (h.others_gone pid hpid),
        (Function.update_of_ne hzero.symm ..).trans h.zero_gone, fun hdead => ?_, nofun, hnet,
        .started hfuzzer htimer hfresh rfl hst rfl rfl (fun hgone => ?_) ?_ hreported⟩
      · cases hself.symm.trans hdead
      · cases hself.symm.trans hgone
      · exact congrArg (· ++ [w.server.child_pid]) hstarted
  | running _ hctl | waited _ _ hctl | told _ _ _ hctl => cases hpipe.symm.trans hctl
  | idle _ _ hctl | reaping _ _ _ hctl | forking _ _ _ hctl | started _ _ _ hctl => cases hpipe.symm.trans hctl
  | status_read _ _ _ _ hctl | child_forgotten _ _ _ _ hctl => cases hpipe.symm.trans hctl

theorem Consistent.reap (h : Consistent setting w) (hstep : w.reap = some w') : Consistent setting w' := by
  obtain ⟨hphase, _, _, rfl⟩ := reap_cases hstep
  cases h.row with
  | reaping hfuzzer htimer hfresh hctl hst _ hstopped hkilled hstarted hreported =>
    have hself : Function.update w.process w.server.child_pid Process.gone w.server.child_pid = .gone := Function.update_self ..
    have hgone : ∀ pid, Function.update w.process w.server.child_pid Process.gone pid = .gone := by
      intro pid
      by_cases hpid : pid = w.server.child_pid
      · rw [hpid]
        exact hself
      · exact (Function.update_of_ne hpid ..).trans (h.others_gone pid hpid)
    exact ⟨fun pid _ => hgone pid, hgone 0, fun hdead => (by cases hself.symm.trans hdead), h.persistent, h.net,
      .forking hfuzzer htimer hfresh hctl hst rfl hstopped hself hstarted hreported⟩
  | idle _ _ _ _ hserver | asked _ _ _ _ _ hserver | forking _ _ _ _ _ hserver | started _ _ _ _ _ hserver =>
    cases hphase.symm.trans hserver
  | running _ _ hserver | waited _ _ _ hserver | told _ _ _ _ _ hserver => cases hphase.symm.trans hserver
  | status_read _ _ _ _ _ _ hserver | child_forgotten _ _ _ _ _ _ hserver => cases hphase.symm.trans hserver

/-- The id of a new child is one that is not in use, so it is not that of a child that was
waited for. -/
theorem Consistent.fork (h : Consistent setting w) (hstep : w.fork pid = some w') : Consistent setting w' := by
  obtain ⟨hphase, hpos, _, rfl⟩ := fork_cases hstep
  cases h.row with
  | forking hfuzzer htimer hfresh hctl hst _ hstopped hgone hstarted hreported =>
    have hself : Function.update w.process pid Process.running pid = .running := Function.update_self ..
    have hother : ∀ other, other ≠ pid → Function.update w.process pid Process.running other = .gone := by
      intro other hne
      rw [Function.update_of_ne hne]
      by_cases hold : other = w.server.child_pid
      · rw [hold, hgone]
      · exact h.others_gone other hold
    refine ⟨hother, hother 0 (Nat.ne_of_lt hpos), fun hdead => ?_, h.persistent, h.net,
      .started hfuzzer htimer hfresh hctl hst rfl hstopped (fun hgone => ?_) ?_ hreported⟩
    · cases hself.symm.trans hdead
    · cases hself.symm.trans hgone
    · exact congrArg (· ++ [pid]) hstarted
  | idle _ _ _ _ hserver | asked _ _ _ _ _ hserver | reaping _ _ _ _ _ hserver | started _ _ _ _ _ hserver =>
    cases hphase.symm.trans hserver
  | running _ _ hserver | waited _ _ _ hserver | told _ _ _ _ _ hserver => cases hphase.symm.trans hserver
  | status_read _ _ _ _ _ _ hserver | child_forgotten _ _ _ _ _ _ hserver => cases hphase.symm.trans hserver

/-- The id that is written is that of the child the fork server waits for next. -/
theorem Consistent.write_pid (h : Consistent setting w) (hstep : w.write_pid = some w') : Consistent setting w' := by
  obtain ⟨hphase, rfl⟩ := write_pid_cases hstep
  cases h.row with
  | started hfuzzer htimer hfresh hctl hst _ hstopped hhere hstarted hreported =>
    have hpos : 0 < w.server.child_pid := Nat.pos_of_ne_zero fun hzero => hhere (by rw [hzero, h.zero_gone])
    refine ⟨h.others_gone, h.zero_gone, h.dead_for_good, h.persistent, h.net,
      .running ?_ hctl rfl hstopped hhere (fun htimed => ?_) hstarted hreported⟩
    · rw [hst]
      exact .requested hfuzzer hfresh htimer hpos
    · cases hfresh.symm.trans htimed
  | idle _ _ _ _ hserver | asked _ _ _ _ _ hserver | reaping _ _ _ _ _ hserver | forking _ _ _ _ _ hserver =>
    cases hphase.symm.trans hserver
  | running _ _ hserver | waited _ _ _ hserver | told _ _ _ _ _ hserver => cases hphase.symm.trans hserver
  | status_read _ _ _ _ _ _ hserver | child_forgotten _ _ _ _ _ _ hserver => cases hphase.symm.trans hserver

/-- What `run_target` does does not depend on what the fork server has got. -/
theorem Front.of_server {before : List Report} (hfront : w.Front before) (hfuzzer : w'.fuzzer = w.fuzzer)
    (hpid : w'.server.child_pid = w.server.child_pid) : w'.Front before := by
  cases hfront with
  | requested hphase hfresh htimer hpos =>
    rw [← hpid] at hpos ⊢
    rw [← hfuzzer] at hphase hfresh htimer
    exact .requested hphase hfresh htimer hpos
  | running hphase hchild htimer hpos =>
    rw [← hfuzzer] at hphase hchild htimer
    rw [← hpid] at hpos hchild
    exact .running hphase hchild htimer hpos

/-- The fork server has the status of its child, which is dead or has stopped, and only a
persistent program is told of a stop. -/
theorem Consistent.wait (h : Consistent setting w) (hstep : w.wait setting = some w') : Consistent setting w' := by
  obtain ⟨hphase, hcases⟩ := wait_cases hstep
  cases h.row with
  | running hfront hctl _ hstopped hhere hdead hstarted hreported =>
    have hpos : 0 < w.server.child_pid := Nat.pos_of_ne_zero fun hzero => hhere (by rw [hzero, h.zero_gone])
    have hreports : ∀ status, w.reported ++ [((w.server.child_pid : Int), status)] =
        (w.waited ++ [(w.server.child_pid, status)]).map fun report => ((report.1 : Int), report.2) := by
      intro status
      rw [hreported, List.map_append]
      rfl
    have hserved : ∀ status, w.started = (w.waited ++ [(w.server.child_pid, status)]).map Prod.fst := by
      intro status
      rw [hstarted, List.map_append]
      rfl
    obtain ⟨status, hstatus, rfl⟩ | ⟨hpersistent, hstatus, rfl⟩ := hcases
    · have hself : Function.update w.process w.server.child_pid Process.gone w.server.child_pid = .gone := Function.update_self ..
      refine ⟨fun pid hpid => (Function.update_of_ne hpid ..).trans (h.others_gone pid hpid),
        (Function.update_of_ne (Nat.ne_of_lt hpos) ..).trans h.zero_gone, fun hdead => (by cases hself.symm.trans hdead), h.persistent,
        h.net, .waited status (hfront.of_server rfl rfl) hctl rfl ⟨?_, ?_⟩ (hserved status) (hreports status)⟩
      · constructor
        · intro htrue
          cases hstopped.symm.trans htrue
        · rintro rfl
          exact absurd hstatus h.dead_for_good
      · rw [Rests]
        exact (if_neg (by rw [hstopped]; exact Bool.false_ne_true)).mpr hself
    · have hfresh : w.fuzzer.child_timed_out = false := by
        by_contra htimed
        obtain ⟨status, hdead⟩ := hdead (Bool.not_eq_false _ ▸ htimed)
        cases hstatus.symm.trans hdead
      refine ⟨h.others_gone, h.zero_gone, h.dead_for_good, fun _ => hpersistent, h.net,
        .waited .stopped (hfront.of_server rfl rfl) hctl rfl ⟨⟨fun _ => rfl, fun _ => rfl⟩, ?_⟩ (hserved .stopped)
          (hreports .stopped)⟩
      rw [Rests, if_pos rfl]
      exact hstatus.trans (by rw [hfresh]; rfl)
  | idle _ _ _ _ hserver | asked _ _ _ _ _ hserver | reaping _ _ _ _ _ hserver | forking _ _ _ _ _ hserver | started _ _ _ _ _ hserver =>
    cases hphase.symm.trans hserver
  | waited _ _ _ hserver | told _ _ _ _ _ hserver => cases hphase.symm.trans hserver
  | status_read _ _ _ _ _ _ hserver | child_forgotten _ _ _ _ _ _ hserver => cases hphase.symm.trans hserver

theorem Consistent.write_status (h : Consistent setting w) (hstep : w.write_status = some w') : Consistent setting w' := by
  obtain ⟨status, hphase, rfl⟩ := write_status_cases hstep
  cases h.row with
  | waited got hfront hctl hserver hgot hstarted hreported =>
    cases hphase.symm.trans hserver
    exact ⟨h.others_gone, h.zero_gone, h.dead_for_good, h.persistent, h.net,
      .told status w.st (hfront.of_server rfl rfl) hctl rfl rfl ⟨hgot.1, hgot.2⟩ hstarted hreported⟩
  | idle _ _ _ _ hserver | asked _ _ _ _ _ hserver | reaping _ _ _ _ _ hserver | forking _ _ _ _ _ hserver | started _ _ _ _ _ hserver =>
    cases hphase.symm.trans hserver
  | running _ _ hserver | told _ _ _ _ _ hserver => cases hphase.symm.trans hserver
  | status_read _ _ _ _ _ _ hserver | child_forgotten _ _ _ _ _ _ hserver => cases hphase.symm.trans hserver

/-- Only the child that the fork server waits for can run. -/
theorem Consistent.running_cases (h : Consistent setting w) (hrunning : w.process pid = .running) :
    pid = w.server.child_pid ∧ (w.server.phase = .child_started ∨ w.server.phase = .pid_written) := by
  have hpid : pid = w.server.child_pid := by
    by_contra hne
    cases hrunning.symm.trans (h.others_gone pid hne)
  subst hpid
  have hrests : ∀ killed, w.Rests killed → False := by
    intro killed hrests
    rw [Rests, hrunning] at hrests
    split at hrests
    · cases killed <;> cases hrests
    · cases hrests
  refine ⟨rfl, ?_⟩
  cases h.row with
  | started _ _ _ _ _ hserver => exact Or.inl hserver
  | running _ _ hserver => exact Or.inr hserver
  | idle _ _ _ _ _ hr | asked _ _ _ _ _ _ hr => exact absurd hr (hrests _)
  | reaping _ _ _ _ _ _ _ hdead => cases hrunning.symm.trans hdead
  | forking _ _ _ _ _ _ _ hgone => cases hrunning.symm.trans hgone
  | waited _ _ _ _ hgot | told _ _ _ _ _ _ hgot => exact absurd hgot.rests (hrests _)
  | status_read _ _ _ _ _ _ _ hgot | child_forgotten _ _ _ _ _ _ _ hgot => exact absurd hgot.rests (hrests _)

/-- A child ends or stops by itself. It can be no other than the one that the fork server waits
for. -/
theorem Consistent.child (h : Consistent setting w) (hstep : w.child pid status = some w') : Consistent setting w' := by
  obtain ⟨hrunning, rfl⟩ := child_cases hstep
  obtain ⟨rfl, hphase⟩ := h.running_cases hrunning
  have hzero : w.server.child_pid ≠ 0 := fun hzero => by
    rw [hzero, h.zero_gone] at hrunning
    cases hrunning
  let process := if status = .stopped then Process.stopped else .dead status
  have hself : Function.update w.process w.server.child_pid process w.server.child_pid = process := Function.update_self ..
  have hgone : process ≠ .gone := by
    by_cases hstopped : status = .stopped
    · simp [process, hstopped]
    · simp [process, hstopped]
  have hdead : process ≠ .dead .stopped := by
    by_cases hstopped : status = .stopped
    · simp [process, hstopped]
    · simp [process, hstopped]
  refine ⟨fun pid hpid => (Function.update_of_ne hpid ..).trans (h.others_gone pid hpid),
    (Function.update_of_ne hzero.symm ..).trans h.zero_gone, fun heq => hdead (hself.symm.trans heq), h.persistent, h.net, ?_⟩
  cases h.row with
  | started hfuzzer htimer hfresh hctl hst hserver hstopped _ hstarted hreported =>
    exact .started hfuzzer htimer hfresh hctl hst hserver hstopped (fun heq => hgone (hself.symm.trans heq)) hstarted hreported
  | running hfront hctl hserver hstopped _ htimed hstarted hreported =>
    refine .running (hfront.of_server rfl rfl) hctl hserver hstopped (fun heq => hgone (hself.symm.trans heq)) (fun hout => ?_)
      hstarted hreported
    obtain ⟨_, hold⟩ := htimed hout
    cases hrunning.symm.trans hold
  | idle _ _ _ _ hserver | asked _ _ _ _ _ hserver | reaping _ _ _ _ _ hserver | forking _ _ _ _ _ hserver =>
    rcases hphase with hp | hp <;> cases hp.symm.trans hserver
  | waited _ _ _ hserver | told _ _ _ _ _ hserver => rcases hphase with hp | hp <;> cases hp.symm.trans hserver
  | status_read _ _ _ _ _ _ hserver | child_forgotten _ _ _ _ _ _ hserver =>
    rcases hphase with hp | hp <;> cases hp.symm.trans hserver

theorem Consistent.step (h : Consistent setting w) {action : Action} (hstep : w.step setting action = some w') : Consistent setting w' := by
  cases action with
  | request => exact h.request hstep
  | read_pid => exact h.read_pid hstep
  | send early => exact h.send hstep
  | poll => exact h.poll hstep
  | notice_exit => exact h.notice_exit hstep
  | read_status => exact h.read_status hstep
  | forget_child => exact h.forget_child hstep
  | finish => exact h.finish hstep
  | alarm => exact h.alarm hstep
  | read_request => exact h.read_request hstep
  | reap => exact h.reap hstep
  | fork pid => exact h.fork hstep
  | write_pid => exact h.write_pid hstep
  | wait => exact h.wait hstep
  | write_status => exact h.write_status hstep
  | child pid status => exact h.child hstep

/-- The invariant holds after any interleaving. -/
theorem Reachable.consistent (h : w.Reachable setting) : Consistent setting w := by
  obtain ⟨actions, hsteps⟩ := h
  have hrun : ∀ {before after : World} {actions}, Steps setting before actions after → Consistent setting before →
      Consistent setting after := by
    intro before after actions hsteps hbefore
    induction hsteps with
    | nil => exact hbefore
    | cons hstep _ ih => exact ih (hbefore.step hstep)
  exact hrun hsteps (consistent_start setting)

end World

end aflnet
