import AflnetLegion.Exec.Consistent

/-! What `run_target` says about a run, and what has become of the child. -/

namespace aflnet.World

variable {setting : Setting} {w w' : World} {action : Action} {actions : List Action} {status : Wait} {P : World → Prop}

/-- The timer goes off in a world that satisfies `P`. -/
def AlarmWhen (setting : Setting) (P : World → Prop) (w : World) (actions : List Action) : Prop :=
  ∃ before after w₁, actions = before ++ .alarm :: after ∧ Steps setting w before w₁ ∧ P w₁

/-- The timer goes off while `run_target` knows the child, so that `handle_timeout` kills it. -/
def TimesOut (setting : Setting) (w : World) (actions : List Action) : Prop := AlarmWhen setting (fun w => 0 < w.fuzzer.child_pid) w actions

/-- The timer goes off while the child of the fork server runs. -/
def OutlivesTimer (setting : Setting) (w : World) (actions : List Action) : Prop :=
  AlarmWhen setting (fun w => w.process w.server.child_pid = .running) w actions

theorem not_alarmWhen_nil (w : World) : ¬ AlarmWhen setting P w [] := by
  rintro ⟨before, after, w₁, hactions, _⟩
  cases before <;> cases hactions

/-- The timer goes off at the first step, or later. -/
theorem alarmWhen_cons_iff (hstep : w.step setting action = some w') :
    AlarmWhen setting P w (action :: actions) ↔ action = .alarm ∧ P w ∨ AlarmWhen setting P w' actions := by
  constructor
  · rintro ⟨before, after, w₁, hactions, hbefore, hw₁⟩
    cases hbefore with
    | nil =>
      obtain ⟨rfl, _⟩ := List.cons.inj hactions
      exact Or.inl ⟨rfl, hw₁⟩
    | cons hfirst hrest =>
      obtain ⟨rfl, hafter⟩ := List.cons.inj hactions
      cases hstep.symm.trans hfirst
      exact Or.inr ⟨_, after, w₁, hafter, hrest, hw₁⟩
  · rintro (⟨rfl, hw⟩ | ⟨before, after, w₁, rfl, hbefore, hw₁⟩)
    · exact ⟨[], actions, w, rfl, .nil w, hw⟩
    · exact ⟨action :: before, after, w₁, rfl, .cons hstep hbefore, hw₁⟩

/-- The timer sets `child_timed_out` only if `run_target` knows the child. -/
theorem alarm_child_timed_out (hstep : w.alarm = some w') :
    w'.fuzzer.child_timed_out = true ↔ w.fuzzer.child_timed_out = true ∨ 0 < w.fuzzer.child_pid := by
  obtain ⟨_, ⟨hpid, rfl⟩ | ⟨hpid, rfl⟩⟩ := alarm_cases hstep
  · simp [hpid]
  · simp [set_fuzzer, hpid]

/-- Only the timer and the next request write `child_timed_out`. -/
theorem step_child_timed_out (hstep : w.step setting action = some w') (hrequest : action ≠ .request) (halarm : action ≠ .alarm) :
    w'.fuzzer.child_timed_out = w.fuzzer.child_timed_out := by
  cases action with
  | request => exact absurd rfl hrequest
  | alarm => exact absurd rfl halarm
  | read_pid =>
    obtain ⟨_, _, _, _, rfl⟩ := read_pid_cases hstep
    rfl
  | send early =>
    obtain ⟨_, rfl⟩ := send_cases hstep
    rfl
  | poll =>
    obtain ⟨_, _, rfl⟩ := poll_cases hstep
    rfl
  | notice_exit =>
    obtain ⟨_, _, rfl⟩ := notice_exit_cases hstep
    rfl
  | read_status =>
    obtain ⟨_, _, _, _, rfl⟩ := read_status_cases hstep
    rfl
  | forget_child =>
    obtain ⟨_, _, rfl⟩ := forget_child_cases hstep
    rfl
  | finish =>
    obtain ⟨_, _, rfl⟩ := finish_cases hstep
    rfl
  | read_request =>
    obtain ⟨_, _, _, _, ⟨_, _, rfl⟩ | ⟨_, rfl⟩ | ⟨_, _, rfl⟩⟩ := read_request_cases hstep <;> rfl
  | reap =>
    obtain ⟨_, _, _, rfl⟩ := reap_cases hstep
    rfl
  | fork pid =>
    obtain ⟨_, _, _, rfl⟩ := fork_cases hstep
    rfl
  | write_pid =>
    obtain ⟨_, rfl⟩ := write_pid_cases hstep
    rfl
  | wait =>
    obtain ⟨_, ⟨_, _, rfl⟩ | ⟨_, _, rfl⟩⟩ := wait_cases hstep <;> rfl
  | write_status =>
    obtain ⟨_, _, rfl⟩ := write_status_cases hstep
    rfl
  | child pid status =>
    obtain ⟨_, rfl⟩ := child_cases hstep
    rfl

/-- `child_timed_out` says whether the timer has gone off in this run while the child was known. -/
theorem child_timed_out_iff (hsteps : Steps setting w actions w') (hrequest : .request ∉ actions) :
    w'.fuzzer.child_timed_out = true ↔ w.fuzzer.child_timed_out = true ∨ TimesOut setting w actions := by
  induction hsteps with
  | nil w =>
    rw [TimesOut, or_iff_left (not_alarmWhen_nil w)]
  | @cons w w₁ w₂ action actions hstep _ ih =>
    obtain ⟨hne, hrest⟩ := not_or.mp (List.mem_cons.not.mp hrequest)
    rw [ih hrest, TimesOut, TimesOut, alarmWhen_cons_iff hstep, ← or_assoc]
    refine or_congr_left ?_
    by_cases halarm : action = .alarm
    · subst halarm
      rw [alarm_child_timed_out hstep, and_iff_right rfl]
    · rw [step_child_timed_out hstep (Ne.symm hne) halarm, or_iff_left fun hboth => halarm hboth.1]

/-- The child is dead, and what it died of is what `run_target` reads, or has read. From here on
the fault of the run is decided, whatever steps follow before the next request. -/
structure Settled (status : Wait) (w : World) : Prop where
  ctl : w.ctl = []
  phase : w.server.phase = .child_started ∨ w.server.phase = .pid_written ∨ w.server.phase = .child_waited status ∨
    w.server.phase = .awaiting_request
  dead : w.server.phase = .child_started ∨ w.server.phase = .pid_written → w.process w.server.child_pid = .dead status
  st : ∀ got, .status got ∈ w.st → got = status
  got : ∀ got, w.fuzzer.phase = .status_read got ∨ w.fuzzer.phase = .child_forgotten got → got = status

/-- A step of `run_target`, which takes nothing but statuses of this run from the pipe. -/
theorem Settled.of_run_target (h : Settled status w) (hctl : w'.ctl = w.ctl) (hserver : w'.server = w.server)
    (hprocess : w'.process = w.process) (hst : ∀ report ∈ w'.st, report ∈ w.st)
    (hgot : ∀ got, w'.fuzzer.phase = .status_read got ∨ w'.fuzzer.phase = .child_forgotten got → got = status) : Settled status w' := by
  refine ⟨hctl.trans h.ctl, ?_, ?_, fun got hmem => h.st got (hst _ hmem), hgot⟩
  · rw [hserver]
    exact h.phase
  · rw [hserver, hprocess]
    exact h.dead

/-- What happens to the child does not depend on the steps that `run_target` takes, and the fork server passes it on. -/
theorem Settled.step (h : Settled status w) (hstep : w.step setting action = some w') (hrequest : action ≠ .request) : Settled status w' := by
  cases action with
  | request => exact absurd rfl hrequest
  | read_pid =>
    obtain ⟨_, child_pid, st, hst, rfl⟩ := read_pid_cases hstep
    refine h.of_run_target rfl rfl rfl (fun report hmem => by rw [hst]; exact List.mem_cons_of_mem _ hmem) fun got hphase => ?_
    simp only at hphase
    split at hphase <;> rcases hphase with hphase | hphase <;> cases hphase
  | send early =>
    obtain ⟨_, rfl⟩ := send_cases hstep
    refine h.of_run_target rfl rfl rfl (fun _ => id) ?_
    rintro got (hphase | hphase) <;> cases early <;> cases hphase
  | poll =>
    obtain ⟨_, _, rfl⟩ := poll_cases hstep
    exact h
  | notice_exit =>
    obtain ⟨_, _, rfl⟩ := notice_exit_cases hstep
    refine h.of_run_target rfl rfl rfl (fun _ => id) ?_
    rintro got (hphase | hphase) <;> cases hphase
  | read_status =>
    obtain ⟨_, got, st, hst, rfl⟩ := read_status_cases hstep
    refine h.of_run_target rfl rfl rfl (fun report hmem => by rw [hst]; exact List.mem_cons_of_mem _ hmem) ?_
    rintro got (hphase | hphase) <;> cases hphase
    exact h.st _ (by rw [hst]; exact List.mem_cons_self)
  | forget_child =>
    obtain ⟨got, hphase, rfl⟩ := forget_child_cases hstep
    refine h.of_run_target rfl rfl rfl (fun _ => id) ?_
    rintro got (hnext | hnext) <;> cases hnext
    exact h.got _ (Or.inl hphase)
  | finish =>
    obtain ⟨_, _, rfl⟩ := finish_cases hstep
    refine h.of_run_target rfl rfl rfl (fun _ => id) ?_
    rintro got (hphase | hphase) <;> cases hphase
  | alarm =>
    obtain ⟨_, ⟨_, rfl⟩ | ⟨_, rfl⟩⟩ := alarm_cases hstep
    · refine ⟨h.ctl, h.phase, fun hphase => ?_, h.st, h.got⟩
      -- A process that is dead stays as it is.
      by_cases hpid : w.server.child_pid = w.fuzzer.child_pid.toNat
      · simp only [hpid, Function.update_self]
        rw [← hpid, h.dead hphase]
        rfl
      · simp only [Function.update_of_ne hpid]
        exact h.dead hphase
    · exact h.of_run_target rfl rfl rfl (fun _ => id) h.got
  | read_request =>
    obtain ⟨_, _, _, hpipe, _⟩ := read_request_cases hstep
    cases hpipe.symm.trans h.ctl
  | reap =>
    obtain ⟨hreaping, _⟩ := reap_cases hstep
    rcases h.phase with hphase | hphase | hphase | hphase <;> cases hreaping.symm.trans hphase
  | fork pid =>
    obtain ⟨hforking, _⟩ := fork_cases hstep
    rcases h.phase with hphase | hphase | hphase | hphase <;> cases hforking.symm.trans hphase
  | write_pid =>
    obtain ⟨hphase, rfl⟩ := write_pid_cases hstep
    refine ⟨h.ctl, Or.inr (Or.inl rfl), fun _ => h.dead (Or.inl hphase), fun got hmem => ?_, h.got⟩
    rcases List.mem_append.mp hmem with hmem | hmem
    · exact h.st got hmem
    · cases List.mem_singleton.mp hmem
  | wait =>
    obtain ⟨hphase, ⟨waited, hdead, rfl⟩ | ⟨_, hstopped, _⟩⟩ := wait_cases hstep
    · cases hdead.symm.trans (h.dead (Or.inr hphase))
      refine ⟨h.ctl, Or.inr (Or.inr (Or.inl rfl)), ?_, h.st, h.got⟩
      rintro (hnext | hnext) <;> cases hnext
    · cases hstopped.symm.trans (h.dead (Or.inr hphase))
  | write_status =>
    obtain ⟨waited, hphase, rfl⟩ := write_status_cases hstep
    have hwaited : waited = status := by
      rcases h.phase with hp | hp | hp | hp <;> cases hphase.symm.trans hp
      rfl
    refine ⟨h.ctl, Or.inr (Or.inr (Or.inr rfl)), ?_, fun got hmem => ?_, h.got⟩
    · rintro (hnext | hnext) <;> cases hnext
    · rcases List.mem_append.mp hmem with hmem | hmem
      · exact h.st got hmem
      · cases List.mem_singleton.mp hmem
        exact hwaited
  | child pid died =>
    obtain ⟨hrunning, rfl⟩ := child_cases hstep
    refine ⟨h.ctl, h.phase, fun hphase => ?_, h.st, h.got⟩
    have hne : w.server.child_pid ≠ pid := by
      rintro rfl
      cases hrunning.symm.trans (h.dead hphase)
    exact (Function.update_of_ne hne ..).trans (h.dead hphase)

/-- What the child died of is not changed before the next request. -/
theorem Settled.steps (h : Settled status w) (hsteps : Steps setting w actions w') (hrequest : .request ∉ actions) : Settled status w' := by
  induction hsteps with
  | nil => exact h
  | cons hstep _ ih =>
    obtain ⟨hne, hrest⟩ := not_or.mp (List.mem_cons.not.mp hrequest)
    exact ih (h.step hstep (Ne.symm hne)) hrest

/-- While the timer is set and the fork server is busy with the child, `run_target` knows it, and has not read more. -/
theorem Front.of_timer {before : List Report} (hfront : w.Front before) (htimer : w.fuzzer.timer = true) :
    before = [] ∧ w.fuzzer.child_pid = w.server.child_pid ∧ 0 < w.server.child_pid ∧
      ∀ got, ¬ (w.fuzzer.phase = .status_read got ∨ w.fuzzer.phase = .child_forgotten got) := by
  cases hfront with
  | requested _ _ hoff => cases htimer.symm.trans hoff
  | running hbusy hpid _ hpos =>
    refine ⟨rfl, hpid, hpos, fun got hphase => ?_⟩
    rcases hbusy with hbusy | hbusy | hbusy <;> rcases hphase with hphase | hphase <;> cases hbusy.symm.trans hphase

/-- When the timer goes off while the child runs, `run_target` knows the child, which is dead from then on. -/
theorem Consistent.settled_of_alarm (h : Consistent setting w) (hrunning : w.process w.server.child_pid = .running)
    (hstep : w.alarm = some w') : 0 < w.fuzzer.child_pid ∧ Settled (.signaled SIGKILL) w' := by
  obtain ⟨htimer, hcases⟩ := alarm_cases hstep
  obtain ⟨_, hserver⟩ := h.running_cases hrunning
  cases h.row with
  | running hfront hctl hphase =>
    obtain ⟨hst, hpid, hpos, hgot⟩ := hfront.of_timer htimer
    have hknown : 0 < w.fuzzer.child_pid := hpid ▸ Int.natCast_pos.mpr hpos
    obtain ⟨_, rfl⟩ | ⟨hnot, _⟩ := hcases
    · refine ⟨hknown, hctl, Or.inr (Or.inl hphase), fun _ => ?_, fun got hmem => ?_, fun got hphase => absurd hphase (hgot got)⟩
      · simp only [hpid, Int.toNat_natCast, Function.update_self, hrunning]
        rfl
      · rw [hst] at hmem
        cases hmem
    · exact absurd hknown hnot
  | idle _ hoff | asked _ hoff | reaping _ hoff | forking _ hoff | started _ hoff => cases htimer.symm.trans hoff
  | waited _ _ _ hphase | told _ _ _ _ _ hphase => rcases hserver with hs | hs <;> cases hphase.symm.trans hs
  | status_read _ _ _ _ _ _ hphase | child_forgotten _ _ _ _ _ _ hphase => rcases hserver with hs | hs <;> cases hphase.symm.trans hs

/-- A child that still runs when the timer goes off is waited for as one that died of `SIGKILL`. -/
theorem Consistent.killed_of_outlivesTimer (h : Consistent setting w) (hsteps : Steps setting w actions w') (hrequest : .request ∉ actions)
    (houtlives : OutlivesTimer setting w actions) (hphase : w'.fuzzer.phase = .child_forgotten status) :
    TimesOut setting w actions ∧ status = .signaled SIGKILL := by
  induction hsteps with
  | nil w => exact absurd houtlives (not_alarmWhen_nil w)
  | @cons w w₁ w₂ action actions hstep hlater ih =>
    obtain ⟨hne, hrest⟩ := not_or.mp (List.mem_cons.not.mp hrequest)
    rcases (alarmWhen_cons_iff hstep).mp houtlives with ⟨rfl, hrunning⟩ | houtlives
    · obtain ⟨hknown, hsettled⟩ := h.settled_of_alarm hrunning hstep
      exact ⟨(alarmWhen_cons_iff hstep).mpr (Or.inl ⟨rfl, hknown⟩), (hsettled.steps hlater hrest).got status (Or.inr hphase)⟩
    · obtain ⟨htimed, hkilled⟩ := ih (h.step hstep) hrest houtlives hphase
      exact ⟨(alarmWhen_cons_iff hstep).mpr (Or.inr htimed), hkilled⟩

/-- `asked` is the world right after the last request, and `actions` are what has happened between it and `w`. -/
def InRun (setting : Setting) (asked : World) (actions : List Action) (w : World) : Prop :=
  (∃ before : World, before.Reachable setting ∧ before.request = some asked) ∧ Steps setting asked actions w ∧ .request ∉ actions

theorem request_child_timed_out (hstep : w.request = some w') : w'.fuzzer.child_timed_out = false := by
  obtain ⟨_, rfl⟩ := request_cases hstep
  rfl

/-- A timeout is reported if the flag is set and the child died of `SIGKILL`; neither of the two
is enough. -/
theorem run_target_fault_eq_timeout (uses_asan child_timed_out : Bool) (status : Wait) :
    run_target_fault uses_asan child_timed_out status = .FAULT_TMOUT ↔ child_timed_out = true ∧ status = .signaled SIGKILL := by
  cases status with
  | stopped => simp [run_target_fault]
  | exited code =>
    rw [run_target_fault]
    split <;> simp
  | signaled sig =>
    rw [run_target_fault, Wait.signaled.injEq]
    split
    · rename_i htimed
      exact iff_of_true rfl htimed
    · rename_i htimed
      split <;> exact iff_of_false nofun htimed

/-- A crash is any other signal but `SIGTERM`, or the exit code of the memory sanitizer. -/
theorem run_target_fault_eq_crash (uses_asan child_timed_out : Bool) (status : Wait) :
    run_target_fault uses_asan child_timed_out status = .FAULT_CRASH ↔
      (∃ sig, status = .signaled sig ∧ sig ≠ SIGTERM ∧ ¬ (child_timed_out = true ∧ sig = SIGKILL)) ∨
        uses_asan = true ∧ status = .exited MSAN_ERROR := by
  cases status with
  | stopped => simp [run_target_fault]
  | exited code =>
    rw [run_target_fault]
    split
    · rename_i hasan
      exact iff_of_true rfl (Or.inr ⟨hasan.1, congrArg Wait.exited hasan.2⟩)
    · rename_i hasan
      refine iff_of_false nofun ?_
      rintro (⟨_, hsig, _⟩ | ⟨hset, hcode⟩)
      · cases hsig
      · exact hasan ⟨hset, Wait.exited.inj hcode⟩
  | signaled sig =>
    have hsame : ((∃ got, Wait.signaled sig = .signaled got ∧ got ≠ SIGTERM ∧ ¬ (child_timed_out = true ∧ got = SIGKILL)) ∨
        uses_asan = true ∧ Wait.signaled sig = .exited MSAN_ERROR) ↔ sig ≠ SIGTERM ∧ ¬ (child_timed_out = true ∧ sig = SIGKILL) := by
      simp
    rw [run_target_fault, hsame]
    split
    · rename_i htimed
      exact iff_of_false nofun fun hcrash => hcrash.2 htimed
    · rename_i htimed
      split
      · rename_i hterm
        exact iff_of_false nofun fun hcrash => hcrash.1 hterm
      · rename_i hterm
        exact iff_of_true rfl ⟨hterm, htimed⟩

/-- A run is reported as a timeout if and only if the timer went off while the child was known and the child died of
`SIGKILL`, as any child does that still runs then. Without the timer a `SIGKILL` is a crash like most other signals. -/
theorem faults_are_classified (setting : Setting) {asked : World} (hrun : InRun setting asked actions w)
    (hphase : w.fuzzer.phase = .child_forgotten status) (uses_asan : Bool) :
    (run_target_fault uses_asan w.fuzzer.child_timed_out status = .FAULT_TMOUT ↔
        TimesOut setting asked actions ∧ status = .signaled SIGKILL) ∧
      (run_target_fault uses_asan w.fuzzer.child_timed_out status = .FAULT_CRASH ↔
        (∃ sig, status = .signaled sig ∧ sig ≠ SIGTERM ∧ ¬ (TimesOut setting asked actions ∧ sig = SIGKILL)) ∨
          uses_asan = true ∧ status = .exited MSAN_ERROR) ∧
      (OutlivesTimer setting asked actions → run_target_fault uses_asan w.fuzzer.child_timed_out status = .FAULT_TMOUT) := by
  obtain ⟨⟨before, hreachable, hasked⟩, hsteps, hrequest⟩ := hrun
  have hconsistent : Consistent setting asked := hreachable.consistent.request hasked
  have htimed : w.fuzzer.child_timed_out = true ↔ TimesOut setting asked actions := by
    rw [child_timed_out_iff hsteps hrequest, request_child_timed_out hasked, or_iff_right Bool.false_ne_true]
  rw [run_target_fault_eq_timeout, run_target_fault_eq_crash, htimed]
  exact ⟨Iff.rfl, Iff.rfl, fun houtlives => hconsistent.killed_of_outlivesTimer hsteps hrequest houtlives hphase⟩

/-- A run that the timer ends. -/
def outlived_run : List Action :=
  [.read_request, .fork 7, .write_pid, .read_pid, .alarm, .wait, .write_status, .read_status, .forget_child]

/-- A run whose child gets a `SIGKILL` that is not from the timer. -/
def killed_run : List Action :=
  [.read_request, .fork 7, .child 7 (.signaled SIGKILL), .write_pid, .read_pid, .wait, .write_status, .read_status, .forget_child]

/-- Two children that die of `SIGKILL`: that of the timer is a timeout, and the other one a
crash. -/
theorem faults_of_killed_runs :
    (∃ w : World, w.fuzzer.phase = .child_forgotten (.signaled SIGKILL) ∧
      run_target_fault true w.fuzzer.child_timed_out (.signaled SIGKILL) = .FAULT_TMOUT) ∧
    ∃ w : World, w.fuzzer.phase = .child_forgotten (.signaled SIGKILL) ∧
      run_target_fault true w.fuzzer.child_timed_out (.signaled SIGKILL) = .FAULT_CRASH := by
  constructor
  · have hsteps : ∃ w : World, InRun { use_net := false, is_persistent := true } ((start.request).getD start) outlived_run w ∧
        w.fuzzer.phase = .child_forgotten (.signaled SIGKILL) :=
      ⟨_, ⟨⟨start, ⟨[], .nil _⟩, rfl⟩, .cons rfl (.cons rfl (.cons rfl (.cons rfl (.cons rfl (.cons rfl (.cons rfl (.cons rfl (.cons rfl
        (.nil _))))))))), by simp [outlived_run]⟩, rfl⟩
    obtain ⟨w, hrun, hphase⟩ := hsteps
    have houtlives : OutlivesTimer { use_net := false, is_persistent := true } ((start.request).getD start) outlived_run :=
      ⟨[.read_request, .fork 7, .write_pid, .read_pid], [.wait, .write_status, .read_status, .forget_child], _, rfl,
        .cons rfl (.cons rfl (.cons rfl (.cons rfl (.nil _)))), rfl⟩
    exact ⟨w, hphase, (faults_are_classified _ hrun hphase true).2.2 houtlives⟩
  · have hsteps : ∃ w : World, InRun { use_net := false, is_persistent := true } ((start.request).getD start) killed_run w ∧
        w.fuzzer.phase = .child_forgotten (.signaled SIGKILL) :=
      ⟨_, ⟨⟨start, ⟨[], .nil _⟩, rfl⟩, .cons rfl (.cons rfl (.cons rfl (.cons rfl (.cons rfl (.cons rfl (.cons rfl (.cons rfl (.cons rfl
        (.nil _))))))))), by simp [killed_run]⟩, rfl⟩
    obtain ⟨w, hrun, hphase⟩ := hsteps
    have hnever : ¬ TimesOut { use_net := false, is_persistent := true } ((start.request).getD start) killed_run := by
      rintro ⟨before, after, _, hactions, _⟩
      have hmem : Action.alarm ∈ killed_run := by
        rw [hactions]
        exact List.mem_append_right _ List.mem_cons_self
      simp [killed_run] at hmem
    exact ⟨w, hphase, (faults_are_classified _ hrun hphase true).2.1.mpr
      (Or.inl ⟨SIGKILL, rfl, by decide, fun htimed => hnever htimed.1⟩)⟩

end aflnet.World
