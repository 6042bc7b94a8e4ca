import AflnetLegion.Exec.Consistent
import Mathlib.Data.List.Perm.Subperm

/-! How many steps there are between two requests. -/

namespace aflnet

/-- Who takes a step after the request. A poll of `send_over_network` is left out, since it changes nothing and can be
repeated at will. -/
inductive Party where
  | run_target
  | timer
  | fork_server
  | child
  deriving DecidableEq

/-- Whose step it is. The request begins the period, and a poll may be made any number of times.
-/
def Action.party : Action → Option Party
  | .request => none
  | .read_pid => some .run_target
  | .send _ => some .run_target
  | .poll => none
  | .notice_exit => some .run_target
  | .read_status => some .run_target
  | .forget_child => some .run_target
  | .finish => some .run_target
  | .alarm => some .timer
  | .read_request => some .fork_server
  | .reap => some .fork_server
  | .fork _ => some .fork_server
  | .write_pid => some .fork_server
  | .wait => some .fork_server
  | .write_status => some .fork_server
  | .child .. => some .child

/-- A step that takes one of the two programs or the timer further. A poll does not, and what
the child does is not up to them. -/
def Action.isOwn : Action → Bool
  | .request => false
  | .poll => false
  | .child .. => false
  | _ => true

/-- The step without the values that come with it, so that two of the same kind are equal. -/
def Action.kind : Action → Action
  | .send _ => .send false
  | .fork _ => .fork 0
  | .child .. => .child 0 .stopped
  | action => action

/-- How many steps its party has left when this one is taken, itself included. The numbers
follow the order in which a party takes its steps, so that two kinds of steps of one party have
different ones. -/
def Action.due : Action → Nat
  | .request => 0
  | .read_pid => 6
  | .send _ => 5
  | .poll => 0
  | .notice_exit => 4
  | .read_status => 3
  | .forget_child => 2
  | .finish => 1
  | .alarm => 1
  | .read_request => 6
  | .reap => 5
  | .fork _ => 4
  | .write_pid => 3
  | .wait => 2
  | .write_status => 1
  | .child .. => 1

/-- The party of a step does not depend on the values that come with it. -/
@[simp] theorem Action.party_kind (action : Action) : action.kind.party = action.party := by
  cases action <;> rfl

@[simp] theorem Action.due_kind (action : Action) : action.kind.due = action.due := by
  cases action <;> rfl

/-- How many steps `run_target` has before it returns, from where it is. The most are made over
the network. -/
def Asking.remaining : Asking → Nat
  | .idle => 0
  | .requested => 6
  | .sending => 5
  | .awaiting_exit => 4
  | .awaiting_status => 3
  | .status_read _ => 2
  | .child_forgotten _ => 1

/-- How many steps the fork server has before it waits for a request. It takes the most of them
if it has to wait for a killed child first. -/
def Serving.remaining : Serving → Nat
  | .awaiting_request => 0
  | .reaping => 5
  | .forking => 4
  | .child_started => 3
  | .pid_written => 2
  | .child_waited _ => 1

namespace World

/-- There is a child that runs, or there will be one before the next request. -/
def MayRun (w : World) : Prop :=
  w.ctl ≠ [] ∨ w.server.phase = .reaping ∨ w.server.phase = .forking ∨ w.process w.server.child_pid = .running

instance (w : World) : Decidable w.MayRun := inferInstanceAs (Decidable (_ ∨ _))

/-- How many steps are left at most until the next request. The timer is set when `run_target` has read the process id. -/
def remaining (w : World) : Party → Nat
  | .run_target => w.fuzzer.phase.remaining
  | .timer => if w.fuzzer.phase = .requested then 1 else w.fuzzer.timer.toNat
  | .fork_server => w.server.phase.remaining + 6 * w.ctl.length
  | .child => if w.MayRun then 1 else 0

/-- What a step does to the steps that are left: its party has one less, and nobody gets one back. -/
structure Takes (w : World) (action : Action) (w' : World) : Prop where
  le : ∀ party, w'.remaining party ≤ w.remaining party
  own : ∀ party, action.party = some party → w.remaining party = action.due ∧ w'.remaining party < action.due

variable {setting : Setting} {w w' : World} {action : Action} {actions : List Action}

theorem remaining_child_le (hmay : w'.MayRun → w.MayRun) : w'.remaining .child ≤ w.remaining .child := by
  rw [remaining, remaining]
  split
  · rename_i hrunning
    exact Nat.le_of_eq (if_pos (hmay hrunning)).symm
  · exact Nat.zero_le _

/-- A step of `run_target`, with everything else as it was. -/
theorem Takes.of_run_target (hparty : action.party = some .run_target) (hserver : w'.server = w.server) (hctl : w'.ctl = w.ctl)
    (hprocess : w'.process = w.process) (hdue : w.fuzzer.phase.remaining = action.due)
    (hless : w'.fuzzer.phase.remaining < action.due) (htimer : w'.remaining .timer ≤ w.remaining .timer) : Takes w action w' := by
  refine ⟨fun party => ?_, fun party hown => ?_⟩
  · cases party with
    | run_target =>
      change w'.fuzzer.phase.remaining ≤ w.fuzzer.phase.remaining
      omega
    | timer => exact htimer
    | fork_server => exact Nat.le_of_eq (by rw [remaining, remaining, hserver, hctl])
    | child =>
      refine remaining_child_le fun hmay => ?_
      rwa [MayRun, hserver, hctl, hprocess] at hmay
  · rw [hparty] at hown
    cases hown
    exact ⟨hdue, hless⟩

/-- A step of the fork server, with `run_target` as it was. -/
theorem Takes.of_fork_server (hparty : action.party = some .fork_server) (hfuzzer : w'.fuzzer = w.fuzzer)
    (hdue : w.remaining .fork_server = action.due) (hless : w'.remaining .fork_server < action.due)
    (hchild : w'.MayRun → w.MayRun) : Takes w action w' := by
  refine ⟨fun party => ?_, fun party hown => ?_⟩
  · cases party with
    | run_target | timer => exact Nat.le_of_eq (by rw [remaining, remaining, hfuzzer])
    | fork_server => omega
    | child => exact remaining_child_le hchild
  · rw [hparty] at hown
    cases hown
    exact ⟨hdue, hless⟩

theorem takes_read_pid (hstep : w.read_pid setting = some w') : Takes w .read_pid w' := by
  obtain ⟨hphase, _, _, _, rfl⟩ := read_pid_cases hstep
  refine .of_run_target rfl rfl rfl rfl (by rw [hphase]; rfl) ?_ ?_
  · cases setting.use_net
    · exact (by decide : 3 < 6)
    · exact (by decide : 5 < 6)
  · rw [remaining, remaining, if_pos hphase]
    cases setting.use_net <;> exact Nat.le_refl 1

/-- Sending is one step less in both cases, as an early return leaves out the wait for the exit.
-/
theorem takes_send {early : Bool} (hstep : w.send early = some w') : Takes w (.send early) w' := by
  obtain ⟨hphase, rfl⟩ := send_cases hstep
  refine .of_run_target rfl rfl rfl rfl (by rw [hphase]; rfl) ?_ ?_
  · cases early
    · exact (by decide : 4 < 5)
    · exact (by decide : 3 < 5)
  · rw [remaining, remaining, hphase]
    cases early <;> exact Nat.le_refl _

theorem takes_notice_exit (hstep : w.notice_exit = some w') : Takes w .notice_exit w' := by
  obtain ⟨hphase, _, rfl⟩ := notice_exit_cases hstep
  refine .of_run_target rfl rfl rfl rfl (by rw [hphase]; rfl) (by decide : 3 < 4) ?_
  rw [remaining, remaining, hphase]
  exact Nat.le_refl _

theorem takes_read_status (hstep : w.read_status = some w') : Takes w .read_status w' := by
  obtain ⟨hphase, _, _, _, rfl⟩ := read_status_cases hstep
  refine .of_run_target rfl rfl rfl rfl (by rw [hphase]; rfl) (by decide : 2 < 3) ?_
  rw [remaining, remaining, hphase]
  exact Nat.le_refl _

theorem takes_forget_child (hstep : w.forget_child = some w') : Takes w .forget_child w' := by
  obtain ⟨_, hphase, rfl⟩ := forget_child_cases hstep
  refine .of_run_target rfl rfl rfl rfl (by rw [hphase]; rfl) (by decide : 1 < 2) ?_
  rw [remaining, remaining, hphase]
  exact Nat.le_refl _

/-- Nothing is left of the steps of `run_target` when it returns. -/
theorem takes_finish (hstep : w.finish = some w') : Takes w .finish w' := by
  obtain ⟨_, hphase, rfl⟩ := finish_cases hstep
  exact .of_run_target rfl rfl rfl rfl (by rw [hphase]; rfl) (by decide : 0 < 1) (Nat.zero_le _)

/-- The timer is off until `run_target` has read the process id. -/
theorem Consistent.timer_of_requested (h : Consistent setting w) (hphase : w.fuzzer.phase = .requested) : w.fuzzer.timer = false := by
  have hfront : ∀ before, w.Front before → w.fuzzer.timer = false := by
    intro before hfront
    cases hfront with
    | requested _ _ htimer => exact htimer
    | running hf => rcases hf with hf | hf | hf <;> cases hphase.symm.trans hf
  cases h.row with
  | idle _ htimer | asked _ htimer | reaping _ htimer | forking _ htimer | started _ htimer => exact htimer
  | running hf | waited _ hf | told _ _ hf => exact hfront _ hf
  | status_read _ hfuzzer | child_forgotten _ hfuzzer => cases hphase.symm.trans hfuzzer

/-- The timer goes off once, and a child that it kills does not run any more. -/
theorem Consistent.takes_alarm (h : Consistent setting w) (hstep : w.alarm = some w') : Takes w .alarm w' := by
  obtain ⟨htimer, hcases⟩ := alarm_cases hstep
  have hphase : w.fuzzer.phase ≠ .requested := fun hphase => by cases (h.timer_of_requested hphase).symm.trans htimer
  have hafter : w'.fuzzer.phase = w.fuzzer.phase ∧ w'.fuzzer.timer = false ∧ w'.server = w.server ∧ w'.ctl = w.ctl ∧
      (w'.MayRun → w.MayRun) := by
    obtain ⟨_, rfl⟩ | ⟨_, rfl⟩ := hcases
    · refine ⟨rfl, rfl, rfl, rfl, fun hmay => ?_⟩
      rcases hmay with hctl | hreaping | hforking | hrunning
      · exact Or.inl hctl
      · exact Or.inr (Or.inl hreaping)
      · exact Or.inr (Or.inr (Or.inl hforking))
      · refine Or.inr (Or.inr (Or.inr ?_))
        by_cases hpid : w.server.child_pid = w.fuzzer.child_pid.toNat
        · simp only [hpid, Function.update_self] at hrunning
          cases hprocess : w.process w.fuzzer.child_pid.toNat <;> rw [hprocess] at hrunning <;> cases hrunning
        · simpa only [Function.update_of_ne hpid] using hrunning
    · exact ⟨rfl, rfl, rfl, rfl, id⟩
  obtain ⟨hsame, hoff, hserver, hctl, hmay⟩ := hafter
  have hbefore : w.remaining .timer = 1 := by
    rw [remaining, if_neg hphase, htimer]
    rfl
  have hnow : w'.remaining .timer = 0 := by
    rw [remaining, hsame, if_neg hphase, hoff]
    rfl
  refine ⟨fun party => ?_, fun party hown => ?_⟩
  · cases party with
    | run_target => exact Nat.le_of_eq (by rw [remaining, remaining, hsame])
    | timer => omega
    | fork_server => exact Nat.le_of_eq (by rw [remaining, remaining, hserver, hctl])
    | child => exact remaining_child_le hmay
  · cases hown
    exact ⟨hbefore, by rw [hnow]; exact Nat.one_pos⟩

/-- A busy fork server has read its request. -/
theorem Consistent.ctl_of_busy (h : Consistent setting w) (hbusy : w.server.phase ≠ .awaiting_request) : w.ctl = [] := by
  cases h.row with
  | asked _ _ _ _ _ hserver => exact absurd hserver hbusy
  | idle _ _ hctl | reaping _ _ _ hctl | forking _ _ _ hctl | started _ _ _ hctl => exact hctl
  | running _ hctl | waited _ _ hctl | told _ _ _ hctl => exact hctl
  | status_read _ _ _ _ hctl | child_forgotten _ _ _ _ hctl => exact hctl

/-- A step of a busy fork server, which goes on to its next step. -/
theorem Consistent.takes_busy (h : Consistent setting w) (hparty : action.party = some .fork_server) (hfuzzer : w'.fuzzer = w.fuzzer)
    (hctl : w'.ctl = w.ctl) (hbusy : w.server.phase ≠ .awaiting_request) (hdue : w.server.phase.remaining = action.due)
    (hless : w'.server.phase.remaining < action.due) (hchild : w'.MayRun → w.MayRun) : Takes w action w' := by
  have hread := h.ctl_of_busy hbusy
  refine .of_fork_server hparty hfuzzer ?_ ?_ hchild
  · rw [remaining, hread]
    exact hdue
  · rw [remaining, hctl, hread]
    exact hless

theorem Consistent.takes_read_request (h : Consistent setting w) (hstep : w.read_request = some w') : Takes w .read_request w' := by
  obtain ⟨hphase, was_killed, ctl, hpipe, hcases⟩ := read_request_cases hstep
  have hone : ctl = [] := by
    cases h.row with
    | asked _ _ _ hctl =>
      rw [hpipe] at hctl
      cases hctl
      rfl
    | idle _ _ hctl | reaping _ _ _ hctl | forking _ _ _ hctl | started _ _ _ hctl => cases hpipe.symm.trans hctl
    | running _ hctl | waited _ _ hctl | told _ _ _ hctl => cases hpipe.symm.trans hctl
    | status_read _ _ _ _ hctl | child_forgotten _ _ _ _ hctl => cases hpipe.symm.trans hctl
  have hbefore : w.remaining .fork_server = Action.read_request.due := by
    rw [remaining, hphase, hpipe, hone]
    rfl
  have hmay : w.MayRun := Or.inl (by rw [hpipe]; exact List.cons_ne_nil _ _)
  subst hone
  obtain ⟨_, _, rfl⟩ | ⟨_, rfl⟩ | ⟨_, _, rfl⟩ := hcases
  · exact .of_fork_server rfl rfl hbefore (by decide : 5 < 6) fun _ => hmay
  · exact .of_fork_server rfl rfl hbefore (by decide : 4 < 6) fun _ => hmay
  · exact .of_fork_server rfl rfl hbefore (by decide : 3 < 6) fun _ => hmay

/-- The child that was killed is waited for, and a new one will be forked. -/
theorem Consistent.takes_reap (h : Consistent setting w) (hstep : w.reap = some w') : Takes w .reap w' := by
  obtain ⟨hphase, _, _, rfl⟩ := reap_cases hstep
  exact h.takes_busy rfl rfl rfl (fun heq => by cases hphase.symm.trans heq) (by rw [hphase]; rfl) (by decide : 4 < 5)
    fun _ => Or.inr (Or.inl hphase)

/-- A fork makes a child that may run. It could be foreseen that there would be one. -/
theorem Consistent.takes_fork {pid : Nat} (h : Consistent setting w) (hstep : w.fork pid = some w') : Takes w (.fork pid) w' := by
  obtain ⟨hphase, _, _, rfl⟩ := fork_cases hstep
  exact h.takes_busy rfl rfl rfl (fun heq => by cases hphase.symm.trans heq) (by rw [hphase]; rfl) (by decide : 3 < 4)
    fun _ => Or.inr (Or.inr (Or.inl hphase))

theorem Consistent.takes_write_pid (h : Consistent setting w) (hstep : w.write_pid = some w') : Takes w .write_pid w' := by
  obtain ⟨hphase, rfl⟩ := write_pid_cases hstep
  refine h.takes_busy rfl rfl rfl (fun heq => by cases hphase.symm.trans heq) (by rw [hphase]; rfl) (by decide : 2 < 3) fun hmay => ?_
  rcases hmay with hctl | hreaping | hforking | hrunning
  · exact Or.inl hctl
  · cases hreaping
  · cases hforking
  · exact Or.inr (Or.inr (Or.inr hrunning))

/-- The fork server waits for a child that has stopped or is dead. -/
theorem Consistent.takes_wait (h : Consistent setting w) (hstep : w.wait setting = some w') : Takes w .wait w' := by
  obtain ⟨hphase, hcases⟩ := wait_cases hstep
  have hbusy : w.server.phase ≠ .awaiting_request := fun heq => by cases hphase.symm.trans heq
  have hdue : w.server.phase.remaining = Action.wait.due := by rw [hphase]; rfl
  -- The child is dead or has stopped, so that nothing runs before the next request.
  have hover : ∀ w' : World, w'.ctl = w.ctl → (∃ status, w'.server.phase = .child_waited status) →
      w'.process w'.server.child_pid ≠ .running → w'.MayRun → w.MayRun := by
    rintro w' hctl ⟨status, hwaited⟩ hnot (hmay | hmay | hmay | hmay)
    · exact absurd (hctl.trans (h.ctl_of_busy hbusy)) hmay
    · cases hwaited.symm.trans hmay
    · cases hwaited.symm.trans hmay
    · exact absurd hmay hnot
  obtain ⟨status, _, rfl⟩ | ⟨_, hstopped, rfl⟩ := hcases
  · refine h.takes_busy rfl rfl rfl hbusy hdue (by decide : 1 < 2) (hover _ rfl ⟨status, rfl⟩ ?_)
    simp only [Function.update_self]
    intro hrunning
    cases hrunning
  · refine h.takes_busy rfl rfl rfl hbusy hdue (by decide : 1 < 2) (hover _ rfl ⟨.stopped, rfl⟩ ?_)
    intro hrunning
    cases hstopped.symm.trans hrunning

theorem Consistent.takes_write_status (h : Consistent setting w) (hstep : w.write_status = some w') : Takes w .write_status w' := by
  obtain ⟨status, hphase, rfl⟩ := write_status_cases hstep
  refine h.takes_busy rfl rfl rfl (fun heq => by cases hphase.symm.trans heq) (by rw [hphase]; rfl) (by decide : 0 < 1) fun hmay => ?_
  rcases hmay with hctl | hreaping | hforking | hrunning
  · exact Or.inl hctl
  · cases hreaping
  · cases hforking
  · exact Or.inr (Or.inr (Or.inr hrunning))

/-- A child that exits, dies or stops does not run any more, and there is no other. -/
theorem Consistent.takes_child {pid : Nat} {status : Wait} (h : Consistent setting w) (hstep : w.child pid status = some w') :
    Takes w (.child pid status) w' := by
  obtain ⟨hrunning, rfl⟩ := child_cases hstep
  obtain ⟨rfl, hphase⟩ := h.running_cases hrunning
  have hctl : w.ctl = [] := h.ctl_of_busy (fun heq => by rcases hphase with hphase | hphase <;> cases hphase.symm.trans heq)
  have hbefore : w.remaining .child = 1 := if_pos (Or.inr (Or.inr (Or.inr hrunning)))
  have hafter : (w.set_process w.server.child_pid (if status = .stopped then .stopped else .dead status)).remaining .child = 0 := by
    refine if_neg ?_
    rintro (hmay | hmay | hmay | hmay)
    · exact hmay hctl
    · rcases hphase with hphase | hphase <;> cases hphase.symm.trans hmay
    · rcases hphase with hphase | hphase <;> cases hphase.symm.trans hmay
    · simp only [set_process, Function.update_self] at hmay
      split at hmay <;> cases hmay
  refine ⟨fun party => ?_, fun party hown => ?_⟩
  · cases party with
    | run_target | timer | fork_server => exact Nat.le_refl _
    | child =>
      rw [hafter]
      exact Nat.zero_le _
  · cases hown
    rw [hafter]
    exact ⟨hbefore, Nat.one_pos⟩

/-- Every step but the request and the polls is one step less to do. -/
theorem Consistent.takes (h : Consistent setting w) (hstep : w.step setting action = some w') (hrequest : action ≠ .request) :
    Takes w action w' := by
  cases action with
  | request => exact absurd rfl hrequest
  | read_pid => exact takes_read_pid hstep
  | send early => exact takes_send hstep
  | poll =>
    obtain ⟨_, _, rfl⟩ := poll_cases hstep
    exact ⟨fun _ => Nat.le_refl _, fun party hparty => by cases hparty⟩
  | notice_exit => exact takes_notice_exit hstep
  | read_status => exact takes_read_status hstep
  | forget_child => exact takes_forget_child hstep
  | finish => exact takes_finish hstep
  | alarm => exact h.takes_alarm hstep
  | read_request => exact h.takes_read_request hstep
  | reap => exact h.takes_reap hstep
  | fork pid => exact h.takes_fork hstep
  | write_pid => exact h.takes_write_pid hstep
  | wait => exact h.takes_wait hstep
  | write_status => exact h.takes_write_status hstep
  | child pid status => exact h.takes_child hstep

/-- A step that is taken later was still left before. -/
theorem Consistent.due_le (h : Consistent setting w) (hsteps : Steps setting w actions w') (hrequest : .request ∉ actions)
    (hmem : action ∈ actions) {party : Party} (hparty : action.party = some party) : action.due ≤ w.remaining party := by
  induction hsteps with
  | nil => cases hmem
  | @cons w w₁ _ first rest hstep _ ih =>
    obtain ⟨hne, hrest⟩ := not_or.mp (List.mem_cons.not.mp hrequest)
    have htakes := h.takes hstep (Ne.symm hne)
    rcases List.mem_cons.mp hmem with rfl | hlater
    · exact Nat.le_of_eq (htakes.own party hparty).1.symm
    · exact Nat.le_trans (ih (h.step hstep) hrest hlater) (htakes.le party)

/-- No kind of step is taken twice. -/
theorem Consistent.kinds_nodup (h : Consistent setting w) (hsteps : Steps setting w actions w') (hrequest : .request ∉ actions) :
    ((actions.filter fun action => action.party.isSome).map Action.kind).Nodup := by
  induction hsteps with
  | nil => exact List.nodup_nil
  | @cons w w₁ _ first rest hstep hlater ih =>
    obtain ⟨hne, hrest⟩ := not_or.mp (List.mem_cons.not.mp hrequest)
    have htakes := h.takes hstep (Ne.symm hne)
    have hnodup := ih (h.step hstep) hrest
    cases hparty : first.party with
    | none => rwa [List.filter_cons_of_neg (by rw [hparty]; exact Bool.false_ne_true)]
    | some party =>
      rw [List.filter_cons_of_pos (by rw [hparty]; rfl), List.map_cons, List.nodup_cons]
      refine ⟨fun hagain => ?_, hnodup⟩
      obtain ⟨again, hmem, hkind⟩ := List.mem_map.mp hagain
      have hsame : again.party = some party := by rw [← Action.party_kind, hkind, Action.party_kind, hparty]
      have hdue : again.due = first.due := by rw [← Action.due_kind, hkind, Action.due_kind]
      -- The party would have to have as many steps left as before the first one.
      have hleft := (h.step hstep).due_le hlater hrest (List.mem_of_mem_filter hmem) hsame
      have hless := (htakes.own party hparty).2
      omega

/-- The kinds of steps that the two programs, the timer and the child take after the request. -/
def kinds : List Action :=
  [.read_pid, .send false, .notice_exit, .read_status, .forget_child, .finish, .alarm, .read_request, .reap, .fork 0, .write_pid, .wait,
    .write_status, .child 0 .stopped]

theorem kind_mem (hparty : action.party.isSome = true) : action.kind ∈ kinds := by
  cases action with
  | request | poll => cases hparty
  | read_pid | send | notice_exit | read_status | forget_child | finish | alarm | read_request | reap | fork | write_pid | wait
  | write_status | child => simp [kinds, Action.kind]

/-- Between two requests each call of the two programs, the timer and what the child does happen at most once, in whatever
order. Everything else is polls of `send_over_network`, of which there can be any number. -/
theorem run_target_is_bounded (setting : Setting) (h : w.Reachable setting) (hsteps : Steps setting w actions w')
    (hrequest : .request ∉ actions) :
    ((actions.filter fun action => action.party.isSome).map Action.kind).Nodup ∧
      actions.countP (fun action => action.party.isSome) ≤ 14 := by
  have hnodup := h.consistent.kinds_nodup hsteps hrequest
  have hsubset : ((actions.filter fun action => action.party.isSome).map Action.kind) ⊆ kinds := by
    intro kind hmem
    obtain ⟨action, hfound, rfl⟩ := List.mem_map.mp hmem
    exact kind_mem (List.mem_filter.mp hfound).2
  have hlength := (List.subperm_of_subset hnodup hsubset).length_le
  rw [List.length_map, ← List.countP_eq_length_filter] at hlength
  exact ⟨hnodup, hlength⟩

/-- A run over the network, in which the child exits between two polls. The third poll still
finds it, as the fork server has not waited for it. -/
def polled_run : List Action :=
  [.read_request, .fork 7, .write_pid, .read_pid, .send false, .poll, .poll, .child 7 (.exited 0), .poll, .wait, .notice_exit,
    .write_status, .read_status, .forget_child, .finish]

theorem polled_run_is_bounded :
    ((polled_run.filter fun action => action.party.isSome).map Action.kind).Nodup ∧
      polled_run.countP (fun action => action.party.isSome) ≤ 14 := by
  obtain ⟨before, after, hfirst, hrun⟩ : ∃ before after : World, Steps { use_net := true, is_persistent := false } start [.request] before ∧
      Steps { use_net := true, is_persistent := false } before polled_run after :=
    ⟨_, _, .cons rfl (.nil _), .cons rfl (.cons rfl (.cons rfl (.cons rfl (.cons rfl (.cons rfl (.cons rfl (.cons rfl (.cons rfl (.cons rfl
      (.cons rfl (.cons rfl (.cons rfl (.cons rfl (.cons rfl (.nil _)))))))))))))))⟩
  exact run_target_is_bounded _ ⟨_, hfirst⟩ hrun (by simp [polled_run])

end World

end aflnet
