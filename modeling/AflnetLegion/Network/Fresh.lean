import AflnetLegion.Network.Send

open Checked

namespace aflnet

theorem Network.ext {a b : Network} (hbuf : a.response_buf = b.response_buf)
    (hsize : a.response_buf_size = b.response_buf_size) (hbytes : a.response_bytes = b.response_bytes)
    (hsent : a.messages_sent = b.messages_sent) : a = b := by
  cases a
  cases b
  simp_all

/-- What was left by the run before is gone, except for its number of messages. -/
theorem Network.clear_eq (net : Network) : net.clear = Network.init.set_sent net.messages_sent := by
  refine Network.ext rfl ?_ rfl rfl
  have hsized := net.sized
  cases h : net.response_buf with
  | none => simpa [clear, init, set_sent, h] using hsized.symm
  | some bytes => simp [clear, init, set_sent, h]

/-- Whether a result of `recv` ends the calls of it: an error does, and so does reading nothing.
-/
def recv_result.ends : recv_result → Bool
  | .received bytes => bytes = []
  | .failed _ => true

/-- Whether `net_recv` returns 1: `poll` failed, or the first call of `recv` without
bytes failed with an error other than `EAGAIN`. -/
def Arrival.fails (arrival : Arrival) : Bool :=
  if 0 < arrival.poll then arrival.pollin && arrival.recvs.find? recv_result.ends = some (.failed false)
  else arrival.poll < 0

/-- What receiving does to the globals: the buffer grows, and neither the number of messages nor
their entries change. -/
structure Network.Receives (before after : Network) : Prop where
  sent : after.messages_sent = before.messages_sent
  bytes : after.response_bytes = before.response_bytes
  grows : before.response_buf_size ≤ after.response_buf_size

theorem Network.Receives.refl (net : Network) : net.Receives net := ⟨rfl, rfl, Nat.le_refl _⟩

theorem Network.Receives.trans {a b c : Network} (hab : a.Receives b) (hbc : b.Receives c) : a.Receives c :=
  ⟨hbc.sent.trans hab.sent, hbc.bytes.trans hab.bytes, Nat.le_trans hab.grows hbc.grows⟩

theorem Network.append_receives {net after : Network} {bytes : List UInt8} (h : Returns (net.append bytes) after) :
    net.Receives after := by
  unfold append at h
  obtain ⟨_, _, h⟩ := returns_bind h
  have hafter := returns_pure h
  subst hafter
  exact ⟨rfl, rfl, Nat.le_add_right ..⟩

/-- The calls of `recv`: the buffer grows, and the failure that is returned is that of the call
that ended the loop. -/
theorem recv_loop_spec {recvs : List recv_result} {net : Network} {result : Network × Bool}
    (h : Returns (recv_loop recvs net) result) :
    net.Receives result.1 ∧ result.2 = decide (recvs.find? recv_result.ends = some (.failed false)) := by
  induction recvs generalizing net with
  | nil =>
    have hresult := returns_pure h
    subst hresult
    exact ⟨.refl net, by simp⟩
  | cons first recvs ih =>
    cases first with
    | failed again =>
      have hresult := returns_pure h
      subst hresult
      refine ⟨.refl net, ?_⟩
      cases again <;> simp [recv_result.ends]
    | received bytes =>
      unfold recv_loop at h
      by_cases hbytes : bytes = []
      · rw [if_pos hbytes] at h
        have hresult := returns_pure h
        subst hresult
        exact ⟨.refl net, by simp [recv_result.ends, hbytes]⟩
      · rw [if_neg hbytes] at h
        obtain ⟨next, hnext, hrest⟩ := returns_bind h
        obtain ⟨hreceives, hfails⟩ := ih hrest
        refine ⟨(Network.append_receives hnext).trans hreceives, ?_⟩
        simpa [recv_result.ends, hbytes] using hfails

/-- `net_recv` lets the buffer grow and returns whether it failed. -/
theorem net_recv_spec {arrival : Arrival} {net : Network} {result : Network × Bool}
    (h : Returns (net_recv arrival net) result) : net.Receives result.1 ∧ result.2 = arrival.fails := by
  unfold net_recv at h
  unfold Arrival.fails
  by_cases hpoll : 0 < arrival.poll
  · rw [if_pos hpoll] at h ⊢
    cases hpollin : arrival.pollin with
    | false =>
      rw [hpollin, if_neg Bool.false_ne_true] at h
      have hresult := returns_pure h
      subst hresult
      exact ⟨.refl net, rfl⟩
    | true =>
      rw [hpollin, if_pos rfl] at h
      simpa using recv_loop_spec h
  · rw [if_neg hpoll] at h ⊢
    have hresult := returns_pure h
    subst hresult
    exact ⟨.refl net, rfl⟩

theorem Network.append_set_sent (net : Network) (bytes : List UInt8) (n : Nat) :
    (net.set_sent n).append bytes = net.append bytes >>= fun next => pure (next.set_sent n) := by
  unfold append
  simp only [bind_assoc, pure_bind]
  rfl

theorem recv_loop_set_sent (recvs : List recv_result) (net : Network) (n : Nat) :
    recv_loop recvs (net.set_sent n) =
      recv_loop recvs net >>= fun result => pure (result.1.set_sent n, result.2) := by
  induction recvs generalizing net with
  | nil => rfl
  | cons first recvs ih =>
    cases first with
    | failed again => rfl
    | received bytes =>
      unfold recv_loop
      by_cases hbytes : bytes = []
      · rw [if_pos hbytes, if_pos hbytes]
        rfl
      · rw [if_neg hbytes, if_neg hbytes]
        simp only [Network.append_set_sent, bind_assoc, pure_bind]
        exact bind_congr_of_returns fun next _ => ih next

/-- Receiving does not look at the number of messages. -/
theorem net_recv_set_sent (arrival : Arrival) (net : Network) (n : Nat) :
    net_recv arrival (net.set_sent n) =
      net_recv arrival net >>= fun result => pure (result.1.set_sent n, result.2) := by
  unfold net_recv
  split
  · split
    · exact recv_loop_set_sent _ net n
    · rfl
  · rfl

/-- What a session recorded while it is going on: an entry for each message it tried to
send, the last of which may still be missing. -/
structure Session.Booked (s : Session) : Prop where
  sent : s.net.messages_sent = s.tried.length
  unsent : s.tried = [] → s.net.response_bytes = none
  entries : s.tried ≠ [] → ∃ (sizes : List Nat) (last : Option Nat),
    s.net.response_bytes = some (sizes.map some ++ [last]) ∧ sizes.length + 1 = s.tried.length ∧
      sizes.Pairwise (· ≤ ·) ∧ ∀ size ∈ sizes, size ≤ s.net.response_buf_size

/-- What a session should leave: as many entries as messages it tried to send, all of
them assigned, in order, the last one the size of the whole buffer. -/
structure Session.Recorded (s : Session) : Prop where
  sent : s.net.messages_sent = s.tried.length
  unsent : s.tried = [] → s.net.response_bytes = none
  entries : s.tried ≠ [] → ∃ sizes : List Nat, s.net.response_bytes = some (sizes.map some) ∧
    sizes.length = s.tried.length ∧ sizes.Pairwise (· ≤ ·) ∧ sizes.getLast? = some s.net.response_buf_size

namespace Session

/-- In order, so none is larger than the last. -/
theorem le_last {sizes : List Nat} {last size : Nat} (hsorted : sizes.Pairwise (· ≤ ·))
    (hlast : sizes.getLast? = some last) (hsize : size ∈ sizes) : size ≤ last := by
  obtain ⟨front, rfl⟩ := List.getLast?_eq_some_iff.mp hlast
  rcases List.mem_append.mp hsize with hfront | heq
  · exact (List.pairwise_append.mp hsorted).2.2 size hfront last (List.mem_singleton_self _)
  · exact Nat.le_of_eq (List.mem_singleton.mp heq)

/-- A session that has left what it should is one that is going on properly. -/
theorem Recorded.booked {s : Session} (h : s.Recorded) : s.Booked := by
  refine ⟨h.sent, h.unsent, fun hne => ?_⟩
  obtain ⟨sizes, hbytes, hlength, hsorted, hlast⟩ := h.entries hne
  obtain ⟨front, rfl⟩ := List.getLast?_eq_some_iff.mp hlast
  obtain ⟨hfront, -, hle⟩ := List.pairwise_append.mp hsorted
  refine ⟨front, some s.net.response_buf_size, by simpa using hbytes, by simpa using hlength, hfront, ?_⟩
  exact fun size hsize => hle size hsize _ (List.mem_singleton_self _)

theorem Booked.receives {s : Session} {net : Network} (h : s.Booked) (hnet : s.net.Receives net) :
    Booked { s with net } := by
  refine ⟨hnet.sent.trans h.sent, fun hnil => hnet.bytes.trans (h.unsent hnil), fun hne => ?_⟩
  obtain ⟨sizes, last, hbytes, hlength, hsorted, hle⟩ := h.entries hne
  exact ⟨sizes, last, hnet.bytes.trans hbytes, hlength, hsorted,
    fun size hsize => Nat.le_trans (hle size hsize) hnet.grows⟩

/-- The entry of the last message is assigned. -/
theorem Booked.record {s : Session} (h : s.Booked) (hne : s.tried ≠ []) :
    Recorded { s with net := s.net.record } := by
  refine ⟨h.sent, fun hnil => absurd hnil hne, fun _ => ?_⟩
  obtain ⟨sizes, last, hbytes, hlength, hsorted, hle⟩ := h.entries hne
  have hindex : s.net.messages_sent - 1 = (sizes.map some).length := by
    rw [List.length_map, h.sent, ← hlength, Nat.add_sub_cancel]
  refine ⟨sizes ++ [s.net.response_buf_size], ?_, by simpa using hlength, ?_, List.getLast?_concat⟩
  · simp [Network.record, hbytes, hindex]
  · refine List.pairwise_append.mpr ⟨hsorted, List.pairwise_singleton .., ?_⟩
    intro size hsize total htotal
    rw [List.mem_singleton.mp htotal]
    exact hle size hsize

/-- Another message is tried, and its entry is still missing. -/
theorem Recorded.count_message {s : Session} {net : Network} (m : message_t) (h : s.Recorded)
    (hnet : Returns s.net.count_message net) : Booked { net, tried := s.tried ++ [m] } := by
  unfold Network.count_message at hnet
  obtain ⟨_, _, hpure⟩ := returns_bind hnet
  have hnet := returns_pure hpure
  subst hnet
  refine ⟨by simp [h.sent], fun hnil => by simp at hnil, fun _ => ?_⟩
  by_cases hne : s.tried = []
  · exact ⟨[], none, by simp [h.sent, h.unsent hne, hne], by simp [hne], List.Pairwise.nil, by simp⟩
  · obtain ⟨sizes, hbytes, hlength, hsorted, hlast⟩ := h.entries hne
    have hsent : s.net.messages_sent = sizes.length := by rw [h.sent, hlength]
    refine ⟨sizes, none, ?_, by simp [hlength], hsorted, ?_⟩
    · simp [hbytes, hsent, List.take_of_length_le]
    · exact fun size hsize => le_last hsorted hlast hsize

end Session

/-- The loop over the messages. -/
theorem send_messages_booked {o : Outcomes} {i : Nat} {messages : List message_t} {s t : Session} (hs : s.Recorded)
    (h : Returns (send_messages o i messages s) t) : t.Booked := by
  induction messages generalizing i s with
  | nil =>
    rw [returns_pure h]
    exact hs.booked
  | cons m messages ih =>
    unfold send_messages at h
    obtain ⟨net, hnet, h⟩ := returns_bind h
    have hcount := hs.count_message m hnet
    by_cases hsend : o.send i = m.msize
    · rw [if_neg (not_not_intro hsend)] at h
      obtain ⟨received, hrecv, h⟩ := returns_bind h
      have hreceived := hcount.receives (net_recv_spec hrecv).1
      split at h
      · rw [returns_pure h]
        exact hreceived
      · exact ih (hreceived.record (by simp)) h
    · rw [if_pos hsend] at h
      rw [returns_pure h]
      exact hcount

/-- Behind the label the last entry is assigned, so that nothing is missing. -/
theorem handle_responses_recorded {o : Outcomes} {s t : Session} (hs : s.Booked)
    (h : Returns (handle_responses o s) t) : t.Recorded := by
  unfold handle_responses at h
  obtain ⟨received, hrecv, h⟩ := returns_bind h
  have hreceived := hs.receives (net_recv_spec hrecv).1
  by_cases hne : s.tried = []
  · have hsent : received.1.messages_sent = 0 := by simpa [hne] using hreceived.sent
    rw [if_neg (by simp [hsent])] at h
    rw [returns_pure h]
    exact ⟨hreceived.sent, hreceived.unsent, fun htried => absurd hne htried⟩
  · obtain ⟨sizes, last, hbytes, hlength, -⟩ := hreceived.entries hne
    have hsent : 0 < received.1.messages_sent := by
      rw [hreceived.sent, ← hlength]
      exact Nat.succ_pos _
    rw [if_pos ⟨hsent, by rw [hbytes]; rfl⟩] at h
    rw [returns_pure h]
    exact hreceived.record hne

/-- Nothing in the globals is left from the run before: they record this session, and
they are what the same session leaves when it is the first one. -/
structure Fresh (o : Outcomes) (kl_messages : List message_t) (result : Int × Session) : Prop where
  recorded : result.2.Recorded
  forgotten : Returns (send_over_network o kl_messages Network.init) result

/-- From the first `net_recv` on, when the server could be connected to. -/
theorem send_over_network_connected {o : Outcomes} (hconnected : o.connected = true) (kl_messages : List message_t)
    (net : Network) : send_over_network o kl_messages net =
      net_recv o.early Network.init >>= fun received =>
        (if received.2 then pure { net := received.1.set_sent net.messages_sent, tried := [] }
          else send_messages o 0 kl_messages { net := received.1.set_sent 0, tried := [] }) >>= fun s =>
            handle_responses o s >>= fun t => pure (0, t) := by
  unfold send_over_network
  rw [if_neg (not_not_intro hconnected), Network.clear_eq, net_recv_set_sent]
  simp only [bind_assoc, pure_bind]
  refine bind_congr_of_returns fun received _ => ?_
  cases received.2 with
  | false => rfl
  | true => rfl

/-- The number of messages of the run before does not show. -/
theorem send_over_network_forgets {o : Outcomes} {net : Network}
    (h : net.messages_sent = 0 ∨ o.connected = true ∧ o.early.fails = false) (kl_messages : List message_t) :
    send_over_network o kl_messages net = send_over_network o kl_messages Network.init := by
  rcases h with hzero | ⟨hconnected, hearly⟩
  · unfold send_over_network
    rw [net.clear_eq, hzero]
    rfl
  · rw [send_over_network_connected hconnected, send_over_network_connected hconnected]
    refine bind_congr_of_returns fun received hreceived => ?_
    rw [(net_recv_spec hreceived).2, hearly]
    rfl

/-- What the first session leaves. -/
theorem send_over_network_init {o : Outcomes} {kl_messages : List message_t} {result : Int × Session}
    (h : Returns (send_over_network o kl_messages Network.init) result) : result.2.Recorded := by
  have hstart : Session.Recorded { net := Network.init, tried := [] } :=
    ⟨rfl, fun _ => rfl, fun hne => absurd rfl hne⟩
  by_cases hconnected : o.connected = true
  · rw [send_over_network_connected hconnected] at h
    obtain ⟨received, hreceived, h⟩ := returns_bind h
    obtain ⟨s, hs, h⟩ := returns_bind h
    obtain ⟨t, ht, h⟩ := returns_bind h
    rw [returns_pure h]
    have hreceives := (net_recv_spec hreceived).1
    have hempty : Session.Recorded { net := received.1.set_sent 0, tried := [] } :=
      ⟨rfl, fun _ => hreceives.bytes, fun hne => absurd rfl hne⟩
    refine handle_responses_recorded ?_ ht
    split at hs
    · rw [returns_pure hs]
      exact hempty.booked
    · exact send_messages_booked hempty hs
  · unfold send_over_network at h
    rw [if_pos hconnected] at h
    rw [returns_pure h]
    exact hstart

/-- A session that sends nothing keeps the number of messages of the run before. -/
theorem send_over_network_stale {o : Outcomes} {kl_messages : List message_t} {net : Network} {result : Int × Session}
    (hstale : o.connected = false ∨ o.early.fails = true) (h : Returns (send_over_network o kl_messages net) result) :
    result.2.net.messages_sent = net.messages_sent ∧ result.2.tried = [] := by
  by_cases hconnected : o.connected = true
  · have hearly : o.early.fails = true := hstale.resolve_left (by simp [hconnected])
    rw [send_over_network_connected hconnected] at h
    obtain ⟨received, hreceived, h⟩ := returns_bind h
    rw [(net_recv_spec hreceived).2, hearly, if_pos rfl, pure_bind] at h
    obtain ⟨t, ht, h⟩ := returns_bind h
    rw [returns_pure h]
    unfold handle_responses at ht
    obtain ⟨last, hlast, ht⟩ := returns_bind ht
    have hsent := (net_recv_spec hlast).1.sent
    split at ht
    · rw [returns_pure ht]
      exact ⟨hsent, rfl⟩
    · rw [returns_pure ht]
      exact ⟨hsent, rfl⟩
  · unfold send_over_network at h
    rw [if_pos hconnected] at h
    rw [returns_pure h]
    exact ⟨rfl, rfl⟩

/-- What `send_over_network` leaves in the globals is about the new run, unless an earlier run
sent messages and this one ends before it resets their number: without a connection, or when the
first receive fails. -/
theorem send_over_network_fresh_iff {o : Outcomes} {kl_messages : List message_t} {net : Network}
    {result : Int × Session} (h : Returns (send_over_network o kl_messages net) result) :
    Fresh o kl_messages result ↔ net.messages_sent = 0 ∨ o.connected = true ∧ o.early.fails = false := by
  constructor
  · intro hfresh
    by_contra hstale
    rw [not_or, not_and_or, Bool.not_eq_true, Bool.not_eq_false] at hstale
    obtain ⟨hsent, htried⟩ := send_over_network_stale hstale.2 h
    apply hstale.1
    rw [← hsent, hfresh.recorded.sent, htried]
    rfl
  · intro hcond
    rw [send_over_network_forgets hcond] at h
    exact ⟨send_over_network_init h, h⟩

/-- Each message is sent completely and answered with one byte. -/
def replied : Outcomes where
  connect := fun _ => 0
  early := ⟨0, false, []⟩
  send := fun _ => 1
  arrival := fun _ => ⟨1, true, [.received [50]]⟩
  last := ⟨0, false, []⟩

/-- `poll` fails in the first `net_recv`. -/
def refused : Outcomes := { replied with early := ⟨-1, false, []⟩ }

/-- A message of one byte. -/
def one_byte : message_t := { mdata := [65], msize := 1, sized := rfl }

/-- The globals after one message was sent and answered. -/
def after_answer : Network :=
  { response_buf := some [50], response_buf_size := 1, response_bytes := some [some 1], messages_sent := 1, sized := rfl }

theorem replied_returns : Returns (send_over_network replied [one_byte] after_answer)
    (0, { net := after_answer, tried := [one_byte] }) := returns_of_eq_pure rfl

theorem send_over_network_fresh_after_answer :
    Fresh replied [one_byte] (0, { net := after_answer, tried := [one_byte] }) :=
  (send_over_network_fresh_iff replied_returns).mpr (Or.inr ⟨rfl, rfl⟩)

/-- One message was sent and answered; in the next run the first `net_recv` fails. -/
theorem messages_sent_survives :
    Returns (send_over_network replied [one_byte] Network.init) (0, { net := after_answer, tried := [one_byte] }) ∧
      ∃ result, Returns (send_over_network refused [one_byte] after_answer) result ∧ result.2.tried = [] ∧
        result.2.net.response_bytes = none ∧ result.2.net.messages_sent = 1 ∧ ¬ Fresh refused [one_byte] result := by
  refine ⟨returns_of_eq_pure rfl, (0, { net := after_answer.clear, tried := [] }), returns_of_eq_pure rfl, rfl, rfl,
    rfl, ?_⟩
  intro hfresh
  have hsent := hfresh.recorded.sent
  cases hsent

end aflnet
