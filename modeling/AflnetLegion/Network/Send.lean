import AflnetLegion.Messages.Save

open Checked

namespace aflnet

/-- What a call of `recv` returns: the bytes it read, or -1, where `again` says
whether `errno` is `EAGAIN`. Without bytes it returned 0. -/
inductive recv_result where
  | received (bytes : List UInt8)
  | failed (again : Bool)
  deriving DecidableEq, Repr

/-- What one call of `net_recv` meets: the result of `poll`, whether it reported
`POLLIN`, and the results of the calls of `recv`. After these the server has
closed the connection. -/
structure Arrival where
  poll : Int
  pollin : Bool
  recvs : List recv_result
  deriving DecidableEq, Repr

/-- What one call of `send_over_network` meets: the results of `connect`, the first
`net_recv`, for each message the result of `net_send` and the `net_recv` after it,
and the last `net_recv`. -/
structure Outcomes where
  connect : Nat → Int
  early : Arrival
  send : Nat → Int
  arrival : Nat → Arrival
  last : Arrival

/-- The globals about the last run of the server. A missing entry of `response_bytes`
is one that `ck_realloc` made and nothing was assigned to. -/
structure Network where
  response_buf : Option (List UInt8)
  response_buf_size : Nat
  response_bytes : Option (List (Option Nat))
  messages_sent : Nat
  sized : (response_buf.getD []).length = response_buf_size
  deriving DecidableEq, Repr

namespace Network

/-- The globals before the first run. -/
def init : Network :=
  { response_buf := none, response_buf_size := 0, response_bytes := none, messages_sent := 0, sized := rfl }

/-- Both buffers are freed, if they are allocated. The number of messages sent is not reset
here. -/
def clear (net : Network) : Network where
  response_buf := none
  response_buf_size := if net.response_buf.isSome then 0 else net.response_buf_size
  response_bytes := none
  messages_sent := net.messages_sent
  sized := by
    have hsized := net.sized
    cases h : net.response_buf with
    | none => simpa [h] using hsized
    | some bytes => rfl

/-- `messages_sent = n`. -/
def set_sent (net : Network) (messages_sent : Nat) : Network := { net with messages_sent }

/-- `ck_realloc` and `memcpy` of what `recv` read. The buffer and its size are globals, and the
response buffer can be NULL before. -/
def append (net : Network) (bytes : List UInt8) : F Network := do
  ck_realloc (net.response_buf_size + bytes.length)
  pure { net with
    response_buf := some (net.response_buf.getD [] ++ bytes)
    response_buf_size := net.response_buf_size + bytes.length
    sized := by rw [Option.getD_some, List.length_append, net.sized] }

/-- Another message was sent, and `response_bytes` is extended to as many entries. -/
def count_message (net : Network) : F Network := do
  let messages_sent := net.messages_sent + 1
  ck_realloc (messages_sent * 4)
  let entries := (net.response_bytes.getD []).take messages_sent
  pure { net with
    messages_sent
    response_bytes := some (entries ++ List.replicate (messages_sent - entries.length) none) }

/-- `response_bytes[messages_sent - 1] = response_buf_size`: how much had been received when the
last message had been answered. -/
def record (net : Network) : Network :=
  { net with
    response_bytes :=
      net.response_bytes.map fun entries => entries.set (net.messages_sent - 1) (some net.response_buf_size) }

end Network

/-- The calls of `recv`, and whether the last of them makes `net_recv` return 1. The loop ends
when nothing was read, or with an error, which is a failure unless there is only nothing to read
yet. -/
def recv_loop : List recv_result → Network → F (Network × Bool)
  | [], net => pure (net, false)
  | .failed again :: _, net => pure (net, !again)
  | .received bytes :: recvs, net =>
    if bytes = [] then pure (net, false)
    else do
      let net ← net.append bytes
      recv_loop recvs net

/-- The globals after the call, and whether it returns 1. It waits with `poll` first: a timeout
is no failure, and what `recv` gives is appended to the response. -/
def net_recv (arrival : Arrival) (net : Network) : F (Network × Bool) :=
  if 0 < arrival.poll then
    if arrival.pollin then recv_loop arrival.recvs net else pure (net, false)
  else pure (net, arrival.poll < 0)

namespace Outcomes

/-- `connect` succeeds, or does so when it is tried again, up to 1000 times. -/
def connected (o : Outcomes) : Bool :=
  0 ≤ o.connect 0 || (List.range 1000).any fun n => o.connect (n + 1) = 0

end Outcomes

/-- The globals, and the messages `net_send` was called for so far. The list is a record only,
which the program does not keep. -/
structure Session where
  net : Network
  tried : List message_t
  deriving DecidableEq, Repr

/-- The loop over the messages, of which the first is number `i`. It stops early when
a message is not sent completely and when `net_recv` fails. -/
def send_messages (o : Outcomes) : Nat → List message_t → Session → F Session
  | _, [], s => pure s
  | i, m :: messages, s => do
    let net ← s.net.count_message
    let tried := s.tried ++ [m]
    if o.send i ≠ m.msize then pure { net, tried }
    else do
      let received ← net_recv (o.arrival i) net
      if received.2 then pure { net := received.1, tried }
      else send_messages o (i + 1) messages { net := received.1.record, tried }

/-- The label `HANDLE_RESPONSES`: what is still to come is received, and its end is recorded if
a message was sent and there is an array to record it in. -/
def handle_responses (o : Outcomes) (s : Session) : F Session := do
  let received ← net_recv o.last s.net
  if 0 < received.1.messages_sent ∧ received.1.response_bytes.isSome then pure { s with net := received.1.record }
  else pure { s with net := received.1 }

/-- The result and the globals after the call, with the messages it tried to send. The
kills and the waiting are left out. -/
def send_over_network (o : Outcomes) (kl_messages : List message_t) (net : Network) : F (Int × Session) := do
  let net := net.clear
  if ¬ o.connected then pure (1, { net, tried := [] })
  else do
    let received ← net_recv o.early net
    let s ←
      if received.2 then pure { net := received.1, tried := [] }
      else send_messages o 0 kl_messages { net := received.1.set_sent 0, tried := [] }
    let s ← handle_responses o s
    pure (0, s)

end aflnet
