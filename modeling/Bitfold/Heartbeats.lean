import Bitfold.ProbeTimer
/-!
# Heartbeats

`update` queues a `Ping` when both directions have been idle for the heartbeat
interval. That the remote peer was heard is written down with every command
that is processed. That something was sent is not: `last_sent` stays the time
at which the peer was made. So once the peer is older than the interval, a
`Ping` is queued at every update, whatever was just sent, until the remote peer
is heard again.
-/

namespace Bitfold

open Lib

namespace Peer

variable {codecs : Codecs} {p q : Peer} {t : Instant} {draw : UInt16}

/-! ## The two times -/

/-- The remote peer was heard at `t`, and nothing was noted of what was sent. -/
structure Stamped (t : Instant) (p q : Peer) : Prop where
  heard : q.last_heard = t
  sent : q.last_sent = p.last_sent

theorem process_command_stamped {c : ProtocolCommand} {r : Processed} (h : p.process_command c t draw = .ok (q, r)) :
    Stamped t p q := by
  cases ht : is_traffic c with
  | true =>
    obtain ⟨hh, hheard⟩ := handles_of_traffic ht h
    obtain ⟨t', u, hd, n, cq, fs, cs, he⟩ := hh.writes
    refine ⟨hheard, ?_⟩
    rw [he]
  | false =>
    cases c with
    | Connect chs m v sid cid =>
      rw [process_command_connect] at h
      cases h
      rcases process_connect_writes (p.heard t) chs sid cid draw with he | ⟨i, n, st, v, he, -⟩
      · rw [he]
        exact ⟨rfl, rfl⟩
      · rw [he]
        exact ⟨rfl, rfl⟩
    | VerifyConnect pid chs m isid osid w =>
      obtain ⟨i, s, f, st, rfl⟩ := process_verify_connect_writes h
      exact ⟨rfl, rfl⟩
    | Disconnect n =>
      cases h
      exact ⟨rfl, rfl⟩
    | BandwidthLimit i o =>
      cases h
      exact ⟨rfl, rfl⟩
    | ThrottleConfigure i a d =>
      cases h
      exact ⟨rfl, rfl⟩
    | PMTUReply size token =>
      cases h
      exact ⟨rfl, rfl⟩
    | _ => cases ht

/-- Once a command has been processed, the remote peer was heard. -/
theorem process_commands_stamped {cmds : List ProtocolCommand} {acc : IncomingPackets} {r : Processed}
    (hne : processing t draw cmds p ≠ []) (h : process_commands t draw cmds p acc = .ok (q, r)) : Stamped t p q := by
  cases cmds with
  | nil => exact absurd rfl hne
  | cons c cmds =>
    rw [process_commands] at h
    obtain ⟨x, hx⟩ : ∃ x, p.process_command c t draw = x := ⟨_, rfl⟩
    rw [hx] at h
    cases x with
    | error e => cases h
    | ok y =>
      obtain ⟨p₁, result⟩ := y
      have hone := process_command_stamped hx
      cases result with
      | error e =>
        cases h
        exact hone
      | ok packets =>
        refine process_commands_invariant (J := Stamped t p) (K := fun _ _ => True) ?_ (fun _ _ => trivial) h hone
        intro p' q' c' r' hp' _ hc'
        have hnext := process_command_stamped hc'
        exact ⟨hnext.heard, hnext.sent.trans hp'.sent⟩

/-- Did the operation process a command? -/
def Processes (codecs : Codecs) (p : Peer) : SessionOp → Prop
  | .process_packet payload time draw =>
    p.takes payload time = true ∧ datagram_commands codecs p payload time draw ≠ []
  | _ => False

/-- Nothing was noted, of what was heard or of what was sent. -/
structure SameTimes (p q : Peer) : Prop where
  heard : q.last_heard = p.last_heard
  sent : q.last_sent = p.last_sent

/-- A datagram that is taken and opens is what its commands make of the peer, up
to the state of the connection. -/
theorem process_packet_opened {payload : Bytes} {actions : List Action} {packet : CommandPacket}
    (ht : p.takes payload t = true) (ho : open_datagram codecs p.config payload = .ok packet)
    (h : p.process_packet codecs payload t draw = .ok (actions, q)) :
    ∃ r result st, process_commands t draw packet.commands (p.taking t payload.length) [] = .ok (r, result) ∧
      q = { r with state := st } := by
  obtain ⟨r, result, st, hr, hq, -⟩ := process_packet_of_takes ht h
  rw [← counted_config p t payload.length] at ho
  rw [process_command_packet_opened ho] at hr
  exact ⟨r, result, st, hr, hq⟩

theorem process_packet_times {payload : Bytes} {actions : List Action}
    (h : p.process_packet codecs payload t draw = .ok (actions, q)) :
    (Processes codecs p (.process_packet payload t draw) ∧ Stamped t p q) ∨
      (¬ Processes codecs p (.process_packet payload t draw) ∧ SameTimes p q) := by
  cases ht : p.takes payload t with
  | false =>
    obtain ⟨-, hq⟩ := process_packet_not_taken ht h
    refine .inr ⟨fun hh => ?_, ?_⟩
    · cases ht.symm.trans hh.1
    · rw [hq]
      split <;> exact ⟨rfl, rfl⟩
  | true =>
    by_cases hd : datagram_commands codecs p payload t draw = []
    · refine .inr ⟨fun hh => hh.2 hd, ?_⟩
      refine (process_packet_invariant (J := SameTimes p) (K := fun _ _ => False) (fun _ hc => hc.elim)
        (fun _ hp => ⟨hp.heard, hp.sent⟩) (fun _ hp => ⟨hp.heard, hp.sent⟩) ht ?_ h ⟨rfl, rfl⟩).2
      rw [hd]
      simp
    · refine .inl ⟨⟨ht, hd⟩, ?_⟩
      rw [datagram_commands] at hd
      cases ho : open_datagram codecs p.config payload with
      | error e =>
        rw [ho] at hd
        exact absurd rfl hd
      | ok packet =>
        rw [ho] at hd
        obtain ⟨r, result, st, hr, rfl⟩ := process_packet_opened ht ho h
        have hstamped := process_commands_stamped hd hr
        exact ⟨hstamped.heard, hstamped.sent⟩

theorem sameTimes_flush (codecs : Codecs) (p : Peer) : SameTimes p (p.flush codecs).2 := by
  obtain ⟨n, cq, st, b, he⟩ := flush_writes codecs p
  rw [he]
  exact ⟨rfl, rfl⟩

theorem SameTimes.trans {r : Peer} (h : SameTimes p q) (h' : SameTimes q r) : SameTimes p r :=
  ⟨h'.heard.trans h.heard, h'.sent.trans h.sent⟩

theorem sameTimes_before_update_flush (p : Peer) (t : Instant) (elapsed : Duration) :
    SameTimes p (p.before_update_flush t elapsed) := by
  unfold before_update_flush
  dsimp only
  split
  · obtain ⟨n, cq, he⟩ :=
      enqueue_command_writes (p.update_bandwidth_window t) (.Ping (.ofNat (as_millis elapsed)))
    rw [enqueue_ping_command, he]
    exact ⟨rfl, rfl⟩
  · exact ⟨rfl, rfl⟩

theorem sameTimes_update (codecs : Codecs) (p : Peer) (t : Instant) (elapsed : Duration) (draw : ProbeDraw) :
    SameTimes p (p.update codecs t elapsed draw).2 := by
  have hflushed := (sameTimes_before_update_flush p t elapsed).trans (sameTimes_flush codecs _)
  obtain ⟨n, cq, pm, he⟩ := handle_pmtu_writes ((p.before_update_flush t elapsed).flush codecs).2 t draw
  rw [update_eq, he]
  exact ⟨hflushed.heard, hflushed.sent⟩

theorem sameTimes_process_event {event : Packet} {actions : List Action}
    (h : p.process_event codecs event = .ok (actions, q)) : SameTimes p q := by
  obtain ⟨r, hr, -, rfl⟩ := process_event_ok h
  obtain ⟨n, cq, u, sq, he⟩ := enqueue_packet_writes hr
  obtain ⟨st, cq', hs⟩ := record_send_writes p
  have hqueued : SameTimes p r := by
    rw [he, hs]
    exact ⟨rfl, rfl⟩
  exact hqueued.trans (sameTimes_flush codecs r)

/-- An operation notes that it heard the remote peer, if it processed a command,
and never notes that it sent anything. -/
theorem perform_times {op : SessionOp} {actions : List Action} (hat : op.At t)
    (h : p.perform codecs op = .ok (actions, q)) :
    (Processes codecs p op ∧ Stamped t p q) ∨ (¬ Processes codecs p op ∧ SameTimes p q) := by
  cases op with
  | process_packet payload time draw =>
    cases hat
    exact process_packet_times h
  | process_event event => exact .inr ⟨id, sameTimes_process_event h⟩
  | update time elapsed draw =>
    have hu : p.update codecs time elapsed draw = (actions, q) := Except.ok.inj h
    have hq : (p.update codecs time elapsed draw).2 = q := congrArg Prod.snd hu
    exact .inr ⟨id, hq ▸ sameTimes_update codecs p time elapsed draw⟩
  | should_drop time =>
    cases h
    exact .inr ⟨id, rfl, rfl⟩

/-! ## Runs -/

/-- The operation queues a `Ping` of its own. -/
def Pings (p : Peer) : SessionOp → Prop
  | .update time elapsed _ => ∃ timestamp, (p.before_update_flush time elapsed).commands = p.commands ++ [.Ping timestamp]
  | _ => False

/-- The step sent a datagram, or queued a `Ping`. -/
def Active (x : Peer × Clocked) : Prop := (∃ bytes, .Send bytes ∈ x.2.actions) ∨ x.1.Pings x.2.op

/-- A `Ping` is queued by an update only if during the interval before it no
datagram was sent, no command was processed and no other `Ping` was queued. -/
def Spaced (codecs : Codecs) (before : List (Peer × Clocked)) (x : Peer × Clocked) : Prop :=
  ∀ interval, x.1.config.heartbeat_interval = some interval → x.1.Pings x.2.op →
    (∀ y ∈ before, ∀ bytes, .Send bytes ∈ y.2.actions → y.2.time + interval ≤ x.2.time) ∧
    (∀ y ∈ before, Processes codecs y.1 y.2.op → y.2.time + interval ≤ x.2.time) ∧
    ∀ y ∈ before, y.1.Pings y.2.op → y.2.time + interval ≤ x.2.time

/-- An update within the interval after a datagram or a `Ping` comes within the
interval after a command, too, as long as the peer is established and older
than the interval. `start` is the peer the run began with. -/
def HeardInTime (codecs : Codecs) (start : Peer) (before : List (Peer × Clocked)) (x : Peer × Clocked) : Prop :=
  ∀ interval t elapsed draw, x.2.op = .update t elapsed draw → x.1.config.heartbeat_interval = some interval →
    x.1.is_established = true → interval ≤ t - start.last_sent →
    (∃ y ∈ before, Active y ∧ t < y.2.time + interval) →
    t < start.last_heard + interval ∨ ∃ y ∈ before, Processes codecs y.1 y.2.op ∧ t < y.2.time + interval

/-- The clock never goes back, from when the first peer was last heard. -/
def Ticking (start : Peer) (steps : List (Peer × Clocked)) : Prop :=
  (start.last_heard :: steps.map fun x => x.2.time).Pairwise (· ≤ ·)

theorem pings_update_iff (hb : Balanced p) (elapsed : Duration) (draw : ProbeDraw) :
    p.Pings (.update t elapsed draw) ↔ p.heartbeat_due t = true := by
  change (∃ timestamp, (if p.heartbeat_due t = true then
    (p.update_bandwidth_window t).enqueue_ping_command (.ofNat (as_millis elapsed))
    else p.update_bandwidth_window t).commands = p.commands ++ [.Ping timestamp]) ↔ _
  constructor
  · rintro ⟨timestamp, h⟩
    by_contra hdue
    rw [if_neg hdue] at h
    have hlen := congrArg List.length h
    rw [List.length_append] at hlen
    exact absurd hlen (Nat.ne_of_lt (Nat.lt_succ_self _))
  · intro hdue
    have hadmits : (p.update_bandwidth_window t).Admits (command_data_size (.Ping (.ofNat (as_millis elapsed)))) :=
      hb.bounded
    refine ⟨.ofNat (as_millis elapsed), ?_⟩
    rw [if_pos hdue, enqueue_ping_command, enqueue_command_of_admits hadmits]
    rfl

/-- When a heartbeat is due. -/
theorem heartbeat_due_iff {interval : Duration} (h : p.config.heartbeat_interval = some interval) (t : Instant) :
    p.heartbeat_due t = true ↔
      p.is_established = true ∧ interval ≤ t - p.last_sent ∧ interval ≤ t - p.last_heard := by
  unfold heartbeat_due
  rw [h]
  simp

/-- What the peer of a run knows of the steps: when it last processed a command,
and nothing of what it sent. -/
structure Noted (codecs : Codecs) (start : Peer) (steps : List (Peer × Clocked)) (p : Peer) : Prop where
  balanced : Balanced p
  sent : p.last_sent = start.last_sent
  later : start.last_heard ≤ p.last_heard
  processed : ∀ y ∈ steps, Processes codecs y.1 y.2.op → y.2.time ≤ p.last_heard
  source : p.last_heard = start.last_heard ∨ ∃ y ∈ steps, Processes codecs y.1 y.2.op ∧ y.2.time = p.last_heard

variable {start : Peer} {steps : List (Peer × Clocked)} {x : Peer × Clocked}

theorem noted_start (h : Balanced start) : Noted codecs start [] start where
  balanced := h
  sent := rfl
  later := le_refl _
  processed := by simp
  source := .inl rfl

theorem Ticking.left (h : Ticking start (steps ++ [x])) : Ticking start steps := by
  unfold Ticking at h ⊢
  rw [List.map_append, ← List.cons_append] at h
  exact (List.pairwise_append.1 h).1

theorem Ticking.last (h : Ticking start (steps ++ [x])) :
    start.last_heard ≤ x.2.time ∧ ∀ y ∈ steps, y.2.time ≤ x.2.time := by
  unfold Ticking at h
  rw [List.map_append, ← List.cons_append] at h
  have hlast := (List.pairwise_append.1 h).2.2
  constructor
  · exact hlast _ List.mem_cons_self _ (by simp)
  · intro y hy
    exact hlast _ (List.mem_cons_of_mem _ (List.mem_map_of_mem hy)) _ (by simp)

/-- The remote peer was last heard before the next step. -/
theorem Noted.heard_le (h : Noted codecs start steps p) (hclock : Ticking start (steps ++ [x])) :
    p.last_heard ≤ x.2.time := by
  obtain ⟨hstart, hsteps⟩ := hclock.last
  rcases h.source with he | ⟨y, hy, -, he⟩
  · rw [he]
    exact hstart
  · rw [← he]
    exact hsteps y hy

theorem Noted.next {e : Clocked} (h : Noted codecs start steps p) (hclock : Ticking start (steps ++ [(p, e)]))
    (hat : e.op.At e.time) (hp : p.perform codecs e.op = .ok (e.actions, e.after)) :
    Noted codecs start (steps ++ [(p, e)]) e.after := by
  have hheard : p.last_heard ≤ e.time := h.heard_le hclock
  rcases perform_times hat hp with ⟨hprocesses, hstamped⟩ | ⟨hnot, hsame⟩
  · refine ⟨h.balanced.perform hp, hstamped.sent.trans h.sent, ?_, fun y hy _ => ?_,
      .inr ⟨(p, e), by simp, hprocesses, ?_⟩⟩
    · rw [hstamped.heard]
      exact h.later.trans hheard
    · rw [hstamped.heard]
      rcases List.mem_append.1 hy with hy | hy
      · exact hclock.last.2 y hy
      · rw [List.mem_singleton.1 hy]
    · exact hstamped.heard.symm
  · refine ⟨h.balanced.perform hp, hsame.sent.trans h.sent, ?_, fun y hy hprocesses => ?_, ?_⟩
    · rw [hsame.heard]
      exact h.later
    · rw [hsame.heard]
      rcases List.mem_append.1 hy with hy | hy
      · exact h.processed y hy hprocesses
      · rw [List.mem_singleton.1 hy] at hprocesses
        exact absurd hprocesses hnot
    · rw [hsame.heard]
      rcases h.source with he | ⟨y, hy, hprocesses, he⟩
      · exact .inl he
      · exact .inr ⟨y, List.mem_append_left _ hy, hprocesses, he⟩

theorem noted_run (hb : Balanced start) (hrun : ClockedRun codecs start steps p) (hclock : Ticking start steps) :
    Noted codecs start steps p := by
  induction hrun with
  | start => exact noted_start hb
  | next hr hs ih =>
    obtain ⟨hat, hp, rfl⟩ := hs
    exact (ih hclock.left).next hclock hat hp

/-- A command was processed within the interval, as far as the peer can tell. -/
theorem Noted.heard_lt_iff (h : Noted codecs start steps p) (t : Instant) (interval : Duration) :
    t < p.last_heard + interval ↔
      t < start.last_heard + interval ∨ ∃ y ∈ steps, Processes codecs y.1 y.2.op ∧ t < y.2.time + interval := by
  constructor
  · intro hlt
    rcases h.source with he | ⟨y, hy, hprocesses, he⟩
    · rw [he] at hlt
      exact .inl hlt
    · rw [← he] at hlt
      exact .inr ⟨y, hy, hprocesses, hlt⟩
  · rintro (hlt | ⟨y, hy, hprocesses, hlt⟩)
    · exact hlt.trans_le (Nat.add_le_add_right h.later interval)
    · exact hlt.trans_le (Nat.add_le_add_right (h.processed y hy hprocesses) interval)

/-- The step is spaced exactly if it is answered. -/
theorem Noted.spaced_iff {e : Clocked} (h : Noted codecs start steps p) (hclock : Ticking start (steps ++ [(p, e)]))
    (hat : e.op.At e.time) : Spaced codecs steps (p, e) ↔ HeardInTime codecs start steps (p, e) := by
  have hheard : p.last_heard ≤ e.time := h.heard_le hclock
  constructor
  · intro hspaced interval t elapsed draw hop hinterval hestablished hold hactive
    -- were nothing heard, a heartbeat would be due
    by_contra hsilent
    rw [← h.heard_lt_iff] at hsilent
    rw [show (p, e).2.op = e.op from rfl] at hop
    rw [hop] at hat
    obtain rfl : t = e.time := hat
    have hpings : p.Pings e.op := by
      rw [hop, pings_update_iff h.balanced, heartbeat_due_iff hinterval, h.sent]
      exact ⟨hestablished, hold, Nat.le_sub_of_add_le' (Nat.not_lt.1 hsilent)⟩
    obtain ⟨hsends, -, hothers⟩ := hspaced interval hinterval hpings
    obtain ⟨y, hy, ⟨bytes, hbytes⟩ | hping, hlt⟩ := hactive
    · exact absurd hlt (Nat.not_lt.2 (hsends y hy bytes hbytes))
    · exact absurd hlt (Nat.not_lt.2 (hothers y hy hping))
  · intro hanswered interval hinterval hpings
    cases hop : e.op with
    | update t elapsed draw =>
      rw [show (p, e).2.op = e.op from rfl, hop] at hpings
      rw [hop] at hat
      obtain rfl : t = e.time := hat
      rw [pings_update_iff h.balanced, heartbeat_due_iff hinterval, h.sent] at hpings
      obtain ⟨hestablished, hold, hidle⟩ := hpings
      have hsilent : ¬ e.time < p.last_heard + interval := Nat.not_lt.2 (Nat.add_le_of_le_sub' hheard hidle)
      have hquiet : ∀ y ∈ steps, Active y → y.2.time + interval ≤ e.time := by
        intro y hy hactive
        by_contra hlt
        exact hsilent ((h.heard_lt_iff _ _).2
          (hanswered interval _ _ _ hop hinterval hestablished hold ⟨y, hy, hactive, Nat.not_le.1 hlt⟩))
      refine ⟨fun y hy bytes hbytes => hquiet y hy (.inl ⟨bytes, hbytes⟩), fun y hy hprocesses => ?_,
        fun y hy hping => hquiet y hy (.inr hping)⟩
      by_contra hlt
      exact hsilent ((h.heard_lt_iff _ _).2 (.inr ⟨y, hy, hprocesses, Nat.not_le.1 hlt⟩))
    | _ =>
      rw [show (p, e).2.op = e.op from rfl, hop] at hpings
      exact hpings.elim

/-- Heartbeats are spaced in a run exactly if what is sent in it is answered
within the interval. -/
theorem heartbeats_spaced_iff (hstart : Reachable codecs start) (hrun : ClockedRun codecs start steps p)
    (hclock : Ticking start steps) : AtEach (Spaced codecs) steps ↔ AtEach (HeardInTime codecs start) steps := by
  induction hrun with
  | start => exact ⟨fun _ => atEach_nil _, fun _ => atEach_nil _⟩
  | next hr hs ih =>
    obtain ⟨hat, hp, rfl⟩ := hs
    have hnoted := noted_run hstart.balanced hr hclock.left
    rw [atEach_snoc, atEach_snoc, ih hclock.left, hnoted.spaced_iff hclock hat]

/-- A heartbeat every 50 milliseconds, and no checksums. -/
def beating : Config :=
  { Config.default with
    heartbeat_interval := some (from_millis 50), use_connection_handshake := false, use_checksums := false }

/-- A peer made at 0 that has sent and received. -/
def beating_peer : Peer := (Peer.new ⟨.V4 0, 0⟩ beating 0 ⟨0, 0, 0⟩).record_send.2.record_recv.2

theorem beating_peer_reachable : Reachable .checked beating_peer :=
  .call (.call (.new ⟨.V4 0, 0⟩ beating 0 ⟨0, 0, 0⟩) (.record_send _)) (.record_recv _)

theorem poll_reachable (h : Reachable .checked p) (t : Instant) : Reachable .checked (p.poll t).after :=
  .call h (.update p t 0 ⟨7, fun _ => 0⟩)

/-- A datagram comes in. -/
def hears (p : Peer) (t : Instant) (payload : Bytes) : Clocked where
  time := t
  op := .process_packet payload t 0
  actions := ((p.process_packet .checked payload t 0).toOption.map Prod.fst).getD []
  after := ((p.process_packet .checked payload t 0).toOption.map Prod.snd).getD p

/-- The peer has sent a heartbeat. -/
def beaten_peer : Peer := (beating_peer.poll 60000000).after

/-- A datagram with an answer to it. -/
def pong_datagram : Bytes := 0 :: CommandEncoder.encode_packet ⟨[.Pong 7]⟩

/-- The answer comes ten milliseconds later. -/
def answered_peer : Peer := (beaten_peer.hears 70000000 pong_datagram).after

/-- The next update finds that the interval has not passed. -/
def resting_peer : Peer := (answered_peer.poll 80000000).after

def beats : List (Peer × Clocked) :=
  [(beating_peer, beating_peer.poll 60000000), (beaten_peer, beaten_peer.hears 70000000 pong_datagram),
    (answered_peer, answered_peer.poll 80000000), (resting_peer, resting_peer.poll 130000000)]

theorem beats_run : ClockedRun .checked beating_peer beats (resting_peer.poll 130000000).after := by
  have hanswer : ClockedRun .checked beating_peer
      ([(beating_peer, beating_peer.poll 60000000)] ++ [(beaten_peer, beaten_peer.hears 70000000 pong_datagram)])
      answered_peer := by
    obtain ⟨⟨actions, q⟩, hq, -⟩ := exists_ok (x := beaten_peer.process_packet .checked pong_datagram 70000000 0)
      (p := fun _ => true) (by decide +kernel)
    refine .next (poll_step .start 60000000) ⟨rfl, ?_, rfl⟩
    change beaten_peer.process_packet .checked pong_datagram 70000000 0 =
      .ok ((beaten_peer.hears 70000000 pong_datagram).actions, (beaten_peer.hears 70000000 pong_datagram).after)
    unfold hears
    rw [hq]
    rfl
  exact poll_step (poll_step hanswer 80000000) 130000000

/-- The two heartbeats, and the answer to the first one, are an interval apart. -/
theorem heartbeats_spaced_answered :
    (beating_peer.heartbeat_due 60000000 = true ∧ answered_peer.heartbeat_due 80000000 = false ∧
      resting_peer.heartbeat_due 130000000 = true) ∧ AtEach (Spaced .checked) beats := by
  have hclock : Ticking beating_peer beats := by
    change ([0, 60000000, 70000000, 80000000, 130000000] : List Nat).Pairwise (· ≤ ·)
    decide
  refine ⟨by decide +kernel, (heartbeats_spaced_iff beating_peer_reachable beats_run hclock).2 ?_⟩
  have hinterval : answered_peer.config.heartbeat_interval = some (from_millis 50) ∧
      resting_peer.config.heartbeat_interval = some (from_millis 50) := by decide +kernel
  have hprocesses : Processes .checked beaten_peer (.process_packet pong_datagram 70000000 0) := by
    have hsome : (datagram_commands .checked beaten_peer pong_datagram 70000000 0).isEmpty = false := by decide +kernel
    exact ⟨by decide +kernel, List.isEmpty_eq_false_iff.1 hsome⟩
  refine atEach_snoc.2 ⟨atEach_snoc.2 ⟨atEach_snoc.2 ⟨atEach_snoc.2 ⟨atEach_nil _, ?_⟩, ?_⟩, ?_⟩, ?_⟩
  · rintro interval t elapsed draw - - - - ⟨y, hy, -⟩
    cases hy
  · intro interval t elapsed draw hop
    cases hop
  · -- the heartbeat is answered within the interval
    intro interval t elapsed draw hop h
    cases hop
    obtain rfl := Option.some.inj (hinterval.1.symm.trans h)
    exact fun _ _ _ => .inr ⟨(beaten_peer, beaten_peer.hears 70000000 pong_datagram),
      List.mem_cons_of_mem _ List.mem_cons_self, hprocesses, by decide⟩
  · -- no step lies within the interval
    intro interval t elapsed draw hop h
    cases hop
    obtain rfl := Option.some.inj (hinterval.2.symm.trans h)
    rintro - - ⟨y, hy, -, hlt⟩
    have hearlier : y.2.time ≤ 80000000 := by
      simp only [List.mem_append, List.mem_singleton, List.not_mem_nil, false_or] at hy
      rcases hy with (rfl | rfl) | rfl <;> decide
    exact absurd hlt (Nat.not_lt.2 ((Nat.add_le_add_right hearlier (from_millis 50)).trans (by decide)))

/-- Another heartbeat follows after one millisecond. -/
theorem second_heartbeat_too_soon : ∃ steps q, beating_peer.is_established = true ∧
    ClockedRun .checked beating_peer steps q ∧ Ticking beating_peer steps ∧ ¬ AtEach (Spaced .checked) steps := by
  have hfirst : beating_peer.Pings (.update 60000000 0 ⟨7, fun _ => 0⟩) :=
    (pings_update_iff beating_peer_reachable.balanced _ _).2 (by decide)
  refine ⟨_, _, by decide, poll_step (poll_step .start 60000000) 61000000, ?_, fun h => ?_⟩
  · change ([0, 60000000, 61000000] : List Nat).Pairwise (· ≤ ·)
    simp
  · have hsecond : (beating_peer.poll 60000000).after.Pings (.update 61000000 0 ⟨7, fun _ => 0⟩) := by
      exact (pings_update_iff (poll_reachable beating_peer_reachable 60000000).balanced _ _).2 (by decide +kernel)
    have hlast := (atEach_snoc.1 h).2
    have hspaced := hlast (from_millis 50) (by decide +kernel) hsecond
    have hle := hspaced.2.2 _ (List.mem_singleton_self _) hfirst
    exact absurd hle (by decide)

end Peer

end Bitfold
