import Bitfold.Admission
import Bitfold.Duplicates
/-!
# Counting unestablished sessions

A poll counts the unestablished sessions once and then keeps the number in a
local variable: a session that becomes established takes one off, a session
that is let in adds one. The number never gets below zero. It does not stay the
number of unestablished sessions, though: a session that its first datagram
establishes is added, too, and one that disconnects is not.
-/

namespace Bitfold

open Lib

namespace PeerState

theorem after_command_forward (s : PeerState) (c : ProtocolCommand) : s.Forward (s.after_command c) := by
  cases c with
  | Disconnect n =>
    cases s with
    | Zombie => exact .refl _
    | _ => exact .inr (show _ < rank Zombie by decide)
  | Connect chs m v sid cid =>
    cases s with
    | Idle => exact .inr (show rank Idle < rank AcknowledgingConnect by decide)
    | _ => exact .refl _
  | VerifyConnect pid chs m isid osid w =>
    cases s with
    | Connecting => exact .inr (show rank Connecting < rank ConnectionSucceeded by decide)
    | _ => exact .refl _
  | _ => exact .refl s

theorem after_commands_forward (s : PeerState) (cmds : List ProtocolCommand) : s.Forward (s.after_commands cmds) :=
  foldl_invariant (I := fun t => s.Forward t) (fun t c ht => ht.trans (after_command_forward t c)) (.refl s)

theorem after_recv_forward (handshake : Bool) (s : PeerState) : s.Forward (s.after_recv handshake) := by
  cases s with
  | Idle | Connecting =>
    cases handshake with
    | false => exact .inr (show _ < rank Connected by decide)
    | true => exact .refl _
  | AcknowledgingConnect => exact .inr (show _ < rank Connected by decide)
  | _ => exact .refl _

/-- The session is yet to be established. -/
def pending (s : PeerState) : Bool := decide (s.rank < 2)

variable {s t : PeerState}

theorem Forward.pending (h : Forward s t) (ht : t.pending = true) : s.pending = true := by
  rw [PeerState.pending, decide_eq_true_eq] at ht ⊢
  rcases h with rfl | h
  · exact ht
  · omega

/-- Only a session that is yet to be established becomes so. -/
theorem Forward.establishes (h : Forward s t) (hs : s.is_established = false) (ht : t.is_established = true) :
    s.pending = true := by
  rw [established_iff_rank] at ht
  rw [← Bool.not_eq_true, established_iff_rank] at hs
  rw [PeerState.pending, decide_eq_true_eq]
  rcases h with rfl | h
  · exact absurd ht hs
  · omega

theorem not_established_of_pending (h : s.pending = true) : s.is_established = false := by
  cases s <;> first | rfl | cases h

/-- The sessions yet to be established are no more than there were, less the
one that became so. -/
theorem Forward.pending_toNat (h : Forward s t) :
    t.pending.toNat + (!s.is_established && t.is_established).toNat ≤ s.pending.toNat := by
  by_cases ht : t.pending = true
  · rw [h.pending ht, ht, not_established_of_pending ht]
    simp
  · by_cases he : (!s.is_established && t.is_established) = true
    · rw [Bool.and_eq_true, Bool.not_eq_true'] at he
      rw [h.establishes he.1 he.2, he.1, he.2]
      simp [ht]
    · simp [ht, he]

theorem after_recv_of_established (handshake : Bool) (h : s.is_established = true) : s.after_recv handshake = s := by
  cases s <;> first | rfl | cases h

end PeerState

namespace Peer

variable {p q : Peer} {codecs : Codecs} {payload : Bytes} {time : Instant} {draw : UInt16} {actions : List Action}

theorem process_packet_forward (h : p.process_packet codecs payload time draw = .ok (actions, q)) :
    p.state.Forward q.state := by
  rcases process_packet_cases h with ⟨-, hm, -⟩ | ⟨packet, r, packets, -, -, -, hm⟩
  · exact .inl hm.state.symm
  · rw [hm.state]
    exact (PeerState.after_commands_forward _ _).trans (PeerState.after_recv_forward _ _)

/-- When commands establish an idle session. -/
theorem established_idle (handshake : Bool) (cmds : List ProtocolCommand) :
    ((PeerState.Idle.after_commands cmds).after_recv handshake).is_established = establishes handshake cmds := by
  unfold establishes
  cases hd : cmds.any is_disconnect with
  | true =>
    rw [PeerState.after_commands_disconnect hd]
    rfl
  | false =>
    rw [PeerState.after_commands_idle hd]
    cases cmds.any is_connect <;> cases handshake <;> rfl

end Peer

namespace SessionManager

section Rounds

variable {S I : Type} {session : Session S} {intercept : Interceptor I} {m m' : SessionManager S I} {n n' : Nat}
  {d : IncomingDatagram} {payload : Bytes} {time : Instant}

/-- What a datagram that passed does to the sessions and their count. -/
inductive Dispatched (session : Session S) (time : Instant) (n : Nat) (m : SessionManager S I) (d : IncomingDatagram)
    (payload : Bytes) (n' : Nat) (m' : SessionManager S I) : Prop where
  | known {s s' : S} {actions : List Action} : m.sessions.lookup d.address = some s →
      session.process_packet s payload time d.draw = .ok (actions, s') →
      recount session n (session.is_established s) s' = .ok n' → m'.sessions = m.sessions.insert d.address s' →
      Dispatched session time n m d payload n' m'
  | admitted {s' : S} {actions : List Action} : m.sessions.lookup d.address = none →
      session.process_packet (session.create_session m.config d.address time d.ids) payload time d.draw =
        .ok (actions, s') →
      m.admits n d.address = true → n' = n + 1 → m'.sessions = m.sessions.insert d.address s' →
      Dispatched session time n m d payload n' m'
  | refused : m.sessions.lookup d.address = none → m.admits n d.address = false → n' = n → m'.sessions = m.sessions →
      Dispatched session time n m d payload n' m'

theorem dispatch_dispatched (h : m.dispatch session time n d payload = .ok (n', m')) :
    Dispatched session time n m d payload n' m' ∧ m'.max_unestablished_sessions = m.max_unestablished_sessions := by
  rcases dispatch_cases h with ⟨s, s', actions, hl, hp, hn, rfl⟩ |
    ⟨s', actions, hl, hp, ⟨ha, hn, rfl⟩ | ⟨ha, hn, rfl⟩⟩
  · rw [handle_actions_eq]
    exact ⟨.known hl hp hn rfl, rfl⟩
  · rw [handle_actions_eq]
    exact ⟨.admitted hl hp ha hn rfl, rfl⟩
  · rw [handle_actions_eq]
    exact ⟨.refused hl ha hn rfl, rfl⟩

/-- A datagram is stopped by the interceptor, or it passes. -/
theorem receive_dispatched (h : receive session intercept time (n, m) d = .ok (n', m')) :
    ((m.passes intercept d = none ∧ n' = n ∧ m'.sessions = m.sessions) ∨
      ∃ payload, m.passes intercept d = some payload ∧ Dispatched session time n m d payload n' m') ∧
    m'.max_unestablished_sessions = m.max_unestablished_sessions := by
  unfold passes
  obtain ⟨⟨⟨should_process, payload⟩, i⟩, hi⟩ : ∃ r, intercept.on_receive m.interceptor d.address d.payload = r :=
    ⟨_, rfl⟩
  simp only [receive, hi] at h
  rw [hi]
  cases should_process with
  | false =>
    cases h
    exact ⟨.inl ⟨rfl, rfl, rfl⟩, rfl⟩
  | true =>
    obtain ⟨hd, hmax⟩ := dispatch_dispatched h
    refine ⟨.inr ⟨payload, rfl, ?_⟩, hmax⟩
    -- the interceptor's own state does not matter to the sessions
    cases hd with
    | known hl hp hn hs => exact .known hl hp hn hs
    | admitted hl hp ha hn hs => exact .admitted hl hp ha hn hs
    | refused hl ha hn hs => exact .refused hl ha hn hs

theorem recount_eq_ok {was_est : Bool} {s : S} (h : recount session n was_est s = .ok n') :
    n' + (!was_est && session.is_established s).toNat = n := by
  unfold recount at h
  split at h
  · rename_i he
    rw [he]
    unfold checked_decrement at h
    split at h
    · cases h
    · cases h
      simp
      omega
  · rename_i he
    cases h
    simp [he]

end Rounds

/-! ## The count stays above zero -/

section Pending

variable {I : Type} {intercept : Interceptor I} {codecs : Codecs} {m m' : SessionManager Peer I} {n n' : Nat}
  {d : IncomingDatagram} {payload : Bytes} {time : Instant}

/-- How many sessions are yet to be established. -/
def pending_count (m : SessionManager Peer I) : Nat := count (fun _ (p : Peer) => p.state.pending) m.sessions

theorem pending_count_le (codecs : Codecs) (m : SessionManager Peer I) :
    m.pending_count ≤ m.unestablished_session_count (Peer.session codecs) := by
  refine count_le_count (Q := fun _ (p : Peer) => !p.is_established) (fun _ p hp => ?_) m.sessions
  rw [Bool.not_eq_true', Peer.is_established]
  exact PeerState.not_established_of_pending hp

/-- The round gets to the line where the count is decremented. -/
def ReceiveDecrements (codecs : Codecs) (intercept : Interceptor I) (time : Instant) (m : SessionManager Peer I)
    (d : IncomingDatagram) : Prop :=
  ∃ payload s actions s', m.passes intercept d = some payload ∧ m.sessions.lookup d.address = some s ∧
    s.process_packet codecs payload time d.draw = .ok (actions, s') ∧ s.is_established = false ∧
    s'.is_established = true

/-- So does the round of a user event. -/
def SendDecrements (codecs : Codecs) (m : SessionManager Peer I) (e : UserEvent) : Prop :=
  ∃ s actions s', m.sessions.lookup e.event.addr = some s ∧ s.process_event codecs e.event = .ok (actions, s') ∧
    s.is_established = false ∧ s'.is_established = true

/-- There is a session to be taken off. -/
theorem ReceiveDecrements.pending (h : ReceiveDecrements codecs intercept time m d) : 0 < m.pending_count := by
  obtain ⟨payload, s, actions, s', -, hl, hp, hs, hs'⟩ := h
  have hpending := (Peer.process_packet_forward hp).establishes hs hs'
  have hweight := weight_le_count (fun _ (p : Peer) => p.state.pending) m.sessions d.address
  rw [weight_of_some hl, hpending] at hweight
  exact hweight

theorem not_sendDecrements (m : SessionManager Peer I) (e : UserEvent) : ¬ SendDecrements codecs m e := by
  rintro ⟨s, actions, s', -, hp, hs, hs'⟩
  rw [Peer.process_event_established hp, hs] at hs'
  cases hs'

/-- A round keeps count of the sessions yet to be established, at least. -/
theorem receive_pending (state : Nat × SessionManager Peer I) (d : IncomingDatagram)
    (state' : Nat × SessionManager Peer I) (h : state.2.pending_count ≤ state.1)
    (hr : receive (Peer.session codecs) intercept time state d = .ok state') : state'.2.pending_count ≤ state'.1 := by
  obtain ⟨n, m⟩ := state
  obtain ⟨n', m'⟩ := state'
  replace h : m.pending_count ≤ n := h
  change m'.pending_count ≤ n'
  have hinsert := count_insert (fun _ (p : Peer) => p.state.pending) m.sessions d.address
  unfold pending_count at h ⊢
  rcases (receive_dispatched hr).1 with ⟨-, rfl, hs⟩ | ⟨payload, -, hd⟩
  · rw [hs]
    exact h
  cases hd with
  | @known s s' actions hl hp hn hs =>
    have hcount := hinsert s'
    have hpending := (Peer.process_packet_forward hp).pending_toNat
    have hrecount : n' + (!s.state.is_established && s'.state.is_established).toNat = n := recount_eq_ok hn
    rw [weight_of_some hl] at hcount
    rw [hs]
    omega
  | @admitted s' actions hl hp ha hn hs =>
    have hcount := hinsert s'
    rw [weight_of_none hl] at hcount
    have hone : (s'.state.pending).toNat ≤ 1 := Bool.toNat_le _
    rw [hs, hn]
    omega
  | refused hl ha hn hs =>
    rw [hs, hn]
    exact h

/-- `unestablished_sessions -= 1` is never reached with a count of zero: not by
a datagram, and by a user event not at all. -/
theorem unestablished_count_pos (codecs : Codecs) (intercept : Interceptor I) (m : SessionManager Peer I) (poll : Poll) :
    (∀ n r d, ((n, r), d) ∈ m.poll_rounds (Peer.session codecs) intercept poll →
      ReceiveDecrements codecs intercept poll.time r d → 0 < n) ∧
    (∀ state n r e, m.after_datagrams (Peer.session codecs) intercept poll = .ok state →
      ((n, r), e) ∈ loop_rounds (send_user_event (Peer.session codecs) poll.time) state poll.user_events →
      SendDecrements codecs r e → 0 < n) := by
  refine ⟨fun n r d hround hd => ?_, fun state n r e _ _ hd => absurd hd (not_sendDecrements r e)⟩
  rw [poll_rounds] at hround
  have hcount := loop_rounds_invariant (I := fun state => state.2.pending_count ≤ state.1) receive_pending
    (pending_count_le codecs m) _ hround
  exact Nat.lt_of_lt_of_le hd.pending hcount

/-- A datagram that opens a session, and a `Connect` that establishes it. -/
def two_datagrams : Poll := { poll_of (letter (.Connect 1 1400 1 7 9)) with
  datagrams := [{ letter (.Connect 1 1400 1 7 9) with payload := [] }, letter (.Connect 1 1400 1 7 9)] }

theorem unestablished_count_pos_connect :
    ∃ n r, ((n, r), letter (.Connect 1 1400 1 7 9)) ∈
        poll_rounds (Peer.session .checked) .no_op (.new .default ()) two_datagrams ∧
      ReceiveDecrements .checked .no_op 0 r (letter (.Connect 1 1400 1 7 9)) ∧ 0 < n := by
  obtain ⟨state, hstate⟩ : ∃ state, receive (Peer.session .checked) .no_op 0 (0, .new .default ())
      { letter (.Connect 1 1400 1 7 9) with payload := [] } = .ok state := ⟨_, rfl⟩
  have hround : (state, letter (.Connect 1 1400 1 7 9)) ∈
      poll_rounds (Peer.session .checked) .no_op (.new .default ()) two_datagrams := by
    rw [poll_rounds_two rfl hstate]
    exact List.mem_cons_of_mem _ List.mem_cons_self
  obtain ⟨s, hs, hsession⟩ : ∃ s, state.2.sessions.lookup ⟨.V4 1, 5⟩ = some s ∧
      s = newcomer .default 0 (letter (.Ping 0)) := by
    cases hstate
    exact ⟨_, rfl, rfl⟩
  obtain ⟨⟨actions, s'⟩, hs', hout⟩ := exists_ok
    (x := (newcomer .default 0 (letter (.Ping 0))).process_packet .checked
      (Peer.datagram_of (.Connect 1 1400 1 7 9)) 0 0) (p := fun out => out.2.is_established) (by decide +kernel)
  have hdecrements : ReceiveDecrements .checked .no_op 0 state.2 (letter (.Connect 1 1400 1 7 9)) :=
    ⟨_, s, actions, s', rfl, hs, hsession ▸ hs', hsession ▸ rfl, hout⟩
  exact ⟨state.1, state.2, hround, hdecrements,
    (unestablished_count_pos .checked .no_op (.new .default ()) two_datagrams).1 _ _ _ hround hdecrements⟩

end Pending

/-! ## The count drifts -/

section Drift

variable {I : Type} {intercept : Interceptor I} {codecs : Codecs} {m m' : SessionManager Peer I} {n n' : Nat}
  {d : IncomingDatagram} {payload : Bytes} {time : Instant}

/-- The datagram is not empty and opens to a packet with `P`. -/
def opens_with (codecs : Codecs) (config : Config) (payload : Bytes) (P : CommandPacket → Bool) : Bool :=
  !payload.isEmpty &&
    match Peer.open_datagram codecs config payload with
    | .ok packet => P packet
    | .error _ => false

theorem opens_with_iff {config : Config} {P : CommandPacket → Bool} :
    opens_with codecs config payload P = true ↔
      payload ≠ [] ∧ ∃ packet, Peer.open_datagram codecs config payload = .ok packet ∧ P packet = true := by
  unfold opens_with
  rw [Bool.and_eq_true, Bool.not_eq_true', List.isEmpty_eq_false_iff]
  apply and_congr_right
  intro _
  cases Peer.open_datagram codecs config payload with
  | error e => simp
  | ok packet => simp

theorem opens_with_of_ok {config : Config} {packet : CommandPacket} (hne : payload ≠ [])
    (ho : Peer.open_datagram codecs config payload = .ok packet) (P : CommandPacket → Bool) :
    opens_with codecs config payload P = P packet := by
  rw [opens_with, ho]
  simp [hne]

/-- The round lets in a session that its first datagram establishes: the address
had none and has one after the round. -/
def admits_established (codecs : Codecs) (intercept : Interceptor I) (time : Instant)
    (x : (Nat × SessionManager Peer I) × IncomingDatagram) : Bool :=
  match x.1.2.passes intercept x.2, receive (Peer.session codecs) intercept time x.1 x.2 with
  | some payload, .ok state =>
    (x.1.2.sessions.lookup x.2.address).isNone && (state.2.sessions.lookup x.2.address).isSome &&
      opens_with codecs x.1.2.config payload fun packet =>
        Peer.establishes x.1.2.config.use_connection_handshake packet.commands
  | _, _ => false

/-- The round brings an established session a `Disconnect`. -/
def disestablishes (codecs : Codecs) (intercept : Interceptor I) (time : Instant)
    (x : (Nat × SessionManager Peer I) × IncomingDatagram) : Bool :=
  match x.1.2.passes intercept x.2, x.1.2.sessions.lookup x.2.address with
  | some payload, some s =>
    s.is_established && (s.update_bandwidth_window time).can_receive_within_bandwidth &&
      opens_with codecs s.config payload fun packet => packet.commands.any is_disconnect
  | _, _ => false

/-- When a new session is established by its first datagram. -/
theorem newcomer_established {config : Config} {actions : List Action} {s : Peer}
    (h : (newcomer config time d).process_packet codecs payload time d.draw = .ok (actions, s)) :
    s.is_established = opens_with codecs config payload fun packet =>
      Peer.establishes config.use_connection_handshake packet.commands := by
  rcases Peer.process_packet_cases h with ⟨-, hm, hnot⟩ | ⟨packet, r, packets, ht, -, -, hm⟩
  · have hclosed : ¬ opens_with codecs config payload (fun packet =>
        Peer.establishes config.use_connection_handshake packet.commands) = true := by
      intro ho
      obtain ⟨hne, packet, ho, -⟩ := opens_with_iff.1 ho
      have htaken : Peer.Taken codecs (newcomer config time d) payload time packet :=
        ⟨hne, Peer.new_can_receive d.address config time d.ids, ho⟩
      exact absurd (hnot packet htaken) (by simp [newcomer, Peer.new])
    rw [Peer.is_established, hm.state, eq_false_of_ne_true hclosed]
    rfl
  · have ho : Peer.open_datagram codecs config payload = .ok packet := ht.opened
    rw [Peer.is_established, hm.state, opens_with_of_ok ht.nonempty ho]
    exact Peer.established_idle config.use_connection_handshake packet.commands

/-- When an established session is no longer so after a datagram. -/
theorem established_stays {actions : List Action} {s s' : Peer} (hs : s.is_established = true)
    (h : s.process_packet codecs payload time d.draw = .ok (actions, s')) :
    s'.is_established = !((s.update_bandwidth_window time).can_receive_within_bandwidth &&
      opens_with codecs s.config payload fun packet => packet.commands.any is_disconnect) := by
  have hsettled : s.state ≠ .Idle ∧ s.state ≠ .Connecting := by
    constructor
    · intro he
      rw [Peer.is_established, he] at hs
      cases hs
    · intro he
      rw [Peer.is_established, he] at hs
      cases hs
  rcases Peer.process_packet_cases h with ⟨-, hm, hnot⟩ | ⟨packet, r, packets, ht, -, -, hm⟩
  · have hclosed : ¬ ((s.update_bandwidth_window time).can_receive_within_bandwidth && opens_with codecs s.config payload
        fun packet => packet.commands.any is_disconnect) = true := by
      intro ho
      rw [Bool.and_eq_true] at ho
      obtain ⟨hne, packet, hopen, -⟩ := opens_with_iff.1 ho.2
      exact hsettled.2 (hnot packet ⟨hne, ho.1, hopen⟩)
    rw [Peer.is_established, hm.state, eq_false_of_ne_true hclosed]
    exact hs
  · rw [Peer.is_established, hm.state, ht.bandwidth, opens_with_of_ok ht.nonempty ht.opened, Bool.true_and]
    cases hd : packet.commands.any is_disconnect with
    | true =>
      rw [PeerState.after_commands_disconnect hd]
      rfl
    | false =>
      rw [PeerState.after_commands_settled hsettled.1 hsettled.2 hd, PeerState.after_recv_of_established _ hs]
      exact hs

/-- What a round adds to the count, and what to the sessions it counts. -/
theorem receive_drift (h : receive (Peer.session codecs) intercept time (n, m) d = .ok (n', m')) :
    n' + m.unestablished_session_count (Peer.session codecs) +
        (disestablishes codecs intercept time ((n, m), d)).toNat =
      n + m'.unestablished_session_count (Peer.session codecs) +
        (admits_established codecs intercept time ((n, m), d)).toNat := by
  have hinsert := count_insert (fun _ (p : Peer) => !p.is_established) m.sessions d.address
  have hcount : ∀ m : SessionManager Peer I, m.unestablished_session_count (Peer.session codecs) =
      count (fun _ (p : Peer) => !p.is_established) m.sessions := fun _ => rfl
  rw [hcount m, hcount m']
  rcases (receive_dispatched h).1 with ⟨hp, rfl, hs⟩ | ⟨payload, hp, hd⟩
  · rw [hs]
    simp [disestablishes, admits_established, hp]
  cases hd with
  | @known s s' actions hl hprocess hn hs =>
    have hadd := hinsert s'
    have hrecount : n' + (!s.is_established && s'.is_established).toNat = n := recount_eq_ok hn
    rw [weight_of_some hl] at hadd
    have hadmits : admits_established codecs intercept time ((n, m), d) = false := by
      simp [admits_established, hp, hl, h]
    have hdis : disestablishes codecs intercept time ((n, m), d) = (s.is_established && !s'.is_established) := by
      simp only [disestablishes, hp, hl]
      cases he : s.is_established with
      | false => rfl
      | true =>
        rw [established_stays he hprocess]
        simp
    rw [hs, hadmits, hdis]
    cases he : s.is_established <;> cases he' : s'.is_established <;> simp [he, he'] at hadd hrecount ⊢ <;> omega
  | @admitted s' actions hl hprocess ha hn hs =>
    have hadd := hinsert s'
    rw [weight_of_none hl] at hadd
    have hdis : disestablishes codecs intercept time ((n, m), d) = false := by
      simp [disestablishes, hp, hl]
    have hadmits : admits_established codecs intercept time ((n, m), d) = s'.is_established := by
      rw [newcomer_established hprocess]
      simp [admits_established, hp, hl, h, hs]
    rw [hs, hadmits, hdis, hn]
    cases he' : s'.is_established <;> simp [he'] at hadd ⊢ <;> omega
  | refused hl ha hn hs =>
    rw [hs, hn]
    simp [disestablishes, admits_established, hp, hl, h, hs]

/-- All of a poll's rounds so far. -/
theorem poll_rounds_drift {poll : Poll} {before after : List ((Nat × SessionManager Peer I) × IncomingDatagram)}
    (h : m.poll_rounds (Peer.session codecs) intercept poll = before ++ ((n, m'), d) :: after) :
    n + before.countP (disestablishes codecs intercept poll.time) =
        m'.unestablished_session_count (Peer.session codecs) +
          before.countP (admits_established codecs intercept poll.time) ∧
      m'.max_unestablished_sessions = m.max_unestablished_sessions := by
  rw [poll_rounds] at h
  have hrun := run_of_loop_rounds h
  generalize hstate : (n, m') = state at hrun
  rw [show n = state.1 from congrArg Prod.fst hstate, show m' = state.2 from congrArg Prod.snd hstate]
  clear h hstate
  induction hrun with
  | start => exact ⟨rfl, rfl⟩
  | @next before t d u _ hr ih =>
    obtain ⟨n, m₁⟩ := t
    obtain ⟨n', m₂⟩ := u
    have hdrift := receive_drift hr
    refine ⟨?_, (receive_dispatched hr).2.trans ih.2⟩
    have hbefore := ih.1
    simp only [List.countP_append, List.countP_singleton] at hbefore ⊢
    cases hdis : disestablishes codecs intercept poll.time ((n, m₁), d) <;>
      cases hadm : admits_established codecs intercept poll.time ((n, m₁), d) <;> simp [hdis, hadm] at hdrift ⊢ <;> omega

/-- A datagram from a new address whose IP may have one session more. -/
structure Applies (intercept : Interceptor I) (m : SessionManager Peer I) (d : IncomingDatagram) : Prop where
  passes : m.passes intercept d ≠ none
  unknown : m.sessions.lookup d.address = none
  accepted : m.can_accept_duplicate d.address = true

/-- The address has no session after the round. -/
def TurnedAway (codecs : Codecs) (intercept : Interceptor I) (time : Instant) (n : Nat) (m : SessionManager Peer I)
    (d : IncomingDatagram) : Prop :=
  ∃ n' m', receive (Peer.session codecs) intercept time (n, m) d = .ok (n', m') ∧ m'.sessions.lookup d.address = none

theorem turnedAway_iff (h : Applies intercept m d) :
    TurnedAway codecs intercept time n m d ↔ m.max_unestablished_sessions.toNat ≤ n := by
  obtain ⟨payload, hp⟩ := Option.ne_none_iff_exists'.1 h.passes
  have hadmits : m.admits n d.address = decide (n < m.max_unestablished_sessions.toNat) := by
    rw [admits, h.accepted, Bool.and_true]
  constructor
  · rintro ⟨n', m', hr, hnone⟩
    rcases (receive_dispatched hr).1 with ⟨hp', -⟩ | ⟨payload', -, hd⟩
    · exact absurd hp' h.passes
    cases hd with
    | known hl _ _ _ =>
      rw [h.unknown] at hl
      cases hl
    | admitted hl _ _ _ hs =>
      rw [hs, AList.lookup_insert] at hnone
      cases hnone
    | refused _ ha _ _ =>
      rw [hadmits] at ha
      simpa using ha
  · intro hn
    have hidle : (newcomer m.config time d).state ≠ .Connecting := by simp [newcomer, Peer.new]
    obtain ⟨actions, s, hs⟩ := Peer.process_packet_total codecs hidle payload time d.draw
    have hrefused : Refused intercept n m d payload := ⟨hp, h.unknown, by rw [hadmits]; simpa using hn⟩
    obtain ⟨m', hm', ht⟩ := receive_refused hrefused hs
    exact ⟨n, m', hm', ht.after⟩

/-- An address within its limit is turned away only at the limit of
unestablished sessions, except if sessions that were established at once have
been let in by the same poll and are counted. -/
theorem turned_away_at_limit_iff (codecs : Codecs) (intercept : Interceptor I) (m : SessionManager Peer I) (poll : Poll)
    {before after : List ((Nat × SessionManager Peer I) × IncomingDatagram)} {n : Nat} {r : SessionManager Peer I}
    {d : IncomingDatagram}
    (hround : m.poll_rounds (Peer.session codecs) intercept poll = before ++ ((n, r), d) :: after)
    (h : Applies intercept r d) :
    (TurnedAway codecs intercept poll.time n r d →
      m.max_unestablished_sessions.toNat ≤ r.unestablished_session_count (Peer.session codecs)) ↔
    (m.max_unestablished_sessions.toNat ≤ r.unestablished_session_count (Peer.session codecs) ∨
      r.unestablished_session_count (Peer.session codecs) +
          before.countP (admits_established codecs intercept poll.time) <
        m.max_unestablished_sessions.toNat + before.countP (disestablishes codecs intercept poll.time)) := by
  obtain ⟨hdrift, hmax⟩ := poll_rounds_drift hround
  rw [turnedAway_iff h, hmax]
  omega

/-- One unestablished session at most. -/
def narrow_config : Config := { Config.default with max_unestablished_connections := 1 }

def narrow_manager : SessionManager Peer Unit := .new narrow_config ()

/-- A `Connect` from a second address. -/
def second_letter : IncomingDatagram := { letter (.Connect 1 1400 1 7 9) with address := ⟨.V4 2, 5⟩ }

/-- Two addresses send a datagram each. -/
def two_newcomers (first : ProtocolCommand) : Poll := { poll_of (letter first) with
  datagrams := [letter first, second_letter] }

/-- The first datagram leads to a state with this many unestablished sessions
that turns the second one away. -/
def turns_second_away (first : ProtocolCommand) (count : Nat) : Bool :=
  (receive (Peer.session .checked) .no_op 0 (0, narrow_manager) (letter first)).toOption.any fun state =>
    state.2.unestablished_session_count (Peer.session .checked) == count &&
      (state.2.passes .no_op second_letter).isSome && (state.2.sessions.lookup second_letter.address).isNone &&
      state.2.can_accept_duplicate second_letter.address &&
      (receive (Peer.session .checked) .no_op 0 state second_letter).toOption.any fun state' =>
        (state'.2.sessions.lookup second_letter.address).isNone

theorem second_turned_away {first : ProtocolCommand} {count : Nat} (h : turns_second_away first count = true) :
    ∃ n r, narrow_manager.poll_rounds (Peer.session .checked) .no_op (two_newcomers first) =
        [((0, narrow_manager), letter first)] ++ ((n, r), second_letter) :: [] ∧
      Applies .no_op r second_letter ∧ TurnedAway .checked .no_op 0 n r second_letter ∧
      r.unestablished_session_count (Peer.session .checked) = count := by
  obtain ⟨⟨n, r⟩, hr, hout⟩ := exists_ok h
  simp only [Bool.and_eq_true, beq_iff_eq, Option.isNone_iff_eq_none] at hout
  obtain ⟨⟨⟨⟨hcount, hpasses⟩, hunknown⟩, haccepted⟩, haway⟩ := hout
  obtain ⟨⟨n', r'⟩, hr', hnone⟩ := exists_ok haway
  exact ⟨n, r, poll_rounds_two rfl hr, ⟨Option.isSome_iff_ne_none.1 hpasses, hunknown, haccepted⟩,
    ⟨n', r', hr', Option.isNone_iff_eq_none.1 hnone⟩, hcount⟩

/-- After a ping the place is taken, and a second address is turned away. -/
theorem turned_away_at_limit_second :
    ∃ n r, narrow_manager.poll_rounds (Peer.session .checked) .no_op (two_newcomers (.Ping 5)) =
        [((0, narrow_manager), letter (.Ping 5))] ++ ((n, r), second_letter) :: [] ∧
      Applies .no_op r second_letter ∧
      (TurnedAway .checked .no_op 0 n r second_letter ∧
        1 ≤ r.unestablished_session_count (Peer.session .checked)) := by
  obtain ⟨n, r, hround, happlies, haway, hcount⟩ := second_turned_away
    (show turns_second_away (.Ping 5) 1 = true by decide +kernel)
  exact ⟨n, r, hround, happlies, haway,
    (turned_away_at_limit_iff .checked .no_op narrow_manager (two_newcomers (.Ping 5)) hround happlies).2
      (.inl (Nat.le_of_eq hcount.symm)) haway⟩

/-- After a `Connect` it is, too, with no unestablished session there. -/
theorem turned_away_below_limit :
    ∃ before after n r d, narrow_manager.poll_rounds (Peer.session .checked) .no_op
        (two_newcomers (.Connect 1 1400 1 7 9)) = before ++ ((n, r), d) :: after ∧
      Applies .no_op r d ∧ TurnedAway .checked .no_op 0 n r d ∧
      r.unestablished_session_count (Peer.session .checked) = 0 ∧ narrow_manager.max_unestablished_sessions = 1 := by
  obtain ⟨n, r, hround, happlies, haway, hcount⟩ := second_turned_away
    (show turns_second_away (.Connect 1 1400 1 7 9) 0 = true by decide +kernel)
  exact ⟨_, _, n, r, _, hround, happlies, haway, hcount, rfl⟩

end Drift

end SessionManager

end Bitfold
