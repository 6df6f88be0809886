import Bitfold.Lifecycle
/-!
# Announcing a session

A session is announced by a `Connect` event when it becomes established. The
event rests on a comparison inside `record_recv`, before and after it changes
the state. A `VerifyConnect` establishes the session earlier, while its
datagram is processed, and nobody notices.
-/

namespace Bitfold

open Lib

/-- Is it a `Connect` event? -/
def is_connect_event : Action → Bool
  | .Emit (.Connect _) => true
  | _ => false

namespace Peer

variable {p q : Peer} {codecs : Codecs} {t : Instant} {draw : UInt16} {actions : List Action} {payload : Bytes}

/-- One `Connect` event if the session became established, and none otherwise. -/
def Announced (p : Peer) (actions : List Action) (q : Peer) : Prop :=
  actions.countP is_connect_event = if p.is_established = false ∧ q.is_established = true then 1 else 0

/-- A connecting session takes the datagram, finds the answer to its `Connect`
in it, and is not disconnected by the rest. -/
def Answered (codecs : Codecs) (p : Peer) (payload : Bytes) (t : Instant) : Prop :=
  p.state = .Connecting ∧ ∃ packet before pid chs m isid w after, Taken codecs p payload t packet ∧
    packet.commands = before ++ .VerifyConnect pid chs m isid p.outgoing_session_id w :: after ∧
    (∀ c ∈ before, decides c = false) ∧ after.any is_disconnect = false

/-! ## Events of a datagram -/

theorem countP_connect_event (announced : Bool) (addr : SocketAddr) (packets : IncomingPackets) :
    (connect_event announced addr ++ packet_events packets).countP is_connect_event = announced.toNat := by
  have hpackets : (packet_events packets).countP is_connect_event = 0 := by
    rw [List.countP_eq_zero]
    intro a ha
    obtain ⟨incoming, -, rfl⟩ := List.mem_map.1 ha
    simp [is_connect_event]
  rw [List.countP_append, hpackets]
  cases announced <;> rfl

theorem OnlySends.countP_connect_event (h : OnlySends actions) : actions.countP is_connect_event = 0 := by
  rw [List.countP_eq_zero]
  intro a ha
  obtain ⟨bytes, rfl⟩ := h a ha
  simp [is_connect_event]

/-- A step that leaves the state alone announces nothing and has nothing to
announce. -/
theorem announced_of_stays (hm : Moves p q p.state) (h : actions.countP is_connect_event = 0) :
    Announced p actions q := by
  rw [Announced, if_neg hm.stays, h]

/-- The state a datagram leads to that is processed to the end, wherever the
session goes if it is not. -/
theorem process_packet_taken {packet : CommandPacket} (ht : Taken codecs p payload t packet)
    (h : p.process_packet codecs payload t draw = .ok (actions, q)) :
    (∃ r e, process_commands t draw packet.commands (p.taking t payload.length) [] = .ok (r, .error e)) ∨
    q.state = (p.state.after_commands packet.commands).after_recv p.config.use_connection_handshake := by
  have hopened : open_datagram codecs (p.counted t payload.length).config payload = .ok packet := by
    rw [counted_config]
    exact ht.opened
  have hprocess := process_packet_processes ht.nonempty ht.bandwidth h
  rw [process_command_packet_opened hopened, show (p.counted t payload.length).received payload.length =
    p.taking t payload.length from rfl] at hprocess
  rcases hprocess with ⟨e, hc, -⟩ | ⟨r, packets, hc, -, rfl⟩
  · exact .inl ⟨q, e, hc⟩
  · have hm := (moves_taking p t payload.length).trans (process_commands_moves hc)
    rw [(record_recv_moves r).2.state, hm.state, hm.handshake, (moves_taking p t payload.length).state]
    exact .inr rfl

/-! ## The answer to a `Connect` -/

theorem undecided_any {cmds : List ProtocolCommand} (h : ∀ c ∈ cmds, decides c = false) :
    cmds.any is_disconnect = false ∧ cmds.any is_verify_connect = false := by
  rw [List.any_eq_false, List.any_eq_false]
  refine ⟨fun c hc hd => ?_, fun c hc hv => ?_⟩
  · have := h c hc
    cases c with
    | Disconnect n => cases this
    | _ => cases hd
  · have := h c hc
    cases c with
    | VerifyConnect pid chs m isid osid w => cases this
    | _ => cases hv

/-- The answer to its `Connect` establishes a client. -/
theorem after_commands_answered {before after : List ProtocolCommand} (hb : ∀ c ∈ before, decides c = false)
    (ha : after.any is_disconnect = false) (pid : UInt16) (chs : UInt8) (m isid osid : UInt16) (w : UInt32) :
    PeerState.Connecting.after_commands (before ++ .VerifyConnect pid chs m isid osid w :: after) =
      .ConnectionSucceeded := by
  obtain ⟨hd, hv⟩ := undecided_any hb
  have hbefore := after_commands_connecting hd hv
  rw [PeerState.after_commands] at hbefore ⊢
  rw [List.foldl_append, hbefore]
  exact PeerState.after_commands_settled (s := .ConnectionSucceeded) (by decide) (by decide) ha

theorem Answered.established (h : Answered codecs p payload t)
    (hp : p.process_packet codecs payload t draw = .ok (actions, q)) :
    p.is_established = false ∧ q.is_established = true ∧ actions.countP is_connect_event = 0 := by
  obtain ⟨hs, packet, before, pid, chs, m, isid, w, after, ht, hcmds, hb, ha⟩ := h
  have hstate : p.state.after_commands packet.commands = .ConnectionSucceeded := by
    rw [hs, hcmds]
    exact after_commands_answered hb ha ..
  refine ⟨by rw [is_established, hs]; rfl, ?_, ?_⟩
  · rcases process_packet_taken ht hp with ⟨r, e, he⟩ | hq
    · -- a datagram fails only at the answer to someone else
      exfalso
      obtain ⟨-, before', pid', isid', w', ⟨chs', m', osid', after', hsplit, hne⟩, hb'⟩ := process_commands_error he
      have hfirst : packet.commands.find? decides = some (.VerifyConnect pid chs m isid p.outgoing_session_id w) :=
        List.find?_eq_some_iff_append.2 ⟨rfl, before, after, hcmds, by simpa using hb⟩
      have hfirst' : packet.commands.find? decides = some (.VerifyConnect pid' chs' m' isid' osid' w') :=
        List.find?_eq_some_iff_append.2 ⟨rfl, before', after', hsplit, by simpa using hb'⟩
      rw [hfirst] at hfirst'
      cases hfirst'
      exact hne rfl
    · rw [is_established, hq, hstate]
      rfl
  · rcases process_packet_cases hp with ⟨rfl, -⟩ | ⟨packet', r, packets, ht', -, rfl, -⟩
    · rfl
    · have hsame := ht'.opened.symm.trans ht.opened
      cases hsame
      rw [countP_connect_event, hstate]
      rfl

theorem sameSession_taking (p : Peer) (t : Instant) (len : Nat) : SameSession p (p.taking t len) := by
  unfold taking counted received update_bandwidth_window record_bytes_received record_data_received
    record_packet_received
  exact ⟨rfl, rfl, rfl, rfl, rfl, ⟨_, _, rfl⟩, rfl⟩

/-- Only the answer to its `Connect` establishes a session while commands are
processed. -/
theorem answered_of_established {packet : CommandPacket} {r : Peer} {packets : IncomingPackets}
    (ht : Taken codecs p payload t packet)
    (hr : process_commands t draw packet.commands (p.taking t payload.length) [] = .ok (r, .ok packets))
    (hp : p.is_established = false) (hs : (p.state.after_commands packet.commands).is_established = true) :
    Answered codecs p payload t := by
  have hd : packet.commands.any is_disconnect = false := by
    rw [← Bool.not_eq_true]
    intro hd
    rw [PeerState.after_commands_disconnect hd] at hs
    cases hs
  by_cases hidle : p.state = .Idle
  · rw [hidle, PeerState.after_commands_idle hd] at hs
    split at hs
    · cases hs
    · cases hs
  by_cases hconnecting : p.state = .Connecting
  · refine ⟨hconnecting, packet, ?_⟩
    cases hf : packet.commands.find? decides with
    | none =>
      rw [List.find?_eq_none] at hf
      rw [hconnecting, after_commands_connecting hd (undecided_any (by simpa using hf)).2] at hs
      cases hs
    | some c =>
      obtain ⟨hc, before, after, hcmds, hb⟩ := List.find?_eq_some_iff_append.1 hf
      have hun : ∀ c ∈ before, decides c = false := by simpa using hb
      rw [hcmds, List.any_append, List.any_cons, Bool.or_eq_false_iff, Bool.or_eq_false_iff] at hd
      cases c with
      | Disconnect n => cases hd.2.1
      | VerifyConnect pid chs m isid osid w =>
        by_cases ho : osid = p.outgoing_session_id
        · subst ho
          exact ⟨before, pid, chs, m, isid, w, after, ht, hcmds, hun, hd.2.2⟩
        · -- any other answer makes the datagram fail
          have hsame := sameSession_taking p t payload.length
          rw [← hsame.outgoing] at ho
          obtain ⟨_, _, -, -, hfails⟩ := process_commands_mismatch (hsame.state.trans hconnecting)
            ⟨⟨chs, m, osid, after, hcmds, ho⟩, hun⟩ t draw
          rw [hfails] at hr
          obtain ⟨f, -, he⟩ := map_eq_ok hr
          cases he
      | _ => cases hc
  · rw [PeerState.after_commands_settled hidle hconnecting hd] at hs
    rw [is_established, hs] at hp
    cases hp

/-- A session is announced exactly when it becomes established, unless it is by
the answer to its `Connect`. -/
theorem connect_on_establishment_iff (codecs : Codecs) (p : Peer) :
    (∀ payload t draw actions q, p.process_packet codecs payload t draw = .ok (actions, q) →
      (Announced p actions q ↔ ¬ Answered codecs p payload t)) ∧
    ∀ event actions q, p.process_event codecs event = .ok (actions, q) → Announced p actions q := by
  refine ⟨fun payload t draw actions q h => ⟨fun ha hanswered => ?_, fun hnot => ?_⟩, fun event actions q h => ?_⟩
  · obtain ⟨hp, hq, hcount⟩ := hanswered.established h
    rw [Announced, if_pos ⟨hp, hq⟩, hcount] at ha
    cases ha
  · rcases process_packet_cases h with ⟨rfl, hm, -⟩ | ⟨packet, r, packets, ht, hr, rfl, hm⟩
    · exact announced_of_stays hm rfl
    · have hinside := fun hp => mt (answered_of_established ht hr hp) hnot
      rw [Announced, countP_connect_event, is_established, is_established, hm.state, PeerState.announces]
      rw [is_established] at hinside
      generalize hs' : p.state.after_commands packet.commands = s' at hinside ⊢
      cases hp : p.state.is_established with
      | false =>
        rw [eq_false_of_ne_true (hinside hp)]
        cases (s'.after_recv p.config.use_connection_handshake).is_established <;> rfl
      | true =>
        -- an established session stays so, or is disconnected
        have hagrees : s' = p.state ∨ s' = .Zombie := by
          have hne : p.state ≠ .Idle ∧ p.state ≠ .Connecting := by
            constructor <;> (intro he; rw [he] at hp; cases hp)
          cases hd : packet.commands.any is_disconnect with
          | true => exact .inr (hs' ▸ PeerState.after_commands_disconnect hd _)
          | false => exact .inl (hs' ▸ PeerState.after_commands_settled hne.1 hne.2 hd)
        rcases hagrees with rfl | rfl
        · simp [hp]
        · rfl
  · obtain ⟨hsends, -⟩ := process_event_moves h
    rw [Announced, hsends.countP_connect_event, if_neg]
    rintro ⟨hp, hq⟩
    rw [process_event_established h, hp] at hq
    cases hq

/-- A client that has sent its `Connect`, under id 7. -/
def connecting_client : Peer := (Peer.new ⟨.V4 0, 0⟩ Config.default 0 ⟨7, 0, 0⟩).initiate_connect

/-- The answer establishes it, and there is no event at all. -/
theorem answer_not_announced :
    ∃ actions q, connecting_client.process_packet .checked (datagram_of (.VerifyConnect 1 1 1400 7 7 512)) 0 0 =
        .ok (actions, q) ∧
      connecting_client.is_established = false ∧ q.is_established = true ∧ actions = [] ∧
      ¬ Announced connecting_client actions q := by
  obtain ⟨⟨actions, q⟩, hq, h⟩ := exists_ok
    (x := connecting_client.process_packet .checked (datagram_of (.VerifyConnect 1 1 1400 7 7 512)) 0 0)
    (p := fun out => out.2.is_established && out.1.isEmpty) (by decide +kernel)
  obtain ⟨hest, hnone⟩ : q.is_established = true ∧ actions = [] := by simpa using h
  refine ⟨actions, q, hq, rfl, hest, hnone, fun h => ?_⟩
  rw [Announced, if_pos ⟨rfl, hest⟩, hnone] at h
  cases h

end Peer

end Bitfold
