import Bitfold.Connection
import Bitfold.Datagrams
/-!
# Datagrams that fail

A datagram that cannot be opened leaves the peer alone. One that can fails
only in a connecting peer, at a `VerifyConnect` with another id than its own,
and by then the commands before it have been processed and the session has
been taken over from it.
-/

namespace Bitfold

open Lib ProtocolCommand

/-- What deliveries and the session rest on. -/
structure DeliveryState where
  channel_states : Std.ExtTreeMap UInt8 ChannelState
  command_fragments : Std.ExtTreeMap UInt16 CommandFragmentBuffer
  unsequenced_state : UnsequencedState
  acknowledge_handler : AcknowledgmentHandler
  incoming_session_id : UInt16
  outgoing_session_id : UInt16
  peer_id : UInt16
  window_size : UInt32
  state : PeerState

namespace Peer

variable {p q : Peer} {t : Instant} {draw : UInt16} {cmds : List ProtocolCommand} {acc : IncomingPackets}

def delivery_state (p : Peer) : DeliveryState where
  channel_states := p.channel_states
  command_fragments := p.command_fragments
  unsequenced_state := p.unsequenced_state
  acknowledge_handler := p.acknowledge_handler
  incoming_session_id := p.incoming_session_id
  outgoing_session_id := p.outgoing_session_id
  peer_id := p.peer_id
  window_size := p.window_size
  state := p.state

/-! ## Where a datagram can fail -/

/-- A command that decides whether the peer stays connecting. -/
def decides : ProtocolCommand → Bool
  | .Disconnect _ | .VerifyConnect .. => true
  | _ => false

section Loop

variable {c : ProtocolCommand} {packets : IncomingPackets}

theorem process_commands_ok (h : p.process_command c t draw = .ok (q, .ok packets)) (cmds : List ProtocolCommand)
    (acc : IncomingPackets) :
    process_commands t draw (c :: cmds) p acc = process_commands t draw cmds q (acc ++ packets) := by
  rw [process_commands, h]

theorem process_commands_refuses {e : ErrorKind} (h : p.process_command c t draw = .ok (q, .error e))
    (cmds : List ProtocolCommand) (acc : IncomingPackets) :
    process_commands t draw (c :: cmds) p acc = .ok (q, .error e) := by
  rw [process_commands, h]

theorem process_commands_panics {e : Panic} (h : p.process_command c t draw = .error e)
    (cmds : List ProtocolCommand) (acc : IncomingPackets) :
    process_commands t draw (c :: cmds) p acc = .error e := by
  rw [process_commands, h]

/-- If a datagram succeeds, its first command did and then the rest. -/
theorem process_commands_cons {acc out : IncomingPackets}
    (h : process_commands t draw (c :: cmds) p acc = .ok (q, .ok out)) :
    ∃ r packets, p.process_command c t draw = .ok (r, .ok packets) ∧
      process_commands t draw cmds r (acc ++ packets) = .ok (q, .ok out) := by
  cases hc : p.process_command c t draw with
  | error e =>
    rw [process_commands_panics hc] at h
    cases h
  | ok x =>
    obtain ⟨r, result⟩ := x
    cases result with
    | error e =>
      rw [process_commands_refuses hc] at h
      cases h
    | ok packets =>
      rw [process_commands_ok hc] at h
      exact ⟨r, packets, rfl, h⟩

end Loop

/-- A connecting peer takes commands that decide nothing without an error. -/
theorem process_commands_undecided (hs : p.state = .Connecting) (hc : ∀ c ∈ cmds, decides c = false) (t : Instant)
    (draw : UInt16) :
    ∃ q packets, SameSession p q ∧ ∀ rest acc,
      process_commands t draw (cmds ++ rest) p acc = process_commands t draw rest q (acc ++ packets) := by
  induction cmds generalizing p with
  | nil => exact ⟨p, [], sameSession_refl p, by simp⟩
  | cons c cmds ih =>
    rw [List.forall_mem_cons] at hc
    have hno : ¬ p.Steers c := by
      cases c with
      | Disconnect n => exact absurd hc.1 (by simp [decides])
      | VerifyConnect pid chs m isid osid w => exact absurd hc.1 (by simp [decides])
      | Connect chs m v sid cid =>
        intro (hidle : p.state = .Idle)
        rw [hs] at hidle
        cases hidle
      | _ => exact id
    obtain ⟨q, packets, hq, hsame⟩ := process_command_other hno t draw
    obtain ⟨r, packets', hsame', hr⟩ := ih (hsame.state.trans hs) hc.2
    refine ⟨r, packets ++ packets', hsame.trans hsame', fun rest acc => ?_⟩
    rw [List.cons_append, process_commands_ok hq, hr, List.append_assoc]

/-- Only a connecting peer can fail. -/
theorem process_commands_of_not_connecting (hs : p.state ≠ .Connecting) (acc : IncomingPackets) :
    ∃ q packets, process_commands t draw cmds p acc = .ok (q, .ok packets) := by
  induction cmds generalizing p acc with
  | nil => exact ⟨p, _, rfl⟩
  | cons c cmds ih =>
    have hnext : ∃ q packets, p.process_command c t draw = .ok (q, .ok packets) ∧ q.state ≠ .Connecting := by
      by_cases hc : p.Steers c
      · cases c with
        | Disconnect n => exact ⟨_, _, rfl, by simp⟩
        | Connect chs m v sid cid =>
          have hidle : (p.heard t).state = .Idle := hc
          refine ⟨(p.heard t).process_connect chs sid cid draw, .zero, rfl, ?_⟩
          rw [process_connect, if_pos hidle]
          simp [push_command]
        | VerifyConnect pid chs m isid osid w => exact absurd hc hs
        | _ => exact absurd hc id
      · obtain ⟨q, packets, hq, hsame⟩ := process_command_other hc t draw
        exact ⟨q, packets, hq, by rw [hsame.state]; exact hs⟩
    obtain ⟨q, packets, hq, hqs⟩ := hnext
    obtain ⟨r, packets', hr⟩ := ih hqs (acc ++ packets)
    exact ⟨r, packets', by rw [process_commands_ok hq, hr]⟩

theorem process_commands_after {c : ProtocolCommand} {packets : IncomingPackets}
    (h : p.process_command c t draw = .ok (q, .ok packets)) (hq : q.state ≠ .Connecting) (cmds : List ProtocolCommand)
    (acc : IncomingPackets) (e : ErrorKind) {r : Peer} :
    process_commands t draw (c :: cmds) p acc ≠ .ok (r, .error e) := by
  obtain ⟨r', packets', hr⟩ := process_commands_of_not_connecting hq (acc ++ packets)
  rw [process_commands_ok h, hr]
  exact fun he => by cases he

/-- The first command that decides is a `VerifyConnect` with another id. -/
structure Mismatch (p : Peer) (cmds before : List ProtocolCommand) (pid isid : UInt16) (w : UInt32) : Prop where
  split : ∃ chs m osid after,
    cmds = before ++ .VerifyConnect pid chs m isid osid w :: after ∧ osid ≠ p.outgoing_session_id
  undecided : ∀ c ∈ before, decides c = false

theorem SameSession.negotiated (h : SameSession p q) (w : UInt32) :
    negotiated q.config q.flow_control w = Peer.negotiated p.config p.flow_control w := by
  obtain ⟨a, b, hc⟩ := h.config
  rw [hc, h.flow]
  rfl

/-- The peer when the datagram fails. -/
def refused (r : Peer) (pid isid : UInt16) (f : FlowControl) (t : Instant) : Peer :=
  { r.heard t with peer_id := pid, incoming_session_id := isid, flow_control := f }

/-- A mismatch stops the loop there, if the window can be negotiated. -/
theorem process_commands_mismatch (hs : p.state = .Connecting) {before : List ProtocolCommand} {pid isid : UInt16}
    {w : UInt32} (hm : Mismatch p cmds before pid isid w) (t : Instant) (draw : UInt16) :
    ∃ r packets, SameSession p r ∧ process_commands t draw before p [] = .ok (r, .ok packets) ∧
      ∀ acc, process_commands t draw cmds p acc =
        (negotiated p.config p.flow_control w).map fun f =>
          (r.refused pid isid f t, .error (.CouldNotReadHeader "Session ID mismatch")) := by
  obtain ⟨⟨chs, m, osid, after, rfl, hne⟩, hun⟩ := hm
  obtain ⟨r, packets, hsame, hr⟩ := process_commands_undecided hs hun t draw
  have hbefore : process_commands t draw before p [] = .ok (r, .ok packets) := by
    simpa [process_commands, IncomingPackets.many] using hr [] []
  refine ⟨r, packets, hsame, hbefore, fun acc => ?_⟩
  have hrs : (r.heard t).state = .Connecting := hsame.state.trans hs
  have hro : osid ≠ (r.heard t).outgoing_session_id := by
    change osid ≠ r.outgoing_session_id
    rwa [hsame.outgoing]
  have hv : r.process_command (.VerifyConnect pid chs m isid osid w) t draw =
      (negotiated p.config p.flow_control w).map fun f =>
        (r.refused pid isid f t, .error (.CouldNotReadHeader "Session ID mismatch")) := by
    rw [process_command, process_verify_connect_eq hrs, ← hsame.negotiated]
    simp only [if_neg hro]
    rfl
  rw [hr]
  -- `clamp` panics before the ids are compared
  cases hn : negotiated p.config p.flow_control w with
  | error e =>
    rw [hn] at hv
    exact process_commands_panics hv _ _
  | ok f =>
    rw [hn] at hv
    exact process_commands_refuses hv _ _

/-- What is left of a connecting peer when a datagram fails. -/
theorem process_commands_error {e : ErrorKind} (h : process_commands t draw cmds p acc = .ok (q, .error e)) :
    p.state = .Connecting ∧ ∃ before pid isid w, Mismatch p cmds before pid isid w := by
  by_cases hs : p.state = .Connecting
  · refine ⟨hs, ?_⟩
    -- only the first command that decides about the connection can fail
    cases hf : cmds.find? decides with
    | none =>
      rw [List.find?_eq_none] at hf
      obtain ⟨r, packets, -, hr⟩ := process_commands_undecided hs (by simpa using hf) t draw
      have := hr [] acc
      rw [List.append_nil, h] at this
      cases this
    | some c =>
      obtain ⟨hc, before, after, rfl, hb⟩ := List.find?_eq_some_iff_append.1 hf
      have hun : ∀ c ∈ before, decides c = false := by simpa using hb
      obtain ⟨r, packets, hsame, hr⟩ := process_commands_undecided hs hun t draw
      have hrs : (r.heard t).state = .Connecting := hsame.state.trans hs
      rw [hr] at h
      cases c with
      | Disconnect n => exact absurd h (process_commands_after rfl (by simp) after _ e)
      | VerifyConnect pid chs m isid osid w =>
        by_cases ho : osid = p.outgoing_session_id
        · have hro : osid = (r.heard t).outgoing_session_id := ho.trans hsame.outgoing.symm
          have hv := process_verify_connect_eq hrs pid isid osid w
          simp only [if_pos hro] at hv
          cases hn : negotiated (r.heard t).config (r.heard t).flow_control w with
          | error e' =>
            rw [hn] at hv
            rw [process_commands_panics (c := .VerifyConnect pid chs m isid osid w) hv] at h
            cases h
          | ok f =>
            rw [hn] at hv
            exact absurd h (process_commands_after (c := .VerifyConnect pid chs m isid osid w) hv (by simp) after _ e)
        · exact ⟨before, pid, isid, w, ⟨chs, m, osid, after, rfl, ho⟩, hun⟩
      | _ => cases hc
  · obtain ⟨r, packets, hr⟩ := process_commands_of_not_connecting hs acc
    rw [h] at hr
    cases hr

/-! ## When it leaves nothing behind -/

/-- If the datagram fails, it has not touched what deliveries rest on. -/
def Atomic (codecs : Codecs) (p : Peer) (data : Bytes) (t : Instant) (draw : UInt16) : Prop :=
  ∀ q e, p.process_command_packet codecs data t draw = .ok (q, .error e) → q.delivery_state = p.delivery_state

/-- The peer with a datagram of `len` bytes counted. -/
def received (p : Peer) (len : Nat) : Peer := (p.record_data_received len).record_packet_received

theorem sameSession_received (p : Peer) (len : Nat) : SameSession p (p.received len) :=
  ⟨rfl, rfl, rfl, rfl, rfl, ⟨_, _, rfl⟩, rfl⟩

theorem process_command_packet_opened {codecs : Codecs} {data : Bytes} {packet : CommandPacket}
    (h : open_datagram codecs p.config data = .ok packet) (t : Instant) (draw : UInt16) :
    p.process_command_packet codecs data t draw =
      process_commands t draw packet.commands (p.received data.length) [] := by
  have h' : open_datagram codecs (p.record_data_received data.length).config data = .ok packet := h
  rw [process_command_packet, h']
  rfl

theorem process_command_packet_unopened {codecs : Codecs} {data : Bytes} {e : IoError}
    (h : open_datagram codecs p.config data = .error (.error e)) (t : Instant) (draw : UInt16) :
    p.process_command_packet codecs data t draw = .ok (p.record_data_received data.length, .error (header_error e)) := by
  have h' : open_datagram codecs (p.record_data_received data.length).config data = .error (.error e) := h
  rw [process_command_packet, h']

theorem process_command_packet_panics {codecs : Codecs} {data : Bytes} {e : Panic}
    (h : open_datagram codecs p.config data = .error (.panic e)) (t : Instant) (draw : UInt16) :
    p.process_command_packet codecs data t draw = .error e := by
  have h' : open_datagram codecs (p.record_data_received data.length).config data = .error (.panic e) := h
  rw [process_command_packet, h']

/-- Commands that change nothing, before a `VerifyConnect` that says nothing
new. -/
structure Inert (p : Peer) (len : Nat) (t : Instant) (draw : UInt16) (before : List ProtocolCommand)
    (pid isid : UInt16) (f : FlowControl) : Prop where
  peer_id : pid = p.peer_id
  incoming : isid = p.incoming_session_id
  window : f.window_size = p.window_size
  before : ∀ r packets, process_commands t draw before (p.received len) [] = .ok (r, .ok packets) →
    r.delivery_state = p.delivery_state

theorem delivery_state_refused_iff {r : Peer} (h : SameSession p r) (pid isid : UInt16) (f : FlowControl) (t : Instant) :
    (r.refused pid isid f t).delivery_state = p.delivery_state ↔
      pid = p.peer_id ∧ isid = p.incoming_session_id ∧ f.window_size = p.window_size ∧
        r.delivery_state = p.delivery_state := by
  obtain ⟨hst, hid, hin, hout, hf, -, -⟩ := h
  simp only [delivery_state, refused, heard, window_size, DeliveryState.mk.injEq, hst, hid, hin, hout, hf]
  tauto

/-- A datagram in which a connecting peer finds another id must have changed
nothing up to there. -/
theorem atomic_iff_inert (codecs : Codecs) (p : Peer) (data : Bytes) (t : Instant) (draw : UInt16) :
    Atomic codecs p data t draw ↔ ∀ packet before pid isid w f, p.state = .Connecting →
      open_datagram codecs p.config data = .ok packet → Mismatch p packet.commands before pid isid w →
      negotiated p.config p.flow_control w = .ok f → Inert p data.length t draw before pid isid f := by
  constructor
  · intro ha packet before pid isid w f hs ho hm hn
    obtain ⟨r, packets, hsame, hbefore, hall⟩ :=
      process_commands_mismatch (p := p.received data.length) hs ⟨hm.split, hm.undecided⟩ t draw
    have hn' : negotiated (p.received data.length).config (p.received data.length).flow_control w = .ok f := hn
    have hsame' : SameSession p r := (sameSession_received p data.length).trans hsame
    have hq := ha (r.refused pid isid f t) _ (by rw [process_command_packet_opened ho, hall, hn']; rfl)
    obtain ⟨hpid, hisid, hw, hr⟩ := (delivery_state_refused_iff hsame' pid isid f t).1 hq
    refine ⟨hpid, hisid, hw, fun r' packets' hr' => ?_⟩
    rw [hbefore] at hr'
    cases hr'
    exact hr
  · intro hin q e h
    match ho : open_datagram codecs p.config data with
    | .error (.panic e') =>
      rw [process_command_packet_panics ho] at h
      cases h
    | .error (.error e') =>
      -- only the statistics have counted the bytes
      rw [process_command_packet_unopened ho] at h
      cases h
      rfl
    | .ok packet =>
      rw [process_command_packet_opened ho] at h
      obtain ⟨hs, before, pid, isid, w, hm⟩ := process_commands_error h
      obtain ⟨r, packets, hsame, hbefore, hall⟩ := process_commands_mismatch hs hm t draw
      have hsame' : SameSession p r := (sameSession_received p data.length).trans hsame
      rw [hall] at h
      obtain ⟨f, hn, he⟩ := map_eq_ok h
      cases he
      have hinert := hin packet before pid isid w f hs ho ⟨hm.split, hm.undecided⟩ hn
      exact (delivery_state_refused_iff hsame' pid isid f t).2
        ⟨hinert.peer_id, hinert.incoming, hinert.window, hinert.before r packets hbefore⟩

/-- Whatever can be written arrives in some datagram. -/
theorem exists_datagram (codecs : Codecs) (config : Config) (cmds : List ProtocolCommand) (h : Writable cmds) :
    ∃ data, open_datagram codecs config data = .ok ⟨cmds.map owned⟩ := by
  have hdec := (decode_encode_packet_iff cmds).2 h
  unfold open_datagram
  by_cases hs : config.use_checksums = true
  · refine ⟨codecs.append_checksum_in_place (Codecs.stored (CommandEncoder.encode_packet ⟨cmds⟩)), ?_⟩
    simp [hs, codecs.validate_append_checksum, Except.mapError, Codecs.decompress, Codecs.stored, hdec, bind, Except.bind]
  · refine ⟨Codecs.stored (CommandEncoder.encode_packet ⟨cmds⟩), ?_⟩
    simp [hs, Except.mapError, Codecs.decompress, Codecs.stored, hdec, bind, Except.bind]

theorem negotiated_ok_iff (p : Peer) (w : UInt32) :
    (∃ f, negotiated p.config p.flow_control w = .ok f) ↔ WindowBounds p.config := by
  have heq := negotiate_window_eq p w
  rcases negotiate_window_cases p w with ⟨hb, f, hf⟩ | ⟨hb, e, he⟩
  · rw [hf] at heq
    obtain ⟨f', hf', -⟩ := map_eq_ok heq.symm
    exact ⟨fun _ => hb, fun _ => ⟨f', hf'⟩⟩
  · refine ⟨fun ⟨f, hf⟩ => ?_, fun h => absurd h hb⟩
    rw [he, hf] at heq
    cases heq

/-- A peer takes every datagram atomically iff it is not connecting (one whose
window bounds are out of order panics before it can fail). For one datagram, a
connecting peer does so iff the id of the first `VerifyConnect` is its own, a
`Disconnect` comes before it, or there was nothing to change. -/
theorem receive_atomic_iff (codecs : Codecs) (p : Peer) :
    ((∀ data t draw, Atomic codecs p data t draw) ↔ (p.state = .Connecting → ¬ WindowBounds p.config)) ∧
    ∀ data t draw, Atomic codecs p data t draw ↔ ∀ packet before pid isid w f, p.state = .Connecting →
      open_datagram codecs p.config data = .ok packet → Mismatch p packet.commands before pid isid w →
      negotiated p.config p.flow_control w = .ok f → Inert p data.length t draw before pid isid f := by
  refine ⟨⟨fun ha hs hb => ?_, fun h data t draw => ?_⟩, atomic_iff_inert codecs p⟩
  · -- one command is enough, with both ids off by one
    obtain ⟨data, ho⟩ := exists_datagram codecs p.config
      [.VerifyConnect (p.peer_id + 1) 0 0 0 (p.outgoing_session_id + 1) 0]
      ⟨by simp, by simp [CommandEncoder.encode_command]⟩
    obtain ⟨f, hf⟩ := (negotiated_ok_iff p 0).2 hb
    have hm : Mismatch p [.VerifyConnect (p.peer_id + 1) 0 0 0 (p.outgoing_session_id + 1) 0] [] (p.peer_id + 1) 0 0 :=
      ⟨⟨0, 0, _, [], rfl, by simp⟩, by simp⟩
    have hinert := (atomic_iff_inert codecs p data 0 0).1 (ha data 0 0) _ _ _ _ _ f hs ho hm hf
    exact absurd hinert.peer_id (by simp)
  · apply (atomic_iff_inert codecs p data t draw).2
    intro packet before pid isid w f hs _ _ hf
    exact absurd ((negotiated_ok_iff p w).1 ⟨f, hf⟩) (h hs)

/-- The client with session id 7 gets data, and then a `VerifyConnect` with
session id 8. -/
theorem refused_answer_is_kept :
    ¬ Atomic .checked client_seven.initiate_connect (Codecs.append_checksum_in_place .checked
      (0 :: CommandEncoder.encode_packet
        ⟨[.SendReliable 0 0 true (.from_vec [1]), .VerifyConnect 1 1 1400 9 8 512]⟩)) 0 0 := by
  intro h
  obtain ⟨⟨q, result⟩, hq, hout⟩ := exists_ok
    (x := client_seven.initiate_connect.process_command_packet .checked (Codecs.append_checksum_in_place .checked
      (0 :: CommandEncoder.encode_packet
        ⟨[.SendReliable 0 0 true (.from_vec [1]), .VerifyConnect 1 1 1400 9 8 512]⟩)) 0 0)
    (p := fun out => out.2.toOption.isNone && out.1.peer_id == 1) (by decide +kernel)
  cases result with
  | ok packets => cases hout
  | error e =>
    have hkept : q.peer_id = 0 := congrArg DeliveryState.peer_id (h q e hq)
    rw [hkept] at hout
    cases hout

end Peer

end Bitfold
