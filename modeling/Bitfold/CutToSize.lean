import Bitfold.HeadOfQueue
/-!
# User data is cut to size

The overhead of a datagram is reckoned in four places: twice where a message is
cut into fragments, once where unsequenced data is cut into chunks, and once
where a datagram is filled. The first three agree with the last: what they cut
fits a datagram, and is the data that was given.
-/

namespace Bitfold

open Lib CommandEncoder ProtocolCommand

namespace Peer

variable {codecs : Codecs} {p q : Peer} {mode : Mode} {ch : UInt8} {data : Bytes} {c : ProtocolCommand}
  {cmds : List ProtocolCommand}

/-! ## Commands and their data -/

/-- The command alone fits a datagram within the cap, and the length of its
data the field for it. -/
structure FitsCap (p : Peer) (c : ProtocolCommand) : Prop where
  datagram : static_overhead p.config + 2 + (encode_command c).length ≤ p.datagram_cap
  field : ∀ d ∈ payload c, d.len ≤ 65535

theorem datagram_cap_le (p : Peer) : p.datagram_cap ≤ 65535 := by
  have hsize := p.current_fragment_size.toNat_lt
  have hcap : p.datagram_cap ≤ p.current_fragment_size.toNat := Nat.min_le_left _ _
  omega

theorem fitsCap_of_le (h : static_overhead p.config + frame_len c ≤ p.datagram_cap) : p.FitsCap c := by
  unfold frame_len at h
  refine ⟨by omega, fun d hd => ?_⟩
  have hlen := payload_len_le hd
  have hcap := p.datagram_cap_le
  omega

/-- The data of a command. -/
def data_of (c : ProtocolCommand) : Bytes := ((payload c).map SharedBytes.as_slice).getD []

theorem data_of_some {d : SharedBytes} (h : payload c = some d) : data_of c = d.as_slice := by
  rw [data_of, h]
  rfl

/-- What waits is the data, a probe's padding apart. -/
theorem waiting_eq_data (h : ∀ c ∈ cmds, is_pmtu_probe c = false) : waiting cmds = (cmds.flatMap data_of).length := by
  induction cmds with
  | nil => rfl
  | cons c cmds ih =>
    have hc : command_data_size c = (data_of c).length := by
      cases c with
      | PMTUProbe size token payload => cases h _ List.mem_cons_self
      | _ => simp [command_data_size, data_of, payload]
    rw [waiting_cons, List.flatMap_cons, List.length_append, ih (fun c hc => h c (List.mem_cons_of_mem _ hc)), hc]

/-! ## Messages -/

/-- The message is neither refused nor truncated. -/
def Accepts (p : Peer) (mode : Mode) (data : Bytes) : Prop :=
  (1 ≤ p.payload_budget mode.header ∧ data.length ≤ p.payload_budget mode.header) ∨ p.Splits mode data

/-- The commands carry a message whole, or in fragments that are numbered from
0 on and all have their number. -/
def Numbered (mode : Mode) (ch : UInt8) (s : UInt16) (max_fragments : UInt8) (cmds : List ProtocolCommand) : Prop :=
  (∃ d, cmds = [mode.whole ch s d]) ∨
  ∃ (n : Nat) (d : Nat → SharedBytes), n ≤ min 255 max_fragments.toNat ∧
    cmds = (List.range n).map fun i => mode.fragment ch s (.ofNat i) (.ofNat n) (d i)

theorem payload_whole (mode : Mode) (ch : UInt8) (s : UInt16) (d : SharedBytes) :
    payload (mode.whole ch s d) = some d := by
  cases mode <;> rfl

theorem payload_fragment (mode : Mode) (ch : UInt8) (s : UInt16) (i n : UInt8) (d : SharedBytes) :
    payload (mode.fragment ch s i n d) = some d := by
  cases mode <;> rfl

theorem message_commands_fit (h : c ∈ p.message_commands mode ch data) : p.FitsCap c :=
  fitsCap_of_le (data_commands_le_cap (encode_whole_length mode ch (mode.sequence p))
    (encode_mode_fragment_length mode ch (mode.sequence p)) h)

/-- A message that is accepted is what its commands carry. -/
theorem Accepts.message_commands (h : p.Accepts mode data) (ch : UInt8) :
    (p.message_commands mode ch data).flatMap data_of = data ∧
      Numbered mode ch (mode.sequence p) p.config.max_fragments (p.message_commands mode ch data) := by
  rcases h with ⟨hroom, hwhole⟩ | hsplits
  · have hcmds : p.message_commands mode ch data = [mode.whole ch (mode.sequence p) (.from_arc data)] := by
      unfold Peer.message_commands data_commands
      rw [if_neg (by omega), if_pos hwhole]
    rw [hcmds]
    refine ⟨?_, .inl ⟨_, rfl⟩⟩
    rw [List.flatMap_singleton, data_of_some (payload_whole ..), SharedBytes.as_slice_from_arc]
  · rw [hsplits.message_commands ch]
    refine ⟨?_, .inr ⟨_, _, Nat.le_min.2 ⟨hsplits.few, hsplits.allowed⟩, rfl⟩⟩
    have hlen : 0 < data.length := by
      have := hsplits.long
      omega
    refine Eq.trans ?_ (flatten_fragments hsplits.payload hlen)
    rw [List.flatMap_map, List.flatMap_def]
    refine congrArg List.flatten (List.map_congr_left fun i _ => ?_)
    exact data_of_some (payload_fragment ..)

theorem not_probe_message_commands (h : c ∈ p.message_commands mode ch data) : is_pmtu_probe c = false := by
  rcases mem_data_commands h with ⟨d, rfl⟩ | ⟨i, n, d, rfl⟩
  · cases mode <;> rfl
  · cases mode <;> rfl

/-- What `enqueue_reliable_data` and `enqueue_unreliable_data` queue. -/
theorem enqueue_message_fits (p : Peer) (mode : Mode) (ch : UInt8) (data : Bytes) :
    ∃ p' cmds, mode.enqueue p ch data = .ok (mode.sequence p, p') ∧ p'.commands = p.commands ++ cmds ∧
      (∀ c ∈ cmds, p.FitsCap c) ∧
      (p.Accepts mode data → p.Admits data.length →
        cmds.flatMap data_of = data ∧ Numbered mode ch (mode.sequence p) p.config.max_fragments cmds) := by
  have hcommands : (p.numbered mode).commands = p.commands := by cases mode <;> rfl
  obtain ⟨kept, hkept, hq⟩ := requeue_queues (p.numbered mode) (p.message_commands mode ch data)
  refine ⟨_, kept, enqueue_eq p mode ch data, hcommands ▸ hq.commands, fun c hc => ?_, fun haccepts hadmits => ?_⟩
  · exact message_commands_fit (hkept.subset hc)
  · obtain ⟨hdata, hnumbered⟩ := haccepts.message_commands ch
    have hwaiting : waiting (p.message_commands mode ch data) = data.length := by
      rw [waiting_eq_data fun c hc => not_probe_message_commands hc, hdata]
    have hroom : (p.numbered mode).Admits (waiting (p.message_commands mode ch data)) := by
      rw [hwaiting]
      cases mode <;> exact hadmits
    -- nothing is dropped
    have hall : kept = p.message_commands mode ch data := by
      have hc := hq.commands
      rw [requeue_of_admits hroom] at hc
      exact (List.append_cancel_left hc).symm
    rw [hall]
    exact ⟨hdata, hnumbered⟩

/-! ## Chunks -/

/-- Chunks are queued until the data is used up. -/
theorem enqueue_chunks_cut (ch : UInt8) (base : SharedBytes) {size : Nat} (hsize : 0 < size) (fuel offset : Nat)
    (hfuel : base.len ≤ offset + fuel) (p : Peer) :
    ∃ q cmds, enqueue_chunks ch base size fuel offset p = .ok q ∧ q.commands = p.commands ++ cmds ∧
      (∀ c ∈ cmds, ∃ g d, c = .SendUnsequenced ch g d ∧ d.len ≤ size) ∧
      (p.Admits (base.len - offset) → cmds.flatMap data_of = base.as_slice.drop offset) := by
  have hend : ∀ {offset}, base.len ≤ offset → base.as_slice.drop offset = [] := fun h =>
    List.drop_eq_nil_of_le (by rw [SharedBytes.as_slice_length]; exact h)
  induction fuel generalizing offset p with
  | zero => exact ⟨p, [], rfl, (List.append_nil _).symm, by simp, fun _ => (hend hfuel).symm⟩
  | succ fuel ih =>
    by_cases hlt : offset < base.len
    · obtain ⟨chunk, hchunk, hlen, hslice⟩ := base.slice_spec
        (show offset + min size (base.len - offset) ≤ base.len by omega)
      generalize hc : ProtocolCommand.SendUnsequenced ch p.next_unsequenced_group.1 chunk = c
      obtain ⟨q, cmds, he, hq, hcmds, hdata⟩ := ih (offset + min size (base.len - offset)) (by omega)
        (p.next_unsequenced_group.2.enqueue_command c).2
      have hstep : enqueue_chunks ch base size (fuel + 1) offset p = .ok q := by
        rw [enqueue_chunks, if_pos hlt]
        simp only [hchunk, bind, Except.bind]
        rw [← hc] at he
        exact he
      have hnew : ∃ g d, c = .SendUnsequenced ch g d ∧ d.len ≤ size := ⟨_, _, hc.symm, by omega⟩
      by_cases ha : p.next_unsequenced_group.2.Admits (command_data_size c)
      · rw [enqueue_command_of_admits ha] at hq hdata
        refine ⟨q, c :: cmds, hstep, ?_, ?_, fun hroom => ?_⟩
        · rw [hq]
          exact List.append_assoc ..
        · intro x hx
          rcases List.mem_cons.1 hx with rfl | hx
          · exact hnew
          · exact hcmds x hx
        · have hrest : (p.next_unsequenced_group.2.queued [c]).Admits
              (base.len - (offset + min size (base.len - offset))) := by
            have hsize : command_data_size c = min size (base.len - offset) := by
              rw [← hc]
              exact hlen
            unfold Admits at hroom ⊢
            simp only [queued, waiting_cons, waiting_nil, hsize]
            change p.config.max_waiting_data = 0 ∨ p.total_waiting_data + _ + _ ≤ p.config.max_waiting_data
            omega
          rw [List.flatMap_cons, hdata hrest, ← hc, data_of_some (d := chunk) rfl, hslice, ← List.drop_drop,
            List.take_append_drop]
      · -- the chunk is dropped
        rw [enqueue_command_of_refused ha] at hq
        refine ⟨q, cmds, hstep, hq, hcmds, fun hroom => absurd ?_ ha⟩
        have hsize : command_data_size c ≤ base.len - offset := by
          rw [← hc]
          change chunk.len ≤ _
          omega
        unfold Admits at hroom ⊢
        change p.config.max_waiting_data = 0 ∨ p.total_waiting_data + _ ≤ p.config.max_waiting_data
        omega
    · refine ⟨p, [], ?_, (List.append_nil _).symm, by simp, fun _ => (hend (by omega)).symm⟩
      rw [enqueue_chunks, if_neg hlt]

/-- What `process_event` queues of an unsequenced packet before it flushes. -/
theorem process_event_chunks (codecs : Codecs) (p : Peer) {event : Packet} (hd : event.delivery = .Unreliable)
    (ho : event.ordering = .Unsequenced) :
    ∃ (q : Peer) (cmds : List ProtocolCommand), p.process_event codecs event =
        .ok ((if p.record_send.1 then [.Emit (.Connect p.remote_address)] else []) ++ (q.flush codecs).1,
          (q.flush codecs).2) ∧
      q.commands = p.record_send.2.commands ++ cmds ∧
      (static_overhead p.config + 2 + (1 + 1 + 2 + 2) < p.datagram_cap → ∀ c ∈ cmds, p.FitsCap c) ∧
      (p.Admits event.payload.length → cmds.flatMap data_of = event.payload) := by
  obtain ⟨st, cq, hsend⟩ := record_send_writes p
  have hsize : p.record_send.2.max_payload_unseq = p.max_payload_unseq := by
    rw [hsend]
    rfl
  have hpos : 0 < p.record_send.2.max_payload_unseq := Nat.lt_of_lt_of_le Nat.one_pos (Nat.le_max_left _ _)
  obtain ⟨q, cmds, he, hq, hcmds, hdata⟩ := enqueue_chunks_cut event.channel_id (.from_arc event.payload) hpos
    event.payload.length 0 (by simp) p.record_send.2
  have hqueued : p.record_send.2.enqueue_packet event = .ok q := by
    unfold enqueue_packet
    rw [hd, ho]
    exact he
  refine ⟨q, cmds, ?_, hq, fun hroom c hc => ?_, fun hadmits => ?_⟩
  · unfold process_event
    simp only [hqueued, bind, Except.bind]
    rfl
  · obtain ⟨g, d, rfl, hlen⟩ := hcmds c hc
    apply fitsCap_of_le
    rw [hsize] at hlen
    unfold max_payload_unseq payload_budget at hlen
    simp only [frame_len, encode_command, write_u8, write_u16, write_all, List.length_append, List.length_cons,
      List.length_nil, be16_length, SharedBytes.as_slice_length]
    omega
  · rw [hdata (by rw [hsend]; simpa [Admits] using hadmits)]
    simp

/-- Whatever is queued of user data fits one datagram within the cap at that
time, and if nothing is refused, truncated or dropped, it is the data. -/
theorem user_data_fits (codecs : Codecs) (p : Peer) :
    (∀ (mode : Mode) (ch : UInt8) (data : Bytes), ∃ (p' : Peer) (cmds : List ProtocolCommand),
      mode.enqueue p ch data = .ok (mode.sequence p, p') ∧ p'.commands = p.commands ++ cmds ∧
      (∀ c ∈ cmds, p.FitsCap c) ∧
      (p.Accepts mode data → p.Admits data.length →
        cmds.flatMap data_of = data ∧ Numbered mode ch (mode.sequence p) p.config.max_fragments cmds)) ∧
    ∀ event : Packet, event.delivery = .Unreliable → event.ordering = .Unsequenced →
      ∃ (q : Peer) (cmds : List ProtocolCommand), p.process_event codecs event =
          .ok ((if p.record_send.1 then [.Emit (.Connect p.remote_address)] else []) ++ (q.flush codecs).1,
            (q.flush codecs).2) ∧
        q.commands = p.record_send.2.commands ++ cmds ∧
        (static_overhead p.config + 2 + (1 + 1 + 2 + 2) < p.datagram_cap → ∀ c ∈ cmds, p.FitsCap c) ∧
        (p.Admits event.payload.length → cmds.flatMap data_of = event.payload) :=
  ⟨enqueue_message_fits p, fun _ hd ho => process_event_chunks codecs p hd ho⟩

end Peer

end Bitfold
