import Bitfold.Sending
/-!
# End to end

Messages from one fresh peer to another over a link that loses and reorders
nothing. Reliable ordered messages are all numbered 0, since nothing advances
the sender's sequence, so the receiver delivers the first message of each
channel and keeps the others waiting (`delivers_in_order_iff`).
-/

namespace Bitfold

open Lib CommandEncoder ProtocolCommand

namespace Peer

variable {codecs : Codecs} {p p' q : Peer} {config : Config} {g : Group} {mode : Mode} {ch : UInt8} {data : Bytes}
  {seen : List UInt8} {out : List Packet}

/-! ## The fragments of a message as a stream -/

/-- What the application sees of packets, their sender apart. -/
def labelled (packets : List Packet) : List (UInt8 × DeliveryGuarantee × OrderingGuarantee × Bytes) :=
  packets.map fun packet => (packet.channel_id, packet.delivery, packet.ordering, packet.payload)

theorem labelled_released (p : Peer) (g : Group) (payloads : List SharedBytes) :
    labelled ((p.released g payloads).map Prod.fst) =
      payloads.map fun payload => (g.channel_id, g.mode.delivery, .None, payload.as_slice) := by
  simp [labelled, released, packet]

theorem completes_congr (h : q.channel_states = p.channel_states) (g : Group) : q.completes g = p.completes g := by
  unfold Peer.completes deliver_ordered channel_state
  rw [h]

/-- The fragments of a message, in order and with nothing between them, deliver
it. -/
theorem stream_fragments {n k : Nat} {d : Nat → SharedBytes} (hn : g.fragment_count.toNat = n)
    (hd : ∀ i < n, (d i).as_slice = g.chunk (.ofNat i)) (hk : k < n) (hj : Joins g p)
    (hheld : ∀ i, p.Held g i ↔ i.toNat < k)
    (hs : Stream p ((List.range' k (n - k)).map fun i => g.command (.ofNat i) (d i)) out p') :
    p'.command_fragments[g.sequence]? = none ∧ p'.channel_states = (p.completes g).2 ∧
      labelled out = (p.completes g).1.map fun x => (g.channel_id, g.mode.delivery, .None, x.as_slice) := by
  -- on the number of fragments still to come
  induction hm : n - k generalizing k p out with
  | zero => omega
  | succ m ih =>
    rw [hm, List.range'_succ, List.map_cons] at hs
    cases hs with
    | @next _ q r _ _ _ packets out t draw hsame hcmd hrest =>
      have h256 := g.fragment_count.toNat_lt
      have hid : (UInt8.ofNat k).toNat = k := by
        rw [UInt8.toNat_ofNat']
        omega
      have hjq : Joins g q := by
        unfold Joins
        rw [hsame.fragments]
        exact hj
      have hheldq : ∀ i, q.Held g i ↔ i.toNat < k := by
        unfold Held
        rw [hsame.fragments]
        exact hheld
      have hlt : UInt8.ofNat k < g.fragment_count := by
        rw [UInt8.lt_iff_toNat_lt, hid, hn]
        exact hk
      obtain ⟨r', packets', he, ⟨⟨i, hi, hne, hmiss⟩, hkept⟩ | ⟨hall, hdone⟩⟩ := process_fragment hjq hlt (hd k hk) t draw
      · obtain ⟨rfl, hpk⟩ : r' = r ∧ packets' = packets := by
          rw [he] at hcmd
          cases hcmd
          exact ⟨rfl, rfl⟩
        rw [← hpk, hkept.packets, List.map_nil, List.nil_append]
        rw [UInt8.lt_iff_toNat_lt, hn] at hi
        rw [hheldq] at hmiss
        have hik : i.toNat ≠ k := fun h => hne (by rw [← h, UInt8.ofNat_toNat])
        have hheldr : ∀ i, r'.Held g i ↔ i.toNat < k + 1 := by
          intro i
          rw [hkept.held_iff, hheldq, ← UInt8.toNat_inj, hid]
          omega
        rw [← completes_congr (hkept.channels.trans hsame.channels) g]
        refine ih (by omega) (hkept.joins (hjq.joined hlt (hd k hk) t)) hheldr ?_ (by omega)
        rwa [show n - (k + 1) = m by omega]
      · obtain ⟨rfl, hpk⟩ : r' = r ∧ packets' = packets := by
          rw [he] at hcmd
          cases hcmd
          exact ⟨rfl, rfl⟩
        -- it was the last one, or the next one would be missing
        obtain rfl : m = 0 := by
          by_contra hm0
          have hnext := hall (.ofNat (k + 1))
          rw [hheldq, UInt8.lt_iff_toNat_lt, hn, ← UInt8.toNat_inj.ne, hid, UInt8.toNat_ofNat'] at hnext
          omega
        cases hrest with
        | done hend =>
          refine ⟨by rw [hend.fragments]; exact hdone.open_none, ?_, ?_⟩
          · rw [hend.channels, hdone.channels, completes_congr hsame.channels]
          · rw [← hpk, hdone.packets, List.append_nil, labelled_released, completes_congr hsame.channels]

/-! ## Messages as streams -/

theorem owned_whole (mode : Mode) (ch : UInt8) (s : UInt16) (d : SharedBytes) :
    (mode.whole ch s d).owned = mode.whole ch s (.from_vec d.as_slice) := by
  cases mode <;> rfl

theorem owned_fragment (g : Group) (j : UInt8) (d : SharedBytes) :
    (g.command j d).owned = g.command j (.from_vec d.as_slice) := by
  unfold Group.command
  cases g.mode <;> rfl

theorem Stream.one {c : ProtocolCommand} (h : Stream p [c] out p') :
    ∃ q r t draw packets, SameInbox p q ∧ q.process_command c t draw = .ok (r, .ok packets) ∧ SameInbox r p' ∧
      out = packets.map Prod.fst := by
  cases h with
  | @next _ q r _ _ _ packets out t draw hsame hcmd hrest =>
    cases hrest with
    | done hend => exact ⟨q, r, t, draw, packets, hsame, hcmd, hend, by rw [List.append_nil]⟩

/-- The fragments of a message that splits, as they come off the wire. -/
theorem stream_splits {s : Peer} (hs : s.Splits mode data) (ch : UInt8)
    (hnone : p.command_fragments[mode.sequence s]? = none)
    (h : Stream p ((s.message_commands mode ch data).map owned) out p') :
    p'.command_fragments[mode.sequence s]? = none ∧ p'.channel_states = (p.completes (s.group mode ch data)).2 ∧
      labelled out = (p.completes (s.group mode ch data)).1.map fun x => (ch, mode.delivery, .None, x.as_slice) := by
  have hcount := hs.count_toNat ch
  obtain ⟨-, -, hpos⟩ := div_ceil_bounds hs.payload (show 0 < data.length by have := hs.long; omega)
  rw [hs.message_commands, List.map_map] at h
  refine stream_fragments (g := s.group mode ch data) (k := 0)
    (d := fun i => .from_vec (fragment_data data (s.fragment_payload mode) i).as_slice) hcount ?_ hpos ?_ ?_ ?_
  · intro i hi
    have hid : (UInt8.ofNat i).toNat = i := by
      have := hs.few
      rw [UInt8.toNat_ofNat']
      omega
    simp [group, hid]
  · intro b hb
    rw [show (s.group mode ch data).sequence = mode.sequence s from rfl, hnone] at hb
    cases hb
  · intro i
    refine iff_of_false ?_ (Nat.not_lt_zero _)
    rintro ⟨b, hb, -⟩
    rw [show (s.group mode ch data).sequence = mode.sequence s from rfl, hnone] at hb
    cases hb
  · rw [Nat.sub_zero, ← List.range_eq_range']
    convert h using 2
    funext i
    exact (owned_fragment ..).symm

/-- Opening a connection delivers nothing. -/
theorem stream_opening {s : Peer} (h : Stream p (s.opening.map owned) out p') : SameInbox p p' ∧ out = [] := by
  unfold opening at h
  split at h
  · obtain ⟨q, r, t, draw, packets, hsame, hcmd, hend, rfl⟩ := Stream.one h
    rw [show owned (Connect s.config.channel_count 1400 1 s.outgoing_session_id s.connect_id) =
      Connect s.config.channel_count 1400 1 s.outgoing_session_id s.connect_id from rfl, process_command_connect] at hcmd
    cases hcmd
    refine ⟨hsame.trans (SameInbox.trans ?_ hend), rfl⟩
    obtain he | ⟨i, n, st, v, he, -⟩ := process_connect_writes (q.heard t) s.config.channel_count
      s.outgoing_session_id s.connect_id draw
    · rw [he]
      exact ⟨rfl, rfl, rfl⟩
    · rw [he]
      exact ⟨rfl, rfl, rfl⟩
  · cases h with
    | done hend => exact ⟨hend, rfl⟩

/-! ## Reliable ordered messages -/

theorem contents_labelled (packets : List Packet) :
    contents packets = (labelled packets).map fun label => (label.1, label.2.2.2) := by
  simp [contents, labelled]

theorem sequence_zero {s : Peer} (h : Sender config s) (o : Bool) : (Mode.Reliable o).sequence s = 0 := h.sequence

/-- A reliable ordered message is delivered if it is the first of its channel. -/
theorem stream_ordered {s : Peer} (h : Sender config s) (hcap : CapCarriesFragment config)
    (hfit : MessageFits config (.Reliable true) data) (hchannels : Channels seen p)
    (hnone : p.command_fragments[(0 : UInt16)]? = none)
    (hst : Stream p ((s.message_commands (.Reliable true) ch data).map owned) out p') :
    Channels (ch :: seen) p' ∧ p'.command_fragments[(0 : UInt16)]? = none ∧ contents out = once seen ch data := by
  rcases h.message_cases hcap hfit ch with ⟨-, he⟩ | ⟨-, hs⟩
  · rw [he, List.map_singleton, owned_whole, sequence_zero h] at hst
    obtain ⟨q, r, t, draw, packets, hsame, hcmd, hend, rfl⟩ := Stream.one hst
    obtain ⟨hch, hfr, hout⟩ := process_whole (hchannels.same hsame.channels) hcmd
    refine ⟨hch.same hend.channels, by rw [hend.fragments, hfr, hsame.fragments]; exact hnone, ?_⟩
    rw [hout]
    simp
  · have hseq := sequence_zero h true
    rw [← hseq] at hnone
    obtain ⟨hfr, hcs, hout⟩ := stream_splits hs ch hnone hst
    rw [hseq] at hfr
    have hdeliver := hchannels.deliver ch (.from_vec data)
    have hcomplete : p.completes (s.group (.Reliable true) ch data) =
        ((p.deliver_ordered ch 0 (.from_vec data)).1, (p.deliver_ordered ch 0 (.from_vec data)).2.channel_states) := by
      unfold Peer.completes
      rw [if_pos (show (s.group (.Reliable true) ch data).mode.ordered = true from rfl), hs.group_data,
        show (s.group (.Reliable true) ch data).sequence = 0 from hseq]
      rfl
    rw [hcomplete] at hcs hout
    refine ⟨hdeliver.2.same hcs, hfr, ?_⟩
    rw [contents_labelled, hout, hdeliver.1, once]
    split
    · rfl
    · simp

/-- User packets are handed to the sender one by one. -/
def send_all (codecs : Codecs) : Peer → List Packet → Outcome (List Action × Peer)
  | p, [] => .ok ([], p)
  | p, packet :: packets => do
    let (actions, p) ← p.process_event codecs packet
    let (more, p) ← send_all codecs p packets
    return (actions ++ more, p)

/-- The first message of each channel that is not in `seen`. -/
def firsts (seen : List UInt8) : List Packet → List (UInt8 × Bytes)
  | [] => []
  | packet :: packets =>
    once seen packet.channel_id packet.payload ++ firsts (packet.channel_id :: seen) packets

/-- A reliable ordered packet. -/
def ReliableOrdered (packet : Packet) : Prop := packet.delivery = .Reliable ∧ ∃ stream, packet.ordering = .Ordered stream

theorem ReliableOrdered.packet_mode {packet : Packet} (h : ReliableOrdered packet) :
    Peer.packet_mode packet = some (.Reliable true) := by
  obtain ⟨hd, k, ho⟩ := h
  unfold Peer.packet_mode
  rw [hd, ho]
  rfl

/-- Sending many messages is one stream of commands, of which the receiver
delivers the first message of each channel. -/
theorem Quiet.send_all (hc : codecs.Lossless) (ht : codecs.Total) (hcap : CapCarriesFragment config)
    {packets : List Packet} (h : Quiet config p) (hopen : OpeningFits config p)
    (hp : ∀ packet ∈ packets, ReliableOrdered packet ∧ Sendable config packet) :
    ∃ actions p' cmds, p.send_all codecs packets = .ok (actions, p') ∧
      Transmits codecs config (datagrams actions) cmds ∧ (∀ c ∈ cmds, Carried c) ∧
      ∀ (r r' : Peer) (out : List Packet) (seen : List UInt8), Channels seen r →
        r.command_fragments[(0 : UInt16)]? = none → Stream r (cmds.map owned) out r' →
        contents out = firsts seen packets := by
  induction packets generalizing p with
  | nil =>
    refine ⟨[], p, [], rfl, ⟨[], .nil, rfl⟩, by simp, fun r r' out seen _ _ hs => ?_⟩
    cases hs
    rfl
  | cons packet packets ih =>
    obtain ⟨hord, hsend⟩ := hp packet List.mem_cons_self
    obtain ⟨actions, q, he, htr, hq, hstate⟩ := h.send_message hc ht hcap hopen hord.packet_mode hsend
    have hopen' : OpeningFits config q := by
      unfold OpeningFits
      rw [opening_of_not_idle hstate]
      simp
    obtain ⟨more, p', cmds, he', htr', hcarried, hstream⟩ := ih hq hopen' fun x hx => hp x (List.mem_cons_of_mem _ hx)
    obtain ⟨hsender, -, -, -⟩ := h.record_send
    have hfit := hsend.fits _ hord.packet_mode
    refine ⟨actions ++ more, p',
      p.opening ++ p.record_send.2.message_commands (.Reliable true) packet.channel_id packet.payload ++ cmds,
      ?_, ?_, ?_, ?_⟩
    · simp only [Peer.send_all, he, he', bind, Except.bind]
      rfl
    · rw [datagrams_append]
      exact htr.append htr'
    · intro c hm
      rw [List.mem_append, List.mem_append] at hm
      rcases hm with (hm | hm) | hm
      · exact p.carried_opening c hm
      · exact (hsender.message_packs hcap hfit packet.channel_id).1.carried c hm
      · exact hcarried c hm
    · -- first the opening, then this message, then the rest
      intro r r' out seen hch hnone hs
      rw [List.map_append, List.map_append] at hs
      obtain ⟨m, out₁, out₂, hs₁, hs₂, rfl⟩ := hs.split
      obtain ⟨m', out₃, out₄, hs₃, hs₄, rfl⟩ := hs₁.split
      obtain ⟨hsame, rfl⟩ := stream_opening hs₃
      obtain ⟨hch', hnone', hout⟩ := stream_ordered hsender hcap hfit (hch.same hsame.channels)
        (by rw [hsame.fragments]; exact hnone) hs₄
      have hrest := hstream m r' out₂ _ hch' hnone' hs₂
      rw [firsts, ← hout, ← hrest]
      simp [contents]

/-! ## A connection that cannot be opened -/

/-- The first command in the queue is larger than any datagram. -/
structure Wedged (config : Config) (p : Peer) : Prop extends Sender config p where
  state : p.state ≠ .Idle
  blocked : ∃ c rest, p.commands = c :: rest ∧ Carried c ∧ fresh_cap config < static_overhead config + frame_len c

/-- Nothing is ever sent past it. -/
theorem Wedged.flush (h : Wedged config p) : p.flush codecs = ([], p) := by
  obtain ⟨c, rest, hc, hcarried, hlarge⟩ := h.blocked
  have hprobe : p.first_is_pmtu_probe = false := by
    unfold first_is_pmtu_probe
    split
    · rename_i hq
      rw [commands, hq] at hc
      cases hc
      exact absurd hcarried id
    · rfl
  have hselected : p.selected_count p.datagram_cap = 0 := by
    unfold selected_count effective_max_size
    rw [hprobe, if_neg (by decide), h.datagram_cap, h.settings, show p.command_queue.commands = c :: rest from hc]
    unfold select_count
    dsimp only
    unfold frame_len at hlarge
    rw [if_pos (by omega)]
  have hencode : p.encode_queued_commands_bounded codecs p.datagram_cap = (p, .ok none) := by
    rcases encode_bounded_cases codecs p p.datagram_cap with ⟨-, he⟩ | ⟨hne, -⟩
    · exact he
    · exact absurd hselected hne
  have hnext : p.flush_next codecs = (none, p) := by
    rw [flush_next_eq]
    unfold after_encode
    rw [hencode]
    split <;> rfl
  obtain ⟨hout, hend⟩ := (drains_flush codecs p).of_none hnext
  exact Prod.ext hout hend

theorem Wedged.queues (h : Wedged config p) {new : List ProtocolCommand} (hs : Sender config q)
    (hstate : q.state = p.state) (hq : Queues p q new) : Wedged config q := by
  obtain ⟨c, rest, hc, hcarried, hlarge⟩ := h.blocked
  exact { hs with state := hstate ▸ h.state, blocked := ⟨c, rest ++ new, by rw [hq.commands, hc]; rfl, hcarried, hlarge⟩ }

/-- The peer that a packet is queued on is wedged if the `Connect` before it
is. -/
theorem Wedged.process_event {packet : Packet} (h : Wedged config p.record_send.2) (codecs : Codecs)
    (hq : p.record_send.2.enqueue_packet packet = .ok q) :
    ∃ actions p', p.process_event codecs packet = .ok (actions, p') ∧ datagrams actions = [] ∧ Wedged config p' := by
  obtain ⟨n, cq, u, sq, hw⟩ := enqueue_packet_writes hq
  obtain ⟨new, hnew, -⟩ := enqueue_packet_queuesAll hq
  have hwedged := h.queues (by rw [hw]; exact ⟨h.fragment_size, h.settings, h.unlimited, h.sequence⟩) (by rw [hw]) hnew
  refine ⟨(if p.record_send.1 then [.Emit (.Connect p.remote_address)] else []) ++ [], _, ?_, ?_, hwedged⟩
  · unfold Peer.process_event
    simp only [hq, bind, Except.bind, hwedged.flush]
    rfl
  · rw [datagrams_append, datagrams_connect]
    rfl

theorem Wedged.record_send (h : Wedged config p) : Wedged config p.record_send.2 := by
  obtain ⟨st, hst, he⟩ := record_send_eq p
  rw [opening_of_not_idle h.state, queued_nil] at he
  obtain ⟨c, rest, hc, hb⟩ := h.blocked
  rw [he]
  exact ⟨⟨h.fragment_size, h.settings, h.unlimited, h.sequence⟩, hst, c, rest, hc, hb⟩

/-- A wedged peer sends none of its messages. -/
theorem Wedged.send_all {packets : List Packet} (h : Wedged config p.record_send.2) (codecs : Codecs)
    (hp : ∀ packet ∈ packets, ReliableOrdered packet) :
    ∃ actions p', p.send_all codecs packets = .ok (actions, p') ∧ datagrams actions = [] := by
  induction packets generalizing p with
  | nil => exact ⟨[], p, rfl, rfl⟩
  | cons packet packets ih =>
    obtain ⟨actions, q, he, hd, hq⟩ :=
      h.process_event codecs (enqueue_packet_mode (hp packet List.mem_cons_self).packet_mode)
    obtain ⟨more, p', he', hd'⟩ := ih hq.record_send fun x hx => hp x (List.mem_cons_of_mem _ hx)
    refine ⟨actions ++ more, p', ?_, ?_⟩
    · simp only [Peer.send_all, he, he', bind, Except.bind]
      rfl
    · rw [datagrams_append, hd, hd']
      rfl

/-! ## In order on every channel -/

/-- The payloads of the packets of one channel. -/
def payloads (ch : UInt8) (packets : List Packet) : List Bytes :=
  (packets.filter (·.channel_id == ch)).map (·.payload)

/-- The payloads of one channel. -/
def on (ch : UInt8) (contents : List (UInt8 × Bytes)) : List Bytes := (contents.filter (·.1 == ch)).map Prod.snd

theorem payloads_eq (ch : UInt8) (packets : List Packet) : payloads ch packets = on ch (contents packets) := by
  simp only [payloads, on, contents, List.filter_map, List.map_map]
  rfl

theorem on_append (ch : UInt8) (xs ys : List (UInt8 × Bytes)) : on ch (xs ++ ys) = on ch xs ++ on ch ys := by
  simp [on]

theorem payloads_length (ch : UInt8) (packets : List Packet) :
    (payloads ch packets).length = (packets.map Packet.channel_id).count ch := by
  rw [payloads, List.length_map, List.count, List.countP_map, List.countP_eq_length_filter]
  rfl

/-- At most one message of each channel is among the first ones. -/
theorem on_firsts_length (ch : UInt8) (seen : List UInt8) (packets : List Packet) :
    (on ch (firsts seen packets)).length ≤ if ch ∈ seen then 0 else 1 := by
  induction packets generalizing seen with
  | nil => exact Nat.zero_le _
  | cons packet packets ih =>
    have hrest := ih (packet.channel_id :: seen)
    rw [firsts, on_append, List.length_append]
    by_cases hch : packet.channel_id = ch
    · subst hch
      rw [if_pos List.mem_cons_self] at hrest
      unfold once
      split
      · simpa [on] using hrest
      · have hone : (on packet.channel_id [(packet.channel_id, packet.payload)]).length ≤ 1 := by simp [on]
        omega
    · have hnone : on ch (once seen packet.channel_id packet.payload) = [] := by
        unfold once
        split <;> simp [on, hch]
      have hmem : ch ∈ packet.channel_id :: seen ↔ ch ∈ seen := by simp [Ne.symm hch]
      rw [hnone]
      simp only [hmem] at hrest
      simpa using hrest

/-- With one message to a channel, the first ones are all. -/
theorem firsts_of_nodup {packets : List Packet} {seen : List UInt8} (h : (packets.map Packet.channel_id).Nodup)
    (hs : ∀ packet ∈ packets, packet.channel_id ∉ seen) : firsts seen packets = contents packets := by
  induction packets generalizing seen with
  | nil => rfl
  | cons packet packets ih =>
    rw [List.map_cons, List.nodup_cons] at h
    have hseen : ∀ x ∈ packets, x.channel_id ∉ packet.channel_id :: seen := by
      intro x hx
      rw [List.mem_cons, not_or]
      exact ⟨fun he => h.1 (he ▸ List.mem_map_of_mem hx), hs x (List.mem_cons_of_mem _ hx)⟩
    have hrest := ih h.2 hseen
    rw [firsts, hrest, once, if_neg (hs packet List.mem_cons_self)]
    rfl

/-- The packets are handed to the sender one by one and its datagrams to the
receiver, in order, whenever they arrive: every channel gets its payloads, in
the order they were sent. -/
def DeliversInOrder (codecs : Codecs) (sender receiver : Peer) (packets : List Packet) : Prop :=
  ∃ actions sender', sender.send_all codecs packets = .ok (actions, sender') ∧
    ∀ arrivals : List (Bytes × Instant × UInt16), arrivals.map Prod.fst = datagrams actions →
      ∃ events receiver', receiver.receive_all codecs arrivals = .ok (events, receiver') ∧
        ∀ ch, payloads ch (emitted events) = payloads ch packets

section Fresh

variable (addr addr' : SocketAddr) (config : Config) (time time' : Instant) (draw draw' : PeerDraw)

theorem openingFits_new :
    OpeningFits config (.new addr config time draw) ↔
      (config.use_connection_handshake = false ∨ static_overhead config + 14 ≤ fresh_cap config) := by
  unfold OpeningFits opening
  cases hh : config.use_connection_handshake with
  | false => simp [Peer.new, hh]
  | true => simp [Peer.new, hh, frame_len, show ∀ a b c d e, (encode_command (.Connect a b c d e)).length = 12 from
      fun _ _ _ _ _ => rfl]

/-- What is transmitted to a fresh peer is the first message of each channel. -/
theorem Quiet.deliver_firsts {packets : List Packet} (hc : codecs.Lossless) (ht : codecs.Total)
    (hcap : CapCarriesFragment config) (hlimit : config.outgoing_bandwidth_limit = 0)
    (hlimit' : config.incoming_bandwidth_limit = 0) (hopen : OpeningFits config (.new addr config time draw))
    (hp : ∀ packet ∈ packets, ReliableOrdered packet ∧ Sendable config packet) :
    ∃ actions p', (Peer.new addr config time draw).send_all codecs packets = .ok (actions, p') ∧
      ∀ arrivals : List (Bytes × Instant × UInt16), arrivals.map Prod.fst = datagrams actions →
        ∃ events r', (Peer.new addr' config time' draw').receive_all codecs arrivals = .ok (events, r') ∧
          contents (emitted events) = firsts [] packets := by
  obtain ⟨actions, p', cmds, he, htr, hcarried, hstream⟩ :=
    (quiet_new addr time draw hlimit).send_all hc ht hcap hopen hp
  refine ⟨actions, p', he, fun arrivals harr => ?_⟩
  rw [← harr] at htr
  obtain ⟨events, r', hr, hs⟩ := receive_all_stream (receives_new addr' time' draw' hlimit') htr hcarried
  refine ⟨events, r', hr, hstream _ r' _ [] ⟨fun ch _ => ?_, by simp⟩ ?_ hs⟩
  · simp [channel_state, Peer.new]
  · simp [Peer.new]

theorem wedged_new (hlimit : config.outgoing_bandwidth_limit = 0)
    (h : ¬ OpeningFits config (.new addr config time draw)) :
    Wedged config (Peer.new addr config time draw).record_send.2 := by
  obtain ⟨hs, hcmds, hstate, -⟩ := (quiet_new addr time draw hlimit).record_send
  unfold OpeningFits at h
  push Not at h
  obtain ⟨c, hm, hlarge⟩ := h
  refine { hs with state := hstate, blocked := ⟨c, [], ?_, carried_opening _ c hm, hlarge⟩ }
  rw [hcmds]
  have hlen := opening_length (Peer.new addr config time draw)
  obtain ⟨c', hone⟩ : ∃ c', (Peer.new addr config time draw).opening = [c'] :=
    List.length_eq_one_iff.1 (Nat.le_antisymm hlen (List.length_pos_of_mem hm))
  rw [hone] at hm ⊢
  rw [List.mem_singleton.1 hm]

/-- The datagrams arrive all at once. -/
def at_once (sent : List Bytes) : List (Bytes × Instant × UInt16) := sent.map fun bytes => (bytes, 0, 0)

theorem at_once_fst (sent : List Bytes) : (at_once sent).map Prod.fst = sent := by
  rw [at_once, List.map_map]
  exact List.map_id _

/-- Reliable ordered messages are delivered exactly if no two are on one
channel, and the `Connect` of a handshake fits a datagram. -/
theorem delivers_in_order_iff (hc : codecs.Lossless) (ht : codecs.Total) (hcap : CapCarriesFragment config)
    (hlimit : config.outgoing_bandwidth_limit = 0) (hlimit' : config.incoming_bandwidth_limit = 0)
    {packets : List Packet} (hp : ∀ packet ∈ packets, ReliableOrdered packet ∧ Sendable config packet) :
    DeliversInOrder codecs (.new addr config time draw) (.new addr' config time' draw') packets ↔
      (packets.map Packet.channel_id).Nodup ∧
        (packets = [] ∨ config.use_connection_handshake = false ∨ static_overhead config + 14 ≤ fresh_cap config) := by
  rw [← openingFits_new addr config time draw]
  cases packets with
  | nil =>
    refine iff_of_true ⟨[], _, rfl, fun arrivals harr => ?_⟩ ⟨.nil, .inl rfl⟩
    obtain rfl := List.map_eq_nil_iff.1 harr
    exact ⟨[], _, rfl, fun ch => rfl⟩
  | cons packet packets =>
    simp only [reduceCtorEq, false_or]
    by_cases hopen : OpeningFits config (.new addr config time draw)
    · obtain ⟨actions, p', he, hdeliver⟩ := Quiet.deliver_firsts addr addr' config time time' draw draw' hc ht hcap
        hlimit hlimit' hopen hp
      refine ⟨?_, ?_⟩
      · rintro ⟨actions', p'', he', h⟩
        rw [he] at he'
        cases he'
        obtain ⟨events, r', hr, hout⟩ := hdeliver _ (at_once_fst _)
        obtain ⟨events', r'', hr', hpay⟩ := h _ (at_once_fst _)
        rw [hr] at hr'
        cases hr'
        -- all messages of a channel arrive, but only its first one can
        refine ⟨List.nodup_iff_count_le_one.2 fun ch => ?_, hopen⟩
        have hle := on_firsts_length ch [] (packet :: packets)
        rw [← hout, ← payloads_eq, hpay, payloads_length] at hle
        simpa using hle
      · rintro ⟨hnodup, -⟩
        refine ⟨actions, p', he, fun arrivals harr => ?_⟩
        obtain ⟨events, r', hr, hout⟩ := hdeliver arrivals harr
        refine ⟨events, r', hr, fun ch => ?_⟩
        rw [payloads_eq, payloads_eq, hout, firsts_of_nodup hnodup (by simp)]
    · obtain ⟨actions, p', he, hnone⟩ := (wedged_new addr config time draw hlimit hopen).send_all
        codecs fun x hx => (hp x hx).1
      -- a `Connect` that fits no datagram holds back all that follows
      refine iff_of_false ?_ fun h => hopen h.2
      rintro ⟨actions', p'', he', h⟩
      rw [he] at he'
      cases he'
      obtain ⟨events, r', hr, hpay⟩ := h [] hnone.symm
      cases hr
      have := congrArg List.length (hpay packet.channel_id)
      rw [payloads_length, payloads_length] at this
      simp [emitted] at this

end Fresh

/-- A reliable ordered message of one byte. -/
def ordered_byte (ch byte : UInt8) : Packet := ⟨⟨.V4 0, 0⟩, [byte], .Reliable, .Ordered none, ch⟩

/-- The default configuration without bandwidth limits. -/
def unlimited : Config := { Config.default with outgoing_bandwidth_limit := 0, incoming_bandwidth_limit := 0 }

def unlimited_peer : Peer := .new ⟨.V4 0, 0⟩ unlimited 0 ⟨0, 0, 0⟩

theorem ordered_byte_sendable (ch byte : UInt8) :
    ReliableOrdered (ordered_byte ch byte) ∧ Sendable unlimited (ordered_byte ch byte) := by
  refine ⟨⟨rfl, none, rfl⟩, fun mode hm => ?_, .inr (show 1 ≤ unlimited.max_waiting_data by decide)⟩
  cases hm
  exact .inl (by change 1 ≤ budget unlimited 7; decide)

/-- Two messages on two channels. -/
theorem delivers_two_channels :
    DeliversInOrder .checked unlimited_peer unlimited_peer [ordered_byte 1 5, ordered_byte 2 6] := by
  have hp : ∀ packet ∈ [ordered_byte 1 5, ordered_byte 2 6],
      ReliableOrdered packet ∧ Sendable unlimited packet := by
    simp only [List.mem_cons, List.not_mem_nil, or_false, forall_eq_or_imp, forall_eq]
    exact ⟨ordered_byte_sendable 1 5, ordered_byte_sendable 2 6⟩
  exact (delivers_in_order_iff _ _ _ _ _ _ _ Codecs.checked_lossless Codecs.checked_total
    (by unfold CapCarriesFragment; decide) rfl rfl hp).2 ⟨by decide, by decide⟩

/-- Of two messages on one channel the second is not delivered. -/
theorem second_message_waits :
    ¬ DeliversInOrder .checked unlimited_peer unlimited_peer [ordered_byte 1 5, ordered_byte 1 6] := by
  rintro ⟨actions, sender', he, h⟩
  obtain ⟨⟨actions', sender''⟩, he', hout⟩ := exists_ok
    (x := unlimited_peer.send_all .checked [ordered_byte 1 5, ordered_byte 1 6])
    (p := fun out => (unlimited_peer.receive_all .checked (at_once (datagrams out.1))).toOption.any fun received =>
      payloads 1 (emitted received.1) == [[5]]) (by decide +kernel)
  obtain ⟨⟨events', receiver''⟩, hr', hone⟩ := exists_ok hout
  rw [he] at he'
  cases he'
  obtain ⟨events, receiver', hr, hpay⟩ := h _ (at_once_fst _)
  rw [hr] at hr'
  cases hr'
  have htwo := (hpay 1).symm.trans (beq_iff_eq.1 hone)
  exact absurd htwo (by decide)

end Peer

end Bitfold
