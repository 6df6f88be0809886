import Bitfold.Fidelity
import Bitfold.Integrity
/-!
# Where a packet comes from

A packet that a session delivers was sent by the other user: it was one
command, or it was put together from fragments of messages with one sequence,
each of them at its own place (`Comes`). Messages sent unreliably have
sequences of their own until the counter wraps, so then the fragments are
those of one message.
-/

namespace Bitfold

open Lib ProtocolCommand

/-! ## What the users send -/

/-- The packet that the user of this side sends in a step, with the session
that it is sent through. -/
def submission (side : Side) (x : Network Endpoint Bytes × (Side × LinkOp)) : Option (Peer × Packet) :=
  match x.2 with
  | (s, .session (.process_event event)) => if s = side then some ((x.1.state side).peer, event) else none
  | _ => none

def submissions (side : Side) (steps : List (Network Endpoint Bytes × (Side × LinkOp))) : List (Peer × Packet) :=
  steps.filterMap (submission side)

section Submissions

variable {codecs : Codecs} {origins : Side → Origin} {n n' : Network Endpoint Bytes} {side : Side}
  {steps : List (Network Endpoint Bytes × (Side × LinkOp))}

theorem submissions_snoc (side : Side) (steps : List (Network Endpoint Bytes × (Side × LinkOp)))
    (x : Network Endpoint Bytes × (Side × LinkOp)) :
    submissions side (steps ++ [x]) = submissions side steps ++ (submission side x).toList := by
  unfold submissions
  rw [List.filterMap_append]
  cases h : submission side x <;> simp [h]

theorem mem_submissions {event : Packet} (h : (n, (side, .session (.process_event event))) ∈ steps) :
    ((n.state side).peer, event) ∈ submissions side steps := by
  apply List.mem_filterMap.2
  exact ⟨_, h, if_pos rfl⟩

/-- They are the packets that the session has been given. -/
theorem submissions_sent (h : LinkRun codecs (new_link origins) steps n) (side : Side) :
    (submissions side steps).map Prod.snd = (n.state side).sent := by
  induction h with
  | start => rfl
  | @next steps m x n' _ hs ih =>
    obtain ⟨s, op⟩ := x
    obtain ⟨out, t, ⟨actions, q, -, -, rfl⟩, -, rfl⟩ := hs
    rw [submissions_snoc, List.map_append, ih]
    rcases s.eq_or_eq_other side with rfl | rfl
    · simp only [Function.update_self]
      congr 1
      unfold submission LinkOp.packets
      cases op with
      | disconnect => rfl
      | session op => cases op <;> simp
    · simp only [Function.update_of_ne (Side.other_ne _)]
      unfold submission
      cases op with
      | disconnect => simp
      | session op => cases op <;> simp [(Side.other_ne s).symm]

end Submissions

/-! ## Where it comes from -/

namespace CommandFragmentBuffer

/-- What is put together is what is in the buffer, in order. -/
theorem collect_some {ids : List UInt8} {fragments : Std.ExtTreeMap UInt8 Bytes} {data : Bytes} (hn : ids.Nodup)
    (h : collect fragments ids = some data) :
    (∀ i ∈ ids, ∃ d, fragments[i]? = some d) ∧ data = (ids.map fun i => fragments[i]?.getD []).flatten := by
  have hall : ∀ i ∈ ids, ∃ d, fragments[i]? = some d := by
    clear hn
    induction ids generalizing fragments data with
    | nil => simp
    | cons i ids ih =>
      rw [collect] at h
      split at h
      · rename_i d hd
        obtain ⟨rest, hrest, -⟩ := Option.map_eq_some_iff.1 h
        rw [List.forall_mem_cons]
        refine ⟨⟨d, hd⟩, fun j hj => ?_⟩
        obtain ⟨d', hd'⟩ := ih hrest j hj
        rw [Std.ExtTreeMap.getElem?_erase] at hd'
        split at hd'
        · cases hd'
        · exact ⟨d', hd'⟩
      · cases h
  refine ⟨hall, ?_⟩
  have hchunks : ∀ i ∈ ids, fragments[i]? = some (fragments[i]?.getD []) := by
    intro i hi
    obtain ⟨d, hd⟩ := hall i hi
    simp [hd]
  have hcollect := collect_eq hn hchunks
  rw [h] at hcollect
  exact Option.some.inj hcollect

end CommandFragmentBuffer

section Provenance

variable {sent : Set (Peer × Packet)} {g : Group} {ch : UInt8} {data : Bytes} {d : DeliveryGuarantee}
  {o : OrderingGuarantee}

/-- The fragments of one of these packets. -/
def Fragmented (sent : Set (Peer × Packet)) (g : Group) : Prop :=
  ∃ x ∈ sent, Peer.packet_mode x.2 = some g.mode ∧ x.1.GroupOf g.mode x.2 g

/-- Put together from fragments: as many as a message on this channel has, each
from its own place in a message with the same sequence. -/
def Woven (sent : Set (Peer × Packet)) (ch : UInt8) (data : Bytes) : Prop :=
  ∃ g, ∃ source : UInt8 → Group, Fragmented sent g ∧ g.channel_id = ch ∧
    (∀ i < g.fragment_count, Fragmented sent (source i) ∧ (source i).sequence = g.sequence ∧
      i < (source i).fragment_count) ∧
    data = (((List.range g.fragment_count.toNat).map UInt8.ofNat).map fun i => (source i).chunk i).flatten

/-- What was sent comes out: a whole packet, a packet put together, or a chunk
of an unsequenced one. -/
inductive Comes (sent : Set (Peer × Packet)) (d : DeliveryGuarantee) (o : OrderingGuarantee) (ch : UInt8)
    (data : Bytes) : Prop where
  | whole (x : Peer × Packet) (mode : Mode) (hx : x ∈ sent) (hmode : Peer.packet_mode x.2 = some mode)
      (hd : d = mode.delivery) (ho : o = .None ∨ mode.ordered = true ∧ o = .Ordered none) (hch : ch = x.2.channel_id)
      (hdata : data = x.2.payload)
  | woven (g : Group) (hg : Fragmented sent g) (hd : d = g.mode.delivery)
      (ho : o = .None ∨ d = .Reliable ∧ o = .Ordered none) (hdata : Woven sent ch data)
  | chunk (x : Peer × Packet) (k : Nat) (hx : x ∈ sent) (hmode : Peer.packet_mode x.2 = none) (hd : d = .Unreliable)
      (ho : o = .Unsequenced) (hch : ch = x.2.channel_id)
      (hdata : data = (x.2.payload.drop (k * x.1.max_payload_unseq)).take x.1.max_payload_unseq)

/-- A buffer was opened by a fragment of a packet, and holds fragments of
messages with its sequence. -/
def Gathered (sent : Set (Peer × Packet)) (s : UInt16) (b : CommandFragmentBuffer) : Prop :=
  (∃ g, Fragmented sent g ∧ g.sequence = s ∧ g.channel_id = b.channel_id ∧ g.fragment_count = b.fragment_count ∧
    g.mode.ordered = b.ordered) ∧
  ∀ (i : UInt8) (data : Bytes), b.fragments[i]? = some data →
    ∃ g, Fragmented sent g ∧ g.sequence = s ∧ i < g.fragment_count ∧ data = g.chunk i

theorem Gathered.woven {s : UInt16} {b : CommandFragmentBuffer} (h : Gathered sent s b) (hr : b.reassemble = some data) :
    Woven sent b.channel_id data := by
  unfold CommandFragmentBuffer.reassemble at hr
  split at hr
  · cases hr
  · obtain ⟨hall, hdata⟩ := CommandFragmentBuffer.collect_some (CommandFragmentBuffer.nodup_ids _) hr
    obtain ⟨g, hg, hs, hch, hcount, -⟩ := h.1
    have hfrom : ∀ i, ∃ g', i < b.fragment_count → Fragmented sent g' ∧ g'.sequence = s ∧ i < g'.fragment_count ∧
        b.fragments[i]?.getD [] = g'.chunk i := by
      intro i
      by_cases hi : i < b.fragment_count
      · obtain ⟨d, hd⟩ := hall i (CommandFragmentBuffer.mem_ids.2 hi)
        obtain ⟨g', hg', hs', hlt, rfl⟩ := h.2 i d hd
        exact ⟨g', fun _ => ⟨hg', hs', hlt, by simp [hd]⟩⟩
      · exact ⟨g, fun h => absurd h hi⟩
    choose source hsource using hfrom
    refine ⟨g, source, hg, hch, fun i hi => ?_, ?_⟩
    · rw [hcount] at hi
      obtain ⟨hf, hs', hlt, -⟩ := hsource i hi
      exact ⟨hf, hs'.trans hs.symm, hlt⟩
    · rw [hdata, hcount]
      congr 1
      apply List.map_congr_left
      intro i hi
      exact (hsource i (CommandFragmentBuffer.mem_ids.1 hi)).2.2.2

/-- What the packets are cut into may come in; what comes of it may come out. -/
def cut_policy (sent : Set (Peer × Packet)) : Policy where
  command c := carries_data c = true → ∃ x ∈ sent, x.1.Cuts x.2 c
  buffers := Gathered sent
  waits ch data := Comes sent .Reliable (.Ordered none) ch data
  delivers := Comes sent

/-- A command with a message whole. -/
theorem cuts_whole (mode : Mode) (s : UInt16) {p : Peer} {event : Packet} {x : SharedBytes}
    (h : p.Cuts event (mode.whole ch s x)) :
    Peer.packet_mode event = some mode ∧ ch = event.channel_id ∧ x.as_slice = event.payload := by
  cases h with
  | whole mode' y hmode hfits hd hc =>
    cases mode <;> cases mode' <;> cases hc <;> exact ⟨hmode, rfl, hd⟩
  | fragment mode' g hmode hg hc =>
    obtain ⟨j, y, -, -, hc⟩ := hc
    unfold Group.command at hc
    cases mode <;> cases hm : g.mode <;> rw [hm] at hc <;> cases hc
  | chunk k group y hmode hd hc => cases mode <;> cases hc

/-- A command with a fragment. -/
theorem cuts_fragment {p : Peer} {event : Packet} {mode : Mode} {s : UInt16} {i n : UInt8} {x : SharedBytes}
    (h : p.Cuts event (mode.fragment ch s i n x)) :
    ∃ g, g.mode = mode ∧ Peer.packet_mode event = some mode ∧ p.GroupOf mode event g ∧ g.channel_id = ch ∧
      g.sequence = s ∧ g.fragment_count = n ∧ i < n ∧ x.as_slice = g.chunk i := by
  cases h with
  | whole mode' y hmode hfits hd hc => cases mode <;> cases mode' <;> cases hc
  | fragment mode' g hmode hg hc =>
    obtain ⟨j, y, hj, hchunk, hc⟩ := hc
    obtain rfl := hg.mode
    unfold Group.command at hc
    refine ⟨g, ?_⟩
    cases mode <;> cases hm : g.mode <;> rw [hm] at hc hmode hg <;> cases hc <;>
      exact ⟨rfl, hmode, hg, rfl, rfl, rfl, hj, hchunk⟩
  | chunk k group y hmode hd hc => cases mode <;> cases hc

theorem cut_policy_sound (sent : Set (Peer × Packet)) : (cut_policy sent).Sound where
  quiet h := by
    intro h'
    rw [h] at h'
    cases h'
  owned := by
    intro c h hcarries
    have hold : carries_data c = true := by
      cases c <;> first | rfl | cases hcarries
    obtain ⟨x, hx, hcuts⟩ := h hold
    refine ⟨x, hx, ?_⟩
    cases hcuts with
    | whole mode d hmode hfits hd hc =>
      refine .whole mode (.from_vec d.as_slice) hmode hfits (by simpa using hd) ?_
      rw [hc]
      cases mode <;> rfl
    | fragment mode g hmode hg hc =>
      obtain ⟨j, d, hj, hchunk, rfl⟩ := hc
      refine .fragment mode g hmode hg ⟨j, .from_vec d.as_slice, hj, by simpa using hchunk, ?_⟩
      unfold Group.command
      cases g.mode <;> rfl
    | chunk k group d hmode hd hc =>
      refine .chunk k group (.from_vec d.as_slice) hmode (by simpa using hd) ?_
      rw [hc]
      rfl
  ordered := by
    intro ch s d h
    obtain ⟨x, hx, hcuts⟩ := h rfl
    obtain ⟨hmode, hch, hd⟩ := cuts_whole (.Reliable true) s hcuts
    exact .whole x _ hx hmode rfl (.inr ⟨rfl, rfl⟩) hch hd
  reliable := by
    intro ch s d h
    obtain ⟨x, hx, hcuts⟩ := h rfl
    obtain ⟨hmode, hch, hd⟩ := cuts_whole (.Reliable false) s hcuts
    exact .whole x _ hx hmode rfl (.inl rfl) hch hd
  unreliable := by
    intro ch d h
    obtain ⟨x, hx, hcuts⟩ := h rfl
    obtain ⟨hmode, hch, hd⟩ := cuts_whole .Unreliable 0 hcuts
    exact .whole x _ hx hmode rfl (.inl rfl) hch hd
  sequenced := by
    intro ch s d h
    obtain ⟨x, hx, hcuts⟩ := h rfl
    cases hcuts with
    | whole mode d hmode hfits hd hc => cases mode <;> cases hc
    | fragment mode g hmode hg hc =>
      obtain ⟨j, y, -, -, hc⟩ := hc
      unfold Group.command at hc
      cases hm : g.mode <;> rw [hm] at hc <;> cases hc
    | chunk k group d hmode hd hc => cases hc
  unsequenced := by
    intro ch s d h
    obtain ⟨x, hx, hcuts⟩ := h rfl
    cases hcuts with
    | whole mode d hmode hfits hd hc => cases mode <;> cases hc
    | fragment mode g hmode hg hc =>
      obtain ⟨j, y, -, -, hc⟩ := hc
      unfold Group.command at hc
      cases hm : g.mode <;> rw [hm] at hc <;> cases hc
    | chunk k group d hmode hd hc =>
      cases hc
      exact .chunk x k hx hmode rfl rfl rfl hd
  opens := by
    intro mode ch s i n d h t
    obtain ⟨x, hx, hcuts⟩ := h (by cases mode <;> rfl)
    obtain ⟨g, rfl, hmode, hg, rfl, rfl, rfl, hi, hchunk⟩ := cuts_fragment hcuts
    refine ⟨⟨g, ⟨x, hx, hmode, hg⟩, rfl, rfl, rfl, rfl⟩, fun j data hj => ?_⟩
    simp only [CommandFragmentBuffer.add_fragment, CommandFragmentBuffer.new, Std.ExtTreeMap.getElem?_insert,
      Std.compare_eq_iff_eq, Std.ExtTreeMap.getElem?_empty] at hj
    split at hj
    · rename_i he
      cases hj
      exact ⟨g, ⟨x, hx, hmode, hg⟩, rfl, he ▸ hi, he ▸ hchunk⟩
    · cases hj
  joins := by
    intro mode ch s i n d b h hb
    obtain ⟨x, hx, hcuts⟩ := h (by cases mode <;> rfl)
    obtain ⟨g, rfl, hmode, hg, rfl, rfl, rfl, hi, hchunk⟩ := cuts_fragment hcuts
    refine ⟨hb.1, fun j data hj => ?_⟩
    simp only [CommandFragmentBuffer.add_fragment, Std.ExtTreeMap.getElem?_insert, Std.compare_eq_iff_eq] at hj
    split at hj
    · rename_i he
      cases hj
      exact ⟨g, ⟨x, hx, hmode, hg⟩, rfl, he ▸ hi, he ▸ hchunk⟩
    · exact hb.2 j data hj
  reassembled := by
    intro mode ch s i n d b data h hb hr
    obtain ⟨x, hx, hcuts⟩ := h (by cases mode <;> rfl)
    obtain ⟨g, rfl, hmode, hg, -⟩ := cuts_fragment hcuts
    have hwoven := hb.woven hr
    refine ⟨fun ho => ?_, .woven g ⟨x, hx, hmode, hg⟩ rfl (.inl rfl) hwoven⟩
    obtain ⟨g', hg', -, -, -, hordered⟩ := hb.1
    rw [ho] at hordered
    refine .woven g' hg' ?_ (.inr ⟨rfl, rfl⟩) hwoven
    cases hm : g'.mode with
    | Reliable o => rfl
    | Unreliable =>
      rw [hm] at hordered
      cases hordered
  released h := h
  completed := by
    intro ch s o i n d b data h hb hw
    cases hw with
    | whole x mode hx hmode hd ho hch hdata => exact .whole x mode hx hmode hd (.inl rfl) hch hdata
    | woven g hg hd ho hdata => exact .woven g hg hd (.inl rfl) hdata
    | chunk x k hx hmode hd ho hch hdata => cases ho

end Provenance

/-! ## Sequences of unreliable messages -/

namespace Peer

variable {codecs : Codecs} {p q : Peer} {t : Instant} {draw : UInt16}

theorem process_command_sequence {c : ProtocolCommand} {r : Processed} (h : p.process_command c t draw = .ok (q, r)) :
    q.next_unreliable_sequence = p.next_unreliable_sequence := by
  cases ht : is_traffic c with
  | true =>
    obtain ⟨t', u, hd, n, cq, fs, cs, rfl⟩ := (handles_of_traffic ht h).1.writes
    rfl
  | false =>
    cases c with
    | Connect chs m v sid cid =>
      rw [process_command_connect] at h
      cases h
      unfold process_connect
      split <;> rfl
    | VerifyConnect pid chs m isid osid w =>
      obtain ⟨i, n, f, st, rfl⟩ := process_verify_connect_writes h
      rfl
    | Disconnect n | BandwidthLimit i o | ThrottleConfigure i a d | PMTUReply size token =>
      cases h
      rfl
    | _ => cases ht

/-- A message that is sent unreliably takes the next sequence. -/
theorem enqueue_packet_sequence {event : Packet} (h : p.enqueue_packet event = .ok q) :
    q.next_unreliable_sequence =
      if packet_mode event = some .Unreliable then p.next_unreliable_sequence + 1 else p.next_unreliable_sequence := by
  cases hmode : packet_mode event with
  | some mode =>
    rw [enqueue_packet_mode hmode] at h
    cases h
    obtain ⟨n, cq, he⟩ := requeue_writes (p.numbered mode) (p.message_commands mode event.channel_id event.payload)
    rw [he]
    cases mode with
    | Reliable o => rfl
    | Unreliable => rfl
  | none =>
    rw [if_neg (by simp)]
    unfold packet_mode at hmode
    split at hmode
    · cases hmode
    · rename_i hdelivery hordering
      unfold enqueue_packet at h
      rw [hdelivery, hordering] at h
      obtain ⟨n, cq, u, rfl⟩ := enqueue_chunks_writes h
      rfl
    · cases hmode

theorem process_event_sequence {event : Packet} {actions : List Action}
    (h : p.process_event codecs event = .ok (actions, q)) :
    q.next_unreliable_sequence =
      if packet_mode event = some .Unreliable then p.next_unreliable_sequence + 1 else p.next_unreliable_sequence := by
  obtain ⟨r, hr, -, rfl⟩ := process_event_ok h
  obtain ⟨n, cq, st, b, he⟩ := flush_writes codecs r
  obtain ⟨st', cq', hsend⟩ := record_send_writes p
  have hnext := enqueue_packet_sequence hr
  rw [hsend] at hnext
  rw [he]
  exact hnext

/-- No other operation touches the counter. -/
theorem serve_sequence {op : LinkOp} {actions : List Action} (hop : op.packets = [])
    (h : p.serve codecs op = .ok (actions, q)) : q.next_unreliable_sequence = p.next_unreliable_sequence := by
  cases op with
  | disconnect =>
    cases h
    unfold disconnect
    split <;> rfl
  | session op =>
    cases op with
    | process_packet payload t draw =>
      cases ht : p.takes payload t with
      | false =>
        obtain ⟨-, rfl⟩ := process_packet_not_taken ht h
        split <;> rfl
      | true =>
        exact (process_packet_invariant (K := fun _ _ => True)
          (J := fun q => q.next_unreliable_sequence = p.next_unreliable_sequence)
          (fun hp _ hq => (process_command_sequence hq).trans hp) (fun _ hp => hp) (fun _ hp => hp) ht
          (fun _ _ => trivial) h rfl).2
    | process_event event => cases hop
    | update time elapsed probe =>
      obtain ⟨n, cq, stats, b, pm, he⟩ := update_writes codecs p time elapsed probe
      obtain rfl : (p.update codecs time elapsed probe).2 = q := congrArg Prod.snd (Except.ok.inj h)
      rw [he]
    | should_drop time =>
      cases h
      rfl

end Peer

/-- Those sent unreliably, in order. -/
def unreliable (sent : List (Peer × Packet)) : List (Peer × Packet) :=
  sent.filter fun x => Peer.packet_mode x.2 = some .Unreliable

section Numbers

variable {codecs : Codecs} {origins : Side → Origin} {n : Network Endpoint Bytes} {side : Side}
  {steps : List (Network Endpoint Bytes × (Side × LinkOp))} {checks : Bool}

theorem unreliable_append (xs ys : List (Peer × Packet)) : unreliable (xs ++ ys) = unreliable xs ++ unreliable ys :=
  List.filter_append ..

/-- A step of a run, seen from one side: its user sends a packet, or its
counter stays. -/
theorem step_submission {m n' : Network Endpoint Bytes} {x : Side × LinkOp} (hs : Network.Step (link codecs) m x n')
    (side : Side) :
    (submission side (m, x) = none ∧
      (n'.state side).peer.next_unreliable_sequence = (m.state side).peer.next_unreliable_sequence) ∨
    ∃ event, submission side (m, x) = some ((m.state side).peer, event) ∧
      (n'.state side).peer.next_unreliable_sequence = if Peer.packet_mode event = some .Unreliable then
        (m.state side).peer.next_unreliable_sequence + 1 else (m.state side).peer.next_unreliable_sequence := by
  obtain ⟨s, op⟩ := x
  obtain ⟨out, t, ⟨actions, q, hserve, -, rfl⟩, -, rfl⟩ := hs
  dsimp only at hserve ⊢
  rcases s.eq_or_eq_other side with rfl | rfl
  · rw [Function.update_self]
    unfold submission
    cases op with
    | disconnect => exact .inl ⟨rfl, Peer.serve_sequence rfl hserve⟩
    | session op =>
      cases op with
      | process_event event => exact .inr ⟨event, if_pos rfl, Peer.process_event_sequence hserve⟩
      | _ => exact .inl ⟨rfl, Peer.serve_sequence rfl hserve⟩
  · rw [Function.update_of_ne (Side.other_ne _)]
    refine .inl ⟨?_, rfl⟩
    unfold submission
    cases op with
    | disconnect => rfl
    | session op => cases op <;> simp [(Side.other_ne s).symm]

/-- They are numbered from 0 on. -/
theorem unreliable_numbered (h : LinkRun codecs (new_link origins) steps n) (side : Side) :
    ((unreliable (submissions side steps)).map fun x => x.1.next_unreliable_sequence) =
        (List.range (unreliable (submissions side steps)).length).map UInt16.ofNat ∧
      (n.state side).peer.next_unreliable_sequence = .ofNat (unreliable (submissions side steps)).length := by
  induction h with
  | start => exact ⟨rfl, rfl⟩
  | @next steps m x n' _ hs ih =>
    obtain ⟨hnumbers, hnext⟩ := ih
    rw [submissions_snoc, unreliable_append]
    rcases step_submission hs side with ⟨hnone, hsame⟩ | ⟨event, hsome, hstep⟩
    · rw [hnone, hsame]
      simpa [unreliable] using ⟨hnumbers, hnext⟩
    · rw [hsome, hstep, hnext]
      by_cases hmode : Peer.packet_mode event = some .Unreliable
      · have hnew : unreliable (some ((m.state side).peer, event)).toList = [((m.state side).peer, event)] := by
          simp [unreliable, hmode]
        rw [hnew, if_pos hmode, List.map_append, hnumbers, List.length_append, List.length_singleton, List.range_succ,
          List.map_append, List.map_singleton, hnext, UInt16.ofNat_add]
        exact ⟨rfl, rfl⟩
      · have hnew : unreliable (some ((m.state side).peer, event)).toList = [] := by simp [unreliable, hmode]
        rw [hnew, if_neg hmode, List.append_nil]
        exact ⟨hnumbers, rfl⟩

theorem nodup_ofNat {k : Nat} (hk : k ≤ 65536) : ((List.range k).map UInt16.ofNat).Nodup := by
  refine List.Nodup.map_on ?_ List.nodup_range
  intro i hi j hj he
  rw [List.mem_range] at hi hj
  have heq := congrArg UInt16.toNat he
  rw [UInt16.toNat_ofNat', UInt16.toNat_ofNat'] at heq
  omega

/-- Until the counter wraps, no two of them have the same number. -/
theorem unreliable_inj (h : LinkRun codecs (new_link origins) steps n) (side : Side)
    (hfew : (unreliable (submissions side steps)).length ≤ 65536) {x y : Peer × Packet}
    (hx : x ∈ unreliable (submissions side steps)) (hy : y ∈ unreliable (submissions side steps))
    (he : x.1.next_unreliable_sequence = y.1.next_unreliable_sequence) : x = y := by
  have hnodup : ((unreliable (submissions side steps)).map fun x => x.1.next_unreliable_sequence).Nodup := by
    rw [(unreliable_numbered h side).1]
    exact nodup_ofNat hfew
  exact List.inj_on_of_nodup_map hnodup hx hy he

/-! ## Delivered packets -/

/-- The packets that were sent from one side. -/
def submitted (side : Side) (steps : List (Network Endpoint Bytes × (Side × LinkOp))) : Set (Peer × Packet) :=
  {x | x ∈ submissions side steps}

theorem cut_policy_command (steps : List (Network Endpoint Bytes × (Side × LinkOp))) {m : Network Endpoint Bytes}
    {event : Packet} (hm : (m, (side, .session (.process_event event))) ∈ steps) {c : ProtocolCommand}
    (h : (m.state side).peer.Cuts event c) : (cut_policy (submitted side steps)).command c := by
  intro _
  exact ⟨_, mem_submissions hm, h⟩

/-- Two sides with datagrams of at most 20 bytes. -/
def narrow : Side → Origin
  | .left => ⟨⟨.V4 1, 0⟩, { Config.default with receive_buffer_max_size := 20 }, 0, ⟨7, 8, 0⟩⟩
  | .right => ⟨⟨.V4 0, 0⟩, { Config.default with receive_buffer_max_size := 20 }, 0, ⟨7, 9, 0⟩⟩

/-- A packet that needs five fragments. -/
def long_packet (b : UInt8) : Packet := ⟨⟨.V4 0, 0⟩, List.replicate 20 b, .Unreliable, .None, b⟩

/-- Two packets, whose fragments come mixed, one of them twice. -/
def mixed : List (Side × (Network Endpoint Bytes → LinkOp)) :=
  [Endpoint.sends .left (long_packet 1), Endpoint.sends .left (long_packet 2)] ++
    [7, 0, 2, 6, 5, 1, 7, 10, 3, 8, 9, 4].map (Endpoint.gets .right)

/-- The reliable messages among them go out whole. -/
def ReliableWhole (sent : List (Peer × Packet)) : Prop :=
  ∀ x ∈ sent, ∀ ordered, Peer.packet_mode x.2 = some (.Reliable ordered) →
    x.2.payload.length ≤ x.1.payload_budget (Mode.Reliable ordered).header

variable {sent : List (Peer × Packet)} {g g' : Group}

/-- So only the others are sent in fragments. -/
theorem fragmented_unreliable (hwhole : ReliableWhole sent) (h : Fragmented {x | x ∈ sent} g) :
    ∃ x ∈ unreliable sent, g.mode = .Unreliable ∧ g.sequence = x.1.next_unreliable_sequence ∧
      x.1.GroupOf .Unreliable x.2 g := by
  obtain ⟨x, hx, hmode, hg⟩ := h
  cases hm : g.mode with
  | Reliable ordered =>
    rw [hm] at hmode hg
    have hfits := hwhole x hx ordered hmode
    have hlong : x.1.payload_budget (Mode.Reliable ordered).header < x.2.payload.length :=
      hg.elim (fun h => h.1.long) fun h => h.1.long
    omega
  | Unreliable =>
    rw [hm] at hmode hg
    refine ⟨x, List.mem_filter.2 ⟨hx, by simpa using hmode⟩, rfl, ?_, hg⟩
    rcases hg with ⟨-, rfl⟩ | ⟨-, rfl⟩ <;> rfl

theorem groupOf_unique {p : Peer} {mode : Mode} {event : Packet} (h : p.GroupOf mode event g)
    (h' : p.GroupOf mode event g') : g = g' := by
  rcases h with ⟨hs, rfl⟩ | ⟨ht, rfl⟩ <;> rcases h' with ⟨hs', rfl⟩ | ⟨ht', rfl⟩
  · rfl
  · exact absurd ht' hs.not_truncates
  · exact absurd ht hs'.not_truncates
  · rfl

/-- What a group of fragments is put together to. -/
theorem groupOf_data {p : Peer} {mode : Mode} {event : Packet} (h : p.GroupOf mode event g) :
    g.data = event.payload ∨ (p.Truncates mode event.payload ∧ g.data <+: event.payload) := by
  rcases h with ⟨hs, rfl⟩ | ⟨ht, rfl⟩
  · exact .inl (hs.group_data _)
  · refine .inr ⟨ht, ?_⟩
    have hdata : (p.truncated mode event.channel_id event.payload).data =
        (Peer.fragment_data event.payload (p.fragment_payload mode) 0).as_slice := by
      simp [Group.data, Peer.truncated]
    have hpayload := ht.payload
    have hlong := ht.long
    rw [hdata, Peer.as_slice_fragment_data hpayload (by omega) (by
      have hexcess := ht.excess
      unfold Peer.total_fragments at hexcess
      omega)]
    simpa using List.take_prefix _ _

/-- If no two unreliable messages have the same sequence, and reliable ones go
out whole, then a packet put together is one message. -/
theorem Woven.exact {ch : UInt8} {data : Bytes} (hwhole : ReliableWhole sent)
    (hinj : ∀ x ∈ unreliable sent, ∀ y ∈ unreliable sent, x.1.next_unreliable_sequence = y.1.next_unreliable_sequence →
      x = y) (h : Woven {x | x ∈ sent} ch data) :
    ∃ x ∈ unreliable sent, ch = x.2.channel_id ∧
      (data = x.2.payload ∨ x.1.Truncates .Unreliable x.2.payload ∧ data <+: x.2.payload) := by
  obtain ⟨g, source, hg, rfl, hsource, rfl⟩ := h
  obtain ⟨x, hx, hmode, hs, hgroup⟩ := fragmented_unreliable hwhole hg
  have hsame : ∀ i < g.fragment_count, source i = g := by
    intro i hi
    obtain ⟨hf, hseq, -⟩ := hsource i hi
    obtain ⟨y, hy, -, hs', hgroup'⟩ := fragmented_unreliable hwhole hf
    obtain rfl := hinj x hx y hy (by rw [← hs, ← hs', hseq])
    exact groupOf_unique hgroup' hgroup
  have hdata : (((List.range g.fragment_count.toNat).map UInt8.ofNat).map fun i => (source i).chunk i).flatten = g.data := by
    unfold Group.data
    congr 1
    apply List.map_congr_left
    intro i hi
    rw [hsame i (CommandFragmentBuffer.mem_ids.1 hi)]
  refine ⟨x, hx, ?_, ?_⟩
  · rcases hgroup with ⟨-, rfl⟩ | ⟨-, rfl⟩ <;> rfl
  · rw [hdata]
    exact groupOf_data hgroup

/-- While reliable messages go out whole and the counter of unreliable ones has
not wrapped, whatever the network does, a packet that is delivered is one that
was sent: with its payload, on its channel, and with its guarantee. Only a
message with more fragments than allowed is cut short. -/
theorem delivered_packets_exact (hc : codecs.Lossless) (hchecks : ∀ side, (origins side).config.use_checksums = checks)
    (h : LinkRun codecs (new_link origins) steps n) (side : Side)
    (hwhole : ReliableWhole (submissions side.other steps))
    (hfew : (unreliable (submissions side.other steps)).length ≤ 65536) :
    ∀ packet ∈ (n.state side).delivered, packet.ordering ≠ .Unsequenced → ∃ x ∈ submissions side.other steps,
      packet.delivery = x.2.delivery ∧ packet.channel_id = x.2.channel_id ∧
      (packet.payload = x.2.payload ∨ x.1.Truncates .Unreliable x.2.payload ∧ packet.payload <+: x.2.payload) := by
  intro packet hm hordering
  have hcomes : Comes (submitted side.other steps) packet.delivery packet.ordering packet.channel_id packet.payload :=
    link_integrity hc hchecks (fun side => cut_policy (submitted side steps)) (fun side => cut_policy_sound _)
      (fun m side event hm c hcuts => cut_policy_command steps hm hcuts) h side packet hm
  cases hcomes with
  | whole x mode hx hmode hd ho hch hdata =>
    exact ⟨x, hx, hd.trans (Peer.packet_mode_some hmode).1, hch, .inl hdata⟩
  | woven g hg hd ho hdata =>
    obtain ⟨x, hx, hch, hpayload⟩ := hdata.exact hwhole fun x hx y hy => unreliable_inj h side.other hfew hx hy
    obtain ⟨-, -, hmode, -⟩ := fragmented_unreliable hwhole hg
    obtain ⟨hx, hunreliable⟩ := List.mem_filter.1 hx
    refine ⟨x, hx, ?_, hch, hpayload⟩
    rw [hd, hmode]
    exact (Peer.packet_mode_some (by simpa using hunreliable)).1
  | chunk x k hx hmode hd ho hch hdata => exact absurd ho hordering

theorem delivered_packets_exact_mixed : ∃ steps n, LinkRun .checked (new_link narrow) steps n ∧
    (n.state .right).delivered.map Packet.payload = [List.replicate 20 2, List.replicate 20 1] ∧
    ∀ packet ∈ (n.state .right).delivered, packet.ordering ≠ .Unsequenced → ∃ x ∈ submissions .left steps,
      packet.delivery = x.2.delivery ∧ packet.channel_id = x.2.channel_id ∧
      (packet.payload = x.2.payload ∨ x.1.Truncates .Unreliable x.2.payload ∧ packet.payload <+: x.2.payload) := by
  have hrun := Endpoint.play_run .checked (new_link narrow) mixed (by decide +kernel)
  have hsent := submissions_sent hrun .left
  have htwo : ((Endpoint.play .checked (new_link narrow) mixed).state .left).sent = [long_packet 1, long_packet 2] := by
    decide +kernel
  rw [htwo] at hsent
  refine ⟨_, _, hrun, by decide +kernel, ?_⟩
  apply delivered_packets_exact Codecs.checked_lossless (fun side => by cases side <;> rfl) hrun .right
  · intro x hx ordered hmode
    have hmem := List.mem_map_of_mem (f := Prod.snd) hx
    rw [Side.other, hsent] at hmem
    rcases List.mem_pair.1 hmem with he | he <;> rw [he] at hmode <;> cases hmode
  · have hle := List.length_filter_le (fun x : Peer × Packet => Peer.packet_mode x.2 = some .Unreliable)
      (submissions .left (Endpoint.play_steps .checked (new_link narrow) mixed))
    have hlength := congrArg List.length hsent
    rw [List.length_map] at hlength
    exact (hle.trans_eq hlength).trans (by decide)

end Numbers

end Bitfold
