import Bitfold.Messages
/-!
# Messages that mix

All buffers of a peer are in one map, under the sequence of their message
only. Reliable messages all have sequence 0, unreliable ones are counted from
0 on, so fragments of two messages can get into one buffer. As long as none
does (`Unmixed`), every payload that is put together is one that was sent.
-/

namespace Bitfold

open Lib ProtocolCommand

namespace Peer

variable {p p' q : Peer} {g : Group}

/-! ## Many messages -/

/-- A call of `enqueue_reliable_data` or `enqueue_unreliable_data`. -/
structure SendCall where
  mode : Mode
  channel_id : UInt8
  data : Bytes
deriving DecidableEq, Repr

/-- The calls, one after the other. -/
def enqueue_all : Peer → List SendCall → Outcome Peer
  | p, [] => .ok p
  | p, call :: calls => do
    let (_, p) ← call.mode.enqueue p call.channel_id call.data
    enqueue_all p calls

/-- The message fits one command, or `max_fragments` fragments. -/
def Fitting (p : Peer) (call : SendCall) : Prop :=
  call.data.length ≤ p.payload_budget call.mode.header ∨
    p.total_fragments call.mode call.data ≤ p.config.max_fragments.toNat

/-- The messages that are sent in fragments, with their fragments. -/
inductive InGroup : Peer → List SendCall → SendCall → Group → Prop where
  | here {p : Peer} {call : SendCall} {calls : List SendCall} : p.Splits call.mode call.data →
      InGroup p (call :: calls) call (p.group call.mode call.channel_id call.data)
  | there {p q : Peer} {s : UInt16} {call call' : SendCall} {calls : List SendCall} {g : Group} :
      call'.mode.enqueue p call'.channel_id call'.data = .ok (s, q) → InGroup q calls call g →
      InGroup p (call' :: calls) call g

theorem InGroup.message {calls : List SendCall} {call : SendCall} (h : InGroup p calls call g) :
    call ∈ calls ∧ g.mode = call.mode ∧ g.channel_id = call.channel_id ∧ g.data = call.data := by
  induction h with
  | here hs => exact ⟨List.mem_cons_self, rfl, rfl, hs.group_data _⟩
  | there _ _ ih => exact ⟨List.mem_cons_of_mem _ ih.1, ih.2⟩

/-- The sequence of a fragment. -/
def fragment_sequence : ProtocolCommand → Option UInt16
  | .SendFragment _ sequence .. | .SendUnreliableFragment _ sequence .. => some sequence
  | _ => none

theorem IsFragment.sequence {c : ProtocolCommand} (h : IsFragment g c) : fragment_sequence c = some g.sequence := by
  obtain ⟨j, d, -, -, rfl⟩ := h
  unfold Group.command
  cases g.mode <;> rfl

theorem enqueue_keeps (p : Peer) (mode : Mode) (ch : UInt8) (data : Bytes) :
    ∃ s q, mode.enqueue p ch data = .ok (s, q) ∧ q.config = p.config ∧ q.pmtu = p.pmtu ∧
      ∀ c ∈ q.commands, c ∈ p.commands ∨ c ∈ p.message_commands mode ch data := by
  refine ⟨_, _, enqueue_eq .., ?_⟩
  obtain ⟨n, cq, hw⟩ := requeue_writes (p.numbered mode) (p.message_commands mode ch data)
  obtain ⟨kept, hk, hq⟩ := requeue_queues (p.numbered mode) (p.message_commands mode ch data)
  have hsame : (p.numbered mode).config = p.config ∧ (p.numbered mode).pmtu = p.pmtu ∧
      (p.numbered mode).commands = p.commands := by
    cases mode <;> exact ⟨rfl, rfl, rfl⟩
  refine ⟨by rw [hw]; exact hsame.1, by rw [hw]; exact hsame.2.1, fun c hc => ?_⟩
  rw [hq.commands, hsame.2.2, List.mem_append] at hc
  exact hc.imp_right fun h => hk.subset h

theorem Fitting.congr {call : SendCall} (h : p.Fitting call) (hc : q.config = p.config) (hp : q.pmtu = p.pmtu) :
    q.Fitting call := by
  unfold Fitting total_fragments fragment_payload payload_budget Peer.datagram_cap current_fragment_size at *
  rw [hc, hp]
  exact h

/-- A fragment that a call queues is one of the message's. -/
theorem Fitting.fragment {call : SendCall} {c : ProtocolCommand} {s : UInt16} (h : p.Fitting call)
    (hc : c ∈ p.message_commands call.mode call.channel_id call.data) (hf : fragment_sequence c = some s) :
    p.Splits call.mode call.data ∧ IsFragment (p.group call.mode call.channel_id call.data) c := by
  rcases message_commands_cases p call.mode call.channel_id call.data with he | ⟨-, he⟩ | ⟨ht, -⟩ | ⟨hs, -⟩
  · rw [he] at hc
    cases hc
  · rw [he, List.mem_singleton] at hc
    subst hc
    unfold Mode.whole at hf
    split at hf <;> cases hf
  · rcases h with hle | hle
    · exact absurd ht.long (Nat.not_lt.2 hle)
    · exact absurd ht.excess (Nat.not_lt.2 hle)
  · exact ⟨hs, (hs.sends _).fragments c hc⟩

/-- Every fragment in the queue is one of a message that was sent. -/
theorem enqueue_all_groups {calls : List SendCall} (h : ∀ call ∈ calls, p.Fitting call) :
    ∃ q, enqueue_all p calls = .ok q ∧ ∀ c ∈ q.commands, ∀ s, fragment_sequence c = some s →
      c ∈ p.commands ∨ ∃ call g, InGroup p calls call g ∧ IsFragment g c := by
  induction calls generalizing p with
  | nil => exact ⟨p, rfl, fun c hc _ _ => .inl hc⟩
  | cons call calls ih =>
    obtain ⟨n, r, he, hcfg, hpm, hq⟩ := enqueue_keeps p call.mode call.channel_id call.data
    obtain ⟨q, hall, hgroups⟩ := ih (p := r) fun call' hm => (h call' (List.mem_cons_of_mem _ hm)).congr hcfg hpm
    refine ⟨q, ?_, fun c hc s hf => ?_⟩
    · rw [enqueue_all, he]
      exact hall
    · rcases hgroups c hc s hf with hr | ⟨call', g, hg, hfrag⟩
      · rcases hq c hr with hp | hm
        · exact .inl hp
        · obtain ⟨hs, hfrag⟩ := (h call List.mem_cons_self).fragment hm hf
          exact .inr ⟨call, _, .here hs, hfrag⟩
      · exact .inr ⟨call', g, .there he hg, hfrag⟩

/-! ## Arrivals that do not mix -/

/-- No buffer is open under the fragment's sequence, or one with fragments of
a message that the fragment is of, too. -/
def Unmixed (sender : Peer) (calls : List SendCall) (p : Peer) (c : ProtocolCommand) : Prop :=
  ∀ s b, fragment_sequence c = some s → p.command_fragments[s]? = some b →
    ∃ call g, InGroup sender calls call g ∧ IsFragment g c ∧ CommandFragmentBuffer.Partial g b

/-- Every step of the run meets a condition on the state before it. -/
def Meets (C : Peer → ProtocolCommand → Prop) : Peer → List Arrival → Prop
  | _, [] => True
  | p, (c, t, draw) :: arrivals =>
    C p c ∧ ∀ p' r, p.process_command c t draw = .ok (p', r) → Meets C p' arrivals

/-- The packet is one of the messages sent. -/
def Sent (calls : List SendCall) (packet : Packet) : Prop :=
  ∃ call ∈ calls, packet.channel_id = call.channel_id ∧ packet.delivery = call.mode.delivery ∧
    packet.payload = call.data

/-- What waits in the channels was sent reliably. -/
def WaitsSent (calls : List SendCall) : Peer → Prop :=
  Waits fun ch data => ∃ call ∈ calls, ch = call.channel_id ∧ .Reliable = call.mode.delivery ∧ data = call.data

theorem Mode.delivery_of_ordered {mode : Mode} (h : mode.ordered = true) : mode.delivery = .Reliable := by
  cases mode with
  | Reliable _ => rfl
  | Unreliable => cases h

/-- A fragment that does not mix delivers nothing but what was sent. -/
theorem Unmixed.step {sender : Peer} {calls : List SendCall} {c : ProtocolCommand} {s : UInt16}
    (hf : fragment_sequence c = some s) (hg : ∃ call g, InGroup sender calls call g ∧ IsFragment g c)
    (h : Unmixed sender calls p c) (hw : WaitsSent calls p) (t : Instant) (draw : UInt16) :
    ∃ p' packets, p.process_command c t draw = .ok (p', .ok packets) ∧ WaitsSent calls p' ∧
      ∀ x ∈ packets, Sent calls x.1 := by
  obtain ⟨call, g, hin, hfrag, hjoins⟩ : ∃ call g, InGroup sender calls call g ∧ IsFragment g c ∧ Joins g p := by
    cases hb : p.command_fragments[s]? with
    | none =>
      obtain ⟨call, g, hin, hfrag⟩ := hg
      obtain rfl : g.sequence = s := Option.some.inj (hfrag.sequence.symm.trans hf)
      exact ⟨call, g, hin, hfrag, fun b hb' => by rw [hb] at hb'; cases hb'⟩
    | some b =>
      obtain ⟨call, g, hin, hfrag, hpart⟩ := h s b hf hb
      obtain rfl : g.sequence = s := Option.some.inj (hfrag.sequence.symm.trans hf)
      exact ⟨call, g, hin, hfrag, fun b' hb' => by rw [hb] at hb'; exact Option.some.inj hb' ▸ hpart⟩
  obtain ⟨hmem, hmode, hch, hdata⟩ := hin.message
  obtain ⟨p', packets, he, -, hw', hout⟩ := process_fragment_delivers hjoins hw
    (fun ho => ⟨call, hmem, hch, by rw [← hmode, Mode.delivery_of_ordered ho], hdata⟩) hfrag t draw
  refine ⟨p', packets, he, hw', fun x hx => ?_⟩
  obtain ⟨hxch, hxd, hx | ⟨ho, call', hmem', hch', hd', hx⟩⟩ := hout x hx
  · exact ⟨call, hmem, hxch.trans hch, by rw [hxd, hmode], hx.trans hdata⟩
  · exact ⟨call', hmem', hxch.trans hch', by rw [hxd, Mode.delivery_of_ordered ho, hd'], hx⟩

/-- As long as no fragment gets into a buffer of another message, every
payload a run delivers is one that was sent, on its channel and with its
guarantee. -/
theorem groups_do_not_mix (addr addr' : SocketAddr) (config config' : Config) (time time' : Instant)
    (draw draw' : PeerDraw) (calls : List SendCall)
    (hfit : ∀ call ∈ calls, (Peer.new addr config time draw).Fitting call) :
    ∃ sender, enqueue_all (.new addr config time draw) calls = .ok sender ∧
      ∀ arrivals : List Arrival,
        (∀ a ∈ arrivals, a.1 ∈ sender.commands ∧ ∃ s, fragment_sequence a.1 = some s) →
        Meets (Unmixed (.new addr config time draw) calls) (.new addr' config' time' draw') arrivals →
        ∃ outs receiver, arrive (.new addr' config' time' draw') arrivals = .ok (outs, receiver) ∧
          ∀ out ∈ outs, ∀ x ∈ out, Sent calls x := by
  obtain ⟨sender, he, hgroups⟩ := enqueue_all_groups hfit
  refine ⟨sender, he, fun arrivals hmem hmeets => ?_⟩
  have hfresh : WaitsSent calls (.new addr' config' time' draw') := waits_new _ addr' config' time' draw'
  generalize Peer.new addr' config' time' draw' = p at hmeets hfresh
  -- by induction on the arrivals: what waits in the channels is always something sent
  induction arrivals generalizing p with
  | nil => exact ⟨[], p, rfl, by simp⟩
  | cons a arrivals ih =>
    obtain ⟨c, t, dr⟩ := a
    obtain ⟨hc, s, hf⟩ := hmem _ List.mem_cons_self
    have hg := (hgroups c hc s hf).resolve_left (by simp)
    obtain ⟨q, packets, hq, hw, hout⟩ := Unmixed.step hf hg hmeets.1 hfresh t dr
    obtain ⟨outs, receiver, hs, hrest⟩ := ih (fun a ha => hmem a (List.mem_cons_of_mem _ ha)) q
      (hmeets.2 q _ hq) hw
    refine ⟨_, receiver, arrive_cons hq hs, ?_⟩
    simp only [List.mem_cons, forall_eq_or_imp, List.mem_map, forall_exists_index, and_imp, forall_apply_eq_imp_iff₂]
    exact ⟨hout, hrest⟩

/-! ## Distinct sequences -/

/-- Every open buffer has fragments of one message only. -/
def Sorted (sender : Peer) (calls : List SendCall) (p : Peer) : Prop :=
  ∀ s b, p.command_fragments[s]? = some b →
    ∃ call g, InGroup sender calls call g ∧ g.sequence = s ∧ CommandFragmentBuffer.Partial g b

/-- No two messages that are sent in fragments have the same sequence. -/
def Distinct (sender : Peer) (calls : List SendCall) : Prop :=
  ∀ call g call' g', InGroup sender calls call g → InGroup sender calls call' g' → g.sequence = g'.sequence → g = g'

theorem Sorted.unmixed {sender : Peer} {calls : List SendCall} {call : SendCall} {c : ProtocolCommand}
    (hd : Distinct sender calls) (h : Sorted sender calls p) (hin : InGroup sender calls call g)
    (hc : IsFragment g c) : Unmixed sender calls p c := by
  intro s b hs hb
  obtain ⟨call', g', hin', hseq, hpart⟩ := h s b hb
  have hs' : g.sequence = s := Option.some.inj (hc.sequence.symm.trans hs)
  obtain rfl := hd call g call' g' hin hin' (hs'.trans hseq.symm)
  exact ⟨call, g, hin, hc, hpart⟩

theorem Sorted.step {sender : Peer} {calls : List SendCall} {call : SendCall} {c : ProtocolCommand} {t : Instant}
    {draw : UInt16} {r : Processed} (hd : Distinct sender calls) (h : Sorted sender calls p)
    (hin : InGroup sender calls call g) (hc : IsFragment g c) (he : p.process_command c t draw = .ok (p', r)) :
    Sorted sender calls p' := by
  have hjoins : Joins g p := by
    intro b hb
    obtain ⟨call', g', hin', hseq, hpart⟩ := h g.sequence b hb
    exact hd call g call' g' hin hin' hseq.symm ▸ hpart
  obtain ⟨j, d, hlt, hchunk, rfl⟩ := hc
  obtain ⟨q, packets, hq, ⟨-, hk⟩ | ⟨-, hk⟩⟩ := process_fragment hjoins hlt hchunk t draw
  · rw [hq] at he
    cases he
    intro s b hb
    rw [hk.fragments, Std.ExtTreeMap.getElem?_insert] at hb
    split at hb
    · rename_i hs
      cases hb
      exact ⟨call, g, hin, Std.compare_eq_iff_eq.1 hs, hjoins.joined hlt hchunk t⟩
    · exact h s b hb
  · -- a completed buffer is gone
    rw [hq] at he
    cases he
    intro s b hb
    rw [hk.fragments, Std.ExtTreeMap.getElem?_erase] at hb
    split at hb
    · cases hb
    · exact h s b hb

/-- Messages with distinct sequences never mix. -/
theorem meets_of_distinct {sender : Peer} {calls : List SendCall} {arrivals : List Arrival}
    (hd : Distinct sender calls)
    (hk : ∀ a ∈ arrivals, ∃ call g, InGroup sender calls call g ∧ IsFragment g a.1) (h : Sorted sender calls p) :
    Meets (Unmixed sender calls) p arrivals := by
  induction arrivals generalizing p with
  | nil => trivial
  | cons a arrivals ih =>
    obtain ⟨c, t, draw⟩ := a
    obtain ⟨call, g, hin, hc⟩ := hk _ List.mem_cons_self
    exact ⟨h.unmixed hd hin hc, fun p' r he =>
      ih (fun a ha => hk a (List.mem_cons_of_mem _ ha)) (h.step hd hin hc he)⟩

/-- A reliable message of 20 bytes. -/
def twenty (byte : UInt8) : SendCall := ⟨.Reliable false, 3, List.replicate 20 byte⟩

/-- An unreliable message of 20 bytes. -/
def unreliable_twenty (byte : UInt8) : SendCall := ⟨.Unreliable, 3, List.replicate 20 byte⟩

/-- Unreliable messages are numbered. -/
theorem distinct_unreliable : Distinct narrow_peer [unreliable_twenty 7, unreliable_twenty 8] := by
  have hnext : ∀ {s q}, (unreliable_twenty 7).mode.enqueue narrow_peer 3 (List.replicate 20 7) = .ok (s, q) →
      narrow_peer.next_unreliable_sequence ≠ q.next_unreliable_sequence := by
    intro s q hq
    rw [enqueue_eq] at hq
    cases hq
    decide
  intro call g call' g' h h' hseq
  cases h with
  | here _ =>
    cases h' with
    | here _ => rfl
    | there hq h' =>
      cases h' with
      | here _ => exact absurd hseq (hnext hq)
      | there _ h' => cases h'
  | there hq h =>
    cases h with
    | here _ =>
      cases h' with
      | here _ => exact absurd hseq.symm (hnext hq)
      | there hq' h' =>
        cases h' with
        | here _ =>
          cases hq.symm.trans hq'
          rfl
        | there _ h' => cases h'
    | there _ h => cases h

/-- The four fragments of two messages, out of order and in turns. -/
def in_turns (cmds : List ProtocolCommand) : List Arrival :=
  [3, 0, 2, 1].filterMap fun i => cmds[i]?.map fun c => (c, 0, 0)

/-- Both messages are delivered, and nothing else. -/
theorem groups_do_not_mix_two :
    ∃ sender, enqueue_all narrow_peer [unreliable_twenty 7, unreliable_twenty 8] = .ok sender ∧
      ∃ outs receiver, narrow_peer.arrive (in_turns sender.commands) = .ok (outs, receiver) ∧
        outs.flatten.length = 2 ∧
        ∀ out ∈ outs, ∀ x ∈ out, Sent [unreliable_twenty 7, unreliable_twenty 8] x := by
  have hfit : ∀ call ∈ [unreliable_twenty 7, unreliable_twenty 8], narrow_peer.Fitting call := by
    intro call hc
    rcases List.mem_pair.1 hc with rfl | rfl <;> exact .inr (by decide)
  obtain ⟨sender, he, hgroups⟩ := enqueue_all_groups hfit
  obtain ⟨sender', he', h⟩ := groups_do_not_mix ⟨.V4 0, 0⟩ ⟨.V4 0, 0⟩ narrow narrow 0 0 ⟨0, 0, 0⟩ ⟨0, 0, 0⟩
    [unreliable_twenty 7, unreliable_twenty 8] hfit
  obtain rfl : sender = sender' := Except.ok.inj (he.symm.trans he')
  obtain ⟨sender', he', hout⟩ := exists_ok (x := enqueue_all narrow_peer [unreliable_twenty 7, unreliable_twenty 8])
    (p := fun sender => (sender.commands.all fun c => (fragment_sequence c).isSome) &&
      (narrow_peer.arrive (in_turns sender.commands)).toOption.any fun out => out.1.flatten.length == 2)
    (by decide +kernel)
  obtain rfl : sender = sender' := Except.ok.inj (he.symm.trans he')
  rw [Bool.and_eq_true, List.all_eq_true] at hout
  obtain ⟨hsome, hout⟩ := hout
  have hfrag := fun c hc => Option.isSome_iff_exists.1 (hsome c hc)
  have hmem : ∀ a ∈ in_turns sender.commands, a.1 ∈ sender.commands := by
    intro a ha
    obtain ⟨i, -, ha⟩ := List.mem_filterMap.1 ha
    obtain ⟨c, hc, rfl⟩ := Option.map_eq_some_iff.1 ha
    exact List.mem_of_getElem? hc
  have hin : ∀ a ∈ in_turns sender.commands, ∃ call g,
      InGroup narrow_peer [unreliable_twenty 7, unreliable_twenty 8] call g ∧ IsFragment g a.1 := by
    intro a ha
    obtain ⟨s, hs⟩ := hfrag _ (hmem a ha)
    exact (hgroups a.1 (hmem a ha) s hs).resolve_left List.not_mem_nil
  obtain ⟨outs, receiver, harrive, hsent⟩ := h (in_turns sender.commands)
    (fun a ha => ⟨hmem a ha, hfrag _ (hmem a ha)⟩)
    (meets_of_distinct distinct_unreliable hin fun s b hb => by simp [Peer.new] at hb)
  change narrow_peer.arrive _ = _ at harrive
  obtain ⟨⟨outs', receiver'⟩, harrive', htwo⟩ := exists_ok hout
  rw [harrive] at harrive'
  cases harrive'
  exact ⟨sender, he, outs, receiver, harrive, beq_iff_eq.1 htwo, hsent⟩

/-- The first fragment of one message and the second of another are put
together. -/
theorem groups_mix_two :
    ∃ sender c₀ c₁ c₂ c₃ receiver packet, enqueue_all narrow_peer [twenty 7, twenty 9] = .ok sender ∧
      sender.commands = [c₀, c₁, c₂, c₃] ∧
      narrow_peer.arrive [(c₀, 0, 0), (c₃, 0, 0)] = .ok ([[], [packet]], receiver) ∧
      ¬ Sent [twenty 7, twenty 9] packet := by
  refine ⟨_, _, _, _, _, _, _, rfl, rfl, rfl, ?_⟩
  rintro ⟨call, hc, -, -, hp⟩
  simp only [List.mem_cons, List.not_mem_nil, or_false] at hc
  rcases hc with rfl | rfl
  · exact absurd hp (by decide)
  · exact absurd hp (by decide)

end Peer

end Bitfold
