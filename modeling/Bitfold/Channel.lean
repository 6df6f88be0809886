import Bitfold.Lib.Loops
import Bitfold.Core
/-!
# Channel ordering

`channel_state.rs`: per channel, the next sequence to deliver in order with
the packets that wait for it, and the latest sequence of the sequenced mode.
-/

namespace Bitfold

open Lib

/-- `ChannelState`. -/
structure ChannelState where
  expected_sequence : UInt16
  buffered_packets : Std.ExtTreeMap UInt16 SharedBytes
  latest_sequence : UInt16

namespace ChannelState

def new : ChannelState where
  expected_sequence := 0
  buffered_packets := ∅
  latest_sequence := 0

/-- One round of the delivery loop: take out the packet that is expected. -/
def deliver_next (self : ChannelState) : Option SharedBytes × ChannelState :=
  match self.buffered_packets[self.expected_sequence]? with
  | some packet_data => (some packet_data,
      { self with
        buffered_packets := self.buffered_packets.erase self.expected_sequence
        expected_sequence := self.expected_sequence + 1 })
  | none => (none, self)

/-- The packet is buffered, then every consecutive one is delivered. A round
takes one packet out of the buffer, so the buffer's size is fuel enough. -/
def process_ordered (self : ChannelState) (sequence : UInt16) (data : SharedBytes) :
    List SharedBytes × ChannelState :=
  let self := { self with buffered_packets := self.buffered_packets.insert sequence data }
  drain deliver_next self.buffered_packets.size self

def process_sequenced (self : ChannelState) (sequence : UInt16) (data : SharedBytes) :
    Option SharedBytes × ChannelState :=
  let is_newer := decide (sequence - self.latest_sequence < 32768)
  if is_newer || sequence == 0 then (some data, { self with latest_sequence := sequence })
  else (none, self)

/-- Every round shortens the buffer. -/
theorem deliver_next_size {s s' : ChannelState} {d : SharedBytes} (h : s.deliver_next = (some d, s')) :
    s'.buffered_packets.size < s.buffered_packets.size := by
  unfold deliver_next at h
  split at h
  · rename_i hd
    cases h
    have hmem : s.expected_sequence ∈ s.buffered_packets := by
      rw [Std.ExtTreeMap.mem_iff_isSome_getElem?, hd]
      rfl
    have hpos : s.buffered_packets.size ≠ 0 := by
      intro h0
      rw [Std.ExtTreeMap.eq_empty_iff_size_eq_zero.2 h0] at hmem
      simp at hmem
    rw [Std.ExtTreeMap.size_erase, if_pos (Std.ExtTreeMap.contains_iff_mem.2 hmem)]
    omega
  · cases h

/-- `process_ordered` runs its loop to the end. -/
theorem process_ordered_drains (s : ChannelState) (sequence : UInt16) (data : SharedBytes) :
    Drains deliver_next { s with buffered_packets := s.buffered_packets.insert sequence data }
      (s.process_ordered sequence data).1 (s.process_ordered sequence data).2 :=
  drains_drain (fun _ _ _ => deliver_next_size) _ _ le_rfl

end ChannelState

end Bitfold
