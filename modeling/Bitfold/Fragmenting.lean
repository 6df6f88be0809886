import Bitfold.PeerIo
/-!
# Fragmenting

The commands that carry a message: the message whole, or its fragments. Slices
of a message are within its bounds, so queueing data never panics, and the
fragments one after the other are the message.
-/

namespace Bitfold

namespace SharedBytes

/-- The view of `len` bytes of `data` from `start` on, as far as there are. -/
def view (data : Bytes) (start len : Nat) : SharedBytes :=
  ⟨data, min start data.length, min len (data.length - start), by omega⟩

theorem slice_from_arc {data : Bytes} {start len : Nat} (h : start + len ≤ data.length) :
    (from_arc data).slice start len = .ok (view data start len) := by
  have hs : start ≤ (from_arc data).len := by
    rw [len_from_arc]
    omega
  unfold slice
  rw [dif_pos hs, dif_pos (show start + len ≤ (from_arc data).len from h)]
  simp only [view, from_arc, Except.ok.injEq, SharedBytes.mk.injEq, true_and]
  omega

theorem view_len {data : Bytes} {start len : Nat} (h : start + len ≤ data.length) : (view data start len).len = len := by
  simp only [view]
  omega

theorem as_slice_view {data : Bytes} {start len : Nat} (h : start + len ≤ data.length) :
    (view data start len).as_slice = (data.drop start).take len := by
  have hs : min start data.length = start := by omega
  have hl : min len (data.length - start) = len := by omega
  simp only [as_slice, view, hs, hl]

end SharedBytes

namespace Peer

open SharedBytes

/-! ## Bounds of fragments -/

/-- The number of fragments is the least that holds the message. -/
theorem div_ceil_bounds {len payload : Nat} (hp : 0 < payload) (hl : 0 < len) :
    (div_ceil len payload - 1) * payload < len ∧ len ≤ div_ceil len payload * payload ∧ 0 < div_ceil len payload := by
  unfold div_ceil
  have hdiv := Nat.div_add_mod (len + payload - 1) payload
  have hmod := Nat.mod_lt (len + payload - 1) hp
  have hpos : 0 < (len + payload - 1) / payload := Nat.div_pos (by omega) hp
  rw [Nat.sub_mul, Nat.one_mul]
  rw [Nat.mul_comm] at hdiv
  omega

/-- Every fragment lies within the message; all are full but the last. -/
theorem fragment_range_bounds {len payload i : Nat} (hp : 0 < payload) (hl : 0 < len) (hi : i < div_ceil len payload) :
    (fragment_range len payload i).1 = i * payload ∧
      (fragment_range len payload i).2 = min payload (len - i * payload) ∧
      (fragment_range len payload i).1 + (fragment_range len payload i).2 ≤ len := by
  obtain ⟨hlt, -, -⟩ := div_ceil_bounds hp hl
  have hle : i * payload ≤ (div_ceil len payload - 1) * payload := Nat.mul_le_mul_right _ (by omega)
  unfold fragment_range
  dsimp only
  rw [Nat.add_mul, Nat.one_mul]
  generalize i * payload = start at *
  generalize (div_ceil len payload - 1) * payload = last at *
  refine ⟨rfl, ?_, ?_⟩
  · omega
  · omega

/-- The bytes of a fragment. -/
def fragment_data (data : Bytes) (payload i : Nat) : SharedBytes :=
  view data (fragment_range data.length payload i).1 (fragment_range data.length payload i).2

theorem fragment_data_len {data : Bytes} {payload i : Nat} (hp : 0 < payload) (hl : 0 < data.length)
    (hi : i < div_ceil data.length payload) :
    (fragment_data data payload i).len = min payload (data.length - i * payload) := by
  obtain ⟨-, h2, h3⟩ := fragment_range_bounds hp hl hi
  rw [fragment_data, view_len h3, h2]

theorem as_slice_fragment_data {data : Bytes} {payload i : Nat} (hp : 0 < payload) (hl : 0 < data.length)
    (hi : i < div_ceil data.length payload) :
    (fragment_data data payload i).as_slice = (data.drop (i * payload)).take payload := by
  obtain ⟨h1, h2, h3⟩ := fragment_range_bounds hp hl hi
  rw [fragment_data, as_slice_view h3, h1, h2, List.take_eq_take_iff, List.length_drop]
  omega

/-- The fragments one after the other are the message. -/
theorem flatten_fragments {data : Bytes} {payload : Nat} (hp : 0 < payload) (hl : 0 < data.length) :
    ((List.range (div_ceil data.length payload)).map fun i => (fragment_data data payload i).as_slice).flatten =
      data := by
  -- the first k fragments are the first k * payload bytes
  have key : ∀ k, k ≤ div_ceil data.length payload →
      ((List.range k).map fun i => (fragment_data data payload i).as_slice).flatten = data.take (k * payload) := by
    intro k
    induction k with
    | zero => simp
    | succ k ih =>
      intro hk
      rw [List.range_succ, List.map_append, List.flatten_append, ih (by omega)]
      simp only [List.map_cons, List.map_nil, List.flatten_cons, List.flatten_nil, List.append_nil]
      rw [as_slice_fragment_data hp hl (by omega), Nat.add_mul, Nat.one_mul, List.take_add]
  rw [key _ le_rfl, List.take_of_length_le (div_ceil_bounds hp hl).2.1]

/-! ## The commands of a message -/

/-- The commands `enqueue_data` offers to the queue. -/
def data_commands (self : Peer) (data : Bytes) (header fragment_header : Nat)
    (whole : SharedBytes → ProtocolCommand) (fragment : UInt8 → UInt8 → SharedBytes → ProtocolCommand) :
    List ProtocolCommand :=
  if self.payload_budget header < 1 then []
  else if data.length ≤ self.payload_budget header then [whole (.from_arc data)]
  else if self.payload_budget fragment_header < 1 then []
  else
    let total_fragments := div_ceil data.length (self.payload_budget fragment_header)
    if total_fragments > 255 then []
    else if UInt8.ofNat total_fragments > self.config.max_fragments then
      [fragment 0 1 (fragment_data data (self.payload_budget fragment_header) 0)]
    else
      (List.range total_fragments).map fun i =>
        fragment (.ofNat i) (.ofNat total_fragments) (fragment_data data (self.payload_budget fragment_header) i)

theorem enqueue_fragments {data : Bytes} {payload : Nat} (fragment : UInt8 → UInt8 → SharedBytes → ProtocolCommand)
    (total : UInt8) {ids : List Nat}
    (hids : ∀ i ∈ ids, (fragment_range data.length payload i).1 + (fragment_range data.length payload i).2 ≤ data.length)
    (p : Peer) :
    ids.foldlM (fun self fragment_id => do
      let (start, len) := fragment_range data.length payload fragment_id
      let fragment_data ← (SharedBytes.from_arc data).slice start len
      return (self.enqueue_command (fragment (.ofNat fragment_id) total fragment_data)).2) p =
      (.ok (p.requeue (ids.map fun i => fragment (.ofNat i) total (fragment_data data payload i))) : Outcome Peer) := by
  induction ids generalizing p with
  | nil => rfl
  | cons i ids ih =>
    have hs := slice_from_arc (hids i (by simp))
    match hr : fragment_range data.length payload i with
    | (start, len) =>
      rw [hr] at hs
      rw [List.foldlM_cons, List.map_cons, hr]
      dsimp only at hs ⊢
      rw [hs, fragment_data, hr]
      exact ih (fun j hj => hids j (by simp [hj])) _

/-- Data is queued command by command, through the admission check. -/
theorem enqueue_data_eq (p : Peer) (data : Bytes) (header fragment_header : Nat)
    (whole : SharedBytes → ProtocolCommand) (fragment : UInt8 → UInt8 → SharedBytes → ProtocolCommand) :
    p.enqueue_data data header fragment_header whole fragment =
      .ok (p.requeue (p.data_commands data header fragment_header whole fragment)) := by
  unfold enqueue_data data_commands
  by_cases hb : p.payload_budget header < 1
  · rw [if_pos hb, if_pos hb]
    rfl
  rw [if_neg hb, if_neg hb]
  by_cases hw : data.length ≤ p.payload_budget header
  · rw [if_pos hw, if_pos hw]
    rfl
  rw [if_neg hw, if_neg hw]
  dsimp only
  have hl : 0 < data.length := by omega
  by_cases hf : p.payload_budget fragment_header < 1
  · rw [if_pos hf, if_pos hf]
    rfl
  rw [if_neg hf, if_neg hf]
  have hp : 0 < p.payload_budget fragment_header := by omega
  by_cases ht : div_ceil data.length (p.payload_budget fragment_header) > 255
  · rw [if_pos ht, if_pos ht]
    rfl
  rw [if_neg ht, if_neg ht]
  split
  · -- more fragments than allowed: only the first one is queued
    obtain ⟨h1, h2, h3⟩ := fragment_range_bounds hp hl (div_ceil_bounds hp hl).2.2
    rw [Nat.zero_mul] at h1
    rw [Nat.zero_mul, Nat.sub_zero] at h2
    rw [h1, h2] at h3
    rw [len_from_arc, slice_from_arc h3]
    unfold fragment_data
    rw [h1, h2]
    rfl
  · exact enqueue_fragments _ _ (fun i hi => (fragment_range_bounds hp hl (List.mem_range.1 hi)).2.2) p

/-- The commands of a reliable message. -/
def reliable_commands (self : Peer) (channel_id : UInt8) (data : Bytes) (ordered : Bool) : List ProtocolCommand :=
  self.data_commands data (1 + 1 + 2 + 1 + 2) (1 + 1 + 2 + 1 + 1 + 1 + 2)
    (.SendReliable channel_id self.acknowledge_handler.local_sequence_num ordered)
    (.SendFragment channel_id self.acknowledge_handler.local_sequence_num ordered)

theorem enqueue_reliable_data_eq (p : Peer) (channel_id : UInt8) (data : Bytes) (ordered : Bool) :
    p.enqueue_reliable_data channel_id data ordered =
      .ok (p.acknowledge_handler.local_sequence_num, p.requeue (p.reliable_commands channel_id data ordered)) := by
  unfold enqueue_reliable_data
  dsimp only
  rw [enqueue_data_eq]
  rfl

end Peer

end Bitfold
