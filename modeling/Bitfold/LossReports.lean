import Bitfold.SentPackets
/-!
# No premature loss report

The packets are numbered by an unbounded counter, and acknowledgments speak of
these numbers. As long as they stay within half the circle of labels of the
highest one acknowledged, the handler's running maximum is that number, and a
loss report returns the packets more than 32 and less than 32768 behind it. At
exactly 32768 behind the greater label counts as the later one.
-/

namespace Bitfold

open Lib

/-- The highest of the numbers acknowledged, -1 before the first one. -/
def highest (acked : List Int) : Int := acked.foldr max (-1)

/-- The numbers that an acknowledgment of packet `n` with this mask names. -/
def acked_by (n : Int) (field : UInt32) : List Int :=
  n :: ((List.range' 1 redundant_packet_acks_size).filter fun i => field.toNat.testBit (i - 1)).map fun i : Nat => n - i

/-- A shipment, and the numbers of the packets acknowledged so far. -/
structure Progress where
  shipment : Shipment
  acked : List Int

namespace Progress

open Shipment

def start (congestion : CongestionControl) : Progress := ⟨.start congestion, []⟩

/-- The next packet is at most 32767 ahead of the highest one acknowledged, and
an acknowledgment names packets that have been sent and are less than 32768
away from it. -/
def step (s : Progress) (c : AckCall) (t : Progress) : Prop :=
  t.shipment = s.shipment.call c ∧
    match c with
    | .process_outgoing .. => s.shipment.sent.length ≤ highest s.acked + 32767 ∧ t.acked = s.acked
    | .process_incoming _ ack field _ => ∃ n, ack = label n ∧ t.acked = acked_by n field ++ s.acked ∧
        ∀ m ∈ acked_by n field, 0 ≤ m ∧ m < s.shipment.sent.length ∧
          m < highest s.acked + 32768 ∧ highest s.acked < m + 32768
    | .dropped_packets => t.acked = s.acked

/-- A loss report now returns packet `n`. -/
def Returns (s : Progress) (n : Nat) : Prop :=
  s.shipment.InFlight n ∧ ¬ (s.shipment.call .dropped_packets).InFlight n

section

variable {s t : Progress} {n : Nat}

/-- The highest number is -1 or was acknowledged. -/
theorem highest_mem (acked : List Int) : highest acked = -1 ∨ highest acked ∈ acked := by
  induction acked with
  | nil => exact .inl rfl
  | cons a acked ih =>
    rcases max_choice a (highest acked) with h | h
    · exact .inr (List.mem_cons.2 (.inl h))
    · rcases ih with ih | ih
      · exact .inl (h.trans ih)
      · refine .inr (List.mem_cons.2 (.inr ?_))
        rw [show highest (a :: acked) = highest acked from h]
        exact ih

/-- The mask only adds numbers below the acknowledged one. -/
theorem highest_acked_by (n : Int) (field : UInt32) (acked : List Int) :
    highest (acked_by n field ++ acked) = max n (highest acked) := by
  have hbelow : ∀ l : List Int, (∀ m ∈ l, m ≤ n) → max n (highest (l ++ acked)) = max n (highest acked) := by
    intro l hl
    induction l with
    | nil => rfl
    | cons m l ih =>
      have hm := hl m (by simp)
      have hrest := ih fun x hx => hl x (by simp [hx])
      change max n (max m (highest (l ++ acked))) = _
      rw [← max_assoc, max_eq_left hm, hrest]
  apply hbelow _
  intro m hm
  obtain ⟨i, -, rfl⟩ := List.mem_map.1 hm
  omega

/-- What the handler knows of the numbers: the sender is at most 32767 ahead
of the highest number acknowledged, and that number's label is the running
maximum. -/
structure Follows (s : Progress) : Prop where
  tracks : s.shipment.Tracks
  remote : s.shipment.handler.remote_ack_sequence_num = label (highest s.acked)
  sent : highest s.acked < s.shipment.sent.length
  ahead : s.shipment.sent.length ≤ highest s.acked + 32768

theorem follows_start (congestion : CongestionControl) : (start congestion).Follows :=
  ⟨tracks_start congestion, rfl, neg_one_lt_zero, by simp [start, Shipment.start, highest]⟩

theorem process_incoming_remote_ack (h : AcknowledgmentHandler) (seq ack : UInt16) (field : UInt32) (now : Instant) :
    (h.process_incoming seq ack field now).remote_ack_sequence_num =
      if sequence_greater_than ack h.remote_ack_sequence_num then ack else h.remote_ack_sequence_num := by
  have hkeep : ∀ (l : List Nat) (acc : AcknowledgmentHandler × UInt32),
      (l.foldl (fun (acc : AcknowledgmentHandler × UInt32) i =>
        ((if acc.2 &&& 1 == 1 then acc.1.acknowledge_sent (ack - .ofNat i) now else acc.1), acc.2 >>> 1))
        acc).1.remote_ack_sequence_num = acc.1.remote_ack_sequence_num := by
    intro l
    induction l with
    | nil => exact fun _ => rfl
    | cons i l ih =>
      intro acc
      rw [List.foldl_cons, ih]
      dsimp only
      split
      · exact AcknowledgmentHandler.acknowledge_sent_remote_ack ..
      · rfl
  refine (hkeep _ _).trans ((AcknowledgmentHandler.acknowledge_sent_remote_ack ..).trans ?_)
  dsimp only
  split <;> rfl

/-- One step keeps the handler's maximum at the highest number. -/
theorem Follows.step {c : AckCall} (hs : s.Follows) (h : s.step c t) : t.Follows := by
  obtain ⟨hship, h⟩ := h
  have htracks : t.shipment.Tracks := hship ▸ hs.tracks.call c
  have hsent := hs.sent
  have hahead := hs.ahead
  cases c with
  | process_outgoing packet_type payload ordering_guarantee item_identifier now =>
    obtain ⟨hnext, hacked⟩ := h
    have hlen : t.shipment.sent.length = s.shipment.sent.length + 1 := by
      rw [hship]
      simp [Shipment.call]
    refine ⟨htracks, ?_, ?_, ?_⟩
    · rw [hship, hacked]
      exact hs.remote
    · rw [hacked, hlen]
      omega
    · rw [hacked, hlen]
      omega
  | process_incoming seq ack field now =>
    obtain ⟨n, rfl, hacked, hnear⟩ := h
    obtain ⟨-, hn, habove, hbelow⟩ := hnear n (by simp [acked_by])
    have hmax : highest t.acked = max n (highest s.acked) := by
      rw [hacked, highest_acked_by]
    have hlen : t.shipment.sent = s.shipment.sent := by
      rw [hship]
      rfl
    refine ⟨htracks, ?_, ?_, ?_⟩
    · rw [hship, hmax]
      change (s.shipment.handler.process_incoming seq (label n) field now).remote_ack_sequence_num = _
      rw [process_incoming_remote_ack, hs.remote]
      -- within half the circle the labels are ordered as the numbers
      by_cases hgt : highest s.acked < n
      · rw [if_pos ((label_greater_iff ..).2 (by omega)), max_eq_left hgt.le]
      · rw [if_neg (mt (label_greater_iff ..).1 (by omega)), max_eq_right (not_lt.1 hgt)]
    · rw [hmax, hlen]
      omega
    · rw [hmax, hlen]
      omega
  | dropped_packets =>
    have hlen : t.shipment.sent = s.shipment.sent := by
      rw [hship]
      rfl
    rw [show t = ⟨t.shipment, t.acked⟩ from rfl, h]
    refine ⟨htracks, ?_, ?_, ?_⟩
    · rw [hship]
      exact hs.remote
    · rw [hlen]
      exact hsent
    · rw [hlen]
      exact hahead

/-- Which packets in flight a loss report returns. -/
theorem Follows.returns_iff (hs : s.Follows) (hn : s.shipment.InFlight n) :
    s.Returns n ↔ 32 < highest s.acked - n ∧
      (highest s.acked - n < 32768 ∨ (highest s.acked - n = 32768 ∧ (n : Int) % 65536 < 32768)) := by
  have hwithin := hn.2.1
  have hbefore := hn.1
  have hsent := hs.sent
  have hahead := hs.ahead
  have hdist : ((label (highest s.acked) - label n).toNat : Int) = (highest s.acked - n) % 65536 := by
    rw [label_sub, label_toNat]
  have hdropped : s.Returns n ↔ s.shipment.handler.is_dropped (label n) = true := by
    unfold Returns
    rw [inFlight_dropped_packets]
    tauto
  rw [hdropped, AcknowledgmentHandler.is_dropped, sequence_less_than, hs.remote]
  by_cases hgt : sequence_greater_than (label (highest s.acked)) (label n) = true
  · rw [if_pos hgt, decide_eq_true_eq, gt_iff_lt, UInt16.lt_iff_toNat_lt]
    rw [label_greater_iff] at hgt
    have h32 : (UInt16.ofNat redundant_packet_acks_size).toNat = 32 := rfl
    rw [h32]
    omega
  · rw [if_neg hgt]
    rw [label_greater_iff] at hgt
    simp only [Bool.false_eq_true, false_iff]
    omega

variable {steps : List (Progress × AckCall)} {congestion : CongestionControl}

theorem follows_of_run (h : Run step (start congestion) steps t) : t.Follows :=
  h.invariant (follows_start congestion) fun _ _ _ hs hstep => hs.step hstep

/-- A loss report returns a packet only if one sent more than 32 after it was
acknowledged, and it returns those in flight that are more than 32 and less
than 32768 behind the highest one acknowledged. Apart from exactly 32768 behind
only that distance matters, not where the run lies; there the packets with a
sequence below 32768 are returned. -/
theorem dropped_packets_timely (h : Run step (start congestion) steps t) :
    (∃ numbers : List Nat, numbers.Nodup ∧ (∀ n, n ∈ numbers ↔ t.Returns n) ∧
      t.shipment.handler.dropped_packets.1.map some = numbers.map (t.shipment.sent[·]?)) ∧
    (∀ n, t.Returns n → ∃ m ∈ t.acked, (n : Int) + 32 < m) ∧
    (∀ n, t.shipment.InFlight n → 32 < highest t.acked - n → highest t.acked - n < 32768 → t.Returns n) ∧
    (∀ congestion' steps' t', Run step (start congestion') steps' t' → ∀ n n', t.shipment.InFlight n →
      t'.shipment.InFlight n' → highest t.acked - n = highest t'.acked - n' → highest t.acked - n ≠ 32768 →
        (t.Returns n ↔ t'.Returns n')) ∧
    (∀ n, t.shipment.InFlight n → highest t.acked - n = 32768 → (t.Returns n ↔ (n : Int) % 65536 < 32768)) := by
  have ht := follows_of_run h
  refine ⟨ht.tracks.dropped_packets_numbers, fun n hn => ?_, fun n hn hlow hhigh => ?_, ?_, fun n hn htie => ?_⟩
  · have hbehind := ((ht.returns_iff hn.1).1 hn).1
    refine ⟨highest t.acked, (highest_mem t.acked).resolve_left ?_, ?_⟩
    · omega
    · omega
  · exact (ht.returns_iff hn).2 ⟨hlow, .inl hhigh⟩
  · intro congestion' steps' t' h' n n' hn hn' hsame htie
    rw [ht.returns_iff hn, (follows_of_run h').returns_iff hn']
    omega
  · rw [ht.returns_iff hn]
    omega

/-! ## A packet exactly half the circle behind -/

/-- Every packet is acknowledged at once, except for `skip`. -/
def all_but (skip : Nat) : Nat → Progress
  | 0 => start (.default 0)
  | m + 1 =>
    let s := all_but skip m
    let sent := s.shipment.call (.process_outgoing .Packet [] .None none 0)
    if m = skip then ⟨sent, s.acked⟩
    else ⟨sent.call (.process_incoming 0 (label m) 0 0), acked_by m 0 ++ s.acked⟩

theorem acked_by_zero (n : Int) : acked_by n 0 = [n] := rfl

theorem names_zero (ack x : UInt16) : AcknowledgmentHandler.names ack 0 x = (x == ack) := by
  unfold AcknowledgmentHandler.names
  simp

/-- Such a run is within the bounds as long as no sequence comes round, and
only the packet left out is in flight. -/
theorem all_but_spec (skip m : Nat) (hm : m ≤ skip + 65536) :
    (∃ steps, Run step (start (.default 0)) steps (all_but skip m)) ∧
      (all_but skip m).shipment.sent.length = m ∧
      highest (all_but skip m).acked = (if m = skip + 1 then (skip : Int) else m) - 1 ∧
      ∀ n, (all_but skip m).shipment.InFlight n ↔ n = skip ∧ skip < m := by
  induction m with
  | zero =>
    refine ⟨⟨[], .start⟩, rfl, ?_, fun n => ?_⟩
    · rw [if_neg (by omega)]
      rfl
    · exact ⟨fun h => absurd h.1 (Nat.not_lt_zero n), fun h => absurd h.2 (Nat.not_lt_zero skip)⟩
  | succ m ih =>
    obtain ⟨⟨steps, hrun⟩, hlen, hhigh, hflight⟩ := ih (by omega)
    have htracks := (follows_of_run hrun).tracks
    have hstep : step (all_but skip m) (.process_outgoing .Packet [] .None none 0)
        ⟨(all_but skip m).shipment.call (.process_outgoing .Packet [] .None none 0), (all_but skip m).acked⟩ := by
      refine ⟨rfl, ?_, rfl⟩
      rw [hlen, hhigh]
      split <;> omega
    have hsent : ∀ n, ((all_but skip m).shipment.call (.process_outgoing .Packet [] .None none 0)).InFlight n ↔
        n = m ∨ (n = skip ∧ skip < m) := by
      intro n
      rw [htracks.inFlight_process_outgoing, hlen, hflight, htracks.next, hlen, ne_eq, label_eq_iff]
      omega
    have hlen' : ((all_but skip m).shipment.call (.process_outgoing .Packet [] .None none 0)).sent.length = m + 1 := by
      simp [Shipment.call, hlen]
    unfold all_but
    dsimp only
    by_cases hskip : m = skip
    · rw [if_pos hskip]
      refine ⟨⟨_, hrun.next hstep⟩, hlen', ?_, fun n => ?_⟩
      · rw [hhigh, if_neg (by omega), if_pos (by omega), hskip]
      · rw [hsent]
        omega
    · rw [if_neg hskip, acked_by_zero]
      have hmax : highest ([(m : Int)] ++ (all_but skip m).acked) = m := by
        change max (m : Int) (highest (all_but skip m).acked) = m
        rw [hhigh]
        split <;> omega
      refine ⟨⟨_, (hrun.next hstep).next (a := .process_incoming 0 (label m) 0 0) ?_⟩, hlen', ?_, fun n => ?_⟩
      · refine ⟨rfl, m, rfl, rfl, fun x hx => ?_⟩
        obtain rfl : x = m := by simpa [acked_by_zero] using hx
        dsimp only
        rw [hlen', hhigh]
        split <;> omega
      · rw [hmax, if_neg (by omega)]
        omega
      · rw [inFlight_process_incoming, hsent, names_zero, beq_iff_eq, label_eq_iff]
        omega

/-- The same run twice, the second time 32768 packets later: the packet left
out is returned the first time only. -/
theorem dropped_packets_half_circle :
    (∃ steps, Run step (start (.default 0)) steps (all_but 0 32769)) ∧
      (∃ steps, Run step (start (.default 0)) steps (all_but 32768 65537)) ∧
      highest (all_but 32768 65537).acked = highest (all_but 0 32769).acked + 32768 ∧
      (∀ n, (all_but 0 32769).shipment.InFlight n ↔ n = 0) ∧
      (∀ n, (all_but 32768 65537).shipment.InFlight n ↔ n = 0 + 32768) ∧
      (all_but 0 32769).Returns 0 ∧ ¬ (all_but 32768 65537).Returns (0 + 32768) := by
  obtain ⟨⟨steps, hrun⟩, -, hhigh, hflight⟩ := all_but_spec 0 32769 (by omega)
  obtain ⟨⟨steps', hrun'⟩, -, hhigh', hflight'⟩ := all_but_spec 32768 65537 (by omega)
  have hreturns := (follows_of_run hrun).returns_iff ((hflight 0).2 ⟨rfl, by omega⟩)
  have hreturns' := (follows_of_run hrun').returns_iff ((hflight' 32768).2 ⟨rfl, by omega⟩)
  rw [hhigh] at hreturns
  rw [hhigh'] at hreturns'
  refine ⟨⟨steps, hrun⟩, ⟨steps', hrun'⟩, ?_, fun n => ?_, fun n => ?_, ?_, ?_⟩
  · rw [hhigh, hhigh']
    rfl
  · rw [hflight]
    omega
  · rw [hflight']
    omega
  · exact hreturns.2 (by decide)
  · exact mt hreturns'.1 (by decide)

/-- Packet 0 is 33 behind the highest one acknowledged, and returned. -/
theorem dropped_packets_timely_first : (all_but 0 34).Returns 0 := by
  obtain ⟨⟨steps, hrun⟩, -, hhigh, hflight⟩ := all_but_spec 0 34 (by omega)
  have hdist : highest (all_but 0 34).acked - (0 : Nat) = 33 := by
    rw [hhigh]
    rfl
  refine (dropped_packets_timely hrun).2.2.1 0 ((hflight 0).2 ⟨rfl, by omega⟩) ?_ ?_
  · rw [hdist]
    decide
  · rw [hdist]
    decide

end

end Progress

end Bitfold
