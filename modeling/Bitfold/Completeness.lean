import Bitfold.Handshake
import Bitfold.Reassembly
/-!
# What a complete buffer has

A fragment buffer counts its fragments: it is complete when it has as many ids
as the message has fragments. The ids come from the wire, and the decoder takes
any. One that is not below the count stands in for a fragment that is still
missing. The buffer is then taken out as complete, cannot be reassembled, and
is lost.
-/

namespace Bitfold

open Lib

namespace CommandFragmentBuffer

/-- A new buffer after fragments were added, each with its id. -/
def gathered (channel_id fragment_count : UInt8) (ordered : Bool) (created_at : Instant)
    (added : List (UInt8 × Bytes)) : CommandFragmentBuffer :=
  added.foldl (fun b fragment => b.add_fragment fragment.1 fragment.2)
    (.new channel_id fragment_count ordered created_at)

/-- The ids below the count that are not among the given ones. -/
def missing (fragment_count : UInt8) (ids : List UInt8) : Finset UInt8 := ids_below fragment_count \ ids.toFinset

/-- The given ids that are not below the count. -/
def stray (fragment_count : UInt8) (ids : List UInt8) : Finset UInt8 := ids.toFinset \ ids_below fragment_count

section Gathered

variable (ch n : UInt8) (o : Bool) (t : Instant) (added : List (UInt8 × Bytes))

theorem fragment_count_gathered : (gathered ch n o t added).fragment_count = n := by
  refine foldl_invariant (I := fun b : CommandFragmentBuffer => b.fragment_count = n) ?_ rfl
  intro b fragment h
  exact h

theorem mem_gathered (i : UInt8) : i ∈ (gathered ch n o t added).fragments ↔ i ∈ added.map Prod.fst := by
  induction added using List.reverseRecOn with
  | nil => simp [gathered, new]
  | append_singleton added fragment ih =>
    have hadd : gathered ch n o t (added ++ [fragment]) =
        (gathered ch n o t added).add_fragment fragment.1 fragment.2 := by
      simp only [gathered, List.foldl_append, List.foldl_cons, List.foldl_nil]
    rw [hadd, mem_add_fragment, ih, List.map_append, List.mem_append, List.map_singleton, List.mem_singleton, or_comm]

theorem ids_of_gathered : ids_of (gathered ch n o t added).fragments = (added.map Prod.fst).toFinset := by
  ext i
  rw [mem_ids_of, mem_gathered, List.mem_toFinset]

/-- The buffer is complete iff as many ids are missing as there are strays. -/
theorem is_complete_gathered : (gathered ch n o t added).is_complete = true ↔
    (missing n (added.map Prod.fst)).card = (stray n (added.map Prod.fst)).card := by
  unfold is_complete missing stray
  rw [beq_iff_eq, fragment_count_gathered, size_eq_iff_card, ids_of_gathered]

end Gathered

theorem missing_empty {n : UInt8} {ids : List UInt8} : missing n ids = ∅ ↔ ∀ i < n, i ∈ ids := by
  unfold missing
  rw [Finset.sdiff_eq_empty_iff_subset, ids_below_subset]
  simp only [List.mem_toFinset]

/-- A complete buffer is reassembled if every fragment is there. -/
theorem reassemble_of_all {b : CommandFragmentBuffer} (hc : b.is_complete = true)
    (hall : ∀ i < b.fragment_count, i ∈ b.fragments) : b.reassemble ≠ none := by
  have hget : ∀ i ∈ (List.range b.fragment_count.toNat).map UInt8.ofNat,
      b.fragments[i]? = some (b.fragments[i]?.getD []) := by
    intro i hi
    obtain ⟨d, hd⟩ := Option.isSome_iff_exists.1 (Std.ExtTreeMap.mem_iff_isSome_getElem?.1 (hall i (mem_ids.1 hi)))
    rw [hd]
    rfl
  unfold reassemble
  rw [hc, collect_eq (nodup_ids b.fragment_count) hget]
  simp

end CommandFragmentBuffer

namespace Peer

open CommandFragmentBuffer

variable {p p' : Peer} {c : ProtocolCommand} {t : Instant} {draw : UInt16} {r : Processed}

/-- The sequence of a fragment, and its buffer with the fragment added. -/
def buffered (p : Peer) (t : Instant) : ProtocolCommand → Option (UInt16 × CommandFragmentBuffer)
  | .SendFragment ch s o i n d => some (s, p.fragment_buffer ch s o i n d t)
  | .SendUnreliableFragment ch s i n d => some (s, p.fragment_buffer ch s false i n d t)
  | _ => none

/-- The buffers that are open while a command is processed. -/
def open_buffers (p : Peer) (t : Instant) (c : ProtocolCommand) : Std.ExtTreeMap UInt16 CommandFragmentBuffer :=
  match p.buffered t c with
  | some (s, b) => p.command_fragments.insert s b
  | none => p.command_fragments

/-- The command is processed, and of the open buffers `b` is no longer there. -/
def Discards (p : Peer) (c : ProtocolCommand) (t : Instant) (draw : UInt16) (b : CommandFragmentBuffer) : Prop :=
  ∃ (s : UInt16) (p' : Peer) (r : Processed), (p.open_buffers t c)[s]? = some b ∧ p.process_command c t draw = .ok (p', r) ∧
    p'.command_fragments[s]? = none

theorem command_fragments_add_fragment (p : Peer) (ch : UInt8) (s : UInt16) (o : Bool) (i n : UInt8) (d : SharedBytes)
    (t : Instant) : (p.add_fragment ch s o i n d t).2.command_fragments =
      if (p.fragment_buffer ch s o i n d t).is_complete then p.command_fragments.erase s
      else p.command_fragments.insert s (p.fragment_buffer ch s o i n d t) := by
  cases hc : (p.fragment_buffer ch s o i n d t).is_complete with
  | true =>
    rw [add_fragment_complete hc]
    rfl
  | false =>
    rw [add_fragment_incomplete hc]
    rfl

/-- What becomes of the buffers: a fragment takes its own out if that is
complete, and no other command touches any. -/
def buffers_after (p : Peer) (t : Instant) (c : ProtocolCommand) : Std.ExtTreeMap UInt16 CommandFragmentBuffer :=
  match p.buffered t c with
  | some (s, b) => if b.is_complete then p.command_fragments.erase s else p.command_fragments.insert s b
  | none => p.command_fragments

theorem command_fragments_send_fragment (p : Peer) (ch : UInt8) (s : UInt16) (o : Bool) (i n : UInt8) (d : SharedBytes)
    (t : Instant) : (p.process_send_fragment ch s o i n d t).1.command_fragments =
      (p.add_fragment ch s o i n d t).2.command_fragments := by
  rw [show (p.add_fragment ch s o i n d t).2.command_fragments =
    ((p.process_acknowledge s 0 t).add_fragment ch s o i n d t).2.command_fragments by
      rw [command_fragments_add_fragment, command_fragments_add_fragment]; rfl]
  unfold process_send_fragment
  dsimp only
  split
  · rename_i he
    rw [he]
  · rename_i he
    rw [he]
    dsimp only
    split
    · rfl
    · split
      · exact (sameInbox_enqueue_command _ _).fragments
      · exact (sameInbox_enqueue_command _ _).fragments

theorem command_fragments_send_unreliable_fragment (p : Peer) (ch : UInt8) (s : UInt16) (i n : UInt8)
    (d : SharedBytes) (t : Instant) : (p.process_send_unreliable_fragment ch s i n d t).1.command_fragments =
      (p.add_fragment ch s false i n d t).2.command_fragments := by
  unfold process_send_unreliable_fragment
  split
  · rename_i he
    rw [he]
  · rename_i he
    rw [he]
    dsimp only
    split <;> rfl

theorem process_command_buffers (h : p.process_command c t draw = .ok (p', r)) :
    p'.command_fragments = p.buffers_after t c := by
  cases c with
  | SendFragment ch s o i n d =>
    rw [process_command_fragment] at h
    cases h
    exact (command_fragments_send_fragment ..).trans (command_fragments_add_fragment ..)
  | SendUnreliableFragment ch s i n d =>
    rw [process_command_unreliable_fragment] at h
    cases h
    exact (command_fragments_send_unreliable_fragment ..).trans (command_fragments_add_fragment ..)
  | SendReliable ch s o d =>
    rw [process_command_reliable] at h
    cases h
    obtain ⟨cs, he⟩ := process_send_reliable_writes (p.heard t) ch s o d t
    rw [he]
    exact (sameInbox_enqueue_command _ _).fragments
  | SendUnreliableSequenced ch s d =>
    rw [process_command_unreliable_sequenced] at h
    cases h
    obtain ⟨cs, he⟩ := process_send_unreliable_sequenced_writes (p.heard t) ch s d
    rw [he]
    rfl
  | SendUnsequenced ch g d =>
    rw [process_command_unsequenced] at h
    cases h
    obtain ⟨u, he⟩ := process_send_unsequenced_writes (p.heard t) ch g d
    rw [he]
    rfl
  | Connect chs m v sid cid =>
    rw [process_command_connect] at h
    cases h
    obtain he | ⟨i, n, st, v, he, -⟩ := process_connect_writes (p.heard t) chs sid cid draw
    · rw [he]
      rfl
    · rw [he]
      rfl
  | VerifyConnect pid chs m isid osid w =>
    obtain ⟨i, s, f, st, rfl⟩ := process_verify_connect_writes h
    rfl
  | Ping ts =>
    cases h
    exact (sameInbox_enqueue_command _ _).fragments
  | PMTUProbe size token d =>
    cases h
    exact (sameInbox_enqueue_command _ _).fragments
  | _ =>
    cases h
    rfl

/-- Only a complete buffer is taken out. -/
theorem Discards.is_complete {b : CommandFragmentBuffer} (h : p.Discards c t draw b) : b.is_complete = true := by
  obtain ⟨s, p', r, hopen, hok, hgone⟩ := h
  rw [process_command_buffers hok] at hgone
  unfold open_buffers at hopen
  unfold buffers_after at hgone
  cases hb : p.buffered t c with
  | none =>
    rw [hb] at hopen hgone
    rw [hopen] at hgone
    cases hgone
  | some own =>
    obtain ⟨s', b'⟩ := own
    rw [hb] at hopen hgone
    dsimp only at hopen hgone
    by_cases hs : s' = s
    · -- the fragment's own buffer
      subst hs
      rw [Std.ExtTreeMap.getElem?_insert_self] at hopen
      cases hopen
      by_contra hc
      rw [if_neg hc, Std.ExtTreeMap.getElem?_insert_self] at hgone
      cases hgone
    · have hne : ¬ compare s' s = .eq := by rw [Std.compare_eq_iff_eq]; exact hs
      rw [Std.ExtTreeMap.getElem?_insert, if_neg hne] at hopen
      split at hgone
      · rw [Std.ExtTreeMap.getElem?_erase, if_neg hne, hopen] at hgone
        cases hgone
      · rw [Std.ExtTreeMap.getElem?_insert, if_neg hne, hopen] at hgone
        cases hgone

/-- A buffer is complete exactly when every fragment was added, and is not
discarded without being reassembled, iff no stray id was added, or one fragment
at least is missing and the strays are not as many as the missing ones. -/
theorem complete_means_all_iff (ch n : UInt8) (o : Bool) (t : Instant) (added : List (UInt8 × Bytes)) :
    (((gathered ch n o t added).is_complete = true ↔ ∀ i < n, i ∈ added.map Prod.fst) ∧
      ∀ (p : Peer) (c : ProtocolCommand) (time : Instant) (draw : UInt16),
        p.Discards c time draw (gathered ch n o t added) → (gathered ch n o t added).reassemble ≠ none) ↔
    stray n (added.map Prod.fst) = ∅ ∨
      (missing n (added.map Prod.fst) ≠ ∅ ∧
        (missing n (added.map Prod.fst)).card ≠ (stray n (added.map Prod.fst)).card) := by
  have hcomplete := is_complete_gathered ch n o t added
  rw [← missing_empty, hcomplete]
  constructor
  · rintro ⟨hmeans, -⟩
    by_cases hstray : stray n (added.map Prod.fst) = ∅
    · exact .inl hstray
    · refine .inr ⟨?_, ?_⟩
      · intro hmissing
        have hcard := hmeans.2 hmissing
        rw [hmissing, Finset.card_empty, eq_comm, Finset.card_eq_zero] at hcard
        exact hstray hcard
      · intro hcard
        have hmissing := hmeans.1 hcard
        rw [hmissing, Finset.card_empty, eq_comm, Finset.card_eq_zero] at hcard
        exact hstray hcard
  · intro hcond
    have hmeans : (missing n (added.map Prod.fst)).card = (stray n (added.map Prod.fst)).card ↔
        missing n (added.map Prod.fst) = ∅ := by
      rcases hcond with hstray | ⟨hmissing, hcard⟩
      · rw [hstray, Finset.card_empty, Finset.card_eq_zero]
      · exact iff_of_false hcard hmissing
    refine ⟨hmeans, ?_⟩
    intro p c time draw hd
    have hall := missing_empty.1 (hmeans.1 (hcomplete.1 hd.is_complete))
    apply reassemble_of_all hd.is_complete
    intro i hi
    rw [fragment_count_gathered] at hi
    exact (mem_gathered ..).2 (hall i hi)

/-- Fragments 0 and 5 of a message of two. The buffer is complete without
fragment 1, and a peer that gets them drops both. -/
theorem stray_fragment_completes :
    (gathered 0 2 false 0 [(0, [1]), (5, [9])]).is_complete = true ∧
    ¬ (∀ i < 2, i ∈ ([(0, [1]), (5, [9])] : List (UInt8 × Bytes)).map Prod.fst) ∧
    (gathered 0 2 false 0 [(0, [1]), (5, [9])]).reassemble = none ∧
    ∃ p, (Peer.new ⟨.V4 0, 0⟩ .default 0 ⟨0, 0, 0⟩).process_command (.SendFragment 0 7 false 0 2 (.from_vec [1])) 0 0 =
        .ok (p, .ok []) ∧
      p.Discards (.SendFragment 0 7 false 5 2 (.from_vec [9])) 0 0 (gathered 0 2 false 0 [(0, [1]), (5, [9])]) := by
  refine ⟨rfl, ?_, rfl, _, rfl, 7, _, _, rfl, rfl, rfl⟩
  intro h
  exact absurd (h 1 (by decide)) (by decide)

end Peer

end Bitfold
