import Bitfold.PathMtu
import Bitfold.Receiving
/-!
# Replies to probes that were not sent

`process_reply` asks for the token of the outstanding probe and takes whatever
size comes with it. A reply with the right token and a size above the low
bound that was never probed becomes the low bound and the fragment size, and
nothing but such a reply brings in a size that was not probed.
-/

namespace Bitfold

open Lib

namespace Search

open PmtuDiscovery

variable {config : Config} {s : Search}

/-- The configured size, the smallest one or the size of a probe that was sent. -/
def Known (config : Config) (s : Search) (size : UInt16) : Prop :=
  size = config.fragment_size ∨ size = config.pmtu_min ∨ ∃ token, (size, token) ∈ s.probes

/-- The low bound and the fragment size are known sizes, and the fragment size
is within the largest one to probe. -/
structure Probed (config : Config) (s : Search) : Prop where
  low : Known config s s.discovery.low_bound
  fragment_size : Known config s s.discovery.current_fragment_size
  bound : s.discovery.current_fragment_size.toNat ≤
    max config.fragment_size.toNat (max config.pmtu_min.toNat config.pmtu_max.toNat)

/-- A reply that is taken brings no size but a known one, or one that is not
above the low bound. -/
def Honest (config : Config) (s : Search) : PmtuCall → Prop
  | .handle_pmtu .. => True
  | .process_reply size token _ => s.discovery.Awaits token → size ≤ s.discovery.low_bound ∨ Known config s size

/-- No probe is larger than the largest size to probe. -/
structure WithinMax (config : Config) (s : Search) : Prop where
  high : s.discovery.high.toNat ≤ config.pmtu_max.toNat
  probes : ∀ probe ∈ s.probes, probe.1.toNat ≤ config.pmtu_max.toNat

theorem WithinMax.call (h : WithinMax config s) (c : PmtuCall) : WithinMax config (s.call c) := by
  have hclamp : s.discovery.clamp_high.high.toNat ≤ config.pmtu_max.toNat :=
    ((clamp_high_high _).trans_le (min_le_left _ _)).trans h.high
  have hmoves := s.moves c
  generalize s.call c = s' at hmoves ⊢
  cases hmoves with
  | stays => exact h
  | @gives_up time _ _ size _ _ _ _ =>
    refine ⟨?_, h.probes⟩
    have hhigh := h.high
    rw [gives_up_high]
    split <;> omega
  | converged => exact ⟨hclamp, h.probes⟩
  | early => exact ⟨hclamp, h.probes⟩
  | probes _ _ hwide =>
    refine ⟨hclamp, fun probe hprobe => ?_⟩
    rcases List.mem_cons.1 hprobe with rfl | hprobe
    · have hmiddle := s.discovery.clamp_high.middle_toNat
      rw [clamp_high_low] at hmiddle
      dsimp only
      omega
    · exact h.probes probe hprobe
  | raises => exact ⟨h.high, h.probes⟩

theorem Known.le (h : WithinMax config s) {size : UInt16} (hk : Known config s size) :
    size.toNat ≤ max config.fragment_size.toNat (max config.pmtu_min.toNat config.pmtu_max.toNat) := by
  rcases hk with rfl | rfl | ⟨token, hmem⟩
  · exact le_max_left _ _
  · exact (le_max_left _ _).trans (le_max_right _ _)
  · exact (h.probes _ hmem).trans ((le_max_right _ _).trans (le_max_right _ _))

/-- Probes are only added. -/
theorem Known.mono {s' : Search} {size : UInt16} (h : Known config s size) (hsub : s.probes ⊆ s'.probes) :
    Known config s' size :=
  h.imp_right (Or.imp_right fun ⟨token, hmem⟩ => ⟨token, hsub hmem⟩)

theorem probed_of_known (h : WithinMax config s) (hlow : Known config s s.discovery.low)
    (hsize : Known config s s.discovery.fragment_size) : Probed config s :=
  ⟨hlow, hsize, hsize.le h⟩

/-- One call keeps the sizes known exactly if it brings no other one. -/
theorem probed_call_iff (hmax : WithinMax config s) (h : Probed config s) (c : PmtuCall) :
    Probed config (s.call c) ↔ Honest config s c := by
  have hmax' := hmax.call c
  have hlow : Known config s s.discovery.clamp_high.low := (clamp_high_low s.discovery).symm ▸ h.low
  have hsize : Known config s s.discovery.clamp_high.fragment_size :=
    (clamp_high_fragment_size s.discovery).symm ▸ h.fragment_size
  cases c with
  | handle_pmtu t rto draw =>
    refine iff_of_true ?_ trivial
    have hmoves := s.moves (.handle_pmtu t rto draw)
    generalize s.call (.handle_pmtu t rto draw) = s' at hmoves hmax' ⊢
    cases hmoves with
    | stays => exact h
    | gives_up => exact probed_of_known hmax' h.low h.fragment_size
    | converged => exact probed_of_known hmax' hlow hlow
    | early => exact probed_of_known hmax' hlow hsize
    | probes =>
      have hsub : s.probes ⊆ (s.discovery.clamp_high.middle, draw.token) :: s.probes := List.subset_cons_self _ _
      exact probed_of_known hmax' (hlow.mono hsub) (hsize.mono hsub)
  | process_reply size token t =>
    rw [call] at hmax' ⊢
    rcases process_reply_cases s.discovery size token t with ⟨hawaits, he⟩ | ⟨hnot, he⟩
    · rw [he] at hmax' ⊢
      -- the low bound and the fragment size are the greater of the two
      have hraised : max s.discovery.low size = if s.discovery.low ≤ size then size else s.discovery.low := rfl
      constructor
      · intro hprobed _
        have hknown : Known config s (max s.discovery.low size) := hprobed.low
        rw [hraised] at hknown
        by_cases hle : s.discovery.low ≤ size
        · rw [if_pos hle] at hknown
          exact .inr hknown
        · exact .inl (UInt16.le_of_lt (UInt16.not_le.1 hle))
      · intro hhonest
        have hknown : Known config s (max s.discovery.low size) := by
          rw [hraised]
          by_cases hle : s.discovery.low ≤ size
          · rw [if_pos hle]
            rcases hhonest hawaits with hge | hknown
            · rw [UInt16.le_antisymm hge hle]
              exact h.low
            · exact hknown
          · rw [if_neg hle]
            exact h.low
        exact probed_of_known hmax' hknown hknown
    · rw [he] at hmax' ⊢
      exact iff_of_true h fun hawaits => absurd hawaits hnot

end Search

/-! ## Runs of a peer -/

namespace Peer

/-- The calls that probes concern. -/
inductive ProbeCall where
  | handle_pmtu (time : Instant) (draw : ProbeDraw)
  | process_reply (size : UInt16) (token : UInt32) (time : Instant) (draw : UInt16)

/-- The call seen from the search of a peer. -/
def search_call (p : Peer) : ProbeCall → PmtuCall
  | .handle_pmtu time draw => .handle_pmtu time p.rto draw
  | .process_reply size token time _ => .process_reply size token time

/-- A peer that calls `handle_pmtu` or processes a `PMTUReply` command. -/
def Probes (p : Peer) : ProbeCall → Peer → Prop
  | .handle_pmtu time draw, p' => p' = p.handle_pmtu time draw
  | .process_reply size token time draw, p' => ∃ r, p.process_command (.PMTUReply size token) time draw = .ok (p', r)

/-- A peer, and the sizes and tokens of the probes it has generated. -/
structure Prober where
  peer : Peer
  probes : List (UInt16 × UInt32)

namespace Prober

def search (s : Prober) : Search := ⟨s.peer.pmtu, s.probes⟩

def step (s : Prober) (c : ProbeCall) (s' : Prober) : Prop :=
  s.peer.Probes c s'.peer ∧ s'.probes = (s.search.call (s.peer.search_call c)).probes

def start (addr : SocketAddr) (config : Config) (time : Instant) (draw : PeerDraw) : Prober :=
  ⟨Peer.new addr config time draw, []⟩

/-- A step of the peer is a call of its search. -/
theorem search_step {s s' : Prober} {c : ProbeCall} (h : s.step c s') :
    s'.search = s.search.call (s.peer.search_call c) := by
  obtain ⟨peer', probes'⟩ := s'
  obtain ⟨hpeer, rfl⟩ := h
  cases c with
  | handle_pmtu t draw =>
    have hpmtu := s.peer.handle_pmtu_pmtu t draw
    rw [← show peer' = s.peer.handle_pmtu t draw from hpeer] at hpmtu
    rw [search, hpmtu]
    rfl
  | process_reply size token t draw =>
    obtain ⟨r, hr⟩ := hpeer
    cases hr
    rfl

/-- The sizes stay known exactly as long as no reply that is taken brings
another one. -/
theorem only_probed_sizes_iff (addr : SocketAddr) (config : Config) (time : Instant) (draw : PeerDraw)
    {steps : List (Prober × ProbeCall)} {s : Prober} (h : Run step (start addr config time draw) steps s) :
    (∀ u ∈ states steps s, u.search.Probed config) ↔
      ∀ x ∈ steps, x.1.search.Honest config (x.1.peer.search_call x.2) := by
  have hmax : (start addr config time draw).search.WithinMax config := ⟨le_rfl, by simp [start, search]⟩
  have hstart : (start addr config time draw).search.Probed config :=
    Search.probed_of_known hmax (.inr (.inl rfl)) (.inl rfl)
  refine h.forall_states_iff (I := fun u => u.search.WithinMax config) hmax (fun t a u ht hs => ?_) hstart fun t a u hm ht hs => ?_
  · rw [search_step hs]
    exact ht.call _
  · rw [search_step hs]
    exact Search.probed_call_iff hm ht _

/-- A peer with the default configuration, and its first probe after ten seconds. -/
def first_prober : Prober := start ⟨.V4 0, 0⟩ Config.default 0 ⟨7, 0, 0⟩

def first_call : ProbeCall := .handle_pmtu 10000000000 ⟨7, fun _ => 0⟩

def second_prober : Prober :=
  ⟨first_prober.peer.handle_pmtu 10000000000 ⟨7, fun _ => 0⟩, [(988, 7)]⟩

theorem first_step : first_prober.step first_call second_prober := ⟨rfl, by decide +kernel⟩

/-- The peer after a reply to it with this size. -/
def replied (size : UInt16) : Prober :=
  ⟨{ second_prober.peer.heard 10000000001 with
      pmtu := (second_prober.peer.pmtu.process_reply size 7 10000000001).2 }, [(988, 7)]⟩

theorem reply_step (size : UInt16) : second_prober.step (.process_reply size 7 10000000001 0) (replied size) :=
  ⟨⟨_, rfl⟩, rfl⟩

/-- An honest reply. -/
theorem only_probed_sizes_honest : Run step first_prober [(first_prober, first_call),
      (second_prober, .process_reply 988 7 10000000001 0)] (replied 988) ∧
    ∀ u ∈ states [(first_prober, first_call), (second_prober, .process_reply 988 7 10000000001 0)] (replied 988),
      u.search.Probed Config.default := by
  have hrun : Run step first_prober [(first_prober, first_call),
      (second_prober, .process_reply 988 7 10000000001 0)] (replied 988) :=
    .next (.next .start first_step) (reply_step 988)
  refine ⟨hrun, (only_probed_sizes_iff _ _ _ _ hrun).2 fun x hx => ?_⟩
  rcases List.mem_cons.1 hx with rfl | hx
  · trivial
  · cases List.mem_singleton.1 hx
    exact fun _ => .inr (.inr (.inr ⟨7, by decide +kernel⟩))

/-- A reply with the right token and the size 65535. -/
theorem forged_size_taken : Run step first_prober [(first_prober, first_call),
      (second_prober, .process_reply 65535 7 10000000001 0)] (replied 65535) ∧
    (replied 65535).search.discovery.current_fragment_size = 65535 ∧
    ¬ (replied 65535).search.Probed Config.default := by
  refine ⟨.next (.next .start first_step) (reply_step 65535), by decide +kernel, fun h => ?_⟩
  have hbound := h.bound
  revert hbound
  decide +kernel

end Prober

end Peer

end Bitfold
