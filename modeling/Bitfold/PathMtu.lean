import Bitfold.Lib.Runs
import Bitfold.PeerParts
/-!
# Path MTU discovery

A binary search for the largest size that comes through. One call of
`handle_pmtu` waits for the outstanding probe, gives it up, finds the search
converged, waits for the next interval or sends a probe; `process_reply` raises
the low bound. A probe is halfway between the bounds, rounded down: on an
interval of width one it is the low bound itself, and its reply tells nothing.
-/

namespace Bitfold

open Lib

namespace PmtuDiscovery

/-! ## One call -/

/-- A probe is given up this long after it was sent. -/
def probe_timeout (rto : Duration) : Duration := max rto (from_millis 200)

/-- The outstanding probe has waited too long. -/
def Expired (d : PmtuDiscovery) (t : Instant) (rto : Duration) : Prop :=
  ∃ probe ∈ d.outstanding, probe_timeout rto < t - probe.2.2

/-- The search is over: the next call sets the fragment size to the low bound. -/
structure Converged (d : PmtuDiscovery) : Prop where
  on : d.config.use_pmtu_discovery = true
  idle : d.outstanding = none
  close : saturating_sub16 d.clamp_high.high d.clamp_high.low ≤ d.config.pmtu_converge_threshold

/-- The discovery with the outstanding probe given up. -/
def gives_up (d : PmtuDiscovery) (size : UInt16) (t : Instant) : PmtuDiscovery :=
  { d with high := if size > 0 then min d.high (size - 1) else d.high, outstanding := none, last_probe := t }

/-- Halfway between the bounds. -/
def middle (d : PmtuDiscovery) : UInt16 := .ofNat ((d.low.toNat + d.high.toNat) / 2)

/-- The discovery with a probe outstanding. -/
def probing (d : PmtuDiscovery) (token : UInt32) (t : Instant) : PmtuDiscovery :=
  { d with outstanding := some (d.middle, token, t), last_probe := t }

section

variable (d : PmtuDiscovery)

@[simp] theorem clamp_high_config : d.clamp_high.config = d.config := by
  unfold clamp_high
  split <;> rfl

@[simp] theorem clamp_high_low : d.clamp_high.low = d.low := by
  unfold clamp_high
  split <;> rfl

@[simp] theorem clamp_high_fragment_size : d.clamp_high.fragment_size = d.fragment_size := by
  unfold clamp_high
  split <;> rfl

@[simp] theorem clamp_high_outstanding : d.clamp_high.outstanding = d.outstanding := by
  unfold clamp_high
  split <;> rfl

@[simp] theorem clamp_high_last_probe : d.clamp_high.last_probe = d.last_probe := by
  unfold clamp_high
  split <;> rfl

theorem datagram_cap_toNat (config : Config) :
    (datagram_cap config).toNat = min config.receive_buffer_max_size 65535 := by
  unfold datagram_cap
  rw [UInt16.toNat_ofNat']
  omega

theorem clamp_high_high :
    d.clamp_high.high.toNat = min d.high.toNat (min d.config.receive_buffer_max_size 65535) := by
  rw [← datagram_cap_toNat]
  unfold clamp_high
  split
  · rename_i h
    have hlt : (datagram_cap d.config).toNat < d.high.toNat := h
    exact (Nat.min_eq_right hlt.le).symm
  · rename_i h
    have hle : d.high.toNat ≤ (datagram_cap d.config).toNat := Nat.not_lt.1 h
    exact (Nat.min_eq_left hle).symm

theorem middle_toNat : d.middle.toNat = (d.low.toNat + d.high.toNat) / 2 := by
  have hlow := d.low.toNat_lt
  have hhigh := d.high.toNat_lt
  unfold middle
  rw [UInt16.toNat_ofNat']
  omega

end

/-- The probe's size is taken as too large, except size 0. -/
theorem gives_up_high (d : PmtuDiscovery) (size : UInt16) (t : Instant) :
    (d.gives_up size t).high.toNat = if 0 < size.toNat then min d.high.toNat (size.toNat - 1) else d.high.toNat := by
  have hpos : size > 0 ↔ 0 < size.toNat := .rfl
  unfold gives_up
  dsimp only
  rw [apply_ite UInt16.toNat, min16_toNat]
  simp only [hpos]
  split
  · rename_i h
    have hone : (1 : UInt16) ≤ size := UInt16.le_iff_toNat_le.2 (Nat.succ_le_of_lt h)
    rw [UInt16.toNat_sub_of_le _ _ hone]
    rfl
  · rfl

/-- What a call of `handle_pmtu` does. -/
inductive Turns (d : PmtuDiscovery) (t : Instant) (rto : Duration) (draw : ProbeDraw) :
    Option ProtocolCommand × PmtuDiscovery → Prop where
  | off : d.config.use_pmtu_discovery = false → Turns d t rto draw (none, d)
  | waits : d.outstanding.isSome = true → ¬ d.Expired t rto → Turns d t rto draw (none, d)
  | gives_up {size token sent} : d.outstanding = some (size, token, sent) → d.Expired t rto →
      Turns d t rto draw (none, d.gives_up size t)
  | converged : d.Converged → Turns d t rto draw (none, { d.clamp_high with fragment_size := d.clamp_high.low })
  | early : d.outstanding = none → t - d.last_probe < from_millis d.config.pmtu_interval_ms.toNat →
      Turns d t rto draw (none, d.clamp_high)
  | probes {payload} : d.config.use_pmtu_discovery = true → d.outstanding = none →
      d.low.toNat + d.config.pmtu_converge_threshold.toNat < d.clamp_high.high.toNat →
      from_millis d.config.pmtu_interval_ms.toNat ≤ t - d.last_probe →
      static_overhead d.config + 11 + payload.len ≤ max (static_overhead d.config + 12) d.clamp_high.middle.toNat →
      Turns d t rto draw (some (.PMTUProbe d.clamp_high.middle draw.token payload),
        d.clamp_high.probing draw.token t)

theorem static_overhead_le (config : Config) : static_overhead config ≤ 10 := by
  unfold static_overhead compression_overhead checksum_overhead
  split <;> split <;> omega

theorem probe_overhead_toNat (config : Config) : (probe_overhead config).toNat = static_overhead config + 11 := by
  have hstatic := static_overhead_le config
  unfold probe_overhead
  rw [UInt16.toNat_ofNat']
  omega

/-- The payload of a probe that says how large its datagram is. -/
def payload_len (config : Config) (target : UInt16) : Nat :=
  if target > probe_overhead config then max (target - probe_overhead config).toNat 1 else 1

/-- With room for a payload, it fills the datagram. -/
theorem payload_len_of_lt {config : Config} {target : UInt16} (h : probe_overhead config < target) :
    static_overhead config + 11 + payload_len config target = target.toNat := by
  have hlt : (probe_overhead config).toNat < target.toNat := h
  unfold payload_len
  rw [if_pos h, UInt16.toNat_sub_of_le _ _ (UInt16.le_of_lt h)]
  rw [probe_overhead_toNat] at hlt ⊢
  omega

/-- A datagram with one probe is as large as the probe says, or has one byte of
payload. -/
theorem probe_payload_len (config : Config) (target : UInt16) :
    static_overhead config + 11 + payload_len config target ≤ max (static_overhead config + 12) target.toNat := by
  by_cases h : probe_overhead config < target
  · rw [payload_len_of_lt h]
    omega
  · unfold payload_len
    rw [if_neg h]
    omega

theorem turns (d : PmtuDiscovery) (t : Instant) (rto : Duration) (draw : ProbeDraw) :
    Turns d t rto draw (d.handle_pmtu t rto draw) := by
  unfold handle_pmtu
  split
  · rename_i hoff
    exact .off (by simpa using hoff)
  · rename_i hon
    have hon : d.config.use_pmtu_discovery = true := by simpa using hon
    split
    · rename_i size token sent hout
      dsimp only
      split
      · rename_i hlate
        exact .gives_up hout ⟨_, hout, hlate⟩
      · rename_i hlate
        refine .waits (by rw [hout]; rfl) ?_
        rintro ⟨probe, hprobe, hlt⟩
        rw [hout] at hprobe
        cases hprobe
        exact hlate hlt
    · rename_i hidle
      dsimp only
      split
      · rename_i hclose
        exact .converged ⟨hon, hidle, by simpa using hclose⟩
      · rename_i hwide
        split
        · rename_i hinterval
          rw [clamp_high_config, clamp_high_last_probe] at hinterval
          exact .early hidle hinterval
        · rename_i hinterval
          have hthreshold : d.clamp_high.config.pmtu_converge_threshold.toNat <
              (saturating_sub16 d.clamp_high.high d.clamp_high.low).toNat := UInt16.not_le.1 hwide
          rw [saturating_sub16_toNat, clamp_high_config, clamp_high_low] at hthreshold
          rw [clamp_high_config, clamp_high_last_probe, Nat.not_lt] at hinterval
          -- the cap on the target changes nothing, as the high bound is clamped
          have htarget : min (.ofNat ((d.clamp_high.low.toNat + d.clamp_high.high.toNat) / 2))
              (datagram_cap d.clamp_high.config) = d.clamp_high.middle := by
            change min d.clamp_high.middle _ = _
            have hhigh := d.clamp_high_high
            rw [← UInt16.toNat_inj, min16_toNat, datagram_cap_toNat, middle_toNat, clamp_high_low, clamp_high_config]
            omega
          rw [htarget]
          refine .probes hon hidle (by omega) hinterval ?_
          rw [SharedBytes.len_from_vec, List.length_map, List.length_range, clamp_high_config]
          exact probe_payload_len d.config d.clamp_high.middle

theorem Converged.handle_pmtu {d : PmtuDiscovery} (h : d.Converged) (t : Instant) (rto : Duration) (draw : ProbeDraw) :
    d.handle_pmtu t rto draw = (none, { d.clamp_high with fragment_size := d.clamp_high.low }) := by
  have hclose := h.close
  rw [← clamp_high_config d] at hclose
  unfold PmtuDiscovery.handle_pmtu
  rw [h.on, h.idle]
  dsimp only
  rw [if_neg (by decide), if_pos hclose]

theorem handle_pmtu_payload {d d' : PmtuDiscovery} {t : Instant} {rto : Duration} {draw : ProbeDraw} {size : UInt16}
    {token : UInt32} {payload : SharedBytes}
    (h : d.handle_pmtu t rto draw = (some (.PMTUProbe size token payload), d')) :
    payload.len = payload_len d.config size := by
  unfold handle_pmtu at h
  split at h
  · cases h
  · split at h
    · dsimp only at h
      split at h <;> cases h
    · dsimp only at h
      split at h
      · cases h
      · split at h
        · cases h
        · cases h
          rw [SharedBytes.len_from_vec, List.length_map, List.length_range, clamp_high_config]
          rfl

/-- When the interval is over and the bounds are apart, there is a probe. -/
theorem handle_pmtu_probes {d : PmtuDiscovery} (hon : d.config.use_pmtu_discovery = true) (hidle : d.outstanding = none)
    (hwide : d.low.toNat + d.config.pmtu_converge_threshold.toNat < d.clamp_high.high.toNat) {t : Instant}
    (htime : from_millis d.config.pmtu_interval_ms.toNat ≤ t - d.last_probe) (rto : Duration) (draw : ProbeDraw) :
    ∃ payload, d.handle_pmtu t rto draw =
      (some (.PMTUProbe d.clamp_high.middle draw.token payload), d.clamp_high.probing draw.token t) := by
  have hturns := turns d t rto draw
  generalize d.handle_pmtu t rto draw = r at hturns ⊢
  cases hturns with
  | off hoff => cases hon.symm.trans hoff
  | waits hout =>
    rw [hidle] at hout
    cases hout
  | gives_up hout => cases hidle.symm.trans hout
  | converged hconv =>
    have hclose : (saturating_sub16 d.clamp_high.high d.clamp_high.low).toNat ≤
        d.config.pmtu_converge_threshold.toNat := hconv.close
    rw [saturating_sub16_toNat, clamp_high_low] at hclose
    omega
  | early _ hearly => exact absurd hearly (Nat.not_lt.2 htime)
  | probes => exact ⟨_, rfl⟩

/-- A call with a probe records it as outstanding; any other leaves what is
outstanding, or gives it up. -/
theorem handle_pmtu_outstanding (d : PmtuDiscovery) (t : Instant) (rto : Duration) (draw : ProbeDraw) :
    (∃ size payload, (d.handle_pmtu t rto draw).1 = some (.PMTUProbe size draw.token payload) ∧
      (d.handle_pmtu t rto draw).2.outstanding = some (size, draw.token, t)) ∨
    (d.handle_pmtu t rto draw).1 = none ∧ ((d.handle_pmtu t rto draw).2.outstanding = d.outstanding ∨
      (d.handle_pmtu t rto draw).2.outstanding = none ∧ d.Expired t rto) := by
  have hturns := turns d t rto draw
  have hclamp := d.clamp_high_outstanding
  generalize d.handle_pmtu t rto draw = r at hturns ⊢
  cases hturns with
  | off => exact .inr ⟨rfl, .inl rfl⟩
  | waits => exact .inr ⟨rfl, .inl rfl⟩
  | gives_up _ hlate => exact .inr ⟨rfl, .inr ⟨rfl, hlate⟩⟩
  | converged => exact .inr ⟨rfl, .inl hclamp⟩
  | early => exact .inr ⟨rfl, .inl hclamp⟩
  | probes => exact .inl ⟨_, _, rfl, rfl⟩

/-- The discovery after a reply with this size. -/
def raises (d : PmtuDiscovery) (size : UInt16) (t : Instant) : PmtuDiscovery :=
  { d with low := max d.low size, fragment_size := max d.low size, outstanding := none, last_probe := t }

/-- The outstanding probe has this token. -/
def Awaits (d : PmtuDiscovery) (token : UInt32) : Prop := ∃ size sent, d.outstanding = some (size, token, sent)

theorem process_reply_cases (d : PmtuDiscovery) (size : UInt16) (token : UInt32) (t : Instant) :
    d.Awaits token ∧ d.process_reply size token t = (true, d.raises size t) ∨
      ¬ d.Awaits token ∧ d.process_reply size token t = (false, d) := by
  unfold process_reply Awaits
  cases hout : d.outstanding with
  | none =>
    refine .inr ⟨?_, rfl⟩
    rintro ⟨_, _, h⟩
    cases h
  | some probe =>
    obtain ⟨mid, token', sent⟩ := probe
    dsimp only
    by_cases he : token' = token
    · rw [if_pos (beq_iff_eq.2 he), he]
      exact .inl ⟨⟨mid, sent, rfl⟩, rfl⟩
    · rw [if_neg (mt beq_iff_eq.1 he)]
      refine .inr ⟨?_, rfl⟩
      rintro ⟨_, _, h⟩
      cases h
      exact he rfl

end PmtuDiscovery

/-! ## Runs -/

/-- The calls of the search. -/
inductive PmtuCall where
  | handle_pmtu (time : Instant) (rto : Duration) (draw : ProbeDraw)
  | process_reply (size : UInt16) (token : UInt32) (time : Instant)

/-- A search, and the sizes and tokens of the probes it has sent, the latest
first. -/
structure Search where
  discovery : PmtuDiscovery
  probes : List (UInt16 × UInt32)

namespace Search

open PmtuDiscovery

def start (config : Config) (time : Instant) : Search := ⟨.new config time, []⟩

/-- The size and the token of a probe. -/
def sent : Option ProtocolCommand → List (UInt16 × UInt32)
  | some (.PMTUProbe size token _) => [(size, token)]
  | _ => []

def call (s : Search) : PmtuCall → Search
  | .handle_pmtu time rto draw =>
    ⟨(s.discovery.handle_pmtu time rto draw).2, sent (s.discovery.handle_pmtu time rto draw).1 ++ s.probes⟩
  | .process_reply size token time => ⟨(s.discovery.process_reply size token time).2, s.probes⟩

/-- The network answers the probes of size at most `M` before they time out, and
no other ones. -/
def Answers (M : Nat) (s : Search) : PmtuCall → Prop
  | .handle_pmtu time rto _ => s.discovery.Expired time rto → ∀ probe ∈ s.probes.head?, M < probe.1.toNat
  | .process_reply size token _ => s.discovery.Awaits token → (size, token) ∈ s.probes ∧ size.toNat ≤ M

/-- A step of a run on a path with MTU `M`. -/
def step (M : Nat) (s : Search) (c : PmtuCall) (s' : Search) : Prop := s' = s.call c ∧ s.Answers M c

variable {s : Search} {M n : Nat} {config : Config}

/-- The outstanding probe is the last one sent, with the size it advertises. -/
def Recorded (s : Search) : Prop :=
  ∀ size token sent, s.discovery.outstanding = some (size, token, sent) → s.probes.head? = some (size, token)

theorem recorded_of_idle (h : s.discovery.outstanding = none) : s.Recorded := by
  intro size token sent hout
  rw [h] at hout
  cases hout

/-- What a call does to a search. -/
inductive Moves (s : Search) : PmtuCall → Search → Prop where
  | stays (c : PmtuCall) : Moves s c s
  | gives_up {time rto draw size token sent} : s.discovery.outstanding = some (size, token, sent) →
      s.discovery.Expired time rto → Moves s (.handle_pmtu time rto draw) ⟨s.discovery.gives_up size time, s.probes⟩
  | converged {time rto draw} : s.discovery.Converged → Moves s (.handle_pmtu time rto draw)
      ⟨{ s.discovery.clamp_high with fragment_size := s.discovery.clamp_high.low }, s.probes⟩
  | early {time rto draw} : s.discovery.outstanding = none →
      Moves s (.handle_pmtu time rto draw) ⟨s.discovery.clamp_high, s.probes⟩
  | probes {time rto draw} : s.discovery.config.use_pmtu_discovery = true → s.discovery.outstanding = none →
      s.discovery.low.toNat + s.discovery.config.pmtu_converge_threshold.toNat < s.discovery.clamp_high.high.toNat →
      Moves s (.handle_pmtu time rto draw)
        ⟨s.discovery.clamp_high.probing draw.token time, (s.discovery.clamp_high.middle, draw.token) :: s.probes⟩
  | raises {size token time} : s.discovery.Awaits token →
      Moves s (.process_reply size token time) ⟨s.discovery.raises size time, s.probes⟩

theorem moves (s : Search) (c : PmtuCall) : Moves s c (s.call c) := by
  cases c with
  | handle_pmtu t rto draw =>
    have hturns := turns s.discovery t rto draw
    rw [call]
    generalize s.discovery.handle_pmtu t rto draw = r at hturns ⊢
    cases hturns with
    | off => exact .stays _
    | waits => exact .stays _
    | gives_up hout hlate => exact .gives_up hout hlate
    | converged hconv => exact .converged hconv
    | early hidle _ => exact .early hidle
    | probes hon hidle hwide => exact .probes hon hidle hwide
  | process_reply size token t =>
    rw [call]
    rcases process_reply_cases s.discovery size token t with ⟨hawaits, he⟩ | ⟨-, he⟩
    · rw [he]
      exact .raises hawaits
    · rw [he]
      exact .stays _

/-- One call keeps the record. -/
theorem Recorded.call (h : s.Recorded) (c : PmtuCall) : (s.call c).Recorded := by
  have hmoves := s.moves c
  generalize s.call c = s' at hmoves ⊢
  cases hmoves with
  | stays => exact h
  | gives_up => exact recorded_of_idle rfl
  | converged hconv => exact recorded_of_idle ((clamp_high_outstanding _).trans hconv.idle)
  | early hidle => exact recorded_of_idle ((clamp_high_outstanding _).trans hidle)
  | probes =>
    intro size token sent hout
    cases hout
    rfl
  | raises => exact recorded_of_idle rfl

/-! ## The bounds bracket the path -/

/-- What a path with MTU `M` keeps between the bounds. -/
structure Brackets (config : Config) (M : Nat) (s : Search) : Prop where
  config : s.discovery.config = config
  low : s.discovery.low_bound.toNat ≤ M
  high : M ≤ s.discovery.high_bound.toNat
  recorded : s.Recorded

/-- Clamping keeps the bracket, since no larger datagram is received. -/
theorem Brackets.clamp_high (h : Brackets config M s) (hcap : M ≤ min config.receive_buffer_max_size 65535) :
    M ≤ s.discovery.clamp_high.high.toNat := by
  have hhigh := h.high
  rw [clamp_high_high, h.config]
  exact le_min hhigh hcap

/-- One step keeps the bracket. -/
theorem Brackets.step {c : PmtuCall} {s' : Search} (h : Brackets config M s)
    (hcap : M ≤ min config.receive_buffer_max_size 65535) (hs : s.step M c s') : Brackets config M s' := by
  obtain ⟨rfl, hanswers⟩ := hs
  have hrecorded := h.recorded.call c
  have hclamp := h.clamp_high hcap
  have hconfig := (clamp_high_config s.discovery).trans h.config
  have hlow : s.discovery.clamp_high.low.toNat ≤ M := by
    rw [clamp_high_low]
    exact h.low
  have hmoves := s.moves c
  generalize s.call c = s' at hmoves hrecorded ⊢
  cases hmoves with
  | stays => exact h
  | gives_up hout hlate =>
    refine ⟨h.config, h.low, ?_, hrecorded⟩
    have hlarge := hanswers hlate _ (h.recorded _ _ _ hout)
    dsimp only at hlarge
    have hhigh := h.high
    rw [high_bound, gives_up_high, if_pos (by omega)]
    rw [high_bound] at hhigh
    omega
  | converged => exact ⟨hconfig, hlow, hclamp, hrecorded⟩
  | early => exact ⟨hconfig, hlow, hclamp, hrecorded⟩
  | probes => exact ⟨hconfig, hlow, hclamp, hrecorded⟩
  | raises hawaits =>
    refine ⟨h.config, ?_, h.high, hrecorded⟩
    change (max s.discovery.low _).toNat ≤ M
    rw [max16_toNat]
    exact max_le h.low (hanswers hawaits).2

/-- The bounds bracket the MTU of the path in every state, and when the search
has converged the fragment size is the MTU, up to the threshold. -/
theorem search_correct (config : Config) (time : Instant) (M : Nat) (hmin : config.pmtu_min.toNat ≤ M)
    (hmax : M ≤ min config.pmtu_max.toNat (min config.receive_buffer_max_size 65535))
    {steps : List (Search × PmtuCall)} {s : Search} (h : Run (step M) (start config time) steps s) :
    (s.discovery.low_bound.toNat ≤ M ∧ M ≤ s.discovery.high_bound.toNat) ∧
    ∀ t rto draw, s.discovery.Converged →
      M ≤ (s.discovery.handle_pmtu t rto draw).2.current_fragment_size.toNat + config.pmtu_converge_threshold.toNat ∧
        (s.discovery.handle_pmtu t rto draw).2.current_fragment_size.toNat ≤ M := by
  have hcap := hmax.trans (min_le_right _ _)
  have hstart : Brackets config M (start config time) :=
    ⟨rfl, hmin, hmax.trans (min_le_left _ _), recorded_of_idle rfl⟩
  have hs := h.invariant hstart fun t a u ht hstep => ht.step hcap hstep
  refine ⟨⟨hs.low, hs.high⟩, fun t rto draw hconv => ?_⟩
  have hclamp := hs.clamp_high hcap
  have hlow := hs.low
  have hclose : (saturating_sub16 s.discovery.clamp_high.high s.discovery.clamp_high.low).toNat ≤
      s.discovery.config.pmtu_converge_threshold.toNat := hconv.close
  rw [saturating_sub16_toNat, clamp_high_low, hs.config] at hclose
  rw [hconv.handle_pmtu, current_fragment_size]
  change M ≤ s.discovery.clamp_high.low.toNat + _ ∧ s.discovery.clamp_high.low.toNat ≤ M
  rw [clamp_high_low]
  rw [low_bound] at hlow
  omega

/-- The first call after ten seconds. -/
def first_probe : PmtuCall := .handle_pmtu 10000000000 0 ⟨7, fun _ => 0⟩

/-- On a path with MTU 1000 the first probe of 988 bytes is answered. -/
theorem search_correct_answered : ∃ s, Run (step 1000) (start Config.default 0)
    [(start Config.default 0, first_probe),
      ((start Config.default 0).call first_probe, .process_reply 988 7 10000000001)] s ∧
    s.discovery.low_bound = 988 ∧ s.discovery.low_bound.toNat ≤ 1000 ∧ 1000 ≤ s.discovery.high_bound.toNat := by
  have hidle : (start Config.default 0).Answers 1000 first_probe := by
    rintro ⟨probe, hprobe, -⟩
    cases hprobe
  have hechoes : ((start Config.default 0).call first_probe).Answers 1000 (.process_reply 988 7 10000000001) :=
    fun _ => by decide +kernel
  have hrun : Run (step 1000) (start Config.default 0) _ _ := .next (.next .start ⟨rfl, hidle⟩) ⟨rfl, hechoes⟩
  have hcorrect := (search_correct Config.default 0 1000 (by decide) (by decide) hrun).1
  exact ⟨_, hrun, by decide +kernel, hcorrect.1, hcorrect.2⟩

/-! ## Every resolved probe narrows the search -/

/-- This call resolves the outstanding probe. -/
def resolves (s : Search) (c : PmtuCall) : Bool :=
  s.discovery.outstanding.isSome && (s.call c).discovery.outstanding.isNone

/-- A reply with the token of the outstanding probe has its size too. -/
def Echoes (s : Search) : PmtuCall → Prop
  | .handle_pmtu .. => True
  | .process_reply size token _ => s.discovery.Awaits token → s.probes.head? = some (size, token)

/-- A step of a run in which probes time out or are answered with their own
size. -/
def echo_step (s : Search) (c : PmtuCall) (s' : Search) : Prop := s' = s.call c ∧ s.Echoes c

/-- The width of the interval searched. -/
def width (s : Search) : Int := s.discovery.high_bound.toNat - s.discovery.low_bound.toNat

/-- Every resolved probe makes the interval narrower, and when as many are
resolved as it was wide at first, there is no further probe. -/
def MakesProgress (config : Config) : Prop :=
  ∀ time steps s, Run echo_step (start config time) steps s →
    (∀ c, s.Echoes c → s.resolves c = true → (s.call c).width < s.width) ∧
    (config.pmtu_max.toNat - config.pmtu_min.toNat ≤ steps.countP (fun x => x.1.resolves x.2) →
      ∀ t rto draw, (s.discovery.handle_pmtu t rto draw).1 = none)

/-- The search does not stop before its interval has width 0, and has more than
that to search. -/
structure Stalls (config : Config) : Prop where
  on : config.use_pmtu_discovery = true
  threshold : config.pmtu_converge_threshold = 0
  wide : config.pmtu_min.toNat < min config.pmtu_max.toNat (min config.receive_buffer_max_size 65535)

/-- What a search that does not stall keeps: the outstanding probe is strictly
between the bounds or at the high one, and each resolved probe has taken its
part of the width. -/
structure Narrows (config : Config) (resolved : Nat) (s : Search) : Prop where
  configured : s.discovery.config = config
  low : config.pmtu_min.toNat ≤ s.discovery.low.toNat
  high : s.discovery.high.toNat ≤ config.pmtu_max.toNat
  recorded : s.Recorded
  between : ∀ size token sent, s.discovery.outstanding = some (size, token, sent) →
    s.discovery.low.toNat < size.toNat ∧ size.toNat ≤ s.discovery.high.toNat
  spent : s.width + resolved ≤ config.pmtu_max.toNat - config.pmtu_min.toNat

theorem narrows_start (config : Config) (time : Instant) : Narrows config 0 (start config time) where
  configured := rfl
  low := le_rfl
  high := le_rfl
  recorded := recorded_of_idle rfl
  between := by
    intro size token sent h
    cases h
  spent := by simp [width, start, PmtuDiscovery.new, low_bound, high_bound]

/-- A probe is above the low bound, unless the search stalls. -/
theorem Narrows.middle (h : Narrows config n s) (hgoes : ¬ Stalls config)
    (hon : s.discovery.config.use_pmtu_discovery = true)
    (hwide : s.discovery.low.toNat + s.discovery.config.pmtu_converge_threshold.toNat <
      s.discovery.clamp_high.high.toNat) :
    s.discovery.low.toNat < s.discovery.clamp_high.middle.toNat ∧
      s.discovery.clamp_high.middle.toNat ≤ s.discovery.clamp_high.high.toNat := by
  have hlow := h.low
  have hhigh := h.high
  have hclamp := s.discovery.clamp_high_high
  rw [h.configured] at hon hwide hclamp
  rw [middle_toNat, clamp_high_low]
  have hthreshold : config.pmtu_converge_threshold.toNat ≠ 0 := by
    intro hzero
    refine hgoes ⟨hon, UInt16.toNat_inj.1 hzero, ?_⟩
    omega
  omega

/-- A search whose bounds move towards each other. -/
theorem Narrows.narrower {s' : Search} {k : Nat} (h : Narrows config n s)
    (hconfig : s'.discovery.config = s.discovery.config) (hrecorded : s'.Recorded)
    (hlow : s.discovery.low.toNat ≤ s'.discovery.low.toNat) (hhigh : s'.discovery.high.toNat ≤ s.discovery.high.toNat)
    (hbetween : ∀ size token sent, s'.discovery.outstanding = some (size, token, sent) →
      s'.discovery.low.toNat < size.toNat ∧ size.toNat ≤ s'.discovery.high.toNat)
    (hspent : s'.discovery.high.toNat + s.discovery.low.toNat + k ≤ s.discovery.high.toNat + s'.discovery.low.toNat) :
    Narrows config (n + k) s' ∧ s'.width + k ≤ s.width := by
  have h' := h.spent
  unfold width low_bound high_bound at h' ⊢
  refine ⟨⟨hconfig.trans h.configured, h.low.trans hlow, hhigh.trans h.high, hrecorded, hbetween, ?_⟩, by omega⟩
  unfold width low_bound high_bound
  omega

/-- A call takes one from the width, if it resolves a probe. -/
theorem Narrows.call (h : Narrows config n s) (hgoes : ¬ Stalls config) {c : PmtuCall} (hechoes : s.Echoes c) :
    Narrows config (n + (s.resolves c).toNat) (s.call c) ∧ (s.call c).width + (s.resolves c).toNat ≤ s.width := by
  have hrecorded := h.recorded.call c
  have hmoves := s.moves c
  unfold resolves
  generalize s.call c = s' at hmoves hrecorded ⊢
  have hclamp : s.discovery.clamp_high.high.toNat ≤ s.discovery.high.toNat :=
    (clamp_high_high _).trans_le (min_le_left _ _)
  have hlow : s.discovery.low.toNat = s.discovery.clamp_high.low.toNat := by rw [clamp_high_low]
  have hnarrow : s.discovery.clamp_high.high.toNat + s.discovery.low.toNat + 0 ≤
      s.discovery.high.toNat + s.discovery.clamp_high.low.toNat := by omega
  cases hmoves with
  | stays =>
    have hstays : (s.discovery.outstanding.isSome && s.discovery.outstanding.isNone) = false := by
      cases s.discovery.outstanding <;> rfl
    rw [hstays]
    exact ⟨h, by simp⟩
  | @gives_up time _ _ size _ _ hout hlate =>
    obtain ⟨hlt, hle⟩ := h.between _ _ _ hout
    have hhigh := gives_up_high s.discovery size time
    rw [if_pos (by omega)] at hhigh
    rw [hout]
    refine h.narrower rfl hrecorded le_rfl ?_ (by rintro _ _ _ ⟨⟩) ?_
    · exact hhigh.trans_le (min_le_left _ _)
    · change (s.discovery.gives_up size time).high.toNat + _ + 1 ≤ _ + s.discovery.low.toNat
      omega
  | converged hconv =>
    rw [hconv.idle]
    refine h.narrower (clamp_high_config _) hrecorded hlow.le hclamp ?_ hnarrow
    intro size token sent hout
    cases hout.symm.trans ((clamp_high_outstanding _).trans hconv.idle)
  | early hidle =>
    rw [hidle]
    refine h.narrower (clamp_high_config _) hrecorded hlow.le hclamp ?_ hnarrow
    intro size token sent hout
    cases hout.symm.trans ((clamp_high_outstanding _).trans hidle)
  | probes hon hidle hwide =>
    rw [hidle]
    refine h.narrower (clamp_high_config _) hrecorded hlow.le hclamp ?_ hnarrow
    intro size token sent hout
    cases hout
    exact hlow ▸ h.middle hgoes hon hwide
  | @raises size token time hawaits =>
    obtain ⟨mid, sent, hout⟩ := hawaits
    -- the reply has the size of the probe, which is above the low bound
    have hsize : size = mid := by
      have hhead := (hechoes ⟨mid, sent, hout⟩).symm.trans (h.recorded _ _ _ hout)
      cases hhead
      rfl
    obtain ⟨hlt, hle⟩ := h.between _ _ _ hout
    have hnew : (s.discovery.raises size time).low.toNat = max s.discovery.low.toNat mid.toNat := by
      rw [← hsize]
      exact max16_toNat _ _
    rw [hout]
    refine h.narrower rfl hrecorded (hnew ▸ le_max_left _ _) le_rfl (by rintro _ _ _ ⟨⟩) ?_
    change s.discovery.high.toNat + _ + 1 ≤ _ + (s.discovery.raises size time).low.toNat
    omega

theorem narrows_run (hgoes : ¬ Stalls config) {time : Instant} {steps : List (Search × PmtuCall)}
    (h : Run echo_step (start config time) steps s) :
    Narrows config (steps.countP fun x => x.1.resolves x.2) s := by
  induction h with
  | start => exact narrows_start config time
  | @next steps t c u _ hstep ih =>
    obtain ⟨rfl, hechoes⟩ := hstep
    have hcall := (ih.call hgoes hechoes).1
    rw [List.countP_append, List.countP_singleton]
    cases hr : t.resolves c with
    | false => simpa [hr] using hcall
    | true => simpa [hr] using hcall

/-- A search with nothing left between its bounds sends no probe. -/
theorem no_probe_of_width (h : s.width ≤ 0) (t : Instant) (rto : Duration) (draw : ProbeDraw) :
    (s.discovery.handle_pmtu t rto draw).1 = none := by
  have hclamp := s.discovery.clamp_high_high
  rw [width, high_bound, low_bound] at h
  have hturns := turns s.discovery t rto draw
  generalize s.discovery.handle_pmtu t rto draw = r at hturns ⊢
  cases hturns with
  | probes _ _ hwide => omega
  | _ => rfl

/-- A probe and its answer, which raises the low bound to the middle. -/
theorem exists_answered (hon : s.discovery.config.use_pmtu_discovery = true) (hidle : s.discovery.outstanding = none)
    (hwide : s.discovery.low.toNat + s.discovery.config.pmtu_converge_threshold.toNat <
      s.discovery.clamp_high.high.toNat) :
    ∃ probe s₁ reply, echo_step s probe s₁ ∧ s₁.Echoes reply ∧
      s₁.discovery.outstanding.isSome = true ∧ s₁.discovery.low = s.discovery.low ∧
      s₁.discovery.high = s.discovery.clamp_high.high ∧
      s₁.call reply = ⟨s₁.discovery.raises s.discovery.clamp_high.middle s₁.discovery.last_probe, s₁.probes⟩ ∧
      s₁.discovery.config = s.discovery.config := by
  obtain ⟨t, htime⟩ : ∃ t, from_millis s.discovery.config.pmtu_interval_ms.toNat ≤ t - s.discovery.last_probe :=
    ⟨s.discovery.last_probe + _, (Nat.add_sub_cancel_left ..).ge⟩
  obtain ⟨payload, hprobe⟩ := handle_pmtu_probes hon hidle hwide htime 0 ⟨0, fun _ => 0⟩
  refine ⟨.handle_pmtu t 0 ⟨0, fun _ => 0⟩,
    ⟨s.discovery.clamp_high.probing 0 t, (s.discovery.clamp_high.middle, 0) :: s.probes⟩,
    .process_reply s.discovery.clamp_high.middle 0 t, ⟨?_, trivial⟩, fun _ => rfl, rfl, clamp_high_low _, rfl, ?_,
    clamp_high_config _⟩
  · rw [call, hprobe]
    rfl
  · rw [call]
    rcases process_reply_cases (s.discovery.clamp_high.probing 0 t) s.discovery.clamp_high.middle 0 t with
      ⟨-, he⟩ | ⟨hnot, -⟩
    · rw [he]
      rfl
    · exact absurd ⟨_, _, rfl⟩ hnot

/-- The answer to a probe at the low bound changes no bound. -/
theorem exists_stall (hstalls : Stalls config) (hconfig : s.discovery.config = config)
    (hidle : s.discovery.outstanding = none) (hwide : s.discovery.low.toNat < s.discovery.clamp_high.high.toNat) :
    ∃ steps u c, Run echo_step s steps u ∧ u.Echoes c ∧ u.resolves c = true ∧ ¬ (u.call c).width < u.width := by
  -- on the width of the interval, which a reply to each probe halves
  induction hw : s.discovery.clamp_high.high.toNat - s.discovery.low.toNat using Nat.strong_induction_on
    generalizing s with
  | _ w ih =>
    have hthreshold : s.discovery.config.pmtu_converge_threshold.toNat = 0 := by
      rw [hconfig, hstalls.threshold]
      rfl
    obtain ⟨probe, s₁, reply, hstep, hechoes, hout, hlow, hhigh, hreply, hconfig₁⟩ :=
      exists_answered (hconfig ▸ hstalls.on) hidle (by omega)
    have hmiddle := s.discovery.clamp_high.middle_toNat
    rw [clamp_high_low] at hmiddle
    have hraised : (s₁.call reply).discovery.low.toNat =
        max s.discovery.low.toNat s.discovery.clamp_high.middle.toNat := by
      rw [hreply, ← hlow]
      exact max16_toNat _ _
    have hkept : (s₁.call reply).discovery.high = s.discovery.clamp_high.high := by
      rw [hreply]
      exact hhigh
    have hidle₁ : (s₁.call reply).discovery.outstanding = none := by
      rw [hreply]
      rfl
    by_cases hnarrow : s.discovery.low.toNat + 1 = s.discovery.clamp_high.high.toNat
    · refine ⟨_, s₁, reply, Run.next .start hstep, hechoes, ?_, ?_⟩
      · rw [resolves, hout, hidle₁]
        rfl
      · unfold width low_bound high_bound
        rw [hraised, hkept, hhigh, hlow]
        omega
    · have hclamp : (s₁.call reply).discovery.clamp_high.high.toNat = s.discovery.clamp_high.high.toNat := by
        have hle := s.discovery.clamp_high_high
        rw [clamp_high_high, hkept, hreply]
        change min _ (min s₁.discovery.config.receive_buffer_max_size 65535) = _
        rw [hconfig₁]
        omega
      have hconfig' : (s₁.call reply).discovery.config = config := by
        rw [hreply]
        exact hconfig₁.trans hconfig
      obtain ⟨steps, u, c, hrun, hrest⟩ := ih _ (by omega) hconfig' hidle₁ (by omega) rfl
      exact ⟨_, u, c, (hrun.cons ⟨rfl, hechoes⟩).cons hstep, hrest⟩

theorem makes_progress_iff (config : Config) (h : config.pmtu_min ≤ config.pmtu_max) :
    MakesProgress config ↔ ¬ Stalls config := by
  constructor
  · intro hprogress hstalls
    have hwide := hstalls.wide
    obtain ⟨steps, u, c, hrun, hechoes, hresolves, hstuck⟩ :=
      exists_stall (s := start config 0) hstalls rfl rfl (by rw [clamp_high_high]; exact hwide)
    exact hstuck ((hprogress 0 steps u hrun).1 c hechoes hresolves)
  · intro hgoes time steps s hrun
    have hs := narrows_run hgoes hrun
    constructor
    · intro c hechoes hresolves
      have hcall := (hs.call hgoes hechoes).2
      rw [hresolves] at hcall
      exact Int.lt_of_add_one_le hcall
    · intro hcount
      have hle : config.pmtu_min.toNat ≤ config.pmtu_max.toNat := h
      have hspent := hs.spent
      exact no_probe_of_width (by omega)

/-- The default threshold is not 0. -/
theorem makes_progress_default : MakesProgress Config.default := by
  apply (makes_progress_iff Config.default (by decide)).2
  intro h
  cases h.threshold

/-- Two sizes to choose from, and no threshold. -/
def two_sizes : Config :=
  { Config.default with pmtu_min := 576, pmtu_max := 577, pmtu_converge_threshold := 0 }

/-- The probe has the low size, and its answer leaves both bounds where they are. -/
theorem two_sizes_stall : two_sizes.pmtu_min ≤ two_sizes.pmtu_max ∧ ¬ MakesProgress two_sizes := by
  refine ⟨by decide, fun h => ?_⟩
  have hechoes : (start two_sizes 0).Echoes first_probe := trivial
  have hrun : Run echo_step (start two_sizes 0) _ _ := .next .start ⟨rfl, hechoes⟩
  have hnarrower := (h 0 _ _ hrun).1 (.process_reply 576 7 10000000001) (fun _ => by decide +kernel) (by decide +kernel)
  revert hnarrower
  decide +kernel

end Search

end Bitfold
