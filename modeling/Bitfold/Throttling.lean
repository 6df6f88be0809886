import Bitfold.Acknowledgment
import Bitfold.Clamping
/-!
# The advanced throttle

`update_advanced_throttle` moves the throttle up by an acceleration and down by
a deceleration, both of which the remote peer may set. It is always between 0
and its scale. The step down is guarded; the step up is not, and with an
acceleration near the end of a `u32` it stops a build with overflow checks.
-/

namespace Bitfold

open Lib

namespace CongestionControl

/-- The throttle after an update, given whether the loss rate is above 1% and
whether it is below 0.5%. -/
def checked_packet_throttle (self : CongestionControl) (high_loss low_loss : Bool) : Outcome UInt32 :=
  if high_loss = true then
    if self.packet_throttle > self.throttle_deceleration then
      checked_sub self.packet_throttle self.throttle_deceleration
    else .ok 0
  else if low_loss = true ∧ self.packet_throttle < self.throttle_scale then do
    let raised ← checked_add self.packet_throttle self.throttle_acceleration
    return min raised self.throttle_scale
  else .ok self.packet_throttle

def checked_update_advanced_throttle (self : CongestionControl) (high_loss low_loss : Bool) :
    Outcome CongestionControl := do
  let packet_throttle ← self.checked_packet_throttle high_loss low_loss
  return { self with
    packet_throttle
    throttle := 1.0 - Float32.ofNat packet_throttle.toNat / Float32.ofNat self.throttle_scale.toNat }

def checked_update_throttle (self : CongestionControl) (high_loss low_loss : Bool) (now : Instant) :
    Outcome (Bool × CongestionControl) :=
  if now - self.last_throttle_update < self.throttle_interval then .ok (false, self)
  else do
    let self ←
      if self.use_advanced_throttling then self.checked_update_advanced_throttle high_loss low_loss
      else .ok (self.update_simple_throttle self.loss_rate)
    return (true, { self with packets_lost := 0, packets_sent := 0, last_throttle_update := now })

/-- Where it does not stop it does what the build without the checks does. -/
theorem update_advanced_throttle_of_checked {self next : CongestionControl} {loss_rate : Float32}
    (h : self.checked_update_advanced_throttle (decide (loss_rate > 0.01)) (decide (loss_rate < 0.005)) = .ok next) :
    self.update_advanced_throttle loss_rate = next := by
  unfold checked_update_advanced_throttle checked_packet_throttle checked_sub checked_add at h
  unfold update_advanced_throttle
  simp only [decide_eq_true_eq] at h
  by_cases hhigh : loss_rate > 0.01
  · rw [if_pos hhigh] at h ⊢
    by_cases hgt : self.packet_throttle > self.throttle_deceleration
    · rw [if_pos hgt] at h ⊢
      exact Except.ok.inj (checked_bind_eq_ok.1 h).2
    · rw [if_neg hgt] at h ⊢
      exact Except.ok.inj h
  · rw [if_neg hhigh] at h ⊢
    by_cases hlow : loss_rate < 0.005 ∧ self.packet_throttle < self.throttle_scale
    · rw [if_pos hlow, bind_assoc] at h
      rw [if_pos hlow]
      exact Except.ok.inj (checked_bind_eq_ok.1 h).2
    · rw [if_neg hlow] at h ⊢
      exact Except.ok.inj h

theorem update_throttle_of_checked {self : CongestionControl} {now : Instant} {r : Bool × CongestionControl}
    (h : self.checked_update_throttle (decide (self.loss_rate > 0.01)) (decide (self.loss_rate < 0.005)) now = .ok r) :
    self.update_throttle now = r := by
  unfold checked_update_throttle at h
  unfold update_throttle
  split at h
  · rename_i hearly
    rw [if_pos hearly]
    exact Except.ok.inj h
  · rename_i hearly
    rw [if_neg hearly]
    cases hadvanced : self.use_advanced_throttling with
    | false =>
      rw [hadvanced] at h
      exact Except.ok.inj h
    | true =>
      rw [hadvanced, if_pos rfl] at h
      cases hnext : self.checked_update_advanced_throttle (decide (self.loss_rate > 0.01))
          (decide (self.loss_rate < 0.005)) with
      | error e =>
        rw [hnext] at h
        cases h
      | ok next =>
        rw [hnext] at h
        dsimp only
        rw [if_pos rfl, update_advanced_throttle_of_checked hnext]
        exact Except.ok.inj h

/-! ## Runs -/

/-- A call of a method of `CongestionControl`. -/
inductive ThrottleCall where
  | enable_advanced_throttling (scale acceleration deceleration interval_ms : UInt32)
  | configure_throttle (interval_ms acceleration deceleration : UInt32)
  | record_sent
  | record_loss
  | update_throttle (high_loss low_loss : Bool) (now : Instant)
deriving DecidableEq, Repr

def call (self : CongestionControl) : ThrottleCall → Outcome CongestionControl
  | .enable_advanced_throttling scale acceleration deceleration interval_ms =>
    .ok (self.enable_advanced_throttling scale acceleration deceleration interval_ms)
  | .configure_throttle interval_ms acceleration deceleration =>
    .ok (self.configure_throttle interval_ms acceleration deceleration)
  | .record_sent => .ok self.record_sent
  | .record_loss => .ok self.record_loss
  | .update_throttle high_loss low_loss now => do
    let (_, self) ← self.checked_update_throttle high_loss low_loss now
    return self

/-- The throttle is at most its scale. -/
def InRange (s : CongestionControl) : Prop := s.packet_throttle ≤ s.throttle_scale

/-- The calls are made one after the other, none of them stops, and the throttle
is in range before and after each. -/
def StaysInRange (s : CongestionControl) (calls : List ThrottleCall) : Prop :=
  (∀ x ∈ loop_rounds call s calls, x.1.InRange) ∧ ∃ s', calls.foldlM call s = .ok s' ∧ s'.InRange

/-- The throttle is raised past what a `u32` holds. -/
structure Overshoots (s : CongestionControl) (high_loss low_loss : Bool) : Prop where
  recovering : high_loss = false ∧ low_loss = true
  throttled : s.packet_throttle < s.throttle_scale
  large : 2 ^ 32 ≤ s.packet_throttle.toNat + s.throttle_acceleration.toNat

/-- An update is due that does so. -/
def Overruns (s : CongestionControl) : ThrottleCall → Prop
  | .update_throttle high_loss low_loss now =>
    s.throttle_interval ≤ now - s.last_throttle_update ∧ s.use_advanced_throttling = true ∧
      s.Overshoots high_loss low_loss
  | _ => False

variable {s s' : CongestionControl}

/-- An update leaves the throttle in range, and it stops only where the sum is
too large. -/
theorem checked_packet_throttle_cases (hs : s.InRange) (high_loss low_loss : Bool) :
    (∃ z, s.checked_packet_throttle high_loss low_loss = .ok z ∧ z ≤ s.throttle_scale ∧
      ¬ s.Overshoots high_loss low_loss) ∨
    (∃ e, s.checked_packet_throttle high_loss low_loss = .error e) ∧ s.Overshoots high_loss low_loss := by
  have hrange : s.packet_throttle.toNat ≤ s.throttle_scale.toNat := hs
  unfold checked_packet_throttle
  cases high_loss with
  | true =>
    have hnot : ¬ s.Overshoots true low_loss := fun h => by cases h.recovering.1
    left
    by_cases hgt : s.packet_throttle > s.throttle_deceleration
    · have hle : s.throttle_deceleration ≤ s.packet_throttle := UInt32.le_of_lt hgt
      refine ⟨s.packet_throttle - s.throttle_deceleration, ?_, ?_, hnot⟩
      · rw [if_pos rfl, if_pos hgt, checked_sub, checked, if_pos hle]
      · rw [UInt32.le_iff_toNat_le, UInt32.toNat_sub_of_le _ _ hle]
        omega
    · refine ⟨0, ?_, ?_, hnot⟩
      · rw [if_pos rfl, if_neg hgt]
      · exact UInt32.le_iff_toNat_le.2 (Nat.zero_le _)
  | false =>
    by_cases hup : low_loss = true ∧ s.packet_throttle < s.throttle_scale
    · by_cases hfits : s.packet_throttle.toNat + s.throttle_acceleration.toNat < 2 ^ 32
      · left
        refine ⟨min (s.packet_throttle + s.throttle_acceleration) s.throttle_scale, ?_, ?_, ?_⟩
        · rw [if_neg (by decide), if_pos hup, checked_add, checked_bind_eq_ok]
          exact ⟨hfits, rfl⟩
        · rw [UInt32.le_iff_toNat_le, min32_toNat]
          omega
        · intro h
          exact absurd hfits (Nat.not_lt.2 h.large)
      · right
        refine ⟨?_, ⟨rfl, hup.1⟩, hup.2, Nat.not_lt.1 hfits⟩
        rw [if_neg (by decide), if_pos hup, checked_add, checked, if_neg hfits]
        exact ⟨_, rfl⟩
    · left
      refine ⟨s.packet_throttle, ?_, hs, ?_⟩
      · rw [if_neg (by decide), if_neg hup]
      · intro h
        exact hup ⟨h.recovering.2, h.throttled⟩

theorem update_simple_throttle_writes (s : CongestionControl) (loss_rate : Float32) :
    ∃ throttle, s.update_simple_throttle loss_rate = { s with throttle } := by
  unfold update_simple_throttle
  split
  · exact ⟨_, rfl⟩
  · split
    · exact ⟨_, rfl⟩
    · exact ⟨s.throttle, rfl⟩

/-- What is configured. -/
structure SameSettings (s s' : CongestionControl) : Prop where
  advanced : s'.use_advanced_throttling = s.use_advanced_throttling
  scale : s'.throttle_scale = s.throttle_scale
  acceleration : s'.throttle_acceleration = s.throttle_acceleration

/-- An update changes no setting and keeps the throttle in range, unless it
stops. -/
theorem update_throttle_cases (hs : s.InRange) (high_loss low_loss : Bool) (now : Instant) :
    (∃ s', s.call (.update_throttle high_loss low_loss now) = .ok s' ∧ s'.InRange ∧ SameSettings s s' ∧
      ¬ s.Overruns (.update_throttle high_loss low_loss now)) ∨
    (∃ e, s.call (.update_throttle high_loss low_loss now) = .error e) ∧
      s.Overruns (.update_throttle high_loss low_loss now) := by
  simp only [call, checked_update_throttle]
  by_cases hearly : now - s.last_throttle_update < s.throttle_interval
  · rw [if_pos hearly]
    exact .inl ⟨s, rfl, hs, ⟨rfl, rfl, rfl⟩, fun h => absurd h.1 (Nat.not_le.2 hearly)⟩
  · rw [if_neg hearly]
    cases hadvanced : s.use_advanced_throttling with
    | false =>
      obtain ⟨throttle, hw⟩ := s.update_simple_throttle_writes s.loss_rate
      rw [if_neg (by decide), hw]
      exact .inl ⟨_, rfl, hs, ⟨hadvanced.symm ▸ rfl, rfl, rfl⟩, fun h => by cases hadvanced.symm.trans h.2.1⟩
    | true =>
      rw [if_pos rfl, checked_update_advanced_throttle]
      rcases checked_packet_throttle_cases hs high_loss low_loss with ⟨z, hz, hle, hnot⟩ | ⟨⟨e, he⟩, hover⟩
      · rw [hz]
        exact .inl ⟨_, rfl, hle, ⟨hadvanced.symm ▸ rfl, rfl, rfl⟩, fun h => hnot h.2.2⟩
      · rw [he]
        exact .inr ⟨⟨e, rfl⟩, Nat.not_lt.1 hearly, hadvanced, hover⟩

/-- A call keeps the throttle in range, or it is an update that stops. -/
theorem call_cases (hs : s.InRange) (c : ThrottleCall) :
    (∃ s', s.call c = .ok s' ∧ s'.InRange ∧ ¬ s.Overruns c) ∨ (∃ e, s.call c = .error e) ∧ s.Overruns c := by
  cases c with
  | enable_advanced_throttling scale acceleration deceleration interval_ms =>
    exact .inl ⟨_, rfl, UInt32.le_refl scale, id⟩
  | configure_throttle interval_ms acceleration deceleration => exact .inl ⟨_, rfl, hs, id⟩
  | record_sent => exact .inl ⟨_, rfl, hs, id⟩
  | record_loss => exact .inl ⟨_, rfl, hs, id⟩
  | update_throttle high_loss low_loss now =>
    rcases update_throttle_cases hs high_loss low_loss now with ⟨s', hok, hs', -, hnot⟩ | hstops
    · exact .inl ⟨s', hok, hs', hnot⟩
    · exact .inr hstops

theorem call_inRange (hs : s.InRange) {c : ThrottleCall} (h : s.call c = .ok s') : s'.InRange := by
  rcases call_cases hs c with ⟨t, hok, ht, -⟩ | ⟨⟨e, he⟩, -⟩
  · rw [hok] at h
    cases h
    exact ht
  · rw [he] at h
    cases h

theorem call_ok_iff (hs : s.InRange) {c : ThrottleCall} : (∃ s', s.call c = .ok s') ↔ ¬ s.Overruns c := by
  rcases call_cases hs c with ⟨t, hok, -, hnot⟩ | ⟨⟨e, he⟩, hover⟩
  · exact ⟨fun _ => hnot, fun _ => ⟨t, hok⟩⟩
  · constructor
    · rintro ⟨t, ht⟩
      rw [he] at ht
      cases ht
    · exact fun h => absurd hover h

/-- A run stays in range exactly if none of its updates overruns. -/
theorem stays_in_range_iff_rounds (hs : s.InRange) {calls : List ThrottleCall} :
    s.StaysInRange calls ↔ ∀ x ∈ loop_rounds call s calls, ¬ x.1.Overruns x.2 := by
  have hrounds : ∀ x ∈ loop_rounds call s calls, x.1.InRange :=
    loop_rounds_invariant (fun _ _ _ ht h => call_inRange ht h) hs
  have hok : (∃ s', calls.foldlM call s = .ok s') ↔ ∀ x ∈ loop_rounds call s calls, ¬ x.1.Overruns x.2 := by
    rw [foldlM_ok_iff]
    constructor
    · intro h x hx
      exact (call_ok_iff (hrounds x hx)).1 (h x hx)
    · intro h x hx
      exact (call_ok_iff (hrounds x hx)).2 (h x hx)
  rw [← hok]
  constructor
  · rintro ⟨-, s', hs', -⟩
    exact ⟨s', hs'⟩
  · rintro ⟨s', hs'⟩
    exact ⟨hrounds, s', hs', foldlM_invariant (fun _ _ _ ht h => call_inRange ht h) hs' hs⟩

/-! ## In terms of what is configured -/

/-- The call configures no larger scale and no larger acceleration. -/
def ThrottleCall.Within (scale acceleration : UInt32) : ThrottleCall → Prop
  | .enable_advanced_throttling scale' acceleration' _ _ => scale' ≤ scale ∧ acceleration' ≤ acceleration
  | .configure_throttle _ acceleration' _ => acceleration' ≤ acceleration
  | _ => True

/-- No larger ones are in force. -/
def Settled (scale acceleration : UInt32) (s : CongestionControl) : Prop :=
  s.use_advanced_throttling = true → s.throttle_scale ≤ scale ∧ s.throttle_acceleration ≤ acceleration

variable {scale acceleration : UInt32}

theorem Settled.call (h : s.Settled scale acceleration) (hs : s.InRange) {c : ThrottleCall}
    (hc : c.Within scale acceleration) (hok : s.call c = .ok s') : s'.Settled scale acceleration := by
  cases c with
  | enable_advanced_throttling scale' acceleration' deceleration interval_ms =>
    cases hok
    exact fun _ => hc
  | configure_throttle interval_ms acceleration' deceleration =>
    cases hok
    exact fun hadvanced => ⟨(h hadvanced).1, hc⟩
  | record_sent =>
    cases hok
    exact h
  | record_loss =>
    cases hok
    exact h
  | update_throttle high_loss low_loss now =>
    rcases update_throttle_cases hs high_loss low_loss now with ⟨t, ht, -, hsame, -⟩ | ⟨⟨e, he⟩, -⟩
    · rw [ht] at hok
      cases hok
      intro hadvanced
      rw [hsame.scale, hsame.acceleration]
      exact h (hsame.advanced ▸ hadvanced)
    · rw [he] at hok
      cases hok

/-- With small enough a scale and acceleration no update overruns. -/
theorem Settled.not_overruns (h : s.Settled scale acceleration) (hsum : scale.toNat + acceleration.toNat ≤ 2 ^ 32)
    (c : ThrottleCall) : ¬ s.Overruns c := by
  cases c with
  | update_throttle high_loss low_loss now =>
    rintro ⟨-, hadvanced, hover⟩
    obtain ⟨hscale, hacceleration⟩ := h hadvanced
    have hlt : s.packet_throttle.toNat < s.throttle_scale.toNat := hover.throttled
    have hle : s.throttle_scale.toNat ≤ scale.toNat := hscale
    have hle' : s.throttle_acceleration.toNat ≤ acceleration.toNat := hacceleration
    have hlarge := hover.large
    omega
  | _ => exact id

theorem Settled.rounds (hsum : scale.toNat + acceleration.toNat ≤ 2 ^ 32) {calls : List ThrottleCall}
    (hcalls : ∀ c ∈ calls, c.Within scale acceleration) (hs : s.InRange) (h : s.Settled scale acceleration) :
    ∀ x ∈ loop_rounds CongestionControl.call s calls, ¬ x.1.Overruns x.2 := by
  induction calls generalizing s with
  | nil =>
    intro x hx
    cases hx
  | cons c calls ih =>
    intro x hx
    rw [loop_rounds] at hx
    rcases List.mem_cons.1 hx with rfl | hx
    · exact h.not_overruns hsum c
    · cases hok : s.call c with
      | error e =>
        rw [hok] at hx
        cases hx
      | ok t =>
        rw [hok] at hx
        have hc : c.Within scale acceleration := hcalls c List.mem_cons_self
        exact ih (fun c' hc' => hcalls c' (List.mem_cons_of_mem c hc')) (call_inRange hs hok) (h.call hs hc hok) x hx

/-- Three calls that drive the throttle just below its scale and then configure
the acceleration, and the update that overruns. -/
def overrun (scale acceleration : UInt32) : List ThrottleCall :=
  [.enable_advanced_throttling scale 0 1 0, .update_throttle true false 0, .configure_throttle 0 acceleration 1,
    .update_throttle false true 0]

theorem overrun_stops (hscale : 1 < scale) (hlarge : 2 ^ 32 < scale.toNat + acceleration.toNat) (α β : Float32)
    (t : Instant) : ∃ e, (overrun scale acceleration).foldlM call (new α β t) = .error e := by
  have hle : 1 ≤ scale := UInt32.le_of_lt hscale
  have hbelow : (scale - 1).toNat = scale.toNat - 1 := UInt32.toNat_sub_of_le _ _ hle
  have hpos : 1 < scale.toNat := hscale
  have hlt : scale - 1 < scale := by
    rw [UInt32.lt_iff_toNat_lt, hbelow]
    omega
  have hbig : ¬ scale.toNat - 1 + acceleration.toNat < 4294967296 := by omega
  simp [overrun, List.foldlM_cons, call, enable_advanced_throttling, configure_throttle, checked_update_throttle,
    checked_update_advanced_throttle, checked_packet_throttle, checked_sub, checked_add, checked, from_millis, bind,
    Except.bind, pure, Except.pure, hscale, hle, hlt, hbig, panic]

theorem within_overrun : ∀ c ∈ overrun scale acceleration, c.Within scale acceleration := by
  intro c hc
  simp only [overrun, List.mem_cons, List.not_mem_nil, or_false] at hc
  rcases hc with rfl | rfl | rfl | rfl
  · exact ⟨UInt32.le_refl scale, UInt32.le_iff_toNat_le.2 (Nat.zero_le _)⟩
  · trivial
  · exact UInt32.le_refl acceleration
  · trivial

/-- A run stays in range exactly if none of its updates overruns; and all runs
with such a scale and acceleration do exactly if the two together are at most
`2 ^ 32`. -/
theorem stays_in_range_iff (α β : Float32) (t : Instant) :
    (∀ calls, (new α β t).StaysInRange calls ↔ ∀ x ∈ loop_rounds call (new α β t) calls, ¬ x.1.Overruns x.2) ∧
    ∀ scale acceleration : UInt32,
      (∀ calls, (∀ c ∈ calls, c.Within scale acceleration) → (new α β t).StaysInRange calls) ↔
        scale.toNat + acceleration.toNat ≤ 2 ^ 32 := by
  have hnew : (new α β t).InRange := UInt32.le_refl 32
  refine ⟨fun calls => stays_in_range_iff_rounds hnew, fun scale acceleration => ?_⟩
  constructor
  · intro h
    by_contra hlarge
    have hscale : 1 < scale := by
      have hlt := acceleration.toNat_lt
      rw [UInt32.lt_iff_toNat_lt]
      change 1 < scale.toNat
      omega
    obtain ⟨-, s', hs', -⟩ := h _ within_overrun
    obtain ⟨e, he⟩ := overrun_stops hscale (Nat.not_le.1 hlarge) α β t
    rw [he] at hs'
    cases hs'
  · intro hsum calls hcalls
    have hsettled : (new α β t).Settled scale acceleration := fun hadvanced => by cases hadvanced
    exact (stays_in_range_iff_rounds hnew).2 (hsettled.rounds hsum hcalls hnew)

/-- The default scale, and an acceleration that the remote peer chose. -/
theorem remote_acceleration_overruns : ¬ (new 0.1 0.25 0).StaysInRange (overrun 32 0xFFFFFFFF) := by
  rintro ⟨-, s', hs', -⟩
  cases hs'

end CongestionControl

end Bitfold
