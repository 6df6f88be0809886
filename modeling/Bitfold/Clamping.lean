import Bitfold.Lib.Runs
import Bitfold.PeerParts
/-!
# Clamped when it is too late

The window of flow control is kept between its bounds by a `min` and a `max`
around a sum and a difference of `u32` values. The bounds are kept; but the sum
is taken first, and a build with overflow checks stops there if it does not fit.
The functions with such arithmetic are given here as that build runs them, and
the configurations are told in which none of them ever stops. What they make of
a loss rate is left open: its comparisons are arguments.
-/

namespace Bitfold

open Lib

/-! ## Arithmetic with overflow checks -/

/-- An operation that stops when its result does not fit. -/
def checked (fits : Prop) [Decidable fits] (z : UInt32) (message : String) : Outcome UInt32 :=
  if fits then .ok z else panic message

theorem checked_bind_eq_ok {α : Type} {fits : Prop} [Decidable fits] {z : UInt32} {message : String}
    {f : UInt32 → Outcome α} {r : α} : checked fits z message >>= f = .ok r ↔ fits ∧ f z = .ok r := by
  unfold checked
  split
  · rename_i h
    simp [h, bind, Except.bind]
  · rename_i h
    simp [h, panic, bind, Except.bind]

def checked_add (x y : UInt32) : Outcome UInt32 :=
  checked (x.toNat + y.toNat < 2 ^ 32) (x + y) "attempt to add with overflow"

def checked_sub (x y : UInt32) : Outcome UInt32 := checked (y ≤ x) (x - y) "attempt to subtract with overflow"

def checked_mul (x y : UInt32) : Outcome UInt32 :=
  checked (x.toNat * y.toNat < 2 ^ 32) (x * y) "attempt to multiply with overflow"

/-! ## The window of flow control -/

namespace FlowControl

/-- `adjust_window_size`, given whether the loss rate is below 1% and whether it
is above 5%. -/
def checked_adjust_window_size (self : FlowControl) (config : Config) (low_loss high_loss : Bool) (rtt_ms : UInt32) :
    Outcome FlowControl :=
  if !config.use_window_flow_control then .ok self
  else if low_loss = true ∧ rtt_ms < 200 then do
    let grown ← checked_add self.window_size (max (self.window_size / 32) 1)
    return { self with window_size := min grown config.max_window_size }
  else if high_loss = true ∨ rtt_ms > 500 then do
    let shrunk ← checked_sub self.window_size (max (self.window_size / 16) 1)
    return { self with window_size := max shrunk config.min_window_size }
  else .ok self

def checked_can_send_reliable (self : FlowControl) (config : Config) (packets_in_flight : UInt16) : Outcome Bool :=
  if !config.use_window_flow_control then .ok (decide (packets_in_flight < config.max_packets_in_flight))
  else do
    let approx_packet_size := config.fragment_size.toUInt32
    let window_bytes ← checked_mul self.window_size approx_packet_size
    return decide (self.reliable_data_in_transit < window_bytes)

/-- The window after a step up and after a step down. -/
def grown (config : Config) (w : UInt32) : UInt32 := min (w + max (w / 32) 1) config.max_window_size

def shrunk (config : Config) (w : UInt32) : UInt32 := max (w - max (w / 16) 1) config.min_window_size

/-- What the two checked functions come to where they do not stop. -/
theorem checked_adjust_window_size_ok {self next : FlowControl} {config : Config} {low_loss high_loss : Bool}
    {rtt_ms : UInt32} : self.checked_adjust_window_size config low_loss high_loss rtt_ms = .ok next ↔
      if !config.use_window_flow_control then self = next
      else if low_loss = true ∧ rtt_ms < 200 then
        self.window_size.toNat + (max (self.window_size / 32) 1).toNat < 2 ^ 32 ∧
          { self with window_size := grown config self.window_size } = next
      else if high_loss = true ∨ rtt_ms > 500 then
        max (self.window_size / 16) 1 ≤ self.window_size ∧
          { self with window_size := shrunk config self.window_size } = next
      else self = next := by
  unfold checked_adjust_window_size checked_add checked_sub
  split
  · simp
  · split
    · simp [checked_bind_eq_ok, grown, pure, Except.pure]
    · split
      · simp [checked_bind_eq_ok, shrunk, pure, Except.pure]
      · simp

theorem checked_can_send_reliable_ok {self : FlowControl} {config : Config} {packets_in_flight : UInt16} {r : Bool} :
    self.checked_can_send_reliable config packets_in_flight = .ok r ↔
      (config.use_window_flow_control = true →
        self.window_size.toNat * config.fragment_size.toUInt32.toNat < 2 ^ 32) ∧
      self.can_send_reliable config packets_in_flight = r := by
  unfold checked_can_send_reliable can_send_reliable checked_mul
  cases config.use_window_flow_control with
  | false => simp
  | true => simp [checked_bind_eq_ok, pure, Except.pure]

/-- Where it does not stop it does what the build without the checks does. -/
theorem adjust_window_size_of_checked {self next : FlowControl} {config : Config} {loss_rate : Float32} {rtt_ms : UInt32}
    (h : self.checked_adjust_window_size config (decide (loss_rate < 0.01)) (decide (loss_rate > 0.05)) rtt_ms =
      .ok next) : self.adjust_window_size config loss_rate rtt_ms = next := by
  rw [checked_adjust_window_size_ok] at h
  simp only [decide_eq_true_eq] at h
  unfold adjust_window_size
  split at h
  · rename_i hoff
    rw [if_pos hoff, h]
  · rename_i hon
    rw [if_neg hon]
    split at h
    · rename_i hgood
      rw [if_pos hgood, ← h.2, grown]
    · rename_i hgood
      rw [if_neg hgood]
      split at h
      · rename_i hpoor
        rw [if_pos hpoor, ← h.2, shrunk]
      · rename_i hpoor
        rw [if_neg hpoor, h]

/-! ### Runs -/

/-- A call of a method of `FlowControl`. -/
inductive FlowCall where
  | set_window_size (window_size : UInt32)
  | adjust_window_size (low_loss high_loss : Bool) (rtt_ms : UInt32)
  | record_reliable_data_sent (data_size : UInt32)
  | record_reliable_data_acked (data_size : UInt32)
  | can_send_reliable (packets_in_flight : UInt16)
deriving DecidableEq, Repr

def call (config : Config) (self : FlowControl) : FlowCall → Outcome FlowControl
  | .set_window_size window_size => self.set_window_size config window_size
  | .adjust_window_size low_loss high_loss rtt_ms => self.checked_adjust_window_size config low_loss high_loss rtt_ms
  | .record_reliable_data_sent data_size => .ok (self.record_reliable_data_sent data_size)
  | .record_reliable_data_acked data_size => .ok (self.record_reliable_data_acked data_size)
  | .can_send_reliable packets_in_flight => do
    let _ ← self.checked_can_send_reliable config packets_in_flight
    return self

/-- The window keeps to its bounds. -/
structure InBounds (config : Config) (s : FlowControl) : Prop where
  low : config.min_window_size ≤ s.window_size
  high : s.window_size ≤ config.max_window_size

/-- In every state that is reached the window keeps to its bounds, and no call
stops there. -/
def StaysInBounds (config : Config) : Prop :=
  ∀ steps s, Run (fun s c s' => s.call config c = .ok s') (FlowControl.new config) steps s →
    InBounds config s ∧ ∀ c, ∃ s', s.call config c = .ok s'

/-- Flow control is off, or its windows leave room for the arithmetic: a step up
from the largest and a step down from the smallest, and the largest in bytes. -/
def LeavesRoom (config : Config) : Prop :=
  config.use_window_flow_control = true →
    1 ≤ config.min_window_size.toNat ∧
    config.max_window_size.toNat + max (config.max_window_size.toNat / 32) 1 < 2 ^ 32 ∧
    config.max_window_size.toNat * config.fragment_size.toNat < 2 ^ 32

instance (config : Config) : Decidable (LeavesRoom config) :=
  inferInstanceAs (Decidable (config.use_window_flow_control = true → _ ∧ _ ∧ _))

variable {config : Config} {s s' : FlowControl}

theorem clamp_bounds {x low high z : UInt32} (h : clamp x low high = .ok z) : low ≤ z ∧ z ≤ high := by
  unfold clamp at h
  split at h
  · rename_i hle
    cases h
    split
    · exact ⟨UInt32.le_refl low, hle⟩
    · rename_i hlow
      split
      · exact ⟨hle, UInt32.le_refl high⟩
      · rename_i hhigh
        exact ⟨UInt32.not_lt.1 hlow, UInt32.not_lt.1 hhigh⟩
  · cases h

theorem clamp_of_mem {x low high : UInt32} (hlow : low ≤ x) (hhigh : x ≤ high) : clamp x low high = .ok x := by
  unfold clamp
  rw [if_pos (UInt32.le_trans hlow hhigh), if_neg (UInt32.not_lt.2 hlow), if_neg (UInt32.not_lt.2 hhigh)]

theorem call_can_send_reliable_ok {n : UInt16} : s.call config (.can_send_reliable n) = .ok s' ↔
    (config.use_window_flow_control = true → s.window_size.toNat * config.fragment_size.toNat < 2 ^ 32) ∧ s = s' := by
  rw [FlowControl.call]
  constructor
  · intro h
    cases hsend : s.checked_can_send_reliable config n with
    | error e =>
      rw [hsend] at h
      cases h
    | ok b =>
      rw [hsend] at h
      cases h
      exact ⟨(checked_can_send_reliable_ok.1 hsend).1, rfl⟩
  · rintro ⟨hfits, rfl⟩
    rw [checked_can_send_reliable_ok.2 ⟨hfits, rfl⟩]
    rfl

/-- The step sizes. -/
theorem step_up_toNat (w : UInt32) : (max (w / 32) 1).toNat = max (w.toNat / 32) 1 := by
  rw [max32_toNat, UInt32.toNat_div]
  rfl

theorem step_down_toNat (w : UInt32) : (max (w / 16) 1).toNat = max (w.toNat / 16) 1 := by
  rw [max32_toNat, UInt32.toNat_div]
  rfl

/-- A step up from within the bounds stays within them: the sum did not wrap. -/
theorem InBounds.grown (h : InBounds config s)
    (hfits : s.window_size.toNat + (max (s.window_size / 32) 1).toNat < 2 ^ 32) :
    InBounds config { s with window_size := grown config s.window_size } := by
  have hlow : config.min_window_size.toNat ≤ s.window_size.toNat := h.low
  have hhigh : s.window_size.toNat ≤ config.max_window_size.toNat := h.high
  have hgrown : (FlowControl.grown config s.window_size).toNat =
      min (s.window_size.toNat + (max (s.window_size / 32) 1).toNat) config.max_window_size.toNat := by
    rw [FlowControl.grown, min32_toNat, UInt32.toNat_add, Nat.mod_eq_of_lt hfits]
  refine ⟨?_, ?_⟩
  · rw [UInt32.le_iff_toNat_le, hgrown]
    omega
  · rw [UInt32.le_iff_toNat_le, hgrown]
    omega

theorem InBounds.shrunk (h : InBounds config s) (hfits : max (s.window_size / 16) 1 ≤ s.window_size) :
    InBounds config { s with window_size := shrunk config s.window_size } := by
  have hlow : config.min_window_size.toNat ≤ s.window_size.toNat := h.low
  have hhigh : s.window_size.toNat ≤ config.max_window_size.toNat := h.high
  have hshrunk : (FlowControl.shrunk config s.window_size).toNat =
      max (s.window_size.toNat - (max (s.window_size / 16) 1).toNat) config.min_window_size.toNat := by
    rw [FlowControl.shrunk, max32_toNat, UInt32.toNat_sub_of_le _ _ hfits]
  refine ⟨?_, ?_⟩
  · rw [UInt32.le_iff_toNat_le, hshrunk]
    omega
  · rw [UInt32.le_iff_toNat_le, hshrunk]
    omega

/-- No call leaves the bounds. -/
theorem InBounds.call (h : InBounds config s) {c : FlowCall} (hc : s.call config c = .ok s') : InBounds config s' := by
  cases c with
  | set_window_size w =>
    simp only [FlowControl.call, FlowControl.set_window_size] at hc
    cases hclamp : clamp w config.min_window_size config.max_window_size with
    | error e =>
      rw [hclamp] at hc
      cases hc
    | ok z =>
      rw [hclamp] at hc
      cases hc
      obtain ⟨hlow, hhigh⟩ := clamp_bounds hclamp
      exact ⟨hlow, hhigh⟩
  | adjust_window_size low_loss high_loss rtt_ms =>
    rw [FlowControl.call, checked_adjust_window_size_ok] at hc
    split at hc
    · exact hc ▸ h
    · split at hc
      · exact hc.2 ▸ h.grown hc.1
      · split at hc
        · exact hc.2 ▸ h.shrunk hc.1
        · exact hc ▸ h
  | record_reliable_data_sent n =>
    cases hc
    exact ⟨h.low, h.high⟩
  | record_reliable_data_acked n =>
    cases hc
    exact ⟨h.low, h.high⟩
  | can_send_reliable n =>
    exact (call_can_send_reliable_ok.1 hc).2 ▸ h

/-- With room for the arithmetic no call stops. -/
theorem InBounds.call_ok (h : InBounds config s) (hroom : LeavesRoom config) (c : FlowCall) :
    ∃ s', s.call config c = .ok s' := by
  have hlow : config.min_window_size.toNat ≤ s.window_size.toNat := h.low
  have hhigh : s.window_size.toNat ≤ config.max_window_size.toNat := h.high
  cases c with
  | set_window_size w =>
    simp only [FlowControl.call, FlowControl.set_window_size, clamp]
    rw [if_pos (UInt32.le_trans h.low h.high)]
    exact ⟨_, rfl⟩
  | adjust_window_size low_loss high_loss rtt_ms =>
    simp only [FlowControl.call, checked_adjust_window_size_ok]
    split
    · exact ⟨_, rfl⟩
    · rename_i hon
      obtain ⟨hmin, hmax, -⟩ := hroom (by simpa using hon)
      split
      · refine ⟨_, ?_, rfl⟩
        rw [step_up_toNat]
        omega
      · split
        · refine ⟨_, ?_, rfl⟩
          rw [UInt32.le_iff_toNat_le, step_down_toNat]
          omega
        · exact ⟨_, rfl⟩
  | record_reliable_data_sent n => exact ⟨_, rfl⟩
  | record_reliable_data_acked n => exact ⟨_, rfl⟩
  | can_send_reliable n =>
    refine ⟨s, call_can_send_reliable_ok.2 ⟨fun hon => ?_, rfl⟩⟩
    obtain ⟨-, -, hbytes⟩ := hroom hon
    exact (Nat.mul_le_mul_right _ hhigh).trans_lt hbytes

/-- Every window within the bounds can be set. -/
theorem run_set_window_size {w : UInt32} (hlow : config.min_window_size ≤ w) (hhigh : w ≤ config.max_window_size) :
    Run (fun s c s' => s.call config c = .ok s') (FlowControl.new config)
      [(FlowControl.new config, .set_window_size w)] { FlowControl.new config with window_size := w } := by
  apply Run.next .start
  rw [FlowControl.call, FlowControl.set_window_size, clamp_of_mem hlow hhigh]
  rfl

/-- The window keeps to its bounds and no arithmetic overflows exactly if there
is room for a step beyond each bound. -/
theorem stays_in_bounds_iff (config : Config) (hmin : config.min_window_size ≤ config.initial_window_size)
    (hmax : config.initial_window_size ≤ config.max_window_size) : StaysInBounds config ↔ LeavesRoom config := by
  constructor
  · intro h hon
    have hle : config.min_window_size ≤ config.max_window_size := UInt32.le_trans hmin hmax
    obtain ⟨-, hlowest⟩ := h _ _ (run_set_window_size (UInt32.le_refl _) hle)
    obtain ⟨-, hhighest⟩ := h _ _ (run_set_window_size hle (UInt32.le_refl _))
    refine ⟨?_, ?_, ?_⟩
    · obtain ⟨s', hs'⟩ := hlowest (.adjust_window_size false true 0)
      simp only [FlowControl.call, checked_adjust_window_size_ok, hon] at hs'
      have hdown := UInt32.le_iff_toNat_le.1 hs'.1
      rw [step_down_toNat] at hdown
      omega
    · obtain ⟨s', hs'⟩ := hhighest (.adjust_window_size true false 0)
      simp only [FlowControl.call, checked_adjust_window_size_ok, hon] at hs'
      have hup := hs'.1
      rw [step_up_toNat] at hup
      exact hup
    · obtain ⟨s', hs'⟩ := hhighest (.can_send_reliable 0)
      exact (call_can_send_reliable_ok.1 hs').1 hon
  · intro hroom steps s hrun
    have hbounds : InBounds config s :=
      hrun.invariant (I := InBounds config) ⟨hmin, hmax⟩ fun t c u ht hc => ht.call hc
    exact ⟨hbounds, hbounds.call_ok hroom⟩

/-- Flow control as it is by default, switched on. -/
def windowed : Config := { Config.default with use_window_flow_control := true }

theorem windowed_stays_in_bounds : StaysInBounds windowed :=
  (stays_in_bounds_iff windowed (by decide) (by decide)).2 (by decide)

/-- The same with no lower bound for the window. -/
def unbounded_below : Config := { windowed with min_window_size := 0 }

/-- The remote peer asks for a window of 0; then the round trips take too long,
and the window is to shrink. -/
theorem window_of_zero_underflows : unbounded_below.min_window_size ≤ unbounded_below.initial_window_size ∧
    unbounded_below.initial_window_size ≤ unbounded_below.max_window_size ∧
    ({ new unbounded_below with window_size := 0 }).call unbounded_below (.adjust_window_size false false 600) =
      panic "attempt to subtract with overflow" ∧
    ¬ StaysInBounds unbounded_below := by
  refine ⟨by decide, by decide, rfl, fun h => ?_⟩
  obtain ⟨-, hcalls⟩ := h _ _ (run_set_window_size (w := 0) (by decide) (by decide))
  obtain ⟨s', hs'⟩ := hcalls (.adjust_window_size false false 600)
  cases hs'

end FlowControl

end Bitfold
