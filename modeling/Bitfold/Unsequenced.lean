import Bitfold.Lib.Loops
import Bitfold.Command
/-!
# Unsequenced duplicate detection

`unsequenced.rs`: a window of 1024 bits over the 16-bit group ids, with its
base at `incoming_unsequenced_group`.
-/

namespace Bitfold

open Lib

/-- `UnsequencedState`. -/
structure UnsequencedState where
  incoming_unsequenced_group : UInt16
  unsequenced_window : Vector UInt32 32
  outgoing_unsequenced_group : UInt16
deriving DecidableEq, Repr

namespace UnsequencedState

def new : UnsequencedState where
  incoming_unsequenced_group := 0
  unsequenced_window := .replicate 32 0
  outgoing_unsequenced_group := 0

def next_outgoing_group (self : UnsequencedState) : UInt16 × UnsequencedState :=
  let group := self.outgoing_unsequenced_group
  (group, { self with outgoing_unsequenced_group := self.outgoing_unsequenced_group + 1 })

def incoming_group (self : UnsequencedState) : UInt16 := self.incoming_unsequenced_group

/-- Has `group` been received already? -/
def is_duplicate (self : UnsequencedState) (group : UInt16) : Bool :=
  let window_empty := self.unsequenced_window.all (· == 0)
  if window_empty then false
  else
    let offset := group - self.incoming_unsequenced_group
    -- behind the window, once the window itself has no answer
    let old := decide (offset > 32768)
    if offset < 1024 then
      let word_index := (offset / 32).toNat
      let bit_index := offset % 32
      if h : word_index < 32 then (self.unsequenced_window[word_index] &&& (1 <<< bit_index.toUInt32)) != 0
      else old
    else old

/-- The window moved by whole words. -/
def shift_words (word_shift : Nat) (window : Vector UInt32 32) : Vector UInt32 32 :=
  if word_shift > 0 then
    if word_shift ≥ 32 then .replicate 32 0
    else
      window
        |> set_range 0 (32 - word_shift) (by omega) (fun i _ _ w => w[i + word_shift])
        |> set_range (32 - word_shift) 32 (by omega) (fun _ _ _ _ => 0)
  else window

/-- The window moved by `bit_shift` bits, less than a word. -/
def shift_bits (bit_shift : UInt16) (word_shift : Nat) (window : Vector UInt32 32) : Vector UInt32 32 :=
  if bit_shift > 0 ∧ word_shift < 32 then
    let window := window
      |> set_range 0 31 (by omega) (fun i _ _ w =>
          (w[i] >>> bit_shift.toUInt32) ||| (w[i + 1] <<< (32 - bit_shift.toUInt32)))
    window.set 31 (window[31] >>> bit_shift.toUInt32)
  else window

/-- The window advanced so that a group far ahead falls into it. -/
def advance_window (self : UnsequencedState) (offset : UInt16) : UnsequencedState :=
  if 1024 ≤ offset ∧ offset ≤ 32768 then
    let advance := saturating_sub16 offset 512
    let word_shift := (advance / 32).toNat
    let bit_shift := advance % 32
    { self with
      unsequenced_window := self.unsequenced_window |> shift_words word_shift |> shift_bits bit_shift word_shift
      incoming_unsequenced_group := self.incoming_unsequenced_group + advance }
  else self

def mark_received (self : UnsequencedState) (group : UInt16) : UnsequencedState :=
  let offset := group - self.incoming_unsequenced_group
  let self := self.advance_window offset
  let final_offset := group - self.incoming_unsequenced_group
  if final_offset < 1024 then
    let word_index := (final_offset / 32).toNat
    let bit_index := final_offset % 32
    if h : word_index < 32 then
      let word := self.unsequenced_window[word_index] ||| (1 <<< bit_index.toUInt32)
      { self with unsequenced_window := self.unsequenced_window.set word_index word }
    else self
  else self

end UnsequencedState

end Bitfold
