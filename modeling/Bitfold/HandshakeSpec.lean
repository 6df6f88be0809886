import Bitfold.Connection
import Bitfold.Lib.Network
/-!
# The handshake as a protocol

What the handshake is for, apart from queues, datagrams and time: two parties
with their ids, and two messages on a network that may lose, repeat and
reorder them. Whoever gets through has met the other and agrees with it on the
session (`Paired`). If both begin, neither gets through (`Crossed`).
-/

namespace Bitfold

open Lib

/-- What the handshake is about in a session. -/
structure SessionIds where
  state : PeerState
  peer_id : UInt16
  incoming_session_id : UInt16
  outgoing_session_id : UInt16
  connect_id : UInt32
deriving DecidableEq, Repr

inductive HandshakeMessage where
  | Connect (outgoing_session_id : UInt16) (connect_id : UInt32)
  | VerifyConnect (peer_id incoming_session_id outgoing_session_id : UInt16)
deriving DecidableEq, Repr

/-- The steps of a party. `draw` is the peer id that the server gives. -/
inductive HandshakeMove where
  | initiate
  | answer (outgoing_session_id : UInt16) (connect_id : UInt32) (draw : UInt16)
  | verify (peer_id incoming_session_id outgoing_session_id : UInt16)
  | settle
  | close (state : PeerState)

namespace HandshakeMove

/-- The message a step reads. -/
def reads : HandshakeMove → Option HandshakeMessage
  | .answer sid cid _ => some (.Connect sid cid)
  | .verify pid isid osid => some (.VerifyConnect pid isid osid)
  | _ => none

end HandshakeMove

namespace SessionIds

/-- One step, with what it sends. A `VerifyConnect` that is refused has been
taken over all the same. -/
def Step (s : SessionIds) : HandshakeMove → List HandshakeMessage → SessionIds → Prop
  | .initiate, out, t =>
    s.state = .Idle ∧ out = [.Connect s.outgoing_session_id s.connect_id] ∧ t = { s with state := .Connecting }
  | .answer sid cid draw, out, t =>
    s.state = .Idle ∧ out = [.VerifyConnect draw sid s.outgoing_session_id] ∧
      t = { s with state := .AcknowledgingConnect, peer_id := draw, incoming_session_id := sid, connect_id := cid }
  | .verify pid isid osid, out, t =>
    s.state = .Connecting ∧ out = [] ∧
      t = { s with
        state := if osid = s.outgoing_session_id then .ConnectionSucceeded else .Connecting
        peer_id := pid, incoming_session_id := isid }
  | .settle, out, t =>
    (s.state = .AcknowledgingConnect ∨ s.state = .ConnectionSucceeded) ∧ out = [] ∧ t = { s with state := .Connected }
  | .close state, out, t => state.is_disconnecting = true ∧ out = [] ∧ t = { s with state }

/-- A party of the handshake. -/
def handshake : Party SessionIds HandshakeMove HandshakeMessage where
  reads := HandshakeMove.reads
  step := Step

/-! ## Agreement -/

/-- What `a` may send to `b`. An answer is only ever about a session that the
two of them share. -/
def MaySend (a b : SessionIds) : HandshakeMessage → Prop
  | .Connect sid cid => a.state ≠ .Idle ∧ sid = a.outgoing_session_id ∧ cid = a.connect_id
  | .VerifyConnect pid isid osid =>
    a.state ≠ .Idle ∧ a.state ≠ .Connecting ∧ b.state ≠ .Idle ∧ pid = a.peer_id ∧ isid = a.incoming_session_id ∧
      osid = a.outgoing_session_id ∧ a.connect_id = b.connect_id ∧ a.incoming_session_id = b.outgoing_session_id

/-- A party that has heard of the other in the handshake has met it. If both
have, they agree. -/
structure Paired (a b : SessionIds) : Prop where
  met : a.state.answered = true →
    b.state ≠ .Idle ∧ a.connect_id = b.connect_id ∧ a.incoming_session_id = b.outgoing_session_id
  agreed : a.state.answered = true → b.state.answered = true →
    a.peer_id = b.peer_id ∧ a.outgoing_session_id = b.outgoing_session_id

/-- What stays as it is from `s` to `t`: an id is only written before the state
has moved past it. -/
structure Settles (s t : SessionIds) : Prop where
  outgoing : t.outgoing_session_id = s.outgoing_session_id
  begun : s.state ≠ .Idle → t.state ≠ .Idle ∧ t.connect_id = s.connect_id
  past : s.state ≠ .Idle → s.state ≠ .Connecting →
    t.state ≠ .Connecting ∧ t.peer_id = s.peer_id ∧ t.incoming_session_id = s.incoming_session_id

theorem Settles.refl (s : SessionIds) : Settles s s :=
  ⟨rfl, fun h => ⟨h, rfl⟩, fun _ h => ⟨h, rfl, rfl⟩⟩

theorem MaySend.settles {a a' b b' : SessionIds} {m : HandshakeMessage} (h : MaySend a b m) (ha : Settles a a')
    (hb : Settles b b') : MaySend a' b' m := by
  cases m with
  | Connect sid cid =>
    obtain ⟨hidle, rfl, rfl⟩ := h
    obtain ⟨hidle', hcid⟩ := ha.begun hidle
    exact ⟨hidle', ha.outgoing.symm, hcid.symm⟩
  | VerifyConnect pid isid osid =>
    obtain ⟨hidle, hconnecting, hbidle, rfl, rfl, rfl, hcid, hsid⟩ := h
    obtain ⟨hidle', hcid'⟩ := ha.begun hidle
    obtain ⟨hconnecting', hpid', hisid'⟩ := ha.past hidle hconnecting
    obtain ⟨hbidle', hbcid'⟩ := hb.begun hbidle
    refine ⟨hidle', hconnecting', hbidle', hpid'.symm, hisid'.symm, ha.outgoing.symm, ?_, ?_⟩
    · rw [hcid', hbcid', hcid]
    · rw [hisid', hb.outgoing, hsid]

theorem Step.settles {s t : SessionIds} {move : HandshakeMove} {out : List HandshakeMessage} (h : Step s move out t) :
    Settles s t := by
  cases move with
  | initiate =>
    obtain ⟨hidle, -, rfl⟩ := h
    exact ⟨rfl, fun hne => absurd hidle hne, fun hne => absurd hidle hne⟩
  | answer sid cid draw =>
    obtain ⟨hidle, -, rfl⟩ := h
    exact ⟨rfl, fun hne => absurd hidle hne, fun hne => absurd hidle hne⟩
  | verify pid isid osid =>
    obtain ⟨hconnecting, -, rfl⟩ := h
    refine ⟨rfl, fun _ => ⟨?_, rfl⟩, fun _ hne => absurd hconnecting hne⟩
    dsimp only
    split <;> decide
  | settle =>
    obtain ⟨-, -, rfl⟩ := h
    exact ⟨rfl, fun _ => ⟨by simp, rfl⟩, fun _ _ => ⟨by simp, rfl, rfl⟩⟩
  | close state =>
    obtain ⟨hclosed, -, rfl⟩ := h
    have hne : state ≠ .Idle ∧ state ≠ .Connecting := by
      constructor <;> rintro rfl <;> cases hclosed
    exact ⟨rfl, fun _ => ⟨hne.1, rfl⟩, fun _ _ => ⟨hne.2, rfl, rfl⟩⟩

/-- A party out of the handshake has nothing to agree on. -/
theorem paired_of_not_answered {a b : SessionIds} (h : a.state.answered = false) : Paired a b :=
  ⟨fun ha => absurd ha (by simp [h]), fun ha => absurd ha (by simp [h])⟩

theorem Paired.symm_of {a b : SessionIds} (h : Paired b a) (hmet : a.state.answered = true →
    b.state ≠ .Idle ∧ a.connect_id = b.connect_id ∧ a.incoming_session_id = b.outgoing_session_id) : Paired a b := by
  refine ⟨hmet, fun ha hb => ?_⟩
  obtain ⟨hpid, hsid⟩ := h.agreed hb ha
  exact ⟨hpid.symm, hsid.symm⟩

/-- Only the state of the other party changes, and it stays what it was in the
handshake. -/
theorem Paired.same_part {a b b' : SessionIds} (h : Paired a b) (hb : Settles b b')
    (hanswered : b'.state.answered = true → b.state.answered = true ∧ b'.peer_id = b.peer_id) : Paired a b' := by
  refine ⟨fun ha => ?_, fun ha hb' => ?_⟩
  · obtain ⟨hidle, hcid, hsid⟩ := h.met ha
    obtain ⟨hidle', hcid'⟩ := hb.begun hidle
    exact ⟨hidle', by rw [hcid', hcid], by rw [hb.outgoing, hsid]⟩
  · obtain ⟨hanswered, hpid'⟩ := hanswered hb'
    obtain ⟨hpid, hsid⟩ := h.agreed ha hanswered
    exact ⟨by rw [hpid', hpid], by rw [hb.outgoing, hsid]⟩

variable {s o t : SessionIds} {out : List HandshakeMessage}

theorem Paired.initiate (ho : Paired o s) (h : Step s .initiate out t) : Network.Kept Paired MaySend s t o out := by
  have hsettles := h.settles
  obtain ⟨-, rfl, rfl⟩ := h
  refine ⟨paired_of_not_answered rfl, ho.same_part hsettles (fun hc => by cases hc), fun m hm => ?_, ?_, ?_⟩
  · rw [List.mem_singleton.1 hm]
    exact ⟨by simp, rfl, rfl⟩
  · exact fun m hm => hm.settles hsettles (.refl o)
  · exact fun m hm => hm.settles (.refl o) hsettles

/-- A party that answers has met the other, which has not heard of it yet. -/
theorem Paired.answer {sid : UInt16} {cid : UInt32} {draw : UInt16} (ho : Paired o s)
    (hread : MaySend o s (.Connect sid cid)) (h : Step s (.answer sid cid draw) out t) :
    Network.Kept Paired MaySend s t o out := by
  have hsettles := h.settles
  obtain ⟨hidle, rfl, rfl⟩ := h
  obtain ⟨hoidle, rfl, rfl⟩ := hread
  have hunheard : o.state.answered = false := by
    rw [← Bool.not_eq_true]
    intro hanswered
    exact (ho.met hanswered).1 hidle
  refine ⟨⟨fun _ => ⟨hoidle, rfl, rfl⟩, fun _ hc => ?_⟩, paired_of_not_answered hunheard, fun m hm => ?_, ?_, ?_⟩
  · rw [hunheard] at hc
    cases hc
  · rw [List.mem_singleton.1 hm]
    exact ⟨by simp, by simp, hoidle, rfl, rfl, rfl, rfl, rfl⟩
  · exact fun m hm => hm.settles hsettles (.refl o)
  · exact fun m hm => hm.settles (.refl o) hsettles

/-- The answer that is accepted has the id that both then have. -/
theorem Paired.verify {pid isid osid : UInt16} (ho : Paired o s) (hread : MaySend o s (.VerifyConnect pid isid osid))
    (h : Step s (.verify pid isid osid) out t) : Network.Kept Paired MaySend s t o out := by
  have hsettles := h.settles
  have hstill : ∀ m, MaySend s o m → MaySend t o m := fun m hm => hm.settles hsettles (.refl o)
  have hother : ∀ m, MaySend o s m → MaySend o t m := fun m hm => hm.settles (.refl o) hsettles
  obtain ⟨-, rfl, rfl⟩ := h
  obtain ⟨hoidle, -, -, rfl, rfl, rfl, hcid, hsid⟩ := hread
  by_cases hid : o.outgoing_session_id = s.outgoing_session_id
  · have hagreed : Paired o { s with
        state := .ConnectionSucceeded, peer_id := o.peer_id, incoming_session_id := o.incoming_session_id } :=
      ⟨fun hc => ⟨by simp, hcid, hsid⟩, fun _ _ => ⟨rfl, hid⟩⟩
    simp only [if_pos hid] at hstill hother ⊢
    refine ⟨hagreed.symm_of fun _ => ⟨hoidle, hcid.symm, ?_⟩, hagreed, by simp, hstill, hother⟩
    rw [hid]
    exact hsid
  · simp only [if_neg hid] at hsettles hstill hother ⊢
    exact ⟨paired_of_not_answered rfl, ho.same_part hsettles (fun hc => by cases hc), by simp, hstill, hother⟩

/-- Every step keeps the agreement. -/
theorem keeps_paired : Network.Keeps handshake Paired MaySend := by
  intro s o t move out hs ho hread (h : Step s move out t)
  have hsettles := h.settles
  cases move with
  | initiate => exact ho.initiate h
  | answer sid cid draw => exact ho.answer (hread _ rfl) h
  | verify pid isid osid => exact ho.verify (hread _ rfl) h
  | settle =>
    obtain ⟨hstate, rfl, rfl⟩ := h
    have hanswered : s.state.answered = true := by
      rcases hstate with hstate | hstate <;> rw [hstate] <;> rfl
    refine ⟨⟨fun _ => hs.met hanswered, fun _ => hs.agreed hanswered⟩,
      ho.same_part hsettles fun _ => ⟨hanswered, rfl⟩, by simp, ?_, ?_⟩
    · exact fun m hm => hm.settles hsettles (.refl o)
    · exact fun m hm => hm.settles (.refl o) hsettles
  | close state =>
    obtain ⟨hclosed, rfl, rfl⟩ := h
    have hanswered : state.answered = false := by
      cases state <;> first | rfl | cases hclosed
    refine ⟨paired_of_not_answered hanswered, ho.same_part hsettles fun hc => ?_, by simp, ?_, ?_⟩
    · rw [hanswered] at hc
      cases hc
    · exact fun m hm => hm.settles hsettles (.refl o)
    · exact fun m hm => hm.settles (.refl o) hsettles

/-! ## Both begin -/

/-- A party that has begun and that the other will not answer. -/
def Crossed (s _ : SessionIds) : Prop := s.state ≠ .Idle ∧ s.state.answered = false

/-- All that is sent when both have begun. -/
def NoAnswer (_ _ : SessionIds) : HandshakeMessage → Prop
  | .Connect .. => True
  | .VerifyConnect .. => False

theorem keeps_crossed : Network.Keeps handshake Crossed NoAnswer := by
  intro s o t move out hs ho hread (h : Step s move out t)
  have hkept : Crossed t o → out = [] → Network.Kept Crossed NoAnswer s t o out := by
    rintro ht rfl
    exact ⟨ht, ho, by simp, fun _ hm => hm, fun _ hm => hm⟩
  cases move with
  | initiate => exact absurd h.1 hs.1
  | answer sid cid draw => exact absurd h.1 hs.1
  | verify pid isid osid => exact absurd (hread _ rfl) id
  | settle =>
    exfalso
    have hanswered := hs.2
    rcases h.1 with hstate | hstate <;> rw [hstate] at hanswered <;> cases hanswered
  | close state =>
    obtain ⟨hclosed, hout, rfl⟩ := h
    apply hkept ?_ hout
    cases state with
    | Disconnecting | Zombie => exact ⟨by simp, rfl⟩
    | _ => cases hclosed

/-! ## Runs -/

abbrev HandshakeRun := Run (Network.Step handshake)

variable {n n' : Network SessionIds HandshakeMessage} {ids : Side → SessionIds}
  {steps steps' : List (Network SessionIds HandshakeMessage × (Side × HandshakeMove))}

theorem run_paired (hidle : ∀ side, (ids side).state = .Idle) (h : HandshakeRun (.start ids) steps n) :
    Network.Holds Paired MaySend n := by
  apply Network.Holds.run (Network.Holds.start ?_) keeps_paired h
  intro side
  apply paired_of_not_answered
  rw [hidle side]
  rfl

/-- Once both have begun, neither ever gets through. -/
theorem run_crossed (hidle : ∀ side, (ids side).state = .Idle) (h : HandshakeRun (.start ids) steps n)
    (hboth : ∀ side, (n.state side).state = .Connecting) (h' : HandshakeRun n steps' n') (side : Side) :
    (n'.state side).state.answered = false := by
  have hpaired := run_paired hidle h
  have hcrossed : Network.Holds Crossed NoAnswer n := by
    intro side
    refine ⟨⟨by rw [hboth side]; decide, by rw [hboth side]; rfl⟩, fun m hm => ?_⟩
    have hmay := (hpaired side).2 m hm
    cases m with
    | Connect sid cid => trivial
    | VerifyConnect pid isid osid => exact hmay.2.1 (hboth side)
  exact (hcrossed.run keeps_crossed h' side).1.2

end SessionIds

end Bitfold
