import Bitfold.Bandwidth
import Bitfold.DatagramSize
/-!
# The timer of a probe

`update` flushes the queue first and probes last, so a probe waits in the queue
until a later call sends it. Its timer runs from the moment it was queued: if
that later call comes late enough, it sends the probe and gives it up in one.
A probe that is given up has been sent for long enough if no call within the
timeout before has found it in the queue.
-/

namespace Bitfold

open Lib

/-- The time of an operation; that of a user's packet is free. -/
def SessionOp.At (time : Instant) : SessionOp → Prop
  | .process_packet _ t _ => t = time
  | .process_event _ => True
  | .update t _ _ => t = time
  | .should_drop t => t = time

/-- An operation and its time, its actions and the peer after it. -/
structure Clocked where
  time : Instant
  op : SessionOp
  actions : List Action
  after : Peer

namespace Peer

open PmtuDiscovery

variable {codecs : Codecs} {config : Config} {p q : Peer} {c : ProtocolCommand} {actions : List Action}

/-- A run of operations of a session, with their times. -/
abbrev ClockedRun (codecs : Codecs) : Peer → List (Peer × Clocked) → Peer → Prop :=
  Run fun p e q => e.op.At e.time ∧ p.perform codecs e.op = .ok (e.actions, e.after) ∧ q = e.after

/-- The peer whose `handle_pmtu` an update calls. -/
def polled (codecs : Codecs) (p : Peer) (time : Instant) (elapsed : Duration) : Peer :=
  ((p.before_update_flush time elapsed).flush codecs).2

/-- The probe that an operation generates. -/
def generated (codecs : Codecs) (p : Peer) : SessionOp → Option ProtocolCommand
  | .update time elapsed draw =>
    ((p.polled codecs time elapsed).pmtu.handle_pmtu time (p.polled codecs time elapsed).rto draw).1
  | _ => none

/-- The datagram is a packet with this command. -/
def Includes (codecs : Codecs) (config : Config) (bytes : Bytes) (c : ProtocolCommand) : Prop :=
  ∃ cmds, sealed codecs config cmds = .ok bytes ∧ c ∈ cmds

/-- `c` is the last probe generated, and `since` are the steps after that. -/
def LastProbe (codecs : Codecs) (steps : List (Peer × Clocked)) (c : ProtocolCommand) (since : List (Peer × Clocked)) :
    Prop :=
  ∃ earlier p e, steps = earlier ++ (p, e) :: since ∧ p.generated codecs e.op = some c ∧
    ∀ x ∈ since, x.1.generated codecs x.2.op = none

/-- An update that gives up the outstanding probe does so at least the timeout
after a datagram with it was sent. -/
def Timely (codecs : Codecs) (before : List (Peer × Clocked)) (x : Peer × Clocked) : Prop :=
  ∀ t elapsed draw size token queued, x.2.op = .update t elapsed draw →
    x.1.pmtu.outstanding = some (size, token, queued) → x.2.after.pmtu.outstanding = none →
    ∃ payload since, LastProbe codecs before (.PMTUProbe size token payload) since ∧
      ∃ y ∈ since, ∃ bytes, .Send bytes ∈ y.2.actions ∧ Includes codecs y.1.config bytes (.PMTUProbe size token payload) ∧
        y.2.time + probe_timeout (x.1.polled codecs t elapsed).rto ≤ t

/-- If an update finds the timer of the outstanding probe run out, every call
that found this probe in the queue was at least the timeout before. -/
def Cleared (before : List (Peer × Clocked)) (x : Peer × Clocked) : Prop :=
  ∀ t elapsed draw size token queued, x.2.op = .update t elapsed draw →
    x.1.pmtu.outstanding = some (size, token, queued) → probe_timeout x.1.rto < t - queued →
    ∀ y ∈ before ++ [x], ∀ payload, .PMTUProbe size token payload ∈ y.1.commands →
      y.2.time + probe_timeout x.1.rto ≤ t

/-! ## What is queued is sent -/

/-- The configuration is the one the session began with, up to the bandwidth. -/
def Settled (config : Config) (p : Peer) : Prop :=
  ∃ a b, p.config = { config with incoming_bandwidth_limit := a, outgoing_bandwidth_limit := b }

theorem Settled.of_eq (h : Settled config p) (he : q.config = p.config) : Settled config q := by
  unfold Settled
  rw [he]
  exact h

/-- No flush of the session fails. -/
theorem Settled.encodes (h : Settled config p) (ht : codecs.Total)
    (hbuffer : config.compression = .Lz4 → config.receive_buffer_max_size ≤ 0x7E000000) (e : IoError) :
    (p.encode_queued_commands_bounded codecs p.datagram_cap).2 ≠ .error e := by
  intro he
  obtain ⟨a, b, hc⟩ := h
  have hsize : p.effective_max_size p.datagram_cap ≤ config.receive_buffer_max_size := by
    apply p.effective_max_size_le.trans_eq
    rw [hc]
  by_cases hk : p.selected_count p.datagram_cap = 0
  · rcases encode_bounded_cases codecs p p.datagram_cap with ⟨-, heq⟩ | ⟨hne, -⟩
    · rw [heq] at he
      cases he
    · exact hne hk
  · obtain ⟨p', bytes, heq⟩ := encode_bounded_total ht hk fun hl => hsize.trans (hbuffer (by rwa [hc] at hl))
    rw [heq] at he
    cases he

/-- A flush keeps a command or sends it. -/
theorem FlushLoop.keeps_or_sends {calls : List Peer} {sends : List Action} (h : FlushLoop codecs p calls sends q)
    (hb : Balanced p) (hs : Settled config p) (ht : codecs.Total)
    (hbuffer : config.compression = .Lz4 → config.receive_buffer_max_size ≤ 0x7E000000) (hc : c ∈ p.commands) :
    c ∈ q.commands ∨ ∃ bytes, .Send bytes ∈ sends ∧ Includes codecs p.config bytes c := by
  induction h with
  | done => exact .inl hc
  | @next p q calls sends bytes _ he _ ih =>
    have hsent : ∃ p', p.encode_queued_commands_bounded codecs p.datagram_cap = (p', .ok (some bytes)) :=
      ⟨_, Prod.ext rfl he⟩
    have hsealed := (encode_bounded_some_iff.1 hsent).2
    have hk := (encode_bounded_some hsent.choose_spec).1
    obtain ⟨st, hst⟩ := after_encode_of_selected codecs hb hk
    have hconfig : (p.sent codecs bytes).config = p.config := by
      rw [sent, hst]
      rfl
    have hleft : (p.sent codecs bytes).commands = p.left p.datagram_cap := by
      rw [sent, hst]
      rfl
    rw [← p.taken_append_left p.datagram_cap] at hc
    rcases List.mem_append.1 hc with hc | hc
    · exact .inr ⟨bytes, List.mem_cons_self, _, hsealed, hc⟩
    · have hb' : Balanced (p.sent codecs bytes) := (hb.after_encode codecs p.datagram_cap).1.of_eq rfl rfl rfl
      rcases ih hb' (hs.of_eq hconfig) (hleft ▸ hc) with hkept | ⟨bytes', hm, hincludes⟩
      · exact .inl hkept
      · exact .inr ⟨bytes', List.mem_cons_of_mem _ hm, hconfig ▸ hincludes⟩
  | @nothing_fits p _ he =>
    rcases encode_bounded_cases codecs p p.datagram_cap with ⟨-, heq⟩ | ⟨-, heq⟩
    · rw [after_encode, heq]
      exact .inl hc
    · rw [heq] at he
      cases hr : ((p.after_taking p.datagram_cap).finish_packet codecs ⟨p.taken p.datagram_cap⟩).2 with
      | error e =>
        rw [hr] at he
        cases he
      | ok bytes =>
        rw [hr] at he
        cases he
  | failed _ he => exact absurd he (hs.encodes ht hbuffer _)

theorem flush_keeps_or_sends (hb : Balanced p) (hs : Settled config p) (ht : codecs.Total)
    (hbuffer : config.compression = .Lz4 → config.receive_buffer_max_size ≤ 0x7E000000) (hc : c ∈ p.commands) :
    c ∈ (p.flush codecs).2.commands ∨ ∃ bytes, .Send bytes ∈ (p.flush codecs).1 ∧ Includes codecs p.config bytes c := by
  obtain ⟨calls, hl⟩ := flushLoop_of_drains (drains_flush codecs p)
  exact hl.keeps_or_sends hb hs ht hbuffer hc

theorem before_update_flush_same (p : Peer) (t : Instant) (elapsed : Duration) :
    (p.before_update_flush t elapsed).config = p.config ∧ (p.before_update_flush t elapsed).pmtu = p.pmtu ∧
      (p.before_update_flush t elapsed).rto = p.rto := by
  unfold before_update_flush
  dsimp only
  split
  · obtain ⟨n, cq, he⟩ :=
      enqueue_command_writes (p.update_bandwidth_window t) (.Ping (.ofNat (as_millis elapsed)))
    rw [enqueue_ping_command, he]
    exact ⟨rfl, rfl, rfl⟩
  · exact ⟨rfl, rfl, rfl⟩

/-- Before it probes, an update leaves the path and the timeout alone. -/
theorem polled_same (codecs : Codecs) (p : Peer) (t : Instant) (elapsed : Duration) :
    (p.polled codecs t elapsed).config = p.config ∧ (p.polled codecs t elapsed).pmtu = p.pmtu ∧
      (p.polled codecs t elapsed).rto = p.rto := by
  obtain ⟨n, cq, st, b, he⟩ := flush_writes codecs (p.before_update_flush t elapsed)
  rw [polled, he]
  exact before_update_flush_same p t elapsed

theorem before_event_flush_same {event : Packet} {r : Peer} (h : p.record_send.2.enqueue_packet event = .ok r) :
    r.config = p.config ∧ r.pmtu = p.pmtu := by
  obtain ⟨n, cq, u, sq, hr⟩ := enqueue_packet_writes h
  obtain ⟨st, cq', hs⟩ := record_send_writes p
  rw [hr, hs]
  exact ⟨rfl, rfl⟩

/-- So does every operation of a session. -/
theorem perform_keeps_or_sends {op : SessionOp} (hb : Balanced p) (hs : Settled config p) (ht : codecs.Total)
    (hbuffer : config.compression = .Lz4 → config.receive_buffer_max_size ≤ 0x7E000000)
    (h : p.perform codecs op = .ok (actions, q)) (hc : c ∈ p.commands) :
    c ∈ q.commands ∨ ∃ bytes, .Send bytes ∈ actions ∧ Includes codecs p.config bytes c := by
  cases op with
  | process_packet payload t draw => exact .inl ((process_packet_answers h).subset hc)
  | process_event event =>
    obtain ⟨r, hr, rfl, rfl⟩ := process_event_ok h
    obtain ⟨hconfig, -⟩ := before_event_flush_same hr
    have hmem := (enqueue_packet_queuesAll hr).subset ((record_send_queuesAll p).subset hc)
    rcases flush_keeps_or_sends (hb.before_event_flush hr) (hs.of_eq hconfig) ht hbuffer hmem with
      hkept | ⟨bytes, hm, hincludes⟩
    · exact .inl hkept
    · exact .inr ⟨bytes, List.mem_append_right _ hm, hconfig ▸ hincludes⟩
  | update t elapsed draw =>
    have hu : p.update codecs t elapsed draw = (actions, q) := Except.ok.inj h
    rw [update_eq] at hu
    obtain ⟨rfl, rfl⟩ := Prod.mk.inj hu
    have hconfig := (before_update_flush_same p t elapsed).1
    have hmem := (before_update_flush_queuesAll p t elapsed).subset hc
    rcases flush_keeps_or_sends (hb.before_update_flush t elapsed) (hs.of_eq hconfig) ht hbuffer hmem with
      hkept | ⟨bytes, hm, hincludes⟩
    · exact .inl ((handle_pmtu_queuesAll ..).subset hkept)
    · exact .inr ⟨bytes, hm, hconfig ▸ hincludes⟩
  | should_drop t =>
    cases h
    exact .inl hc

theorem Balanced.perform {op : SessionOp} (h : Balanced p) (hp : p.perform codecs op = .ok (actions, q)) :
    Balanced q := by
  cases op with
  | process_packet payload t draw => exact (Call.process_packet hp).balanced h
  | process_event event => exact (Call.process_event hp).balanced h
  | update t elapsed draw =>
    have hu : p.update codecs t elapsed draw = (actions, q) := Except.ok.inj hp
    have hq : (p.update codecs t elapsed draw).2 = q := congrArg Prod.snd hu
    exact hq ▸ (Call.update p t elapsed draw).balanced h
  | should_drop t =>
    cases hp
    exact h

/-! ## The outstanding probe -/

/-- What was outstanding still is, or nothing is. -/
structure Watched (config : Config) (probe : Option Probe) (p : Peer) : Prop where
  settled : Settled config p
  outstanding : p.pmtu.outstanding = probe ∨ p.pmtu.outstanding = none

variable {probe : Option Probe}

theorem Watched.of_same (h : Watched config probe p) (hc : q.config = p.config) (hp : q.pmtu = p.pmtu) :
    Watched config probe q :=
  ⟨h.settled.of_eq hc, hp ▸ h.outstanding⟩

theorem Watched.process_command {t : Instant} {draw : UInt16} {r : Processed} (h : Watched config probe p)
    (hp : p.process_command c t draw = .ok (q, r)) : Watched config probe q := by
  cases hset : sets_limits c with
  | true =>
    cases c with
    | BandwidthLimit i o =>
      cases hp
      obtain ⟨a, b, hc⟩ := h.settled
      refine ⟨⟨i, o, ?_⟩, h.outstanding⟩
      change { p.config with incoming_bandwidth_limit := i, outgoing_bandwidth_limit := o } = _
      rw [hc]
    | _ => cases hset
  | false =>
    cases hpath : sets_path c with
    | true =>
      cases c with
      | PMTUReply size token =>
        cases hp
        refine ⟨h.settled, ?_⟩
        change (p.pmtu.process_reply size token t).2.outstanding = _ ∨ (p.pmtu.process_reply size token t).2.outstanding = _
        rcases process_reply_cases p.pmtu size token t with ⟨-, he⟩ | ⟨-, he⟩
        · rw [he]
          exact .inr rfl
        · rw [he]
          exact h.outstanding
      | _ => cases hpath
    | false =>
      have hlimits := process_command_limits hp hset hpath
      exact h.of_same hlimits.config hlimits.pmtu

theorem Watched.process_packet {payload : Bytes} {t : Instant} {draw : UInt16} (h : Watched config probe p)
    (hp : p.process_packet codecs payload t draw = .ok (actions, q)) : Watched config probe q :=
  process_packet_keeps (K := fun _ _ => True) (fun hp _ hq => hp.process_command hq)
    (fun hp hc hpath _ => hp.of_same hc hpath) (fun _ _ _ => trivial) hp h

/-- The path after an update is that of `handle_pmtu`. -/
theorem update_pmtu (codecs : Codecs) (p : Peer) (t : Instant) (elapsed : Duration) (draw : ProbeDraw) :
    (p.update codecs t elapsed draw).2.pmtu =
      (p.pmtu.handle_pmtu t (p.polled codecs t elapsed).rto draw).2 := by
  rw [update_eq]
  apply (handle_pmtu_pmtu _ t draw).trans
  rw [← (polled_same codecs p t elapsed).2.1]
  rfl

theorem generated_update (codecs : Codecs) (p : Peer) (t : Instant) (elapsed : Duration) (draw : ProbeDraw) :
    p.generated codecs (.update t elapsed draw) = (p.pmtu.handle_pmtu t (p.polled codecs t elapsed).rto draw).1 := by
  rw [generated, (polled_same codecs p t elapsed).2.1]

theorem Settled.update {t : Instant} {elapsed : Duration} {draw : ProbeDraw} (h : Settled config p) :
    Settled config (p.update codecs t elapsed draw).2 := by
  obtain ⟨n, cq, pm, he⟩ := handle_pmtu_writes (p.polled codecs t elapsed) t draw
  rw [update_eq]
  apply h.of_eq
  change ((p.polled codecs t elapsed).handle_pmtu t draw).config = _
  rw [he]
  exact (polled_same codecs p t elapsed).1

/-- A step without a probe leaves the outstanding one, or clears it. -/
theorem Watched.perform {op : SessionOp} (h : Settled config p) (hp : p.perform codecs op = .ok (actions, q))
    (hnone : p.generated codecs op = none) : Watched config p.pmtu.outstanding q := by
  have hwatched : Watched config p.pmtu.outstanding p := ⟨h, .inl rfl⟩
  cases op with
  | process_packet payload t draw => exact hwatched.process_packet hp
  | process_event event =>
    obtain ⟨r, hr, -, rfl⟩ := process_event_ok hp
    obtain ⟨hconfig, hpmtu⟩ := before_event_flush_same hr
    obtain ⟨n, cq, st, b, he⟩ := flush_writes codecs r
    rw [he]
    exact hwatched.of_same hconfig hpmtu
  | update t elapsed draw =>
    have hu : p.update codecs t elapsed draw = (actions, q) := Except.ok.inj hp
    have hq : (p.update codecs t elapsed draw).2 = q := congrArg Prod.snd hu
    rw [← hq]
    refine ⟨h.update, ?_⟩
    rw [update_pmtu]
    rw [generated_update] at hnone
    rcases p.pmtu.handle_pmtu_outstanding t (p.polled codecs t elapsed).rto draw with
      ⟨size, payload, hsome, -⟩ | ⟨-, hsame | ⟨hcleared, -⟩⟩
    · rw [hsome] at hnone
      cases hnone
    · exact .inl hsame
    · exact .inr hcleared
  | should_drop t =>
    cases hp
    exact hwatched

/-- There is always room for a probe. -/
theorem mem_handle_pmtu {t : Instant} {draw : ProbeDraw} (hb : Balanced p)
    (h : (p.pmtu.handle_pmtu t p.rto draw).1 = some c) : c ∈ (p.handle_pmtu t draw).commands := by
  unfold handle_pmtu
  cases he : p.pmtu.handle_pmtu t p.rto draw with
  | mk sent pmtu =>
    rw [he] at h
    obtain rfl : sent = some c := h
    have hturns := p.pmtu.turns t p.rto draw
    rw [he] at hturns
    cases hturns with
    | probes =>
      have hadmits : Admits { p with pmtu := p.pmtu.clamp_high.probing draw.token t } 0 := hb.bounded
      dsimp only
      rw [enqueue_command_of_admits hadmits]
      exact List.mem_append_right _ (List.mem_singleton_self _)

/-- A step with a probe records it, and puts it in the queue. -/
theorem perform_generated {op : SessionOp} (hb : Balanced p) (h : Settled config p)
    (hp : p.perform codecs op = .ok (actions, q)) (hc : p.generated codecs op = some c) :
    ∃ size token payload t, c = .PMTUProbe size token payload ∧ q.pmtu.outstanding = some (size, token, t) ∧
      c ∈ q.commands ∧ Settled config q := by
  cases op with
  | update t elapsed draw =>
    have hu : p.update codecs t elapsed draw = (actions, q) := Except.ok.inj hp
    have hq : (p.update codecs t elapsed draw).2 = q := congrArg Prod.snd hu
    have hpmtu := update_pmtu codecs p t elapsed draw
    rw [hq] at hpmtu
    have hgenerated := (generated_update codecs p t elapsed draw).symm.trans hc
    rcases p.pmtu.handle_pmtu_outstanding t (p.polled codecs t elapsed).rto draw with
      ⟨size, payload, hsome, hout⟩ | ⟨hnone, -⟩
    · obtain rfl := Option.some.inj (hsome.symm.trans hgenerated)
      refine ⟨size, draw.token, payload, t, rfl, hpmtu ▸ hout, ?_, hq ▸ h.update⟩
      have hpolled : Balanced (p.polled codecs t elapsed) := (hb.before_update_flush t elapsed).flush.1
      rw [← hq]
      exact mem_handle_pmtu hpolled hc
    · rw [hnone] at hgenerated
      cases hgenerated
  | _ => cases hc

/-! ## Runs -/

variable {steps : List (Peer × Clocked)}

/-- The outstanding probe is the last one generated. It waits in the queue, or a
step that found it there has sent it. -/
structure Traced (codecs : Codecs) (config : Config) (steps : List (Peer × Clocked)) (p : Peer) : Prop where
  balanced : Balanced p
  settled : Settled config p
  probe : ∀ size token queued, p.pmtu.outstanding = some (size, token, queued) →
    ∃ payload since, LastProbe codecs steps (.PMTUProbe size token payload) since ∧
      (.PMTUProbe size token payload ∈ p.commands ∨
        ∃ y ∈ since, .PMTUProbe size token payload ∈ y.1.commands ∧
          ∃ bytes, .Send bytes ∈ y.2.actions ∧ Includes codecs y.1.config bytes (.PMTUProbe size token payload))

theorem traced_new (codecs : Codecs) (addr : SocketAddr) (config : Config) (time : Instant) (ids : PeerDraw) :
    Traced codecs config [] (.new addr config time ids) := by
  refine ⟨balanced_new addr config time ids, ⟨_, _, rfl⟩, ?_⟩
  intro size token queued h
  cases h

theorem LastProbe.next {since : List (Peer × Clocked)} {x : Peer × Clocked} (h : LastProbe codecs steps c since)
    (hx : x.1.generated codecs x.2.op = none) : LastProbe codecs (steps ++ [x]) c (since ++ [x]) := by
  obtain ⟨earlier, p, e, rfl, hc, hsince⟩ := h
  refine ⟨earlier, p, e, by simp, hc, fun y hy => ?_⟩
  rcases List.mem_append.1 hy with hy | hy
  · exact hsince y hy
  · rw [List.mem_singleton.1 hy]
    exact hx

/-- One step keeps it. -/
theorem Traced.next (h : Traced codecs config steps p) (ht : codecs.Total)
    (hbuffer : config.compression = .Lz4 → config.receive_buffer_max_size ≤ 0x7E000000) {e : Clocked}
    (hp : p.perform codecs e.op = .ok (e.actions, q)) : Traced codecs config (steps ++ [(p, e)]) q := by
  have hbalanced := h.balanced.perform hp
  cases hg : p.generated codecs e.op with
  | some c =>
    -- the new probe is in the queue
    obtain ⟨size, token, payload, t, rfl, hout, hmem, hsettled⟩ := perform_generated h.balanced h.settled hp hg
    refine ⟨hbalanced, hsettled, fun size' token' queued hout' => ?_⟩
    cases hout.symm.trans hout'
    exact ⟨payload, [], ⟨steps, p, e, rfl, hg, by simp⟩, .inl hmem⟩
  | none =>
    have hwatched := Watched.perform h.settled hp hg
    refine ⟨hbalanced, hwatched.settled, fun size token queued hout => ?_⟩
    have hbefore : p.pmtu.outstanding = some (size, token, queued) := by
      rcases hwatched.outstanding with hsame | hnone
      · exact hsame.symm.trans hout
      · cases hout.symm.trans hnone
    obtain ⟨payload, since, hlast, hwaits | ⟨y, hy, hsent⟩⟩ := h.probe size token queued hbefore
    · refine ⟨payload, since ++ [(p, e)], hlast.next hg, ?_⟩
      rcases perform_keeps_or_sends h.balanced h.settled ht hbuffer hp hwaits with hkept | hsent
      · exact .inl hkept
      · exact .inr ⟨(p, e), List.mem_append_right _ (List.mem_singleton_self _), hwaits, hsent⟩
    · exact ⟨payload, since ++ [(p, e)], hlast.next hg, .inr ⟨y, List.mem_append_left _ hy, hsent⟩⟩

/-- An update clears the outstanding probe only if its timer has run out. -/
theorem expired_of_cleared {t : Instant} {elapsed : Duration} {draw : ProbeDraw} {size : UInt16} {token : UInt32}
    {queued : Instant} (hout : p.pmtu.outstanding = some (size, token, queued))
    (hcleared : (p.update codecs t elapsed draw).2.pmtu.outstanding = none) : probe_timeout p.rto < t - queued := by
  rw [update_pmtu, (polled_same codecs p t elapsed).2.2] at hcleared
  rcases p.pmtu.handle_pmtu_outstanding t p.rto draw with ⟨size', payload, -, hnew⟩ | ⟨-, hsame | ⟨-, hexpired⟩⟩
  · cases hcleared.symm.trans hnew
  · cases hcleared.symm.trans (hsame.trans hout)
  · obtain ⟨probe, hprobe, hlate⟩ := hexpired
    cases hout.symm.trans hprobe
    exact hlate

theorem probe_timeout_pos (rto : Duration) : 0 < probe_timeout rto :=
  lt_of_lt_of_le (by decide : 0 < from_millis 200) (le_max_right _ _)

/-- As long as no call within the timeout before has found it in the queue, a
probe is given up no sooner than the timeout after it was sent. -/
theorem probe_given_up_late (ht : codecs.Total) (addr : SocketAddr) (config : Config) (time : Instant) (ids : PeerDraw)
    (hbuffer : config.compression = .Lz4 → config.receive_buffer_max_size ≤ 0x7E000000)
    (h : ClockedRun codecs (.new addr config time ids) steps q) (hcleared : AtEach Cleared steps) :
    AtEach (Timely codecs) steps := by
  suffices hall : Traced codecs config steps q ∧ AtEach (Timely codecs) steps from hall.2
  induction h with
  | start => exact ⟨traced_new codecs addr config time ids, atEach_nil _⟩
  | @next steps p e q _ hs ih =>
    obtain ⟨hbefore, hstep⟩ := atEach_snoc.1 hcleared
    obtain ⟨htraced, htimely⟩ := ih hbefore
    obtain ⟨hat, hp, rfl⟩ := hs
    refine ⟨htraced.next ht hbuffer hp, atEach_snoc.2 ⟨htimely, ?_⟩⟩
    intro t elapsed draw size token queued hop hout hnone
    have hafter : (p.update codecs t elapsed draw).2 = e.after := by
      rw [hop] at hp
      exact congrArg Prod.snd (Except.ok.inj hp)
    rw [← hafter] at hnone
    have hclear := hstep t elapsed draw size token queued hop hout (expired_of_cleared hout hnone)
    obtain ⟨payload, since, hlast, hwaits | ⟨y, hy, hfound, bytes, hsend, hincludes⟩⟩ :=
      htraced.probe size token queued hout
    · -- it cannot be in the queue still
      have hnow : e.time + probe_timeout p.rto ≤ t :=
        hclear (p, e) (List.mem_append_right _ (List.mem_singleton_self _)) payload hwaits
      have htime : t = e.time := by
        rw [hop] at hat
        exact hat
      rw [← htime] at hnow
      exact absurd hnow (Nat.not_le.2 (Nat.lt_add_of_pos_right (probe_timeout_pos p.rto)))
    · obtain ⟨earlier, p₀, e₀, hsteps, -, -⟩ := id hlast
      have hmem : y ∈ steps := by
        rw [hsteps]
        exact List.mem_append_right _ (List.mem_cons_of_mem _ hy)
      refine ⟨payload, since, hlast, y, hy, bytes, hsend, hincludes, ?_⟩
      rw [(polled_same codecs p t elapsed).2.2]
      exact hclear y (List.mem_append_left _ hmem) payload hfound

/-- An update of a peer. -/
def poll (p : Peer) (t : Instant) : Clocked where
  time := t
  op := .update t 0 ⟨7, fun _ => 0⟩
  actions := (p.update .checked t 0 ⟨7, fun _ => 0⟩).1
  after := (p.update .checked t 0 ⟨7, fun _ => 0⟩).2

theorem poll_step {start : Peer} (h : ClockedRun .checked start steps p) (t : Instant) :
    ClockedRun .checked start (steps ++ [(p, p.poll t)]) (p.poll t).after :=
  .next h ⟨rfl, rfl, rfl⟩

theorem poll_pmtu (p : Peer) (t : Instant) :
    (p.poll t).after.pmtu = (p.pmtu.handle_pmtu t p.rto ⟨7, fun _ => 0⟩).2 := by
  rw [← (polled_same .checked p t 0).2.2]
  exact update_pmtu .checked p t 0 ⟨7, fun _ => 0⟩

/-- A new peer with the default configuration. -/
def new_prober : Peer := .new ⟨.V4 0, 0⟩ Config.default 0 ⟨7, 0, 0⟩

/-- After ten seconds it queues a probe. -/
def probing_peer : Peer := (new_prober.poll 10000000000).after

theorem probing_peer_run :
    ClockedRun .checked new_prober [(new_prober, new_prober.poll 10000000000)] probing_peer :=
  poll_step .start 10000000000

theorem probing_peer_outstanding : probing_peer.pmtu.outstanding = some (988, 7, 10000000000) := by
  rw [probing_peer, poll_pmtu]
  decide +kernel

/-- An update at the same time sends it. -/
def probed_peer : Peer := (probing_peer.poll 10000000000).after

theorem probed_peer_outstanding : probed_peer.pmtu.outstanding = some (988, 7, 10000000000) := by
  rw [probed_peer, poll_pmtu, probing_peer, poll_pmtu]
  decide +kernel

/-- Two seconds later it is given up, in time. -/
theorem probe_given_up_late_sent :
    ∃ steps q, ClockedRun .checked new_prober (steps ++ [(probed_peer, probed_peer.poll 12000000000)]) q ∧
      probed_peer.pmtu.outstanding = some (988, 7, 10000000000) ∧ q.pmtu.outstanding = none ∧
      AtEach (Timely .checked) (steps ++ [(probed_peer, probed_peer.poll 12000000000)]) := by
  have hrun : ClockedRun .checked new_prober ([] ++ [(new_prober, new_prober.poll 10000000000)] ++
      [(probing_peer, probing_peer.poll 10000000000)]) probed_peer := poll_step probing_peer_run 10000000000
  have hgiven := poll_step hrun 12000000000
  refine ⟨_, _, hgiven, probed_peer_outstanding, ?_,
    probe_given_up_late Codecs.checked_total _ Config.default _ _ (by decide) hgiven ?_⟩
  · rw [poll_pmtu, probed_peer, poll_pmtu, probing_peer, poll_pmtu]
    decide +kernel
  refine atEach_snoc.2 ⟨atEach_snoc.2 ⟨atEach_snoc.2 ⟨atEach_nil _, ?_⟩, ?_⟩, ?_⟩
  · intro t elapsed draw size token queued hop hout
    cases hout
  · -- the timer has only just started
    intro t elapsed draw size token queued hop hout hlate
    cases hop
    cases probing_peer_outstanding.symm.trans hout
    rw [Nat.sub_self] at hlate
    cases hlate
  · intro t elapsed draw size token queued hop hout _ y hy payload hmem
    cases hop
    have hnew : new_prober.commands = [] := rfl
    have hempty : probed_peer.commands = [] := List.isEmpty_iff.1 (by decide +kernel)
    simp only [List.nil_append, List.cons_append, List.mem_cons, List.not_mem_nil, or_false] at hy
    rcases hy with rfl | rfl | rfl
    · dsimp only at hmem
      rw [hnew] at hmem
      cases hmem
    · decide +kernel
    · dsimp only at hmem
      rw [hempty] at hmem
      cases hmem

/-- The next update, two seconds later, sends the probe and gives it up. -/
theorem given_up_as_sent : ∃ steps q, ClockedRun .checked new_prober steps q ∧
    (steps.map fun x => x.2.time).Pairwise (· ≤ ·) ∧ ¬ AtEach (Timely .checked) steps := by
  refine ⟨_, _, poll_step probing_peer_run 12000000000, by simp [poll], fun h => ?_⟩
  have hnone : (probing_peer.poll 12000000000).after.pmtu.outstanding = none := by
    rw [poll_pmtu]
    decide +kernel
  have htimely := (atEach_snoc.1 h).2
  unfold Timely at htimely
  dsimp only at htimely
  -- no step lies between the two
  obtain ⟨payload, since, ⟨earlier, p, e, hsteps, -, -⟩, y, hy, -⟩ :=
    htimely _ _ _ _ _ _ rfl probing_peer_outstanding hnone
  have hlen := congrArg List.length hsteps
  have hpos := List.length_pos_of_mem hy
  simp only [List.length_cons, List.length_nil, List.length_append] at hlen
  omega

end Peer

end Bitfold
