import Amqpgram.Fuzzer.Handover
import Amqpgram.Fuzzer.Bounds
import Amqpgram.Fuzzer.Listener

/-! One call of `fuzz`: the main thread in `check_strat`, the listener and the thread of
channel 0. They share `current_state`, `is_running`, the slot and the packet count;
the main thread writes none of them. -/
namespace Amqpgram

/-- `get_current_time` and `get_packet_count`. -/
inductive StratUpdate where
  | currentTime
  | packetCount
  deriving DecidableEq, Repr

/-- Where the main thread is: at the two steps of `create_channel_thread`, at the two parts
of the guard, at the test in the body, or in `close_threads`. -/
inductive MainControl where
  | creating
  | registering
  | reading
  | guarding
  | testing
  | joiningListener
  | joiningChannels
  | returned
  deriving DecidableEq, Repr

inductive ListenerControl where
  | created
  | polling
  | left
  | cancelled
  | exited
  deriving DecidableEq, Repr

/-- The thread holds its mutex from the decision to the settling, and sends with the value of
`is_running` that it has read. A decision is late when it was begun after `check_strat` had
seen its value. -/
inductive ChannelControl where
  | uncreated
  | waiting
  | deciding (late : Bool)
  | decided (late : Bool) (decision : Decision)
  | sending (late : Bool) (decision : Decision) (running : Bool)
  | settling (outcome : Outcome)
  | testing
  | exited
  deriving DecidableEq

/-- The shared variables and the three threads. `inProgress` and `late` are the packets
sent after the value was observed, by a decision begun before and after that. -/
structure Session where
  main : MainControl
  listener : ListenerControl
  channel : ChannelControl
  thread : Thread
  slot : Option PacketStruct
  isRunning : Bool
  maxCreatedThreads : Nat
  cancelRequested : Bool
  currentTime : Int
  packetCount : Int
  observed : Bool
  inProgress : List Decoded
  late : List Decoded

/-- `fuzz` has set `is_running` and created the listener. -/
def Session.start (time count : Int) : Session :=
  ⟨.creating, .created, .uncreated, Thread.start, none, true, 0, false, time, count, false, [], []⟩

def StratUpdate.value : StratUpdate → Session → Int
  | .currentTime, s => s.currentTime
  | .packetCount, s => s.packetCount

/-- The return of `packet_decider`. -/
def Session.afterSend (s : Session) (late : Bool) (outcome : Outcome) : Session :=
  { s with
    channel := .settling outcome
    packetCount := s.packetCount + outcome.sent.toList.length
    inProgress := if s.observed ∧ late = false then s.inProgress ++ outcome.sent.toList
      else s.inProgress
    late := if late then s.late ++ outcome.sent.toList else s.late }

inductive Session.Step (f : Fuzzer) (packetChaos : Int) (stratupdate : StratUpdate)
    (stratval : Int) : Session → Session → Prop where
  | create (s : Session) (creating : s.main = .creating) :
      Session.Step f packetChaos stratupdate stratval s
        { s with main := .registering, channel := .waiting, slot := none }
  | register (s : Session) (registering : s.main = .registering) :
      Session.Step f packetChaos stratupdate stratval s
        { s with main := .reading, maxCreatedThreads := createdThreads }
  | tick (s : Session) (now : Int) (later : s.currentTime ≤ now) :
      Session.Step f packetChaos stratupdate stratval s { s with currentTime := now }
  | reached (s : Session) (reading : s.main = .reading) (value : stratval ≤ stratupdate.value s) :
      Session.Step f packetChaos stratupdate stratval s
        { s with main := .joiningListener, observed := true }
  | below (s : Session) (reading : s.main = .reading) (value : stratupdate.value s < stratval) :
      Session.Step f packetChaos stratupdate stratval s { s with main := .guarding }
  | guard (s : Session) (guarding : s.main = .guarding) :
      Session.Step f packetChaos stratupdate stratval s
        { s with main := if s.isRunning then .testing else .joiningListener }
  | body (s : Session) (testing : s.main = .testing) :
      Session.Step f packetChaos stratupdate stratval s
        { s with main := if s.isRunning then .reading else .joiningListener }
  | joinListener (s : Session) (joining : s.main = .joiningListener)
      (exited : s.listener = .exited) :
      Session.Step f packetChaos stratupdate stratval s { s with main := .joiningChannels }
  | joinChannel (s : Session) (joining : s.main = .joiningChannels) (exited : s.channel = .exited) :
      Session.Step f packetChaos stratupdate stratval s { s with main := .returned }
  | listen (s : Session) (created : s.listener = .created) :
      Session.Step f packetChaos stratupdate stratval s
        { s with listener := .polling, isRunning := true }
  -- the peer can have put anything into the buffer; a slot that is filled before
  -- `create_channel_thread` is that of the last call, if there was one
  | publish (s : Session) (recvline : List UInt8) (packet : PacketStruct)
      (polling : s.listener = .polling) (full : recvline.length = maxLine + 1)
      (broken : breakPacket (bufferMemory recvline) = .ok packet) (typed : packet.type ≠ .none)
      (channel : packet.channel = 0) (unlocked : s.channel = .uncreated ∨ s.channel = .waiting ∨
        s.channel = .testing ∨ s.channel = .exited) :
      Session.Step f packetChaos stratupdate stratval s { s with slot := some packet }
  -- the connection is closed, or poll or recv failed, or ten polls were missed
  | leave (s : Session) (polling : s.listener = .polling) :
      Session.Step f packetChaos stratupdate stratval s { s with listener := .left }
  | cancel (s : Session) (left : s.listener = .left) :
      Session.Step f packetChaos stratupdate stratval s
        { s with listener := .cancelled, cancelRequested := decide (0 < s.maxCreatedThreads) }
  | stop (s : Session) (cancelled : s.listener = .cancelled) :
      Session.Step f packetChaos stratupdate stratval s
        { s with listener := .exited, isRunning := false }
  | begin (s : Session) (waiting : s.channel = .waiting) (ready : s.thread.Ready s.slot) :
      Session.Step f packetChaos stratupdate stratval s { s with channel := .deciding s.observed }
  | decide (s : Session) (late : Bool) (heap : Memory) (decision : Decision)
      (deciding : s.channel = .deciding late)
      (decides : Decides f packetChaos heap s.slot s.thread decision) :
      Session.Step f packetChaos stratupdate stratval s
        { s with channel := .decided late decision }
  | check (s : Session) (late : Bool) (decision : Decision)
      (decided : s.channel = .decided late decision) :
      Session.Step f packetChaos stratupdate stratval s
        { s with channel := .sending late decision s.isRunning }
  | send (s : Session) (late : Bool) (decision : Decision) (c : Circumstances)
      (outcome : Outcome) (sending : s.channel = .sending late decision c.isRunning)
      (delivered : deliver c decision = .ok outcome) :
      Session.Step f packetChaos stratupdate stratval s (s.afterSend late outcome)
  | settle (s : Session) (outcome : Outcome) (settling : s.channel = .settling outcome) :
      Session.Step f packetChaos stratupdate stratval s
        { s with channel := .testing, thread := s.thread.after outcome, slot := none }
  | testCancel (s : Session) (testing : s.channel = .testing) :
      Session.Step f packetChaos stratupdate stratval s
        { s with channel := if s.cancelRequested then .exited else .waiting }
  -- the guard of the loop fails, or the wait for a response is cancelled
  | exit (s : Session) (waiting : s.channel = .waiting)
      (done : s.thread.currentState = .connectionClosed ∨ s.cancelRequested = true) :
      Session.Step f packetChaos stratupdate stratval s { s with channel := .exited }

section
variable (f : Fuzzer) (packetChaos : Int) (stratupdate : StratUpdate) (stratval time count : Int)

def session : TransitionSystem Session :=
  ⟨Session.start time count, Session.Step f packetChaos stratupdate stratval⟩

end

/-- What a prompt stop sends after the observation: a packet of the decision that was in
progress, if any, and none of a later one. -/
structure Session.Stops (s : Session) : Prop where
  inProgress : s.inProgress.length ≤ 1
  late : s.late = []

/-- A late decision that has a packet to send reads `is_running` only after the listener
has ended. -/
def ListenerEnded (_ s' : Session) : Prop :=
  ∀ decision running, s'.channel = .sending true decision running →
    decision.sentPacket.pointer ≠ none → running = false

/-- Whether the decision that is in progress is late. -/
def ChannelControl.progress : ChannelControl → Option Bool
  | .deciding late => some late
  | .decided late _ => some late
  | .sending late _ _ => some late
  | _ => none

section
variable {f : Fuzzer} {packetChaos : Int} {stratupdate : StratUpdate} {stratval time count : Int}
variable {s s' : Session}

/-- A step that neither begins nor ends a decision. -/
structure Quiet (s s' : Session) : Prop where
  channel : s'.channel.progress = s.channel.progress ∨ s'.channel.progress = none
  observed : s'.observed = s.observed ∨ s'.observed = true
  inProgress : s'.inProgress = s.inProgress
  late : s'.late = s.late

theorem Session.Step.cases (step : Session.Step f packetChaos stratupdate stratval s s') :
    Quiet s s' ∨ s' = { s with channel := .deciding s.observed } ∨
      ∃ late decision c outcome, s.channel = .sending late decision c.isRunning ∧
        deliver c decision = .ok outcome ∧ s' = s.afterSend late outcome := by
  cases step with
  | begin waiting ready => exact .inr (.inl rfl)
  | send late decision c outcome sending delivered =>
    exact .inr (.inr ⟨late, decision, c, outcome, sending, delivered, rfl⟩)
  | create creating => exact .inl ⟨.inr rfl, .inl rfl, rfl, rfl⟩
  | reached reading value => exact .inl ⟨.inl rfl, .inr rfl, rfl, rfl⟩
  | decide late heap decision deciding decides =>
    refine .inl ⟨.inl ?_, .inl rfl, rfl, rfl⟩
    rw [deciding]
    rfl
  | check late decision decided =>
    refine .inl ⟨.inl ?_, .inl rfl, rfl, rfl⟩
    rw [decided]
    rfl
  | settle outcome settling => exact .inl ⟨.inr rfl, .inl rfl, rfl, rfl⟩
  | testCancel testing =>
    refine .inl ⟨.inr ?_, .inl rfl, rfl, rfl⟩
    dsimp only
    split <;> rfl
  | exit waiting done => exact .inl ⟨.inr rfl, .inl rfl, rfl, rfl⟩
  | _ => exact .inl ⟨.inl rfl, .inl rfl, rfl, rfl⟩

/-! ### The decision in progress -/

/-- Before the observation nothing is counted, and a decision begun before it is counted
when it ends. -/
structure Session.OneInProgress (s : Session) : Prop where
  before : s.observed = false → s.inProgress = []
  pending : s.channel.progress = some false → s.inProgress = []
  once : s.inProgress.length ≤ 1

theorem Session.OneInProgress.quiet (one : s.OneInProgress) (quiet : Quiet s s') :
    s'.OneInProgress := by
  constructor
  · intro unseen
    rw [quiet.inProgress]
    rcases quiet.observed with same | seen
    · exact one.before (same ▸ unseen)
    · rw [seen] at unseen
      cases unseen
  · intro early
    rw [quiet.inProgress]
    rcases quiet.channel with same | none
    · exact one.pending (same ▸ early)
    · cases none.symm.trans early
  · rw [quiet.inProgress]
    exact one.once

theorem Session.OneInProgress.send {late : Bool} (one : s.OneInProgress)
    (sending : s.channel.progress = some late) (outcome : Outcome) :
    (s.afterSend late outcome).OneInProgress := by
  have single : outcome.sent.toList.length ≤ 1 := by cases outcome.sent <;> simp
  constructor
  · intro unseen
    have same : s.observed = false := unseen
    simp [Session.afterSend, same, one.before same]
  · intro other
    cases other
  · cases late with
    | true => simpa [Session.afterSend] using one.once
    | false =>
      have empty := one.pending sending
      by_cases seen : s.observed = true
      · simp only [Session.afterSend, seen, empty, and_self, if_true, List.nil_append]
        exact single
      · simp [Session.afterSend, seen, empty]

theorem session_oneInProgress
    (reach : (session f packetChaos stratupdate stratval time count).Reachable s) :
    s.OneInProgress := by
  apply reach.invariant
  · exact ⟨fun _ => rfl, fun _ => rfl, by simp [session, Session.start]⟩
  · intro s s' _ one step
    rcases step.cases with quiet | rfl | ⟨late, decision, c, outcome, sending, _, rfl⟩
    · exact one.quiet quiet
    · refine ⟨one.before, ?_, one.once⟩
      intro early
      exact one.before (Option.some.inj early)
    · exact one.send (by rw [sending]; rfl) outcome

/-! ### Late decisions -/

theorem deliver_unsent {c : Circumstances} {decision : Decision} {outcome : Outcome}
    (delivered : deliver c decision = .ok outcome)
    (ended : decision.sentPacket.pointer ≠ none → c.isRunning = false) : outcome.sent = none := by
  obtain ⟨_, rfl⟩ := deliver_eq_ok.mp delivered
  unfold Decision.outcome
  split
  · rfl
  · rename_i packet named
    rw [if_neg (by simp [ended (by simp [named])])]

theorem late_ended (late : s.late = [])
    (ended : ∀ decision running, s.channel = .sending true decision running →
      decision.sentPacket.pointer ≠ none → running = false)
    (step : Session.Step f packetChaos stratupdate stratval s s') : s'.late = [] := by
  rcases step.cases with quiet | rfl | ⟨lateDecision, decision, c, outcome, sending, delivered, rfl⟩
  · rw [quiet.late]
    exact late
  · exact late
  · cases lateDecision with
    | false => exact late
    | true =>
      have unsent := deliver_unsent delivered (ended decision c.isRunning sending)
      simp [Session.afterSend, late, unsent]

/-- The stop is prompt in every run in which late decisions find the listener ended. -/
theorem checkStrat_stops (f : Fuzzer) (packetChaos : Int) (stratupdate : StratUpdate)
    (stratval time count : Int) (s : Session)
    (reach : ((session f packetChaos stratupdate stratval time count).restrict
      ListenerEnded).Reachable s) : s.Stops := by
  refine ⟨(session_oneInProgress reach.of_restrict).once, ?_⟩
  have held : s.late = [] ∧ ListenerEnded s s := by
    apply reach.invariant (p := fun s => s.late = [] ∧ ListenerEnded s s)
    · exact ⟨rfl, fun _ _ other => by cases other⟩
    · rintro s s' _ ⟨late, ended⟩ ⟨step, ends⟩
      exact ⟨late_ended late ended step, ends⟩
  exact held.1

/-! ### Whole turns -/

def Session.turn (s : Session) (outcome : Outcome) : Session :=
  { s.afterSend s.observed outcome with
    channel := .waiting
    thread := s.thread.after outcome
    slot := none }

theorem session_turn {c : Circumstances} {outcome : Outcome}
    (reach : (session f packetChaos stratupdate stratval time count).Reachable s)
    (waiting : s.channel = .waiting) (kept : s.cancelRequested = false)
    (turn : Turn f packetChaos c s.slot s.thread outcome) (running : c.isRunning = s.isRunning) :
    (session f packetChaos stratupdate stratval time count).Reachable (s.turn outcome) := by
  obtain ⟨decision, decides, delivered⟩ := turn_iff.mp turn
  have begun := reach.next (.begin s waiting turn.ready)
  have decided := begun.next (.decide _ s.observed c.heap decision rfl decides)
  have checked := decided.next (.check _ s.observed decision rfl)
  have sent := checked.next
    (.send _ s.observed decision c outcome (by rw [running]) delivered)
  have settled := sent.next (.settle _ outcome rfl)
  have tested := settled.next (.testCancel _ rfl)
  simpa [Session.afterSend, Session.turn, kept] using tested

end

theorem startBroken :
    breakPacket (bufferMemory (zeroed (encodeFrame 1 0 (encodeMethod 10 10 [])))) =
      .ok startPacket :=
  breakPacket_method (by decide) (by decide) (by decide) (by decide) (by decide)

theorem tuneBroken : breakPacket (bufferMemory (zeroed (encodeFrame 1 0
    (encodeMethod 10 30 [7, 255, 0, 2, 0, 0, 0, 60])))) = .ok tuneOffer :=
  breakPacket_method (by decide) (by decide) (by decide) (by decide) (by decide)

theorem pointer_of_sent {c : Circumstances} {decision : Decision} {d : Decoded}
    (sent : (decision.outcome c).sent = some d) : decision.sentPacket.pointer = some d := by
  unfold Decision.outcome at sent
  split at sent
  · cases sent
  · rename_i packet named
    split at sent
    · rw [named, ← sent]
    · cases sent

/-- The value is observed while the header is being sent, and the connection is lost while
the Start-Ok is generated. -/
theorem checkStrat_stops_ended : ∃ (s : Session) (decision : Decision), s.observed = true ∧
    s.inProgress = [⟨[65, 77, 81, 80, 0, 0, 9, 1], 8⟩] ∧
    s.channel = .sending true decision false ∧
    decision.sentPacket.pointer = some startOkSent ∧ s.Stops := by
  obtain ⟨header, headerDecides, headerDelivered⟩ := turn_iff.mp shipped_greets
  obtain ⟨startOk, startOkDecides, startOkDelivered⟩ := turn_iff.mp shipped_starts
  have start : ((session (shipped 20) 0 .packetCount 0 0 0).restrict ListenerEnded).Reachable
      (Session.start 0 0) := TransitionSystem.Reachable.start
  have created := start.next ⟨.create _ rfl, fun _ _ late => by cases late⟩
  have listening := created.next ⟨.listen _ rfl, fun _ _ late => by cases late⟩
  have begun := listening.next ⟨.begin _ rfl shipped_greets.ready, fun _ _ late => by cases late⟩
  have registered := begun.next ⟨.register _ rfl, fun _ _ late => by cases late⟩
  have observed := registered.next ⟨.reached _ rfl (by decide), fun _ _ late => by cases late⟩
  have decided := observed.next
    ⟨.decide _ false _ header rfl headerDecides, fun _ _ late => by cases late⟩
  have checked := decided.next ⟨.check _ false header rfl, fun _ _ late => by cases late⟩
  have sent := checked.next
    ⟨.send _ false header _ _ rfl headerDelivered, fun _ _ late => by cases late⟩
  have settled := sent.next ⟨.settle _ _ rfl, fun _ _ late => by cases late⟩
  have tested := settled.next ⟨.testCancel _ rfl, fun _ _ late => by cases late⟩
  have published := tested.next
    ⟨.publish _ _ startPacket rfl (length_zeroed (by decide)) startBroken (by decide) rfl
      (.inr (.inl rfl)), fun _ _ late => by cases late⟩
  have again := published.next ⟨.begin _ rfl shipped_starts.ready, fun _ _ late => by cases late⟩
  have left := again.next ⟨.leave _ rfl, fun _ _ late => by cases late⟩
  have cancelled := left.next ⟨.cancel _ rfl, fun _ _ late => by cases late⟩
  have stopped := cancelled.next ⟨.stop _ rfl, fun _ _ late => by cases late⟩
  have generated := stopped.next
    ⟨.decide _ true _ startOk rfl startOkDecides, fun _ _ late => by cases late⟩
  have found := generated.next
    ⟨.check _ true startOk rfl, fun _ _ late _ => by cases late; rfl⟩
  refine ⟨_, startOk, rfl, rfl, rfl, ?_, checkStrat_stops (shipped 20) 0 .packetCount 0 0 0 _ found⟩
  exact pointer_of_sent (congrArg Outcome.sent (deliver_eq_ok.mp startOkDelivered).2)

/-- One packet is to be sent. The value is observed after the header, and the client
still answers a Start and a Tune. -/
theorem two_late_packets : ∃ s,
    (session (shipped 20) 0 .packetCount 1 0 0).Reachable s ∧ s.observed = true ∧
      s.inProgress = [] ∧ s.late = [startOkSent, tuneOkSent] ∧ ¬ s.Stops := by
  have start : (session (shipped 20) 0 .packetCount 1 0 0).Reachable (Session.start 0 0) :=
    TransitionSystem.Reachable.start
  have polling := start.next (.listen _ rfl)
  have created := (polling.next (.create _ rfl)).next (.register _ rfl)
  have greeted := session_turn created rfl rfl shipped_greets rfl
  have observed := greeted.next (.reached _ rfl (by decide))
  have first := observed.next (.publish _ _ startPacket rfl (length_zeroed (by decide)) startBroken
    (by decide) rfl (.inr (.inl rfl)))
  have answered := session_turn first rfl rfl shipped_starts rfl
  have second := answered.next (.publish _ _ tuneOffer rfl (length_zeroed (by decide)) tuneBroken
    (by decide) rfl (.inr (.inl rfl)))
  have tuned := session_turn second rfl rfl shipped_tunes rfl
  refine ⟨_, tuned, rfl, rfl, rfl, ?_⟩
  intro stops
  have late := stops.late
  cases late

end Amqpgram
