import Amqpgram.Fuzzer.ChannelThread
import Amqpgram.Library.Mailbox

/-! The hand-over of frames from the listener to the thread of channel 0. Both sides
hold the mutex of the channel over their whole step, so a run is an interleaving of
publishes and turns; seen from outside it is a run of a mailbox. -/
namespace Amqpgram

/-- The slot of channel 0 and its thread, with the frames published before the
connection was closed, those handed to `packet_decider`, and what each of these
publishes found in the slot. -/
structure Channel where
  thread : Thread
  slot : Option PacketStruct
  published : List PacketStruct
  handed : List PacketStruct
  found : List (Option PacketStruct)

def Channel.start : Channel := ⟨Thread.start, none, [], [], []⟩

def Channel.publish (s : Channel) (packet : PacketStruct) : Channel :=
  if s.thread.currentState = .connectionClosed then
    ⟨s.thread, some packet, s.published, s.handed, s.found⟩
  else ⟨s.thread, some packet, s.published ++ [packet], s.handed, s.found ++ [s.slot]⟩

def Channel.consume (s : Channel) (outcome : Outcome) : Channel :=
  ⟨s.thread.after outcome, none, s.published, s.handed ++ s.slot.toList, s.found⟩

inductive Channel.Step (f : Fuzzer) (packetChaos : Int) : Channel → Channel → Prop where
  | publish (s : Channel) (packet : PacketStruct) (typed : packet.type ≠ .none) :
      Channel.Step f packetChaos s (s.publish packet)
  | consume (s : Channel) (c : Circumstances) (outcome : Outcome)
      (turn : Turn f packetChaos c s.slot s.thread outcome) :
      Channel.Step f packetChaos s (s.consume outcome)

def channelSystem (f : Fuzzer) (packetChaos : Int) : TransitionSystem Channel :=
  ⟨Channel.start, Channel.Step f packetChaos⟩

/-- The frame in the slot that the thread is still going to take. -/
def Channel.pending (s : Channel) : Option PacketStruct :=
  if s.thread.currentState = .connectionClosed then none else s.slot

/-- Every frame published has been handed over once, in the order published, but for
one that waits for the next turn. -/
def Channel.Lossless (s : Channel) : Prop := s.handed ++ s.pending.toList = s.published

def Channel.mailbox (s : Channel) : Mailbox PacketStruct :=
  ⟨s.pending, s.published, s.handed, s.found⟩

theorem Channel.mailbox_publish (s : Channel) (packet : PacketStruct) :
    (s.publish packet).mailbox = s.mailbox ∨
      (s.publish packet).mailbox = s.mailbox.publish packet := by
  by_cases closed : s.thread.currentState = .connectionClosed
  · left
    simp only [publish, mailbox, pending, if_pos closed]
  · right
    simp only [publish, mailbox, pending, if_neg closed]
    rfl

theorem Channel.mailbox_consume {s : Channel} {f : Fuzzer} {packetChaos : Int}
    {c : Circumstances} {outcome : Outcome}
    (turn : Turn f packetChaos c s.slot s.thread outcome) :
    (s.consume outcome).mailbox = s.mailbox.take := by
  have taken : s.pending = s.slot := if_neg turn.ready.1
  have cleared : (s.consume outcome).pending = none := by
    unfold pending
    split <;> rfl
  simp only [mailbox, cleared, taken, Mailbox.take]
  rfl

theorem channel_mailbox {f : Fuzzer} {packetChaos : Int} {s : Channel}
    (reach : (channelSystem f packetChaos).Reachable s) :
    (Mailbox.system PacketStruct).Reachable s.mailbox := by
  apply reach.view Channel.mailbox
  · rfl
  · intro s s' _ step
    cases step with
    | publish packet typed =>
      rcases s.mailbox_publish packet with same | published
      · exact .inl same
      · exact .inr (.inl ⟨packet, published⟩)
    | consume c outcome turn => exact .inr (.inr (Channel.mailbox_consume turn))

/-- A run loses no frame exactly when each publish finds the slot empty. -/
theorem handover_lossless_iff (f : Fuzzer) (packetChaos : Int) (s : Channel)
    (reach : (channelSystem f packetChaos).Reachable s) :
    s.Lossless ↔ ∀ slot ∈ s.found, slot = none :=
  Mailbox.lossless_iff (channel_mailbox reach)

/-- Header, Start and Tune: each frame is published behind the turn that took the last. -/
theorem handover_lossless_iff_tuned : ∃ s, (channelSystem (shipped 20) 0).Reachable s ∧
    s.published = [startPacket, tuneOffer] ∧ s.found = [none, none] ∧
    s.thread = ⟨.connectionTuned, false⟩ ∧ s.Lossless := by
  have start : (channelSystem (shipped 20) 0).Reachable Channel.start :=
    TransitionSystem.Reachable.start
  have greeted := start.next (Channel.Step.consume _ _ _ shipped_greets)
  have first := greeted.next (Channel.Step.publish _ startPacket (by decide))
  have started := first.next (Channel.Step.consume _ _ _ shipped_starts)
  have second := started.next (Channel.Step.publish _ tuneOffer (by decide))
  have tuned := second.next (Channel.Step.consume _ _ _ shipped_tunes)
  refine ⟨_, tuned, rfl, rfl, rfl, (handover_lossless_iff (shipped 20) 0 _ tuned).mpr ?_⟩
  intro slot member
  exact List.eq_of_mem_replicate (n := 2) member

/-- Of two frames published before the first turn only the second is handed over. -/
theorem second_publish_overwrites : ∃ s, (channelSystem (shipped 20) 0).Reachable s ∧
    s.published = [startPacket, closePacket] ∧ s.handed = [closePacket] ∧ s.slot = none ∧
    ¬ s.Lossless := by
  have turn : Turn (shipped 20) 0 ⟨fun _ => none, false, true, true⟩ (some closePacket)
      Thread.start ⟨.connectionStart, true, some ⟨[65, 77, 81, 80, 0, 0, 9, 1], 8⟩⟩ := by
    refine ⟨⟨by decide, fun empty => nomatch empty⟩, Stream'.const 0, ?_⟩
    apply Sampler.run_of_map_fst
    decide +kernel
  have start : (channelSystem (shipped 20) 0).Reachable Channel.start :=
    TransitionSystem.Reachable.start
  have first := start.next (Channel.Step.publish _ startPacket (by decide))
  have second := first.next (Channel.Step.publish _ closePacket (by decide))
  have last := second.next (Channel.Step.consume _ _ _ turn)
  refine ⟨_, last, rfl, rfl, rfl, ?_⟩
  intro lossless
  have count := congrArg List.length lossless
  exact absurd count (by decide)

end Amqpgram
