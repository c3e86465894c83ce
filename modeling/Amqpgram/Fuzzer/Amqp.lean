import Amqpgram.Fuzzer.Connection

/-! AMQP.c: the deciders of channel 0 and one turn of its thread. A turn depends
on circumstances outside the program's text: what an unassigned `sent_packet`
holds, what lies behind a short argument array, whether the listener still runs
and whether `send` writes all bytes. -/
namespace Amqpgram

/-- What `sent_packet` holds when a decider returns it. -/
inductive SentPacket where
  | unassigned
  | null
  | buffer (packet : Decoded)
  deriving DecidableEq, Repr

structure Decision where
  sentPacket : SentPacket
  nextState : State
  responseExpected : Bool
  deriving DecidableEq, Repr

def Reply.decision (reply : Reply) : Decision :=
  ⟨match reply.sentPacket with
    | some packet => .buffer packet
    | none => .null, reply.nextState, reply.responseExpected⟩

def amqpHeader (f : Fuzzer) : Gen Reply := do
  let packet ← decodeRule f.fuel (cstr "amqp") f.protocolEnv
  pure ⟨some packet, .connectionStart, true⟩

/-- IMPLEMENTED_MESSAGES is 6; Tune-Ok is generated without method data. -/
def chaoticMessage (f : Fuzzer) (heap : Memory) (roll : Int) : Gen Reply :=
  match roll with
  | 0 => amqpHeader f
  | 1 => connectionStartOk f
  | 2 => connectionTuneOk f heap none
  | 3 => connectionOpen f
  | 4 => connectionClose f
  | _ => connectionCloseOk f

def chaoticPacketDecider (f : Fuzzer) (heap : Memory) : Gen Decision := do
  let roll ← randMod 6
  let reply ← chaoticMessage f heap roll
  pure reply.decision

/-- The dispatch over state, presence, type and class. A path that assigns
neither `sent_packet` nor `next_state` returns the local as it is. -/
def orderedPacketDecider (f : Fuzzer) (heap : Memory) (packet : Option PacketStruct)
    (currentState : State) (responseExpected : Bool) : Act Decision :=
  if packet.any fun p => p.type = .protocolHeader then pure ⟨.null, .none, false⟩
  else if currentState = .none then
    Reply.decision <$> (amqpHeader f).mapError .fault
  else
    match packet with
    | none =>
      if currentState = .connectionTune ∨ currentState = .connectionTuned ∨
          currentState = .connected ∨ currentState = .connectionClose then
        Reply.decision <$> connectionPacketDecider f heap none currentState responseExpected
      else pure ⟨.unassigned, currentState, responseExpected⟩
    | some packet =>
      if packet.type = .none then pure ⟨.null, currentState, responseExpected⟩
      else
        match packet.methodPayload with
        | some methodPayload =>
          if methodPayload.classId = classConnection then
            Reply.decision <$>
              connectionPacketDecider f heap (some methodPayload) currentState responseExpected
          else pure ⟨.unassigned, currentState, responseExpected⟩
        | none => pure ⟨.unassigned, currentState, responseExpected⟩

/-- What a turn of the thread finds outside the program; `junk` says that an unassigned
`sent_packet` is not NULL. -/
structure Circumstances where
  heap : Memory
  junk : Bool
  isRunning : Bool
  delivered : Bool

/-- The state and flag after `packet_decider`, and the packet it sent. -/
structure Outcome where
  nextState : State
  responseExpected : Bool
  sent : Option Decoded
  deriving DecidableEq, Repr

def SentPacket.pointer : SentPacket → Option Decoded
  | .buffer packet => some packet
  | _ => none

/-- The test of `is_running` and `send` for a packet that is not NULL. -/
def Decision.outcome (c : Circumstances) (decision : Decision) : Outcome :=
  match decision.sentPacket.pointer with
  | none => ⟨decision.nextState, decision.responseExpected, none⟩
  | some packet =>
    if c.isRunning ∧ c.delivered then
      ⟨decision.nextState, decision.responseExpected, some packet⟩
    else ⟨.connectionClosed, false, none⟩

/-- A pointer that was never assigned is freed, by `send_packet` or in its place. -/
def deliver (c : Circumstances) (decision : Decision) : Except Crash Outcome :=
  if decision.sentPacket = .unassigned ∧ c.junk then .error .strayPointer
  else .ok (decision.outcome c)

def rolledDecider (f : Fuzzer) (packetChaos : Int) (heap : Memory)
    (packet : Option PacketStruct) (currentState : State) (responseExpected : Bool) (roll : Int) :
    Act Decision :=
  if roll ≥ packetChaos then orderedPacketDecider f heap packet currentState responseExpected
  else (chaoticPacketDecider f heap).mapError .fault

def decidePacket (f : Fuzzer) (packetChaos : Int) (heap : Memory) (packet : Option PacketStruct)
    (currentState : State) (responseExpected : Bool) : Act Decision := do
  let drawn ← (randMod 4).mapError .fault
  rolledDecider f packetChaos heap packet currentState responseExpected (drawn + 1)

def packetDecider (f : Fuzzer) (packetChaos : Int) (c : Circumstances)
    (packet : Option PacketStruct) (currentState : State) (responseExpected : Bool) :
    Act Outcome := do
  let decision ← decidePacket f packetChaos c.heap packet currentState responseExpected
  .ofExcept (deliver c decision)

/-- `current_state` and `waiting_response`. -/
structure Thread where
  currentState : State
  waitingResponse : Bool
  deriving DecidableEq, Repr

def Thread.start : Thread := ⟨.none, false⟩

/-- The thread takes a turn: it has a packet or waits for none. -/
def Thread.Ready (t : Thread) (packet : Option PacketStruct) : Prop :=
  t.currentState ≠ .connectionClosed ∧ (packet = none → t.waitingResponse = false)

def Thread.after (t : Thread) (outcome : Outcome) : Thread :=
  ⟨if outcome.nextState = .noop then t.currentState else outcome.nextState,
    outcome.responseExpected⟩

/-- The first half of a turn, up to the pointer that is to be sent. -/
structure Decides (f : Fuzzer) (packetChaos : Int) (heap : Memory) (packet : Option PacketStruct)
    (t : Thread) (decision : Decision) : Prop where
  ready : t.Ready packet
  returns : ∃ draws rest, (decidePacket f packetChaos heap packet t.currentState
    t.waitingResponse).run draws = .ok (decision, rest)

/-- A turn of `AMQP_channel_thread` that returns from `packet_decider`. -/
structure Turn (f : Fuzzer) (packetChaos : Int) (c : Circumstances)
    (packet : Option PacketStruct) (t : Thread) (outcome : Outcome) : Prop where
  ready : t.Ready packet
  returns : ∃ draws rest, (packetDecider f packetChaos c packet t.currentState
    t.waitingResponse).run draws = .ok (outcome, rest)

theorem deliver_eq_ok {c : Circumstances} {decision : Decision} {outcome : Outcome} :
    deliver c decision = .ok outcome ↔
      (decision.sentPacket = .unassigned → c.junk = false) ∧ decision.outcome c = outcome := by
  unfold deliver
  split
  · rename_i stray
    simp [stray]
  · rename_i named
    rw [not_and, Bool.not_eq_true] at named
    rw [Except.ok.injEq]
    exact ⟨fun same => ⟨named, same⟩, And.right⟩

theorem turn_iff {f : Fuzzer} {packetChaos : Int} {c : Circumstances}
    {packet : Option PacketStruct} {t : Thread} {outcome : Outcome} :
    Turn f packetChaos c packet t outcome ↔
      ∃ decision, Decides f packetChaos c.heap packet t decision ∧
        deliver c decision = .ok outcome := by
  constructor
  · rintro ⟨ready, draws, rest, returned⟩
    obtain ⟨decision, left, decided, delivered⟩ := Sampler.run_bind_ok returned
    exact ⟨decision, ⟨ready, draws, left, decided⟩, (Sampler.run_ofExcept_ok delivered).1⟩
  · rintro ⟨decision, ⟨ready, draws, rest, decided⟩, delivered⟩
    refine ⟨ready, draws, rest, ?_⟩
    rw [packetDecider, Sampler.run_bind_of_run decided, delivered]
    rfl

end Amqpgram
