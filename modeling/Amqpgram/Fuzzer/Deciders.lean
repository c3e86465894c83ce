import Amqpgram.Fuzzer.Amqp

/-! What the ordered decider answers, as a table over state and packet. The
generators only fill in the bytes of the message the table names, so that the
protocol of channel 0 can be read off it. -/
namespace Amqpgram

inductive Message where
  | amqpHeader
  | startOk
  | tuneOk
  | connectionOpen
  | close
  | closeOk
  deriving DecidableEq, Repr

def Message.generate (f : Fuzzer) (heap : Memory) (methodData : Option MethodStruct) :
    Message → Gen Reply
  | .amqpHeader => Amqpgram.amqpHeader f
  | .startOk => connectionStartOk f
  | .tuneOk => connectionTuneOk f heap methodData
  | .connectionOpen => Amqpgram.connectionOpen f
  | .close => connectionClose f
  | .closeOk => connectionCloseOk f

/-- The state in which the generator of a message leaves the connection. -/
def Message.next : Message → State
  | .amqpHeader => .connectionStart
  | .startOk => .connectionStart
  | .tuneOk => .connectionTuned
  | .connectionOpen => .connectionOpen
  | .close => .connectionCloseOK
  | .closeOk => .connectionCloseOK

/-- Tune-Ok is the one message that expects no response. -/
def Message.expects : Message → Bool
  | .tuneOk => false
  | _ => true

theorem generate_reply {f : Fuzzer} {heap : Memory} {methodData : Option MethodStruct}
    {m : Message} {reply : Reply} (y : (m.generate f heap methodData).Yields reply) :
    ∃ d, reply = ⟨some d, m.next, m.expects⟩ := by
  cases m with
  | amqpHeader =>
    obtain ⟨d, _, done⟩ := (Sampler.yields_bind ..).mp y
    exact ⟨d, done.symm⟩
  | startOk =>
    obtain ⟨_, _, y⟩ := (Sampler.yields_bind ..).mp y
    obtain ⟨_, _, y⟩ := (Sampler.yields_bind ..).mp y
    obtain ⟨d, _, done⟩ := (Sampler.yields_bind ..).mp y
    exact ⟨d, done.symm⟩
  | tuneOk =>
    obtain ⟨_, _, y⟩ := (Sampler.yields_bind ..).mp y
    obtain ⟨d, _, done⟩ := (Sampler.yields_bind ..).mp y
    exact ⟨d, done.symm⟩
  | connectionOpen | close | closeOk =>
    obtain ⟨d, _, done⟩ := (Sampler.yields_bind ..).mp y
    exact ⟨d, done.symm⟩

/-- What a decider does: it returns the buffer of a message, NULL, or its local as
it is, or it dereferences NULL. -/
inductive Answer where
  | message (m : Message)
  | null (nextState : State) (responseExpected : Bool)
  | unassigned (nextState : State) (responseExpected : Bool)
  | crash
  deriving DecidableEq, Repr

def methodAnswer (methodData : MethodStruct) (responseExpected : Bool) : Answer :=
  match methodData.methodId with
  | 10 => .message .startOk
  | 30 => .message .tuneOk
  | 20 => .null .connected false
  | 41 => .null .connected false
  | 50 => .message .closeOk
  | 51 => .null .connectionClosed false
  | _ => .null .none responseExpected

/-- The answer to no packet in a state other than None. -/
def idleAnswer (currentState : State) (responseExpected : Bool) : Answer :=
  match currentState with
  | .connectionTuned => .message .connectionOpen
  | .connected => .message .close
  | .connectionTune => .crash
  | .connectionClose => .crash
  | _ => .unassigned currentState responseExpected

def packetAnswer (packet : PacketStruct) (currentState : State) (responseExpected : Bool) :
    Answer :=
  if packet.type = .none then .null currentState responseExpected
  else
    match packet.methodPayload with
    | some methodData =>
      if methodData.classId = classConnection then methodAnswer methodData responseExpected
      else .unassigned currentState responseExpected
    | none => .unassigned currentState responseExpected

def orderedAnswer (packet : Option PacketStruct) (currentState : State)
    (responseExpected : Bool) : Answer :=
  if packet.any fun p => p.type = .protocolHeader then .null .none false
  else if currentState = .none then .message .amqpHeader
  else
    match packet with
    | none => idleAnswer currentState responseExpected
    | some packet => packetAnswer packet currentState responseExpected

def Answer.act (f : Fuzzer) (heap : Memory) (methodData : Option MethodStruct) :
    Answer → Act Decision
  | .message m => Reply.decision <$> (m.generate f heap methodData).mapError .fault
  | .null nextState responseExpected => pure ⟨.null, nextState, responseExpected⟩
  | .unassigned nextState responseExpected => pure ⟨.unassigned, nextState, responseExpected⟩
  | .crash => .fail .nullMethodData

section
variable {f : Fuzzer} {heap : Memory}

theorem connectionMethodDecider_eq (methodData : MethodStruct) (flag : Bool)
    (known : methodData.classId = classConnection) :
    Reply.decision <$> (connectionMethodDecider f heap methodData flag).mapError Crash.fault =
      (methodAnswer methodData flag).act f heap (some methodData) := by
  unfold connectionMethodDecider
  rw [if_neg (not_not.mpr known)]
  fun_cases methodAnswer methodData flag
  all_goals
    rename_i method
    simp only [method]
    rfl

theorem packetAnswer_eq (packet : PacketStruct) (state : State) (flag : Bool)
    (other : packet.type ≠ .protocolHeader) (started : state ≠ .none) :
    orderedPacketDecider f heap (some packet) state flag =
      (packetAnswer packet state flag).act f heap packet.methodPayload := by
  unfold orderedPacketDecider packetAnswer
  rw [if_neg (by simpa using other), if_neg started]
  dsimp only
  split
  · rfl
  · cases payload : packet.methodPayload with
    | none => rfl
    | some methodData =>
      dsimp only
      split
      · rename_i known
        exact connectionMethodDecider_eq methodData flag known
      · rfl

theorem idleAnswer_eq (state : State) (flag : Bool) (started : state ≠ .none) :
    orderedPacketDecider f heap none state flag = (idleAnswer state flag).act f heap none := by
  unfold orderedPacketDecider
  rw [if_neg (by simp), if_neg started]
  cases state <;> rfl

/-- The decider of AMQP.c does what the table says, with the generator of the
message it names. -/
theorem orderedPacketDecider_eq (packet : Option PacketStruct) (state : State) (flag : Bool) :
    orderedPacketDecider f heap packet state flag = (orderedAnswer packet state flag).act f heap
      (packet.bind PacketStruct.methodPayload) := by
  by_cases header : packet.any fun p => p.type = .protocolHeader
  · unfold orderedPacketDecider orderedAnswer
    rw [if_pos header, if_pos header]
    rfl
  by_cases fresh : state = .none
  · unfold orderedPacketDecider orderedAnswer
    rw [if_neg header, if_pos fresh, if_neg header, if_pos fresh]
    rfl
  have answer : orderedAnswer packet state flag =
      packet.elim (idleAnswer state flag) fun p => packetAnswer p state flag := by
    unfold orderedAnswer
    rw [if_neg header, if_neg fresh]
    cases packet <;> rfl
  rw [answer]
  cases packet with
  | none => exact idleAnswer_eq state flag fresh
  | some packet => exact packetAnswer_eq packet state flag (by simpa using header) fresh

theorem chaotic_decision {decision : Decision}
    (y : (chaoticPacketDecider f heap).Yields decision) : ∃ m reply,
      (Message.generate f heap none m).Yields reply ∧ decision = reply.decision := by
  obtain ⟨roll, _, rest⟩ := (Sampler.yields_bind ..).mp y
  obtain ⟨reply, made, done⟩ := (Sampler.yields_bind ..).mp rest
  have decided : decision = reply.decision := done.symm
  unfold chaoticMessage at made
  split at made
  · exact ⟨.amqpHeader, reply, made, decided⟩
  · exact ⟨.startOk, reply, made, decided⟩
  · exact ⟨.tuneOk, reply, made, decided⟩
  · exact ⟨.connectionOpen, reply, made, decided⟩
  · exact ⟨.close, reply, made, decided⟩
  · exact ⟨.closeOk, reply, made, decided⟩

end

/-! ### Which paths assign `sent_packet` -/

/-- The decision returns NULL or the buffer of a generator with its size. -/
def Assigned (f : Fuzzer) (heap : Memory) (methodData : Option MethodStruct)
    (decision : Decision) : Prop :=
  decision.sentPacket = .null ∨ ∃ m packet, decision.sentPacket = .buffer packet ∧
    (Message.generate f heap methodData m).Yields ⟨some packet, m.next, m.expects⟩

/-- The inputs on which a path assigns the local or returns before it. -/
def AssignedWhen (packet : Option PacketStruct) (currentState : State) : Prop :=
  currentState = .none ∨
  match packet with
  | none => currentState = .connectionTuned ∨ currentState = .connected
  | some p => p.type = .protocolHeader ∨ p.type = .none ∨
      ∃ methodData ∈ p.methodPayload, methodData.classId = classConnection

theorem methodAnswer_assigns (methodData : MethodStruct) (flag : Bool) (s : State) (b : Bool) :
    methodAnswer methodData flag ≠ .unassigned s b := by
  unfold methodAnswer
  split <;> exact fun h => nomatch h

theorem act_assigned {f : Fuzzer} {heap : Memory} {methodData : Option MethodStruct}
    {answer : Answer} {decision : Decision} (y : (answer.act f heap methodData).Yields decision) :
    Assigned f heap methodData decision ↔ ∀ s b, answer ≠ .unassigned s b := by
  cases answer with
  | message m =>
    obtain ⟨reply, made, rfl⟩ := (Sampler.yields_map ..).mp y
    have generated := (Sampler.yields_mapError ..).mp made
    obtain ⟨d, rfl⟩ := generate_reply generated
    have assigned : Assigned f heap methodData (Reply.decision ⟨some d, m.next, m.expects⟩) :=
      .inr ⟨m, d, rfl, generated⟩
    exact iff_of_true assigned fun s b h => nomatch h
  | null s b =>
    obtain rfl : (⟨.null, s, b⟩ : Decision) = decision := y
    exact iff_of_true (.inl rfl) fun s b h => nomatch h
  | unassigned s b =>
    obtain rfl : (⟨.unassigned, s, b⟩ : Decision) = decision := y
    refine iff_of_false ?_ fun h => h s b rfl
    rintro (null | ⟨_, _, buffer, _⟩)
    · cases null
    · cases buffer
  | crash => exact y.elim

theorem idleAnswer_assigns {state : State} {flag : Bool}
    (returns : idleAnswer state flag ≠ .crash) :
    (∀ s b, idleAnswer state flag ≠ .unassigned s b) ↔
      state = .connectionTuned ∨ state = .connected := by
  cases state with
  | connectionTuned => exact iff_of_true (fun s b h => nomatch h) (.inl rfl)
  | connected => exact iff_of_true (fun s b h => nomatch h) (.inr rfl)
  | connectionTune => exact (returns rfl).elim
  | connectionClose => exact (returns rfl).elim
  | _ => exact iff_of_false (fun h => h _ flag rfl) (by decide)

theorem packetAnswer_assigns {packet : PacketStruct} {state : State} {flag : Bool} :
    (∀ s b, packetAnswer packet state flag ≠ .unassigned s b) ↔
      packet.type = .none ∨ ∃ methodData ∈ packet.methodPayload,
        methodData.classId = classConnection := by
  unfold packetAnswer
  split
  · rename_i none
    exact iff_of_true (fun s b h => nomatch h) (.inl none)
  · rename_i typed
    cases payload : packet.methodPayload with
    | none =>
      refine iff_of_false (fun h => h state flag rfl) ?_
      rintro (none | ⟨_, missing, _⟩)
      · exact typed none
      · cases missing
    | some methodData =>
      dsimp only
      split
      · rename_i known
        exact iff_of_true (methodAnswer_assigns methodData flag) (.inr ⟨methodData, rfl, known⟩)
      · rename_i unknown
        refine iff_of_false (fun h => h state flag rfl) ?_
        rintro (none | ⟨_, same, known⟩)
        · exact typed none
        · cases same
          exact unknown known

theorem orderedAnswer_assigns {packet : Option PacketStruct} {state : State} {flag : Bool}
    (returns : orderedAnswer packet state flag ≠ .crash) :
    (∀ s b, orderedAnswer packet state flag ≠ .unassigned s b) ↔ AssignedWhen packet state := by
  unfold orderedAnswer at returns ⊢
  unfold AssignedWhen
  split at returns
  · rename_i header
    rw [if_pos header]
    refine iff_of_true (fun s b h => nomatch h) (.inr ?_)
    cases packet with
    | none => simp at header
    | some p => exact .inl (by simpa using header)
  rename_i header
  rw [if_neg header]
  split at returns
  · rename_i fresh
    rw [if_pos fresh]
    exact iff_of_true (fun s b h => nomatch h) (.inl fresh)
  rename_i started
  rw [if_neg started]
  cases packet with
  | none =>
    rw [idleAnswer_assigns returns]
    simp [started]
  | some p =>
    have other : p.type ≠ .protocolHeader := by simpa using header
    rw [packetAnswer_assigns]
    simp [started, other]

/-- A call that returns has assigned what it returns exactly on these inputs. -/
theorem ordered_assigned_iff (f : Fuzzer) (heap : Memory) (packet : Option PacketStruct)
    (currentState : State) (flag : Bool) (draws rest : RandStream) (decision : Decision)
    (returns : (orderedPacketDecider f heap packet currentState flag).run draws =
      .ok (decision, rest)) :
    Assigned f heap (packet.bind PacketStruct.methodPayload) decision ↔
      AssignedWhen packet currentState := by
  have y := Sampler.yields_of_run returns
  rw [orderedPacketDecider_eq] at y
  have crashless : orderedAnswer packet currentState flag ≠ .crash := by
    intro crash
    rw [crash] at y
    exact y
  rw [act_assigned y, orderedAnswer_assigns crashless]

theorem ordered_assigned_iff_start :
    Assigned (shipped 20) (fun _ => none) none ⟨.null, .none, false⟩ ↔
      AssignedWhen (some (.plain .protocolHeader (by decide) 0 0 [65, 77, 81, 80, 0, 0, 9, 1]))
        .connectionStart :=
  ordered_assigned_iff (shipped 20) (fun _ => none)
    (some (.plain .protocolHeader (by decide) 0 0 [65, 77, 81, 80, 0, 0, 9, 1])) .connectionStart
    true (Stream'.const 0) (Stream'.const 0) ⟨.null, .none, false⟩ rfl

/-- The packet that `break_packet` makes of the eight octets of a heartbeat frame. -/
def heartbeatPacket : PacketStruct :=
  .plain (.other 8) (by decide) 0 0 (List.replicate 8 0)

theorem shipped_greets : Turn (shipped 20) 0 ⟨fun _ => none, false, true, true⟩ none Thread.start
    ⟨.connectionStart, true, some ⟨[65, 77, 81, 80, 0, 0, 9, 1], 8⟩⟩ := by
  refine ⟨⟨by decide, fun _ => rfl⟩, Stream'.const 0, ?_⟩
  apply Sampler.run_of_map_fst
  decide +kernel

/-- A heartbeat frame in the state that follows the header is read and published,
and the decider then returns its local unassigned. -/
theorem heartbeat_unassigned :
    breakPacket (bufferMemory (encodeFrame 8 0 [])) = .ok heartbeatPacket ∧
    (∃ outcome, Turn (shipped 20) 0 ⟨fun _ => none, false, true, true⟩ none Thread.start outcome ∧
      Thread.start.after outcome = ⟨.connectionStart, true⟩) ∧
    (orderedPacketDecider (shipped 20) (fun _ => none) (some heartbeatPacket) .connectionStart
      true).run (Stream'.const 0) = .ok (⟨.unassigned, .connectionStart, true⟩, Stream'.const 0) ∧
    ¬ Assigned (shipped 20) (fun _ => none) none ⟨.unassigned, .connectionStart, true⟩ := by
  refine ⟨by decide +kernel, ⟨_, shipped_greets, rfl⟩, rfl, ?_⟩
  rintro (null | ⟨_, _, buffer, _⟩)
  · cases null
  · cases buffer

end Amqpgram
