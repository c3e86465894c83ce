import Amqpgram.Fuzzer.ChannelThread

/-! What the client says at PACKET_CHAOS = 0 to a peer that sends Connection methods
in any order. The reply is chosen from the received method alone, so whether it fits
the state depends on what the peer sends when. -/
namespace Amqpgram

/-- The packet is absent or carries a method of the Connection class. -/
def OfConnection (packet : Option PacketStruct) : Prop :=
  ∀ p ∈ packet, ∃ methodData ∈ p.methodPayload, methodData.classId = classConnection

def received (packet : Option PacketStruct) : Option MethodStruct :=
  packet.bind PacketStruct.methodPayload

theorem orderedAnswer_connection {packet : Option PacketStruct} (known : OfConnection packet)
    (state : State) (flag : Bool) :
    orderedAnswer packet state flag =
      if state = .none then .message .amqpHeader
      else match received packet with
        | none => idleAnswer state flag
        | some methodData => methodAnswer methodData flag := by
  cases packet with
  | none =>
    unfold orderedAnswer
    rw [if_neg (by simp)]
    rfl
  | some p =>
    obtain ⟨methodData, payload, ofClass⟩ := known p rfl
    have carried : received (some p) = some methodData := payload
    have type : p.type = .method := p.method_iff.mp (by rw [Option.mem_def.mp payload]; rfl)
    unfold orderedAnswer
    rw [if_neg (by simp [type]), carried]
    split
    · rfl
    · dsimp only
      unfold packetAnswer
      rw [if_neg (by simp [type]), Option.mem_def.mp payload]
      exact if_pos ofClass

/-- The thread with the methods it consumed, each with the state it was in, and the
messages it sent. -/
structure Dialogue where
  thread : Thread
  consumed : List (State × MethodStruct)
  sent : List Message

def Dialogue.start : Dialogue := ⟨Thread.start, [], []⟩

/-- The message that a turn sends: the generator the table names has made it, and it
was delivered. -/
def sentMessage (packet : Option PacketStruct) (t : Thread) (outcome : Outcome) :
    Option Message :=
  match orderedAnswer packet t.currentState t.waitingResponse with
  | .message m => if outcome.sent.isSome then some m else none
  | _ => none

def Dialogue.after (s : Dialogue) (packet : Option PacketStruct) (outcome : Outcome) : Dialogue :=
  ⟨s.thread.after outcome,
    s.consumed ++ (received packet).toList.map fun methodData =>
      (s.thread.currentState, methodData),
    s.sent ++ (sentMessage packet s.thread outcome).toList⟩

/-- A turn at PACKET_CHAOS = 0. -/
def Dialogue.Step (f : Fuzzer) (s : Dialogue) (packet : Option PacketStruct) (s' : Dialogue) :
    Prop :=
  ∃ c outcome, Turn f 0 c packet s.thread outcome ∧ s' = s.after packet outcome

/-- The runs in which every packet meets a condition on the state it is consumed in. -/
def dialogue (f : Fuzzer) (allowed : Dialogue → Option PacketStruct → Prop) :
    TransitionSystem Dialogue :=
  ⟨Dialogue.start, fun s s' => ∃ packet, allowed s packet ∧ s.Step f packet s'⟩

/-- Connected is entered by an Open-Ok that answers the client's Open, and Tune-Ok is
sent for a Tune once a Start-Ok has been sent. -/
structure Appropriate (s : Dialogue) (packet : Option PacketStruct) (s' : Dialogue) : Prop where
  connected : s.thread.currentState ≠ .connected → s'.thread.currentState = .connected →
    (∃ methodData ∈ received packet, methodData.methodId = 41) ∧
      s.thread.currentState = .connectionOpen ∧ s.sent.getLast? = some .connectionOpen
  tuneOk : s'.sent = s.sent ++ [.tuneOk] →
    (∃ methodData ∈ received packet, methodData.methodId = 30) ∧ .startOk ∈ s.sent

/-- Outside of state None a Secure comes in state Connected only, an Open-Ok in
ConnectionOpen or Connected only, and a Tune only after a Start. -/
structure Orderly (s : Dialogue) (packet : Option PacketStruct) : Prop where
  known : OfConnection packet
  secure : s.thread.currentState ≠ .none → ∀ methodData ∈ received packet,
    methodData.methodId = 20 → s.thread.currentState = .connected
  openOk : s.thread.currentState ≠ .none → ∀ methodData ∈ received packet,
    methodData.methodId = 41 →
      s.thread.currentState = .connectionOpen ∨ s.thread.currentState = .connected
  tune : s.thread.currentState ≠ .none → ∀ methodData ∈ received packet,
    methodData.methodId = 30 →
      ∃ earlier ∈ s.consumed, earlier.1 ≠ .none ∧ earlier.2.methodId = 10

section
variable {f : Fuzzer} {s s' : Dialogue} {packet : Option PacketStruct}

theorem Message.next_named (m : Message) : m.next ≠ .noop := by
  cases m <;> decide

/-- What a turn can do: send the message of the table, close the connection, or move
as the table says without a message. -/
theorem Dialogue.Step.cases (step : s.Step f packet s') :
    (∃ m, orderedAnswer packet s.thread.currentState s.thread.waitingResponse = .message m ∧
      s'.thread = ⟨m.next, m.expects⟩ ∧ s'.sent = s.sent ++ [m]) ∨
    (s'.thread.currentState = .connectionClosed ∧ s'.sent = s.sent) ∨
    ∃ next ∈ (orderedAnswer packet s.thread.currentState s.thread.waitingResponse).target,
      (∀ m, orderedAnswer packet s.thread.currentState s.thread.waitingResponse ≠ .message m) ∧
      (s'.thread.currentState = next.currentState ∨
        s'.thread.currentState = s.thread.currentState) ∧ s'.sent = s.sent := by
  obtain ⟨c, outcome, turn, rfl⟩ := step
  have leads := turn.ordered (by decide)
  unfold Dialogue.after sentMessage Thread.after
  have target := leads.target
  generalize orderedAnswer packet s.thread.currentState s.thread.waitingResponse = answer
    at leads target
  cases answer with
  | message m =>
    obtain ⟨d, _, rfl⟩ := leads
    rcases outcome_buffer d m.next m.expects with sent | ⟨failed, _⟩
    · rw [sent, if_neg m.next_named]
      exact .inl ⟨m, rfl, rfl, rfl⟩
    · rw [failed]
      exact .inr (.inl ⟨rfl, List.append_nil _⟩)
  | crash => exact leads.elim
  | null state flag | unassigned state flag =>
    have silent : s.sent ++ (none : Option Message).toList = s.sent := List.append_nil _
    rcases target with reached | ⟨closed, _⟩
    · refine .inr (.inr ⟨_, reached, ?_, ?_, silent⟩)
      · intro m other
        cases other
      · dsimp only
        split
        · exact .inr rfl
        · exact .inl rfl
    · rw [closed]
      exact .inr (.inl ⟨rfl, silent⟩)

theorem Dialogue.Step.ready (step : s.Step f packet s') :
    s.thread.currentState ≠ .connectionClosed := by
  obtain ⟨c, outcome, turn, _⟩ := step
  exact turn.ready.1

theorem Dialogue.Step.consumed (step : s.Step f packet s') :
    s'.consumed = s.consumed ++ (received packet).toList.map fun methodData =>
      (s.thread.currentState, methodData) := by
  obtain ⟨c, outcome, _, rfl⟩ := step
  rfl

theorem target_connection (known : OfConnection packet) {state : State} {flag : Bool}
    {next : Thread} (member : next ∈ (orderedAnswer packet state flag).target)
    (silent : ∀ m, orderedAnswer packet state flag ≠ .message m) :
    next.currentState = state ∨
      state ≠ .none ∧ ∃ methodData ∈ received packet,
        next ∈ (methodAnswer methodData flag).target ∧
          ∀ m, methodAnswer methodData flag ≠ .message m := by
  rw [orderedAnswer_connection known] at member silent
  split at member
  · rename_i fresh
    rw [if_pos fresh] at silent
    exact (silent _ rfl).elim
  rename_i started
  rw [if_neg started] at silent
  cases carried : received packet with
  | some methodData =>
    rw [carried] at member silent
    exact .inr ⟨started, methodData, rfl, member, silent⟩
  | none =>
    rw [carried] at member silent
    left
    cases state with
    | connectionTuned => exact (silent _ rfl).elim
    | connected => exact (silent _ rfl).elim
    | connectionTune => cases member
    | connectionClose => cases member
    | _ => exact congrArg Thread.currentState (Option.some.inj member).symm

theorem methodAnswer_silent {methodData : MethodStruct} {flag : Bool} {next : Thread}
    (member : next ∈ (methodAnswer methodData flag).target)
    (silent : ∀ m, methodAnswer methodData flag ≠ .message m) :
    next.currentState = .connected ∧ (methodData.methodId = 20 ∨ methodData.methodId = 41) ∨
      next.currentState = .connectionClosed ∨ next.currentState = .none := by
  unfold methodAnswer at member silent
  split at member <;> rename_i method <;> simp only [method] at silent
  · exact (silent _ rfl).elim
  · exact (silent _ rfl).elim
  · obtain rfl := Option.some.inj member
    exact .inl ⟨rfl, .inl method⟩
  · obtain rfl := Option.some.inj member
    exact .inl ⟨rfl, .inr method⟩
  · exact (silent _ rfl).elim
  · obtain rfl := Option.some.inj member
    exact .inr (.inl rfl)
  · obtain rfl := Option.some.inj member
    exact .inr (.inr rfl)

/-- What the state and the methods consumed say about the messages sent. -/
structure Dialogue.Coherent (s : Dialogue) : Prop where
  opening : s.thread.currentState = .connectionOpen → s.sent.getLast? = some .connectionOpen
  started : (∃ earlier ∈ s.consumed, earlier.1 ≠ .none ∧ earlier.2.methodId = 10) →
    .startOk ∈ s.sent ∨ s.thread.currentState = .connectionClosed

theorem Dialogue.Coherent.opening_step (coherent : s.Coherent) (known : OfConnection packet)
    (step : s.Step f packet s') (entered : s'.thread.currentState = .connectionOpen) :
    s'.sent.getLast? = some .connectionOpen := by
  rcases step.cases with ⟨m, _, thread, sent⟩ | ⟨closed, _⟩ | ⟨next, member, silent, state, sent⟩
  · rw [thread] at entered
    rw [sent]
    cases m with
    | connectionOpen => exact List.getLast?_concat
    | _ => cases entered
  · rw [closed] at entered
    cases entered
  · have before : s.thread.currentState = .connectionOpen := by
      rcases state with state | state
      · rw [state] at entered
        rcases target_connection known member silent with same | ⟨_, methodData, _, moved, quiet⟩
        · exact same.symm.trans entered
        · rcases methodAnswer_silent moved quiet with ⟨other, _⟩ | other | other
          all_goals rw [other] at entered; cases entered
      · exact state.symm.trans entered
    rw [sent]
    exact coherent.opening before

theorem Dialogue.Coherent.started_step (coherent : s.Coherent) (known : OfConnection packet)
    (step : s.Step f packet s')
    (start : ∃ earlier ∈ s'.consumed, earlier.1 ≠ .none ∧ earlier.2.methodId = 10) :
    .startOk ∈ s'.sent ∨ s'.thread.currentState = .connectionClosed := by
  have kept : .startOk ∈ s.sent → .startOk ∈ s'.sent := by
    intro member
    rcases step.cases with ⟨m, _, _, sent⟩ | ⟨_, sent⟩ | ⟨_, _, _, _, sent⟩
    · rw [sent]
      exact List.mem_append_left _ member
    · rw [sent]
      exact member
    · rw [sent]
      exact member
  obtain ⟨earlier, member, outside, isStart⟩ := start
  rw [step.consumed, List.mem_append] at member
  rcases member with before | now
  · rcases coherent.started ⟨earlier, before, outside, isStart⟩ with sent | closed
    · exact .inl (kept sent)
    · exact (step.ready closed).elim
  · obtain ⟨methodData, carried, rfl⟩ := List.mem_map.mp now
    have answer : orderedAnswer packet s.thread.currentState s.thread.waitingResponse =
        .message .startOk := by
      rw [orderedAnswer_connection known, if_neg outside, Option.mem_toList.mp carried]
      dsimp only at isStart ⊢
      unfold methodAnswer
      rw [isStart]
      rfl
    rcases step.cases with ⟨m, same, _, sent⟩ | ⟨closed, _⟩ | ⟨_, _, silent, _⟩
    · obtain rfl := Answer.message.inj (answer.symm.trans same)
      rw [sent]
      exact .inl (List.mem_append_right _ (List.mem_singleton.mpr rfl))
    · exact .inr closed
    · exact (silent _ answer).elim

theorem dialogue_coherent {allowed : Dialogue → Option PacketStruct → Prop}
    (known : ∀ s packet, allowed s packet → OfConnection packet)
    (reach : (dialogue f allowed).Reachable s) : s.Coherent := by
  apply reach.invariant
  · constructor
    · intro other
      cases other
    · rintro ⟨_, member, _⟩
      cases member
  · rintro s s' _ coherent ⟨packet, permitted, step⟩
    exact ⟨coherent.opening_step (known s packet permitted) step,
      coherent.started_step (known s packet permitted) step⟩

theorem orderedAnswer_tuneOk (known : OfConnection packet) {state : State} {flag : Bool}
    (answer : orderedAnswer packet state flag = .message .tuneOk) :
    state ≠ .none ∧ ∃ methodData ∈ received packet, methodData.methodId = 30 := by
  rw [orderedAnswer_connection known] at answer
  split at answer
  · cases answer
  rename_i started
  refine ⟨started, ?_⟩
  split at answer
  · cases state <;> cases answer
  · rename_i methodData carried
    refine ⟨methodData, carried, ?_⟩
    unfold methodAnswer at answer
    split at answer
    · cases answer
    · assumption
    all_goals cases answer

/-- In a run of orderly packets every step is appropriate. -/
theorem dialogue_appropriate (f : Fuzzer) (s s' : Dialogue) (packet : Option PacketStruct)
    (reach : (dialogue f Orderly).Reachable s) (orderly : Orderly s packet)
    (step : s.Step f packet s') : Appropriate s packet s' := by
  have coherent := dialogue_coherent (fun _ _ orderly => orderly.known) reach
  constructor
  · intro outside entered
    rcases step.cases with ⟨m, _, thread, _⟩ | ⟨closed, _⟩ | ⟨next, member, silent, state, _⟩
    · rw [thread] at entered
      cases m <;> cases entered
    · rw [closed] at entered
      cases entered
    have moved : next.currentState = .connected :=
      (state.resolve_right fun same => outside (same.symm.trans entered)).symm.trans entered
    rcases target_connection orderly.known member silent with
      same | ⟨started, methodData, carried, there, quiet⟩
    · exact (outside (same.symm.trans moved)).elim
    rcases methodAnswer_silent there quiet with ⟨_, secure | openOk⟩ | other | other
    · exact (outside (orderly.secure started methodData carried secure)).elim
    · have opening := (orderly.openOk started methodData carried openOk).resolve_right outside
      exact ⟨⟨methodData, carried, openOk⟩, opening, coherent.opening opening⟩
    · rw [moved] at other
      cases other
    · rw [moved] at other
      cases other
  · intro tuned
    rcases step.cases with ⟨m, answer, _, sent⟩ | ⟨_, sent⟩ | ⟨_, _, _, _, sent⟩
    · obtain rfl : m = .tuneOk := by
        have last := List.append_cancel_left (sent.symm.trans tuned)
        exact (List.cons.inj last).1
      obtain ⟨started, methodData, carried, tune⟩ := orderedAnswer_tuneOk orderly.known answer
      refine ⟨⟨methodData, carried, tune⟩, ?_⟩
      have earlier := orderly.tune started methodData carried tune
      exact (coherent.started earlier).resolve_right step.ready
    · have count := congrArg List.length (sent.symm.trans tuned)
      simp at count
    · have count := congrArg List.length (sent.symm.trans tuned)
      simp at count

end

def securePacket : PacketStruct := .method 0 4 ⟨10, 20, [], 0⟩

def Dialogue.greeted : Dialogue := ⟨⟨.connectionStart, true⟩, [], [.amqpHeader]⟩

theorem Dialogue.greets : Dialogue.start.Step (shipped 20) none Dialogue.greeted :=
  ⟨_, _, shipped_greets, rfl⟩

theorem orderly_none (s : Dialogue) : Orderly s none := by
  constructor
  · intro _ member
    cases member
  all_goals
    intro _ _ member
    cases member

/-- The steps of an opening behind the header. -/
def Dialogue.started : Dialogue :=
  ⟨⟨.connectionStart, true⟩, [(.connectionStart, ⟨10, 10, [], 0⟩)], [.amqpHeader, .startOk]⟩

def Dialogue.tuned : Dialogue :=
  ⟨⟨.connectionTuned, false⟩, [(.connectionStart, ⟨10, 10, [], 0⟩),
    (.connectionStart, ⟨10, 30, [7, 255, 0, 2, 0, 0, 0, 60], 8⟩)], [.amqpHeader, .startOk, .tuneOk]⟩

def Dialogue.opening : Dialogue :=
  ⟨⟨.connectionOpen, true⟩, tuned.consumed, [.amqpHeader, .startOk, .tuneOk, .connectionOpen]⟩

theorem ofConnection_method {p : PacketStruct} {methodData : MethodStruct}
    (payload : p.methodPayload = some methodData) (known : methodData.classId = classConnection) :
    OfConnection (some p) := by
  intro q member
  obtain rfl := Option.some.inj member
  exact ⟨methodData, payload, known⟩

theorem orderly_start (s : Dialogue) : Orderly s (some startPacket) := by
  refine ⟨ofConnection_method rfl rfl, ?_, ?_, ?_⟩
  all_goals
    intro _ methodData carried id
    obtain rfl := Option.some.inj carried
    cases id

theorem orderly_tune : Orderly Dialogue.started (some tuneOffer) := by
  refine ⟨ofConnection_method rfl rfl, ?_, ?_, ?_⟩
  iterate 2
    intro _ methodData carried id
    obtain rfl := Option.some.inj carried
    cases id
  intro _ _ _ _
  exact ⟨_, List.mem_singleton_self _, by decide, rfl⟩

theorem orderly_openOk {s : Dialogue} (opening : s.thread.currentState = .connectionOpen) :
    Orderly s (some openOkPacket) := by
  refine ⟨ofConnection_method rfl rfl, ?_, fun _ _ _ _ => .inl opening, ?_⟩
  all_goals
    intro _ methodData carried id
    obtain rfl := Option.some.inj carried
    cases id

/-- A whole opening: the Tune and the Open-Ok are consumed where they belong. -/
theorem dialogue_appropriate_opening :
    Appropriate Dialogue.started (some tuneOffer) Dialogue.tuned ∧
      Dialogue.tuned.sent = Dialogue.started.sent ++ [.tuneOk] ∧
    ∃ connected, Dialogue.opening.Step (shipped 20) (some openOkPacket) connected ∧
      connected.thread.currentState = .connected ∧
      Appropriate Dialogue.opening (some openOkPacket) connected := by
  have start : (dialogue (shipped 20) Orderly).Reachable Dialogue.start :=
    TransitionSystem.Reachable.start
  have greeted := start.next ⟨none, orderly_none _, Dialogue.greets⟩
  have starts : Dialogue.greeted.Step (shipped 20) (some startPacket) Dialogue.started :=
    ⟨_, _, shipped_starts, rfl⟩
  have started := greeted.next ⟨_, orderly_start _, starts⟩
  have tunes : Dialogue.started.Step (shipped 20) (some tuneOffer) Dialogue.tuned :=
    ⟨_, _, shipped_tunes, rfl⟩
  have tuned := started.next ⟨_, orderly_tune, tunes⟩
  have opens : Dialogue.tuned.Step (shipped 20) none Dialogue.opening :=
    ⟨_, _, shipped_opens, rfl⟩
  have opening := tuned.next ⟨_, orderly_none _, opens⟩
  have connects : Dialogue.opening.Step (shipped 20) (some openOkPacket) _ :=
    ⟨_, _, shipped_connects, rfl⟩
  refine ⟨dialogue_appropriate (shipped 20) _ _ _ started orderly_tune tunes, rfl, ?_⟩
  refine ⟨_, connects, rfl, ?_⟩
  exact dialogue_appropriate (shipped 20) _ _ _ opening (orderly_openOk rfl) connects

/-- A Secure in answer to the header makes the client Connected, before it has sent
anything but the header. -/
theorem secure_connects : ∃ s s',
    (dialogue (shipped 20) fun _ packet => OfConnection packet).Reachable s ∧
    OfConnection (some securePacket) ∧ s.Step (shipped 20) (some securePacket) s' ∧
    s'.thread.currentState = .connected ∧ s'.sent = [.amqpHeader] ∧
    ¬ Appropriate s (some securePacket) s' := by
  have known : OfConnection (some securePacket) := ofConnection_method rfl rfl
  have start : (dialogue (shipped 20) fun _ packet => OfConnection packet).Reachable
      Dialogue.start := TransitionSystem.Reachable.start
  have greeted := start.next ⟨none, (orderly_none Dialogue.start).known, Dialogue.greets⟩
  have turn : Turn (shipped 20) 0 ⟨fun _ => none, false, true, true⟩ (some securePacket)
      Dialogue.greeted.thread ⟨.connected, false, none⟩ := by
    refine ⟨⟨by decide, fun empty => nomatch empty⟩, Stream'.const 0, ?_⟩
    apply Sampler.run_of_map_fst
    decide +kernel
  refine ⟨_, _, greeted, known, ⟨_, _, turn, rfl⟩, rfl, rfl, ?_⟩
  intro appropriate
  have opening := (appropriate.connected (by decide) rfl).2.1
  cases opening

end Amqpgram
