import Amqpgram.Fuzzer.Deciders
import Amqpgram.Library.Transitions

/-! The thread of channel 0 over whole runs. A turn is a row of the decider's
table, or any message where chaos allows it, followed by the delivery; the
invariant of the thread is read off the rows. -/
namespace Amqpgram

/-- The outcomes of an answer once its packet has been delivered or not. -/
def Answer.Leads (f : Fuzzer) (c : Circumstances) (methodData : Option MethodStruct) :
    Answer → Outcome → Prop
  | .message m, outcome => ∃ d, (m.generate f c.heap methodData).Yields
      ⟨some d, m.next, m.expects⟩ ∧
        outcome = Decision.outcome c ⟨.buffer d, m.next, m.expects⟩
  | .null s b, outcome => outcome = ⟨s, b, none⟩
  | .unassigned s b, outcome => c.junk = false ∧ outcome = ⟨s, b, none⟩
  | .crash, _ => False

section
variable {f : Fuzzer} {chaos : Int} {c : Circumstances} {packet : Option PacketStruct}
variable {t : Thread} {outcome : Outcome}

theorem act_leads {methodData : Option MethodStruct} {answer : Answer} {decision : Decision}
    (y : (answer.act f c.heap methodData).Yields decision)
    (delivered : deliver c decision = .ok outcome) : answer.Leads f c methodData outcome := by
  obtain ⟨named, rfl⟩ := deliver_eq_ok.mp delivered
  cases answer with
  | message m =>
    obtain ⟨reply, made, rfl⟩ := (Sampler.yields_map ..).mp y
    have generated := (Sampler.yields_mapError ..).mp made
    obtain ⟨d, rfl⟩ := generate_reply generated
    exact ⟨d, generated, rfl⟩
  | null s b =>
    obtain rfl : (⟨.null, s, b⟩ : Decision) = decision := y
    rfl
  | unassigned s b =>
    obtain rfl : (⟨.unassigned, s, b⟩ : Decision) = decision := y
    exact ⟨named rfl, rfl⟩
  | crash => exact y.elim

/-- A decision follows the table, or is for any message at a chaos level above 1. -/
theorem Decides.answer {heap : Memory} {decision : Decision}
    (decides : Decides f chaos heap packet t decision) :
    ((orderedAnswer packet t.currentState t.waitingResponse).act f heap
        (packet.bind PacketStruct.methodPayload)).Yields decision ∨
      1 < chaos ∧ ∃ (m : Message) (d : Decoded), (m.generate f heap none).Yields
        ⟨some d, m.next, m.expects⟩ ∧ decision = ⟨.buffer d, m.next, m.expects⟩ := by
  obtain ⟨_, draws, rest, returns⟩ := decides
  obtain ⟨drawn, rolled, decided⟩ := (Sampler.yields_bind ..).mp (Sampler.yields_of_run returns)
  have range := (yields_randMod_abs (by decide) (by decide)).mp
    ((Sampler.yields_mapError ..).mp rolled)
  unfold rolledDecider at decided
  split at decided
  · rw [orderedPacketDecider_eq] at decided
    exact .inl decided
  · obtain ⟨m, reply, made, rfl⟩ := chaotic_decision ((Sampler.yields_mapError ..).mp decided)
    obtain ⟨d, rfl⟩ := generate_reply made
    exact .inr ⟨by omega, m, d, made, rfl⟩

theorem Turn.answer (turn : Turn f chaos c packet t outcome) :
    (orderedAnswer packet t.currentState t.waitingResponse).Leads f c
        (packet.bind PacketStruct.methodPayload) outcome ∨
      1 < chaos ∧ ∃ m, (Answer.message m).Leads f c none outcome := by
  obtain ⟨decision, decides, delivered⟩ := turn_iff.mp turn
  rcases decides.answer with ordered | ⟨chaotic, m, d, made, rfl⟩
  · exact .inl (act_leads ordered delivered)
  · obtain ⟨_, rfl⟩ := deliver_eq_ok.mp delivered
    exact .inr ⟨chaotic, m, d, made, rfl⟩

theorem Turn.ordered (turn : Turn f chaos c packet t outcome) (level : chaos ≤ 1) :
    (orderedAnswer packet t.currentState t.waitingResponse).Leads f c
      (packet.bind PacketStruct.methodPayload) outcome := by
  rcases turn.answer with ordered | ⟨chaotic, _⟩
  · exact ordered
  · omega

theorem outcome_buffer (d : Decoded) (s : State) (b : Bool) :
    Decision.outcome c ⟨.buffer d, s, b⟩ = ⟨s, b, some d⟩ ∨
      Decision.outcome c ⟨.buffer d, s, b⟩ = ⟨.connectionClosed, false, none⟩ ∧
        ¬ (c.isRunning = true ∧ c.delivered = true) := by
  unfold Decision.outcome SentPacket.pointer
  dsimp only
  split
  · exact .inl rfl
  · rename_i down
    exact .inr ⟨rfl, down⟩

/-- The state and flag that an answer leaves when its packet is delivered. -/
def Answer.target : Answer → Option Thread
  | .message m => some ⟨m.next, m.expects⟩
  | .null s b => some ⟨s, b⟩
  | .unassigned s b => some ⟨s, b⟩
  | .crash => none

theorem Answer.Leads.target {answer : Answer} {methodData : Option MethodStruct}
    (leads : answer.Leads f c methodData outcome) :
    ⟨outcome.nextState, outcome.responseExpected⟩ ∈ answer.target ∨
      outcome.nextState = .connectionClosed ∧ outcome.responseExpected = false := by
  cases answer with
  | message m =>
    obtain ⟨d, _, rfl⟩ := leads
    rcases outcome_buffer (c := c) d m.next m.expects with sent | ⟨closed, _⟩
    · rw [sent]
      exact .inl rfl
    · rw [closed]
      exact .inr ⟨rfl, rfl⟩
  | null s b =>
    obtain rfl := leads
    exact .inl rfl
  | unassigned s b =>
    obtain ⟨_, rfl⟩ := leads
    exact .inl rfl
  | crash => exact leads.elim

end

/-! ### The invariant of the thread -/

/-- The states that a message which expects a response leads to. -/
def State.Awaits (s : State) : Prop :=
  s = .connectionStart ∨ s = .connectionOpen ∨ s = .connectionCloseOK

instance (s : State) : Decidable s.Awaits := by
  unfold State.Awaits
  infer_instance

/-- No turn enters NOOP, ConnectionTune or ConnectionClose, and a state that awaits
a response is held with the flag set. -/
structure Thread.Sound (t : Thread) : Prop where
  noop : t.currentState ≠ .noop
  tune : t.currentState ≠ .connectionTune
  close : t.currentState ≠ .connectionClose
  waits : t.currentState.Awaits → t.waitingResponse = true

theorem Thread.sound_of_free {s : State} {b : Bool}
    (free : s = .none ∨ s = .connectionTuned ∨ s = .connected ∨ s = .connectionClosed) :
    Thread.Sound ⟨s, b⟩ := by
  rcases free with rfl | rfl | rfl | rfl
  all_goals exact ⟨by simp, by simp, by simp, by simp [State.Awaits]⟩

theorem Message.sound (m : Message) : Thread.Sound ⟨m.next, m.expects⟩ := by
  cases m with
  | tuneOk => exact Thread.sound_of_free (.inr (.inl rfl))
  | _ => exact ⟨by simp [next], by simp [next], by simp [next], fun _ => rfl⟩

theorem Thread.Sound.idle {t : Thread} (sound : t.Sound) (ready : t.Ready none) :
    t.currentState = .none ∨ t.currentState = .connectionTuned ∨ t.currentState = .connected := by
  obtain ⟨s, b⟩ := t
  have flag : b = false := ready.2 rfl
  have quiet : ¬ s.Awaits := by
    intro awaits
    have waits := sound.waits awaits
    simp [flag] at waits
  cases s with
  | noop => exact (sound.noop rfl).elim
  | none => exact .inl rfl
  | connectionStart => exact (quiet (.inl rfl)).elim
  | connectionTune => exact (sound.tune rfl).elim
  | connectionTuned => exact .inr (.inl rfl)
  | connectionOpen => exact (quiet (.inr (.inl rfl))).elim
  | connected => exact .inr (.inr rfl)
  | connectionClose => exact (sound.close rfl).elim
  | connectionCloseOK => exact (quiet (.inr (.inr rfl))).elim
  | connectionClosed => exact (ready.1 rfl).elim

theorem methodAnswer_sound (methodData : MethodStruct) (flag : Bool) :
    ∃ next ∈ (methodAnswer methodData flag).target, next.Sound := by
  unfold methodAnswer
  split
  · exact ⟨_, rfl, Message.sound .startOk⟩
  · exact ⟨_, rfl, Message.sound .tuneOk⟩
  · exact ⟨_, rfl, Thread.sound_of_free (.inr (.inr (.inl rfl)))⟩
  · exact ⟨_, rfl, Thread.sound_of_free (.inr (.inr (.inl rfl)))⟩
  · exact ⟨_, rfl, Message.sound .closeOk⟩
  · exact ⟨_, rfl, Thread.sound_of_free (.inr (.inr (.inr rfl)))⟩
  · exact ⟨_, rfl, Thread.sound_of_free (.inl rfl)⟩

theorem packetAnswer_sound (packet : PacketStruct) {t : Thread} (sound : t.Sound) :
    ∃ next ∈ (packetAnswer packet t.currentState t.waitingResponse).target, next.Sound := by
  unfold packetAnswer
  split
  · exact ⟨t, rfl, sound⟩
  split
  · split
    · exact methodAnswer_sound _ _
    · exact ⟨t, rfl, sound⟩
  · exact ⟨t, rfl, sound⟩

/-- In a sound thread no row of the table dereferences NULL, and each leads to a
sound thread. -/
theorem orderedAnswer_sound {packet : Option PacketStruct} {t : Thread} (sound : t.Sound)
    (ready : t.Ready packet) :
    ∃ next ∈ (orderedAnswer packet t.currentState t.waitingResponse).target, next.Sound := by
  unfold orderedAnswer
  split
  · exact ⟨_, rfl, Thread.sound_of_free (.inl rfl)⟩
  split
  · exact ⟨_, rfl, Message.sound .amqpHeader⟩
  rename_i started
  cases packet with
  | some packet => exact packetAnswer_sound packet sound
  | none =>
    rcases sound.idle ready with fresh | tuned | connected
    · exact (started fresh).elim
    · simp only [tuned]
      exact ⟨_, rfl, Message.sound .connectionOpen⟩
    · simp only [connected]
      exact ⟨_, rfl, Message.sound .close⟩

theorem Thread.Sound.returns {packet : Option PacketStruct} {t : Thread} (sound : t.Sound)
    (ready : t.Ready packet) : orderedAnswer packet t.currentState t.waitingResponse ≠ .crash := by
  intro crash
  obtain ⟨next, target, _⟩ := orderedAnswer_sound sound ready
  rw [crash] at target
  cases target

/-- A sound thread leaves its pointer unassigned over a packet in its slot only. -/
theorem Thread.Sound.assigns {f : Fuzzer} {chaos : Int} {heap : Memory}
    {packet : Option PacketStruct} {t : Thread} {decision : Decision} (sound : t.Sound)
    (assigned : ∀ p ∈ packet, AssignedWhen (some p) t.currentState)
    (decides : Decides f chaos heap packet t decision) : decision.sentPacket ≠ .unassigned := by
  rcases decides.answer with ordered | ⟨_, m, d, _, rfl⟩
  · have assigned : AssignedWhen packet t.currentState := by
      cases packet with
      | some p => exact assigned p rfl
      | none =>
        rcases sound.idle decides.ready with fresh | speaks
        · exact .inl fresh
        · exact .inr speaks
    rcases (act_assigned ordered).mpr
      ((orderedAnswer_assigns (sound.returns decides.ready)).mpr assigned) with
      null | ⟨_, _, buffer, _⟩
    · simp [null]
    · simp [buffer]
  · simp

theorem Thread.Sound.moves {f : Fuzzer} {chaos : Int} {c : Circumstances}
    {packet : Option PacketStruct} {t : Thread} {outcome : Outcome} (sound : t.Sound)
    (turn : Turn f chaos c packet t outcome) :
    Thread.Sound ⟨outcome.nextState, outcome.responseExpected⟩ := by
  rcases turn.answer with ordered | ⟨_, m, chaotic⟩
  · obtain ⟨next, member, soundNext⟩ := orderedAnswer_sound sound turn.ready
    rcases ordered.target with reached | ⟨state, flag⟩
    · obtain rfl : next = _ := Option.mem_unique member reached
      exact soundNext
    · rw [state, flag]
      exact Thread.sound_of_free (.inr (.inr (.inr rfl)))
  · rcases chaotic.target with reached | ⟨state, flag⟩
    · rw [← Option.some.inj reached]
      exact Message.sound m
    · rw [state, flag]
      exact Thread.sound_of_free (.inr (.inr (.inr rfl)))

theorem Thread.Sound.after_eq {f : Fuzzer} {chaos : Int} {c : Circumstances}
    {packet : Option PacketStruct} {t : Thread} {outcome : Outcome} (sound : t.Sound)
    (turn : Turn f chaos c packet t outcome) :
    t.after outcome = ⟨outcome.nextState, outcome.responseExpected⟩ := by
  rw [Thread.after, if_neg (sound.moves turn).noop]

theorem Thread.Sound.after {f : Fuzzer} {chaos : Int} {c : Circumstances}
    {packet : Option PacketStruct} {t : Thread} {outcome : Outcome} (sound : t.Sound)
    (turn : Turn f chaos c packet t outcome) : (t.after outcome).Sound := by
  rw [sound.after_eq turn]
  exact sound.moves turn

/-- Runs of the thread: any packets, circumstances and draws, turn after turn. -/
def channelThread (f : Fuzzer) (packetChaos : Int) : TransitionSystem Thread :=
  ⟨Thread.start, fun t t' => ∃ c packet outcome, Turn f packetChaos c packet t outcome ∧
    t' = t.after outcome⟩

theorem channelThread_sound {f : Fuzzer} {packetChaos : Int} {t : Thread}
    (reach : (channelThread f packetChaos).Reachable t) : t.Sound := by
  apply reach.invariant
  · exact Thread.sound_of_free (.inl rfl)
  · rintro t t' _ sound ⟨c, packet, outcome, turn, rfl⟩
    exact sound.after turn

theorem act_crash {f : Fuzzer} {heap : Memory} {methodData : Option MethodStruct}
    {answer : Answer} {draws : RandStream}
    (crash : (answer.act f heap methodData).run draws = .error .nullMethodData) :
    answer = .crash := by
  cases answer with
  | message m =>
    rcases Sampler.run_bind_error crash with generating | ⟨reply, rest, _, replied⟩
    · obtain ⟨fault, other⟩ := Sampler.run_mapError generating
      cases other
    · cases replied
  | null s b => cases crash
  | unassigned s b => cases crash
  | crash => rfl

theorem deliver_crash {c : Circumstances} {decision : Decision} :
    deliver c decision ≠ .error .nullMethodData := by
  unfold deliver
  split
  · simp
  · simp

theorem packetDecider_crash {f : Fuzzer} {packetChaos : Int} {c : Circumstances}
    {packet : Option PacketStruct} {state : State} {flag : Bool} {draws : RandStream}
    (crash : (packetDecider f packetChaos c packet state flag).run draws =
      .error .nullMethodData) : orderedAnswer packet state flag = .crash := by
  rcases Sampler.run_bind_error crash with deciding | ⟨decision, rest, _, delivering⟩
  · rcases Sampler.run_bind_error deciding with drawing | ⟨drawn, rest, _, deciding⟩
    · obtain ⟨fault, other⟩ := Sampler.run_mapError drawing
      cases other
    · unfold rolledDecider at deciding
      split at deciding
      · rw [orderedPacketDecider_eq] at deciding
        exact act_crash deciding
      · obtain ⟨fault, other⟩ := Sampler.run_mapError deciding
        cases other
  · cases delivered : deliver c decision with
    | ok outcome =>
      rw [delivered] at delivering
      cases delivering
    | error e =>
      rw [delivered] at delivering
      obtain rfl : e = .nullMethodData := Except.error.inj delivering
      exact (deliver_crash delivered).elim

/-- The joint invariant of state and flag, and what it is for: no turn without a
packet reaches the dereference of `method_data`. -/
theorem channelThread_invariant (f : Fuzzer) (packetChaos : Int) (t : Thread)
    (reach : (channelThread f packetChaos).Reachable t) :
    t.currentState ≠ .connectionTune ∧ t.currentState ≠ .connectionClose ∧
    (t.currentState = .connectionStart ∨ t.currentState = .connectionOpen ∨
      t.currentState = .connectionCloseOK → t.waitingResponse = true) ∧
    (t.Ready none → t.currentState = .none ∨ t.currentState = .connectionTuned ∨
      t.currentState = .connected) ∧
    ∀ c packet draws, t.Ready packet → (packetDecider f packetChaos c packet t.currentState
      t.waitingResponse).run draws ≠ .error .nullMethodData := by
  have sound := channelThread_sound reach
  refine ⟨sound.tune, sound.close, sound.waits, sound.idle, ?_⟩
  intro c packet draws ready crash
  exact sound.returns ready (packetDecider_crash crash)

theorem channelThread_greeted :
    (channelThread (shipped 20) 0).Reachable ⟨.connectionStart, true⟩ := by
  apply TransitionSystem.Reachable.start.next
  exact ⟨_, _, _, shipped_greets, rfl⟩

theorem channelThread_invariant_start :
    (⟨.connectionStart, true⟩ : Thread).waitingResponse = true :=
  (channelThread_invariant (shipped 20) 0 ⟨.connectionStart, true⟩ channelThread_greeted).2.2.1
    (.inl rfl)

/-! ### The opening of a connection by the shipped grammar -/

def startPacket : PacketStruct := .method 0 4 ⟨10, 10, [], 0⟩

/-- A Tune that offers 2047 channels and frames of 131072 octets. -/
def tuneOffer : PacketStruct := .method 0 12 ⟨10, 30, [7, 255, 0, 2, 0, 0, 0, 60], 8⟩

def openOkPacket : PacketStruct := .method 0 4 ⟨10, 41, [], 0⟩

def closePacket : PacketStruct := .method 0 4 ⟨10, 50, [], 0⟩

def startOkSent : Decoded := ⟨[1, 0, 0, 0, 0, 0, 44, 0, 10, 0, 11, 0, 0, 0, 2, 0, 86, 5, 80, 76, 65,
  73, 78, 0, 0, 0, 18, 0, 117, 115, 101, 114, 110, 97, 109, 101, 0, 112, 97, 115, 115, 119, 111,
  114, 100, 5, 101, 110, 95, 85, 83, 206], 52⟩

def tuneOkSent : Decoded :=
  ⟨[1, 0, 0, 0, 0, 0, 12, 0, 10, 0, 31, 0, 0, 0, 0, 0, 0, 0, 0, 206], 20⟩

def openSent : Decoded := ⟨[1, 0, 0, 0, 0, 0, 8, 0, 10, 0, 40, 1, 47, 0, 0, 206], 16⟩

theorem shipped_starts : Turn (shipped 20) 0 ⟨fun _ => none, false, true, true⟩
    (some startPacket) ⟨.connectionStart, true⟩ ⟨.connectionStart, true, some startOkSent⟩ := by
  refine ⟨⟨by decide, fun empty => nomatch empty⟩, Stream'.const 0, ?_⟩
  apply Sampler.run_of_map_fst
  decide +kernel

theorem shipped_tunes : Turn (shipped 20) 0 ⟨fun _ => none, false, true, true⟩
    (some tuneOffer) ⟨.connectionStart, true⟩ ⟨.connectionTuned, false, some tuneOkSent⟩ := by
  refine ⟨⟨by decide, fun empty => nomatch empty⟩, Stream'.const 0, ?_⟩
  apply Sampler.run_of_map_fst
  decide +kernel

theorem shipped_opens : Turn (shipped 20) 0 ⟨fun _ => none, false, true, true⟩
    none ⟨.connectionTuned, false⟩ ⟨.connectionOpen, true, some openSent⟩ := by
  refine ⟨⟨by decide, fun _ => rfl⟩, Stream'.const 0, ?_⟩
  apply Sampler.run_of_map_fst
  decide +kernel

theorem shipped_connects : Turn (shipped 20) 0 ⟨fun _ => none, false, true, true⟩
    (some openOkPacket) ⟨.connectionOpen, true⟩ ⟨.connected, false, none⟩ := by
  refine ⟨⟨by decide, fun empty => nomatch empty⟩, Stream'.const 0, ?_⟩
  apply Sampler.run_of_map_fst
  decide +kernel

end Amqpgram
