import Amqpgram.Fuzzer.ChannelThread

/-! When the client is the one to speak: in the states whose next step is its own
header, Open or Close, a thread that still waits for a response is stuck until
the server sends something. -/
namespace Amqpgram

def State.Speaks (s : State) : Prop := s = .none ∨ s = .connectionTuned ∨ s = .connected

/-- The roll of `packet_decider` that leaves the turn to the ordered decider. -/
def RollsOrdered (packetChaos : Int) (draws : RandStream) : Prop :=
  packetChaos ≤ Int.tmod draws.head.val 4 + 1

/-- A Connection method without a case in `connection_packet_decider`. -/
def PacketStruct.Unimplemented (packet : PacketStruct) : Prop :=
  ∃ methodData ∈ packet.methodPayload, methodData.classId = classConnection ∧
    methodData.methodId ∉ [10, 20, 30, 41, 50, 51]

/-- The turns whose default arm keeps a flag that is set. -/
def Thread.Strands (packetChaos : Int) (t : Thread) (packet : Option PacketStruct)
    (draws : RandStream) : Prop :=
  t.waitingResponse = true ∧ RollsOrdered packetChaos draws ∧ ∃ p ∈ packet, p.Unimplemented

/-- The thread of channel 0 over the turns that are not of that kind. -/
def implementedThread (f : Fuzzer) (packetChaos : Int) : TransitionSystem Thread :=
  ⟨Thread.start, fun t t' => ∃ c packet draws rest outcome, t.Ready packet ∧
    (packetDecider f packetChaos c packet t.currentState t.waitingResponse).run draws =
      .ok (outcome, rest) ∧ ¬ t.Strands packetChaos packet draws ∧ t' = t.after outcome⟩

section
variable {f : Fuzzer} {packetChaos : Int} {c : Circumstances} {packet : Option PacketStruct}
variable {t : Thread} {outcome : Outcome} {draws rest : RandStream}

theorem implementedThread_reachable (reach : (implementedThread f packetChaos).Reachable t) :
    (channelThread f packetChaos).Reachable t := by
  apply reach.view id
  · rfl
  · rintro t t' _ ⟨c, packet, draws, rest, outcome, ready, returns, _, rfl⟩
    exact .inr ⟨c, packet, outcome, ⟨ready, draws, rest, returns⟩, rfl⟩

theorem packetDecider_answer {state : State} {flag : Bool}
    (returns : (packetDecider f packetChaos c packet state flag).run draws =
      .ok (outcome, rest)) :
    RollsOrdered packetChaos draws ∧
        (orderedAnswer packet state flag).Leads f c (packet.bind PacketStruct.methodPayload)
          outcome ∨
      ¬ RollsOrdered packetChaos draws ∧ ∃ m, (Answer.message m).Leads f c none outcome := by
  obtain ⟨decision, left, deciding, delivering⟩ := Sampler.run_bind_ok returns
  have delivered := (Sampler.run_ofExcept_ok delivering).1
  obtain ⟨drawn, draws', rolled, decided⟩ := Sampler.run_bind_ok deciding
  obtain rfl : drawn = Int.tmod draws.head.val 4 := by
    obtain ⟨rfl, _⟩ := Sampler.run_done_ok (s := draws.tail) rolled
    rfl
  have y := Sampler.yields_of_run decided
  unfold rolledDecider at y
  split at y
  · rename_i ordered
    rw [orderedPacketDecider_eq] at y
    exact .inl ⟨ordered, act_leads y delivered⟩
  · rename_i chaotic
    obtain ⟨m, reply, made, rfl⟩ := chaotic_decision ((Sampler.yields_mapError ..).mp y)
    obtain ⟨d, rfl⟩ := generate_reply made
    obtain ⟨_, rfl⟩ := deliver_eq_ok.mp delivered
    exact .inr ⟨chaotic, m, d, made, rfl⟩

/-! ### The converse half of the invariant -/

/-- A state in which the client speaks is held with the flag cleared. -/
def Thread.Free (t : Thread) : Prop := t.currentState.Speaks → t.waitingResponse = false

theorem Message.free (m : Message) : Thread.Free ⟨m.next, m.expects⟩ := by
  cases m with
  | tuneOk => exact fun _ => rfl
  | _ =>
    intro speaks
    simp [State.Speaks, next] at speaks

theorem methodAnswer_free {methodData : MethodStruct} {flag : Bool}
    (implemented : methodData.methodId ∈ [10, 20, 30, 41, 50, 51] ∨ flag = false) :
    ∃ next ∈ (methodAnswer methodData flag).target, next.Free := by
  unfold methodAnswer
  split
  · exact ⟨_, rfl, Message.free .startOk⟩
  · exact ⟨_, rfl, Message.free .tuneOk⟩
  · exact ⟨_, rfl, fun _ => rfl⟩
  · exact ⟨_, rfl, fun _ => rfl⟩
  · exact ⟨_, rfl, Message.free .closeOk⟩
  · exact ⟨_, rfl, fun _ => rfl⟩
  · rcases implemented with known | clear
    · simp_all
    · exact ⟨_, rfl, fun _ => clear⟩

theorem packetAnswer_free {p : PacketStruct} (free : t.Free)
    (implemented : t.waitingResponse = true → ¬ p.Unimplemented) :
    ∃ next ∈ (packetAnswer p t.currentState t.waitingResponse).target, next.Free := by
  unfold packetAnswer
  split
  · exact ⟨t, rfl, free⟩
  split
  · rename_i methodData payload
    split
    · rename_i known
      apply methodAnswer_free
      by_contra unknown
      obtain ⟨missing, set⟩ := not_or.mp unknown
      exact implemented (Bool.of_not_eq_false set) ⟨methodData, payload, known, missing⟩
    · exact ⟨t, rfl, free⟩
  · exact ⟨t, rfl, free⟩

theorem orderedAnswer_free (sound : t.Sound) (free : t.Free) (ready : t.Ready packet)
    (implemented : t.waitingResponse = true → ∀ p ∈ packet, ¬ p.Unimplemented) :
    ∃ next ∈ (orderedAnswer packet t.currentState t.waitingResponse).target, next.Free := by
  unfold orderedAnswer
  split
  · exact ⟨_, rfl, fun _ => rfl⟩
  split
  · exact ⟨_, rfl, Message.free .amqpHeader⟩
  rename_i started
  cases packet with
  | some p => exact packetAnswer_free free fun set => implemented set p rfl
  | none =>
    rcases sound.idle ready with fresh | tuned | connected
    · exact (started fresh).elim
    · simp only [tuned]
      exact ⟨_, rfl, Message.free .connectionOpen⟩
    · simp only [connected]
      exact ⟨_, rfl, Message.free .close⟩

theorem Thread.Free.after (sound : t.Sound) (free : t.Free) (ready : t.Ready packet)
    (returns : (packetDecider f packetChaos c packet t.currentState t.waitingResponse).run draws =
      .ok (outcome, rest))
    (implemented : ¬ t.Strands packetChaos packet draws) : (t.after outcome).Free := by
  rw [sound.after_eq ⟨ready, draws, rest, returns⟩]
  rcases packetDecider_answer returns with ⟨rolled, ordered⟩ | ⟨_, m, chaotic⟩
  · obtain ⟨next, member, freeNext⟩ := orderedAnswer_free sound free ready
      fun set p arrived unknown => implemented ⟨set, rolled, p, arrived, unknown⟩
    rcases ordered.target with reached | lost
    · obtain rfl : next = _ := Option.mem_unique member reached
      exact freeNext
    · exact fun _ => lost.2
  · rcases chaotic.target with reached | lost
    · rw [← Option.some.inj reached]
      exact Message.free m
    · exact fun _ => lost.2

theorem implementedThread_free (reach : (implementedThread f packetChaos).Reachable t) :
    t.Free := by
  apply reach.invariant
  · exact fun _ => rfl
  · rintro t t' before free ⟨c, packet, draws, rest, outcome, ready, returns, implemented, rfl⟩
    have sound := channelThread_sound (implementedThread_reachable before)
    exact free.after sound ready returns implemented

theorem Thread.Strands.answer (strands : t.Strands packetChaos packet draws)
    (started : t.currentState ≠ .none) :
    orderedAnswer packet t.currentState t.waitingResponse = .null .none true := by
  obtain ⟨set, _, p, rfl, methodData, member, known, missing⟩ := strands
  have payload : p.methodPayload = some methodData := member
  have method : p.type = .method := p.method_iff.mp (by rw [payload]; rfl)
  have default : methodAnswer methodData true = .null .none true := by
    unfold methodAnswer
    split <;> simp_all
  unfold orderedAnswer packetAnswer
  rw [if_neg (by simp [method]), if_neg started]
  simp only [method, reduceCtorEq, if_false, payload, known, if_true, set]
  exact default

/-- In every run without such a turn the client waits in none of the states in which
it speaks, and each such turn ends such a run. -/
theorem speaks_without_waiting (f : Fuzzer) (packetChaos : Int) (t : Thread)
    (reach : (implementedThread f packetChaos).Reachable t) :
    (t.currentState.Speaks → t.waitingResponse = false ∧ t.Ready none) ∧
    ∀ c packet draws rest outcome, t.Ready packet → t.Strands packetChaos packet draws →
      (packetDecider f packetChaos c packet t.currentState t.waitingResponse).run draws =
        .ok (outcome, rest) → t.after outcome = ⟨.none, true⟩ := by
  have free := implementedThread_free reach
  have sound := channelThread_sound (implementedThread_reachable reach)
  constructor
  · intro speaks
    have clear := free speaks
    refine ⟨clear, ?_, fun _ => clear⟩
    intro closed
    simp [State.Speaks, closed] at speaks
  · intro c packet draws rest outcome ready strands returns
    have started : t.currentState ≠ .none := by
      intro fresh
      have clear := free (.inl fresh)
      simp [strands.1] at clear
    rcases packetDecider_answer returns with ⟨_, ordered⟩ | ⟨chaotic, _⟩
    · rw [strands.answer started] at ordered
      rw [sound.after_eq ⟨ready, draws, rest, returns⟩, ordered]
    · exact (chaotic strands.2.1).elim

end

/-- The listener still runs and every send is delivered. -/
def delivering : Circumstances := ⟨fun _ => none, false, true, true⟩

/-- Connection.Blocked, which no case of the decider names. -/
def blockedPacket : PacketStruct := .method 0 4 ⟨10, 60, [], 0⟩

theorem implementedThread_connected :
    (implementedThread (shipped 20) 0).Reachable ⟨.connected, false⟩ := by
  obtain ⟨ready, draws, rest, greets⟩ := shipped_greets
  have greeted : (implementedThread (shipped 20) 0).Reachable ⟨.connectionStart, true⟩ := by
    apply TransitionSystem.Reachable.start.next
    refine ⟨_, none, draws, rest, _, ready, greets, ?_, rfl⟩
    rintro ⟨clear, _⟩
    cases clear
  apply greeted.next
  refine ⟨delivering, some openOkPacket, Stream'.const 0, Stream'.const 0,
    ⟨.connected, false, none⟩, ⟨by decide, fun empty => nomatch empty⟩, rfl, ?_, rfl⟩
  rintro ⟨_, _, p, arrived, methodData, payload, _, missing⟩
  obtain rfl : openOkPacket = p := Option.some.inj arrived
  obtain rfl : (⟨10, 41, [], 0⟩ : MethodStruct) = methodData := Option.some.inj payload
  exact missing (by decide)

theorem speaks_without_waiting_connected : Thread.Ready ⟨.connected, false⟩ none :=
  ((speaks_without_waiting (shipped 20) 0 ⟨.connected, false⟩ implementedThread_connected).1
    (.inr (.inr rfl))).2

/-- A Connection.Blocked that answers the header takes the thread back to None, where
it waits for the server instead of sending its header. -/
theorem blocked_strands : (channelThread (shipped 20) 0).Reachable ⟨.none, true⟩ ∧
    ¬ Thread.Ready ⟨.none, true⟩ none ∧
    ¬ ∀ t, (channelThread (shipped 20) 0).Reachable t → t.currentState.Speaks →
      t.waitingResponse = false := by
  have stranded : (channelThread (shipped 20) 0).Reachable ⟨.none, true⟩ := by
    apply channelThread_greeted.next
    exact ⟨delivering, some blockedPacket, ⟨.none, true, none⟩,
      ⟨⟨by decide, fun empty => nomatch empty⟩, Stream'.const 0, Stream'.const 0, rfl⟩, rfl⟩
  refine ⟨stranded, ?_, ?_⟩
  · rintro ⟨_, clear⟩
    exact absurd (clear rfl) (by decide)
  · intro claimed
    exact absurd (claimed _ stranded (.inl rfl)) (by decide)

end Amqpgram
