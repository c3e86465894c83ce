import Mathlib.Data.List.Forall2
import Amqpgram.Fuzzer.Dialogue
import Amqpgram.Fuzzer.Listener
import Amqpgram.Fuzzer.Messages

/-! Client and server at PACKET_CHAOS = 0 and RULE_CHAOS = 0. The server answers what
it reads and may close the connection at any moment; its frames cross those of the
client on the wire and in the slot, where a later frame replaces an earlier one. -/
namespace Amqpgram

/-! ### The messages on the wire -/

def headerPacket : Decoded := ⟨amqpLiteral ++ [0, 0, 9, 1], 8⟩

def IsMessage : Message → Decoded → Prop
  | .amqpHeader, d => d = headerPacket
  | .startOk, d => OneMethodFrame 11 MethodCall.startOk.layout d
  | .tuneOk, d => OneMethodFrame 31 [.short, .long, .short] d
  | .connectionOpen, d => OneMethodFrame 40 MethodCall.connectionOpen.layout d
  | .close, d => OneMethodFrame 50 MethodCall.close.layout d
  | .closeOk, d => OneMethodFrame 51 MethodCall.closeOk.layout d

/-- The method id in a message; the header has none. -/
def Message.methodId : Message → Option Nat
  | .amqpHeader => none
  | .startOk => some 11
  | .tuneOk => some 31
  | .connectionOpen => some 40
  | .close => some 50
  | .closeOk => some 51

theorem IsMessage.broken {m : Message} {d : Decoded} (message : IsMessage m d) :
    ∃ packet, breakPacket (bufferMemory d.bytes) = .ok packet ∧
      (packet.methodPayload.map MethodStruct.methodId) = m.methodId := by
  cases m with
  | amqpHeader =>
    obtain rfl : d = headerPacket := message
    exact ⟨_, rfl, rfl⟩
  | startOk | tuneOk | connectionOpen | close | closeOk =>
    obtain ⟨arguments, _, _, broken⟩ := OneMethodFrame.frame message
    exact ⟨_, broken, rfl⟩

theorem IsMessage.unique {m m' : Message} {d : Decoded} (message : IsMessage m d)
    (message' : IsMessage m' d) : m = m' := by
  obtain ⟨packet, broken, id⟩ := message.broken
  obtain ⟨packet', broken', id'⟩ := message'.broken
  obtain rfl := Except.ok.inj (broken.symm.trans broken')
  have same := id.symm.trans id'
  cases m <;> cases m' <;> first | rfl | cases same

theorem amqpHeader_extends {less more : Nat} (le : less ≤ more) :
    Extends (amqpHeader (shipped less)) (amqpHeader (shipped more)) :=
  .bind (decodeRule_extends le _) fun _ => .refl _ _

theorem amqpHeader_reply {fuel : Nat} {reply : Reply}
    (y : (amqpHeader (shipped fuel)).Yields reply) :
    reply = ⟨some headerPacket, .connectionStart, true⟩ :=
  yields_unique amqpHeader_extends 20 (by decide +kernel) y

theorem generate_isMessage {m : Message} {fuel : Nat} {heap : Memory}
    {methodData : Option MethodStruct} {d : Decoded} {s : State} {b : Bool}
    (y : (m.generate (shipped fuel) heap methodData).Yields ⟨some d, s, b⟩) : IsMessage m d := by
  have frame : ∀ call : MethodCall, (call.run (shipped fuel)).Yields ⟨some d, s, b⟩ →
      OneMethodFrame call.methodId call.layout d := by
    intro call made
    obtain ⟨arguments, sent, short, consumed⟩ := MethodCall.arguments made
    obtain rfl := Option.some.inj sent
    have known : call.methodId < 65536 := by cases call <;> simp [MethodCall.methodId]
    exact methodPacket_oneFrame known short consumed
  cases m with
  | amqpHeader => exact Option.some.inj (congrArg Reply.sentPacket (amqpHeader_reply y))
  | startOk => exact frame .startOk y
  | tuneOk => exact frame (.tuneOk heap methodData) y
  | connectionOpen => exact frame .connectionOpen y
  | close => exact frame .close y
  | closeOk => exact frame .closeOk y

/-! ### The system -/

inductive ServerMethod where
  | start
  | tune
  | openOk
  | close
  | closeOk
  deriving DecidableEq, Repr

def ServerMethod.methodId : ServerMethod → Nat
  | .start => 10
  | .tune => 30
  | .openOk => 41
  | .close => 50
  | .closeOk => 51

/-- A method frame of the server with any arguments that let it fit in one `recv`. -/
structure ServerFrame where
  method : ServerMethod
  arguments : List UInt8
  fits : arguments.length + 12 ≤ maxLine

def ServerFrame.bytes (frame : ServerFrame) : List UInt8 :=
  encodeFrame 1 0 (encodeMethod 10 frame.method.methodId frame.arguments)

def ServerFrame.packet (frame : ServerFrame) : PacketStruct :=
  .method 0 (frame.arguments.length + 4)
    ⟨10, frame.method.methodId, frame.arguments, frame.arguments.length⟩

def Message.reply : Message → Option ServerMethod
  | .amqpHeader => some .start
  | .startOk => some .tune
  | .tuneOk => none
  | .connectionOpen => some .openOk
  | .close => some .closeOk
  | .closeOk => none

/-- The threads of the client with the slot between them, the frames on the wire, the
messages the server has not read, and all messages sent. -/
structure Conversation where
  thread : Thread
  slot : Option PacketStruct
  listening : Bool
  wire : List ServerFrame
  inbox : List Decoded
  closing : Bool
  sent : List Decoded

def Conversation.start : Conversation := ⟨Thread.start, none, true, [], [], false, []⟩

def store (slot : Option PacketStruct) (published : List PacketStruct) : Option PacketStruct :=
  published.foldl (fun _ packet => some packet) slot

/-- The steps of the server, which may leave a message unanswered, of the listener,
whose `recv` a stale `errno` can make it ignore, and of the thread of channel 0. -/
inductive Conversation.Step (fuel : Nat) : Conversation → Conversation → Prop where
  | answer (s : Conversation) (d : Decoded) (rest : List Decoded) (m : Message)
      (frame : ServerFrame) (unread : s.inbox = d :: rest) (message : IsMessage m d)
      (reply : m.reply = some frame.method)
      (allowed : s.closing = true → frame.method = .closeOk) :
      Conversation.Step fuel s { s with inbox := rest, wire := s.wire ++ [frame] }
  | ignore (s : Conversation) (d : Decoded) (rest : List Decoded) (unread : s.inbox = d :: rest) :
      Conversation.Step fuel s { s with inbox := rest }
  | close (s : Conversation) (frame : ServerFrame) (isClose : frame.method = .close)
      (once : s.closing = false) :
      Conversation.Step fuel s { s with closing := true, wire := s.wire ++ [frame] }
  | recv (s : Conversation) (frame : ServerFrame) (rest : List ServerFrame) (stale : List UInt8)
      (turns : Nat) (listening : s.listening = true) (next : s.wire = frame :: rest) :
      Conversation.Step fuel s { s with
        wire := rest
        slot := store s.slot
          (listenerLoop (turns + 2) (frame.bytes ++ stale) frame.bytes.length).published }
  | again (s : Conversation) (frame : ServerFrame) (rest : List ServerFrame)
      (listening : s.listening = true) (next : s.wire = frame :: rest) :
      Conversation.Step fuel s { s with wire := rest }
  | stop (s : Conversation) : Conversation.Step fuel s { s with listening := false }
  | turn (s : Conversation) (c : Circumstances) (outcome : Outcome)
      (turn : Turn (shipped fuel) 0 c s.slot s.thread outcome)
      (running : c.isRunning = false → s.listening = false) :
      Conversation.Step fuel s { s with
        thread := s.thread.after outcome
        slot := none
        inbox := s.inbox ++ outcome.sent.toList
        sent := s.sent ++ outcome.sent.toList }

def conversation (fuel : Nat) : TransitionSystem Conversation :=
  ⟨Conversation.start, Conversation.Step fuel⟩

/-- The order of `open-connection` and `use-connection`. -/
def clientScript : List Message := [.amqpHeader, .startOk, .tuneOk, .connectionOpen, .close]

/-- A prefix of that order, possibly followed by a single Close-Ok. -/
def ClientOrder (kinds : List Message) : Prop :=
  ∃ greeting, greeting <+: clientScript ∧ (kinds = greeting ∨ kinds = greeting ++ [.closeOk])

/-! ### What the frames and the table say -/

theorem ServerFrame.known (frame : ServerFrame) : frame.method.methodId < 65536 := by
  cases frame.method <;> decide

theorem ServerFrame.length_bytes (frame : ServerFrame) :
    frame.bytes.length = frame.arguments.length + 12 := by
  simp [bytes, length_encodeFrame, encodeMethod]

theorem ServerFrame.published (frame : ServerFrame) (stale : List UInt8) (turns : Nat) :
    (listenerLoop (turns + 2) (frame.bytes ++ stale) frame.bytes.length).published =
      [frame.packet] := by
  have fits := frame.fits
  have length := frame.length_bytes
  unfold maxLine at fits
  have broken : breakPacket (bufferMemory (frame.bytes ++ stale)) = .ok frame.packet :=
    breakPacket_method (by decide) (by decide) frame.known (by omega) (by omega)
  have size : frame.packet.size = frame.arguments.length + 4 := PacketStruct.method_size ..
  have typed : frame.packet.type ≠ .none := by simp [packet, PacketStruct.method]
  rw [listenerLoop_publish (by omega) broken typed rfl (by omega)]

/-- The answer of the table to a method of the server. -/
def ServerMethod.answer : ServerMethod → Answer
  | .start => .message .startOk
  | .tune => .message .tuneOk
  | .openOk => .null .connected false
  | .close => .message .closeOk
  | .closeOk => .null .connectionClosed false

section
variable {held : Option ServerFrame}

theorem ofConnection_held (held : Option ServerFrame) :
    OfConnection (held.map ServerFrame.packet) := by
  intro p member
  cases held with
  | none => cases member
  | some frame =>
    obtain rfl := Option.some.inj member
    exact ⟨_, rfl, rfl⟩

theorem orderedAnswer_held (state : State) (flag : Bool) :
    orderedAnswer (held.map ServerFrame.packet) state flag =
      if state = .none then .message .amqpHeader
      else match held with
        | none => idleAnswer state flag
        | some frame => frame.method.answer := by
  rw [orderedAnswer_connection (ofConnection_held held)]
  cases held with
  | none => rfl
  | some frame =>
    obtain ⟨method, arguments, fits⟩ := frame
    cases method <;> rfl

end

theorem leads_message {fuel : Nat} {c : Circumstances} {methodData : Option MethodStruct}
    {m : Message} {outcome : Outcome}
    (leads : (Answer.message m).Leads (shipped fuel) c methodData outcome) :
    (∃ d, IsMessage m d ∧ outcome = ⟨m.next, m.expects, some d⟩) ∨
      outcome = ⟨.connectionClosed, false, none⟩ := by
  obtain ⟨d, made, rfl⟩ := leads
  rcases outcome_buffer d m.next m.expects with sent | ⟨closed, _⟩
  · exact .inl ⟨d, generate_isMessage made, sent⟩
  · exact .inr closed

/-! ### The invariant -/

/-- Where the client is in its order, before it has read a Close. -/
inductive Phase where
  | fresh
  | greeted
  | authenticated
  | tuned
  | opening
  | opened
  | closing
  deriving DecidableEq, Repr

def Phase.thread : Phase → Thread
  | .fresh => ⟨.none, false⟩
  | .greeted => ⟨.connectionStart, true⟩
  | .authenticated => ⟨.connectionStart, true⟩
  | .tuned => ⟨.connectionTuned, false⟩
  | .opening => ⟨.connectionOpen, true⟩
  | .opened => ⟨.connected, false⟩
  | .closing => ⟨.connectionCloseOK, true⟩

def Phase.said : Phase → List Message
  | .fresh => []
  | .greeted => [.amqpHeader]
  | .authenticated => [.amqpHeader, .startOk]
  | .tuned => [.amqpHeader, .startOk, .tuneOk]
  | .opening => [.amqpHeader, .startOk, .tuneOk, .connectionOpen]
  | .opened => [.amqpHeader, .startOk, .tuneOk, .connectionOpen]
  | .closing => [.amqpHeader, .startOk, .tuneOk, .connectionOpen, .close]

def Phase.due : Phase → List ServerMethod
  | .greeted => [.start]
  | .authenticated => [.tune]
  | .opening => [.openOk]
  | .closing => [.closeOk]
  | _ => []

theorem Phase.said_order (p : Phase) : ClientOrder p.said ∧ ClientOrder (p.said ++ [.closeOk]) := by
  have ordered : p.said <+: clientScript := by cases p <;> decide
  exact ⟨⟨p.said, ordered, .inl rfl⟩, ⟨p.said, ordered, .inr rfl⟩⟩

/-- The stages of a conversation, given the methods in the slot and on the wire and
the replies the unread messages ask for. -/
inductive Stage (t : Thread) (sent : List Decoded) (closing : Bool)
    (pending owed : List ServerMethod) : Prop where
  | talking (p : Phase) (thread : t = p.thread) (said : List.Forall₂ IsMessage p.said sent)
      (due : (pending.filter (· ≠ .close) ++ owed).Sublist p.due)
  | answered (p : Phase) (thread : t = ⟨.connectionCloseOK, true⟩)
      (said : List.Forall₂ IsMessage (p.said ++ [.closeOk]) sent) (closed : closing = true)
      (only : ∀ x ∈ pending, x = .closeOk)
  | ended (thread : t.currentState = .connectionClosed)
      (said : ∃ kinds, List.Forall₂ IsMessage kinds sent ∧ ClientOrder kinds)

theorem Stage.said {t : Thread} {sent : List Decoded} {closing : Bool}
    {pending owed : List ServerMethod} (stage : Stage t sent closing pending owed) :
    ∃ kinds, List.Forall₂ IsMessage kinds sent ∧ ClientOrder kinds := by
  cases stage with
  | talking p _ said _ => exact ⟨_, said, p.said_order.1⟩
  | answered p _ said _ _ => exact ⟨_, said, p.said_order.2⟩
  | ended _ said => exact said

theorem Stage.mono {t : Thread} {sent : List Decoded} {closing : Bool}
    {pending pending' owed owed' : List ServerMethod} (stage : Stage t sent closing pending owed)
    (fewer : pending'.Sublist pending) (less : owed'.Sublist owed) :
    Stage t sent closing pending' owed' := by
  cases stage with
  | talking p thread said due =>
    exact .talking p thread said (((fewer.filter _).append less).trans due)
  | answered p thread said closed only =>
    exact .answered p thread said closed fun x member => only x (fewer.subset member)
  | ended thread said => exact .ended thread said

section Turn
variable {fuel : Nat} {c : Circumstances} {held : Option ServerFrame} {outcome : Outcome}
variable {p : Phase} {t : Thread} {sent : List Decoded} {closing : Bool}
variable {rest owed : List ServerMethod}

/-- What a turn leaves of a stage: the messages it sent are owed their replies. -/
def Advances (t : Thread) (sent : List Decoded) (closing : Bool) (rest owed : List ServerMethod)
    (outcome : Outcome) : Prop :=
  ∃ spoken, List.Forall₂ IsMessage spoken outcome.sent.toList ∧
    Stage (t.after outcome) (sent ++ outcome.sent.toList) closing rest
      (owed ++ spoken.filterMap Message.reply)

theorem advances_ended (kinds : ∃ kinds, List.Forall₂ IsMessage kinds sent ∧ ClientOrder kinds)
    (flag : Bool) : Advances t sent closing rest owed ⟨.connectionClosed, flag, none⟩ := by
  refine ⟨[], .nil, ?_⟩
  rw [Option.toList_none, List.append_nil]
  exact .ended rfl kinds

theorem said_append {kinds : List Message} {m : Message} {d : Decoded}
    (said : List.Forall₂ IsMessage kinds sent) (message : IsMessage m d) :
    List.Forall₂ IsMessage (kinds ++ [m]) (sent ++ [d]) :=
  List.rel_append said (.cons message .nil)

theorem advances_next {m : Message} {q : Phase} {methodData : Option MethodStruct}
    (leads : (Answer.message m).Leads (shipped fuel) c methodData outcome)
    (said : List.Forall₂ IsMessage p.said sent) (next : q.said = p.said ++ [m])
    (thread : q.thread = ⟨m.next, m.expects⟩) (due : m.reply.toList.Sublist q.due)
    (quiet : rest.filter (· ≠ .close) ++ owed = []) :
    Advances t sent closing rest owed outcome := by
  rcases leads_message leads with ⟨d, message, rfl⟩ | rfl
  · refine ⟨[m], .cons message .nil, .talking q ?_ ?_ ?_⟩
    · rw [Thread.after, if_neg m.next_named, thread]
    · rw [next]
      exact said_append said message
    · have replies : [m].filterMap Message.reply = m.reply.toList := by
        cases m <;> rfl
      rw [← List.append_assoc, quiet, replies]
      exact due
  · exact advances_ended ⟨_, said, p.said_order.1⟩ false

theorem advances_closeOk {methodData : Option MethodStruct}
    (leads : (Answer.message .closeOk).Leads (shipped fuel) c methodData outcome)
    (said : List.Forall₂ IsMessage p.said sent) (closed : closing = true)
    (only : ∀ x ∈ rest, x = .closeOk) : Advances t sent closing rest owed outcome := by
  rcases leads_message leads with ⟨d, message, rfl⟩ | rfl
  · exact ⟨[.closeOk], .cons message .nil,
      .answered p rfl (said_append said message) closed only⟩
  · exact advances_ended ⟨_, said, p.said_order.1⟩ false

theorem advances_idle (ready : p.thread.Ready none)
    (leads : (orderedAnswer none p.thread.currentState p.thread.waitingResponse).Leads
      (shipped fuel) c none outcome)
    (said : List.Forall₂ IsMessage p.said sent)
    (due : (rest.filter (· ≠ .close) ++ owed).Sublist p.due) :
    Advances p.thread sent closing rest owed outcome := by
  cases p with
  | fresh =>
    exact advances_next (q := .greeted) leads said rfl rfl (.refl _) (List.sublist_nil.mp due)
  | tuned =>
    exact advances_next (q := .opening) leads said rfl rfl (.refl _) (List.sublist_nil.mp due)
  | opened =>
    exact advances_next (q := .closing) leads said rfl rfl (.refl _) (List.sublist_nil.mp due)
  | greeted | authenticated | opening | closing => cases ready.2 rfl

theorem due_single {method : ServerMethod} {later : List ServerMethod}
    (due : (method :: later).Sublist p.due) : p.due = [method] ∧ later = [] := by
  cases p with
  | fresh | tuned | opened => cases List.sublist_nil.mp due
  | greeted | authenticated | opening | closing =>
    obtain ⟨same, less⟩ := List.cons_sublist_cons'.mp due |>.resolve_left (by simp)
    exact ⟨by rw [same]; rfl, List.sublist_nil.mp less⟩

theorem advances_reply {method : ServerMethod} {methodData : Option MethodStruct}
    (reply : p.due = [method]) (quiet : rest.filter (· ≠ .close) ++ owed = [])
    (leads : method.answer.Leads (shipped fuel) c methodData outcome)
    (said : List.Forall₂ IsMessage p.said sent) :
    Advances p.thread sent closing rest owed outcome := by
  cases p with
  | fresh | tuned | opened => cases reply
  | greeted =>
    obtain ⟨rfl, _⟩ := List.cons.inj reply
    exact advances_next (q := .authenticated) leads said rfl rfl (.refl _) quiet
  | authenticated =>
    obtain ⟨rfl, _⟩ := List.cons.inj reply
    exact advances_next (q := .tuned) leads said rfl rfl (.refl _) quiet
  | opening =>
    obtain ⟨rfl, _⟩ := List.cons.inj reply
    obtain rfl : outcome = ⟨.connected, false, none⟩ := leads
    refine ⟨[], .nil, .talking .opened rfl ?_ ?_⟩
    · rw [Option.toList_none, List.append_nil]
      exact said
    · rw [List.filterMap_nil, List.append_nil, quiet]
      exact List.nil_sublist _
  | closing =>
    obtain ⟨rfl, _⟩ := List.cons.inj reply
    obtain rfl : outcome = ⟨.connectionClosed, false, none⟩ := leads
    exact advances_ended ⟨_, said, Phase.closing.said_order.1⟩ false

/-- A turn that finds a frame answers it; the frame is a Close or the reply due. -/
theorem advances_held {frame : ServerFrame} {methodData : Option MethodStruct}
    (leads : (orderedAnswer (some frame.packet) p.thread.currentState
      p.thread.waitingResponse).Leads (shipped fuel) c methodData outcome)
    (said : List.Forall₂ IsMessage p.said sent)
    (closeLast : frame.method = .close → ∀ x ∈ rest, x = .closeOk)
    (closeSent : frame.method = .close → closing = true)
    (due : ((frame.method :: rest).filter (· ≠ .close) ++ owed).Sublist p.due) :
    Advances p.thread sent closing rest owed outcome := by
  have answer : orderedAnswer ((some frame).map ServerFrame.packet) p.thread.currentState
      p.thread.waitingResponse = _ := orderedAnswer_held ..
  rw [Option.map_some] at answer
  rw [answer] at leads
  by_cases fresh : p = .fresh
  · subst fresh
    have fewer : (rest.filter (· ≠ .close)).Sublist ((frame.method :: rest).filter (· ≠ .close)) :=
      (List.sublist_cons_self _ _).filter _
    exact advances_next (q := .greeted) leads said rfl rfl (.refl _)
      (List.sublist_nil.mp ((fewer.append_right owed).trans due))
  have started : p.thread.currentState ≠ .none := by
    cases p with
    | fresh => exact (fresh rfl).elim
    | _ => exact fun none => nomatch none
  rw [if_neg started] at leads
  dsimp only at leads
  by_cases isClose : frame.method = .close
  · rw [isClose] at leads
    exact advances_closeOk leads said (closeSent isClose) (closeLast isClose)
  -- any other method is the reply due, and the only one
  rw [List.filter_cons_of_pos (by simpa using isClose), List.cons_append] at due
  obtain ⟨reply, quiet⟩ := due_single due
  exact advances_reply reply quiet leads said

theorem Stage.advances (turn : Turn (shipped fuel) 0 c (held.map ServerFrame.packet) t outcome)
    (stage : Stage t sent closing ((held.toList.map ServerFrame.method) ++ rest) owed)
    (closeLast : ∀ frame ∈ held, frame.method = .close → ∀ x ∈ rest, x = .closeOk)
    (closeSent : ∀ frame ∈ held, frame.method = .close → closing = true) :
    Advances t sent closing rest owed outcome := by
  have leads := turn.ordered (by decide)
  cases stage with
  | talking p thread said due =>
    subst thread
    cases held with
    | none => exact advances_idle turn.ready leads said due
    | some frame => exact advances_held leads said (closeLast frame rfl) (closeSent frame rfl) due
  | answered p thread said closed only =>
    subst thread
    cases held with
    | none => cases turn.ready.2 rfl
    | some frame =>
      have method : frame.method = .closeOk := only _ (List.mem_cons_self ..)
      rw [orderedAnswer_held, if_neg (by simp)] at leads
      dsimp only at leads
      rw [method] at leads
      obtain rfl : outcome = ⟨.connectionClosed, false, none⟩ := leads
      exact advances_ended ⟨_, said, p.said_order.2⟩ false
  | ended thread _ => exact (turn.ready.1 thread).elim

end Turn

/-- What is known of a conversation: the frame in the slot and the messages unread. -/
structure Conversation.View (s : Conversation) (held : Option ServerFrame)
    (unread : List Message) : Prop where
  slot : s.slot = held.map ServerFrame.packet
  inbox : List.Forall₂ IsMessage unread s.inbox
  closeLast : (held.toList.map ServerFrame.method ++ s.wire.map ServerFrame.method).Pairwise
    fun x y => x = .close → y = .closeOk
  closeSent : .close ∈ held.toList.map ServerFrame.method ++ s.wire.map ServerFrame.method →
    s.closing = true
  stage : Stage s.thread s.sent s.closing
    (held.toList.map ServerFrame.method ++ s.wire.map ServerFrame.method)
    (unread.filterMap Message.reply)

theorem reply_close {m : Message} : m.reply ≠ some .close := by
  cases m <;> decide

section Steps
variable {fuel : Nat} {s s' : Conversation} {held : Option ServerFrame} {unread : List Message}

theorem Conversation.View.mono {held' : Option ServerFrame} {unread' : List Message}
    (view : s.View held unread) (slot : s'.slot = held'.map ServerFrame.packet)
    (inbox : List.Forall₂ IsMessage unread' s'.inbox) (less : unread'.Sublist unread)
    (fewer : (held'.toList.map ServerFrame.method ++ s'.wire.map ServerFrame.method).Sublist
      (held.toList.map ServerFrame.method ++ s.wire.map ServerFrame.method))
    (thread : s'.thread = s.thread) (sent : s'.sent = s.sent) (closing : s'.closing = s.closing) :
    s'.View held' unread' := by
  refine ⟨slot, inbox, view.closeLast.sublist fewer, ?_, ?_⟩
  · intro member
    rw [closing]
    exact view.closeSent (fewer.subset member)
  · rw [thread, sent, closing]
    exact view.stage.mono fewer (less.filterMap _)

theorem Conversation.View.answer (view : s.View held unread) {d : Decoded} {rest : List Decoded}
    {m : Message} {frame : ServerFrame} (next : s.inbox = d :: rest) (message : IsMessage m d)
    (reply : m.reply = some frame.method) (allowed : s.closing = true → frame.method = .closeOk) :
    ∃ unread, ({ s with inbox := rest, wire := s.wire ++ [frame] } : Conversation).View
      held unread := by
  have inbox := view.inbox
  rw [next, List.forall₂_cons_right_iff] at inbox
  obtain ⟨m', later, message', others, rfl⟩ := inbox
  obtain rfl := message'.unique message
  have other : frame.method ≠ .close := fun isClose => reply_close (isClose ▸ reply)
  have pending : held.toList.map ServerFrame.method ++ (s.wire ++ [frame]).map ServerFrame.method =
      (held.toList.map ServerFrame.method ++ s.wire.map ServerFrame.method) ++ [frame.method] := by
    simp
  refine ⟨later, view.slot, others, ?_, ?_, ?_⟩
  · rw [pending, List.pairwise_append]
    refine ⟨view.closeLast, List.pairwise_singleton _ _, ?_⟩
    intro x member y last isClose
    obtain rfl := List.mem_singleton.mp last
    exact allowed (view.closeSent (isClose ▸ member))
  · rw [pending]
    intro member
    rcases List.mem_append.mp member with before | last
    · exact view.closeSent before
    · exact (other (List.mem_singleton.mp last).symm).elim
  · rw [pending]
    cases view.stage with
    | talking p thread said due =>
      refine .talking p thread said ?_
      rw [List.filterMap_cons_some reply] at due
      rw [List.filter_append, List.filter_cons_of_pos (by simpa using other)]
      simpa using due
    | answered p thread said closed only =>
      refine .answered p thread said closed ?_
      intro x member
      rcases List.mem_append.mp member with before | last
      · exact only x before
      · rw [List.mem_singleton.mp last]
        exact allowed closed
    | ended thread said => exact .ended thread said

theorem Conversation.View.close (view : s.View held unread) {frame : ServerFrame}
    (isClose : frame.method = .close) (once : s.closing = false) :
    ({ s with closing := true, wire := s.wire ++ [frame] } : Conversation).View held unread := by
  have absent : .close ∉ held.toList.map ServerFrame.method ++ s.wire.map ServerFrame.method := by
    intro member
    rw [view.closeSent member] at once
    cases once
  have pending : held.toList.map ServerFrame.method ++ (s.wire ++ [frame]).map ServerFrame.method =
      (held.toList.map ServerFrame.method ++ s.wire.map ServerFrame.method) ++ [.close] := by
    simp [isClose]
  refine ⟨view.slot, view.inbox, ?_, fun _ => rfl, ?_⟩
  · rw [pending, List.pairwise_append]
    refine ⟨view.closeLast, List.pairwise_singleton _ _, ?_⟩
    intro x member y _ same
    exact (absent (same ▸ member)).elim
  · rw [pending]
    cases view.stage with
    | talking p thread said due =>
      refine .talking p thread said ?_
      simpa [List.filter_append] using due
    | answered p thread said closed only =>
      rw [once] at closed
      cases closed
    | ended thread said => exact .ended thread said

theorem Conversation.View.turn (view : s.View held unread) {c : Circumstances} {outcome : Outcome}
    (turn : Turn (shipped fuel) 0 c s.slot s.thread outcome) :
    ∃ unread, ({ s with
      thread := s.thread.after outcome
      slot := none
      inbox := s.inbox ++ outcome.sent.toList
      sent := s.sent ++ outcome.sent.toList } : Conversation).View none unread := by
  have closeLast := List.pairwise_append.mp view.closeLast
  rw [view.slot] at turn
  obtain ⟨spoken, messages, stage⟩ := view.stage.advances turn
    (fun frame member isClose x later => closeLast.2.2 _
      (List.mem_map.mpr ⟨frame, Option.mem_toList.mpr member, rfl⟩) x later isClose)
    (fun frame member isClose => view.closeSent (List.mem_append_left _
      (List.mem_map.mpr ⟨frame, Option.mem_toList.mpr member, isClose⟩)))
  refine ⟨unread ++ spoken, rfl, List.rel_append view.inbox messages, closeLast.2.1, ?_, ?_⟩
  · intro member
    exact view.closeSent (List.mem_append_right _ member)
  · rw [List.filterMap_append]
    exact stage

theorem Conversation.View.step (view : s.View held unread) (step : Conversation.Step fuel s s') :
    ∃ held unread, s'.View held unread := by
  cases step with
  | answer d rest m frame next message reply allowed =>
    exact ⟨held, view.answer next message reply allowed⟩
  | ignore d rest next =>
    have inbox := view.inbox
    rw [next, List.forall₂_cons_right_iff] at inbox
    obtain ⟨m, later, _, others, rfl⟩ := inbox
    exact ⟨held, later,
      view.mono view.slot others (List.sublist_cons_self _ _) (.refl _) rfl rfl rfl⟩
  | close frame isClose once => exact ⟨held, unread, view.close isClose once⟩
  | recv frame rest stale turns listening next =>
    refine ⟨some frame, unread, view.mono ?_ view.inbox (.refl _) ?_ rfl rfl rfl⟩
    · rw [frame.published]
      rfl
    · rw [next]
      exact List.sublist_append_right _ _
  | again frame rest listening next =>
    refine ⟨held, unread, view.mono view.slot view.inbox (.refl _) ?_ rfl rfl rfl⟩
    rw [next]
    exact (List.sublist_cons_self _ _).append_left _
  | stop => exact ⟨held, unread, view.mono view.slot view.inbox (.refl _) (.refl _) rfl rfl rfl⟩
  | turn c outcome turn running => exact ⟨none, view.turn turn⟩

theorem conversation_view (reach : (conversation fuel).Reachable s) :
    ∃ held unread, s.View held unread := by
  apply reach.invariant (p := fun s => ∃ held unread, s.View held unread)
  · have stage : Stage Thread.start [] false [] [] := .talking .fresh rfl .nil (.refl _)
    exact ⟨none, [], rfl, .nil, .nil, fun member => (List.not_mem_nil member).elim, stage⟩
  · rintro s s' _ ⟨held, unread, view⟩ step
    exact view.step step

theorem outcome_closes {c : Circumstances} {decision : Decision}
    (closed : (decision.outcome c).nextState = .connectionClosed) :
    decision.nextState = .connectionClosed ∨ ¬ (c.isRunning = true ∧ c.delivered = true) := by
  unfold Decision.outcome at closed
  split at closed
  · exact .inl closed
  · split at closed
    · exact .inl closed
    · rename_i down
      exact .inr down

theorem Answer.Leads.closes {f : Fuzzer} {c : Circumstances} {methodData : Option MethodStruct}
    {answer : Answer} {outcome : Outcome} (leads : answer.Leads f c methodData outcome)
    (closed : outcome.nextState = .connectionClosed) :
    (∃ flag, ⟨.connectionClosed, flag⟩ ∈ answer.target) ∨
      ¬ (c.isRunning = true ∧ c.delivered = true) := by
  cases answer with
  | message m =>
    obtain ⟨d, _, rfl⟩ := leads
    rcases outcome_closes closed with named | down
    · cases m <;> cases named
    · exact .inr down
  | null state flag =>
    obtain rfl := leads
    obtain rfl : state = .connectionClosed := closed
    exact .inl ⟨flag, rfl⟩
  | unassigned state flag =>
    obtain ⟨_, rfl⟩ := leads
    obtain rfl : state = .connectionClosed := closed
    exact .inl ⟨flag, rfl⟩
  | crash => exact leads.elim

theorem target_closed {packet : Option PacketStruct} (known : OfConnection packet) {state : State}
    {flag b : Bool} (running : state ≠ .connectionClosed)
    (member : ⟨.connectionClosed, b⟩ ∈ (orderedAnswer packet state flag).target) :
    ∃ methodData ∈ received packet, methodData.methodId = 51 := by
  rw [orderedAnswer_connection known] at member
  split at member
  · cases member
  split at member
  · cases state with
    | connectionClosed => exact (running rfl).elim
    | _ => cases member
  · rename_i methodData carried
    refine ⟨methodData, carried, ?_⟩
    unfold methodAnswer at member
    split at member <;> first | assumption | cases member

/-- A turn that closes the connection has read a Close-Ok, failed to send, or found the
listener stopped. -/
theorem Turn.closes {c : Circumstances} {outcome : Outcome} {packet : Option PacketStruct}
    {t : Thread} (known : OfConnection packet) (turn : Turn (shipped fuel) 0 c packet t outcome)
    (closed : (t.after outcome).currentState = .connectionClosed) :
    (∃ methodData ∈ received packet, methodData.methodId = 51) ∨
      (c.isRunning = true ∧ c.delivered = false) ∨ c.isRunning = false := by
  have entered : outcome.nextState = .connectionClosed := by
    unfold Thread.after at closed
    split at closed
    · exact (turn.ready.1 closed).elim
    · exact closed
  rcases (turn.ordered (by decide)).closes entered with ⟨flag, member⟩ | down
  · exact .inl (target_closed known turn.ready.1 member)
  · right
    cases running : c.isRunning with
    | false => exact .inr rfl
    | true =>
      left
      refine ⟨rfl, ?_⟩
      simpa [running] using down

/-- The client keeps to its order against every conforming server, and closes the
connection for these three reasons only. -/
theorem conversation_order (fuel : Nat) (s : Conversation)
    (reach : (conversation fuel).Reachable s) :
    (∃ kinds, List.Forall₂ IsMessage kinds s.sent ∧ ClientOrder kinds) ∧
    ∀ c outcome, Turn (shipped fuel) 0 c s.slot s.thread outcome →
      (c.isRunning = false → s.listening = false) →
      (s.thread.after outcome).currentState = .connectionClosed →
      (∃ methodData ∈ received s.slot, methodData.methodId = 51) ∨
        (c.isRunning = true ∧ c.delivered = false) ∨ s.listening = false := by
  obtain ⟨held, unread, view⟩ := conversation_view reach
  refine ⟨view.stage.said, ?_⟩
  intro c outcome turn running closed
  have known : OfConnection s.slot := by
    rw [view.slot]
    exact ofConnection_held held
  rcases turn.closes known closed with read | failed | stopped
  · exact .inl read
  · exact .inr (.inl failed)
  · exact .inr (.inr (running stopped))

theorem conversation_recv (reach : (conversation fuel).Reachable s) {frame : ServerFrame}
    {rest : List ServerFrame} (listening : s.listening = true) (next : s.wire = frame :: rest) :
    (conversation fuel).Reachable { s with wire := rest, slot := some frame.packet } := by
  have received := reach.next (.recv s frame rest [] 0 listening next)
  rw [frame.published] at received
  exact received

theorem conversation_answer (reach : (conversation fuel).Reachable s) {d : Decoded}
    {rest : List Decoded} {m : Message} (frame : ServerFrame) (unread : s.inbox = d :: rest)
    (message : IsMessage m d) (reply : m.reply = some frame.method) (going : s.closing = false) :
    (conversation fuel).Reachable { s with inbox := rest, wire := s.wire ++ [frame] } :=
  reach.next (.answer s d rest m frame unread message reply fun closing =>
    (Bool.eq_false_iff.mp going closing).elim)

theorem conversation_turn (reach : (conversation fuel).Reachable s) {slot : Option PacketStruct}
    {t : Thread} {c : Circumstances} {outcome : Outcome} (content : s.slot = slot)
    (thread : s.thread = t) (turn : Turn (shipped fuel) 0 c slot t outcome)
    (running : c.isRunning = true) :
    (conversation fuel).Reachable { s with
      thread := t.after outcome
      slot := none
      inbox := s.inbox ++ outcome.sent.toList
      sent := s.sent ++ outcome.sent.toList } := by
  subst content thread
  refine reach.next (.turn s c outcome turn fun stopped => ?_)
  rw [running] at stopped
  cases stopped

end Steps

def startFrame : ServerFrame := ⟨.start, [], by decide⟩

def tuneFrame : ServerFrame := ⟨.tune, [7, 255, 0, 2, 0, 0, 0, 60], by decide⟩

theorem startOkSent_isMessage : IsMessage .startOk startOkSent := by
  rcases leads_message (m := .startOk) (shipped_starts.ordered (by decide)) with
    ⟨d, message, outcome⟩ | closed
  · cases outcome
    exact message
  · cases closed

/-- The server answers header and Start-Ok; the client has read its Start and Tune, and
the connection is closed where the Open is not delivered. -/
theorem conversation_order_tuned : ∃ s, (conversation 20).Reachable s ∧
    s.sent = [headerPacket, startOkSent, tuneOkSent] ∧
    (∃ kinds, List.Forall₂ IsMessage kinds s.sent ∧ ClientOrder kinds) ∧
    ∃ c outcome, Turn (shipped 20) 0 c s.slot s.thread outcome ∧
      (s.thread.after outcome).currentState = .connectionClosed ∧
      ((∃ methodData ∈ received s.slot, methodData.methodId = 51) ∨
        (c.isRunning = true ∧ c.delivered = false) ∨ s.listening = false) := by
  have start : (conversation 20).Reachable Conversation.start := TransitionSystem.Reachable.start
  have greeted := conversation_turn start rfl rfl shipped_greets rfl
  have replied := conversation_answer greeted startFrame rfl (m := .amqpHeader) rfl rfl rfl
  have offered := conversation_recv replied rfl rfl
  have started := conversation_turn offered rfl rfl shipped_starts rfl
  have tuning := conversation_answer started tuneFrame rfl startOkSent_isMessage rfl rfl
  have tuneRead := conversation_recv tuning rfl rfl
  have tuned := conversation_turn tuneRead rfl rfl shipped_tunes rfl
  have undelivered : Turn (shipped 20) 0 ⟨fun _ => none, false, true, false⟩ none
      ⟨.connectionTuned, false⟩ ⟨.connectionClosed, false, none⟩ := by
    refine ⟨⟨by decide, fun _ => rfl⟩, Stream'.const 0, ?_⟩
    apply Sampler.run_of_map_fst
    decide +kernel
  obtain ⟨order, closes⟩ := conversation_order 20 _ tuned
  refine ⟨_, tuned, rfl, order, _, _, undelivered, rfl, closes _ _ undelivered ?_ rfl⟩
  intro stopped
  cases stopped

end Amqpgram
