import Amqpgram.Library.Ownership
import Amqpgram.Fuzzer.Handover
import Amqpgram.Fuzzer.Listener

/-! The blocks of the packets that the listener hands over to the thread of channel 0.
The slot holds a pointer: the listener stores it, goes on to read the size behind it, and
the thread frees what it has taken. Both hold the mutex from the store to the unlock and
from the load to the free, so these are steps. -/
namespace Amqpgram.Packets
open Heap

/-- `method_struct`; `none` is NULL. -/
structure MethodBlock where
  classId : Nat
  methodId : Nat
  argumentsByteArray : Option Nat
  argumentsLength : Int

/-- `packet_struct`. -/
structure PacketBlock where
  type : FrameType
  channel : Nat
  size : Nat
  amqpHeader : List UInt8
  methodPayload : Option Nat
  headerPayload : Option Nat
  bodyPayload : Option Nat

/-- What a packet consists of, a header and a body with the pointer that is freed with them,
and a cell for a `packet_struct *`. -/
inductive Block where
  | packet (packet : PacketBlock)
  | method (method : MethodBlock)
  | header (propertyList : Option Nat)
  | body (body : Option Nat)
  | arguments (bytes : List UInt8)
  | cell

def Block.packet? : Block → Option PacketBlock
  | .packet p => some p
  | _ => none

def Block.method? : Block → Option MethodBlock
  | .method m => some m
  | _ => none

def Block.header? : Block → Option (Option Nat)
  | .header p => some p
  | _ => none

def Block.body? : Block → Option (Option Nat)
  | .body p => some p
  | _ => none

def Block.arguments? : Block → Option (List UInt8)
  | .arguments bs => some bs
  | _ => none

abbrev Run (A : Type) := Prog Block A
abbrev Blocks := Multiset (Nat × Block)

/-- The packet without its method. The other two pointers stay NULL. -/
def plainBlock (packet : PacketStruct) (methodPayload : Option Nat) : PacketBlock :=
  ⟨packet.type, packet.channel, packet.size, packet.amqpHeader, methodPayload, none, none⟩

def methodBlock (method : MethodStruct) (arguments : Nat) : MethodBlock :=
  ⟨method.classId, method.methodId, some arguments, method.argumentsLength⟩

/-- The blocks that `break_packet` puts the packet in. -/
def allocatePacket (packet : PacketStruct) : Run Nat := do
  let result ← alloc (.packet ⟨.none, 0, 0, List.replicate 8 0, none, none, none⟩)
  match packet.methodPayload with
  | some method =>
    let methodPayload ← alloc (.method ⟨0, 0, none, 0⟩)
    let arguments ← alloc (.arguments method.argumentsByteArray)
    assign methodPayload (.method (methodBlock method arguments))
    assign result (.packet (plainBlock packet (some methodPayload)))
  | none => assign result (.packet (plainBlock packet none))
  pure result

/-- `free`, which does nothing with NULL. -/
def freePointer (p : Option Nat) : Run Unit := p.elim (pure ()) free

/-- What `free_packet_struct` frees before the structure. -/
def freePayload (packet : PacketBlock) : Run Unit :=
  match packet.type with
  | .method => do
    let methodPayload ← deref packet.methodPayload
    let method ← readAs Block.method? methodPayload
    freePointer method.argumentsByteArray
    free methodPayload
  | .header => do
    let headerPayload ← deref packet.headerPayload
    let propertyList ← readAs Block.header? headerPayload
    freePointer propertyList
    free headerPayload
  | .body => do
    let bodyPayload ← deref packet.bodyPayload
    let body ← readAs Block.body? bodyPayload
    freePointer body
    free bodyPayload
  | _ => pure ()

def freePacketStruct (packet : Nat) : Run Unit := do
  let fields ← readAs Block.packet? packet
  freePayload fields
  free packet

/-- A frame of no type is freed, without what it might point to. -/
def dropPacket (packet : PacketStruct) : Run Unit := do
  let readPacket ← allocatePacket packet
  free readPacket

/-- The slot has just been set to NULL, so `realloc` allocates, and the pointer to what it
has allocated is written over. -/
def storeInSlot (readPacket : Nat) : Run (Option Nat) := do
  let _ ← alloc .cell
  pure (some readPacket)

def readSize (readPacket : Nat) : Run Nat := do
  let packet ← readAs Block.packet? readPacket
  pure packet.size

theorem readSize_kept {b : Nat} {h : Heap Block} {packet : PacketBlock}
    (kept : h.content b = some (.packet packet)) : readSize b h = .ok (packet.size, h) := by
  have found : read b h = .ok (.packet packet, h) := by
    simp only [Heap.read, kept]
  change ((read b h).bind _).bind _ = _
  rw [found]
  rfl

theorem readSize_freed {b : Nat} {h : Heap Block} (freed : h.content b = none) :
    readSize b h = .error .dangling := by
  have found : read b h = .error .dangling := by
    simp only [Heap.read, freed]
  change ((read b h).bind _).bind _ = _
  rw [found]
  rfl

/-- What `packet_decider` finds behind the pointer. -/
def loadPacket (channelPacket : Nat) : Run PacketStruct := do
  let packet ← readAs Block.packet? channelPacket
  if typed : packet.type = .method then do
    let methodPayload ← deref packet.methodPayload
    let method ← readAs Block.method? methodPayload
    let arguments ← deref method.argumentsByteArray
    let bytes ← readAs Block.arguments? arguments
    pure ⟨packet.type, packet.channel, packet.size, packet.amqpHeader,
      some ⟨method.classId, method.methodId, bytes, method.argumentsLength⟩, by simp [typed]⟩
  else pure ⟨packet.type, packet.channel, packet.size, packet.amqpHeader, none, by simp [typed]⟩

/-- What a turn of the thread does with the slot: `free` of the structure alone. -/
def takePacket (slot : Option Nat) : Run (Option PacketStruct) :=
  match slot with
  | some channelPacket => do
    let packet ← loadPacket channelPacket
    free channelPacket
    pure (some packet)
  | none => pure none

/-! ### The two threads -/

/-- Where the listener is. -/
inductive Listener where
  | polling
  | opened
  | received (recvline : Amqpgram.Memory)
  | broken (readPacket : Nat) (packet : PacketStruct) (recvline : Amqpgram.Memory)
  | published (readPacket : Nat) (recvline : Amqpgram.Memory)
  | ended

/-- `parsed_n = read_packet->size + 7`, against an `n` that is 1. -/
def Listener.next (size : Nat) (recvline : Amqpgram.Memory) : Listener :=
  if wrapSigned 32 (size + 7) < 1 then .received recvline else .polling

/-- The mailbox records what was stored and taken. -/
structure Sharing where
  thread : Thread
  listener : Listener
  slot : Option Nat
  heap : Heap Block
  mailbox : Mailbox PacketStruct

def Sharing.start : Sharing := ⟨Thread.start, .polling, none, .empty, ⟨none, [], [], []⟩⟩

inductive Sharing.Step (f : Fuzzer) (packetChaos : Int) : Sharing → Sharing → Prop where
  | checked (s : Sharing) (polling : s.listener = .polling)
      (running : s.thread.currentState ≠ .connectionClosed) :
      Step f packetChaos s { s with listener := .opened }
  | missed (s : Sharing) (opened : s.listener = .opened) :
      Step f packetChaos s { s with listener := .polling }
  | ended (s : Sharing) (between : s.listener = .polling ∨ s.listener = .opened) :
      Step f packetChaos s { s with listener := .ended }
  | received (s : Sharing) (opened : s.listener = .opened) (recvline : Amqpgram.Memory) :
      Step f packetChaos s { s with listener := .received recvline }
  | noFrame (s : Sharing) (recvline : Amqpgram.Memory) (packet : PacketStruct) (h : Heap Block)
      (received : s.listener = .received recvline) (broken : breakPacket recvline = .ok packet)
      (untyped : packet.type = .none) (ran : dropPacket packet s.heap = .ok ((), h)) :
      Step f packetChaos s { s with listener := .polling, heap := h }
  | broken (s : Sharing) (recvline : Amqpgram.Memory) (packet : PacketStruct) (b : Nat)
      (h : Heap Block) (received : s.listener = .received recvline)
      (broken : breakPacket recvline = .ok packet) (typed : packet.type ≠ .none)
      (own : packet.channel = 0) (ran : allocatePacket packet s.heap = .ok (b, h)) :
      Step f packetChaos s { s with listener := .broken b packet recvline, heap := h }
  | published (s : Sharing) (recvline : Amqpgram.Memory) (packet : PacketStruct) (b : Nat)
      (slot : Option Nat) (h : Heap Block) (broken : s.listener = .broken b packet recvline)
      (ran : storeInSlot b s.heap = .ok (slot, h)) :
      Step f packetChaos s { s with
        listener := .published b recvline
        slot := slot
        heap := h
        mailbox := s.mailbox.publish packet }
  | sized (s : Sharing) (recvline : Amqpgram.Memory) (b size : Nat)
      (published : s.listener = .published b recvline)
      (ran : readSize b s.heap = .ok (size, s.heap)) :
      Step f packetChaos s { s with listener := .next size recvline }
  | turn (s : Sharing) (c : Circumstances) (packet : Option PacketStruct) (outcome : Outcome)
      (h : Heap Block) (ran : takePacket s.slot s.heap = .ok (packet, h))
      (turn : Turn f packetChaos c packet s.thread outcome) :
      Step f packetChaos s { s with
        thread := s.thread.after outcome
        slot := none
        heap := h
        mailbox := s.mailbox.take }

def sharing (f : Fuzzer) (packetChaos : Int) : TransitionSystem Sharing :=
  ⟨Sharing.start, Sharing.Step f packetChaos⟩

/-! ### What is allocated -/

/-- A packet in blocks of its own. -/
inductive PacketAt : Nat → PacketStruct → Blocks → Prop
  | plain {packet : PacketStruct} (b : Nat) (bare : packet.methodPayload = none) :
      PacketAt b packet {(b, .packet (plainBlock packet none))}
  | method {packet : PacketStruct} {payload : MethodStruct} (b m a : Nat)
      (carries : packet.methodPayload = some payload) :
      PacketAt b packet ({(b, .packet (plainBlock packet (some m)))} +
        ({(m, .method (methodBlock payload a))} + {(a, .arguments payload.argumentsByteArray)}))

def packetBlocks (packet : PacketStruct) : Nat := if packet.type = .method then 3 else 1

inductive SlotAt : Option Nat → Option PacketStruct → Blocks → Prop
  | empty : SlotAt none none 0
  | full {b : Nat} {packet : PacketStruct} {own : Blocks} (at_ : PacketAt b packet own) :
      SlotAt (some b) (some packet) own

/-- The packet that the listener has not stored yet. -/
inductive HandAt : Listener → Blocks → Prop
  | packet {b : Nat} {packet : PacketStruct} {own : Blocks} (recvline : Amqpgram.Memory)
      (at_ : PacketAt b packet own) (typed : packet.type ≠ .none) :
      HandAt (.broken b packet recvline) own
  | empty {listener : Listener} (other : ∀ b packet recvline,
      listener ≠ .broken b packet recvline) : HandAt listener 0

section
variable {before rest own : Blocks} {b : Nat} {packet : PacketStruct} {slot : Option Nat}
variable {content : Option PacketStruct}

theorem PacketAt.card (at_ : PacketAt b packet own) : own.card = packetBlocks packet := by
  unfold packetBlocks
  cases at_ with
  | plain _ bare =>
    rw [if_neg]
    · rfl
    · rw [← packet.method_iff, bare]
      decide
  | method _ m a carries =>
    rw [if_pos]
    · rfl
    · rw [← packet.method_iff, carries]
      rfl

variable (packet) in
theorem allocatePacket_does : Does (allocatePacket packet) before fun b after =>
    ∃ own, PacketAt b packet own ∧ after = own + before := by
  apply alloc_does.bind
  rintro result _ rfl
  cases payload : packet.methodPayload with
  | none =>
    dsimp only
    apply (assign_does before rfl).seq
    intro _
    exact .pure ⟨_, .plain result payload, rfl⟩
  | some method =>
    dsimp only
    apply alloc_does.bind
    rintro m _ rfl
    apply alloc_does.bind
    rintro a _ rfl
    apply (assign_does ({(a, .arguments method.argumentsByteArray)} +
      ({(result, .packet ⟨.none, 0, 0, List.replicate 8 0, none, none, none⟩)} + before))
      (by abel)).seq
    intro _
    apply (assign_does ({(m, .method (methodBlock method a))} +
      ({(a, .arguments method.argumentsByteArray)} + before)) (by abel)).seq
    intro _
    exact .pure ⟨_, .method result m a payload, by abel⟩

theorem dropPacket_does (untyped : packet.type = .none) :
    Does (dropPacket packet) before fun _ after => after = before := by
  apply (allocatePacket_does packet).bind
  rintro b _ ⟨own, at_, rfl⟩
  cases at_ with
  | plain _ bare => exact free_does before rfl
  | method _ m a carries =>
    have method : packet.type = .method := packet.method_iff.mp (by rw [carries]; rfl)
    rw [untyped] at method
    cases method

theorem storeInSlot_does : Does (storeInSlot b) before fun slot after =>
    slot = some b ∧ ∃ waste, waste.card = 1 ∧ after = waste + before := by
  apply alloc_does.bind
  rintro cell _ rfl
  exact .pure ⟨rfl, {(cell, .cell)}, rfl, rfl⟩

theorem PacketAt.head (at_ : PacketAt b packet own) :
    ∃ m inner, own = {(b, .packet (plainBlock packet m))} + inner := by
  cases at_ with
  | plain _ bare => exact ⟨none, 0, (add_zero _).symm⟩
  | method _ m a carries => exact ⟨some m, _, rfl⟩

theorem loadPacket_does (at_ : PacketAt b packet own) (kept : own ≤ before) :
    Does (loadPacket b) before fun loaded after => loaded = packet ∧ after = before := by
  cases at_ with
  | plain _ bare =>
    have block : (b, Block.packet (plainBlock packet none)) ∈ before :=
      Multiset.mem_of_le kept (by simp)
    have other : (plainBlock packet none).type ≠ .method := by
      intro method
      have payload := packet.method_iff.mpr method
      rw [bare] at payload
      cases payload
    apply (readAs_does Block.packet? block rfl).step
    rw [dif_neg other]
    refine .pure ⟨?_, rfl⟩
    obtain ⟨type, channel, size, amqpHeader, methodPayload, method_iff⟩ := packet
    obtain rfl : methodPayload = none := bare
    rfl
  | @method _ payload _ m a carries =>
    have block : (b, Block.packet (plainBlock packet (some m))) ∈ before :=
      Multiset.mem_of_le kept (by simp)
    have method : (m, Block.method (methodBlock payload a)) ∈ before :=
      Multiset.mem_of_le kept (by simp)
    have arguments : (a, Block.arguments payload.argumentsByteArray) ∈ before :=
      Multiset.mem_of_le kept (by simp)
    have typed : (plainBlock packet (some m)).type = .method :=
      packet.method_iff.mp (by rw [carries]; rfl)
    apply (readAs_does Block.packet? block rfl).step
    rw [dif_pos typed]
    apply deref_does.step
    apply (readAs_does Block.method? method rfl).step
    apply deref_does.step
    apply (readAs_does Block.arguments? arguments rfl).step
    refine .pure ⟨?_, rfl⟩
    obtain ⟨type, channel, size, amqpHeader, methodPayload, method_iff⟩ := packet
    obtain rfl : methodPayload = some payload := carries
    rfl

theorem PacketAt.whole (at_ : PacketAt b packet own)
    (other : packet.type ≠ .header ∧ packet.type ≠ .body) (split : before = own + rest) :
    Does (freePacketStruct b) before fun _ after => after = rest := by
  subst split
  cases at_ with
  | plain _ bare =>
    have block : (b, Block.packet (plainBlock packet none)) ∈
        {(b, Block.packet (plainBlock packet none))} + rest := by simp
    have unmethodical : (plainBlock packet none).type ≠ .method := by
      intro method
      have payload := packet.method_iff.mpr method
      rw [bare] at payload
      cases payload
    have nothing : freePayload (plainBlock packet none) = pure () := by
      unfold freePayload
      split
      · contradiction
      · exact (other.1 ‹_›).elim
      · exact (other.2 ‹_›).elim
      · rfl
    apply (readAs_does Block.packet? block rfl).step
    rw [nothing]
    exact free_does rest rfl
  | @method _ payload _ m a carries =>
    have typed : (plainBlock packet (some m)).type = .method :=
      packet.method_iff.mp (by rw [carries]; rfl)
    have pointers : freePayload (plainBlock packet (some m)) = (do
        let methodPayload ← deref (some m)
        let method ← readAs Block.method? methodPayload
        freePointer method.argumentsByteArray
        free methodPayload) := by
      rw [freePayload, typed]
      rfl
    have block : (b, Block.packet (plainBlock packet (some m))) ∈
        {(b, Block.packet (plainBlock packet (some m)))} + ({(m, .method (methodBlock payload a))} +
          {(a, .arguments payload.argumentsByteArray)}) + rest := by simp
    have method : (m, Block.method (methodBlock payload a)) ∈
        {(b, Block.packet (plainBlock packet (some m)))} + ({(m, .method (methodBlock payload a))} +
          {(a, .arguments payload.argumentsByteArray)}) + rest := by simp
    apply (readAs_does Block.packet? block rfl).step
    rw [pointers]
    simp only [bind_assoc]
    apply deref_does.step
    apply (readAs_does Block.method? method rfl).step
    apply (free_does ({(b, .packet (plainBlock packet (some m)))} +
      {(m, .method (methodBlock payload a))} + rest) (by abel)).seq
    intro _
    apply (free_does ({(b, .packet (plainBlock packet (some m)))} + rest) (by abel)).seq
    intro _
    exact free_does rest rfl

/-- `break_packet` leaves the pointers of a content frame NULL, and they are followed. -/
theorem PacketAt.null (at_ : PacketAt b packet own) {h : Heap Block}
    (held : h.Holds (own + rest)) (content : packet.type = .header ∨ packet.type = .body) :
    freePacketStruct b h = .error .null := by
  obtain ⟨m, inner, rfl⟩ := at_.head
  have kept := (held.content b (.packet (plainBlock packet m))).mpr (by simp)
  have found : read b h = .ok (.packet (plainBlock packet m), h) := by
    simp only [Heap.read, kept]
  have followed : freePayload (plainBlock packet m) h = .error .null := by
    rcases content with header | body
    · have typed : (plainBlock packet m).type = .header := header
      rw [freePayload, typed]
      rfl
    · have typed : (plainBlock packet m).type = .body := body
      rw [freePayload, typed]
      rfl
  change ((read b h).bind _).bind _ = _
  rw [found]
  change (freePayload (plainBlock packet m) h).bind _ = _
  rw [followed]
  rfl

/-- A packet that `break_packet` returned is given back whole by `free_packet_struct` exactly
when it is no content frame. -/
theorem freePacketStruct_iff (packet : PacketStruct) (h : Heap Block) (before : Blocks)
    (held : h.Holds before) :
    ((∃ h', (allocatePacket packet >>= freePacketStruct) h = .ok ((), h') ∧ h'.Holds before) ↔
      packet.type ≠ .header ∧ packet.type ≠ .body) ∧
    (packet.type = .header ∨ packet.type = .body →
      (allocatePacket packet >>= freePacketStruct) h = .error .null) := by
  obtain ⟨b, h', _, ran, holds, own, at_, rfl⟩ := allocatePacket_does packet h held
  have step : (allocatePacket packet >>= freePacketStruct) h = freePacketStruct b h' := by
    change (allocatePacket packet h).bind _ = _
    rw [ran]
    rfl
  rw [step]
  refine ⟨⟨?_, ?_⟩, at_.null holds⟩
  · rintro ⟨h'', freed, _⟩
    rw [← not_or]
    intro content
    rw [at_.null holds content] at freed
    cases freed
  · intro other
    obtain ⟨_, h'', _, freed, whole, rfl⟩ := at_.whole other rfl h' holds
    exact ⟨h'', freed, whole⟩

/-- A Start is given back. -/
theorem freePacketStruct_iff_start : ∃ h',
    (allocatePacket startPacket >>= freePacketStruct) .empty = .ok ((), h') ∧ h'.Holds 0 :=
  (freePacketStruct_iff startPacket .empty 0 empty_holds).1.mpr (by decide)

/-- The method and its arguments stay behind. -/
theorem takePacket_does (slotAt : SlotAt slot content own) (split : before = own + rest) :
    Does (takePacket slot) before fun taken after => taken = content ∧
      ∃ waste, waste.card = content.elim 0 (fun packet => packetBlocks packet - 1) ∧
        after = waste + rest ∧ ∀ b ∈ slot, ∀ v, (b, v) ∉ after := by
  cases slotAt with
  | empty => exact .pure ⟨rfl, 0, rfl, split, by simp⟩
  | @full b packet _ at_ =>
    have kept : own ≤ before := split ▸ Multiset.le_add_right own rest
    apply (loadPacket_does at_ kept).step
    have card := at_.card
    obtain ⟨m, inner, rfl⟩ := at_.head
    intro h held
    rw [split, add_assoc] at held
    have apart := held.others
    refine ⟨some packet, ?_⟩
    obtain ⟨_, h', owned, ran, holds, rfl⟩ := free_does (inner + rest) rfl h held
    refine ⟨h', inner + rest, ?_, holds, rfl, inner, ?_, rfl, ?_⟩
    · change (free b h).bind (fun p => .ok (some packet, p.2)) = _
      rw [ran]
      rfl
    · rw [Multiset.card_add, Multiset.card_singleton] at card
      exact (Nat.sub_eq_of_eq_add (by omega)).symm
    · rintro _ ⟨⟩ v
      exact apart v

end

/-! ### The ledger -/

/-- What is given up for good: a cell for each packet stored, all of a packet that another
was stored over, and the method of a packet that was taken. -/
def ledger (m : Mailbox PacketStruct) : Nat :=
  m.published.length + ((m.found.filterMap id).map packetBlocks).sum +
    (m.handed.map fun packet => packetBlocks packet - 1).sum

def Listener.carried : Listener → Nat
  | .broken _ packet _ => packetBlocks packet
  | _ => 0

theorem ledger_publish (m : Mailbox PacketStruct) (packet : PacketStruct) :
    ledger (m.publish packet) = 1 + m.slot.elim 0 packetBlocks + ledger m := by
  unfold ledger Mailbox.publish
  cases m.slot with
  | none => simp; omega
  | some old => simp; omega

theorem ledger_take (m : Mailbox PacketStruct) :
    ledger m.take = m.slot.elim 0 (fun packet => packetBlocks packet - 1) + ledger m := by
  unfold ledger Mailbox.take
  cases m.slot with
  | none => simp
  | some packet => simp; omega

/-- The blocks are those of the slot, those the listener has in hand and those given up. A
packet that was stored last is in the slot or gone. -/
structure Sharing.Accounts (s : Sharing) (inSlot inHand lost : Blocks) : Prop where
  slot : SlotAt s.slot s.mailbox.slot inSlot
  hand : HandAt s.listener inHand
  given : lost.card = ledger s.mailbox
  holds : s.heap.Holds (inSlot + inHand + lost)
  behind : ∀ b recvline, s.listener = .published b recvline →
    s.slot = some b ∨ s.slot = none ∧ s.heap.content b = none

def Sharing.Kept (s : Sharing) : Prop := ∃ inSlot inHand lost, s.Accounts inSlot inHand lost

section
variable {f : Fuzzer} {packetChaos : Int} {s s' : Sharing} {inSlot inHand lost own : Blocks}
variable {slot : Option Nat} {content : Option PacketStruct} {listener : Listener}

theorem SlotAt.card (slotAt : SlotAt slot content own) :
    own.card = content.elim 0 packetBlocks := by
  cases slotAt with
  | empty => rfl
  | full at_ => exact at_.card

theorem HandAt.card (hand : HandAt listener own) : own.card = listener.carried := by
  cases hand with
  | packet recvline at_ typed => exact at_.card
  | empty other =>
    cases listener with
    | broken b packet recvline => exact (other b packet recvline rfl).elim
    | _ => rfl

theorem HandAt.nothing (hand : HandAt listener own)
    (other : ∀ b packet recvline, listener ≠ .broken b packet recvline) : own = 0 := by
  cases hand with
  | packet recvline at_ typed => exact (other _ _ _ rfl).elim
  | empty _ => rfl

theorem Sharing.Accounts.stored (accounts : s.Accounts inSlot inHand lost) {b : Nat}
    (full : s.slot = some b) :
    ∃ packet, s.mailbox.slot = some packet ∧ readSize b s.heap = .ok (packet.size, s.heap) := by
  have slotAt := accounts.slot
  have holds := accounts.holds
  rw [full] at slotAt
  generalize s.mailbox.slot = content at slotAt
  cases slotAt with
  | @full _ packet _ at_ =>
    obtain ⟨m, inner, rfl⟩ := at_.head
    have kept := (holds.content b (.packet (plainBlock packet m))).mpr (by simp)
    exact ⟨packet, rfl, readSize_kept kept⟩

theorem Sharing.Accounts.move (accounts : s.Accounts inSlot inHand lost) (next : Listener)
    (before : ∀ b packet recvline, s.listener ≠ .broken b packet recvline)
    (unbroken : ∀ b packet recvline, next ≠ .broken b packet recvline)
    (stored : ∀ b recvline, next ≠ .published b recvline) :
    Sharing.Kept { s with listener := next } := by
  obtain rfl := accounts.hand.nothing before
  exact ⟨inSlot, 0, lost, accounts.slot, .empty unbroken, accounts.given, accounts.holds,
    fun b recvline now => (stored b recvline now).elim⟩

theorem Sharing.Kept.step (kept : s.Kept) (step : Sharing.Step f packetChaos s s') : s'.Kept := by
  obtain ⟨inSlot, inHand, lost, accounts⟩ := kept
  cases step with
  | checked polling running =>
    exact accounts.move _ (by simp [polling]) (by simp) (by simp)
  | missed opened => exact accounts.move _ (by simp [opened]) (by simp) (by simp)
  | ended between =>
    apply accounts.move _ _ (by simp) (by simp)
    rcases between with polling | opened
    · simp [polling]
    · simp [opened]
  | received opened recvline => exact accounts.move _ (by simp [opened]) (by simp) (by simp)
  | noFrame recvline packet h received broken untyped ran =>
    obtain rfl := accounts.hand.nothing (by simp [received])
    obtain ⟨_, holds, rfl⟩ := (dropPacket_does untyped).ran accounts.holds ran
    exact ⟨inSlot, 0, lost, accounts.slot, .empty (by simp), accounts.given, holds, by simp⟩
  | broken recvline packet b h received broken typed own ran =>
    obtain rfl := accounts.hand.nothing (by simp [received])
    obtain ⟨_, holds, own, at_, rfl⟩ := (allocatePacket_does packet).ran accounts.holds ran
    refine ⟨inSlot, own, lost, accounts.slot, .packet recvline at_ typed, accounts.given, ?_,
      by simp⟩
    convert holds using 1
    abel
  | published recvline packet b slot h broken ran =>
    have hand := accounts.hand
    rw [broken] at hand
    cases hand with
    | empty other => exact (other _ _ _ rfl).elim
    | packet _ at_ typed =>
      obtain ⟨_, holds, rfl, waste, card, rfl⟩ := storeInSlot_does.ran accounts.holds ran
      refine ⟨inHand, 0, waste + inSlot + lost, .full at_, .empty (by simp), ?_, ?_, ?_⟩
      · rw [ledger_publish, Multiset.card_add, Multiset.card_add, card, accounts.slot.card,
          accounts.given]
      · convert holds using 1
        abel
      · rintro b' recvline' ⟨⟩
        exact .inl rfl
  | sized recvline b size published ran =>
    have next : ∀ b packet r, Listener.next size recvline ≠ .broken b packet r ∧
        ∀ b r, Listener.next size recvline ≠ .published b r := by
      intro b packet r
      unfold Listener.next
      split <;> simp
    exact accounts.move _ (by simp [published]) (fun b packet r => (next b packet r).1)
      fun b r => (next b startPacket r).2 b r
  | turn c packet outcome h ran turn =>
    obtain ⟨_, holds, rfl, waste, card, rfl, gone⟩ :=
      (takePacket_does accounts.slot (add_assoc inSlot inHand lost)).ran accounts.holds ran
    refine ⟨0, inHand, waste + lost, .empty, accounts.hand, ?_, ?_, ?_⟩
    · rw [ledger_take, Multiset.card_add, card, accounts.given]
    · convert holds using 1
      abel
    · intro b recvline now
      refine .inr ⟨rfl, ?_⟩
      rcases accounts.behind b recvline now with full | ⟨empty, freed⟩
      · rw [Option.eq_none_iff_forall_ne_some]
        intro v found
        exact gone b full v ((holds.content b v).mp found)
      · rw [empty] at ran
        obtain ⟨_, rfl⟩ := Prod.mk.inj (Except.ok.inj ran)
        exact freed

theorem sharing_kept (reach : (sharing f packetChaos).Reachable s) : s.Kept := by
  apply reach.invariant
  · exact ⟨0, 0, 0, .empty, .empty (by simp [sharing, Sharing.start]), rfl, empty_holds,
      by simp [sharing, Sharing.start]⟩
  · intro s s' _ kept step
    exact kept.step step

/-- The slot as a pointer does what the slot of the channel does as a value. -/
theorem sharing_channel (reach : (sharing f packetChaos).Reachable s) :
    ∃ c, (channelSystem f packetChaos).Reachable c ∧ c.thread = s.thread ∧
      c.slot = s.mailbox.slot := by
  apply reach.invariant (p := fun s => ∃ c, (channelSystem f packetChaos).Reachable c ∧
    c.thread = s.thread ∧ c.slot = s.mailbox.slot)
  · exact ⟨Channel.start, TransitionSystem.Reachable.start, rfl, rfl⟩
  · rintro s s' before ⟨c, reached, thread, slot⟩ step
    obtain ⟨inSlot, inHand, lost, accounts⟩ := sharing_kept before
    cases step with
    | published recvline packet b _ h broken ran =>
      have hand := accounts.hand
      rw [broken] at hand
      cases hand with
      | empty other => exact (other _ _ _ rfl).elim
      | packet _ at_ typed =>
        refine ⟨c.publish packet, reached.next (.publish c packet typed), ?_, ?_⟩
        · unfold Channel.publish
          split
          · exact thread
          · exact thread
        · unfold Channel.publish
          split
          · rfl
          · rfl
    | turn circumstances packet outcome h ran turn =>
      obtain ⟨_, _, rfl, _⟩ :=
        (takePacket_does accounts.slot (add_assoc inSlot inHand lost)).ran accounts.holds ran
      rw [← thread, ← slot] at turn
      refine ⟨c.consume outcome, reached.next (.consume c circumstances outcome turn), ?_, rfl⟩
      simp [Channel.consume, thread]
    | _ => exact ⟨c, reached, thread, slot⟩

theorem sharing_takes (reach : (sharing f packetChaos).Reachable s) {c : Circumstances}
    {outcome : Outcome} (turn : Turn f packetChaos c s.mailbox.slot s.thread outcome) :
    ∃ s', (sharing f packetChaos).Reachable s' ∧ s'.listener = s.listener ∧ s'.slot = none ∧
      s'.mailbox = s.mailbox.take := by
  obtain ⟨inSlot, inHand, lost, accounts⟩ := sharing_kept reach
  obtain ⟨packet, h, _, ran, _, rfl, _⟩ :=
    takePacket_does accounts.slot (add_assoc inSlot inHand lost) s.heap accounts.holds
  exact ⟨_, reach.next (.turn s c _ outcome h ran turn), rfl, rfl, rfl⟩

theorem sharing_stores (reach : (sharing f packetChaos).Reachable s)
    {recvline : Amqpgram.Memory} {packet : PacketStruct}
    (received : s.listener = .received recvline) (broken : breakPacket recvline = .ok packet)
    (typed : packet.type ≠ .none) (own : packet.channel = 0) :
    ∃ s' b, (sharing f packetChaos).Reachable s' ∧ s'.thread = s.thread ∧
      s'.listener = .published b recvline ∧ s'.mailbox = s.mailbox.publish packet := by
  obtain ⟨inSlot, inHand, lost, accounts⟩ := sharing_kept reach
  obtain ⟨b, h, _, ran, holds, _⟩ :=
    allocatePacket_does packet s.heap accounts.holds
  have inHand := reach.next (.broken s recvline packet b h received broken typed own ran)
  obtain ⟨slot, h', _, ran', _⟩ := storeInSlot_does (b := b) h holds
  exact ⟨_, b, inHand.next (.published _ recvline packet b slot h' rfl ran'), rfl, rfl, rfl⟩

end

/-- Over every run of the two threads the blocks that are not in the slot or in the hands of
the listener are the ledger's, each turn takes the packet that was stored, and the slot is
that of the channel. -/
theorem packets_ledger (f : Fuzzer) (packetChaos : Int) (s : Sharing)
    (reach : (sharing f packetChaos).Reachable s) :
    (∃ owned, s.heap.Holds owned ∧ owned.card =
      s.mailbox.slot.elim 0 packetBlocks + s.listener.carried + ledger s.mailbox) ∧
    (∃ h, takePacket s.slot s.heap = .ok (s.mailbox.slot, h)) ∧
    ∃ c, (channelSystem f packetChaos).Reachable c ∧ c.thread = s.thread ∧
      c.slot = s.mailbox.slot := by
  obtain ⟨inSlot, inHand, lost, accounts⟩ := sharing_kept reach
  refine ⟨⟨_, accounts.holds, ?_⟩, ?_, sharing_channel reach⟩
  · rw [Multiset.card_add, Multiset.card_add, accounts.slot.card, accounts.hand.card,
      accounts.given]
  · obtain ⟨_, h, _, ran, _, rfl, _⟩ :=
      takePacket_does accounts.slot (add_assoc inSlot inHand lost) s.heap accounts.holds
    exact ⟨h, ran⟩

theorem start_stored : ∃ s b recvline, (sharing (shipped 20) 0).Reachable s ∧
    s.thread = Thread.start ∧ s.listener = .published b recvline ∧
    s.mailbox = ⟨some startPacket, [startPacket], [], [none]⟩ := by
  have start : (sharing (shipped 20) 0).Reachable Sharing.start :=
    TransitionSystem.Reachable.start
  have opened := start.next (.checked _ rfl (by decide))
  have received := opened.next (.received _ rfl
    (bufferMemory (encodeFrame 1 0 (encodeMethod 10 10 []) ++ [])))
  have broken : breakPacket (bufferMemory (encodeFrame 1 0 (encodeMethod 10 10 []) ++ [])) =
      .ok startPacket :=
    breakPacket_method (by decide) (by decide) (by decide) (by decide) (by decide)
  obtain ⟨s, b, reach, thread, listener, mailbox⟩ :=
    sharing_stores received rfl broken (by decide) rfl
  exact ⟨s, b, _, reach, thread, listener, mailbox⟩

theorem start_turn : Turn (shipped 20) 0 ⟨fun _ => none, false, true, true⟩ (some startPacket)
    Thread.start ⟨.connectionStart, true, some ⟨[65, 77, 81, 80, 0, 0, 9, 1], 8⟩⟩ := by
  refine ⟨⟨by decide, fun empty => nomatch empty⟩, Stream'.const 0, ?_⟩
  apply Sampler.run_of_map_fst
  decide +kernel

/-- The Start is taken; its method, the arguments and a cell are left. -/
theorem packets_ledger_start : ∃ s, (sharing (shipped 20) 0).Reachable s ∧
    ∃ owned, s.heap.Holds owned ∧ owned.card = 3 := by
  obtain ⟨s, b, recvline, stored, thread, listener, mailbox⟩ := start_stored
  have turn : Turn (shipped 20) 0 ⟨fun _ => none, false, true, true⟩ s.mailbox.slot s.thread
      ⟨.connectionStart, true, some ⟨[65, 77, 81, 80, 0, 0, 9, 1], 8⟩⟩ := by
    rw [mailbox, thread]
    exact start_turn
  obtain ⟨s', taken, same, _, handed⟩ := sharing_takes stored turn
  obtain ⟨⟨owned, holds, card⟩, _⟩ := packets_ledger (shipped 20) 0 s' taken
  rw [handed, mailbox, same, listener] at card
  exact ⟨s', taken, owned, holds, card⟩

/-- Behind the unlock the listener reads the size of what it has stored or, when the thread
was faster, of a packet that was freed; and nothing keeps the thread from being faster. -/
theorem packets_size_read (f : Fuzzer) (packetChaos : Int) (s : Sharing)
    (reach : (sharing f packetChaos).Reachable s) (b : Nat) (recvline : Amqpgram.Memory)
    (published : s.listener = .published b recvline) :
    (readSize b s.heap = .error .dangling ↔ s.slot = none) ∧
    (∀ packet ∈ s.mailbox.slot, readSize b s.heap = .ok (packet.size, s.heap)) ∧
    ∀ c outcome, Turn f packetChaos c s.mailbox.slot s.thread outcome →
      ∃ s', (sharing f packetChaos).Reachable s' ∧ s'.listener = .published b recvline ∧
        readSize b s'.heap = .error .dangling := by
  obtain ⟨inSlot, inHand, lost, accounts⟩ := sharing_kept reach
  have behind := accounts.behind b recvline published
  have slotAt := accounts.slot
  refine ⟨?_, ?_, ?_⟩
  · rcases behind with full | ⟨empty, freed⟩
    · obtain ⟨packet, _, size⟩ := accounts.stored full
      simp [size, full]
    · simp [readSize_freed freed, empty]
  · intro packet content
    rcases behind with full | ⟨empty, _⟩
    · obtain ⟨_, stored, size⟩ := accounts.stored full
      rw [stored] at content
      cases content
      exact size
    · rw [empty, content] at slotAt
      cases slotAt
  · intro c outcome turn
    obtain ⟨s', taken, same, empty, _⟩ := sharing_takes reach turn
    refine ⟨s', taken, same.trans published, ?_⟩
    obtain ⟨_, _, _, after⟩ := sharing_kept taken
    rcases after.behind b recvline (same.trans published) with full | ⟨_, freed⟩
    · rw [empty] at full
      cases full
    · exact readSize_freed freed

/-- The Start again: the listener reads the size of a freed packet. -/
theorem packets_size_read_start : ∃ s b, (sharing (shipped 20) 0).Reachable s ∧
    readSize b s.heap = .error .dangling := by
  obtain ⟨s, b, recvline, stored, thread, listener, mailbox⟩ := start_stored
  have turn : Turn (shipped 20) 0 ⟨fun _ => none, false, true, true⟩ s.mailbox.slot s.thread
      ⟨.connectionStart, true, some ⟨[65, 77, 81, 80, 0, 0, 9, 1], 8⟩⟩ := by
    rw [mailbox, thread]
    exact start_turn
  obtain ⟨_, _, faster⟩ := packets_size_read (shipped 20) 0 s stored b recvline listener
  obtain ⟨s', taken, _, dangling⟩ := faster _ _ turn
  exact ⟨s', b, taken, dangling⟩

end Amqpgram.Packets
