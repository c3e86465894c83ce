import Amqpgram.Fuzzer.Received
import Amqpgram.Grammar.Files
import Amqpgram.Grammar.Generator

/-! The kinds of frame that the protocol grammar defines, each by the octet at the
start of its rule, against the positional values of `frame_type` in Packet.h. -/
namespace Amqpgram

inductive FrameKind where
  | method
  | contentHeader
  | contentBody
  | heartbeat
  deriving DecidableEq, Repr

def FrameKind.rule : FrameKind → CString
  | .method => cstr "method-frame"
  | .contentHeader => cstr "content"
  | .contentBody => cstr "content-body"
  | .heartbeat => cstr "heartbeat"

/-- The single octet that the first terminal of the kind's rule stands for. -/
def FrameKind.octet (kind : FrameKind) : Option UInt8 :=
  match specRules.lookup kind.rule with
  | some (.string body) =>
    match (Tokens.tokens ' ' body).head?.map decodeTerminalSymbol with
    | some (.ok ⟨[octet], 1⟩) => some octet
    | _ => none
  | _ => none

def FrameKind.type : FrameKind → FrameType
  | .method => .method
  | .contentHeader => .header
  | .contentBody => .body
  | .heartbeat => .heartbeat

theorem octet_method : FrameKind.method.octet = some 1 := by decide +kernel
theorem octet_contentHeader : FrameKind.contentHeader.octet = some 2 := by decide +kernel
theorem octet_contentBody : FrameKind.contentBody.octet = some 3 := by decide +kernel
theorem octet_heartbeat : FrameKind.heartbeat.octet = some 8 := by decide +kernel

/-- The decoder gives a frame of the kind its type, channel and size, whatever lies
behind it in memory. -/
def KnowsKind (kind : FrameKind) (channel : Nat) (payload : List UInt8) : Prop :=
  ∃ octet, kind.octet = some octet ∧ ∀ rest, ∃ packet,
    breakPacket (bufferMemory (encodeFrame octet channel payload ++ rest)) = .ok packet ∧
    packet.type = kind.type ∧ packet.channel = channel ∧ packet.size = payload.length

section Kinds
variable {channel : Nat} {payload : List UInt8}

theorem knowsKind_content {kind : FrameKind} {octet : UInt8} (read : kind.octet = some octet)
    (plain : octet ≠ 0x41) (type : FrameType.ofOctet octet = kind.type)
    (content : kind.type ≠ .method) (known : channel < 65536) (short : payload.length < 4088) :
    KnowsKind kind channel payload := by
  refine ⟨octet, read, fun rest => ⟨_, breakPacket_content plain (type ▸ content) known
    (by omega), type, rfl, rfl⟩⟩

theorem knowsKind_method (known : channel < 65536) (short : payload.length < 4088)
    (long : 4 ≤ payload.length) : KnowsKind .method channel payload := by
  obtain ⟨k0, k1, m0, m1, arguments, rfl⟩ : ∃ k0 k1 m0 m1 arguments,
      payload = k0 :: k1 :: m0 :: m1 :: arguments := by
    match payload, long with
    | k0 :: k1 :: m0 :: m1 :: arguments, _ => exact ⟨k0, k1, m0, m1, arguments, rfl⟩
  have shape : encodeMethod (Words.value [k0, k1]) (Words.value [m0, m1]) arguments =
      k0 :: k1 :: m0 :: m1 :: arguments := by
    have classId := Words.bytes_value [k0, k1]
    have methodId := Words.bytes_value [m0, m1]
    simp only [List.length_cons, List.length_nil, Nat.zero_add, Nat.reduceAdd] at classId methodId
    simp only [encodeMethod, classId, methodId, List.cons_append, List.nil_append]
  have total : (k0 :: k1 :: m0 :: m1 :: arguments).length = arguments.length + 4 := rfl
  refine ⟨1, octet_method, fun rest => ?_⟩
  have pair (a b : UInt8) : Words.value [a, b] < 65536 := by
    have high := a.toNat_lt
    have low := b.toNat_lt
    have value : Words.value [a, b] = a.toNat * 256 + b.toNat := by simp
    omega
  have broken : breakPacket (bufferMemory (encodeFrame 1 channel (encodeMethod _ _ arguments) ++
      rest)) = _ := breakPacket_method known (pair k0 k1) (pair m0 m1) (by omega) (by omega)
  rw [shape] at broken
  exact ⟨_, broken, rfl, rfl, rfl⟩

/-- `size - 4` wraps around below the octets of the class and the method, and the copy
of the arguments runs out of the memory. -/
theorem breakPacket_shortMethod {rest : List UInt8} (known : channel < 65536)
    (short : payload.length < 4) (behind : rest.length + 8 ≤ 4294967296) :
    ∃ fault, breakPacket (bufferMemory (encodeFrame 1 channel payload ++ rest)) =
      .error fault := by
  have total : (encodeFrame 1 channel payload ++ rest).length =
      payload.length + 8 + rest.length := by
    rw [List.length_append, length_encodeFrame]
  have count : argumentsSize payload.length = payload.length + 4294967292 := by
    unfold argumentsSize wrapUnsigned
    omega
  rw [breakPacket_frame (by decide) known (by omega) (by omega), dif_pos (by decide)]
  by_cases long : 11 ≤ (encodeFrame 1 channel payload ++ rest).length
  · rw [breakMethod_out long (by omega)]
    exact ⟨_, rfl⟩
  · by_cases classId : 9 ≤ (encodeFrame 1 channel payload ++ rest).length
    · obtain ⟨v, read⟩ := charInShort_inside
        (show 7 + 1 < (encodeFrame 1 channel payload ++ rest).length by omega)
      rw [breakMethod, read, ok_bind, charInShort_outside (by omega)]
      exact ⟨_, rfl⟩
    · rw [breakMethod, charInShort_outside (by omega)]
      exact ⟨_, rfl⟩

end Kinds

/-- The decoder knows every kind but the heartbeat, and the methods that have room for
their two identifiers. -/
theorem knowsKind_iff (kind : FrameKind) (channel : Nat) (payload : List UInt8)
    (known : channel < 65536) (short : payload.length < 4088) :
    KnowsKind kind channel payload ↔
      kind ≠ .heartbeat ∧ (kind = .method → 4 ≤ payload.length) := by
  constructor
  · rintro ⟨octet, read, knows⟩
    obtain ⟨packet, broken, type, -, -⟩ := knows []
    constructor
    · rintro rfl
      obtain rfl : 8 = octet := Option.some.inj (octet_heartbeat.symm.trans read)
      have other : breakPacket (bufferMemory (encodeFrame 8 channel payload ++ [])) = _ :=
        breakPacket_content (by decide) (by decide) known (by omega)
      obtain rfl := Except.ok.inj (other.symm.trans broken)
      cases type
    · rintro rfl
      by_contra few
      obtain rfl : 1 = octet := Option.some.inj (octet_method.symm.trans read)
      obtain ⟨fault, faulted⟩ : ∃ fault,
          breakPacket (bufferMemory (encodeFrame 1 channel payload ++ [])) = .error fault :=
        breakPacket_shortMethod known (by omega) (by decide)
      cases faulted.symm.trans broken
  · rintro ⟨listed, long⟩
    cases kind with
    | method => exact knowsKind_method known short (long rfl)
    | contentHeader =>
      exact knowsKind_content octet_contentHeader (by decide) rfl (by decide) known short
    | contentBody =>
      exact knowsKind_content octet_contentBody (by decide) rfl (by decide) known short
    | heartbeat => exact (listed rfl).elim

theorem knowsKind_iff_body : KnowsKind .contentBody 1 [104, 105] :=
  (knowsKind_iff .contentBody 1 [104, 105] (by decide) (by decide)).mpr (by decide)

/-- A heartbeat on channel 0 gets a type that no constant of `frame_type` has. -/
theorem heartbeat_unknown :
    breakPacket (bufferMemory (encodeFrame 8 0 [])) =
        .ok (.plain (.other 8) (by decide) 0 0 (List.replicate 8 0)) ∧
      FrameKind.heartbeat.octet = some 8 ∧ ¬ KnowsKind .heartbeat 0 [] := by
  have broken : breakPacket (bufferMemory (encodeFrame 8 0 [])) =
      .ok (.plain (.other 8) (by decide) 0 0 (List.replicate 8 0)) := by decide +kernel
  refine ⟨broken, octet_heartbeat, ?_⟩
  rintro ⟨octet, read, knows⟩
  obtain rfl : 8 = octet := Option.some.inj (octet_heartbeat.symm.trans read)
  obtain ⟨packet, known, type, -, -⟩ := knows []
  obtain rfl := Except.ok.inj (broken.symm.trans known)
  cases type

end Amqpgram
