import Amqpgram.Fuzzer.Received

/-! Where `break_packet` reads. It trusts the size of the frame for the place of the
end octet and for the number of argument bytes; the buffer has one octet more than a
`recv` can fill. -/
namespace Amqpgram

/-- `break_packet` returns without a read outside the buffer, and the arguments of a
method it returns are the octets between the method id and the frame end. -/
structure BreaksInside (recvline : List UInt8) : Prop where
  returns : ∃ packet, breakPacket (bufferMemory recvline) = .ok packet
  arguments : ∀ packet methodData, breakPacket (bufferMemory recvline) = .ok packet →
    packet.methodPayload = some methodData → 4 ≤ packet.size ∧
      methodData.argumentsLength = (packet.size : Int) - 4 ∧
      methodData.argumentsByteArray.length = packet.size - 4 ∧
      recvline.drop 11 = methodData.argumentsByteArray ++ recvline.drop (packet.size + 7) ∧
      recvline[packet.size + 7]? = some 0xCE

/-- The protocol header, or a declared end in the buffer; and a method with its end
octet there has its two ids before it. -/
def SizeFits (recvline : List UInt8) : Prop :=
  amqpLiteral <+: recvline ∨ frameEnd recvline ≤ maxLine ∧
    (recvline[frameEnd recvline]? = some 0xCE → frameType recvline = .method →
      4 ≤ frameSize recvline ∧ frameSize recvline + 7 ≤ maxLine)

section
variable {buffer : List UInt8} {size : Nat}

theorem argumentsSize_of_le (four : 4 ≤ size) (small : size < 4294967296) :
    argumentsSize size = size - 4 := by
  unfold argumentsSize wrapUnsigned
  omega

theorem breakMethod_inside (buffer : List UInt8) (four : 4 ≤ size)
    (inside : size + 7 ≤ buffer.length) (small : size < 2147483648) : ∃ methodData,
      breakMethod (bufferMemory buffer) size = .ok methodData ∧
      methodData.argumentsLength = (size : Int) - 4 ∧
      methodData.argumentsByteArray = (buffer.drop 11).take (size - 4) := by
  obtain ⟨classId, first⟩ := charInShort_inside (show 7 + 1 < buffer.length by omega)
  obtain ⟨methodId, second⟩ := charInShort_inside (show 9 + 1 < buffer.length by omega)
  have number := argumentsSize_of_le four (by omega)
  have arguments := readBytes_inside buffer 11 (size - 4) (by omega)
  have exact : ((size - 4 : Nat) : Int) = (size : Int) - 4 := by omega
  have length : wrapSigned 32 ((size - 4 : Nat) : Int) = (size : Int) - 4 := by
    rw [exact]
    exact wrapSigned_of_range (by omega) (by omega)
  refine ⟨⟨wrapUnsigned 16 classId, wrapUnsigned 16 methodId, (buffer.drop 11).take (size - 4),
    (size : Int) - 4⟩, ?_, rfl, rfl⟩
  rw [breakMethod, first, ok_bind, second, ok_bind, number, arguments, ok_bind, length]
  rfl

/-- Without room for the two ids, or with a size that wraps around, the arguments go on
behind the buffer. -/
theorem breakMethod_outside (long : 11 ≤ buffer.length) (short : buffer.length ≤ maxLine + 1)
    (word : size < 4294967296) (at_end : declaredEnd size < buffer.length)
    (unfit : ¬ (4 ≤ size ∧ size + 7 ≤ maxLine)) :
    breakMethod (bufferMemory buffer) size = .error .outOfBounds := by
  apply breakMethod_out long
  unfold maxLine at short unfit
  unfold declaredEnd at at_end
  unfold argumentsSize wrapUnsigned
  omega

end

section
variable {recvline : List UInt8}

theorem breakPacket_checked (other : ¬ amqpLiteral <+: recvline) (long : 7 ≤ recvline.length)
    {last : UInt8} (at_end : recvline[frameEnd recvline]? = some last) :
    breakPacket (bufferMemory recvline) =
      if last ≠ 0xCE then .ok .none
      else if h : frameType recvline = .method then do
        let methodPayload ← breakMethod (bufferMemory recvline) (frameSize recvline)
        pure (.method (frameChannel recvline) (frameSize recvline) methodPayload)
      else .ok (.plain (frameType recvline) h (frameChannel recvline) (frameSize recvline)
        (List.replicate 8 0)) := by
  have read : readByte (bufferMemory recvline) (frameEnd recvline) = .ok last := by
    simp [readByte, bufferMemory, at_end]
  unfold frameEnd at read
  rw [breakPacket_other other long, breakFrame, read, ok_bind]
  rfl

theorem SizeFits.of_breaksInside (full : recvline.length = maxLine + 1)
    (breaks : BreaksInside recvline) : SizeFits recvline := by
  have maximum : maxLine = 4096 := rfl
  obtain ⟨packet, returned⟩ := breaks.returns
  by_cases header : amqpLiteral <+: recvline
  · exact .inl header
  right
  have inside : frameEnd recvline < recvline.length := by
    by_contra beyond
    rw [breakPacket_beyond header (by omega) (by omega)] at returned
    cases returned
  refine ⟨by omega, ?_⟩
  intro hit method
  by_contra unfit
  have word : frameSize recvline < 4294967296 := sizeField_lt ..
  have outside := breakMethod_outside (by omega) full.le word inside unfit
  rw [breakPacket_checked header (by omega) hit, if_neg (by decide), dif_pos method,
    outside] at returned
  cases returned

theorem breaksInside_of_header (full : recvline.length = maxLine + 1)
    (header : amqpLiteral <+: recvline) : BreaksInside recvline := by
  have maximum : maxLine = 4096 := rfl
  have broken := header_broken header (by omega)
  refine ⟨⟨_, broken⟩, ?_⟩
  intro packet methodData returned payload
  rw [broken] at returned
  obtain rfl := Except.ok.inj returned
  cases payload

theorem breaksInside_of_method (full : recvline.length = maxLine + 1)
    (other : ¬ amqpLiteral <+: recvline) (hit : recvline[frameEnd recvline]? = some 0xCE)
    (method : frameType recvline = .method) (four : 4 ≤ frameSize recvline)
    (room : frameSize recvline + 7 ≤ maxLine) : BreaksInside recvline := by
  have maximum : maxLine = 4096 := rfl
  obtain ⟨read, taken, length, arguments⟩ := breakMethod_inside recvline four
    (by omega) (by omega)
  have broken := breakPacket_checked other (by omega) hit
  rw [if_neg (by decide), dif_pos method, taken, ok_bind] at broken
  refine ⟨⟨_, broken⟩, ?_⟩
  intro packet methodData returned payload
  obtain rfl := Except.ok.inj (broken.symm.trans returned)
  obtain rfl := Option.some.inj payload
  have size : (PacketStruct.method (frameChannel recvline) (frameSize recvline) read).size =
      frameSize recvline := PacketStruct.method_size ..
  have place : frameEnd recvline = frameSize recvline + 7 := by
    rw [frameEnd, declaredEnd]
    omega
  have cut : recvline.drop 11 = (recvline.drop 11).take (frameSize recvline - 4) ++
      recvline.drop (frameSize recvline + 7) := by
    have behind : 11 + (frameSize recvline - 4) = frameSize recvline + 7 := by omega
    rw [← behind, ← List.drop_drop, List.take_append_drop]
  rw [size, arguments, ← cut]
  refine ⟨four, length, ?_, rfl, place ▸ hit⟩
  rw [List.length_take, List.length_drop]
  omega

theorem breaksInside_of_fits (full : recvline.length = maxLine + 1)
    (fits : SizeFits recvline) : BreaksInside recvline := by
  have maximum : maxLine = 4096 := rfl
  by_cases header : amqpLiteral <+: recvline
  · exact breaksInside_of_header full header
  rcases fits with start | ⟨inside, room⟩
  · exact (header start).elim
  have bound : frameEnd recvline < recvline.length := by omega
  obtain ⟨last, at_end⟩ : ∃ last, recvline[frameEnd recvline]? = some last :=
    ⟨_, List.getElem?_eq_getElem bound⟩
  by_cases hit : last = 0xCE
  · rw [hit] at at_end
    by_cases method : frameType recvline = .method
    · obtain ⟨four, end_⟩ := room at_end method
      exact breaksInside_of_method full header at_end method four end_
    · have broken := breakPacket_checked header (by omega) at_end
      rw [if_neg (by decide), dif_neg method] at broken
      refine ⟨⟨_, broken⟩, ?_⟩
      intro packet methodData returned payload
      obtain rfl := Except.ok.inj (broken.symm.trans returned)
      cases payload
  · have broken := breakPacket_checked header (by omega) at_end
    rw [if_pos hit] at broken
    refine ⟨⟨_, broken⟩, ?_⟩
    intro packet methodData returned payload
    obtain rfl := Except.ok.inj (broken.symm.trans returned)
    cases payload

/-- `break_packet` stays inside its buffer exactly when the declared size fits. -/
theorem breaksInside_iff (recvline : List UInt8) (full : recvline.length = maxLine + 1) :
    BreaksInside recvline ↔ SizeFits recvline :=
  ⟨SizeFits.of_breaksInside full, breaksInside_of_fits full⟩

end

def zeroed (head : List UInt8) : List UInt8 := head ++ List.replicate (maxLine + 1 - head.length) 0

theorem length_zeroed {head : List UInt8} (short : head.length ≤ maxLine + 1) :
    (zeroed head).length = maxLine + 1 := by
  rw [zeroed, List.length_append, List.length_replicate]
  omega

theorem breaksInside_iff_heartbeat : BreaksInside (zeroed [4, 0, 0, 0, 0, 0, 0, 0xCE]) :=
  (breaksInside_iff _ (length_zeroed (by decide))).mpr
    (.inr ⟨by decide +kernel, fun _ method => absurd method (by decide)⟩)

/-- A method frame of size 0: its argument length wraps around. -/
theorem empty_method_outside : ¬ BreaksInside (zeroed [1, 0, 0, 0, 0, 0, 0, 0xCE]) := by
  intro breaks
  have fits := SizeFits.of_breaksInside (length_zeroed (by decide)) breaks
  rcases fits with header | ⟨_, room⟩
  · exact absurd header (by decide +kernel)
  · exact absurd (room (by decide +kernel) (by decide)).1 (by decide +kernel)

end Amqpgram
