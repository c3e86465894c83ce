import Mathlib.Data.List.Induction
import Amqpgram.Library.Words
import Amqpgram.Machine

/-! utils.c: the big-endian readers and writers. The readers add signed halves,
so the low half of a 32-bit or 64-bit field borrows from the high one when its
top bit is set. -/
namespace Amqpgram

def charInShort (src : Memory) (index : Nat) : Except Fault Int := do
  let high ← readByte src index
  let low ← readByte src (index + 1)
  pure (wrapSigned 16 (high.toNat * 256 + low.toNat))

def charInInt (src : Memory) (index : Nat) : Except Fault Int := do
  let high ← charInShort src index
  let low ← charInShort src (index + 2)
  pure (wrapSigned 32 (high * 65536 + low))

def charInLong (src : Memory) (index : Nat) : Except Fault Int := do
  let high ← charInInt src index
  let low ← charInInt src (index + 4)
  pure (wrapSigned 64 (high * 4294967296 + low))

/-- The bytes of a variable in memory, least significant first. -/
def littleEndian (width : Nat) (src : Int) : List UInt8 :=
  (Words.bytes width (wrapUnsigned (8 * width) src)).reverse

def memcpyAt (dst : List UInt8) (index : Nat) (src : List UInt8) : List UInt8 :=
  dst.take index ++ src ++ dst.drop (index + src.length)

/-- The loop that exchanges the outermost bytes until `start` and `end` meet. -/
def swapLoop : Nat → List UInt8 → Nat → Nat → List UInt8
  | 0, dst, _, _ => dst
  | turns + 1, dst, first, last =>
    if first < last then
      swapLoop turns ((dst.set first (dst.getD last 0)).set last (dst.getD first 0))
        (first + 1) (last - 1)
    else dst

/-- The common body of the three writers: nothing happens when the field does
not fit in the `n` bytes of the destination. -/
def inChar (width : Nat) (dst : List UInt8) (src : Int) (index n : Nat) : List UInt8 :=
  if index + width > n then dst
  else swapLoop width (memcpyAt dst index (littleEndian width src)) index (index + width - 1)

def shortInChar (dst : List UInt8) (src : Int) (index n : Nat) : List UInt8 :=
  inChar 2 dst src index n

def intInChar (dst : List UInt8) (src : Int) (index n : Nat) : List UInt8 :=
  inChar 4 dst src index n

def longInChar (dst : List UInt8) (src : Int) (index n : Nat) : List UInt8 :=
  inChar 8 dst src index n

theorem swapLoop_step (turns : Nat) (pre mid post : List UInt8) (a b : UInt8) :
    swapLoop (turns + 1) (pre ++ a :: (mid ++ b :: post)) pre.length
        (pre.length + (mid.length + 1)) =
      swapLoop turns ((pre ++ [b]) ++ mid ++ a :: post) (pre.length + 1)
        (pre.length + mid.length) := by
  have lastByte : (pre ++ a :: (mid ++ b :: post)).getD (pre.length + (mid.length + 1)) 0 = b := by
    simp [List.getD_eq_getElem?_getD]
  have firstByte : (pre ++ a :: (mid ++ b :: post)).getD pre.length 0 = a := by
    simp [List.getD_eq_getElem?_getD]
  have swapped : ((pre ++ a :: (mid ++ b :: post)).set pre.length b).set
      (pre.length + (mid.length + 1)) a = (pre ++ [b]) ++ mid ++ a :: post := by
    simp
  rw [swapLoop, if_pos (by omega), lastByte, firstByte, swapped]
  congr 1

theorem swapLoop_window (turns : Nat) (pre window post : List UInt8)
    (enough : window.length ≤ 2 * turns + 1) :
    swapLoop turns (pre ++ window ++ post) pre.length (pre.length + window.length - 1) =
      pre ++ window.reverse ++ post := by
  induction window using List.bidirectionalRec generalizing turns pre post with
  | nil => cases turns <;> simp [swapLoop]
  | singleton a => cases turns <;> simp [swapLoop]
  | cons_append a mid b ih =>
    cases turns with
    | zero => simp at enough
    | succ turns =>
      have step := swapLoop_step turns pre mid post a b
      have inner := ih turns (pre ++ [b]) (a :: post)
        (by simp only [List.length_cons, List.length_append, List.length_nil] at enough; omega)
      have last : (pre ++ [b]).length + mid.length - 1 = pre.length + mid.length := by
        simp
      rw [last, List.length_append, List.length_singleton] at inner
      have window : pre ++ a :: (mid ++ [b]) ++ post = pre ++ a :: (mid ++ b :: post) := by simp
      have stop : pre.length + (a :: (mid ++ [b])).length - 1 =
          pre.length + (mid.length + 1) := by simp
      rw [window, stop, step, inner]
      simp

theorem length_littleEndian (width : Nat) (src : Int) :
    (littleEndian width src).length = width := by simp [littleEndian]

theorem inChar_eq (width : Nat) (dst : List UInt8) (src : Int) (index n : Nat)
    (fits : index + width ≤ n) (length : n = dst.length) :
    inChar width dst src index n =
      dst.take index ++ Words.bytes width (wrapUnsigned (8 * width) src) ++
        dst.drop (index + width) := by
  subst length
  have window := swapLoop_window width (dst.take index) (littleEndian width src)
    (dst.drop (index + width)) (by rw [length_littleEndian]; omega)
  rw [length_littleEndian, List.length_take, Nat.min_eq_left (by omega)] at window
  rw [inChar, if_neg (by omega), memcpyAt, length_littleEndian, window, littleEndian,
    List.reverse_reverse]

theorem inChar_whole (width : Nat) (dst : List UInt8) (src : Int) (length : dst.length = width) :
    inChar width dst src 0 width = Words.bytes width (wrapUnsigned (8 * width) src) := by
  rw [inChar_eq width dst src 0 width (by omega) length.symm]
  simp [← length]

/-! ### Reads inside and outside a buffer -/

section
variable {buffer : List UInt8} {i : Nat}

theorem charInShort_congr {a b : Memory} (first : a i = b i) (second : a (i + 1) = b (i + 1)) :
    charInShort a i = charInShort b i := by
  simp only [charInShort, readByte, first, second]

theorem charInShort_inside (inside : i + 1 < buffer.length) :
    ∃ v, charInShort (bufferMemory buffer) i = .ok v := by
  have before : i < buffer.length := by omega
  refine ⟨wrapSigned 16 (buffer[i].toNat * 256 + buffer[i + 1].toNat), ?_⟩
  rw [charInShort, readByte_buffer before, ok_bind, readByte_buffer inside, ok_bind]
  rfl

theorem charInShort_outside (out : buffer.length < i + 2) :
    charInShort (bufferMemory buffer) i = .error .outOfBounds := by
  by_cases first : i < buffer.length
  · rw [charInShort, readByte_buffer first, ok_bind, readByte_outside (by omega), error_bind]
  · rw [charInShort, readByte_outside (by omega), error_bind]

theorem charInInt_outside (out : buffer.length < i + 4) :
    charInInt (bufferMemory buffer) i = .error .outOfBounds := by
  by_cases first : i + 1 < buffer.length
  · obtain ⟨high, read⟩ := charInShort_inside first
    rw [charInInt, read, ok_bind, charInShort_outside (by omega), error_bind]
  · rw [charInInt, charInShort_outside (by omega), error_bind]

end

end Amqpgram
