import Amqpgram.Library.Blocks
import Amqpgram.Machine

/-! `create_channel_thread` and the four arrays it keeps for the channels. They are grown in
one place, where the result of the first `reallocarray` is passed on to the other three. -/
namespace Amqpgram
open Blocks (Pointer)

inductive ChannelArray where
  | channelMutexes
  | channelConds
  | channelPackets
  | channels
  deriving DecidableEq, Repr

/-- What `sizeof` gives for an element of each array. -/
structure Sizes where
  sizeof : ChannelArray → Nat
  positive : ∀ a, 0 < sizeof a
  small : ∀ a, sizeof a < 2 ^ 32

inductive Placement where
  | fails
  | inPlace
  | moved
  deriving DecidableEq, Repr

/-- How a request for memory is answered, and what stands in memory that nothing was
written to. -/
structure Allocation where
  placement : Placement
  fill : Nat → UInt8

def mallocBlock (allocation : Allocation) (size : Nat) (heap : Blocks UInt8) :
    Pointer × Blocks UInt8 :=
  match allocation.placement with
  | .fails => (none, heap)
  | _ => (some heap.next, heap.alloc (resized size allocation.fill []))

/-- A block that was freed cannot be reallocated. -/
def reallocarray (allocation : Allocation) (p : Pointer) (size count : Nat)
    (heap : Blocks UInt8) : Except Fault (Pointer × Blocks UInt8) :=
  if 2 ^ 64 ≤ size * count then .ok (none, heap)
  else
    match p with
    | none => .ok (mallocBlock allocation (size * count) heap)
    | some b =>
      match heap.content b with
      | none => .error .outOfBounds
      | some xs =>
        let new := resized (size * count) allocation.fill xs
        match allocation.placement with
        | .fails => .ok (none, heap)
        | .inPlace => .ok (some b, heap.modify b fun _ => some new)
        | .moved => .ok (some heap.next, (heap.free b).alloc new)

def storeBlock (heap : Blocks UInt8) (p : Pointer) (offset : Nat) (value : List UInt8) :
    Except Fault (Blocks UInt8) :=
  match p with
  | none => .error .nullPointer
  | some b =>
    match heap.write b offset value with
    | none => .error .outOfBounds
    | some heap => .ok heap

structure ChannelArgs where
  channelId : Int
  sockfd : Int
  deriving DecidableEq, Repr

/-- The arguments of a call, the answers to the requests it makes for the arrays and for
`novo_args`, and the identifier of the thread it creates. -/
structure ThreadCall where
  sockfd : Int
  reset : Int
  arrays : ChannelArray → Allocation
  novoArgs : Allocation
  thread : Nat → UInt8

/-- The variables of the threads. `created` has the arguments of those created so far. -/
structure ChannelThreads where
  threadsArraySize : Nat
  maxCreatedThreads : Nat
  array : ChannelArray → Pointer
  heap : Blocks UInt8
  created : List ChannelArgs

def arraysOf (channelMutexes channelConds channelPackets channels : Pointer) :
    ChannelArray → Pointer
  | .channelMutexes => channelMutexes
  | .channelConds => channelConds
  | .channelPackets => channelPackets
  | .channels => channels

section
variable (z : Sizes) (call : ThreadCall)

/-- The first branch, where there is no array yet. -/
def allocateArrays (threadsArraySize : Nat) (heap : Blocks UInt8) :
    (ChannelArray → Pointer) × Blocks UInt8 :=
  let request a :=
    mallocBlock (call.arrays a) (wrapUnsigned 64 (z.sizeof a * threadsArraySize : Nat))
  let (channelMutexes, heap) := request .channelMutexes heap
  let (channelConds, heap) := request .channelConds heap
  let (channelPackets, heap) := request .channelPackets heap
  let (channels, heap) := request .channels heap
  (arraysOf channelMutexes channelConds channelPackets channels, heap)

/-- The second branch. All of the calls are given `channel_mutexes`. -/
def growArrays (threadsArraySize : Nat) (array : ChannelArray → Pointer) (heap : Blocks UInt8) :
    Except Fault ((ChannelArray → Pointer) × Blocks UInt8) := do
  let request a p := reallocarray (call.arrays a) p (z.sizeof a) threadsArraySize
  let (channelMutexes, heap) ← request .channelMutexes (array .channelMutexes) heap
  let (channelConds, heap) ← request .channelConds channelMutexes heap
  let (channelPackets, heap) ← request .channelPackets channelMutexes heap
  let (channels, heap) ← request .channels channelMutexes heap
  pure (arraysOf channelMutexes channelConds channelPackets channels, heap)

/-- Where the entry of a new channel finds room, and the size that is kept. -/
def makeRoom (s : ChannelThreads) :
    Except Fault (Nat × (ChannelArray → Pointer) × Blocks UInt8) :=
  let threadsArraySize := if call.reset = 1 then 0 else s.threadsArraySize
  if wrapSigned 32 (s.maxCreatedThreads + 1) > threadsArraySize then
    if threadsArraySize = 0 then
      pure (threadsArraySize + 1, allocateArrays z call (threadsArraySize + 1) s.heap)
    else do
      let doubled ← cint (threadsArraySize * 2)
      let grown ← growArrays z call doubled.toNat s.array s.heap
      pure (doubled.toNat, grown)
  else pure (threadsArraySize, s.array, s.heap)

/-- The entries of a new channel. The initializers of a mutex and of a condition are zero
octets, as NULL is, and the lock taken next is one of a copy. -/
def storeEntries (index : Nat) (array : ChannelArray → Pointer) (heap : Blocks UInt8) :
    Except Fault (Blocks UInt8) := do
  let put (a : ChannelArray) (value : Nat → UInt8) (heap : Blocks UInt8) :=
    storeBlock heap (array a) (index * z.sizeof a) ((List.range (z.sizeof a)).map value)
  let heap ← put .channelMutexes (fun _ => 0) heap
  let heap ← put .channelConds (fun _ => 0) heap
  let heap ← put .channelPackets (fun _ => 0) heap
  if call.novoArgs.placement = .fails then .error .nullPointer
  else put .channels call.thread heap

def createChannelThread (s : ChannelThreads) : Except Fault (ChannelThreads × Int) := do
  let localCreatedThreads := wrapSigned 32 (s.maxCreatedThreads + 1)
  let (threadsArraySize, array, heap) ← makeRoom z call s
  let heap ← storeEntries z call s.maxCreatedThreads array heap
  let novoArgs : ChannelArgs := ⟨wrapSigned 32 s.maxCreatedThreads, call.sockfd⟩
  let maxCreatedThreads := wrapUnsigned 32 localCreatedThreads
  pure (⟨threadsArraySize, maxCreatedThreads, array, heap, novoArgs :: s.created⟩,
    wrapSigned 32 maxCreatedThreads)

end

/-! ### What a call keeps -/

section
variable (z : Sizes)

def ChannelThreads.entry (s : ChannelThreads) (a : ChannelArray) (i : Nat) : Option (List UInt8) :=
  s.heap.read (s.array a) (i * z.sizeof a) (z.sizeof a)

def ChannelThreads.capacity (s : ChannelThreads) (a : ChannelArray) : Nat :=
  s.heap.size (s.array a) / z.sizeof a

/-- The entries of earlier channels are as they were, no two arrays are one, and the new
channel has its place in each. -/
structure ChannelsKept (s s' : ChannelThreads) : Prop where
  entries : ∀ a, ∀ i < s.maxCreatedThreads, s'.entry z a i = s.entry z a i
  separate : Function.Injective s'.array
  room : ∀ a, s.maxCreatedThreads < s'.capacity z a

/-- Every call returns and keeps what it should. -/
def AllChannelsKept : List ThreadCall → ChannelThreads → Prop
  | [], _ => True
  | call :: calls, s => ∃ s' created, createChannelThread z call s = .ok (s', created) ∧
      ChannelsKept z s s' ∧ AllChannelsKept calls s'

end

/-- No request for memory fails. -/
structure ThreadCall.Served (call : ThreadCall) : Prop where
  arrays : ∀ a, (call.arrays a).placement ≠ .fails
  novoArgs : call.novoArgs.placement ≠ .fails

/-! ### Growing -/

section
variable {z : Sizes} {call : ThreadCall} {s s' : ChannelThreads} {heap heap' : Blocks UInt8}
variable {p : Pointer} {size count b : Nat}

theorem reallocarray_some {allocation : Allocation}
    (done : reallocarray allocation (some b) size count heap = .ok (p, heap')) :
    p = none ∨ p = some b ∨ heap'.content b = none := by
  unfold reallocarray at done
  split at done
  · exact .inl (congrArg Prod.fst (Except.ok.inj done)).symm
  · dsimp only at done
    cases content : heap.content b with
    | none => simp [content] at done
    | some xs =>
      simp only [content] at done
      cases placement : allocation.placement with
      | fails =>
        simp only [placement] at done
        exact .inl (congrArg Prod.fst (Except.ok.inj done)).symm
      | inPlace =>
        simp only [placement] at done
        exact .inr (.inl (congrArg Prod.fst (Except.ok.inj done)).symm)
      | moved =>
        simp only [placement] at done
        obtain rfl := congrArg Prod.snd (Except.ok.inj done)
        exact .inr (.inr (Blocks.content_free_alloc (by simp [content]) _))

theorem growArrays_aliased {array array' : ChannelArray → Pointer}
    (grown : growArrays z call count array heap = .ok (array', heap')) :
    (∃ a, array' a = none) ∨ array' .channelMutexes = array' .channelConds := by
  obtain ⟨⟨p, first⟩, _, rest⟩ := bind_eq_ok.mp grown
  obtain ⟨⟨q, second⟩, conds, rest⟩ := bind_eq_ok.mp rest
  obtain ⟨⟨r, third⟩, packets, rest⟩ := bind_eq_ok.mp rest
  obtain ⟨⟨t, fourth⟩, _, rest⟩ := bind_eq_ok.mp rest
  obtain rfl := congrArg Prod.fst (Except.ok.inj rest)
  dsimp only at conds packets
  cases p with
  | none => exact .inl ⟨.channelMutexes, rfl⟩
  | some b =>
    rcases reallocarray_some conds with rfl | rfl | freed
    · exact .inl ⟨.channelConds, rfl⟩
    · exact .inr rfl
    · rw [reallocarray] at packets
      split at packets
      · obtain rfl := congrArg Prod.fst (Except.ok.inj packets)
        exact .inl ⟨.channelPackets, rfl⟩
      · simp [freed] at packets

/-- The state in which a call finds arrays of too few entries. -/
structure Full (s : ChannelThreads) : Prop where
  some_arrays : s.threadsArraySize ≠ 0
  full : (s.threadsArraySize : Int) < wrapSigned 32 (s.maxCreatedThreads + 1)

theorem createChannelThread_eq_ok {r : Int} : createChannelThread z call s = .ok (s', r) ↔
    ∃ size array found heap, makeRoom z call s = .ok (size, array, found) ∧
      storeEntries z call s.maxCreatedThreads array found = .ok heap ∧
      s' = ⟨size, wrapUnsigned 32 (wrapSigned 32 (s.maxCreatedThreads + 1)), array, heap,
        ⟨wrapSigned 32 s.maxCreatedThreads, call.sockfd⟩ :: s.created⟩ ∧
      r = wrapSigned 32 s'.maxCreatedThreads := by
  constructor
  · intro returned
    obtain ⟨⟨size, array, found⟩, room, rest⟩ := bind_eq_ok.mp returned
    obtain ⟨heap, stored, rest⟩ := bind_eq_ok.mp rest
    obtain ⟨state, result⟩ := Prod.mk.inj (Except.ok.inj rest)
    refine ⟨size, array, found, heap, room, stored, state.symm, ?_⟩
    rw [← result, ← state]
  · rintro ⟨size, array, found, heap, room, stored, state, result⟩
    rw [result, state, createChannelThread, room, ok_bind]
    simp only [stored, ok_bind]
    rfl

/-- However the requests are answered, growing loses an array or makes two of them one. -/
theorem not_kept_of_full (full : Full s) (later : call.reset ≠ 1) {r : Int}
    (returned : createChannelThread z call s = .ok (s', r)) : ¬ ChannelsKept z s s' := by
  intro kept
  obtain ⟨size, array', _, heap, room, _, rfl, _⟩ := createChannelThread_eq_ok.mp returned
  simp only [makeRoom, if_neg later, gt_iff_lt, full.full, full.some_arrays, if_true, if_false]
    at room
  obtain ⟨doubled, _, rest⟩ := bind_eq_ok.mp room
  obtain ⟨⟨array, after⟩, grown, rest⟩ := bind_eq_ok.mp rest
  obtain ⟨_, same⟩ := Prod.mk.inj (Except.ok.inj rest)
  obtain ⟨rfl, rfl⟩ := Prod.mk.inj same
  rcases growArrays_aliased grown with ⟨a, lost⟩ | aliased
  · have room := kept.room a
    simp [ChannelThreads.capacity, lost] at room
  · cases kept.separate aliased

/-! ### The first channel -/

theorem mallocBlock_served {allocation : Allocation} (served : allocation.placement ≠ .fails) :
    mallocBlock allocation size heap =
      (some heap.next, heap.alloc (resized size allocation.fill [])) := by
  cases placement : allocation.placement with
  | fails => exact (served placement).elim
  | inPlace => simp [mallocBlock, placement]
  | moved => simp [mallocBlock, placement]

theorem sizeof_one (z : Sizes) (a : ChannelArray) :
    wrapUnsigned 64 (z.sizeof a * 1 : Nat) = z.sizeof a := by
  have small := z.small a
  unfold wrapUnsigned
  omega

theorem allocateArrays_served (served : ∀ a, (call.arrays a).placement ≠ .fails) :
    Function.Injective (allocateArrays z call 1 heap).1 ∧
      ∀ a, (allocateArrays z call 1 heap).2.size ((allocateArrays z call 1 heap).1 a) =
        z.sizeof a := by
  have step : ∀ a size heap, mallocBlock (call.arrays a) size heap =
      (some heap.next, heap.alloc (resized size (call.arrays a).fill [])) :=
    fun a _ _ => mallocBlock_served (served a)
  simp only [allocateArrays, step, sizeof_one]
  constructor
  · intro a b same
    cases a <;> cases b <;> simp [arraysOf] at same ⊢ <;> omega
  · intro a
    cases a <;> simp [arraysOf, Blocks.size_alloc, Nat.add_assoc]

theorem storeBlock_room {offset : Nat} {value : List UInt8} (nonempty : value ≠ [])
    (room : offset + value.length ≤ heap.size p) :
    ∃ after, storeBlock heap p offset value = .ok after ∧ ∀ q, after.size q = heap.size q := by
  cases p with
  | none =>
    have length := List.length_pos_iff.mpr nonempty
    simp only [Blocks.size_none] at room
    omega
  | some b =>
    obtain ⟨after, written⟩ := Blocks.write_isSome room nonempty
    exact ⟨after, by simp [storeBlock, written], Blocks.size_write written⟩

theorem storeBlock_ok {offset : Nat} {value : List UInt8}
    (stored : storeBlock heap p offset value = .ok heap') : p ≠ none := by
  rintro rfl
  cases stored

section
variable {index : Nat} {array : ChannelArray → Pointer}

theorem storeEntries_room (room : ∀ a, (index + 1) * z.sizeof a ≤ heap.size (array a))
    (served : call.novoArgs.placement ≠ .fails) :
    ∃ after, storeEntries z call index array heap = .ok after ∧
      ∀ q, after.size q = heap.size q := by
  have put : ∀ a (value : Nat → UInt8) (now : Blocks UInt8), (∀ q, now.size q = heap.size q) →
      ∃ after, storeBlock now (array a) (index * z.sizeof a) ((List.range (z.sizeof a)).map value) =
        .ok after ∧ ∀ q, after.size q = heap.size q := by
    intro a value now same
    have nonempty : (List.range (z.sizeof a)).map value ≠ [] := by
      simpa using (z.positive a).ne'
    have enough : index * z.sizeof a + ((List.range (z.sizeof a)).map value).length ≤
        now.size (array a) := by
      simpa [same, Nat.succ_mul] using room a
    obtain ⟨after, stored, kept⟩ := storeBlock_room nonempty enough
    exact ⟨after, stored, fun q => (kept q).trans (same q)⟩
  obtain ⟨first, mutex, same⟩ := put .channelMutexes (fun _ => 0) heap fun _ => rfl
  obtain ⟨second, cond, same⟩ := put .channelConds (fun _ => 0) first same
  obtain ⟨third, packet, same⟩ := put .channelPackets (fun _ => 0) second same
  obtain ⟨fourth, thread, same⟩ := put .channels call.thread third same
  refine ⟨fourth, ?_, same⟩
  simp only [storeEntries, mutex, cond, packet, ok_bind, if_neg served, thread]

theorem storeEntries_ok (stored : storeEntries z call index array heap = .ok heap') :
    (∀ a, array a ≠ none) ∧ call.novoArgs.placement ≠ .fails := by
  obtain ⟨_, mutex, rest⟩ := bind_eq_ok.mp stored
  obtain ⟨_, cond, rest⟩ := bind_eq_ok.mp rest
  obtain ⟨_, packet, rest⟩ := bind_eq_ok.mp rest
  split at rest
  · cases rest
  · rename_i served
    refine ⟨fun a => ?_, served⟩
    cases a with
    | channelMutexes => exact storeBlock_ok mutex
    | channelConds => exact storeBlock_ok cond
    | channelPackets => exact storeBlock_ok packet
    | channels => exact storeBlock_ok rest

end

theorem makeRoom_first (fresh : s.maxCreatedThreads = 0) (reset : call.reset = 1) :
    makeRoom z call s = .ok (1, allocateArrays z call 1 s.heap) := by
  have new : wrapSigned 32 (s.maxCreatedThreads + 1) > (0 : Nat) := by
    rw [fresh]
    decide
  simp only [makeRoom, if_pos reset, if_pos new]
  rfl

theorem first_kept (fresh : s.maxCreatedThreads = 0) (reset : call.reset = 1)
    (served : call.Served) :
    ∃ s' created, createChannelThread z call s = .ok (s', created) ∧ ChannelsKept z s s' := by
  have room : makeRoom z call s = _ := makeRoom_first fresh reset
  have arrays : Function.Injective (allocateArrays z call 1 s.heap).1 ∧ _ :=
    allocateArrays_served served.arrays
  generalize allocateArrays z call 1 s.heap = allocated at room arrays
  obtain ⟨array, found⟩ := allocated
  obtain ⟨separate, size⟩ := arrays
  dsimp only at separate size
  have enough : ∀ a, (s.maxCreatedThreads + 1) * z.sizeof a ≤ found.size (array a) := by
    simp [fresh, size]
  obtain ⟨heap, stored, same⟩ := storeEntries_room enough served.novoArgs
  refine ⟨_, _, createChannelThread_eq_ok.mpr ⟨1, array, found, heap, room, stored, rfl, rfl⟩,
    ?_, separate, ?_⟩
  · intro a i earlier
    omega
  · intro a
    simp [ChannelThreads.capacity, same, size, Nat.div_self (z.positive a), fresh]

theorem first_full (fresh : s.maxCreatedThreads = 0) (reset : call.reset = 1) {r : Int}
    (returned : createChannelThread z call s = .ok (s', r)) : call.Served ∧ Full s' := by
  obtain ⟨size, array, found, heap, room, stored, rfl, _⟩ := createChannelThread_eq_ok.mp returned
  obtain ⟨rfl, rfl, rfl⟩ : 1 = size ∧ (allocateArrays z call 1 s.heap).1 = array ∧
      (allocateArrays z call 1 s.heap).2 = found := by
    simpa [makeRoom_first fresh reset, Prod.ext_iff] using room
  obtain ⟨found, novoArgs⟩ := storeEntries_ok stored
  refine ⟨⟨fun a fails => found a ?_, novoArgs⟩, by simp, ?_⟩
  · cases a <;> simp [allocateArrays, arraysOf, mallocBlock, fails]
  · simp only [fresh]
    decide

/-- The first channel after a reset is the only one that is stored as it should be. -/
theorem allChannelsKept_iff {calls : List ThreadCall} (fresh : s.maxCreatedThreads = 0)
    (first : ∀ call ∈ calls.head?, call.reset = 1) (later : ∀ call ∈ calls.tail, call.reset ≠ 1) :
    AllChannelsKept z calls s ↔ calls.length ≤ 1 ∧ ∀ call ∈ calls, call.Served := by
  match calls with
  | [] => simp [AllChannelsKept]
  | [call] =>
    have reset : call.reset = 1 := first call rfl
    constructor
    · rintro ⟨s', created, returned, _⟩
      simpa using (first_full fresh reset returned).1
    · rintro ⟨_, served⟩
      obtain ⟨s', created, returned, kept⟩ := first_kept fresh reset (served call (by simp))
      exact ⟨s', created, returned, kept, trivial⟩
  | call :: next :: calls =>
    constructor
    · rintro ⟨s', _, returned, _, s'', _, again, kept, _⟩
      have full := (first_full fresh (first call rfl) returned).2
      exact (not_kept_of_full full (later next (by simp)) again kept).elim
    · rintro ⟨few, _⟩
      simp at few

end

/-- The sizes of glibc on a 64-bit machine. -/
def glibcSizes : Sizes where
  sizeof
    | .channelMutexes => 40
    | .channelConds => 48
    | .channelPackets => 8
    | .channels => 8
  positive a := by cases a <;> decide
  small a := by cases a <;> decide

def noThreads : ChannelThreads := ⟨0, 0, fun _ => none, .empty, []⟩

/-- A call whose requests are answered in the same way. -/
def threadCall (reset : Int) (placement : Placement) : ThreadCall :=
  ⟨3, reset, fun _ => ⟨placement, fun _ => 0⟩, ⟨placement, fun _ => 0⟩, fun _ => 1⟩

theorem allChannelsKept_one : AllChannelsKept glibcSizes [threadCall 1 .moved] noThreads := by
  refine (allChannelsKept_iff rfl (by simp [threadCall]) (by simp)).mpr ⟨by simp, ?_⟩
  intro call member
  obtain rfl := List.mem_singleton.mp member
  exact ⟨fun _ => nofun, nofun⟩

theorem second_channel_lost :
    ¬ AllChannelsKept glibcSizes [threadCall 1 .moved, threadCall 0 .inPlace] noThreads := by
  rintro ⟨s, _, returned, _, s', _, again, kept, _⟩
  exact not_kept_of_full (first_full rfl rfl returned).2 (by decide) again kept

end Amqpgram
