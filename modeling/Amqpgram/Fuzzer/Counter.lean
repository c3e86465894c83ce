import Amqpgram.Library.Critical
import Amqpgram.Machine

/-! The packet count of Packet.c, which the channel threads add to while the main thread
zeroes and reads it, each under `packet_mutex`. -/
namespace Amqpgram

/-- The calls that lock `packet_mutex`. -/
inductive CounterCall where
  | zero
  | add (amount : Int)
  | get
  deriving DecidableEq, Repr

/-- `zero_packet_count`. -/
def zeroPacketCount : Critical Int Int := ⟨0, [fun s => (0, s.2)]⟩

/-- `add_packet_count`: the sum is formed in `count` and then stored. -/
def addPacketCount (amount : Int) : Critical Int Int :=
  ⟨0, [fun s => (s.1, wrapSigned 64 (s.1 + amount)), fun s => (s.2, s.2)]⟩

def accPacketCount : Critical Int Int := addPacketCount 1

/-- `get_packet_count`. -/
def getPacketCount : Critical Int Int := ⟨0, [fun s => (s.1, s.1)]⟩

def CounterCall.critical : CounterCall → Critical Int Int
  | .zero => zeroPacketCount
  | .add amount => addPacketCount amount
  | .get => getPacketCount

/-- Any number of threads that call in any order. -/
def packetCounter (T : Type) [DecidableEq T] :
    TransitionSystem (Critical.State T Int Int CounterCall) :=
  Critical.system CounterCall.critical 0

/-! ### What the count is -/

def CounterCall.amount : CounterCall → Int
  | .add amount => amount
  | _ => 0

/-- The calls since the last that zeroed. -/
def sinceZero (calls : List CounterCall) : List CounterCall :=
  (calls.reverse.takeWhile fun call => call ≠ .zero).reverse

/-- The sum of all that was added since the count was zeroed, as a `long long`. -/
def countOf (calls : List CounterCall) : Int :=
  wrapSigned 64 ((sinceZero calls).map CounterCall.amount).sum

/-- What a call has in `count` at its end, from the count before it. -/
def CounterCall.returned (before : Int) : CounterCall → Int
  | .zero => 0
  | .add amount => wrapSigned 64 (before + amount)
  | .get => before

section
variable {calls : List CounterCall} {call : CounterCall}

@[simp] theorem sinceZero_zero : sinceZero (calls ++ [.zero]) = [] := by simp [sinceZero]

theorem sinceZero_snoc (other : call ≠ .zero) :
    sinceZero (calls ++ [call]) = sinceZero calls ++ [call] := by
  simp [sinceZero, other]

theorem wrapSigned_add_left (n : Nat) (x y : Int) :
    wrapSigned n (wrapSigned n x + y) = wrapSigned n (x + y) := by
  apply wrapSigned_congr
  rw [Int.add_emod, wrapSigned_emod, ← Int.add_emod]

theorem countOf_add (amount : Int) :
    countOf (calls ++ [.add amount]) = wrapSigned 64 (countOf calls + amount) := by
  rw [countOf, countOf, sinceZero_snoc (by simp), wrapSigned_add_left]
  simp [CounterCall.amount]

theorem countOf_get : countOf (calls ++ [.get]) = countOf calls := by
  rw [countOf, countOf, sinceZero_snoc (by simp)]
  simp [CounterCall.amount]

theorem critical_run (call : CounterCall) :
    call.critical.run (countOf calls) =
      (countOf (calls ++ [call]), call.returned (countOf calls)) := by
  cases call with
  | zero => simp [CounterCall.critical, Critical.run, zeroPacketCount, countOf,
      CounterCall.returned, wrapSigned]
  | add amount => simp [CounterCall.critical, Critical.run, addPacketCount, countOf_add,
      CounterCall.returned]
  | get => simp [CounterCall.critical, Critical.run, getPacketCount, countOf_get,
      CounterCall.returned]

end

section
variable {T : Type} {history : List (Critical.Done T Int CounterCall)} {v : Int}

theorem sequential_count (sequential : Critical.Sequential CounterCall.critical 0 history v) :
    v = countOf (history.map Critical.Done.operation) ∧
      ∀ front done back, history = front ++ done :: back →
        done.register = done.operation.returned (countOf (front.map Critical.Done.operation)) := by
  induction sequential with
  | nil => exact ⟨rfl, by simp⟩
  | @snoc history v v' t call register before ran ih =>
    obtain ⟨rfl, returned⟩ := ih
    rw [critical_run] at ran
    obtain ⟨rfl, rfl⟩ := Prod.mk.inj ran
    refine ⟨by simp, ?_⟩
    intro front done back parts
    rcases List.eq_nil_or_concat back with rfl | ⟨back, last, rfl⟩
    · obtain ⟨rfl, last⟩ := List.append_inj' parts rfl
      obtain rfl : _ = done := by simpa using last
      rfl
    · rw [List.concat_eq_append, ← List.cons_append, ← List.append_assoc] at parts
      exact returned front done back (List.append_inj' parts rfl).1

variable [DecidableEq T]

theorem history_returned {s : Critical.State T Int Int CounterCall}
    (reach : (packetCounter T).Reachable s) :
    ∀ front done back, s.history = front ++ done :: back →
      done.register = done.operation.returned (countOf (front.map Critical.Done.operation)) := by
  obtain ⟨v, sequential, _⟩ := Critical.sound reach
  exact (sequential_count sequential).2

/-- In every interleaving each call finds the sum of what was added since the last zeroing,
none of it lost or doubled, and none waits in vain. -/
theorem packetCounter_linear (s : Critical.State T Int Int CounterCall)
    (reach : (packetCounter T).Reachable s) :
    (∀ front done back, s.history = front ++ done :: back →
      done.register = done.operation.returned (countOf (front.map Critical.Done.operation))) ∧
    (s.holder = none → s.shared = countOf (s.history.map Critical.Done.operation)) ∧
    ∀ t call, s.phase t = .waiting call → ∃ s', (packetCounter T).Reachable s' ∧
      s'.holder = none ∧ ∃ front r, s'.history = s.history ++ front ++ [⟨t, call, r⟩] := by
  have sound := Critical.sound reach
  refine ⟨history_returned reach, ?_, ?_⟩
  · intro unlocked
    exact (sequential_count (sound.value unlocked)).1
  · intro t call waiting
    obtain ⟨s', path, unlocked, history⟩ := sound.complete waiting
    exact ⟨s', reach.trans path, unlocked, history⟩

end

/-- Two threads add at the same time: the second to call is the first to be let in. -/
theorem packetCounter_linear_pair : ∃ s : Critical.State Bool Int Int CounterCall,
    s.history = [⟨true, .add 1, 1⟩, ⟨false, .add 1, 2⟩] ∧ s.holder = none ∧ s.shared = 2 := by
  have start : (packetCounter Bool).Reachable _ := TransitionSystem.Reachable.start
  have first := start.next (.call _ false (.add 1) rfl)
  have second := first.next (.call _ true (.add 1) rfl)
  have locked := second.next (.lock _ true (.add 1) rfl rfl)
  have summed := locked.next (.act _ true (.add 1) _ _ _ rfl)
  have stored := summed.next (.act _ true (.add 1) _ _ _ rfl)
  have left := stored.next (.unlock _ true (.add 1) _ rfl)
  have locked' := left.next (.lock _ false (.add 1) rfl rfl)
  have summed' := locked'.next (.act _ false (.add 1) _ _ _ rfl)
  have stored' := summed'.next (.act _ false (.add 1) _ _ _ rfl)
  have left' := stored'.next (.unlock _ false (.add 1) _ rfl)
  exact ⟨_, rfl, rfl, (packetCounter_linear _ left').2.1 rfl⟩

/-! ### Sending -/

/-- `send_packet` with what `send` returned: its value and whether it counts the packet. -/
def sendPacket (packet : Option (List UInt8)) (size sent : Int) : Bool × List CounterCall :=
  match packet with
  | none => (false, [])
  | some _ => if wrapSigned 32 sent = size then (false, [.add 1]) else (true, [])

/-- The calls of main and of `send_packet`. -/
def CounterCall.Counts (call : CounterCall) : Prop :=
  call = .zero ∨ call = .get ∨ call = .add 1

section
variable {calls : List CounterCall}

theorem sendPacket_counts (packet : Option (List UInt8)) (size sent : Int) :
    ∀ call ∈ (sendPacket packet size sent).2, call.Counts := by
  cases packet with
  | none => simp [sendPacket]
  | some packet =>
    unfold sendPacket
    dsimp only
    split <;> simp [CounterCall.Counts]

theorem amount_sum (counts : ∀ call ∈ calls, CounterCall.Counts call) :
    (calls.map CounterCall.amount).sum = calls.count (.add 1) := by
  induction calls with
  | nil => rfl
  | cons call calls ih =>
    have rest := ih fun call member => counts call (List.mem_cons_of_mem _ member)
    rw [List.map_cons, List.sum_cons, rest]
    rcases counts call (List.mem_cons_self ..) with rfl | rfl | rfl
    · simp [CounterCall.amount]
    · simp [CounterCall.amount]
    · simp [CounterCall.amount]
      omega

theorem sinceZero_sublist (calls : List CounterCall) : (sinceZero calls).Sublist calls := by
  have front : (sinceZero calls).Sublist calls.reverse.reverse :=
    (List.takeWhile_sublist _).reverse
  rwa [List.reverse_reverse] at front

theorem countOf_eq_count (counts : ∀ call ∈ calls, CounterCall.Counts call)
    (few : calls.length < 9223372036854775808) :
    countOf calls = (sinceZero calls).count (.add 1) := by
  have inside := sinceZero_sublist calls
  have bound : (sinceZero calls).count (.add 1) ≤ calls.length :=
    List.count_le_length.trans inside.length_le
  rw [countOf, amount_sum fun call member => counts call (inside.subset member)]
  exact wrapSigned_of_range (by omega) (by omega)

theorem sinceZero_append {more : List CounterCall} (never : CounterCall.zero ∉ more) :
    sinceZero (calls ++ more) = sinceZero calls ++ more := by
  induction more using List.reverseRecOn with
  | nil => simp
  | append_singleton more call ih =>
    simp only [List.mem_append, List.mem_singleton, not_or] at never
    rw [← List.append_assoc, sinceZero_snoc (Ne.symm never.2), ih never.1, List.append_assoc]

end

/-- Main reads exactly the number of packets sent since it zeroed the count, and from one
reading to the next it grows by the packets sent in between. -/
theorem packetCounter_reads {T : Type} [DecidableEq T] (s : Critical.State T Int Int CounterCall)
    (reach : (packetCounter T).Reachable s)
    (counts : ∀ done ∈ s.history, done.operation.Counts)
    (few : s.history.length < 9223372036854775808) :
    (∀ front t (r : Int) back, s.history = front ++ ⟨t, .get, r⟩ :: back →
      r = (sinceZero (front.map Critical.Done.operation)).count (.add 1)) ∧
    ∀ front t (r : Int) between u (r' : Int) back,
      s.history = front ++ ⟨t, .get, r⟩ :: (between ++ ⟨u, .get, r'⟩ :: back) →
      .zero ∉ between.map Critical.Done.operation →
      r' = r + (between.map Critical.Done.operation).count (.add 1) := by
  have read : ∀ front t (r : Int) back, s.history = front ++ ⟨t, .get, r⟩ :: back →
      r = (sinceZero (front.map Critical.Done.operation)).count (.add 1) := by
    intro front t r back parts
    have returned := history_returned reach front _ back parts
    have length := congrArg List.length parts
    have within : ∀ call ∈ front.map Critical.Done.operation, call.Counts := by
      intro call member
      obtain ⟨done, inside, rfl⟩ := List.mem_map.mp member
      exact counts done (by simp [parts, inside])
    rw [countOf_eq_count within (by simp at length ⊢; omega)] at returned
    exact returned
  refine ⟨read, ?_⟩
  intro front t r between u r' back parts never
  have before := read front t r _ parts
  have after := read (front ++ ⟨t, .get, r⟩ :: between) u r' back (by simp [parts])
  rw [before, after, List.map_append, List.map_cons, sinceZero_append (by simpa using never),
    List.count_append]
  simp

theorem packetCounter_read_sent : ∃ s, (packetCounter Bool).Reachable s ∧
    s.history = [⟨true, .get, 0⟩, ⟨false, .add 1, 1⟩, ⟨true, .get, 1⟩] := by
  have start : (packetCounter Bool).Reachable _ := TransitionSystem.Reachable.start
  have calls := start.next (.call _ true .get rfl)
  have locks := calls.next (.lock _ true .get rfl rfl)
  have reads := locks.next (.act _ true .get _ _ _ rfl)
  have leaves := reads.next (.unlock _ true .get _ rfl)
  have sends := leaves.next (.call _ false (.add 1) rfl)
  have locked := sends.next (.lock _ false (.add 1) rfl rfl)
  have summed := locked.next (.act _ false (.add 1) _ _ _ rfl)
  have stored := summed.next (.act _ false (.add 1) _ _ _ rfl)
  have left := stored.next (.unlock _ false (.add 1) _ rfl)
  have calls' := left.next (.call _ true .get rfl)
  have locks' := calls'.next (.lock _ true .get rfl rfl)
  have reads' := locks'.next (.act _ true .get _ _ _ rfl)
  have ends := reads'.next (.unlock _ true .get _ rfl)
  exact ⟨_, ends, rfl⟩

theorem packetCounter_reads_one : ∃ s, (packetCounter Bool).Reachable s ∧
    s.history = [⟨true, .get, 0⟩, ⟨false, .add 1, 1⟩, ⟨true, .get, 1⟩] ∧
    (1 : Int) = 0 + [CounterCall.add 1].count (.add 1) := by
  obtain ⟨s, reach, history⟩ := packetCounter_read_sent
  have counts : ∀ done ∈ s.history, done.operation.Counts := by
    rw [history]
    intro done member
    rcases List.mem_cons.mp member with rfl | member
    · exact .inr (.inl rfl)
    rcases List.mem_cons.mp member with rfl | member
    · exact .inr (.inr rfl)
    · obtain rfl := List.mem_singleton.mp member
      exact .inr (.inl rfl)
  exact ⟨s, reach, history, (packetCounter_reads s reach counts (by simp [history])).2 [] true 0
    [⟨false, .add 1, 1⟩] true 1 [] history (by decide)⟩

end Amqpgram
