import Amqpgram.Fuzzer.Joining

/-! main.c: `fuzz_with_strategy`, which calls `fuzz` until the strategy value is reached.
The value `fuzz` returns can lag behind the packet count, so progress is that of the
count: each turn that goes on has seen it grow. -/
namespace Amqpgram

/-- The value that `fuzz` returns and the packet count read behind it. -/
structure Instance where
  returned : Int
  counted : Int
  deriving DecidableEq, Repr

/-- At the top of the loop, gone through `exit(1)`, or behind the loop. -/
inductive BatteryControl where
  | looping
  | exited
  | finished
  deriving DecidableEq, Repr

/-- The variables of `fuzz_with_strategy`, with the number of instances run, the value
last returned and the packet count. -/
structure Battery where
  control : BatteryControl
  instances : Nat
  returned : Option Int
  packetCount : Int
  currval : Int
  printableCurrval : Int
  lastPacketsCount : Int
  deriving DecidableEq, Repr

/-- Behind `zero_packet_count`, with the time or the packet count as `currval`. -/
def Battery.start (now : Int) : StratUpdate → Battery
  | .currentTime => ⟨.looping, 0, none, 0, now, 0, 0⟩
  | .packetCount => ⟨.looping, 0, none, 0, 0, 0, 0⟩

/-- `stratval` behind the tests of the strategy. -/
def StratUpdate.target (now stratval : Int) : StratUpdate → Int
  | .currentTime => now + stratval
  | .packetCount => stratval

/-- The instance has run and is counted. -/
def Battery.ran (b : Battery) (i : Instance) : Battery :=
  { b with
    instances := b.instances + 1
    returned := some i.returned
    packetCount := i.counted }

/-- The loop's body behind the call of `fuzz`. -/
def Battery.turn (b : Battery) (stratval printableStratval : Int) (i : Instance) : Battery :=
  let delta := wrapSigned 32 (i.returned - b.currval)
  if delta < 0 ∨ 2 * printableStratval < delta then { b with control := .exited }
  else if i.counted = b.lastPacketsCount then { b with control := .exited }
  else
    { b with
      control := if b.currval + delta < stratval ∧ delta < stratval then .looping else .finished
      currval := b.currval + delta
      printableCurrval := b.printableCurrval + delta
      lastPacketsCount := i.counted }

/-- The count only grows and stays below 2^31. Under strategy `n` the value returned was
read from it during the instance. -/
structure Instance.Possible (i : Instance) (stratupdate : StratUpdate) (packetCount : Int) :
    Prop where
  grown : packetCount ≤ i.counted
  bounded : i.counted < 2147483648
  observed : stratupdate = .packetCount → packetCount ≤ i.returned ∧ i.returned ≤ i.counted

inductive Battery.Step (stratupdate : StratUpdate) (now stratval : Int) :
    Battery → Battery → Prop where
  | turn (b : Battery) (i : Instance) (looping : b.control = .looping)
      (possible : i.Possible stratupdate b.packetCount) :
      Battery.Step stratupdate now stratval b
        ((b.ran i).turn (stratupdate.target now stratval) stratval i)

def fuzzWithStrategy (stratupdate : StratUpdate) (now stratval : Int) : TransitionSystem Battery :=
  ⟨Battery.start now stratupdate, Battery.Step stratupdate now stratval⟩

/-! ### The value of an instance -/

section
variable {f : Fuzzer} {packetChaos : Int} {stratval time count : Int}
variable {s s' : Session} {c : FuzzCall}

theorem Session.Step.counted {stratupdate : StratUpdate}
    (step : Session.Step f packetChaos stratupdate stratval s s') :
    s.packetCount ≤ s'.packetCount := by
  cases step with
  | send late decision c outcome sending delivered =>
    change s.packetCount ≤ s.packetCount + outcome.sent.toList.length
    omega
  | _ => exact le_rfl

/-- `check_strat` has not gone behind its first read. -/
def MainControl.unread : MainControl → Bool
  | .creating => true
  | .registering => true
  | .reading => true
  | _ => false

theorem Session.Step.unread {stratupdate : StratUpdate}
    (step : Session.Step f packetChaos stratupdate stratval s s')
    (before : s.main.unread = true) (apart : s.main ≠ .reading) : s'.main.unread = true := by
  cases step with
  | create creating => rfl
  | register registering => rfl
  | reached reading value => exact (apart reading).elim
  | below reading value => exact (apart reading).elim
  | guard guarding => cases guarding ▸ before
  | body testing => cases testing ▸ before
  | joinListener joining exited => cases joining ▸ before
  | joinChannel joining exited => cases joining ▸ before
  | _ => exact before

/-- `current_val` was read from the count during the call. -/
structure FuzzCall.Observes (count : Int) (c : FuzzCall) : Prop where
  grown : count ≤ c.session.packetCount
  read : c.session.main.unread = true ∨
    count ≤ c.currentVal ∧ c.currentVal ≤ c.session.packetCount

theorem FuzzCall.Observes.moved (observes : c.Observes count)
    (step : Session.Step f packetChaos .packetCount stratval c.session s) :
    (c.moved .packetCount s).Observes count := by
  have grown := observes.grown
  have counted := step.counted
  refine ⟨Int.le_trans grown counted, ?_⟩
  by_cases again : s.main.unread = true
  · exact .inl again
  · right
    by_cases reading : c.session.main = .reading
    · have past : s.main ≠ .reading := fun back => again (by rw [back]; rfl)
      have now_read : (c.moved .packetCount s).currentVal = c.session.packetCount :=
        if_pos ⟨reading, past⟩
      rw [now_read]
      exact ⟨grown, counted⟩
    · have kept : (c.moved .packetCount s).currentVal = c.currentVal :=
        if_neg fun both => reading both.1
      have behind : ¬ c.session.main.unread = true := fun before =>
        again (step.unread before reading)
      obtain ⟨lower, upper⟩ := observes.read.resolve_left behind
      rw [kept]
      exact ⟨lower, Int.le_trans upper counted⟩

theorem fuzzCall_observes
    (reach : (fuzzCall f packetChaos .packetCount stratval time count).Reachable c) :
    c.Observes count := by
  apply reach.invariant
  · exact ⟨le_rfl, .inl rfl⟩
  · intro c c' _ observes step
    cases step with
    | move s step => exact observes.moved step
    | _ => exact ⟨observes.grown, observes.read⟩

/-- What a call of `fuzz` that comes to its end returns is possible for an instance, however
the count grows until it is read. -/
theorem fuzz_possible
    (reach : (fuzzCall f packetChaos .packetCount stratval time count).Reachable c)
    (ended : c.control = .ended) (zeroed : 0 ≤ count) {counted : Int}
    (grown : c.session.packetCount ≤ counted) (bounded : counted < 2147483648) :
    (⟨c.retval, counted⟩ : Instance).Possible .packetCount count := by
  have logged := (fuzzCall_sound reach).logged
  rw [FuzzCall.Logged, ended] at logged
  have observes := fuzzCall_observes reach
  obtain ⟨lower, upper⟩ := observes.read.resolve_left (by simp [logged.1, MainControl.unread])
  have same : c.retval = c.currentVal := wrapSigned_of_range (by omega) (by omega)
  refine ⟨Int.le_trans observes.grown grown, bounded, fun _ => ?_⟩
  rw [same]
  exact ⟨lower, Int.le_trans upper grown⟩

end

/-! ### Strategy `n` -/

section
variable {n : Int} {b : Battery} {i : Instance}

/-- At the top of the loop: each instance so far has raised the count, and the last value
returned was below `n`. -/
structure Battery.Going (n : Int) (b : Battery) : Prop where
  raised : (b.instances : Int) ≤ b.packetCount
  few : (b.instances : Int) ≤ n
  nonnegative : 0 ≤ b.currval
  lagging : b.currval ≤ b.packetCount
  counted : b.lastPacketsCount = b.packetCount

structure Battery.Sound (n : Int) (b : Battery) : Prop where
  going : b.control = .looping → b.Going n
  instances : (b.instances : Int) ≤ n + 1
  current : b.control ≠ .exited → ∀ value, b.returned = some value → b.currval = value
  printable : b.printableCurrval = b.currval
  finished : b.control = .finished → n ≤ b.packetCount

theorem Battery.turn_cases (going : b.Going n) (possible : i.Possible .packetCount b.packetCount) :
    (b.ran i).turn n n i = { b.ran i with control := .exited } ∨
      b.packetCount < i.counted ∧ (b.ran i).turn n n i =
        { b.ran i with
          control := if i.returned < n ∧ i.returned - b.currval < n then .looping else .finished
          currval := i.returned
          printableCurrval := b.printableCurrval + (i.returned - b.currval)
          lastPacketsCount := i.counted } := by
  obtain ⟨lower, upper⟩ := possible.observed rfl
  have nonnegative := going.nonnegative
  have lagging := going.lagging
  have grown := possible.grown
  have bounded := possible.bounded
  have delta : wrapSigned 32 (i.returned - b.currval) = i.returned - b.currval :=
    wrapSigned_of_range (by omega) (by omega)
  have moved : b.currval + (i.returned - b.currval) = i.returned := by omega
  unfold Battery.turn Battery.ran
  dsimp only
  rw [delta, moved]
  split
  · exact .inl rfl
  · split
    · exact .inl rfl
    · rename_i different
      rw [going.counted] at different
      exact .inr ⟨by omega, rfl⟩

theorem Battery.Sound.turn (sound : b.Sound n) (looping : b.control = .looping)
    (possible : i.Possible .packetCount b.packetCount) : ((b.ran i).turn n n i).Sound n := by
  have going := sound.going looping
  have few := going.few
  have ran : ((b.ran i).instances : Int) = b.instances + 1 := rfl
  rcases Battery.turn_cases going possible with exited | ⟨grown, goes⟩
  · rw [exited]
    exact ⟨nofun, by dsimp only; omega, fun other => (other rfl).elim, sound.printable, nofun⟩
  · obtain ⟨lower, upper⟩ := possible.observed rfl
    have raised := going.raised
    have nonnegative := going.nonnegative
    have printable := sound.printable
    rw [goes]
    constructor
    · intro again
      have below : i.returned < n ∧ i.returned - b.currval < n := by
        by_contra done
        rw [if_neg done] at again
        cases again
      constructor
      · change ((b.instances + 1 : Nat) : Int) ≤ i.counted
        omega
      · change ((b.instances + 1 : Nat) : Int) ≤ n
        omega
      · change 0 ≤ i.returned
        omega
      · exact upper
      · rfl
    · change ((b.instances + 1 : Nat) : Int) ≤ n + 1
      omega
    · intro _ value returned
      exact Option.some.inj returned
    · change b.printableCurrval + (i.returned - b.currval) = i.returned
      omega
    · intro finished
      have past : ¬ (i.returned < n ∧ i.returned - b.currval < n) := by
        intro below
        rw [if_pos below] at finished
        cases finished
      change n ≤ i.counted
      omega

theorem fuzzWithStrategy_sound {now : Int} (lower : 0 ≤ n)
    (reach : (fuzzWithStrategy .packetCount now n).Reachable b) : b.Sound n := by
  apply reach.invariant
  · refine ⟨fun _ => ⟨le_rfl, lower, le_rfl, le_rfl, rfl⟩, ?_, nofun, rfl, nofun⟩
    change (0 : Int) ≤ n + 1
    omega
  · intro b b' _ sound step
    cases step with
    | turn i looping possible => exact sound.turn looping possible

/-- Strategy `n`: at most `n + 1` instances, values that keep up with `fuzz`, and `n`
packets counted when the loop ends. -/
theorem fuzzWithStrategy_bounded (now n : Int) (lower : 0 ≤ n) (b : Battery)
    (reach : (fuzzWithStrategy .packetCount now n).Reachable b) :
    ((b.instances : Int) ≤ n + 1 ∧ (b.control = .looping → (b.instances : Int) ≤ n)) ∧
      (b.control ≠ .exited → ∀ value, b.returned = some value → b.currval = value) ∧
      b.printableCurrval = b.currval - (Battery.start now .packetCount).currval ∧
      (b.control = .finished → n ≤ b.packetCount) := by
  have sound := fuzzWithStrategy_sound lower reach
  refine ⟨⟨sound.instances, fun looping => (sound.going looping).few⟩, sound.current, ?_,
    sound.finished⟩
  rw [sound.printable]
  exact (Int.sub_zero _).symm

end

/-- One packet to send: the value of the first instance lags behind the count. -/
theorem fuzzWithStrategy_bounded_lag : ∃ b : Battery,
    (fuzzWithStrategy .packetCount 0 1).Reachable b ∧ b.control = .finished ∧ b.instances = 2 ∧
    ((b.instances : Int) ≤ 1 + 1 ∧ (b.control = .looping → (b.instances : Int) ≤ 1)) ∧
      (b.control ≠ .exited → ∀ value, b.returned = some value → b.currval = value) ∧
      b.printableCurrval = b.currval - (Battery.start 0 .packetCount).currval ∧
      (b.control = .finished → 1 ≤ b.packetCount) := by
  have start : (fuzzWithStrategy .packetCount 0 1).Reachable (Battery.start 0 .packetCount) :=
    TransitionSystem.Reachable.start
  have lags := start.next (.turn _ ⟨0, 1⟩ rfl ⟨by decide, by decide, fun _ => by decide⟩)
  have ends := lags.next (.turn _ ⟨1, 2⟩ (by decide) ⟨by decide, by decide, fun _ => by decide⟩)
  exact ⟨_, ends, by decide, by decide,
    fuzzWithStrategy_bounded 0 1 (by decide) _ ends⟩

end Amqpgram
