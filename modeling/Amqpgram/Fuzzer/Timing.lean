import Amqpgram.Fuzzer.Strategy

/-! main.c: `fuzz_with_strategy` under strategy `t`, with a whole call of `fuzz` in each turn
of its loop. The clock only goes forward, so the loop never sees a negative `delta`. -/
namespace Amqpgram

/-! ### The value of a call -/

/-- Since the call began the clock has not gone back, no packet was uncounted, and
`current_val` was read from the clock in between. -/
structure FuzzCall.Clocked (time count : Int) (c : FuzzCall) : Prop where
  later : time ≤ c.session.currentTime
  grown : count ≤ c.session.packetCount
  read : c.session.main.unread = true ∨ time ≤ c.currentVal ∧ c.currentVal ≤ c.session.currentTime

section
variable {f : Fuzzer} {packetChaos : Int} {stratval time count : Int} {s s' : Session}
variable {c : FuzzCall}

theorem Session.Step.ticked {stratupdate : StratUpdate}
    (step : Session.Step f packetChaos stratupdate stratval s s') :
    s.currentTime ≤ s'.currentTime := by
  cases step with
  | tick now later => exact later
  | _ => exact le_rfl

theorem FuzzCall.Clocked.moved (clocked : c.Clocked time count)
    (step : Session.Step f packetChaos .currentTime stratval c.session s) :
    (c.moved .currentTime s).Clocked time count := by
  have ticked := step.ticked
  refine ⟨clocked.later.trans ticked, clocked.grown.trans step.counted, ?_⟩
  by_cases again : s.main.unread = true
  · exact .inl again
  · right
    by_cases reading : c.session.main = .reading
    · have past : s.main ≠ .reading := fun back => again (by rw [back]; rfl)
      have now_read : (c.moved .currentTime s).currentVal = c.session.currentTime :=
        if_pos ⟨reading, past⟩
      rw [now_read]
      exact ⟨clocked.later, ticked⟩
    · have kept : (c.moved .currentTime s).currentVal = c.currentVal :=
        if_neg fun both => reading both.1
      have behind : ¬ c.session.main.unread = true := fun before =>
        again (step.unread before reading)
      obtain ⟨lower, upper⟩ := clocked.read.resolve_left behind
      rw [kept]
      exact ⟨lower, upper.trans ticked⟩

theorem fuzzCall_clocked
    (reach : (fuzzCall f packetChaos .currentTime stratval time count).Reachable c) :
    c.Clocked time count := by
  apply reach.invariant
  · exact ⟨le_rfl, le_rfl, .inl rfl⟩
  · intro c c' _ clocked step
    cases step with
    | move s step => exact clocked.moved step
    | _ => exact ⟨clocked.later, clocked.grown, clocked.read⟩

theorem fuzz_returns_time
    (reach : (fuzzCall f packetChaos .currentTime stratval time count).Reachable c)
    (ended : c.control = .ended) (lower : 0 ≤ time) (early : c.session.currentTime < 2147483648) :
    time ≤ c.retval ∧ c.retval ≤ c.session.currentTime := by
  have logged := (fuzzCall_sound reach).logged
  rw [FuzzCall.Logged, ended] at logged
  obtain ⟨first, last⟩ :=
    (fuzzCall_clocked reach).read.resolve_left (by simp [logged.1, MainControl.unread])
  have same : c.retval = c.currentVal := wrapSigned_of_range (by omega) (by omega)
  rw [same]
  exact ⟨first, last⟩

end

/-! ### The loop -/

/-- The variables of `fuzz_with_strategy` and the clock. -/
structure Campaign where
  battery : Battery
  clock : Int

/-- A turn of the loop: `fuzz` is called some time after the last turn, and its threads have
ended when the count is read. -/
inductive Campaign.Step (f : Fuzzer) (packetChaos : Int) (now stratval : Int) :
    Campaign → Campaign → Prop where
  | turn (s : Campaign) (time : Int) (c : FuzzCall) (looping : s.battery.control = .looping)
      (later : s.clock ≤ time)
      (reach : (fuzzCall f packetChaos .currentTime (StratUpdate.currentTime.target now stratval)
        time s.battery.packetCount).Reachable c)
      (ended : c.control = .ended) :
      Campaign.Step f packetChaos now stratval s
        ⟨(s.battery.ran ⟨c.retval, c.session.packetCount⟩).turn
          (StratUpdate.currentTime.target now stratval) stratval
          ⟨c.retval, c.session.packetCount⟩, c.session.currentTime⟩

def campaign (f : Fuzzer) (packetChaos : Int) (now stratval : Int) : TransitionSystem Campaign :=
  ⟨⟨Battery.start now .currentTime, now⟩, Campaign.Step f packetChaos now stratval⟩

/-- The turns before the clock outgrows an `int`. -/
def Early (_ s' : Campaign) : Prop := s'.clock < 2147483648

/-- What holds of the loop, with what the turn that left it has found. -/
structure Campaign.Timed (now stratval : Int) (s : Campaign) : Prop where
  started : now ≤ s.battery.currval
  clocked : s.battery.currval ≤ s.clock
  elapsed : s.battery.printableCurrval = s.battery.currval - now
  counted : s.battery.control = .looping → s.battery.lastPacketsCount = s.battery.packetCount
  instances : (s.battery.instances : Int) ≤ s.battery.packetCount +
    if s.battery.control = .exited then 1 else 0
  looping : s.battery.control = .looping → s.battery.currval ≤ now + stratval ∧
    (0 < s.battery.instances → s.battery.currval < now + stratval)
  finished : s.battery.control = .finished →
    now + stratval ≤ s.battery.currval ∧ s.battery.currval ≤ now + 3 * stratval
  exited : s.battery.control = .exited → s.battery.packetCount = s.battery.lastPacketsCount ∨
    ∃ value ∈ s.battery.returned, 2 * stratval < value - s.battery.currval

section
variable {f : Fuzzer} {packetChaos now stratval : Int} {s s' : Campaign}

theorem Battery.turn_forward {b : Battery} {i : Instance} {target printable : Int}
    (lower : 0 ≤ b.currval) (later : b.currval ≤ i.returned) (early : i.returned < 2147483648) :
    ((2 * printable < i.returned - b.currval ∨ i.counted = b.lastPacketsCount) ∧
      (b.ran i).turn target printable i = { b.ran i with control := .exited }) ∨
    (i.returned - b.currval ≤ 2 * printable ∧ i.counted ≠ b.lastPacketsCount ∧
      ∃ control : BatteryControl, control ≠ .exited ∧
        (control = .looping → i.returned < target) ∧
        (control = .finished → target ≤ i.returned) ∧
        (b.ran i).turn target printable i =
          { b.ran i with
            control := control
            currval := i.returned
            printableCurrval := b.printableCurrval + (i.returned - b.currval)
            lastPacketsCount := i.counted }) := by
  have delta : wrapSigned 32 (i.returned - b.currval) = i.returned - b.currval :=
    wrapSigned_of_range (by omega) (by omega)
  have moved : b.currval + (i.returned - b.currval) = i.returned := by omega
  unfold Battery.turn Battery.ran
  dsimp only
  rw [delta, moved]
  split
  · exact .inl ⟨.inl (by omega), rfl⟩
  · split
    · exact .inl ⟨.inr ‹_›, rfl⟩
    · refine .inr ⟨by omega, ‹_›, _, ?_, ?_, ?_, rfl⟩
      · split
        · decide
        · decide
      · split
        · intro _
          omega
        · exact nofun
      · split
        · exact nofun
        · intro _
          omega

theorem Campaign.Timed.step (timed : s.Timed now stratval) (lower : 0 ≤ now)
    (step : Campaign.Step f packetChaos now stratval s s') (early : s'.clock < 2147483648) :
    s'.Timed now stratval := by
  cases step with
  | turn time c looping later reach ended =>
    have early : c.session.currentTime < 2147483648 := early
    have started := timed.started
    have clocked := timed.clocked
    have elapsed := timed.elapsed
    have counted := timed.counted looping
    have instances := timed.instances
    rw [if_neg (by rw [looping]; decide)] at instances
    have before := timed.looping looping
    have grown := (fuzzCall_clocked reach).grown
    obtain ⟨first, last⟩ := fuzz_returns_time reach ended (by omega) early
    have cases := @Battery.turn_forward s.battery ⟨c.retval, c.session.packetCount⟩
      (StratUpdate.currentTime.target now stratval) stratval (by omega) (by dsimp only; omega)
      (by dsimp only; omega)
    dsimp only [StratUpdate.target] at cases ⊢
    rcases cases with ⟨left, exits⟩ | ⟨short, busy, control, stays, below, above, goes⟩
    · rw [exits]
      constructor
      · exact started
      · change s.battery.currval ≤ c.session.currentTime
        omega
      · exact elapsed
      · exact nofun
      · change ((s.battery.instances + 1 : Nat) : Int) ≤ c.session.packetCount + 1
        omega
      · exact nofun
      · exact nofun
      · intro _
        rcases left with long | idle
        · exact .inr ⟨_, rfl, long⟩
        · exact .inl idle
    · rw [goes]
      constructor
      · change now ≤ c.retval
        omega
      · exact last
      · change s.battery.printableCurrval + (c.retval - s.battery.currval) = c.retval - now
        omega
      · exact fun _ => rfl
      · change ((s.battery.instances + 1 : Nat) : Int) ≤ c.session.packetCount +
          if control = .exited then 1 else 0
        rw [if_neg stays]
        omega
      · intro again
        have reached := below again
        exact ⟨reached.le, fun _ => reached⟩
      · intro finished
        have reached := above finished
        refine ⟨reached, ?_⟩
        change c.retval ≤ now + 3 * stratval
        omega
      · exact fun exited => (stays exited).elim

end

/-- Strategy `t`: the value printed is the time since the start; the loop that ends has used
up its time and at most three times that; it is left early only over a call without packets
or one that took more than twice the time; and no more calls are made than packets sent, but
for the last. -/
theorem campaign_timed (f : Fuzzer) (packetChaos now stratval : Int) (lower : 0 ≤ now)
    (positive : 0 ≤ stratval) (s : Campaign)
    (reach : ((campaign f packetChaos now stratval).restrict Early).Reachable s) :
    s.battery.printableCurrval = s.battery.currval - now ∧ s.battery.currval ≤ s.clock ∧
    (s.battery.control = .looping → 0 < s.battery.instances →
      s.battery.printableCurrval < stratval) ∧
    (s.battery.control = .finished → stratval ≤ s.battery.printableCurrval ∧
      s.battery.printableCurrval ≤ 3 * stratval) ∧
    (s.battery.control = .exited → s.battery.packetCount = s.battery.lastPacketsCount ∨
      ∃ value ∈ s.battery.returned, 2 * stratval < value - s.battery.currval) ∧
    (s.battery.instances : Int) ≤ s.battery.packetCount +
      if s.battery.control = .exited then 1 else 0 := by
  have timed : s.Timed now stratval := by
    apply reach.invariant
    · exact ⟨le_rfl, le_rfl, (Int.sub_self now).symm, fun _ => rfl, le_rfl,
        fun _ => ⟨by change now ≤ now + stratval; omega, nofun⟩, nofun, nofun⟩
    · intro s s' _ timed step
      exact timed.step lower step.1 step.2
  have elapsed := timed.elapsed
  refine ⟨elapsed, timed.clocked, ?_, ?_, timed.exited, timed.instances⟩
  · intro looping ran
    have below := (timed.looping looping).2 ran
    omega
  · intro finished
    have above := timed.finished finished
    omega

theorem header_call : ∃ c, (fuzzCall (shipped 20) 0 .currentTime 7 7 0).Reachable c ∧
    c.control = .ended ∧ c.retval = 7 ∧ c.session.packetCount = 1 ∧
    c.session.currentTime = 7 := by
  have start : (fuzzCall (shipped 20) 0 .currentTime 7 7 0).Reachable (FuzzCall.start 7 0) :=
    TransitionSystem.Reachable.start
  have creates := start.next (.move _ _ (.create _ rfl))
  have registers := creates.next (.move _ _ (.register _ rfl))
  have listens := registers.next (.move _ _ (.listen _ rfl))
  obtain ⟨header, headerDecides, delivered⟩ := turn_iff.mp shipped_greets
  have begins := listens.next (.move _ _ (.begin _ rfl headerDecides.ready))
  have decides := begins.next (.move _ _ (.decide _ false _ header rfl headerDecides))
  have checks := decides.next (.move _ _ (.check _ false header rfl))
  have sends := checks.next (.move _ _ (.send _ false header _ _ rfl delivered))
  have settles := sends.next (.move _ _ (.settle _ _ rfl))
  have leaves := settles.next (.move _ _ (.leave _ rfl))
  have cancels := leaves.next (.move _ _ (.cancel _ rfl))
  have stops := cancels.next (.move _ _ (.stop _ rfl))
  have exits := stops.next (.move _ _ (.testCancel _ rfl))
  have reads := exits.next (.move _ _ (.reached _ rfl (le_refl (7 : Int))))
  have joins := reads.next (.move _ _ (.joinListener _ rfl rfl))
  have returns := joins.next (.move _ _ (.joinChannel _ rfl rfl))
  have tests := returns.next (.test _ rfl rfl)
  have again := tests.next (.join _ .listener [.channel 0] rfl)
  have last := again.next (.join _ (.channel 0) [] rfl)
  exact ⟨_, last.next (.finish _ rfl), rfl, rfl, rfl, rfl⟩

/-- No time to use up: the loop ends behind its first turn. -/
theorem campaign_timed_header : ∃ s : Campaign, s.battery.control = .finished ∧
    0 ≤ s.battery.printableCurrval ∧ s.battery.printableCurrval ≤ 3 * 0 := by
  obtain ⟨c, reach, ended, value, counted, clock⟩ := header_call
  have start : ((campaign (shipped 20) 0 7 0).restrict Early).Reachable
      ⟨Battery.start 7 .currentTime, 7⟩ := TransitionSystem.Reachable.start
  have early : c.session.currentTime < 2147483648 := by
    rw [clock]
    decide
  have finishes := start.next ⟨.turn _ 7 c rfl le_rfl reach ended, early⟩
  have finished : (((Battery.start 7 .currentTime).ran ⟨c.retval, c.session.packetCount⟩).turn
      (StratUpdate.currentTime.target 7 0) 0 ⟨c.retval, c.session.packetCount⟩).control =
        .finished := by
    rw [value, counted]
    decide
  obtain ⟨_, _, _, used, _⟩ := campaign_timed (shipped 20) 0 7 0 (by decide) (by decide) _ finishes
  exact ⟨_, finished, used finished⟩

end Amqpgram
