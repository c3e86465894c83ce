import Amqpgram.Fuzzer.Joining
import Amqpgram.Fuzzer.Levels

/-! The end of a call of `fuzz`. Once the listener has ended, `is_running` is 0 and the thread
of channel 0 is cancelled, and there are only so many steps left to each thread. -/
namespace Amqpgram

/-! ### The steps that are left -/

def MainControl.distance : MainControl → Nat
  | .creating => 6
  | .registering => 5
  | .reading => 4
  | .guarding => 3
  | .testing => 3
  | .joiningListener => 2
  | .joiningChannels => 1
  | .returned => 0

def ChannelControl.distance : ChannelControl → Nat
  | .uncreated => 0
  | .waiting => 6
  | .deciding _ => 5
  | .decided _ _ => 4
  | .sending _ _ _ => 3
  | .settling _ => 2
  | .testing => 1
  | .exited => 0

def FuzzControl.distance : FuzzControl → Nat
  | .checking => 4
  | .closing remaining => remaining.length + 1
  | .ended => 0

def Session.distance (s : Session) : Nat := s.main.distance + s.channel.distance

def FuzzCall.distance (call : FuzzCall) : Nat := call.session.distance + call.control.distance

/-- A decision is due when it is made, and what it leads to is sound. -/
structure Session.Live (f : Fuzzer) (packetChaos : Int) (s : Session) : Prop where
  sound : s.thread.Sound
  ready : ∀ late, s.channel = .deciding late → s.thread.Ready s.slot
  decided : ∀ late decision, (s.channel = .decided late decision ∨
    ∃ running, s.channel = .sending late decision running) →
      ∃ heap, Decides f packetChaos heap s.slot s.thread decision
  settles : ∀ outcome, s.channel = .settling outcome → (s.thread.after outcome).Sound

/-- Only a thread that `create_channel_thread` has counted can have been cancelled. -/
structure Session.Registered (s : Session) : Prop where
  created : s.main ≠ .creating → s.channel ≠ .uncreated
  uncounted : s.main = .creating ∨ s.main = .registering →
    s.maxCreatedThreads = 0 ∧ s.cancelRequested = false

section
variable {f : Fuzzer} {packetChaos : Int} {stratupdate : StratUpdate} {stratval time count : Int}
variable {s s' : Session} {call call' : FuzzCall}

theorem Session.Live.step (live : s.Live f packetChaos)
    (step : Session.Step f packetChaos stratupdate stratval s s') : s'.Live f packetChaos := by
  obtain ⟨sound, ready, decided, settles⟩ := live
  cases step with
  | create creating => exact ⟨sound, by simp, by simp, by simp⟩
  | publish recvline packet polling full broken typed channel unlocked =>
    refine ⟨sound, ?_, ?_, settles⟩
    · intro late deciding
      have deciding : s.channel = .deciding late := deciding
      rw [deciding] at unlocked
      simp at unlocked
    · rintro late decision (done | ⟨running, sending⟩)
      · have done : s.channel = .decided late decision := done
        rw [done] at unlocked
        simp at unlocked
      · have sending : s.channel = .sending late decision running := sending
        rw [sending] at unlocked
        simp at unlocked
  | begin waiting due => exact ⟨sound, fun _ _ => due, by simp, by simp⟩
  | decide late heap decision deciding decides =>
    refine ⟨sound, by simp, ?_, by simp⟩
    rintro _ _ (same | ⟨running, other⟩)
    · cases same
      exact ⟨heap, decides⟩
    · cases other
  | check late decision done =>
    refine ⟨sound, by simp, ?_, by simp⟩
    rintro _ _ (other | ⟨running, same⟩)
    · cases other
    · cases same
      exact decided late decision (.inl done)
  | send late decision c outcome sending delivered =>
    refine ⟨sound, by simp [Session.afterSend], by simp [Session.afterSend], ?_⟩
    rintro _ ⟨⟩
    obtain ⟨heap, decides⟩ := decided late decision (.inr ⟨_, sending⟩)
    have turn : Turn f packetChaos { c with heap := heap } s.slot s.thread outcome :=
      turn_iff.mpr ⟨decision, decides, delivered⟩
    exact sound.after turn
  | settle outcome settling => exact ⟨settles outcome settling, by simp, by simp, by simp⟩
  | testCancel testing =>
    by_cases asked : s.cancelRequested = true
    · rw [if_pos asked]
      exact ⟨sound, by simp, by simp, by simp⟩
    · rw [if_neg asked]
      exact ⟨sound, by simp, by simp, by simp⟩
  | exit waiting done => exact ⟨sound, by simp, by simp, by simp⟩
  | _ => exact ⟨sound, ready, decided, settles⟩

theorem Session.Registered.step (registered : s.Registered)
    (step : Session.Step f packetChaos stratupdate stratval s s') : s'.Registered := by
  obtain ⟨created, uncounted⟩ := registered
  cases step with
  | create creating => exact ⟨fun _ => nofun, fun _ => uncounted (.inl creating)⟩
  | register registering => exact ⟨fun _ => created (by simp [registering]), by simp⟩
  | reached reading value => exact ⟨fun _ => created (by simp [reading]), by simp⟩
  | below reading value => exact ⟨fun _ => created (by simp [reading]), by simp⟩
  | guard guarding =>
    refine ⟨fun _ => created (by simp [guarding]), ?_⟩
    dsimp only
    split <;> simp
  | body testing =>
    refine ⟨fun _ => created (by simp [testing]), ?_⟩
    dsimp only
    split <;> simp
  | joinListener joining exited => exact ⟨fun _ => created (by simp [joining]), by simp⟩
  | joinChannel joining exited => exact ⟨fun _ => created (by simp [joining]), by simp⟩
  | cancel left =>
    refine ⟨created, fun early => ?_⟩
    have none := (uncounted early).1
    exact ⟨none, by simp [none]⟩
  | begin waiting ready => exact ⟨fun _ => nofun, uncounted⟩
  | decide late heap decision deciding decides => exact ⟨fun _ => nofun, uncounted⟩
  | check late decision decided => exact ⟨fun _ => nofun, uncounted⟩
  | send late decision c outcome sending delivered => exact ⟨fun _ => nofun, uncounted⟩
  | settle outcome settling => exact ⟨fun _ => nofun, uncounted⟩
  | testCancel testing =>
    refine ⟨fun _ => ?_, uncounted⟩
    dsimp only
    split <;> exact nofun
  | exit waiting done => exact ⟨fun _ => nofun, uncounted⟩
  | _ => exact ⟨created, uncounted⟩

theorem fuzzCall_live
    (reach : (fuzzCall f packetChaos stratupdate stratval time count).Reachable call) :
    call.session.Live f packetChaos ∧ call.session.Registered := by
  apply reach.invariant (p := fun call => call.session.Live f packetChaos ∧ call.session.Registered)
  · exact ⟨⟨Thread.sound_of_free (.inl rfl), nofun,
      by simp [fuzzCall, FuzzCall.start, Session.start], nofun⟩,
      fun other => (other rfl).elim, fun _ => ⟨rfl, rfl⟩⟩
  · rintro call call' _ ⟨live, registered⟩ step
    cases step with
    | move s step => exact ⟨live.step step, registered.step step⟩
    | _ => exact ⟨live, registered⟩

/-- The steps that a thread in a turn is able to take. -/
structure Session.Able (f : Fuzzer) (packetChaos : Int) (s : Session) : Prop where
  deciding : ∀ late, s.channel = .deciding late →
    ∃ heap decision, Decides f packetChaos heap s.slot s.thread decision
  sending : ∀ late decision running, s.channel = .sending late decision running →
    decision.sentPacket ≠ .unassigned

/-- The thread of channel 0 takes a turn that is due and ends behind it, or ends where it
waits; then `check_strat` goes on. -/
theorem Session.Registered.closer (registered : s.Registered) (ends : s.Ends)
    (exited : s.listener = .exited) (cancelled : s.cancelRequested = true)
    (stays : s.main ≠ .returned) (able : s.Able f packetChaos) :
    ∃ s', Session.Step f packetChaos stratupdate stratval s s' ∧ s'.distance < s.distance ∧
      s'.currentTime = s.currentTime := by
  have stopped := ends.stopped exited
  have counted : ¬ (s.main = .creating ∨ s.main = .registering) := by
    intro early
    rw [(registered.uncounted early).2] at cancelled
    cases cancelled
  cases channel : s.channel with
  | uncreated => exact (registered.created (fun early => counted (.inl early)) channel).elim
  | waiting =>
    by_cases ready : s.thread.Ready s.slot
    · exact ⟨_, .begin s channel ready, by simp [distance, channel, ChannelControl.distance], rfl⟩
    · exact ⟨_, .exit s channel (.inr cancelled),
        by simp [distance, channel, ChannelControl.distance], rfl⟩
  | deciding late =>
    obtain ⟨heap, decision, decides⟩ := able.deciding late channel
    exact ⟨_, .decide s late heap decision channel decides,
      by simp [distance, channel, ChannelControl.distance], rfl⟩
  | decided late decision =>
    exact ⟨_, .check s late decision channel,
      by simp [distance, channel, ChannelControl.distance], rfl⟩
  | sending late decision running =>
    have named := able.sending late decision running channel
    exact ⟨_, .send s late decision ⟨fun _ => none, false, running, true⟩ _ channel
        (deliver_eq_ok.mpr ⟨fun stray => (named stray).elim, rfl⟩),
      by simp [distance, channel, afterSend, ChannelControl.distance], rfl⟩
  | settling outcome =>
    exact ⟨_, .settle s outcome channel, by simp [distance, channel, ChannelControl.distance],
      rfl⟩
  | testing =>
    exact ⟨_, .testCancel s channel,
      by simp [distance, channel, cancelled, ChannelControl.distance], rfl⟩
  | exited =>
    cases main : s.main with
    | creating => exact (counted (.inl main)).elim
    | registering => exact (counted (.inr main)).elim
    | reading =>
      by_cases value : stratval ≤ stratupdate.value s
      · exact ⟨_, .reached s main value, by simp [distance, main, MainControl.distance], rfl⟩
      · exact ⟨_, .below s main (by omega), by simp [distance, main, MainControl.distance], rfl⟩
    | guarding =>
      exact ⟨_, .guard s main, by simp [distance, main, stopped, MainControl.distance], rfl⟩
    | testing =>
      exact ⟨_, .body s main, by simp [distance, main, stopped, MainControl.distance], rfl⟩
    | joiningListener =>
      exact ⟨_, .joinListener s main exited, by simp [distance, main, MainControl.distance], rfl⟩
    | joiningChannels =>
      exact ⟨_, .joinChannel s main channel, by simp [distance, main, MainControl.distance], rfl⟩
    | returned => exact (stays main).elim

theorem FuzzCall.closer (registered : call.session.Registered) (ends : call.session.Ends)
    (exited : call.session.listener = .exited) (cancelled : call.session.cancelRequested = true)
    (going : call.control ≠ .ended) (able : call.session.Able f packetChaos) :
    ∃ call', FuzzCall.Step f packetChaos stratupdate stratval call call' ∧
      call'.distance < call.distance ∧
      call'.session.currentTime = call.session.currentTime := by
  cases control : call.control with
  | checking =>
    by_cases returned : call.session.main = .returned
    · refine ⟨_, .test call control returned, ?_, rfl⟩
      rw [distance, distance, control]
      dsimp only
      split
      · exact Nat.add_lt_add_left (by decide) _
      · exact Nat.add_lt_add_left (by decide) _
    · obtain ⟨s, step, lower, time⟩ := registered.closer ends exited cancelled returned able
      exact ⟨_, .move call s step, Nat.add_lt_add_right lower _, time⟩
  | closing remaining =>
    cases remaining with
    | nil =>
      refine ⟨_, .finish call control, ?_, rfl⟩
      rw [distance, distance, control]
      exact Nat.add_lt_add_left Nat.zero_lt_one _
    | cons target remaining =>
      refine ⟨_, .join call target remaining control, ?_, rfl⟩
      rw [distance, distance, control]
      exact Nat.add_lt_add_left (Nat.lt_succ_self _) _
  | ended => exact (going control).elim

end

/-! ### The end that cannot be missed -/

def FuzzCall.tick (call : FuzzCall) (now : Int) : FuzzCall :=
  { call with session := { call.session with currentTime := now } }

/-- What a thread does next, some time later. -/
def FuzzCall.Moves (f : Fuzzer) (packetChaos : Int) (stratupdate : StratUpdate) (stratval : Int)
    (call call' : FuzzCall) : Prop :=
  ∃ now, call.session.currentTime ≤ now ∧
    FuzzCall.Step f packetChaos stratupdate stratval (call.tick now) call' ∧
    call'.session.currentTime = now ∧ call' ≠ call.tick now

section
variable {f : Fuzzer} {packetChaos : Int} {stratupdate : StratUpdate} {stratval time count : Int}
variable {s s' : Session} {call call' : FuzzCall} {now : Int}

variable (stratupdate call now) in
theorem FuzzCall.moved_tick :
    call.moved stratupdate { call.session with currentTime := now } = call.tick now := by
  have unread : ¬ (call.session.main = .reading ∧ call.session.main ≠ .reading) :=
    fun both => both.2 both.1
  have unjoined : joinedBetween call.session.main call.session.main = [] := by
    cases call.session.main <;> rfl
  rw [moved, tick, if_neg unread, unjoined, List.append_nil]

theorem FuzzCall.tick_reachable (later : call.session.currentTime ≤ now)
    (reach : (fuzzCall f packetChaos stratupdate stratval time count).Reachable call) :
    (fuzzCall f packetChaos stratupdate stratval time count).Reachable (call.tick now) := by
  rw [← moved_tick stratupdate]
  exact reach.next (.move call _ (.tick call.session now later))

/-- The state behind the end of the listener, which has cancelled the thread. -/
structure Session.Cancelled (s : Session) : Prop where
  exited : s.listener = .exited
  stopped : s.isRunning = false
  cancelled : s.cancelRequested = true
  counted : ¬ (s.main = .creating ∨ s.main = .registering)

/-- There each step but that of the clock comes closer. -/
theorem Session.Step.closer (step : Session.Step f packetChaos stratupdate stratval s s')
    (before : s.Cancelled) :
    (∃ now, s' = { s with currentTime := now }) ∨
      s'.distance < s.distance ∧ s'.listener = .exited ∧ s'.cancelRequested = true ∧
        (s'.slot = s.slot ∧ s'.thread = s.thread ∨ s'.slot = none) := by
  obtain ⟨exited, stopped, cancelled, counted⟩ := before
  have kept : s.slot = s.slot ∧ s.thread = s.thread ∨ s.slot = none := .inl ⟨rfl, rfl⟩
  cases step with
  | create creating => exact (counted (.inl creating)).elim
  | register registering => exact (counted (.inr registering)).elim
  | tick now later => exact .inl ⟨now, rfl⟩
  | reached reading value =>
    exact .inr ⟨by simp [Session.distance, reading, MainControl.distance], exited, cancelled, kept⟩
  | below reading value =>
    exact .inr ⟨by simp [Session.distance, reading, MainControl.distance], exited, cancelled, kept⟩
  | guard guarding =>
    exact .inr ⟨by simp [Session.distance, guarding, stopped, MainControl.distance], exited,
      cancelled, kept⟩
  | body testing =>
    exact .inr ⟨by simp [Session.distance, testing, stopped, MainControl.distance], exited,
      cancelled, kept⟩
  | joinListener joining _ =>
    exact .inr ⟨by simp [Session.distance, joining, MainControl.distance], exited, cancelled, kept⟩
  | joinChannel joining _ =>
    exact .inr ⟨by simp [Session.distance, joining, MainControl.distance], exited, cancelled, kept⟩
  | listen created => cases exited.symm.trans created
  | publish recvline packet polling => cases exited.symm.trans polling
  | leave polling => cases exited.symm.trans polling
  | cancel left => cases exited.symm.trans left
  | stop cancelled => cases exited.symm.trans cancelled
  | begin waiting ready =>
    exact .inr ⟨by simp [Session.distance, waiting, ChannelControl.distance], exited, cancelled,
      kept⟩
  | decide late heap decision deciding decides =>
    exact .inr ⟨by simp [Session.distance, deciding, ChannelControl.distance], exited, cancelled,
      kept⟩
  | check late decision decided =>
    exact .inr ⟨by simp [Session.distance, decided, ChannelControl.distance], exited, cancelled,
      kept⟩
  | send late decision c outcome sending delivered =>
    exact .inr ⟨by simp [Session.distance, Session.afterSend, sending, ChannelControl.distance],
      exited, cancelled, kept⟩
  | settle outcome settling =>
    exact .inr ⟨by simp [Session.distance, settling, ChannelControl.distance], exited, cancelled,
      .inr rfl⟩
  | testCancel testing =>
    exact .inr ⟨by simp [Session.distance, testing, cancelled, ChannelControl.distance], exited,
      cancelled, kept⟩
  | exit waiting done =>
    exact .inr ⟨by simp [Session.distance, waiting, ChannelControl.distance], exited, cancelled,
      kept⟩

theorem FuzzCall.Step.closer (step : FuzzCall.Step f packetChaos stratupdate stratval call call')
    (before : call.session.Cancelled) :
    (∃ now, call' = call.tick now) ∨ call'.distance < call.distance ∧
      call'.session.listener = .exited ∧ call'.session.cancelRequested = true ∧
      (call'.session.slot = call.session.slot ∧ call'.session.thread = call.session.thread ∨
        call'.session.slot = none) := by
  have exited := before.exited
  have cancelled := before.cancelled
  cases step with
  | move s step =>
    rcases step.closer before with ⟨now, rfl⟩ | ⟨lower, still⟩
    · exact .inl ⟨now, FuzzCall.moved_tick ..⟩
    · exact .inr ⟨Nat.add_lt_add_right lower _, still⟩
  | test checking returned =>
    refine .inr ⟨?_, exited, cancelled, .inl ⟨rfl, rfl⟩⟩
    rw [FuzzCall.distance, FuzzCall.distance, checking]
    dsimp only
    split
    · exact Nat.add_lt_add_left (by decide) _
    · exact Nat.add_lt_add_left (by decide) _
  | join target remaining closing =>
    refine .inr ⟨?_, exited, cancelled, .inl ⟨rfl, rfl⟩⟩
    rw [FuzzCall.distance, FuzzCall.distance, closing]
    exact Nat.add_lt_add_left (Nat.lt_succ_self _) _
  | finish closing =>
    refine .inr ⟨?_, exited, cancelled, .inl ⟨rfl, rfl⟩⟩
    rw [FuzzCall.distance, FuzzCall.distance, closing]
    exact Nat.add_lt_add_left Nat.zero_lt_one _

end

/-- What can be left in the slot without keeping the thread in its turn: no Tune, and nothing
over which the pointer is left unassigned. -/
structure Session.Clear (s : Session) : Prop where
  untuned : ∀ p ∈ s.slot, ∀ methodData ∈ p.methodPayload,
    ¬ (methodData.classId = classConnection ∧ methodData.methodId = 30)
  assigned : ∀ p ∈ s.slot, AssignedWhen (some p) s.thread.currentState

/-- A state of the call behind the end of the listener. -/
structure FuzzCall.Closing (A : TransitionSystem FuzzCall) (call : FuzzCall) : Prop where
  reach : A.Reachable call
  exited : call.session.listener = .exited
  cancelled : call.session.cancelRequested = true
  clear : call.session.Clear

section
variable {c fuel : Nat} {packetChaos : Int} {stratupdate : StratUpdate}
variable {stratval time count : Int} {call call' : FuzzCall}

theorem FuzzCall.Closing.able (closing : call.Closing
      (fuzzCall (shippedAt fuel c) packetChaos stratupdate stratval time count))
    (level : c ≤ 4) (enough : 510 ≤ fuel) : call.session.Able (shippedAt fuel c) packetChaos := by
  have live := (fuzzCall_live closing.reach).1
  constructor
  · intro late deciding
    have due := live.ready late deciding
    obtain ⟨decision, rest, returned, _⟩ := live.sound.decides due level enough
      closing.clear.untuned packetChaos (fun _ => none) (Stream'.const 0)
    exact ⟨_, decision, due, _, rest, returned⟩
  · intro late decision running sending
    obtain ⟨heap, decides⟩ := live.decided late decision (.inr ⟨running, sending⟩)
    exact live.sound.assigns closing.clear.assigned decides

theorem FuzzCall.Closing.goes (closing : call.Closing
      (fuzzCall (shippedAt fuel c) packetChaos stratupdate stratval time count))
    (level : c ≤ 4) (enough : 510 ≤ fuel) (going : call.control ≠ .ended) :
    ∃ call', FuzzCall.Moves (shippedAt fuel c) packetChaos stratupdate stratval call call' := by
  obtain ⟨call', step, nearer, time⟩ := FuzzCall.closer (fuzzCall_live closing.reach).2
    (fuzzCall_sound closing.reach).ends closing.exited closing.cancelled going
    (closing.able level enough)
  refine ⟨call', call.session.currentTime, le_rfl, step, time, ?_⟩
  rintro rfl
  exact Nat.lt_irrefl _ nearer

theorem FuzzCall.Closing.moved {f : Fuzzer}
    (closing : call.Closing (fuzzCall f packetChaos stratupdate stratval time count))
    (moves : FuzzCall.Moves f packetChaos stratupdate stratval call call') :
    call'.Closing (fuzzCall f packetChaos stratupdate stratval time count) ∧
      call'.distance < call.distance := by
  obtain ⟨reach, exited, cancelled, clear⟩ := closing
  obtain ⟨now, later, step, time, moved⟩ := moves
  have ticked := FuzzCall.tick_reachable later reach
  have counted : ¬ (call.session.main = .creating ∨ call.session.main = .registering) := by
    intro early
    rw [((fuzzCall_live reach).2.uncounted early).2] at cancelled
    cases cancelled
  rcases step.closer ⟨exited, (fuzzCall_sound ticked).ends.stopped exited, cancelled, counted⟩ with
    ⟨again, rfl⟩ | ⟨lower, still, asked, content⟩
  · obtain rfl : again = now := time
    exact (moved rfl).elim
  · refine ⟨⟨ticked.next step, still, asked, ?_⟩, lower⟩
    rcases content with ⟨slot, thread⟩ | empty
    · constructor
      · rw [slot]
        exact clear.untuned
      · rw [slot, thread]
        exact clear.assigned
    · constructor
      · rw [empty]
        exact nofun
      · rw [empty]
        exact nofun

end

/-- Once the listener has ended and has cancelled the thread, with nothing left in the slot that
keeps it, the call comes to its end whatever the order in which the threads go on, and no
pointer is freed that was never assigned. -/
theorem fuzz_must_end (c fuel : Nat) (level : c ≤ 4) (enough : 510 ≤ fuel) (packetChaos : Int)
    (stratupdate : StratUpdate) (stratval time count : Int) (call : FuzzCall)
    (reach : (fuzzCall (shippedAt fuel c) packetChaos stratupdate stratval time count).Reachable
      call)
    (exited : call.session.listener = .exited) (cancelled : call.session.cancelRequested = true)
    (clear : call.session.Clear) :
    Runs.Inevitable (FuzzCall.Moves (shippedAt fuel c) packetChaos stratupdate stratval)
      (fun call => call.control = .ended) call ∧
    ∀ call', Relation.ReflTransGen
        (FuzzCall.Moves (shippedAt fuel c) packetChaos stratupdate stratval) call call' →
      ∀ late decision running, call'.session.channel = .sending late decision running →
        decision.sentPacket ≠ .unassigned := by
  have closing : call.Closing
      (fuzzCall (shippedAt fuel c) packetChaos stratupdate stratval time count) :=
    ⟨reach, exited, cancelled, clear⟩
  constructor
  · apply Runs.inevitable_of_closer
      (FuzzCall.Closing (fuzzCall (shippedAt fuel c) packetChaos stratupdate stratval time count))
      FuzzCall.distance
    · intro call closing going
      exact closing.goes level enough going
    · intro call call' closing _ moves
      exact closing.moved moves
    · exact closing
  · intro call' run
    have still : call'.Closing
        (fuzzCall (shippedAt fuel c) packetChaos stratupdate stratval time count) := by
      induction run with
      | refl => exact closing
      | tail _ moves ih => exact (ih.moved moves).1
    exact (still.able level enough).sending

/-- A Start is left in the slot when the server closes the connection. -/
theorem fuzz_must_end_started : ∃ call : FuzzCall, call.session.listener = .exited ∧
    call.session.channel = .waiting ∧ call.session.slot = some startPacket ∧
    Runs.Inevitable (FuzzCall.Moves (shippedAt 510 2) 3 .packetCount 100)
      (fun call => call.control = .ended) call := by
  have start : (fuzzCall (shippedAt 510 2) 3 .packetCount 100 0 0).Reachable
      (FuzzCall.start 0 0) := TransitionSystem.Reachable.start
  have creates := start.next (.move _ _ (.create _ rfl))
  have registers := creates.next (.move _ _ (.register _ rfl))
  have listens := registers.next (.move _ _ (.listen _ rfl))
  have publishes := listens.next (.move _ _ (.publish _ _ startPacket rfl
    (length_zeroed (by decide)) startBroken (by decide) rfl (.inr (.inl rfl))))
  have leaves := publishes.next (.move _ _ (.leave _ rfl))
  have cancels := leaves.next (.move _ _ (.cancel _ rfl))
  have stops := cancels.next (.move _ _ (.stop _ rfl))
  have clear : Session.Clear { Session.start 0 0 with slot := some startPacket } := by
    constructor
    · intro p member methodData payload
      obtain rfl := Option.some.inj member
      obtain rfl := Option.some.inj payload
      decide
    · intro p _
      exact .inl rfl
  exact ⟨_, rfl, rfl, rfl, (fuzz_must_end 2 510 (by decide) le_rfl 3 .packetCount 100 0 0 _ stops
    rfl rfl ⟨clear.untuned, clear.assigned⟩).1⟩

end Amqpgram
