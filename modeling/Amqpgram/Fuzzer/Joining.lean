import Amqpgram.Fuzzer.Stopping

/-! A call of `fuzz` with the joins it makes. `check_strat` ends in `close_threads`, and
`fuzz` tests its value and `is_running` before it calls `close_threads` again. -/
namespace Amqpgram

inductive JoinTarget where
  | listener
  | channel (id : Nat)
  deriving DecidableEq, Repr

/-- The loop of `close_threads` with the joins that are left and `i`. -/
def joinChannels (maxCreatedThreads : Nat) : Nat → Nat → List JoinTarget
  | 0, _ => []
  | remaining + 1, i =>
    .channel i :: joinChannels maxCreatedThreads remaining ((i + 1) % maxCreatedThreads)

def closeThreads (maxCreatedThreads : Nat) : List JoinTarget :=
  .listener :: joinChannels maxCreatedThreads maxCreatedThreads 0

/-! ### One call of `close_threads` -/

section
variable {created remaining i : Nat}

theorem joinChannels_range (inside : i + remaining ≤ created) :
    joinChannels created remaining i = (List.range' i remaining).map .channel := by
  induction remaining generalizing i with
  | zero => rfl
  | succ remaining ih =>
    rw [joinChannels, List.range'_succ, List.map_cons]
    congr 1
    cases remaining with
    | zero => rfl
    | succ remaining =>
      rw [Nat.mod_eq_of_lt (by omega)]
      exact ih (by omega)

theorem closeThreads_eq (created : Nat) :
    closeThreads created = .listener :: (List.range created).map .channel := by
  rw [closeThreads, joinChannels_range (by omega), List.range_eq_range']

theorem closeThreads_listener (created : Nat) : (closeThreads created).count .listener = 1 := by
  rw [closeThreads_eq, List.count_cons_self]
  have apart : JoinTarget.listener ∉ (List.range created).map JoinTarget.channel := by simp
  rw [List.count_eq_zero_of_not_mem apart]

theorem closeThreads_channel (inside : i < created) :
    (closeThreads created).count (.channel i) = 1 := by
  have injective : Function.Injective JoinTarget.channel := fun _ _ => JoinTarget.channel.inj
  rw [closeThreads_eq, List.count_cons_of_ne (by simp), List.count_map_of_injective _ _ injective]
  exact List.count_eq_one_of_mem List.nodup_range (List.mem_range.mpr inside)

end

/-! ### The call -/

/-- In `check_strat`, at the joins that are left of the second `close_threads`, or done. -/
inductive FuzzControl where
  | checking
  | closing (remaining : List JoinTarget)
  | ended
  deriving DecidableEq, Repr

/-- `currentVal` is `current_val` of `check_strat`. -/
structure FuzzCall where
  session : Session
  control : FuzzControl
  currentVal : Int
  joins : List JoinTarget

/-- `check_strat` returns `current_val` as an `int`. -/
def FuzzCall.retval (c : FuzzCall) : Int := wrapSigned 32 c.currentVal

/-- The thread that the main thread has joined when it moves on. -/
def joinedBetween : MainControl → MainControl → List JoinTarget
  | .joiningListener, .joiningChannels => [.listener]
  | .joiningChannels, .returned => [.channel 0]
  | _, _ => []

/-- A step of the threads, with the value read and the thread joined in it. -/
def FuzzCall.moved (c : FuzzCall) (stratupdate : StratUpdate) (s : Session) : FuzzCall :=
  { c with
    session := s
    currentVal := if c.session.main = .reading ∧ s.main ≠ .reading then
      stratupdate.value c.session else c.currentVal
    joins := c.joins ++ joinedBetween c.session.main s.main }

inductive FuzzCall.Step (f : Fuzzer) (packetChaos : Int) (stratupdate : StratUpdate)
    (stratval : Int) : FuzzCall → FuzzCall → Prop where
  | move (c : FuzzCall) (s : Session)
      (step : Session.Step f packetChaos stratupdate stratval c.session s) :
      FuzzCall.Step f packetChaos stratupdate stratval c (c.moved stratupdate s)
  | test (c : FuzzCall) (checking : c.control = .checking)
      (returned : c.session.main = .returned) :
      FuzzCall.Step f packetChaos stratupdate stratval c
        { c with control := if 0 < c.retval ∨ c.session.isRunning = false then
            .closing (closeThreads createdThreads) else .ended }
  -- the thread has ended, so the call does not wait for it
  | join (c : FuzzCall) (target : JoinTarget) (remaining : List JoinTarget)
      (closing : c.control = .closing (target :: remaining)) :
      FuzzCall.Step f packetChaos stratupdate stratval c
        { c with control := .closing remaining, joins := c.joins ++ [target] }
  | finish (c : FuzzCall) (closing : c.control = .closing []) :
      FuzzCall.Step f packetChaos stratupdate stratval c { c with control := .ended }

def FuzzCall.start (time count : Int) : FuzzCall := ⟨Session.start time count, .checking, 0, []⟩

section
variable (f : Fuzzer) (packetChaos : Int) (stratupdate : StratUpdate) (stratval time count : Int)

def fuzzCall : TransitionSystem FuzzCall :=
  ⟨FuzzCall.start time count, FuzzCall.Step f packetChaos stratupdate stratval⟩

end

/-- Each thread is joined once. -/
structure FuzzCall.JoinsOnce (c : FuzzCall) : Prop where
  listener : c.joins.count .listener = 1
  channels : ∀ i < createdThreads, c.joins.count (.channel i) = 1

section
variable {f : Fuzzer} {packetChaos : Int} {stratupdate : StratUpdate} {stratval time count : Int}
variable {s s' : Session} {c : FuzzCall}

/-! ### The end of the listener -/

/-- The listener clears `is_running` last, and the main thread waits for that. -/
structure Session.Ends (s : Session) : Prop where
  stopped : s.listener = .exited → s.isRunning = false
  waited : s.main = .joiningChannels ∨ s.main = .returned → s.listener = .exited

theorem Session.Ends.step (ends : s.Ends)
    (step : Session.Step f packetChaos stratupdate stratval s s') : s'.Ends := by
  have early : s.listener ≠ .exited → ¬ (s.main = .joiningChannels ∨ s.main = .returned) :=
    fun other joined => other (ends.waited joined)
  cases step with
  | create creating => exact ⟨ends.stopped, by simp⟩
  | register registering => exact ⟨ends.stopped, by simp⟩
  | reached reading value => exact ⟨ends.stopped, by simp⟩
  | below reading value => exact ⟨ends.stopped, by simp⟩
  | guard guarding =>
    refine ⟨ends.stopped, ?_⟩
    dsimp only
    split <;> simp
  | body testing =>
    refine ⟨ends.stopped, ?_⟩
    dsimp only
    split <;> simp
  | joinListener joining exited => exact ⟨ends.stopped, fun _ => exited⟩
  | joinChannel joining exited => exact ⟨ends.stopped, fun _ => ends.waited (.inl joining)⟩
  | listen created =>
    exact ⟨nofun, fun joined => (early (by simp [created]) joined).elim⟩
  | leave polling => exact ⟨nofun, fun joined => (early (by simp [polling]) joined).elim⟩
  | cancel left => exact ⟨nofun, fun joined => (early (by simp [left]) joined).elim⟩
  | stop cancelled => exact ⟨fun _ => rfl, fun _ => rfl⟩
  | _ => exact ⟨ends.stopped, ends.waited⟩

/-- What has been joined where the main thread is. -/
def MainControl.joined : MainControl → List JoinTarget
  | .joiningChannels => [.listener]
  | .returned => closeThreads createdThreads
  | _ => []

theorem MainControl.joined_still (control : MainControl) :
    control.joined = control.joined ++ joinedBetween control control := by
  cases control <;> simp [joinedBetween]

theorem Session.Step.joined (step : Session.Step f packetChaos stratupdate stratval s s') :
    s'.main.joined = s.main.joined ++ joinedBetween s.main s'.main := by
  cases step with
  | create creating => rw [creating]; rfl
  | register registering => rw [registering]; rfl
  | reached reading value => rw [reading]; rfl
  | below reading value => rw [reading]; rfl
  | guard guarding =>
    rw [guarding]
    dsimp only
    split <;> rfl
  | body testing =>
    rw [testing]
    dsimp only
    split <;> rfl
  | joinListener joining exited => rw [joining]; rfl
  | joinChannel joining exited => rw [joining]; rfl
  | _ => exact MainControl.joined_still _

theorem Session.Step.returned (step : Session.Step f packetChaos stratupdate stratval s s')
    (returned : s.main = .returned) : s'.main = .returned := by
  cases step with
  | create creating => cases returned.symm.trans creating
  | register registering => cases returned.symm.trans registering
  | reached reading value => cases returned.symm.trans reading
  | below reading value => cases returned.symm.trans reading
  | guard guarding => cases returned.symm.trans guarding
  | body testing => cases returned.symm.trans testing
  | joinListener joining exited => cases returned.symm.trans joining
  | joinChannel joining exited => rfl
  | _ => exact returned

/-! ### The joins of a call -/

/-- What the call has joined where the main thread is. Behind `check_strat` there are two
runs of `close_threads`. -/
def FuzzCall.Logged (c : FuzzCall) : Prop :=
  match c.control with
  | .checking => c.joins = c.session.main.joined
  | .closing remaining => c.session.main = .returned ∧
      c.joins ++ remaining = closeThreads createdThreads ++ closeThreads createdThreads
  | .ended => c.session.main = .returned ∧
      c.joins = closeThreads createdThreads ++ closeThreads createdThreads

theorem FuzzCall.Logged.moved (logged : c.Logged)
    (step : Session.Step f packetChaos stratupdate stratval c.session s) :
    (c.moved stratupdate s).Logged := by
  have silent : c.session.main = .returned → s.main = .returned ∧
      (c.moved stratupdate s).joins = c.joins := by
    intro returned
    have still := step.returned returned
    refine ⟨still, ?_⟩
    rw [FuzzCall.moved, still, returned]
    exact List.append_nil _
  have kept : (c.moved stratupdate s).control = c.control := rfl
  unfold FuzzCall.Logged at logged ⊢
  rw [kept]
  cases control : c.control with
  | checking =>
    rw [control] at logged
    have joined := step.joined
    rw [← logged] at joined
    exact joined.symm
  | closing remaining =>
    rw [control] at logged
    obtain ⟨still, joins⟩ := silent logged.1
    exact ⟨still, joins ▸ logged.2⟩
  | ended =>
    rw [control] at logged
    obtain ⟨still, joins⟩ := silent logged.1
    exact ⟨still, joins ▸ logged.2⟩

structure FuzzCall.Sound (c : FuzzCall) : Prop where
  ends : c.session.Ends
  logged : c.Logged

theorem fuzzCall_sound
    (reach : (fuzzCall f packetChaos stratupdate stratval time count).Reachable c) : c.Sound := by
  apply reach.invariant
  · exact ⟨⟨nofun, by simp [fuzzCall, FuzzCall.start, Session.start]⟩, rfl⟩
  · intro c c' _ sound step
    cases step with
    | move s step => exact ⟨sound.ends.step step, sound.logged.moved step⟩
    | test checking returned =>
      have exited := sound.ends.waited (.inr returned)
      have logged := sound.logged
      rw [FuzzCall.Logged, checking] at logged
      refine ⟨sound.ends, ?_⟩
      rw [FuzzCall.Logged, if_pos (.inr (sound.ends.stopped exited))]
      refine ⟨returned, ?_⟩
      rw [logged, returned]
      rfl
    | join target remaining closing =>
      have logged := sound.logged
      rw [FuzzCall.Logged, closing] at logged
      refine ⟨sound.ends, logged.1, ?_⟩
      rw [List.append_assoc]
      exact logged.2
    | finish closing =>
      have logged := sound.logged
      rw [FuzzCall.Logged, closing] at logged
      refine ⟨sound.ends, logged.1, ?_⟩
      rw [← logged.2, List.append_nil]

/-- Whatever the strategy, its value and the order of the steps, a call that comes to its
end has joined every thread twice. -/
theorem fuzz_joins_twice (f : Fuzzer) (packetChaos : Int) (stratupdate : StratUpdate)
    (stratval time count : Int) (c : FuzzCall)
    (reach : (fuzzCall f packetChaos stratupdate stratval time count).Reachable c)
    (ended : c.control = .ended) :
    (c.joins.count .listener = 2 ∧ ∀ i < createdThreads, c.joins.count (.channel i) = 2) ∧
      ¬ c.JoinsOnce := by
  have logged := (fuzzCall_sound reach).logged
  rw [FuzzCall.Logged, ended] at logged
  have listener : c.joins.count .listener = 2 := by
    rw [logged.2, List.count_append, closeThreads_listener]
  refine ⟨⟨listener, ?_⟩, ?_⟩
  · intro i inside
    rw [logged.2, List.count_append, closeThreads_channel inside]
  · intro once
    rw [once.listener] at listener
    cases listener

end

/-- The server closes the connection at once. -/
theorem refused_call : ∃ c, (fuzzCall (shipped 20) 0 .packetCount 1 0 0).Reachable c ∧
    c.control = .ended ∧ c.joins = [.listener, .channel 0, .listener, .channel 0] := by
  have start : (fuzzCall (shipped 20) 0 .packetCount 1 0 0).Reachable (FuzzCall.start 0 0) :=
    TransitionSystem.Reachable.start
  have creates := start.next (.move _ _ (.create _ rfl))
  have registers := creates.next (.move _ _ (.register _ rfl))
  have listens := registers.next (.move _ _ (.listen _ rfl))
  have leaves := listens.next (.move _ _ (.leave _ rfl))
  have cancels := leaves.next (.move _ _ (.cancel _ rfl))
  have stops := cancels.next (.move _ _ (.stop _ rfl))
  have exits := stops.next (.move _ _ (.exit _ rfl (.inr rfl)))
  have reads := exits.next (.move _ _ (.below _ rfl (by decide)))
  have guards := reads.next (.move _ _ (.guard _ rfl))
  have joins := guards.next (.move _ _ (.joinListener _ rfl rfl))
  have returns := joins.next (.move _ _ (.joinChannel _ rfl rfl))
  have tests := returns.next (.test _ rfl rfl)
  have again := tests.next (.join _ .listener [.channel 0] rfl)
  have last := again.next (.join _ (.channel 0) [] rfl)
  exact ⟨_, last.next (.finish _ rfl), rfl, rfl⟩

theorem fuzz_joins_twice_refused : ∃ c : FuzzCall,
    (c.joins.count .listener = 2 ∧ ∀ i < createdThreads, c.joins.count (.channel i) = 2) ∧
      ¬ c.JoinsOnce := by
  obtain ⟨c, reach, ended, _⟩ := refused_call
  exact ⟨c, fuzz_joins_twice (shipped 20) 0 .packetCount 1 0 0 c reach ended⟩

theorem refused_call_rejoins : ∃ c,
    (fuzzCall (shipped 20) 0 .packetCount 1 0 0).Reachable c ∧ c.control = .ended ∧
      c.joins = [.listener, .channel 0, .listener, .channel 0] ∧ ¬ c.JoinsOnce := by
  obtain ⟨c, reach, ended, joins⟩ := refused_call
  refine ⟨c, reach, ended, joins, ?_⟩
  intro once
  have listener := once.listener
  rw [joins] at listener
  cases listener

end Amqpgram
