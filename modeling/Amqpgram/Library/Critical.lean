import Mathlib.Logic.Function.Basic
import Amqpgram.Library.Transitions

/-! Critical sections of any number of threads on one variable under one lock. A section
is a list of small steps on the variable and a register of the thread, and the threads
take their steps in any order. What the locked runs do is what the sections do one behind
the other, in the order of their unlocks. -/

/-- The steps between lock and unlock, on the variable and the register. -/
structure Critical (V L : Type) where
  start : L
  body : List (V × L → V × L)

namespace Critical
variable {T V L O : Type}

/-- The section in one step, from a value of the variable. -/
def run (c : Critical V L) (v : V) : V × L := c.body.foldl (fun s f => f s) (v, c.start)

inductive Phase (V L O : Type) where
  | outside
  | waiting (o : O)
  | inside (o : O) (left : List (V × L → V × L)) (register : L)

/-- A section that a thread has left, with its register. -/
structure Done (T L O : Type) where
  thread : T
  operation : O
  register : L

structure State (T V L O : Type) where
  shared : V
  holder : Option T
  phase : T → Phase V L O
  history : List (Done T L O)

/-- The sections of a history, each in one step, take the variable to a value. -/
inductive Sequential (sections : O → Critical V L) (initial : V) :
    List (Done T L O) → V → Prop where
  | nil : Sequential sections initial [] initial
  | snoc {history : List (Done T L O)} {v v' : V} {t : T} {o : O} {register : L}
      (before : Sequential sections initial history v) (ran : (sections o).run v = (v', register)) :
      Sequential sections initial (history ++ [⟨t, o, register⟩]) v'

/-- The lock is free and the variable has the value `v`, or its holder is on the way from `v`. -/
inductive Between (sections : O → Critical V L) (s : State T V L O) (v : V) : Prop where
  | released (holder : s.holder = none) (value : s.shared = v)
      (none_inside : ∀ t o left register, s.phase t ≠ .inside o left register)
  | held (t : T) (o : O) (done left : List (V × L → V × L)) (register : L)
      (holder : s.holder = some t) (inside : s.phase t = .inside o left register)
      (body : (sections o).body = done ++ left)
      (half : done.foldl (fun s f => f s) (v, (sections o).start) = (s.shared, register))
      (alone : ∀ u o left register, s.phase u = .inside o left register → u = t)

def Sound (sections : O → Critical V L) (initial : V) (s : State T V L O) : Prop :=
  ∃ v, Sequential sections initial s.history v ∧ Between sections s v

section
variable {sections : O → Critical V L} {initial v : V} {s : State T V L O} {t : T} {o : O}
variable {left : List (V × L → V × L)} {register : L}

theorem Between.of_inside (between : Between sections s v)
    (inside : s.phase t = .inside o left register) : ∃ done, s.holder = some t ∧
      (sections o).body = done ++ left ∧
      done.foldl (fun s f => f s) (v, (sections o).start) = (s.shared, register) ∧
      ∀ u o left register, s.phase u = .inside o left register → u = t := by
  cases between with
  | released holder value none_inside => exact (none_inside t o left register inside).elim
  | held t' o' done left' register' holder inside' body half alone =>
    obtain rfl := alone t o left register inside
    obtain ⟨rfl, rfl, rfl⟩ : o = o' ∧ left = left' ∧ register = register' := by
      simpa using inside.symm.trans inside'
    exact ⟨done, holder, body, half, alone⟩

/-- With the lock free the variable is what the history makes of it. -/
theorem Sound.value (sound : Sound sections initial s) (unlocked : s.holder = none) :
    Sequential sections initial s.history s.shared := by
  obtain ⟨v, sequential, between⟩ := sound
  cases between with
  | released _ value _ => rwa [value]
  | held t _ _ _ _ holder =>
    rw [unlocked] at holder
    cases holder

end

variable [DecidableEq T]

def State.move (s : State T V L O) (t : T) (p : Phase V L O) : T → Phase V L O :=
  Function.update s.phase t p

inductive Step (sections : O → Critical V L) : State T V L O → State T V L O → Prop where
  | call (s : State T V L O) (t : T) (o : O) (outside : s.phase t = .outside) :
      Step sections s { s with phase := s.move t (.waiting o) }
  | lock (s : State T V L O) (t : T) (o : O) (unlocked : s.holder = none)
      (waiting : s.phase t = .waiting o) :
      Step sections s { s with
        holder := some t
        phase := s.move t (.inside o (sections o).body (sections o).start) }
  | act (s : State T V L O) (t : T) (o : O) (f : V × L → V × L) (left : List (V × L → V × L))
      (register : L) (inside : s.phase t = .inside o (f :: left) register) :
      Step sections s { s with
        shared := (f (s.shared, register)).1
        phase := s.move t (.inside o left (f (s.shared, register)).2) }
  | unlock (s : State T V L O) (t : T) (o : O) (register : L)
      (inside : s.phase t = .inside o [] register) :
      Step sections s { s with
        holder := none
        phase := s.move t .outside
        history := s.history ++ [⟨t, o, register⟩] }

def system (sections : O → Critical V L) (initial : V) : TransitionSystem (State T V L O) :=
  ⟨⟨initial, none, fun _ => .outside, []⟩, Step sections⟩

section
variable {sections : O → Critical V L} {initial v : V} {s s' : State T V L O} {t : T} {o : O}
variable {left : List (V × L → V × L)} {register : L}

theorem move_inside {p : Phase V L O} {u : T} {o' : O} {left' : List (V × L → V × L)}
    {register' : L} (inside : s.move t p u = .inside o' left' register') :
    u = t ∨ s.phase u = .inside o' left' register' := by
  by_cases same : u = t
  · exact .inl same
  · rw [State.move, Function.update_of_ne same] at inside
    exact .inr inside

theorem Between.call (between : Between sections s v) (outside : s.phase t = .outside) :
    Between sections { s with phase := s.move t (.waiting o) } v := by
  have still : ∀ u o' left register, s.move t (.waiting o) u = .inside o' left register →
      s.phase u = .inside o' left register := by
    intro u o' left register inside
    rcases move_inside inside with rfl | inside
    · simp [State.move] at inside
    · exact inside
  cases between with
  | released holder value none_inside =>
    exact .released holder value fun u o left register inside =>
      none_inside u o left register (still u o left register inside)
  | held t' o' done left register holder inside body half alone =>
    have other : t' ≠ t := by
      rintro rfl
      rw [inside] at outside
      cases outside
    refine .held t' o' done left register holder ?_ body half ?_
    · simpa [State.move, Function.update_of_ne other] using inside
    · exact fun u o left register inside => alone u o left register (still u o left register inside)

theorem Between.lock (between : Between sections s v) (unlocked : s.holder = none) :
    Between sections { s with
      holder := some t
      phase := s.move t (.inside o (sections o).body (sections o).start) } v := by
  cases between with
  | released _ value none_inside =>
    refine .held t o [] (sections o).body (sections o).start rfl (by simp [State.move]) rfl ?_ ?_
    · simp [value]
    · intro u o' left register inside
      exact (move_inside inside).resolve_right (none_inside u o' left register)
  | held t' _ _ _ _ holder =>
    rw [unlocked] at holder
    cases holder

theorem Between.act {f : V × L → V × L} (between : Between sections s v)
    (inside : s.phase t = .inside o (f :: left) register) :
    Between sections { s with
      shared := (f (s.shared, register)).1
      phase := s.move t (.inside o left (f (s.shared, register)).2) } v := by
  obtain ⟨done, holder, body, half, alone⟩ := between.of_inside inside
  refine .held t o (done ++ [f]) left (f (s.shared, register)).2 holder (by simp [State.move])
    (by simp [body]) ?_ ?_
  · rw [List.foldl_append, half]
    rfl
  · intro u o' left' register' inside'
    exact (move_inside inside').elim id (alone u o' left' register')

theorem Between.unlock (between : Between sections s v)
    (inside : s.phase t = .inside o [] register) :
    (sections o).run v = (s.shared, register) ∧
      Between sections { s with
        holder := none
        phase := s.move t .outside
        history := s.history ++ [⟨t, o, register⟩] } s.shared := by
  obtain ⟨done, holder, body, half, alone⟩ := between.of_inside inside
  constructor
  · rw [run, body, List.append_nil, half]
  · refine .released rfl rfl ?_
    intro u o' left' register' inside'
    rcases move_inside inside' with rfl | before
    · simp [State.move] at inside'
    · obtain rfl := alone u o' left' register' before
      simp [State.move] at inside'

theorem Sound.step (sound : Sound sections initial s) (step : Step sections s s') :
    Sound sections initial s' := by
  obtain ⟨v, sequential, between⟩ := sound
  cases step with
  | call t o outside => exact ⟨v, sequential, between.call outside⟩
  | lock t o unlocked waiting => exact ⟨v, sequential, between.lock unlocked⟩
  | act t o f left register inside => exact ⟨v, sequential, between.act inside⟩
  | unlock t o register inside =>
    obtain ⟨ran, released⟩ := between.unlock inside
    exact ⟨s.shared, sequential.snoc ran, released⟩

/-- In every interleaving the history is one of sections that each ran in one step. -/
theorem sound (reach : (system sections initial).Reachable s) : Sound sections initial s := by
  apply reach.invariant
  · exact ⟨initial, .nil, .released rfl rfl fun _ _ _ _ => by simp [system]⟩
  · intro s s' _ sound step
    exact sound.step step

variable (sections) in
/-- Whoever is inside can leave by steps of its own. -/
theorem leave (inside : s.phase t = .inside o left register) :
    ∃ s', Relation.ReflTransGen (Step sections) s s' ∧ s'.holder = none ∧
      s'.phase = s.move t .outside ∧ ∃ r, s'.history = s.history ++ [⟨t, o, r⟩] := by
  induction left generalizing s register with
  | nil => exact ⟨_, .single (.unlock s t o register inside), rfl, rfl, register, rfl⟩
  | cons f left ih =>
    have acted : Step sections s _ := .act s t o f left register inside
    have further : ({ s with
        shared := (f (s.shared, register)).1
        phase := s.move t (.inside o left (f (s.shared, register)).2) } : State T V L O).phase t =
        .inside o left (f (s.shared, register)).2 := by
      simp [State.move]
    obtain ⟨s', path, unlocked, phase, r, history⟩ := ih further
    refine ⟨s', .head acted path, unlocked, ?_, r, history⟩
    rw [phase]
    simp [State.move]

/-- A thread that waits can be let in and out, whoever holds the lock: there is no deadlock. -/
theorem Sound.complete (sound : Sound sections initial s) (waiting : s.phase t = .waiting o) :
    ∃ s', Relation.ReflTransGen (Step sections) s s' ∧ s'.holder = none ∧
      ∃ front r, s'.history = s.history ++ front ++ [⟨t, o, r⟩] := by
  have enter : ∀ s : State T V L O, s.holder = none → s.phase t = .waiting o →
      ∃ s', Relation.ReflTransGen (Step sections) s s' ∧ s'.holder = none ∧
        ∃ r, s'.history = s.history ++ [⟨t, o, r⟩] := by
    intro s unlocked waiting
    have locked : Step sections s _ := .lock s t o unlocked waiting
    have entered : ({ s with
        holder := some t
        phase := s.move t (.inside o (sections o).body (sections o).start) } :
          State T V L O).phase t =
        .inside o (sections o).body (sections o).start := by
      simp [State.move]
    obtain ⟨s', path, released, _, r, history⟩ := leave sections entered
    exact ⟨s', .head locked path, released, r, history⟩
  obtain ⟨v, _, between⟩ := sound
  cases between with
  | released holder _ _ =>
    obtain ⟨s', path, released, r, history⟩ := enter s holder waiting
    exact ⟨s', path, released, [], r, by simpa using history⟩
  | held u o' done left register holder inside =>
    obtain ⟨s', path, released, phase, r, history⟩ := leave sections inside
    have other : t ≠ u := by
      rintro rfl
      rw [inside] at waiting
      cases waiting
    have still : s'.phase t = .waiting o := by
      rw [phase, State.move, Function.update_of_ne other, waiting]
    obtain ⟨s'', path', released', r', history'⟩ := enter s' released still
    exact ⟨s'', path.trans path', released', [⟨u, o', r⟩], r', by rw [history', history]⟩

end
end Critical
