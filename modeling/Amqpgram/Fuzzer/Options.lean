import Amqpgram.Grammar.Generator
import Amqpgram.Fuzzer.Strategy

/-! main.c: the options of the program, taken one by one as `getopt` returns them. -/
namespace Amqpgram

/-- An option with the argument that it requires or allows, or the `?` of `getopt`. -/
inductive Opt where
  | help
  | port (optarg : CString)
  | verbose (optarg : Option CString)
  | packetChaos (optarg : CString)
  | ruleChaos (optarg : CString)
  | seed (optarg : CString)
  | packets (optarg : CString)
  | time (optarg : CString)
  | unknown
  deriving DecidableEq, Repr

/-- The variables of `main`, the two globals and the two debug switches. -/
structure Settings where
  port : Int
  verbosity : Int
  fuzzingDebug : Bool
  grammarDebug : Bool
  packetChaos : Int
  ruleChaos : Int
  seed : Nat
  strat : Option StratUpdate
  stratval : Int
  deriving DecidableEq, Repr

/-- The seed is an `unsigned int` of -1, and no strategy is `'0'`. -/
def Settings.default : Settings := ⟨5672, 0, false, false, 0, 0, 4294967295, none, 0⟩

/-- `chaos` is an `int`. -/
def chaosValue (optarg : CString) : Int := wrapSigned 32 (strtol optarg 10)

/-- The common body of `-n` and `-t`. -/
def Settings.choose (s : Settings) (strat : StratUpdate) (optarg : CString) :
    Except Int Settings :=
  if s.strat ≠ none then .error 1
  else .ok { s with strat := some strat, stratval := strtol optarg 10 }

/-- One turn of the loop; an error is the status that the program ends with. -/
def Settings.option (s : Settings) : Opt → Except Int Settings
  | .help => .error 1
  | .port optarg => .ok { s with port := wrapSigned 32 (strtol optarg 10) }
  | .verbose optarg =>
    if optarg = some (cstr "v") then
      .ok { s with verbosity := 1 + 1, fuzzingDebug := true, grammarDebug := true }
    else .ok { s with verbosity := 1, fuzzingDebug := true }
  | .packetChaos optarg =>
    if chaosValue optarg < 0 ∨ 4 < chaosValue optarg then .error 1
    else .ok { s with packetChaos := chaosValue optarg }
  | .ruleChaos optarg =>
    if chaosValue optarg < 0 ∨ 4 < chaosValue optarg then .error 1
    else .ok { s with ruleChaos := chaosValue optarg }
  | .seed optarg => .ok { s with seed := wrapUnsigned 32 (strtol optarg 10) }
  | .packets optarg => s.choose .packetCount optarg
  | .time optarg => s.choose .currentTime optarg
  | .unknown => .ok s

def parseOptions (options : List Opt) : Except Int Settings :=
  options.foldlM Settings.option .default

/-! ### What the options say -/

def Opt.port? : Opt → Option Int
  | .port optarg => some (wrapSigned 32 (strtol optarg 10))
  | _ => none

def Opt.verbosity? : Opt → Option Int
  | .verbose optarg => some (if optarg = some (cstr "v") then 2 else 1)
  | _ => none

def Opt.packetChaos? : Opt → Option Int
  | .packetChaos optarg => some (chaosValue optarg)
  | _ => none

def Opt.ruleChaos? : Opt → Option Int
  | .ruleChaos optarg => some (chaosValue optarg)
  | _ => none

def Opt.seed? : Opt → Option Nat
  | .seed optarg => some (wrapUnsigned 32 (strtol optarg 10))
  | _ => none

def Opt.strategy? : Opt → Option (StratUpdate × Int)
  | .packets optarg => some (.packetCount, strtol optarg 10)
  | .time optarg => some (.currentTime, strtol optarg 10)
  | _ => none

/-- The values of one kind, in order. -/
def said {A : Type} (value : Opt → Option A) (options : List Opt) : List A :=
  options.filterMap value

/-- The last value of each kind counts. -/
def settingsOf (options : List Opt) : Settings where
  port := (said Opt.port? options).getLast?.getD 5672
  verbosity := (said Opt.verbosity? options).getLast?.getD 0
  fuzzingDebug := said Opt.verbosity? options ≠ []
  grammarDebug := 2 ∈ said Opt.verbosity? options
  packetChaos := (said Opt.packetChaos? options).getLast?.getD 0
  ruleChaos := (said Opt.ruleChaos? options).getLast?.getD 0
  seed := (said Opt.seed? options).getLast?.getD 4294967295
  strat := (said Opt.strategy? options).getLast?.map Prod.fst
  stratval := ((said Opt.strategy? options).getLast?.map Prod.snd).getD 0

structure Admissible (options : List Opt) : Prop where
  helpless : .help ∉ options
  packetChaos : ∀ value ∈ said Opt.packetChaos? options, 0 ≤ value ∧ value ≤ 4
  ruleChaos : ∀ value ∈ said Opt.ruleChaos? options, 0 ≤ value ∧ value ≤ 4
  strategy : (said Opt.strategy? options).length ≤ 1

section
variable {A : Type} {options : List Opt} {o : Opt} {s : Settings}

theorem said_snoc (value : Opt → Option A) :
    said value (options ++ [o]) = said value options ++ (value o).toList := by
  rw [said, said, List.filterMap_append]
  cases found : value o with
  | none => simp [found]
  | some a => simp [found]

theorem Admissible.init (all : Admissible (options ++ [o])) : Admissible options := by
  obtain ⟨helpless, packetChaos, ruleChaos, strategy⟩ := all
  rw [said_snoc] at packetChaos ruleChaos strategy
  rw [List.length_append] at strategy
  exact ⟨fun help => helpless (List.mem_append_left _ help),
    fun value member => packetChaos value (List.mem_append_left _ member),
    fun value member => ruleChaos value (List.mem_append_left _ member), by omega⟩

theorem Admissible.snoc (admissible : Admissible options) : Admissible (options ++ [o]) ↔
    o ≠ .help ∧ (∀ value ∈ o.packetChaos?, 0 ≤ value ∧ value ≤ 4) ∧
      (∀ value ∈ o.ruleChaos?, 0 ≤ value ∧ value ≤ 4) ∧
      (o.strategy? ≠ none → said Opt.strategy? options = []) := by
  constructor
  · intro more
    refine ⟨?_, ?_, ?_, ?_⟩
    · rintro rfl
      exact more.helpless (by simp)
    · intro value member
      exact more.packetChaos value (by
        rw [said_snoc, List.mem_append, Option.mem_toList]
        exact .inr member)
    · intro value member
      exact more.ruleChaos value (by
        rw [said_snoc, List.mem_append, Option.mem_toList]
        exact .inr member)
    · intro chosen
      have one := more.strategy
      obtain ⟨strategy, found⟩ := Option.ne_none_iff_exists'.mp chosen
      rw [said_snoc, found, List.length_append, Option.toList_some, List.length_singleton] at one
      exact List.eq_nil_of_length_eq_zero (by omega)
  · rintro ⟨helpless, packetChaos, ruleChaos, strategy⟩
    refine ⟨?_, ?_, ?_, ?_⟩
    · simp [admissible.helpless, helpless.symm]
    · intro value member
      rw [said_snoc, List.mem_append, Option.mem_toList] at member
      exact member.elim (admissible.packetChaos value) (packetChaos value)
    · intro value member
      rw [said_snoc, List.mem_append, Option.mem_toList] at member
      exact member.elim (admissible.ruleChaos value) (ruleChaos value)
    · rw [said_snoc, List.length_append]
      cases found : o.strategy? with
      | none => exact admissible.strategy
      | some chosen => simp [strategy (by simp [found])]

theorem last_snoc (value : Opt → Option A) (before : A) :
    (said value (options ++ [o])).getLast?.getD before =
      (value o).getD ((said value options).getLast?.getD before) := by
  rw [said_snoc]
  cases value o with
  | none => simp
  | some a => simp

theorem settingsOf_snoc : settingsOf (options ++ [o]) =
    { port := o.port?.getD (settingsOf options).port
      verbosity := o.verbosity?.getD (settingsOf options).verbosity
      fuzzingDebug := (settingsOf options).fuzzingDebug || o.verbosity?.isSome
      grammarDebug := (settingsOf options).grammarDebug || o.verbosity? = some 2
      packetChaos := o.packetChaos?.getD (settingsOf options).packetChaos
      ruleChaos := o.ruleChaos?.getD (settingsOf options).ruleChaos
      seed := o.seed?.getD (settingsOf options).seed
      strat := (o.strategy?.map Prod.fst).or (settingsOf options).strat
      stratval := (o.strategy?.map Prod.snd).getD (settingsOf options).stratval } := by
  have debug : (said Opt.verbosity? (options ++ [o]) ≠ []) =
      (said Opt.verbosity? options ≠ [] ∨ o.verbosity?.isSome) := by
    rw [said_snoc]
    cases o.verbosity? with
    | none => simp
    | some a => simp
  have twice : (2 ∈ said Opt.verbosity? (options ++ [o])) =
      (2 ∈ said Opt.verbosity? options ∨ o.verbosity? = some 2) := by
    rw [said_snoc, List.mem_append, Option.mem_toList]
  have strategy : (said Opt.strategy? (options ++ [o])).getLast? =
      o.strategy?.or (said Opt.strategy? options).getLast? := by
    rw [said_snoc]
    cases o.strategy? with
    | none => simp
    | some a => simp
  unfold settingsOf
  simp only [last_snoc, debug, twice, strategy]
  cases o.strategy? with
  | none => simp
  | some a => simp

theorem unchosen : (settingsOf options).strat = none ↔ said Opt.strategy? options = [] := by
  simp [settingsOf]

theorem ok_iff {x : Settings} : (Except.ok x : Except Int Settings) = .ok s ↔ s = x := by
  rw [Except.ok.injEq, eq_comm]

theorem ranged_iff {x : Settings} {chaos : Int} :
    (if chaos < 0 ∨ 4 < chaos then .error 1 else .ok x : Except Int Settings) = .ok s ↔
      (0 ≤ chaos ∧ chaos ≤ 4) ∧ s = x := by
  split
  · constructor
    · nofun
    · intro both
      omega
  · rw [ok_iff]
    constructor
    · intro same
      exact ⟨by omega, same⟩
    · exact And.right

theorem choose_iff {before : Settings} {strat : StratUpdate} {optarg : CString} :
    before.choose strat optarg = .ok s ↔ before.strat = none ∧
      s = { before with strat := some strat, stratval := strtol optarg 10 } := by
  unfold Settings.choose
  split
  · rename_i chosen
    constructor
    · nofun
    · exact fun both => (chosen both.1).elim
  · rename_i free
    rw [ok_iff]
    exact ⟨fun same => ⟨not_not.mp free, same⟩, And.right⟩

attribute [simp] Opt.port? Opt.verbosity? Opt.packetChaos? Opt.ruleChaos? Opt.seed? Opt.strategy?

theorem option_iff (admissible : Admissible options) : (settingsOf options).option o = .ok s ↔
    Admissible (options ++ [o]) ∧ s = settingsOf (options ++ [o]) := by
  have first := @unchosen options
  rw [admissible.snoc, settingsOf_snoc, ← first]
  generalize settingsOf options = before
  cases o with
  | help => simp [Settings.option]
  | port optarg =>
    rw [Settings.option, ok_iff]
    simp
  | verbose optarg =>
    rw [Settings.option]
    split
    · rename_i twice
      rw [ok_iff]
      simp [twice]
    · rename_i once
      rw [ok_iff]
      simp [once]
  | packetChaos optarg =>
    rw [Settings.option, ranged_iff]
    simp
  | ruleChaos optarg =>
    rw [Settings.option, ranged_iff]
    simp
  | seed optarg =>
    rw [Settings.option, ok_iff]
    simp
  | packets optarg | time optarg =>
    rw [Settings.option, choose_iff]
    simp
  | unknown =>
    rw [Settings.option, ok_iff]
    simp

end

/-- The program goes on to fuzz exactly if there is no help among its options, every level
of chaos is one of 0 to 4 and there is at most one strategy; then the last value of each kind
counts. -/
theorem parseOptions_iff (options : List Opt) (s : Settings) :
    parseOptions options = .ok s ↔ Admissible options ∧ s = settingsOf options := by
  induction options using List.reverseRecOn generalizing s with
  | nil =>
    have empty : Admissible [] := ⟨by simp, by simp [said], by simp [said], by simp [said]⟩
    have same : parseOptions [] = .ok (settingsOf []) := rfl
    rw [same, ok_iff]
    exact ⟨fun settings => ⟨empty, settings⟩, And.right⟩
  | append_singleton options o ih =>
    have snoc : parseOptions (options ++ [o]) =
        parseOptions options >>= fun before => before.option o := by
      simp [parseOptions]
    rw [snoc, bind_eq_ok]
    constructor
    · rintro ⟨before, earlier, now⟩
      obtain ⟨admissible, rfl⟩ := (ih before).mp earlier
      exact (option_iff admissible).mp now
    · rintro ⟨all, rfl⟩
      have admissible := all.init
      exact ⟨_, (ih _).mpr ⟨admissible, rfl⟩, (option_iff admissible).mpr ⟨all, rfl⟩⟩

end Amqpgram
