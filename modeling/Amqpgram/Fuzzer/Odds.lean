import Mathlib.Tactic.Ring
import Amqpgram.Library.Odds
import Amqpgram.Fuzzer.Overwrites
import Amqpgram.Fuzzer.Waiting

/-! The two chaos levels side by side. A rule rolls over an array of references and a
turn over a threshold; both are choices of one residue modulo 4. -/
namespace Amqpgram

/-- The residues at which `packet_decider` turns to the chaotic decider. -/
def rollsChaotic (packetChaos : Nat) (k : Fin 4) : Bool := k.val + 1 < packetChaos

theorem card_rollsChaotic {c : Nat} (level : c ≤ 4) :
    (Finset.univ.filter fun k => rollsChaotic c k = true).card = c - 1 := by
  have each : ∀ c : Fin 5,
      (Finset.univ.filter fun k => rollsChaotic c k = true).card = c.val - 1 := by decide
  exact each ⟨c, by omega⟩

theorem rollsOrdered_iff (packetChaos : Nat) (draws : RandStream) :
    RollsOrdered packetChaos draws ↔ rollsChaotic packetChaos (residue draws) = false := by
  have remainder : Int.tmod (draws.head.val : Int) 4 = ((draws.head.val % 4 : Nat) : Int) :=
    (Int.ofNat_tmod ..).symm
  rw [RollsOrdered, rollsChaotic, remainder, decide_eq_false_iff_not]
  change _ ↔ ¬ draws.head.val % 4 + 1 < packetChaos
  omega

theorem packetDecider_rolls (f : Fuzzer) (packetChaos : Nat) (c : Circumstances)
    (packet : Option PacketStruct) (state : State) (flag : Bool) (draws : RandStream) :
    (packetDecider f packetChaos c packet state flag).run draws =
      ((if rollsChaotic packetChaos (residue draws) then
          (chaoticPacketDecider f c.heap).mapError .fault
        else orderedPacketDecider f c.heap packet state flag) >>= fun decision =>
          .ofExcept (deliver c decision)).run draws.tail := by
  have rolled : (packetDecider f packetChaos c packet state flag).run draws =
      (rolledDecider f packetChaos c.heap packet state flag (Int.tmod draws.head.val 4 + 1) >>=
        fun decision => .ofExcept (deliver c decision)).run draws.tail := rfl
  rw [rolled]
  by_cases ordered : RollsOrdered packetChaos draws
  · rw [(rollsOrdered_iff packetChaos draws).mp ordered, rolledDecider,
      if_pos (ge_iff_le.mpr ordered)]
    rfl
  · have chaotic := Bool.of_not_eq_false fun same =>
      ordered ((rollsOrdered_iff packetChaos draws).mpr same)
    rw [chaotic, rolledDecider, if_neg (mt ge_iff_le.mp ordered)]
    rfl

/-- Over `n` choices at this level the chaotic decider is rolled as often as the former
definition of a rule is picked, at level 4 always and at level 0 never. -/
structure SameOdds (c n : Nat) : Prop where
  equal : Odds.total (rollsChaotic c) n = Odds.total (picksFormer c) n
  rule : Odds.total (picksFormer c) n = c * n * 4 ^ (n - 1)
  full : c = 4 → ∀ (w : Fin n → Fin 4) (i : Fin n), rollsChaotic c (w i) = true
  none : c = 0 → ∀ (w : Fin n → Fin 4) (i : Fin n), rollsChaotic c (w i) = false

theorem total_picksFormer {c : Nat} (level : c ≤ 4) (n : Nat) :
    Odds.total (picksFormer c) n = c * n * 4 ^ (n - 1) := by
  rw [Odds.total_eq, card_picksFormer level, Fintype.card_fin]
  ring

theorem total_rollsChaotic {c : Nat} (level : c ≤ 4) (n : Nat) :
    Odds.total (rollsChaotic c) n = (c - 1) * n * 4 ^ (n - 1) := by
  rw [Odds.total_eq, card_rollsChaotic level, Fintype.card_fin]
  ring

/-- The chaotic decider is one residue behind the raw definition at every level above 0,
so the levels agree only where nothing chaotic is chosen or nothing is chosen at all. -/
theorem sameOdds_iff (c n : Nat) (level : c ≤ 4) :
    (SameOdds c n ↔ c = 0 ∨ n = 0) ∧
    (∀ f circumstances packet state flag draws,
      (packetDecider f c circumstances packet state flag).run draws =
        ((if rollsChaotic c (residue draws) then
            (chaoticPacketDecider f circumstances.heap).mapError .fault
          else orderedPacketDecider f circumstances.heap packet state flag) >>= fun decision =>
            .ofExcept (deliver circumstances decision)).run draws.tail) ∧
    ∀ target next rule e, (¬ Choosing c ∨ ' ' ∉ rule) →
      environmentLookup next (chaosRule rule) = .none → Overwrites c target next rule e := by
  refine ⟨?_, fun f => packetDecider_rolls f c, ?_⟩
  · constructor
    · intro same
      have counts := (Odds.total_eq_iff (rollsChaotic c) (picksFormer c) n).mp same.equal
      rw [card_rollsChaotic level, card_picksFormer level] at counts
      omega
    · intro nothing
      refine ⟨?_, total_picksFormer level n, ?_, ?_⟩
      · rw [total_rollsChaotic level, total_picksFormer level]
        rcases nothing with rfl | rfl
        · rfl
        · simp
      · rintro rfl w i
        obtain rfl : n = 0 := by omega
        exact i.elim0
      · rintro rfl w i
        rfl
  · intro target next rule e space fresh
    exact (overwrite_expands c level target next rule e space fresh).2

theorem sameOdds_iff_silent : SameOdds 0 3 :=
  (sameOdds_iff 0 3 (by decide)).1.mpr (.inl rfl)

/-- At the highest level one residue in four still leaves the turn to the ordered decider. -/
theorem full_chaos_ordered : rollsChaotic 4 3 = false ∧ picksFormer 4 3 = true ∧
    Odds.total (rollsChaotic 4) 1 = 3 ∧ Odds.total (picksFormer 4) 1 = 4 ∧ ¬ SameOdds 4 1 := by
  refine ⟨rfl, rfl, total_rollsChaotic (by decide) 1, total_picksFormer (by decide) 1, ?_⟩
  intro same
  exact absurd same.equal (by
    rw [total_rollsChaotic (by decide), total_picksFormer (by decide)]
    decide)

end Amqpgram
