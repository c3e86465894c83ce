import Amqpgram.Grammar.Sizes
import Amqpgram.Grammar.Soundness

/-! What generation misses: the strings of a rule's ABNF language that no stream
of draws reaches. -/
namespace Amqpgram
open Abnf (Element Body Derives Reaches)

/-- The strings with a derivation of sampled choices only: every range value is
below its upper end. -/
def sampledLanguage (env : Environment) (r : CString) : Language UInt8 :=
  Abnf.language sampled (expansions env) (.rule r)

theorem mem_sampled_range {lo hi w : List UInt8} (plain : Plain (.range lo hi)) :
    w ∈ sampled.range lo hi ↔ w ∈ Abnf.full.range lo hi ∧ w ≠ hi := by
  obtain ⟨same, short, order, big⟩ := plain
  have fits := Words.value_lt hi
  constructor
  · rintro ⟨_, v, lower, upper, rfl⟩
    have value : Words.value (Words.bytes (keptWidth hi) v) = v := by
      rw [keptWidth_of_head big]
      exact Words.value_bytes_of_lt (upper.trans fits)
    refine ⟨sampled_le_full.range ⟨same, short, order, big⟩ ⟨short, v, lower, upper, rfl⟩, ?_⟩
    intro equal
    rw [equal] at value
    omega
  · rintro ⟨⟨width, lower, upper⟩, other⟩
    have below : Words.value w < Words.value hi := by
      refine lt_of_le_of_ne upper ?_
      intro equal
      exact other (Words.value_inj (width.trans same) equal)
    refine ⟨short, Words.value w, lower, below, ?_⟩
    rw [keptWidth_of_head big, ← same, ← width, Words.bytes_value]

section Octet

end Octet

/-- Some stream makes `decode_rule` return these bytes and their number. -/
def Returned (env : Environment) (r : CString) (w : List UInt8) : Prop :=
  ∃ fuel draws rest d, (Sized.decodeRule fuel r env).run draws = .ok (d, rest) ∧
    d.bytes = w ∧ d.length = w.length

section
variable {env : Environment} {r : CString} {w : List UInt8}

theorem Returned.sampled (spelled : Spelled env r) (returned : Returned env r w) :
    w ∈ sampledLanguage env r := by
  obtain ⟨fuel, draws, rest, d, run, rfl, _⟩ := returned
  have unsized := (decodeRule_overflows fuel r env).yields (Sampler.yields_of_run run)
  obtain ⟨w, derived, rfl⟩ := (decodeRule_language spelled).mp ⟨fuel, unsized⟩
  exact derived

end

end Amqpgram
