import Amqpgram.Fuzzer.Levels

/-! RULE_CHAOS of 1, 2 and 3. A rule that was put over then refers to what it was before and
to what was put over it, so whatever can be sent at some level can be sent at these. -/
namespace Amqpgram
open Abnf (Element Body Derives Within)

/-- The alternatives of a name are those it has in the second environment, or those of one
of its versions there. -/
def Follows (env env' : Environment) (n : CString) : Prop :=
  ∃ body ∈ expansionOf env n, ∃ body' ∈ expansionOf env' n, ∀ alt ∈ body, alt ∈ body' ∨
    ∃ version, (version = chaosRule n ∨ version = orderRule n) ∧ [.rule version] ∈ body' ∧
      ∃ former ∈ expansionOf env' version, alt ∈ former

/-- Two tidy environments of one set of rules, the second behind the first. -/
structure Mixed (rules : List CString) (S : CString → Language UInt8) (made made' : List CString)
    (env env' : Environment) : Prop where
  tidy : Tidy rules S made env
  tidy' : Tidy rules S made' env'
  follows : ∀ n, Versioned rules made n → Follows env env' n

section
variable {rules made made' : List CString} {S : CString → Language UInt8} {r n : CString}
variable {env env' next next' : Environment} {g g' : Grammar} {e : GrammarEntry}
variable {body : Body CString} {c c' : Nat}

theorem versions_mem (choosing : Choosing c) (r : CString) :
    chaosRule r ∈ levelVersions c r ∧ orderRule r ∈ levelVersions c r := by
  obtain rfl | rfl | rfl : c = 1 ∨ c = 2 ∨ c = 3 := by omega
  all_goals simp [levelVersions]

theorem Mixed.within (mixed : Mixed rules S made made' env env') :
    Within sampled (Versioned rules made) (expansions env) (expansions env') := by
  refine ⟨mixed.tidy.ranked.keepsTo.names, ?_⟩
  intro n alts known rule alt ha w d
  obtain ⟨body, expansion, body', expansion', follow⟩ := mixed.follows n known
  obtain rfl := expansions_unique rule (expansionOf_expansions expansion)
  rw [Abnf.language_rule]
  rcases follow alt ha with same | ⟨version, _, refers, former, stored, member⟩
  · exact ⟨body', expansionOf_expansions expansion', alt, same, d⟩
  · refine ⟨body', expansionOf_expansions expansion', _, refers, ?_⟩
    exact Abnf.language_rule.mpr ⟨former, expansionOf_expansions stored, alt, member, d⟩

theorem Mixed.direct (mixed : Mixed rules S made made' env env')
    (plain : ∀ r ∈ rules, base r = r) (known : r ∈ rules) (fresh : r ∉ made') :
    ∃ body ∈ expansionOf env r, ∃ body' ∈ expansionOf env' r, ∀ alt ∈ body, alt ∈ body' := by
  obtain ⟨body, expansion, body', expansion', follow⟩ := mixed.follows r (.inl known)
  refine ⟨body, expansion, body', expansion', ?_⟩
  intro alt ha
  rcases follow alt ha with same | ⟨version, named, refers, _⟩
  · exact same
  · obtain ⟨ranked, expanded, fits⟩ := mixed.tidy'.ranked r (.inl known)
    obtain rfl : body' = ranked := Option.mem_unique expansion' expanded
    have inside := (fits.elements _ refers _ (List.mem_cons_self ..)).2.2 version
      (List.mem_singleton_self _)
    rcases inside with rule | ⟨m, member, version'⟩
    · have apart := plain_ne (plain version rule) r
      exact (named.elim apart.1 apart.2).elim
    · have same : m = r := by
        rcases named with rfl | rfl <;> rcases version' with same | same
        · exact (chaosRule_inj.mp same).symm
        · exact (chaosRule_ne_orderRule _ _ same).elim
        · exact (chaosRule_ne_orderRule _ _ same.symm).elim
        · exact (orderRule_inj.mp same).symm
      exact (fresh (same ▸ member)).elim

theorem Follows.kept (follows : Follows env (g' :: next') n) (plain : base r = r)
    (same : expansionOf env n = expansionOf (g :: next) n)
    (own : n ≠ r) (chaos : n ≠ chaosRule r) (order : n ≠ orderRule r) :
    Follows (g :: next) (putOver c' g' next' r e) n := by
  obtain ⟨body, expansion, body', expansion', follow⟩ := follows
  refine ⟨body, same ▸ expansion, body', ?_, ?_⟩
  · rw [expansionOf_congr (putOver_other own chaos order)]
    exact expansion'
  · intro alt ha
    rcases follow alt ha with direct | ⟨version, named, refers, former, stored, member⟩
    · exact .inl direct
    · refine .inr ⟨version, named, refers, former, ?_, member⟩
      have apart := plain_ne plain n
      rw [expansionOf_congr (putOver_other ?_ ?_ ?_)]
      · exact stored
      · rintro rfl
        exact named.elim apart.1 apart.2
      · rintro rfl
        rcases named with same | same
        · exact own (chaosRule_inj.mp same).symm
        · exact chaosRule_ne_orderRule _ _ same
      · rintro rfl
        rcases named with same | same
        · exact chaosRule_ne_orderRule _ _ same.symm
        · exact own (orderRule_inj.mp same).symm

theorem Versioned.apart (inside : Versioned rules made n) (plain : ∀ r ∈ rules, base r = r)
    (fresh : r ∉ made) : n ≠ chaosRule r ∧ n ≠ orderRule r := by
  rcases inside with rule | ⟨m, member, rfl | rfl⟩
  · exact plain_ne (plain n rule) r
  · refine ⟨?_, chaosRule_ne_orderRule m r⟩
    intro same
    exact fresh (chaosRule_inj.mp same ▸ member)
  · refine ⟨(chaosRule_ne_orderRule r m).symm, ?_⟩
    intro same
    exact fresh (orderRule_inj.mp same ▸ member)

theorem Mixed.choosing (mixed : Mixed rules S made made' (g :: next) (g' :: next'))
    (plain : ∀ r ∈ rules, base r = r) (choosing : Choosing c) (choosing' : Choosing c')
    (known : r ∈ rules) (fresh : r ∉ made) (fresh' : r ∉ made') (space : ' ' ∉ r)
    (read : readEntry e = some body) (fits : ∀ made, Fits (Versioned rules made)
      (versionRank rules) (versionWords S) (2 * rules.idxOf r) (S r) body) :
    Mixed rules S (r :: made) (r :: made') (putOver c g next r e) (putOver c' g' next' r e) := by
  refine ⟨mixed.tidy.choosing plain choosing known fresh space read (fits made),
    mixed.tidy'.choosing plain choosing' known fresh' space read (fits made'), ?_⟩
  intro n inside
  by_cases own : n = r
  · subst own
    refine ⟨_, putOver_rule choosing space, _, putOver_rule choosing' space, ?_⟩
    intro alt ha
    obtain ⟨version, member, rfl⟩ := List.mem_map.mp ha
    obtain ⟨chaos, order⟩ := versions_mem choosing' n
    left
    rcases mem_levelVersions member with rfl | rfl
    · exact List.mem_map_of_mem chaos
    · exact List.mem_map_of_mem order
  by_cases chaos : n = chaosRule r
  · subst chaos
    obtain ⟨body, expansion, body', expansion', sub⟩ := mixed.direct plain known fresh'
    refine ⟨body, ?_, body', ?_, fun alt ha => .inl (sub alt ha)⟩
    · rw [putOver_chaos choosing (mixed.tidy.unmade r known fresh)]
      exact expansion
    · rw [putOver_chaos choosing' (mixed.tidy'.unmade r known fresh')]
      exact expansion'
  by_cases order : n = orderRule r
  · subst order
    exact ⟨body, putOver_order choosing read, body, putOver_order choosing' read,
      fun alt => .inl⟩
  · exact (mixed.follows n (inside.before chaos order)).kept (plain r known)
      (expansionOf_congr (putOver_other own chaos order)).symm own chaos order

theorem Mixed.replaced (mixed : Mixed rules S made made' (g :: next) (g' :: next'))
    (plain : ∀ r ∈ rules, base r = r) (choosing' : Choosing c')
    (known : r ∈ rules) (fresh : r ∉ made) (fresh' : r ∉ made') (space : ' ' ∉ r)
    (read : readEntry e = some body) (fits : ∀ made, Fits (Versioned rules made)
      (versionRank rules) (versionWords S) (2 * rules.idxOf r) (S r) body) :
    Mixed rules S made (r :: made') (putOver 0 g next r e) (putOver c' g' next' r e) := by
  refine ⟨mixed.tidy.replaced plain known fresh read (fits made),
    mixed.tidy'.choosing plain choosing' known fresh' space read (fits made'), ?_⟩
  intro n inside
  obtain ⟨chaos, order⟩ := inside.apart plain fresh
  by_cases own : n = r
  · subst own
    refine ⟨body, putOver_replaced read, _, putOver_rule choosing' space, ?_⟩
    intro alt ha
    exact .inr ⟨orderRule n, .inr rfl, List.mem_map_of_mem (versions_mem choosing' n).2, body,
      putOver_order choosing' read, ha⟩
  · exact (mixed.follows n inside).kept (plain r known)
      (expansionOf_congr (putOver_other own chaos order)).symm own chaos order

theorem Mixed.left (mixed : Mixed rules S made made' (g :: next) (g' :: next'))
    (plain : ∀ r ∈ rules, base r = r) (choosing' : Choosing c')
    (known : r ∈ rules) (fresh : r ∉ made) (fresh' : r ∉ made') (space : ' ' ∉ r)
    (read : readEntry e = some body) (fits : ∀ made, Fits (Versioned rules made)
      (versionRank rules) (versionWords S) (2 * rules.idxOf r) (S r) body) :
    Mixed rules S made (r :: made') (putOver 4 g next r e) (putOver c' g' next' r e) := by
  refine ⟨mixed.tidy, mixed.tidy'.choosing plain choosing' known fresh' space read (fits made'), ?_⟩
  intro n inside
  obtain ⟨chaos, order⟩ := inside.apart plain fresh
  by_cases own : n = r
  · subst own
    obtain ⟨body, expansion, body', expansion', sub⟩ := mixed.direct plain known fresh'
    refine ⟨body, expansion, _, putOver_rule choosing' space, ?_⟩
    intro alt ha
    refine .inr ⟨chaosRule n, .inl rfl, List.mem_map_of_mem (versions_mem choosing' n).1, body', ?_,
      sub alt ha⟩
    rw [putOver_chaos choosing' (mixed.tidy'.unmade n known fresh')]
    exact expansion'
  · exact (mixed.follows n inside).kept (plain r known) rfl own chaos order

theorem Mixed.overwrite (mixed : Mixed rules S made made' (g :: next) (g' :: next'))
    (plain : ∀ r ∈ rules, base r = r) (level : c ≤ 4) (choosing' : Choosing c')
    (known : r ∈ rules) (fresh : r ∉ made) (fresh' : r ∉ made') (space : ' ' ∉ r)
    (read : readEntry e = some body) (fits : ∀ made, Fits (Versioned rules made)
      (versionRank rules) (versionWords S) (2 * rules.idxOf r) (S r) body) :
    ∃ now now', Mixed rules S now now' (putOver c g next r e) (putOver c' g' next' r e) ∧
      (∀ m ∈ now, m = r ∨ m ∈ made) ∧ ∀ m ∈ now', m = r ∨ m ∈ made' := by
  have once : ∀ made : List CString, ∀ m ∈ r :: made, m = r ∨ m ∈ made :=
    fun made m => List.mem_cons.mp
  by_cases choosing : Choosing c
  · exact ⟨_, _, mixed.choosing plain choosing choosing' known fresh fresh' space read fits,
      once made, once made'⟩
  · obtain rfl | rfl : c = 0 ∨ c = 4 := by
      unfold Choosing at choosing
      omega
    · exact ⟨_, _, mixed.replaced plain choosing' known fresh fresh' space read fits,
        fun m => .inr, once made'⟩
    · exact ⟨_, _, mixed.left plain choosing' known fresh fresh' space read fits,
        fun m => .inr, once made'⟩

end

/-! ### Generators -/

/-- The grammars of a generator at two levels after the same overwrites. -/
def Paired (c c' : Nat) (done : List CString) (g g' : Grammar) : Prop :=
  ∃ made made', Mixed messageRules messageWords made made' (g :: connectionEnvAt c)
      (g' :: connectionEnvAt c') ∧ (∀ m ∈ made, m ∈ done) ∧ ∀ m ∈ made', m ∈ done

section
variable {c c' fuel : Nat} {done : List CString} {g g' : Grammar} {r n : CString}
variable {e : GrammarEntry} {heap : Memory}

theorem paired_start : Paired c c' [] createGrammar createGrammar := by
  refine ⟨[], [], ⟨tidy_start, tidy_start, ?_⟩, nofun, nofun⟩
  intro n inside
  have member : n ∈ messageRules := by
    rcases inside with rule | ⟨r, nothing, _⟩
    · exact rule
    · cases nothing
  have same : ∀ c, expansionOf (createGrammar :: connectionEnvAt c) n = expansionOf fileEnv n := by
    intro c
    apply expansionOf_congr
    exact connectionEnvAt_lookup ((messageRules_plain n member).symm ▸ member)
  obtain ⟨body, expansion, _⟩ := fileEnv_proper n member
  refine ⟨body, ?_, body, ?_, fun alt => .inl⟩
  · rw [same]
    exact expansion
  · rw [same]
    exact expansion

theorem Paired.overwrite (paired : Paired c c' done g g') (level : c ≤ 4) (choosing : Choosing c')
    (admitted : Admitted r e) (fresh : r ∉ done) : Paired c c' (done ++ [r])
      (overwriteRuleWithChaos c g (newEnvironment g (connectionEnvAt c)) r e)
      (overwriteRuleWithChaos c' g' (newEnvironment g' (connectionEnvAt c')) r e) := by
  obtain ⟨made, made', mixed, within, within'⟩ := paired
  obtain ⟨body, read, fits⟩ := admitted.read
  obtain ⟨now, now', mixed, origin, origin'⟩ := mixed.overwrite messageRules_plain level choosing
    admitted.known (fun member => fresh (within r member)) (fun member => fresh (within' r member))
    (messageRules_space r admitted.known) read fits
  refine ⟨now, now', mixed, ?_, ?_⟩
  · intro m member
    rcases origin m member with rfl | old
    · simp
    · exact List.mem_append_left _ (within m old)
  · intro m member
    rcases origin' m member with rfl | old
    · simp
    · exact List.mem_append_left _ (within' m old)

theorem Paired.overwrites (fuel : Nat) {rules : List (CString × GrammarEntry)}
    (paired : Paired c c' done g g') (level : c ≤ 4) (choosing : Choosing c')
    (admitted : ∀ rule ∈ rules, Admitted rule.1 rule.2)
    (fresh : (done ++ rules.map Prod.fst).Nodup) : Paired c c' (done ++ rules.map Prod.fst)
      ((shippedAt fuel c).overwrite g rules) ((shippedAt fuel c').overwrite g' rules) := by
  induction rules generalizing g g' done with
  | nil => simpa [Fuzzer.overwrite] using paired
  | cons rule rules ih =>
    have own : rule.1 ∉ done := by
      intro member
      exact (List.nodup_append.mp fresh).2.2 _ member _ (List.mem_cons_self ..) rfl
    have one := paired.overwrite level choosing (admitted rule (List.mem_cons_self ..)) own
    have rest := ih one (fun other member => admitted other (List.mem_cons_of_mem _ member))
      (by simpa using fresh)
    simpa [Fuzzer.overwrite, shippedAt] using rest

theorem Paired.prepared (paired : Paired c c' done g g') :
    Prepared c done g ∧ Prepared c' done g' := by
  obtain ⟨made, made', mixed, within, within'⟩ := paired
  exact ⟨⟨made, mixed.tidy, within⟩, ⟨made', mixed.tidy', within'⟩⟩

/-- What a rule is decoded to at the first level it may be decoded to at the second. -/
theorem Paired.decode (paired : Paired c c' done g g') (known : n ∈ messageRules)
    (enough : 510 ≤ fuel) :
    (decodeRule fuel n (newEnvironment g (connectionEnvAt c))).Includes
      (fun d d' => d = d' ∧ ∃ w ∈ messageWords n, d = .of w)
      (decodeRule fuel n (newEnvironment g' (connectionEnvAt c'))) := by
  intro d y
  obtain ⟨w, word, rfl⟩ := (Sampler.always_iff.mp (paired.prepared.1.decode known enough)).2 d y
  have total := (Sampler.always_iff.mp (paired.prepared.2.decode known enough)).1
  obtain ⟨made, made', mixed, _⟩ := paired
  have inside : ∀ made, Versioned messageRules made n := fun made => .inl known
  obtain ⟨w', derived, same⟩ :=
    (decodeRule_language (mixed.tidy.ranked.spelled (inside made))).mp ⟨fuel, y⟩
  obtain rfl : w = w' := congrArg Decoded.bytes same
  have derived' := mixed.within.language (inside made) derived
  obtain ⟨other, y'⟩ := (decodeRule_language (mixed.tidy'.ranked.spelled (inside made'))).mpr
    ⟨w, derived', rfl⟩
  exact ⟨_, decodeRule_yields_at total y', rfl, w, word, rfl⟩

theorem Paired.setLength {lengthRule : CString} (paired : Paired c c' done g g') (level : c ≤ 4)
    (choosing : Choosing c') (enough : 510 ≤ fuel) (known : n ∈ messageRules)
    (length : lengthRule ∈ messageRules)
    (words : ∀ bs : List UInt8, bs.length = 4 → bs ∈ messageWords lengthRule)
    (fresh : (done ++ [n, lengthRule]).Nodup) :
    ((shippedAt fuel c).setLength n lengthRule g).Includes (Paired c c' (done ++ [n, lengthRule]))
      ((shippedAt fuel c').setLength n lengthRule g') := by
  obtain ⟨own, own', apart⟩ := fresh_pair fresh
  refine (paired.decode known enough).bind ?_
  rintro d _ ⟨rfl, w, word, rfl⟩
  have entry : byteArrayEntry (.of w) = .ok (.byteArray w) := by simp [byteArrayEntry, Decoded.of]
  rw [entry, Sampler.ofExcept_ok, Sampler.bind_done, Sampler.bind_done]
  have frozen := paired.overwrite level choosing (admitted_bytes known word) own
  have size : intInChar (List.replicate 4 0) (Decoded.of w).length 0 4 ∈
      messageWords lengthRule := by
    apply words
    rw [intInChar, inChar_whole 4 _ _ rfl, Words.length_bytes]
  have sized := frozen.overwrite level choosing (admitted_bytes length size) (by simp [own', apart])
  rw [List.append_assoc] at sized
  rintro _ rfl
  exact ⟨_, rfl, sized⟩

theorem Paired.decodeMethod (paired : Paired c c' done g g') (level : c ≤ 4)
    (choosing : Choosing c') (enough : 510 ≤ fuel)
    (fresh : (done ++ [cstr "method-payload", cstr "payload-size"]).Nodup) :
    ((shippedAt fuel c).decodeMethod g).Includes (· = ·) ((shippedAt fuel c').decodeMethod g') := by
  refine (paired.setLength level choosing enough (by decide) (by decide)
    (fun _ => messageWords_size) fresh).bind ?_
  intro g g' sized d y
  obtain ⟨d', y', same, _⟩ := sized.decode (n := cstr "method") (by decide) enough d y
  exact ⟨d', y', same⟩

theorem includes_reply {packets packets' : Gen Decoded}
    (includes : packets.Includes (· = ·) packets') (s : State) (b : Bool) :
    (packets >>= fun d => pure (⟨some d, s, b⟩ : Reply)).Includes (· = ·)
      (packets' >>= fun d => pure ⟨some d, s, b⟩) := by
  apply includes.bind
  rintro d _ rfl
  exact .refl _

theorem overwritten_includes {rules : List (CString × GrammarEntry)} (level : c ≤ 4)
    (choosing : Choosing c') (enough : 510 ≤ fuel)
    (admitted : ∀ rule ∈ rules, Admitted rule.1 rule.2)
    (fresh : (rules.map Prod.fst ++ [cstr "method-payload", cstr "payload-size"]).Nodup)
    (s : State) (b : Bool) :
    ((shippedAt fuel c).decodeMethod ((shippedAt fuel c).overwrite createGrammar rules) >>=
        fun d => pure (⟨some d, s, b⟩ : Reply)).Includes (· = ·)
      ((shippedAt fuel c').decodeMethod ((shippedAt fuel c').overwrite createGrammar rules) >>=
        fun d => pure ⟨some d, s, b⟩) := by
  have put := paired_start.overwrites fuel level choosing admitted fresh.of_append_left
  exact includes_reply (put.decodeMethod level choosing enough fresh) s b

theorem startOk_includes (level : c ≤ 4) (choosing : Choosing c') (enough : 510 ≤ fuel) :
    (connectionStartOk (shippedAt fuel c)).Includes (· = ·)
      (connectionStartOk (shippedAt fuel c')) := by
  have start := paired_start.overwrites fuel level choosing startOk_methods (by decide)
  refine (start.setLength level choosing enough (by decide) (by decide)
    (fun bs _ => messageWords_free (by decide) bs) (by decide)).bind ?_
  intro g g' properties
  have named := properties.overwrites fuel level choosing startOk_response (by decide)
  refine (named.setLength level choosing enough (by decide) (by decide)
    (fun bs _ => messageWords_free (by decide) bs) (by decide)).bind ?_
  intro g g' response
  exact includes_reply (response.decodeMethod level choosing enough (by decide)) _ _

theorem generate_includes (level : c ≤ 4) (choosing : Choosing c') (enough : 510 ≤ fuel)
    (methodData : Option MethodStruct) (m : Message) :
    (m.generate (shippedAt fuel c) heap methodData).Includes (· = ·)
      (m.generate (shippedAt fuel c') heap methodData) := by
  cases m with
  | amqpHeader => exact .refl _
  | startOk => exact startOk_includes level choosing enough
  | tuneOk =>
    apply (Sampler.Includes.refl (tuneParameters fuel heap methodData)).bind
    rintro ⟨channelMax, frameMax⟩ _ rfl
    exact overwritten_includes level choosing enough (tuneOk_admitted _ _)
      (by dsimp only [List.map]; decide) _ _
  | connectionOpen =>
    exact overwritten_includes level choosing enough open_admitted (by decide) _ _
  | close => exact overwritten_includes level choosing enough close_admitted (by decide) _ _
  | closeOk => exact overwritten_includes level choosing enough closeOk_admitted (by decide) _ _

end

/-- What a generator may send at some level of rule chaos it may send at each of the
levels 1, 2 and 3, so that these differ in the odds alone. -/
theorem levels_include (c c' fuel : Nat) (level : c ≤ 4) (choosing : Choosing c')
    (enough : 510 ≤ fuel) (m : Message) (heap : Memory) (methodData : Option MethodStruct)
    (reply : Reply)
    (sends : ∃ draws rest, (m.generate (shippedAt fuel c) heap methodData).run draws =
      .ok (reply, rest)) :
    ∃ draws rest, (m.generate (shippedAt fuel c') heap methodData).run draws =
      .ok (reply, rest) := by
  have includes : (m.generate (shippedAt fuel c) heap methodData).Includes (· = ·) _ :=
    generate_includes level choosing enough methodData m
  obtain ⟨_, y, rfl⟩ := includes reply ((Sampler.yields_iff_run _ _).mpr sends)
  exact (Sampler.yields_iff_run _ _).mp y

/-- Half of the chaos leaves room for the Close-Ok of no chaos. -/
theorem levels_include_closeOk : ∃ draws rest, (connectionCloseOk (shippedAt 510 2)).run draws =
    .ok (⟨some (methodPacket 51 []), .connectionCloseOK, true⟩, rest) :=
  levels_include 0 2 510 (by decide) (by decide) le_rfl .closeOk (fun _ => none) none _
    ⟨Stream'.const 0, Sampler.run_of_map_fst (by decide +kernel)⟩

end Amqpgram
