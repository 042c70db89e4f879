import StableModels.Proofs.Firing

/-!
# Propagation

A piece of news triggers the rules that it may complete. For each kind of body this module shows
that what is matched is an instance, and that no instance is passed over which the news completes
together with atoms that are known (`StableModels.News.fires_propagate`).

A join is the interesting case. It is triggered from either side, by whichever of its two atoms
comes last, and each side finds the other through an index that is entered with the shared
arguments. Both sides of a join are known before either of them is propagated, and so the second one
to be propagated finds the first.
-/

namespace StableModels

open Saturating

/-- The instance has this atom in its body, and the store reads all of its body in this set. -/
def Rule.Involves (store : Store) (seen : Set News) (atom : Atom) (rule : Rule)
    (valuation : Valuation) : Prop :=
  ∃ body, rule.Instance valuation body ∧ (∀ other ∈ body, other ∈ store.meaning seen) ∧ atom ∈ body

section Bodies

variable {program : Program} {rules : RuleSet} {workspace : Workspace} {premise : Premise}
  {conclusion : Conclusion} {compiled : CompiledPremise} {concluded : CompiledConclusion}
  {args : List Handle} {value : Handle} {terms : List Term} {term : Term} {slots : Nat}
  {intermediate : String} {vars : List Nat} {shared : Nat} {code : List Instruction} {index : Nat}

/-! ### Rules over facts -/

theorem fires_unary (fit : workspace.Fit program rules)
    (member : Rule.unary premise conclusion ∈ program.rules)
    (premise_compiles : premise.Compiles workspace.store compiled)
    (conclusion_compiles : conclusion.Compiles workspace.store concluded)
    (known : .fact compiled.name args value ∈ workspace.model.known)
    (args_expand : workspace.store.Expands args terms)
    (value_expands : workspace.store.expand value = some term) :
    Fires program rules
      (CompiledRule.onFact rules args value ⟨index, slots, .unary compiled, concluded⟩)
      workspace fun rule valuation =>
        rule = .unary premise conclusion ∧ premise.Denotes valuation terms term := by
  refine fires_get ?_
  dsimp only
  split
  · next unmatched =>
    refine fires_nothing fit.sound ?_
    rintro _ rule valuation ⟨_, denotes⟩
    obtain ⟨substitution, matched, -⟩ := CompiledPremise.match?_complete fit.sound slots
      premise_compiles args_expand value_expands denotes
    rw [unmatched] at matched
    cases matched
  · next substitution matched =>
    obtain ⟨hknown, hdenotes⟩ := CompiledPremise.match?_sound fit.sound premise_compiles args_expand
      value_expands matched
    have hfire := CompiledConclusion.fires_fire fit member conclusion_compiles hknown
      fun _ _ => by
        refine ⟨_, .unary hdenotes, ?_⟩
        intro atom hatom
        rw [List.mem_singleton.1 hatom, ← premise_compiles.name]
        exact ⟨_, known, .fact args_expand value_expands⟩
    refine hfire.mono ?_
    rintro rule valuation ⟨rfl, denotes⟩
    obtain ⟨other, hother, within⟩ := CompiledPremise.match?_complete fit.sound slots
      premise_compiles args_expand value_expands denotes
    obtain rfl := Option.some.inj (matched.symm.trans hother)
    exact ⟨rfl, within⟩

/-! ### Joins -/

/-- The shared arguments of a fact are what the first slots of the tuple stand for. -/
theorem map_take_of_denoteAll {valuation : Valuation}
    (linked : premise.args.take shared = (vars.take shared).map Pattern.var)
    (denote : Pattern.DenoteAll valuation premise.args terms) :
    (vars.take shared).map valuation = (terms.take shared).map some := by
  have htake := List.forall₂_take shared (Pattern.denoteAll_iff.1 denote)
  rw [linked] at htake
  exact Pattern.denoteAll_map_var.1 (Pattern.denoteAll_iff.2 htake)

/-- A premise denotes a fact that begins with what the first slots of the tuple stand for, if the
rest of it does. -/
theorem Premise.denotes_of_linked {valuation : Valuation} {others : List Term}
    (linked : premise.args.take shared = (vars.take shared).map Pattern.var)
    (binds : vars.map valuation = terms.map some)
    (denote : Pattern.DenoteAll valuation (premise.args.drop shared) others)
    (value_denotes : premise.value.Denotes valuation term) :
    premise.Denotes valuation (terms.take shared ++ others) term := by
  refine ⟨?_, value_denotes⟩
  rw [← List.take_append_drop shared premise.args, linked, Pattern.denoteAll_iff]
  refine List.rel_append ?_ (Pattern.denoteAll_iff.1 denote)
  rw [← Pattern.denoteAll_iff, Pattern.denoteAll_map_var, List.map_take, binds, List.map_take]

/-- The shared arguments of a tuple and a fact that join are the same. -/
theorem take_eq_of_join {store : Store} (sound : store.Sound) {valuation : Valuation}
    {handles : List Handle} {tuple : List Term}
    (linked : premise.args.take shared = (vars.take shared).map Pattern.var)
    (binds : vars.map valuation = tuple.map some)
    (denote : Pattern.DenoteAll valuation premise.args terms)
    (handles_expand : store.Expands handles tuple) (args_expand : store.Expands args terms) :
    handles.take shared = args.take shared := by
  have hargs := map_take_of_denoteAll linked denote
  have htuple : (vars.take shared).map valuation = (tuple.take shared).map some := by
    rw [List.map_take, binds, List.map_take]
  have heq : tuple.take shared = terms.take shared :=
    List.map_injective_iff.2 (Option.some_injective Term) (htuple.symm.trans hargs)
  have hhandles := List.forall₂_take shared handles_expand
  rw [heq] at hhandles
  exact sound.expands_injective hhandles (List.forall₂_take shared args_expand)

/-- Binding further slots to the members of tuples, and firing for each tuple to which they can be
bound. -/
theorem fires_each_bindTuple (fit : workspace.Fit program rules) {rule : Rule}
    (member : rule ∈ program.rules)
    (conclusion_compiles : rule.conclusion.Compiles workspace.store concluded)
    {substitution : Substitution} (known : substitution.Known workspace.store) (free : List Nat)
    (tuples : List (List Handle)) (inst : ∀ tuple ∈ tuples, ∃ others,
      workspace.store.Expands tuple others ∧ ∀ valuation : Valuation,
        (substitution.valuation workspace.store).Within valuation →
          free.map valuation = others.map some → ∃ body, rule.Instance valuation body ∧
            ∀ atom ∈ body, atom ∈ workspace.model.atoms workspace.store) :
    Fires program rules
      (each (fun tuple =>
        match substitution.bindTuple? free tuple with
        | none => pure ()
        | some substitution => concluded.fire rules substitution) tuples)
      workspace fun other valuation => ∃ tuple ∈ tuples, other = rule ∧
        (substitution.valuation workspace.store).Within valuation ∧
          ∃ others, workspace.store.Expands tuple others ∧
            free.map valuation = others.map some := by
  -- The store has grown by the time it is this tuple's turn, but what the substitution says in it
  -- is still the same.
  refine fires_each fit tuples ?_
  intro tuple htuple fired middle firings hfit
  obtain ⟨others, expanded, hinst⟩ := inst tuple htuple
  have extension := firings.extension
  have hknown := known.mono extension
  have hvaluation := known.valuation_eq extension
  have complete {valuation : Valuation}
      (within : (substitution.valuation workspace.store).Within valuation)
      (agrees : ∃ others, workspace.store.Expands tuple others ∧
        free.map valuation = others.map some) :
      ∃ after, substitution.bindTuple? free tuple = some after ∧
        (after.valuation middle.store).Within valuation := by
    obtain ⟨others', expanded', agrees⟩ := agrees
    obtain rfl := expanded.unique expanded'
    rw [← hvaluation] at within
    exact Substitution.bindTuple?_complete hfit.sound hknown within (extension.expands expanded)
      agrees
  split
  · next unbound =>
    refine fires_nothing hfit.sound ?_
    rintro _ other valuation ⟨_, within, agrees⟩
    obtain ⟨after, bound, -⟩ := complete within agrees
    rw [unbound] at bound
    cases bound
  · next after bound =>
    obtain ⟨hknown', hwithin, agrees⟩ :=
      Substitution.bindTuple?_sound hknown (extension.expands expanded) bound
    rw [hvaluation] at hwithin
    have hfire := CompiledConclusion.fires_fire hfit member
      (conclusion_compiles.mono extension) hknown' fun alive _ => by
        obtain ⟨body, hbody, held⟩ := hinst _ hwithin agrees
        exact ⟨body, hbody, fun atom hatom => firings.atoms_subset fit alive (held atom hatom)⟩
    -- The binding that was made lies within each valuation that is wanted.
    refine hfire.mono ?_
    rintro other valuation ⟨rfl, within, agrees'⟩
    obtain ⟨last, hlast, hwithin'⟩ := complete within agrees'
    obtain rfl := Option.some.inj (bound.symm.trans hlast)
    exact ⟨rfl, hwithin'⟩

/-- A fact joins with every tuple that continues its shared arguments: what is left of the tuple can
be read, and a valuation of both is an instance. -/
theorem exists_join_of_derives (conclusion : Conclusion)
    (readable : workspace.model.Readable program workspace.store)
    (premise_compiles : premise.Compiles workspace.store compiled)
    (linked : premise.args.take shared = (vars.take shared).map Pattern.var)
    (known : .fact compiled.name args value ∈ workspace.model.known)
    (args_expand : workspace.store.Expands args terms)
    (value_expands : workspace.store.expand value = some term) {rest : List Handle}
    (derived : workspace.model.derives intermediate (args.take shared ++ rest) = true) :
    ∃ others, workspace.store.Expands rest others ∧ ∀ valuation : Valuation,
      premise.Denotes valuation terms term → (vars.drop shared).map valuation = others.map some →
        ∃ body, Rule.Instance (.join intermediate vars shared premise conclusion) valuation body ∧
          ∀ atom ∈ body, atom ∈ workspace.model.atoms workspace.store := by
  obtain ⟨tuple, tuple_expands⟩ := readable.tuples _ _ derived
  obtain ⟨-, others, -, -, rest_expands⟩ := tuple_expands.exists_of_append
  refine ⟨others, rest_expands, ?_⟩
  intro valuation denotes agrees
  refine ⟨[.tuple intermediate (terms.take shared ++ others), _], .join ?_ denotes, ?_⟩
  · rw [List.map_append, ← agrees, ← map_take_of_denoteAll linked denotes.1, ← List.map_append,
      List.take_append_drop]
  · intro atom hatom
    rcases List.mem_pair.1 hatom with rfl | rfl
    · exact ⟨_, derived, .tuple
        (List.rel_append (List.forall₂_take shared args_expand) rest_expands)⟩
    · rw [← premise_compiles.name]
      exact ⟨_, known, .fact args_expand value_expands⟩

theorem fires_join_onFact (fit : workspace.Fit program rules)
    (alive : workspace.model.isDead = false)
    (member : Rule.join intermediate vars shared premise conclusion ∈ program.rules)
    (premise_compiles : premise.Compiles workspace.store compiled)
    (conclusion_compiles : conclusion.Compiles workspace.store concluded)
    (linked : Rule.Linked (.join intermediate vars shared premise conclusion))
    (known : .fact compiled.name args value ∈ workspace.model.known)
    (args_expand : workspace.store.Expands args terms)
    (value_expands : workspace.store.expand value = some term) :
    Fires program rules
      (CompiledRule.onFact rules args value
        ⟨index, slots, .join intermediate vars shared compiled, concluded⟩)
      workspace fun rule valuation =>
        rule = .join intermediate vars shared premise conclusion ∧
          ∃ handles tuple, workspace.model.derives intermediate handles = true ∧
            workspace.store.Expands handles tuple ∧ vars.map valuation = tuple.map some ∧
              premise.Denotes valuation terms term := by
  obtain ⟨shared_le, -, linked⟩ := linked
  have readable := fit.readable alive
  refine fires_get ?_
  dsimp only
  split
  · next unmatched =>
    refine fires_nothing fit.sound ?_
    rintro _ rule valuation ⟨_, _, _, _, _, _, denotes⟩
    obtain ⟨substitution, matched, -⟩ := CompiledPremise.match?_complete fit.sound slots
      premise_compiles args_expand value_expands denotes
    rw [unmatched] at matched
    cases matched
  · next substitution matched =>
    obtain ⟨hknown, hdenotes⟩ := CompiledPremise.match?_sound fit.sound premise_compiles args_expand
      value_expands matched
    refine Fires.mono (fires_each_bindTuple fit member conclusion_compiles hknown
      (vars.drop shared) _ ?_) ?_
    · intro rest hrest
      obtain ⟨-, derived⟩ := readable.sound.mem_completions.1 hrest
      obtain ⟨others, rest_expands, hinst⟩ := exists_join_of_derives conclusion
        readable premise_compiles linked known args_expand value_expands derived
      refine ⟨others, rest_expands, ?_⟩
      intro valuation within agrees
      exact hinst valuation ⟨hdenotes.1.mono within, hdenotes.2.mono within⟩ agrees
    · rintro rule valuation ⟨rfl, handles, tuple, derived, handles_expand, binds, denotes⟩
      -- Equal trees have equal handles, so the tuple stands where the index is entered with the
      -- shared arguments of the fact.
      have htake := take_eq_of_join fit.sound linked binds denotes.1 handles_expand args_expand
      have hlength : handles.length = vars.length := by
        rw [handles_expand.length_eq]
        simpa using (congrArg List.length binds).symm
      refine ⟨handles.drop shared, readable.sound.mem_completions.2 ⟨?_, ?_⟩, rfl, ?_,
        tuple.drop shared, List.forall₂_drop shared handles_expand, ?_⟩
      · rw [List.length_drop, hlength]
      · rw [← htake, List.take_append_drop]
        exact derived
      · obtain ⟨other, hother, within⟩ := CompiledPremise.match?_complete fit.sound slots
          premise_compiles args_expand value_expands denotes
        obtain rfl := Option.some.inj (matched.symm.trans hother)
        exact within
      · rw [List.map_drop, binds, List.map_drop]

/-- Matching the rest of the premise against completions, and firing for each that matches. -/
theorem fires_each_matchRest (fit : workspace.Fit program rules) {rule : Rule}
    (member : rule ∈ program.rules) (premise_compiles : premise.Compiles workspace.store compiled)
    (conclusion_compiles : rule.conclusion.Compiles workspace.store concluded)
    {substitution : Substitution} (known : substitution.Known workspace.store)
    (completions : List (List Handle)) (inst : ∀ completion ∈ completions, ∃ rest last others term,
      completion = rest ++ [last] ∧ workspace.store.Expands rest others ∧
        workspace.store.expand last = some term ∧ (program.OneArity → ∀ valuation : Valuation,
          (substitution.valuation workspace.store).Within valuation →
            Pattern.DenoteAll valuation (premise.args.drop shared) others →
              premise.value.Denotes valuation term → ∃ body, rule.Instance valuation body ∧
                ∀ atom ∈ body, atom ∈ workspace.model.atoms workspace.store)) :
    Fires program rules
      (each (fun completion => do
        match compiled.matchRest? (← get).store shared substitution completion with
        | none => pure ()
        | some substitution => concluded.fire rules substitution) completions)
      workspace fun other valuation => ∃ completion ∈ completions, other = rule ∧
        (substitution.valuation workspace.store).Within valuation ∧ ∃ rest last others term,
          completion = rest ++ [last] ∧ workspace.store.Expands rest others ∧
            workspace.store.expand last = some term ∧
              Pattern.DenoteAll valuation (premise.args.drop shared) others ∧
                premise.value.Denotes valuation term := by
  refine fires_each fit completions ?_
  intro completion hcompletion fired middle firings hfit
  obtain ⟨rest, last, others, term, rfl, rest_expands, last_expands, hinst⟩ :=
    inst completion hcompletion
  have extension := firings.extension
  have hknown := known.mono extension
  have hvaluation := known.valuation_eq extension
  have hcompiles := premise_compiles.mono extension
  have complete {valuation : Valuation}
      (within : (substitution.valuation workspace.store).Within valuation)
      (denotes : ∃ rest' last' others term, rest ++ [last] = rest' ++ [last'] ∧
        workspace.store.Expands rest' others ∧ workspace.store.expand last' = some term ∧
          Pattern.DenoteAll valuation (premise.args.drop shared) others ∧
            premise.value.Denotes valuation term) :
      ∃ after, compiled.matchRest? middle.store shared substitution (rest ++ [last]) = some after ∧
        (after.valuation middle.store).Within valuation := by
    obtain ⟨rest', last', others', term', heq, rest_expands', last_expands', denote, denotes⟩ :=
      denotes
    obtain ⟨rfl, hlast⟩ := List.append_inj' heq rfl
    obtain rfl := List.singleton_inj.1 hlast
    rw [← hvaluation] at within
    exact CompiledPremise.matchRest?_complete hfit.sound hcompiles hknown within
      (extension.expands rest_expands') (extension.expand last_expands') denote denotes
  refine fires_get ?_
  split
  · next unmatched =>
    refine fires_nothing hfit.sound ?_
    rintro _ other valuation ⟨_, within, denotes⟩
    obtain ⟨after, matched, -⟩ := complete within denotes
    rw [unmatched] at matched
    cases matched
  · next after matched =>
    obtain ⟨hknown', hwithin, denote, denotes⟩ :=
      CompiledPremise.matchRest?_sound hfit.sound hcompiles
      hknown (extension.expands rest_expands) (extension.expand last_expands) matched
    rw [hvaluation] at hwithin
    have hfire := CompiledConclusion.fires_fire hfit member
      (conclusion_compiles.mono extension) hknown' fun alive one_arity => by
        obtain ⟨body, hbody, held⟩ := hinst one_arity _ hwithin denote denotes
        exact ⟨body, hbody, fun atom hatom => firings.atoms_subset fit alive (held atom hatom)⟩
    refine hfire.mono ?_
    rintro other valuation ⟨rfl, within, denotes'⟩
    obtain ⟨final, hfinal, hwithin'⟩ := complete within denotes'
    obtain rfl := Option.some.inj (matched.symm.trans hfinal)
    exact ⟨rfl, hwithin'⟩

/-- **What the index finds can be read.** It is the rest of a fact with its value, or it stops in
the middle of the arguments of some longer tuple. -/
theorem PartialModel.Readable.exists_of_mem_visit {model : PartialModel} {store : Store}
    (readable : model.Readable program store) {name : String} {start completion : List Handle}
    {depth : Nat} (member : completion ∈ model.database.visit name start (depth + 1)) :
    ∃ rest last others term, completion = rest ++ [last] ∧ rest.length = depth ∧
      store.Expands rest others ∧ store.expand last = some term ∧
        (.fact name (start ++ rest) last ∈ model.known ∨ ∃ more, (name,
          (start ++ rest ++ last :: more).length) ∈ program.rules.flatMap Rule.uses) := by
  obtain ⟨rest, last, rfl, hlength, found | ⟨more, constraint, found⟩⟩ :=
    readable.sound.database.mem_visit.1 member
  · obtain ⟨⟨⟨tuple, tuple_expands⟩, -⟩, values⟩ := readable.constrained _ _ _ found
    obtain ⟨-, others, -, -, rest_expands⟩ := tuple_expands.exists_of_append
    obtain ⟨term, last_expands⟩ := values last rfl
    exact ⟨rest, last, others, term, rfl, hlength, rest_expands, last_expands, Or.inl found⟩
  · obtain ⟨⟨⟨tuple, tuple_expands⟩, uses⟩, -⟩ := readable.constrained _ _ _ found
    obtain ⟨start, final, -, start_expands, final_expands⟩ := tuple_expands.exists_of_append
    obtain ⟨-, others, -, -, rest_expands⟩ := start_expands.exists_of_append
    obtain _ | ⟨last_expands, -⟩ := final_expands
    exact ⟨rest, last, others, _, rfl, hlength, rest_expands, last_expands, Or.inr ⟨more, uses⟩⟩

/-- What a tuple finds in the database joins with it: a completion of its shared arguments is the
rest of a fact, and a valuation of both is an instance. Without one arity a completion could stop in
the middle of the arguments of some longer tuple, and its last member would be no value. -/
theorem exists_join_of_mem_visit (readable : workspace.model.Readable program workspace.store)
    (member : Rule.join intermediate vars shared premise conclusion ∈ program.rules)
    (premise_compiles : premise.Compiles workspace.store compiled)
    (shared_le : shared ≤ args.length) (shared_le' : shared ≤ premise.args.length)
    (linked : premise.args.take shared = (vars.take shared).map Pattern.var)
    (known : .tuple intermediate args ∈ workspace.model.known)
    (args_expand : workspace.store.Expands args terms) {completion : List Handle}
    (hcompletion : completion ∈ workspace.model.database.visit compiled.name (args.take shared)
      (compiled.args.length - shared + 1)) :
    ∃ rest last others term, completion = rest ++ [last] ∧ workspace.store.Expands rest others ∧
      workspace.store.expand last = some term ∧ (program.OneArity → ∀ valuation : Valuation,
        vars.map valuation = terms.map some →
          Pattern.DenoteAll valuation (premise.args.drop shared) others →
            premise.value.Denotes valuation term → ∃ body,
              Rule.Instance (.join intermediate vars shared premise conclusion) valuation body ∧
                ∀ atom ∈ body, atom ∈ workspace.model.atoms workspace.store) := by
  have hcompiled : compiled.args.length = premise.args.length :=
    premise_compiles.args.length_eq.symm
  obtain ⟨rest, last, others, term, rfl, hlength, rest_expands, last_expands, origin⟩ :=
    readable.exists_of_mem_visit hcompletion
  refine ⟨rest, last, others, term, rfl, rest_expands, last_expands, ?_⟩
  intro one_arity valuation binds denote value_denotes
  obtain found | ⟨more, uses⟩ := origin
  · refine ⟨_, .join binds (Premise.denotes_of_linked linked binds denote value_denotes), ?_⟩
    intro atom hatom
    rcases List.mem_pair.1 hatom with rfl | rfl
    · exact ⟨_, known, .tuple args_expand⟩
    · rw [← premise_compiles.name]
      exact ⟨_, found, .fact (List.rel_append (List.forall₂_take shared args_expand) rest_expands)
        last_expands⟩
  · -- At one arity no tuple goes on beyond the arguments of the premise.
    have uses' : (premise.name, premise.args.length) ∈ program.rules.flatMap Rule.uses :=
      List.mem_flatMap.2 ⟨_, member, List.mem_cons_self⟩
    have hlengths := one_arity _ uses _ uses' premise_compiles.name
    simp only [List.length_append, List.length_take, List.length_cons] at hlengths
    omega

theorem fires_join_onTuple (fit : workspace.Fit program rules)
    (alive : workspace.model.isDead = false)
    (member : Rule.join intermediate vars shared premise conclusion ∈ program.rules)
    (premise_compiles : premise.Compiles workspace.store compiled)
    (conclusion_compiles : conclusion.Compiles workspace.store concluded)
    (linked : Rule.Linked (.join intermediate vars shared premise conclusion))
    (known : .tuple intermediate args ∈ workspace.model.known)
    (args_expand : workspace.store.Expands args terms) :
    Fires program rules
      (CompiledRule.onTuple rules args
        ⟨index, slots, .join intermediate vars shared compiled, concluded⟩)
      workspace fun rule valuation =>
        rule = .join intermediate vars shared premise conclusion ∧
          vars.map valuation = terms.map some ∧ ∃ handles value others term,
            workspace.model.database.get? premise.name handles = some (.just value) ∧
              workspace.store.Expands handles others ∧ workspace.store.expand value = some term ∧
                premise.Denotes valuation others term := by
  obtain ⟨shared_le, shared_le', linked⟩ := linked
  have readable := fit.readable alive
  refine fires_get ?_
  dsimp only
  split
  · next unbound =>
    refine fires_nothing fit.sound ?_
    rintro _ rule valuation ⟨_, binds, _⟩
    obtain ⟨after, bound, -⟩ :=
      Substitution.bindTuple?_blank_complete fit.sound slots args_expand binds
    rw [unbound] at bound
    cases bound
  · next substitution bound =>
    obtain ⟨hknown, hbinds⟩ := Substitution.bindTuple?_blank_sound args_expand bound
    have hargs := Substitution.length_eq_of_bindTuple? bound
    have hcompiled : compiled.args.length = premise.args.length :=
      premise_compiles.args.length_eq.symm
    refine Fires.mono (fires_each_matchRest fit member premise_compiles conclusion_compiles
      hknown _ ?_) ?_
    · intro completion hcompletion
      obtain ⟨rest, last, others, term, rfl, rest_expands, last_expands, hinst⟩ :=
        exists_join_of_mem_visit readable member premise_compiles (hargs ▸ shared_le) shared_le'
          linked known args_expand hcompletion
      refine ⟨rest, last, others, term, rfl, rest_expands, last_expands, ?_⟩
      intro one_arity valuation within
      exact hinst one_arity valuation (within.map_eq hbinds)
    · rintro rule valuation ⟨rfl, binds, handles, value, others, term, found, handles_expand,
        value_expands, denotes⟩
      have htake := take_eq_of_join fit.sound linked binds denotes.1 args_expand handles_expand
      obtain ⟨other, hother, within⟩ :=
        Substitution.bindTuple?_blank_complete fit.sound slots args_expand binds
      obtain rfl := Option.some.inj (bound.symm.trans hother)
      have visited : handles.drop shared ++ [value] ∈ workspace.model.database.visit compiled.name
          (args.take shared) (compiled.args.length - shared + 1) := by
        refine readable.sound.database.mem_visit.2 ⟨_, _, rfl, ?_, Or.inl ?_⟩
        · rw [List.length_drop, handles_expand.length_eq, ← denotes.1.length_eq, hcompiled]
        · rw [htake, List.take_append_drop, premise_compiles.name]
          exact found
      have rest_expands := List.forall₂_drop shared handles_expand
      have rest_denote := List.forall₂_drop shared (Pattern.denoteAll_iff.1 denotes.1)
      exact ⟨_, visited, rfl, within, _, _, others.drop shared, term, rfl, rest_expands,
        value_expands, Pattern.denoteAll_iff.2 rest_denote, denotes.2⟩

/-! ### Rules over code -/

theorem fires_run (fit : workspace.Fit program rules)
    (member : Rule.run intermediate vars code conclusion ∈ program.rules)
    (conclusion_compiles : conclusion.Compiles workspace.store concluded)
    (known : .tuple intermediate args ∈ workspace.model.known)
    (args_expand : workspace.store.Expands args terms) :
    Fires program rules
      (CompiledRule.onTuple rules args ⟨index, slots, .run intermediate vars code false, concluded⟩)
      workspace fun rule valuation =>
        rule = .run intermediate vars code conclusion ∧ ∃ valuations,
          Machine.Yields code vars terms valuations ∧ valuation ∈ valuations := by
  refine fires_get ?_
  dsimp only
  split
  · next unbound =>
    refine fires_nothing fit.sound ?_
    rintro _ rule valuation ⟨_, valuations, yields, _⟩
    obtain ⟨start, bound⟩ := yields.exists_bindTuple? fit.sound args_expand slots
    rw [unbound] at bound
    cases bound
  · next substitution bound =>
    obtain ⟨model, store⟩ := workspace
    obtain ⟨hknown, -⟩ := Substitution.bindTuple?_blank_sound args_expand bound
    refine fires_interning (Machine.ensures_run code fit.sound hknown).computed ?_
    rintro outcomes more sound extension ⟨hrun, houtcomes⟩
    have yields : Machine.Yields code vars terms
        (outcomes.map fun outcome => outcome.valuation more) :=
      ⟨store, more, args, slots, substitution, outcomes, fit.sound, args_expand, bound, hrun, rfl⟩
    have hfit : Workspace.Fit program rules ⟨model, more⟩ := fit.grow sound extension
    -- The run has made the store larger, and each conclusion that is fired may do so again.
    have heach : Fires program rules (each (concluded.fire rules) outcomes) ⟨model, more⟩
        fun rule valuation => ∃ outcome ∈ outcomes, rule = .run intermediate vars code conclusion ∧
          (outcome.valuation more).Within valuation := by
      refine fires_each hfit outcomes ?_
      intro outcome houtcome fired middle firings hfit'
      have hvaluation := (houtcomes outcome houtcome).valuation_eq firings.extension
      rw [← hvaluation]
      refine CompiledConclusion.fires_fire hfit' member
        (conclusion_compiles.mono (extension.trans firings.extension))
        ((houtcomes outcome houtcome).mono firings.extension) ?_
      intro alive _
      rw [hvaluation]
      refine ⟨_, .run yields (List.mem_map.2 ⟨outcome, houtcome, rfl⟩), ?_⟩
      intro atom hatom
      rw [List.mem_singleton.1 hatom]
      exact firings.atoms_subset hfit alive ⟨_, known, .tuple (extension.expands args_expand)⟩
    refine heach.mono ?_
    rintro rule valuation ⟨rfl, valuations, yields', hvaluation⟩
    obtain rfl := yields'.unique yields
    obtain ⟨outcome, houtcome, rfl⟩ := List.mem_map.1 hvaluation
    exact ⟨outcome, houtcome, rfl, .refl _⟩

theorem fires_runForFailure (fit : workspace.Fit program rules)
    (member : Rule.runForFailure intermediate vars code conclusion ∈ program.rules)
    (conclusion_compiles : conclusion.Compiles workspace.store concluded)
    (known : .tuple intermediate args ∈ workspace.model.known)
    (args_expand : workspace.store.Expands args terms) :
    Fires program rules
      (CompiledRule.onTuple rules args ⟨index, slots, .run intermediate vars code true, concluded⟩)
      workspace fun rule valuation =>
        rule = .runForFailure intermediate vars code conclusion ∧
          Machine.Yields code vars terms [] ∧ vars.map valuation = terms.map some := by
  refine fires_get ?_
  dsimp only
  split
  · next unbound =>
    refine fires_nothing fit.sound ?_
    rintro _ rule valuation ⟨_, yields, _⟩
    obtain ⟨start, bound⟩ := yields.exists_bindTuple? fit.sound args_expand slots
    rw [unbound] at bound
    cases bound
  · next substitution bound =>
    obtain ⟨model, store⟩ := workspace
    obtain ⟨hknown, binds⟩ := Substitution.bindTuple?_blank_sound args_expand bound
    refine fires_interning (Machine.ensures_run code fit.sound hknown).computed ?_
    rintro outcomes more sound extension ⟨hrun, -⟩
    have yields : Machine.Yields code vars terms
        (outcomes.map fun outcome => outcome.valuation more) :=
      ⟨store, more, args, slots, substitution, outcomes, fit.sound, args_expand, bound, hrun, rfl⟩
    have hfit : Workspace.Fit program rules ⟨model, more⟩ := fit.grow sound extension
    have hvaluation := hknown.valuation_eq extension
    rw [if_pos rfl]
    split
    · next none_left =>
      obtain rfl := List.isEmpty_iff.1 none_left
      have hfire := CompiledConclusion.fires_fire hfit member
        (conclusion_compiles.mono extension) (hknown.mono extension) fun _ _ => by
          rw [hvaluation]
          refine ⟨_, .runForFailure yields binds, ?_⟩
          intro atom hatom
          rw [List.mem_singleton.1 hatom]
          exact ⟨_, known, .tuple (extension.expands args_expand)⟩
      refine hfire.mono ?_
      rintro rule valuation ⟨rfl, -, binds'⟩
      obtain ⟨other, hother, within⟩ :=
        Substitution.bindTuple?_blank_complete fit.sound slots args_expand binds'
      obtain rfl := Option.some.inj (bound.symm.trans hother)
      rw [hvaluation]
      exact ⟨rfl, within⟩
    · next some_left =>
      -- All runs of the code agree, so that no other run is without an outcome.
      refine fires_nothing sound ?_
      rintro _ rule valuation ⟨_, yields', _⟩
      have heq := yields'.unique yields
      rw [eq_comm, List.map_eq_nil_iff] at heq
      simp [heq] at some_left

end Bodies

/-! ### Triggering rules -/

section Triggers

variable {program : Program} {rules : RuleSet} {workspace : Workspace} {rule : Rule}
  {compiled : CompiledRule} {name : String} {args : List Handle} {value : Handle}
    {terms : List Term}
  {term : Term} {seen : Set News}

/-- A fact that is read in known news is known under its handles. -/
theorem exists_get?_of_mem_meaning (seen_known : seen ⊆ workspace.model.known)
    (member : .fact name terms term ∈ workspace.store.meaning seen) :
    ∃ handles value, workspace.model.database.get? name handles = some (.just value) ∧
      workspace.store.Expands handles terms ∧ workspace.store.expand value = some term := by
  obtain ⟨news, hnews, reads⟩ := member
  cases reads with
  | fact args_expand value_expands => exact ⟨_, _, seen_known hnews, args_expand, value_expands⟩

/-- A tuple that is read in known news is derived under its handles. -/
theorem exists_derives_of_mem_meaning (seen_known : seen ⊆ workspace.model.known)
    (member : .tuple name terms ∈ workspace.store.meaning seen) :
    ∃ handles, workspace.model.derives name handles = true ∧
      workspace.store.Expands handles terms := by
  obtain ⟨news, hnews, reads⟩ := member
  cases reads with
  | tuple args_expand => exact ⟨_, seen_known hnews, args_expand⟩

/-- A new fact fires every instance of a rule that it completes. -/
theorem CompiledRule.fires_onFact (fit : workspace.Fit program rules)
    (alive : workspace.model.isDead = false) (member : rule ∈ program.rules)
    (compiles : rule.Compiles workspace.store compiled) (seen_known : seen ⊆ workspace.model.known)
    (triggered : compiled.body.factTrigger? = some name)
    (known : .fact name args value ∈ workspace.model.known)
    (args_expand : workspace.store.Expands args terms)
    (value_expands : workspace.store.expand value = some term) :
    Fires program rules (compiled.onFact rules args value) workspace fun other valuation =>
      other = rule ∧ rule.Involves workspace.store seen (.fact name terms term) valuation := by
  cases compiles with
  | unary premise_compiles conclusion_compiles =>
    obtain rfl := Option.some.inj triggered
    refine (fires_unary fit member premise_compiles conclusion_compiles known args_expand
      value_expands).mono ?_
    rintro other valuation ⟨rfl, body, inst, -, hmember⟩
    cases inst with
    | unary denotes =>
      obtain ⟨-, rfl, rfl⟩ := Atom.fact.inj (List.mem_singleton.1 hmember)
      exact ⟨rfl, denotes⟩
  | join premise_compiles conclusion_compiles =>
    obtain rfl := Option.some.inj triggered
    refine (fires_join_onFact fit alive member premise_compiles conclusion_compiles
      (fit.compiles.linked _ member) known args_expand value_expands).mono ?_
    rintro other valuation ⟨rfl, body, inst, within, hmember⟩
    cases inst with
    | join binds denotes =>
      obtain ⟨handles, derived, handles_expand⟩ :=
        exists_derives_of_mem_meaning seen_known (within _ List.mem_cons_self)
      rcases List.mem_pair.1 hmember with heq | heq
      · cases heq
      · obtain ⟨-, rfl, rfl⟩ := Atom.fact.inj heq
        exact ⟨rfl, handles, _, derived, handles_expand, binds, denotes⟩
  | run | runForFailure => cases triggered

/-- A new tuple fires every instance of a rule that it completes. -/
theorem CompiledRule.fires_onTuple (fit : workspace.Fit program rules)
    (alive : workspace.model.isDead = false) (member : rule ∈ program.rules)
    (compiles : rule.Compiles workspace.store compiled) (seen_known : seen ⊆ workspace.model.known)
    (triggered : compiled.body.tupleTrigger? = some name)
    (known : .tuple name args ∈ workspace.model.known)
    (args_expand : workspace.store.Expands args terms) :
    Fires program rules (compiled.onTuple rules args) workspace fun other valuation =>
      other = rule ∧ rule.Involves workspace.store seen (.tuple name terms) valuation := by
  cases compiles with
  | unary => cases triggered
  | join premise_compiles conclusion_compiles =>
    obtain rfl := Option.some.inj triggered
    refine (fires_join_onTuple fit alive member premise_compiles conclusion_compiles
      (fit.compiles.linked _ member) known args_expand).mono ?_
    rintro other valuation ⟨rfl, body, inst, within, hmember⟩
    cases inst with
    | join binds denotes =>
      obtain ⟨handles, value, found, handles_expand, value_expands⟩ := exists_get?_of_mem_meaning
        seen_known (within _ (List.mem_cons_of_mem _ List.mem_cons_self))
      rcases List.mem_pair.1 hmember with heq | heq
      · obtain ⟨-, rfl⟩ := Atom.tuple.inj heq
        exact ⟨rfl, binds, handles, value, _, _, found, handles_expand, value_expands, denotes⟩
      · cases heq
  | run conclusion_compiles =>
    obtain rfl := Option.some.inj triggered
    refine (fires_run fit member conclusion_compiles known args_expand).mono ?_
    rintro other valuation ⟨rfl, body, inst, -, hmember⟩
    cases inst with
    | run yields hvaluation =>
      obtain ⟨-, rfl⟩ := Atom.tuple.inj (List.mem_singleton.1 hmember)
      exact ⟨rfl, _, yields, hvaluation⟩
  | runForFailure conclusion_compiles =>
    obtain rfl := Option.some.inj triggered
    refine (fires_runForFailure fit member conclusion_compiles known args_expand).mono ?_
    rintro other valuation ⟨rfl, body, inst, -, hmember⟩
    cases inst with
    | runForFailure yields binds =>
      obtain ⟨-, rfl⟩ := Atom.tuple.inj (List.mem_singleton.1 hmember)
      exact ⟨rfl, yields, binds⟩

theorem Saturating.each_map {α β : Type} (compute : β → Saturating Unit) (f : α → β)
    (members : List α) :
    each compute (members.map f) = each (fun member => compute (f member)) members := by
  induction members with
  | nil => rfl
  | cons member members ih => rw [List.map_cons, each, each, ih]

/-- Going through the compiled rules that are triggered, each beside the rule that it comes from,
fires what is wanted of any rule, if nothing is wanted of those that are not triggered. -/
theorem RuleSet.fires_each (fit : workspace.Fit program rules) (triggers : CompiledRule → Bool)
    {compute : CompiledRule → Saturating Unit} {wanted : Rule → Valuation → Prop}
    (fires : ∀ rule ∈ program.rules, ∀ compiled, triggers compiled = true → ∀ fired middle,
      Firings program rules workspace fired middle → middle.Fit program rules →
        rule.Compiles middle.store compiled → Fires program rules (compute compiled) middle
          fun other valuation => other = rule ∧ wanted rule valuation)
    (untriggered : ∀ rule compiled, rule.Compiles workspace.store compiled →
      triggers compiled = false → ∀ valuation, ¬wanted rule valuation) :
    Fires program rules (each compute (rules.rules.filter triggers)) workspace
      fun rule valuation => rule ∈ program.rules ∧ wanted rule valuation := by
  have length_le := fit.compiles.rules.length_eq.ge
  -- The compiled rules that are triggered, each beside the rule that it comes from.
  have unzipped : rules.rules.filter triggers =
      ((program.rules.zip rules.rules).filter fun pair => triggers pair.2).map Prod.snd := by
    conv => lhs; rw [← List.map_snd_zip length_le, List.filter_map]
    rfl
  rw [unzipped, each_map]
  have heach : Fires program rules _ workspace fun other valuation =>
      ∃ pair ∈ (program.rules.zip rules.rules).filter fun pair => triggers pair.2,
        other = pair.1 ∧ wanted pair.1 valuation :=
    Saturating.fires_each fit _ fun pair hpair fired middle firings hfit => by
      obtain ⟨hzip, triggered⟩ := List.mem_filter.1 hpair
      exact fires pair.1 (List.of_mem_zip hzip).1 pair.2 triggered fired middle firings hfit
        ((List.forall₂_zip fit.compiles.rules hzip).mono firings.extension)
  refine heach.mono ?_
  rintro rule valuation ⟨member, hwanted⟩
  obtain ⟨compiled, hzip⟩ := exists_mem_zip fit.compiles.rules member
  refine ⟨_, List.mem_filter.2 ⟨hzip, ?_⟩, rfl, hwanted⟩
  by_contra hnot
  exact untriggered _ _ (List.forall₂_zip fit.compiles.rules hzip) (Bool.not_eq_true _ ▸ hnot)
    valuation hwanted

/-- What a rule involves does not depend on how far the store has grown. -/
theorem Rule.Involves.mono {before after : Store} (extension : before.Extends after) {atom : Atom}
    {valuation : Valuation} (involves : rule.Involves before seen atom valuation) :
    rule.Involves after seen atom valuation := by
  obtain ⟨body, inst, within, member⟩ := involves
  refine ⟨body, inst, fun other hother => ?_, member⟩
  obtain ⟨news, hnews, reads⟩ := within other hother
  exact ⟨news, hnews, reads.mono extension⟩

/-- A rule that involves a fact is triggered by its predicate. -/
theorem Rule.Involves.factTrigger?_eq {store after : Store} {valuation : Valuation}
    (involves : rule.Involves store seen (.fact name terms term) valuation)
    (compiles : rule.Compiles after compiled) : compiled.body.factTrigger? = some name := by
  obtain ⟨body, inst, -, hmember⟩ := involves
  cases inst with
  | unary denotes =>
    obtain ⟨rfl, -, -⟩ := Atom.fact.inj (List.mem_singleton.1 hmember)
    cases compiles with
    | unary premise_compiles _ => exact congrArg some premise_compiles.name
  | join binds denotes =>
    rcases List.mem_pair.1 hmember with heq | heq
    · cases heq
    · obtain ⟨rfl, -, -⟩ := Atom.fact.inj heq
      cases compiles with
      | join premise_compiles _ => exact congrArg some premise_compiles.name
  | run | runForFailure => cases List.mem_singleton.1 hmember

/-- A rule that involves a tuple is triggered by its intermediate. -/
theorem Rule.Involves.tupleTrigger?_eq {store after : Store} {valuation : Valuation}
    (involves : rule.Involves store seen (.tuple name terms) valuation)
    (compiles : rule.Compiles after compiled) : compiled.body.tupleTrigger? = some name := by
  obtain ⟨body, inst, -, hmember⟩ := involves
  cases inst with
  | unary denotes => cases List.mem_singleton.1 hmember
  | join binds denotes =>
    rcases List.mem_pair.1 hmember with heq | heq
    · obtain ⟨rfl, -⟩ := Atom.tuple.inj heq
      cases compiles with
      | join => rfl
    · cases heq
  | run =>
    obtain ⟨rfl, -⟩ := Atom.tuple.inj (List.mem_singleton.1 hmember)
    cases compiles with
    | run => rfl
  | runForFailure =>
    obtain ⟨rfl, -⟩ := Atom.tuple.inj (List.mem_singleton.1 hmember)
    cases compiles with
    | runForFailure => rfl

/-- **A piece of news fires every instance that it completes** together with atoms that are
known. -/
theorem News.fires_propagate (fit : workspace.Fit program rules)
    (seen_known : seen ⊆ workspace.model.known) {news : News}
    (known : news ∈ workspace.model.known) {atom : Atom} (reads : news.Reads workspace.store atom) :
    Fires program rules (news.propagate rules) workspace fun rule valuation =>
      rule ∈ program.rules ∧ rule.Involves workspace.store seen atom valuation := by
  cases reads with
  | fact args_expand value_expands =>
    refine RuleSet.fires_each fit _ ?_ ?_
    · intro rule member compiled triggered fired middle firings hfit compiles
      refine fires_ifAlive hfit.sound ?_
      intro survives
      have hknown := (firings.evolves fit survives).known
      refine (compiled.fires_onFact hfit survives member compiles (seen_known.trans hknown)
        (beq_iff_eq.1 triggered) (hknown known) (firings.extension.expands args_expand)
        (firings.extension.expand value_expands)).mono ?_
      rintro other valuation ⟨rfl, involves⟩
      exact ⟨rfl, involves.mono firings.extension⟩
    · intro rule compiled compiles untriggered valuation involves
      simp [involves.factTrigger?_eq compiles] at untriggered
  | tuple args_expand =>
    refine RuleSet.fires_each fit _ ?_ ?_
    · intro rule member compiled triggered fired middle firings hfit compiles
      refine fires_ifAlive hfit.sound ?_
      intro survives
      have hknown := (firings.evolves fit survives).known
      refine (compiled.fires_onTuple hfit survives member compiles (seen_known.trans hknown)
        (beq_iff_eq.1 triggered) (hknown known) (firings.extension.expands args_expand)).mono ?_
      rintro other valuation ⟨rfl, involves⟩
      exact ⟨rfl, involves.mono firings.extension⟩
    · intro rule compiled compiles untriggered valuation involves
      simp [involves.tupleTrigger?_eq compiles] at untriggered

end Triggers

/-! ### Steps -/

theorem Workspace.Fit.dropNews {program : Program} {rules : RuleSet} {model : PartialModel}
    {store : Store} (fit : Workspace.Fit program rules ⟨model, store⟩) (agenda : List News) :
    Workspace.Fit program rules ⟨{ model with agenda := agenda }, store⟩ := by
  refine ⟨fit.sound, fit.compiles, ?_⟩
  intro alive
  have readable := fit.readable alive
  exact ⟨⟨readable.sound.database, readable.sound.ordered, readable.sound.tries⟩, readable.tuples,
    readable.constrained, readable.choices⟩

/-- **A step of saturation** takes the oldest news off the agenda and is a sequence of firings,
among them all instances that the news completes together with atoms that are known. Whether it
succeeds or not, the store stays sound and is extended. -/
theorem Saturating.ensures_step {program : Program} {rules : RuleSet} {model : PartialModel}
    {store : Store} (fit : Workspace.Fit program rules ⟨model, store⟩)
    (alive : model.isDead = false)
    {news : News} {agenda : List News} (pending : model.agenda = news :: agenda)
    (known : news ∈ model.known) {atom : Atom} (reads : news.Reads store atom) {seen : Set News}
    (seen_known : seen ⊆ model.known) :
    Ensures (step rules) ⟨model, store⟩ fun _ after => ∃ fired,
      Firings program rules ⟨{ model with agenda := agenda }, store⟩ fired after ∧
        (after.model.isDead = false → ∀ rule ∈ program.rules, ∀ valuation,
          rule.Involves store seen atom valuation →
            ∃ least, (rule, least) ∈ fired ∧ least.Within valuation) := by
  have hpropagate := News.fires_propagate (fit.dropNews agenda) seen_known known reads
  have unfolded : step rules ⟨model, store⟩ =
      (do news.propagate rules; pure true : Saturating Bool)
        ⟨{ model with agenda := agenda }, store⟩ := by
    rw [step, alive, pending]
    rfl
  rw [Ensures, StableModels.Ensures, unfolded]
  refine StableModels.Ensures.bind hpropagate ?_
  rintro - after sound - ⟨fired, firings, covered⟩
  refine .pure sound ⟨fired, firings, ?_⟩
  intro survives rule member valuation involves
  exact covered survives rule valuation ⟨member, involves⟩

end StableModels
