import StableModels.Proofs.Saturation

/-!
# Joins from either side

A join is triggered by whichever of its two sides comes last. If it is the fact, then the whole
premise is matched first and the tuples that continue its shared arguments are bound after it. If it
is the tuple, then all its members are bound first and what the database lists behind the shared
arguments is matched after them. Both ways end with the least substitution under which tuple and
fact meet (`StableModels.Substitution.Solves`), and there is only one such substitution, because a
substitution has room for all slots of its rule and binding makes no more room.

So the order does not matter for what a tuple and a fact *bind*
(`StableModels.Join.Suits.factFirst_eq_tupleFirst`). It does matter for which pairs are found. The
database lists a fact of more arguments than the premise has as if it ended early, with an argument
in the place of the value; the fact itself, when it is propagated, does not match. The rule fires
alike from either side for all other facts (`StableModels.Crossing.alike`), and the difference is
seen in a program of three rules (`StableModels.not_forall_crossing_alike`).
-/

namespace StableModels

/-! ### Room for slots -/

namespace Substitution

variable {store first second more : Store} {substitution other : Substitution}

/-- Binding a slot that there is room for makes no more room. -/
theorem length_bind {slot : Nat} (handle : Handle) (room : slot < substitution.bindings.length) :
    (substitution.bind slot handle).2.bindings.length = substitution.bindings.length := by
  rw [bind]
  split
  · rfl
  · rw [List.length_set, widen, List.length_append, List.length_replicate]
    omega

theorem length_bindAll {slots : List Nat} (handles : List Handle)
    (room : ∀ slot ∈ slots, slot < substitution.bindings.length) :
    (substitution.bindAll slots handles).2.bindings.length = substitution.bindings.length := by
  induction slots generalizing handles substitution with
  | nil => cases handles <;> rfl
  | cons slot slots ih =>
    cases handles with
    | nil => rfl
    | cons handle handles =>
      have hfirst := length_bind handle (room slot List.mem_cons_self)
      rw [bindAll]
      split
      · next middle hbind =>
        rw [hbind] at hfirst
        rw [ih _ fun other member => hfirst ▸ room other (List.mem_cons_of_mem _ member), hfirst]
      · next middle hbind =>
        rw [hbind] at hfirst
        exact hfirst

theorem length_bindTuple? {slots : List Nat} {handles : List Handle}
    (room : ∀ slot ∈ slots, slot < substitution.bindings.length)
    (bound : substitution.bindTuple? slots handles = some other) :
    other.bindings.length = substitution.bindings.length := by
  have length_eq := length_bindAll handles room
  rw [bindTuple?_eq_some_iff.1 bound] at length_eq
  exact length_eq

mutual

theorem length_matchTerm : {compiled : CompiledPattern} → {pattern : Pattern} →
    {substitution : Substitution} → Compiles store pattern compiled → (handle : Handle) →
      (∀ slot ∈ pattern.slots, slot < substitution.bindings.length) →
        (substitution.matchTerm store compiled handle).2.bindings.length =
          substitution.bindings.length
  | .term _, _, _, .ground _ _, _, _ => by rw [matchTerm]
  | .var slot, _, _, .var _, handle, room => by
    rw [matchTerm]
    exact length_bind handle (room slot (List.mem_singleton.2 rfl))
  | .wildcard, _, _, .wildcard, _, _ => by rw [matchTerm]
  | .const _ _, _, _, .const args_compile, handle, room => by
    rw [matchTerm]
    split
    · split
      · exact length_matchEach args_compile _ room
      · rfl
    · rfl

theorem length_matchEach : {compiled : List CompiledPattern} → {patterns : List Pattern} →
    {substitution : Substitution} → CompilesAll store patterns compiled →
      (handles : List Handle) →
        (∀ slot ∈ Pattern.slotsOf patterns, slot < substitution.bindings.length) →
          (substitution.matchEach store compiled handles).2.bindings.length =
            substitution.bindings.length
  | [], _, _, .nil, _, _ => by rw [matchEach]
  | _ :: _, _, _, .cons _ _, [], _ => by rw [matchEach]
  | _ :: _, _, substitution, .cons compiles rest, handle :: handles, room => by
    have hfirst := length_matchTerm compiles handle
      fun slot member => room slot (List.mem_append_left _ member)
    rw [matchEach]
    split
    · next middle hmatch =>
      rw [hmatch] at hfirst
      rw [length_matchEach rest handles fun slot member =>
        hfirst ▸ room slot (List.mem_append_right _ member), hfirst]
    · next middle hmatch =>
      rw [hmatch] at hfirst
      exact hfirst

end

theorem length_matchAll {compiled : List CompiledPattern} {patterns : List Pattern}
    (compiles : CompilesAll store patterns compiled) (handles : List Handle)
    (room : ∀ slot ∈ Pattern.slotsOf patterns, slot < substitution.bindings.length) :
    (substitution.matchAll store compiled handles).2.bindings.length =
      substitution.bindings.length := by
  rw [matchAll]
  split
  · exact length_matchEach compiles handles room
  · rfl

/-- Substitutions with as much room that bind the same slots to the same terms are equal. -/
theorem eq_of_get? (room : substitution.bindings.length = other.bindings.length)
    (same : ∀ slot, substitution.get? slot = other.get? slot) : substitution = other := by
  obtain ⟨bindings⟩ := substitution
  obtain ⟨bindings'⟩ := other
  congr 1
  refine List.ext_getElem room fun slot lt lt' => ?_
  have heq := same slot
  simpa [get?, lt, lt'] using heq

/-- **Substitutions that say the same** about terms, each in its own store, are equal if they have
as much room. -/
theorem eq_of_valuation_eq (sound : more.Sound) (extension : first.Extends more)
    (extension' : second.Extends more) (known : substitution.Known first)
    (known' : other.Known second) (room : substitution.bindings.length = other.bindings.length)
    (same : substitution.valuation first = other.valuation second) : substitution = other := by
  rw [← known.valuation_eq extension, ← known'.valuation_eq extension'] at same
  refine eq_of_get? room fun slot => Option.ext fun handle => ?_
  have read {one two : Substitution} (hone : one.Known more)
      (heq : one.valuation more = two.valuation more) (bound : one.get? slot = some handle) :
      two.get? slot = some handle := by
    obtain ⟨term, expands⟩ := hone slot handle bound
    have hterm := valuation_eq_some_iff.2 ⟨handle, bound, expands⟩
    rw [heq] at hterm
    obtain ⟨handle', bound', expands'⟩ := valuation_eq_some_iff.1 hterm
    rwa [sound.expand_injective expands expands']
  exact ⟨read (known.mono extension) same, read (known'.mono extension') same.symm⟩

/-! ### Matching in a store that has grown -/

mutual

/-- A match does not depend on what has been added to the store. -/
theorem matchTerm_of_extends (sound : store.Sound) (extension : store.Extends more) :
    (compiled : CompiledPattern) → {handle : Handle} → {term : Term} →
      store.expand handle = some term → (substitution : Substitution) →
        substitution.matchTerm more compiled handle = substitution.matchTerm store compiled handle
  | .term _, _, _, _, _ | .wildcard, _, _, _, _ | .var _, _, _, _, _ => by rw [matchTerm, matchTerm]
  | .const name compiled, handle, term, expanded, substitution => by
    obtain ⟨shape, found, hshape⟩ := sound.exists_shape? expanded
    rw [matchTerm, matchTerm, found, extension _ _ found]
    cases shape with
    | const actual handles =>
      obtain ⟨terms, hterms, rfl⟩ := Option.map_eq_some_iff.1 hshape
      simp only [matchEach_of_extends sound extension compiled
        (Store.mapM_expand_eq_some_iff.1 hterms) substitution]
    | _ => rfl

theorem matchEach_of_extends (sound : store.Sound) (extension : store.Extends more) :
    (compiled : List CompiledPattern) → {handles : List Handle} → {terms : List Term} →
      store.Expands handles terms → (substitution : Substitution) →
        substitution.matchEach more compiled handles = substitution.matchEach store compiled handles
  | [], _, _, _, _ => by rw [matchEach, matchEach]
  | _ :: _, [], _, _, _ => by rw [matchEach, matchEach]
  | first :: rest, handle :: handles, _, .cons expanded hrest, substitution => by
    rw [matchEach, matchEach, matchTerm_of_extends sound extension first expanded substitution]
    split
    · exact matchEach_of_extends sound extension rest hrest _
    · rfl

end

end Substitution

theorem CompiledPremise.matchRest?_of_extends {store more : Store} (sound : store.Sound)
    (extension : store.Extends more) (premise : CompiledPremise) (shared : Nat)
    (substitution : Substitution) {completion : List Handle} {terms : List Term}
    (expands : store.Expands completion terms) :
    premise.matchRest? more shared substitution completion =
      premise.matchRest? store shared substitution completion := by
  rcases List.eq_nil_or_concat completion with rfl | ⟨rest, last, rfl⟩
  · rfl
  · rw [List.concat_eq_append] at expands ⊢
    obtain ⟨others, final, -, rest_expands, last_expands⟩ := expands.exists_of_append
    obtain _ | ⟨last_expands, -⟩ := last_expands
    simp only [matchRest?, List.getLast?_concat, List.dropLast_concat, Substitution.matchAll,
      Substitution.matchEach_of_extends sound extension _ rest_expands,
      Substitution.matchTerm_of_extends sound extension _ last_expands]

/-! ### Premises and their room -/

namespace Pattern

theorem slotsOf_eq_flatMap (patterns : List Pattern) :
    slotsOf patterns = patterns.flatMap slots := by
  induction patterns with
  | nil => rfl
  | cons pattern patterns ih => rw [slotsOf, List.flatMap_cons, ih]

theorem slotsOf_drop_subset (patterns : List Pattern) (count : Nat) :
    slotsOf (patterns.drop count) ⊆ slotsOf patterns := by
  rw [slotsOf_eq_flatMap, slotsOf_eq_flatMap]
  intro slot member
  obtain ⟨pattern, hpattern, hslot⟩ := List.mem_flatMap.1 member
  exact List.mem_flatMap.2 ⟨pattern, List.mem_of_mem_drop hpattern, hslot⟩

end Pattern

theorem Premise.mem_slots_iff {premise : Premise} {slot : Nat} :
    slot ∈ premise.slots ↔ slot ∈ Pattern.slotsOf premise.args ∨ slot ∈ premise.value.slots := by
  rw [slots, patterns, List.flatMap_append, List.flatMap_singleton, List.mem_append,
    Pattern.slotsOf_eq_flatMap]

namespace CompiledPremise

variable {store : Store} {premise : Premise} {compiled : CompiledPremise} {slots : Nat}
  {args : List Handle} {value : Handle} {substitution after : Substitution}

theorem length_match? (compiles : premise.Compiles store compiled)
    (room : ∀ slot ∈ premise.slots, slot < slots)
    (matched : compiled.match? store slots args value = some after) :
    args.length = premise.args.length ∧ after.bindings.length = slots := by
  have hblank : (Substitution.blank slots).bindings.length = slots := List.length_replicate
  rw [match?] at matched
  split at matched
  · cases matched
  next middle hargs =>
  split at matched
  · cases matched
  next last hvalue =>
  obtain rfl := Option.some.inj matched
  have hmiddle := Substitution.length_matchAll compiles.args args fun slot member =>
    hblank.symm ▸ room slot (Premise.mem_slots_iff.2 (Or.inl member))
  rw [hargs, hblank] at hmiddle
  have hlast := Substitution.length_matchTerm compiles.value value fun slot member =>
    hmiddle.symm ▸ room slot (Premise.mem_slots_iff.2 (Or.inr member))
  rw [hvalue] at hlast
  refine ⟨?_, hlast.trans hmiddle⟩
  rw [Substitution.matchAll] at hargs
  split at hargs
  · next length_eq => rw [← length_eq, compiles.args.length_eq]
  · cases hargs

theorem length_matchRest? (compiles : premise.Compiles store compiled) {shared : Nat}
    {completion : List Handle}
    (room : ∀ slot ∈ premise.slots, slot < substitution.bindings.length)
    (matched : compiled.matchRest? store shared substitution completion = some after) :
    after.bindings.length = substitution.bindings.length := by
  rw [matchRest?] at matched
  split at matched
  · cases matched
  next last _ =>
  split at matched
  · cases matched
  next middle hargs =>
  split at matched
  · cases matched
  next final hvalue =>
  obtain rfl := Option.some.inj matched
  have hmiddle := Substitution.length_matchAll (List.forall₂_drop shared compiles.args)
    completion.dropLast fun slot member =>
      room slot (Premise.mem_slots_iff.2 (Or.inl (Pattern.slotsOf_drop_subset _ _ member)))
  rw [hargs] at hmiddle
  have hlast := Substitution.length_matchTerm compiles.value last fun slot member =>
    hmiddle.symm ▸ room slot (Premise.mem_slots_iff.2 (Or.inr member))
  rw [hvalue] at hlast
  exact hlast.trans hmiddle

end CompiledPremise

/-! ### Least substitutions -/

theorem Valuation.Within.antisymm {first second : Valuation} (within : first.Within second)
    (within' : second.Within first) : first = second := by
  funext slot
  exact Option.ext fun term => ⟨within slot term, within' slot term⟩

namespace Substitution

/-- The answer is the least of the substitutions, with room for so many slots, that have the
property, and there is none only if no valuation has it. -/
structure Solves (store : Store) (slots : Nat) (wanted : Valuation → Prop)
    (answer : Option Substitution) : Prop where
  /-- An answer has the property. -/
  sound : ∀ substitution, answer = some substitution → substitution.Known store ∧
    wanted (substitution.valuation store) ∧ substitution.bindings.length = slots
  /-- An answer is found below every valuation that has it. -/
  complete : ∀ valuation, wanted valuation →
    ∃ substitution, answer = some substitution ∧ (substitution.valuation store).Within valuation

/-- **Two ways to the least substitution**, each in its own store, end with the same one. -/
theorem Solves.eq {first second more : Store} {slots : Nat} {wanted : Valuation → Prop}
    {answer answer' : Option Substitution} (solves : Solves first slots wanted answer)
    (solves' : Solves second slots wanted answer') (sound : more.Sound)
    (extension : first.Extends more) (extension' : second.Extends more) : answer = answer' := by
  have same {substitution other : Substitution} (hfirst : answer = some substitution)
      (hsecond : answer' = some other) : substitution = other := by
    obtain ⟨known, wants, room⟩ := solves.sound _ hfirst
    obtain ⟨known', wants', room'⟩ := solves'.sound _ hsecond
    obtain ⟨least, hleast, within⟩ := solves.complete _ wants'
    obtain ⟨least', hleast', within'⟩ := solves'.complete _ wants
    obtain rfl := Option.some.inj (hfirst.symm.trans hleast)
    obtain rfl := Option.some.inj (hsecond.symm.trans hleast')
    exact eq_of_valuation_eq sound extension extension' known known' (room.trans room'.symm)
      (within.antisymm within')
  refine Option.ext fun substitution => ⟨fun hfirst => ?_, fun hsecond => ?_⟩
  · obtain ⟨other, hother, -⟩ := solves'.complete _ (solves.sound _ hfirst).2.1
    rw [same hfirst hother, hother]
  · obtain ⟨other, hother, -⟩ := solves.complete _ (solves'.sound _ hsecond).2.1
    rw [← same hother hsecond, hother]

end Substitution

/-! ### Compiled joins -/

/-- A compiled join. -/
structure Join where
  /-- The number of slots that a substitution has room for. -/
  slots : Nat
  /-- The intermediate. -/
  intermediate : String
  /-- The slots that a tuple of the intermediate binds. -/
  vars : List Nat
  /-- The number of leading arguments that tuple and fact have in common. -/
  shared : Nat
  /-- What the fact looks like. -/
  premise : CompiledPremise

/-- The rule as a join, if it is one. -/
def CompiledRule.join? (rule : CompiledRule) : Option Join :=
  match rule.body with
  | .join intermediate vars shared premise =>
    some ⟨rule.slots, intermediate, vars, shared, premise⟩
  | _ => none

namespace Join

/-- The bindings under which a fact joins with a tuple that goes on like this behind the shared
arguments, the fact first. -/
def factFirst (store : Store) (join : Join) (args : List Handle) (value : Handle)
    (rest : List Handle) : Option Substitution :=
  (join.premise.match? store join.slots args value).bind
    (·.bindTuple? (join.vars.drop join.shared) rest)

/-- The bindings under which a tuple joins with a fact that goes on like this behind the shared
arguments, the tuple first. -/
def tupleFirst (store : Store) (join : Join) (tuple completion : List Handle) :
    Option Substitution :=
  ((Substitution.blank join.slots).bindTuple? join.vars tuple).bind fun substitution =>
    join.premise.matchRest? store join.shared substitution completion

/-- **What a new fact joins with**: the tuples, each with the bindings under which the rule fires,
in the order in which it fires. -/
def ofFact (workspace : Workspace) (join : Join) (args : List Handle) (value : Handle) :
    List (List Handle × Substitution) :=
  (workspace.model.completions join.intermediate (args.take join.shared)
      (join.vars.length - join.shared)).filterMap fun rest =>
    (join.factFirst workspace.store args value rest).map
      (Prod.mk (args.take join.shared ++ rest))

/-- **What a new tuple joins with**: arguments followed by what is taken for their value, each with
the bindings under which the rule fires, in the order in which it fires. -/
def ofTuple (workspace : Workspace) (join : Join) (tuple : List Handle) :
    List (List Handle × Substitution) :=
  (workspace.model.database.visit join.premise.name (tuple.take join.shared)
      (join.premise.args.length - join.shared + 1)).filterMap fun completion =>
    (join.tupleFirst workspace.store tuple completion).map
      (Prod.mk (tuple.take join.shared ++ completion))

/-- The join is that of a rule with this premise, compiled in the store. -/
structure Suits (store : Store) (premise : Premise) (join : Join) : Prop where
  /-- The premise is compiled. -/
  premise_compiles : premise.Compiles store join.premise
  /-- No more arguments are shared than the tuple has. -/
  shared_le : join.shared ≤ join.vars.length
  /-- No more arguments are shared than the fact has. -/
  shared_le' : join.shared ≤ premise.args.length
  /-- The shared arguments are the variables of the first slots. -/
  linked : premise.args.take join.shared = (join.vars.take join.shared).map Pattern.var
  /-- There is room for all slots of the tuple. -/
  room : ∀ slot ∈ join.vars, slot < join.slots
  /-- There is room for all slots of the fact. -/
  room' : ∀ slot ∈ premise.slots, slot < join.slots

variable {store more : Store} {premise : Premise} {join : Join} {args tuple rest : List Handle}
  {value : Handle} {terms others : List Term} {term : Term}

theorem Suits.mono (extension : store.Extends more) (suits : join.Suits store premise) :
    join.Suits more premise :=
  { suits with premise_compiles := suits.premise_compiles.mono extension }

theorem Suits.length_args (suits : join.Suits store premise) :
    join.premise.args.length = premise.args.length :=
  suits.premise_compiles.args.length_eq.symm

/-- Under the valuation the join has an instance with this tuple and this fact. -/
def Meets (premise : Premise) (join : Join) (others terms : List Term) (term : Term)
    (valuation : Valuation) : Prop :=
  join.vars.map valuation = others.map some ∧ premise.Denotes valuation terms term

theorem take_eq_of_shares (join : Join) (tuple_expand : store.Expands tuple others)
    (args_expand : store.Expands args terms)
    (shares : tuple.take join.shared = args.take join.shared) :
    others.take join.shared = terms.take join.shared := by
  have hargs := List.forall₂_take join.shared args_expand
  rw [← shares] at hargs
  exact Store.Expands.unique (List.forall₂_take join.shared tuple_expand) hargs

/-- With the shared arguments in common, it is enough that the other arguments can be read. -/
theorem Suits.denoteAll (suits : join.Suits store premise) {valuation : Valuation}
    (binds : join.vars.map valuation = others.map some)
    (shares : others.take join.shared = terms.take join.shared)
    (denote : Pattern.DenoteAll valuation (premise.args.drop join.shared)
      (terms.drop join.shared)) : Pattern.DenoteAll valuation premise.args terms := by
  rw [← List.take_append_drop join.shared premise.args,
    ← List.take_append_drop join.shared terms, suits.linked, Pattern.denoteAll_iff]
  refine List.rel_append ?_ (Pattern.denoteAll_iff.1 denote)
  rw [← Pattern.denoteAll_iff, Pattern.denoteAll_map_var, List.map_take, binds, List.map_take,
    ← List.map_take, shares, List.map_take]

/-- **The fact first**: what the premise and then the rest of the tuple bind is the least
substitution under which tuple and fact meet. -/
theorem Suits.solves_factFirst (suits : join.Suits store premise) (sound : store.Sound)
    (tuple_expand : store.Expands tuple others) (args_expand : store.Expands args terms)
    (value_expands : store.expand value = some term)
    (shares : tuple.take join.shared = args.take join.shared) :
    Substitution.Solves store join.slots (join.Meets premise others terms term)
      (join.factFirst store args value (tuple.drop join.shared)) where
  sound := by
    intro substitution answer
    obtain ⟨middle, matched, bound⟩ := Option.bind_eq_some_iff.1 answer
    obtain ⟨-, room⟩ := CompiledPremise.length_match? suits.premise_compiles suits.room' matched
    obtain ⟨known, denotes⟩ := CompiledPremise.match?_sound sound suits.premise_compiles
      args_expand value_expands matched
    have rest_expand := List.forall₂_drop join.shared tuple_expand
    obtain ⟨known', within, agrees⟩ := Substitution.bindTuple?_sound known rest_expand bound
    have hdenotes : premise.Denotes (substitution.valuation store) terms term :=
      ⟨denotes.1.mono within, denotes.2.mono within⟩
    have hroom (slot : Nat) (member : slot ∈ join.vars.drop join.shared) :
        slot < middle.bindings.length := room.symm ▸ suits.room slot (List.mem_of_mem_drop member)
    refine ⟨known', ⟨?_, hdenotes⟩, (Substitution.length_bindTuple? hroom bound).trans room⟩
    -- The shared slots were bound by the premise, to the terms of the fact.
    have hshared := map_take_of_denoteAll suits.linked hdenotes.1
    have htake := join.take_eq_of_shares tuple_expand args_expand shares
    rw [← htake] at hshared
    rw [← List.take_append_drop join.shared join.vars,
      ← List.take_append_drop join.shared others, List.map_append, List.map_append, hshared,
      agrees]
  complete := by
    rintro valuation ⟨binds, denotes⟩
    obtain ⟨middle, matched, within⟩ := CompiledPremise.match?_complete sound join.slots
      suits.premise_compiles args_expand value_expands denotes
    obtain ⟨known, -⟩ := CompiledPremise.match?_sound sound suits.premise_compiles
      args_expand value_expands matched
    have agrees : (join.vars.drop join.shared).map valuation =
        (others.drop join.shared).map some := by rw [List.map_drop, binds, List.map_drop]
    rw [factFirst, matched]
    exact Substitution.bindTuple?_complete sound known within
      (List.forall₂_drop join.shared tuple_expand) agrees

/-- **The tuple first**: what the tuple and then the rest of the premise bind is the least
substitution under which tuple and fact meet. -/
theorem Suits.solves_tupleFirst (suits : join.Suits store premise) (sound : store.Sound)
    (tuple_expand : store.Expands tuple others) (args_expand : store.Expands args terms)
    (value_expands : store.expand value = some term)
    (shares : tuple.take join.shared = args.take join.shared) :
    Substitution.Solves store join.slots (join.Meets premise others terms term)
      (join.tupleFirst store tuple (args.drop join.shared ++ [value])) where
  sound := by
    intro substitution answer
    obtain ⟨middle, bound, matched⟩ := Option.bind_eq_some_iff.1 answer
    have hblank : (Substitution.blank join.slots).bindings.length = join.slots :=
      List.length_replicate
    obtain ⟨known, binds⟩ := Substitution.bindTuple?_blank_sound tuple_expand bound
    have hroom (slot : Nat) (member : slot ∈ join.vars) :
        slot < (Substitution.blank join.slots).bindings.length :=
      hblank.symm ▸ suits.room slot member
    have room := (Substitution.length_bindTuple? hroom bound).trans hblank
    obtain ⟨known', within, denote, value_denotes⟩ :=
      CompiledPremise.matchRest?_sound sound suits.premise_compiles known
        (List.forall₂_drop join.shared args_expand) value_expands matched
    have binds' := within.map_eq binds
    have htake := join.take_eq_of_shares tuple_expand args_expand shares
    have hlength := CompiledPremise.length_matchRest? suits.premise_compiles
      (fun slot member => room.symm ▸ suits.room' slot member) matched
    exact ⟨known', ⟨binds', suits.denoteAll binds' htake denote, value_denotes⟩,
      hlength.trans room⟩
  complete := by
    rintro valuation ⟨binds, denotes⟩
    obtain ⟨middle, bound, within⟩ :=
      Substitution.bindTuple?_blank_complete sound join.slots tuple_expand binds
    obtain ⟨known, -⟩ := Substitution.bindTuple?_blank_sound tuple_expand bound
    have denote := List.forall₂_drop join.shared (Pattern.denoteAll_iff.1 denotes.1)
    obtain ⟨after, matched, within'⟩ := CompiledPremise.matchRest?_complete sound
      suits.premise_compiles known within (List.forall₂_drop join.shared args_expand) value_expands
      (Pattern.denoteAll_iff.2 denote) denotes.2
    rw [tupleFirst, bound]
    exact ⟨after, matched, within'⟩

/-! ### What joins -/

variable {workspace : Workspace} {substitution : Substitution} {reading : List Handle}

/-- A fact and the rest of a tuple that join have the lengths that the join asks for. -/
theorem Suits.length_of_factFirst (suits : join.Suits store premise)
    (answer : join.factFirst store args value rest = some substitution) :
    args.length = premise.args.length ∧ rest.length = join.vars.length - join.shared := by
  obtain ⟨middle, matched, bound⟩ := Option.bind_eq_some_iff.1 answer
  have length_eq := Substitution.length_eq_of_bindTuple? bound
  rw [List.length_drop] at length_eq
  exact ⟨(CompiledPremise.length_match? suits.premise_compiles suits.room' matched).1, length_eq⟩

/-- A tuple that joins behind the arguments that it shares has as many members as it has slots. -/
theorem Suits.length_of_shares (suits : join.Suits store premise)
    (shares : tuple.take join.shared = args.take join.shared)
    (answer : join.factFirst store args value (tuple.drop join.shared) = some substitution) :
    tuple.length = join.vars.length := by
  obtain ⟨hargs, hrest⟩ := suits.length_of_factFirst answer
  have hshared := congrArg List.length shares
  rw [List.length_take, List.length_take, hargs] at hshared
  rw [List.length_drop] at hrest
  have shared_le := suits.shared_le
  have shared_le' := suits.shared_le'
  omega

/-- A fact joins with the derived tuples that share its first arguments. -/
theorem Suits.mem_ofFact (suits : join.Suits workspace.store premise)
    (sound : workspace.model.Sound) :
    (tuple, substitution) ∈ join.ofFact workspace args value ↔
      workspace.model.derives join.intermediate tuple = true ∧
        tuple.length = join.vars.length ∧ tuple.take join.shared = args.take join.shared ∧
          join.factFirst workspace.store args value (tuple.drop join.shared) =
            some substitution := by
  simp only [ofFact, List.mem_filterMap, Option.map_eq_some_iff, Prod.mk.injEq]
  constructor
  · rintro ⟨rest, member, joined, answer, rfl, rfl⟩
    obtain ⟨length_eq, derived⟩ := sound.mem_completions.1 member
    have hargs := (suits.length_of_factFirst answer).1
    have htake : (args.take join.shared).length = join.shared :=
      List.length_take_of_le (hargs.symm ▸ suits.shared_le')
    refine ⟨derived, ?_, ?_, ?_⟩
    · rw [List.length_append, htake, length_eq]
      exact Nat.add_sub_cancel' suits.shared_le
    · rw [List.take_append_of_le_length htake.ge, List.take_take, Nat.min_self]
    · rw [List.drop_left' htake]
      exact answer
  · rintro ⟨derived, length_eq, shares, answer⟩
    refine ⟨tuple.drop join.shared, sound.mem_completions.2 ⟨?_, ?_⟩, _, answer, ?_, rfl⟩
    · rw [List.length_drop, length_eq]
    · rwa [← shares, List.take_append_drop]
    · rw [← shares, List.take_append_drop]

/-- A tuple joins with the arguments that share its first members and the handle behind them: the
value, if the tuple of these arguments is fixed, and one more argument, if it has more of them. -/
theorem Suits.mem_ofTuple (suits : join.Suits workspace.store premise)
    (sound : workspace.model.database.Sound) :
    (reading, substitution) ∈ join.ofTuple workspace tuple ↔
      ∃ start last, reading = start ++ [last] ∧ start.length = premise.args.length ∧
        tuple.length = join.vars.length ∧ tuple.take join.shared = start.take join.shared ∧
          (workspace.model.database.get? join.premise.name start = some (.just last) ∨
            ∃ more constraint, workspace.model.database.get? join.premise.name
              (start ++ last :: more) = some constraint) ∧
            join.tupleFirst workspace.store tuple (start.drop join.shared ++ [last]) =
              some substitution := by
  simp only [ofTuple, List.mem_filterMap, Option.map_eq_some_iff, Prod.mk.injEq, sound.mem_visit]
  constructor
  · rintro ⟨completion, ⟨rest, last, rfl, hrest, found⟩, joined, answer, rfl, rfl⟩
    obtain ⟨middle, bound, -⟩ := Option.bind_eq_some_iff.1 answer
    have length_eq := Substitution.length_eq_of_bindTuple? bound
    have htake : (tuple.take join.shared).length = join.shared :=
      List.length_take_of_le (length_eq.symm ▸ suits.shared_le)
    refine ⟨tuple.take join.shared ++ rest, last, (List.append_assoc ..).symm, ?_, length_eq, ?_,
      found, ?_⟩
    · rw [List.length_append, htake, hrest, suits.length_args]
      exact Nat.add_sub_cancel' suits.shared_le'
    · rw [List.take_append_of_le_length htake.ge, List.take_take, Nat.min_self]
    · rw [List.drop_left' htake]
      exact answer
  · rintro ⟨start, last, rfl, hstart, length_eq, shares, found, answer⟩
    refine ⟨start.drop join.shared ++ [last], ⟨_, _, rfl, ?_, ?_⟩, _, answer, ?_, rfl⟩
    · rw [List.length_drop, hstart, suits.length_args]
    · rwa [shares, List.take_append_drop]
    · rw [shares, ← List.append_assoc, List.take_append_drop]

/-- **The order does not matter** for what a tuple and a fact bind. -/
theorem Suits.factFirst_eq_tupleFirst {first second : Store} (suits : join.Suits first premise)
    (suits' : join.Suits second premise) (first_sound : first.Sound) (second_sound : second.Sound)
    (sound : more.Sound) (extension : first.Extends more) (extension' : second.Extends more)
    (tuple_expand : first.Expands tuple others) (args_expand : first.Expands args terms)
    (value_expands : first.expand value = some term)
    (tuple_expand' : ∃ others, second.Expands tuple others)
    (args_expand' : ∃ terms, second.Expands args terms)
    (value_expands' : ∃ term, second.expand value = some term)
    (shares : tuple.take join.shared = args.take join.shared) :
    join.factFirst first args value (tuple.drop join.shared) =
      join.tupleFirst second tuple (args.drop join.shared ++ [value]) := by
  -- Both stores read the same terms, because a larger one does.
  obtain ⟨others', tuple_expand'⟩ := tuple_expand'
  obtain ⟨terms', args_expand'⟩ := args_expand'
  obtain ⟨term', value_expands'⟩ := value_expands'
  obtain rfl := (extension.expands tuple_expand).unique (extension'.expands tuple_expand')
  obtain rfl := (extension.expands args_expand).unique (extension'.expands args_expand')
  obtain rfl := Option.some.inj ((extension.expand value_expands).symm.trans
    (extension'.expand value_expands'))
  have hfirst := suits.solves_factFirst first_sound tuple_expand args_expand value_expands shares
  have hsecond :=
    suits'.solves_tupleFirst second_sound tuple_expand' args_expand' value_expands' shares
  exact hfirst.eq hsecond sound extension extension'

end Join

/-! ### The rules as they fire -/

namespace Saturating

/-- Members for which there is nothing to do may be left out. -/
theorem each_filterMap {α β : Type} (f : α → Option β) (compute : β → Saturating Unit)
    (members : List α) :
    each compute (members.filterMap f) = each (fun member =>
      match f member with
      | none => pure ()
      | some found => compute found) members := by
  induction members with
  | nil => rfl
  | cons member members ih =>
    rw [List.filterMap_cons, each]
    cases f member with
    | none => exact ih
    | some found => rw [each, ih]

theorem each_pure {α : Type} (members : List α) :
    each (fun _ => pure ()) members = pure () := by
  induction members with
  | nil => rfl
  | cons member members ih => rw [each, ih]; rfl

/-- Computations that do the same as long as something holds, and keep it. -/
theorem each_congr {α : Type} {P : Workspace → Prop} {compute compute' : α → Saturating Unit}
    {members : List α} {workspace : Workspace} (holds : P workspace)
    (same : ∀ member ∈ members, ∀ middle, P middle → compute member middle = compute' member middle)
    (keeps : ∀ member ∈ members, ∀ middle after, P middle →
      compute' member middle = .ok () after → P after) :
    each compute members workspace = each compute' members workspace := by
  induction members generalizing workspace with
  | nil => rfl
  | cons member members ih =>
    have hsame := same member List.mem_cons_self workspace holds
    rw [each, each]
    cases computed : compute' member workspace with
    | error fault after => rw [bind_of_error computed, bind_of_error (hsame.trans computed)]
    | ok result after =>
      rw [bind_of_ok computed, bind_of_ok (hsame.trans computed)]
      exact ih (keeps member List.mem_cons_self workspace after holds computed)
        (fun other hother => same other (List.mem_cons_of_mem _ hother))
        fun other hother => keeps other (List.mem_cons_of_mem _ hother)

end Saturating

open Saturating

/-- Firing a conclusion keeps the store sound and extends it. -/
theorem Conclusion.Compiles.ensures_fire {store : Store} {conclusion : Conclusion}
    {compiled : CompiledConclusion} {substitution : Substitution} {workspace : Workspace}
    (compiles : conclusion.Compiles store compiled) (rules : RuleSet)
    (sound : workspace.store.Sound) (extension : store.Extends workspace.store)
    (known : substitution.Known store) :
    Saturating.Ensures (compiled.fire rules substitution) workspace fun _ _ => True := by
  obtain ⟨model, more⟩ := workspace
  change Saturating.Ensures
    (if model.isDead then pure () else compiled.carryOut rules substitution) _ _
  split
  · exact .pure sound trivial
  · exact (CompiledConclusion.ensures_carryOut sound rules model (compiles.mono extension)
      (known.mono extension)).mono fun _ _ _ _ _ => trivial

namespace CompiledRule

variable {program : Program} {rules : RuleSet} {compiled : CompiledRule} {join : Join}
  {args tuple : List Handle} {value : Handle} {workspace : Workspace}

/-- A new fact fires a join once for each tuple that it joins with. -/
theorem onFact_eq_each (joins : compiled.join? = some join) :
    compiled.onFact rules args value workspace =
      each (fun found => compiled.conclusion.fire rules found.2)
        (join.ofFact workspace args value) workspace := by
  obtain ⟨index, slots, body, conclusion⟩ := compiled
  cases body with
  | unary | run => cases joins
  | join intermediate vars shared premise =>
    obtain rfl := Option.some.inj joins
    rw [Join.ofFact, each_filterMap, onFact, get_bind]
    simp only [Join.factFirst]
    cases premise.match? workspace.store slots args value with
    | none => simp only [Option.bind_none, Option.map_none, each_pure]
    | some substitution =>
      refine congrFun (congrArg (each · _) (funext fun rest => ?_)) workspace
      rw [Option.bind_some]
      cases substitution.bindTuple? (vars.drop shared) rest <;> rfl

/-- A new tuple fires a join once for each reading of the database that it joins with: firing may
add to the database and to the store, but what was found before is still read as it was. -/
theorem onTuple_eq_each (fit : workspace.Fit program rules)
    (alive : workspace.model.isDead = false) {rule : Rule}
    (compiles : rule.Compiles workspace.store compiled) (joins : compiled.join? = some join)
    (known : .tuple join.intermediate tuple ∈ workspace.model.known) :
    compiled.onTuple rules tuple workspace =
      each (fun found => compiled.conclusion.fire rules found.2)
        (join.ofTuple workspace tuple) workspace := by
  cases compiles with
  | unary | run | runForFailure => cases joins
  | @join intermediate vars shared premise conclusion index slots compiled concluded
      premise_compiles conclusion_compiles =>
    obtain rfl := Option.some.inj joins
    have readable := fit.readable alive
    obtain ⟨terms, tuple_expand⟩ := readable.tuples _ _ known
    rw [Join.ofTuple, each_filterMap, onTuple, get_bind]
    simp only [Join.tupleFirst]
    cases bound : (Substitution.blank slots).bindTuple? vars tuple with
    | none => simp only [Option.bind_none, Option.map_none, each_pure]
    | some substitution =>
      obtain ⟨hknown, -⟩ := Substitution.bindTuple?_blank_sound tuple_expand bound
      refine each_congr (P := fun middle => middle.store.Sound ∧
        workspace.store.Extends middle.store) ⟨fit.sound, .refl _⟩ ?_ ?_
      · rintro completion hcompletion ⟨model, store⟩ ⟨-, extension⟩
        obtain ⟨rest, last, others, term, rfl, -, rest_expands, last_expands, -⟩ :=
          readable.exists_of_mem_visit hcompletion
        have expands : workspace.store.Expands (rest ++ [last]) (others ++ [term]) :=
          List.rel_append rest_expands (.cons last_expands .nil)
        rw [get_bind,
          compiled.matchRest?_of_extends fit.sound extension shared substitution expands,
          Option.bind_some]
        cases compiled.matchRest? workspace.store shared substitution (rest ++ [last]) <;> rfl
      · rintro completion hcompletion middle after ⟨sound, extension⟩ computed
        obtain ⟨rest, last, others, term, rfl, -, rest_expands, last_expands, -⟩ :=
          readable.exists_of_mem_visit hcompletion
        rw [Option.bind_some] at computed
        cases matched : compiled.matchRest? workspace.store shared substitution
            (rest ++ [last]) with
        | none =>
          rw [matched] at computed
          cases computed
          exact ⟨sound, extension⟩
        | some found =>
          rw [matched] at computed
          have fired : concluded.fire rules found middle = .ok () after := computed
          obtain ⟨hknown', -⟩ := CompiledPremise.matchRest?_sound fit.sound premise_compiles hknown
            rest_expands last_expands matched
          have ensures := conclusion_compiles.ensures_fire rules sound extension hknown'
          rw [Saturating.Ensures, Ensures, fired] at ensures
          exact ⟨ensures.1, extension.trans ensures.2.1⟩

end CompiledRule

/-! ### Compiled rules and their room -/

theorem le_foldl_max (list : List Nat) (start : Nat) :
    start ≤ list.foldl (fun count slot => max count (slot + 1)) start ∧
      ∀ slot ∈ list, slot < list.foldl (fun count slot => max count (slot + 1)) start := by
  induction list generalizing start with
  | nil => simp
  | cons first list ih =>
    obtain ⟨hstart, hlist⟩ := ih (max start (first + 1))
    rw [List.foldl_cons]
    refine ⟨(Nat.le_max_left ..).trans hstart, fun slot member => ?_⟩
    rcases List.mem_cons.1 member with rfl | member
    · exact (Nat.le_max_right ..).trans hstart
    · exact hlist slot member

/-- A substitution has room for every slot of its rule. -/
theorem Rule.lt_slotCount {rule : Rule} {slot : Nat}
    (member : slot ∈ rule.bodySlots ++ rule.conclusion.slots) : slot < rule.slotCount :=
  (le_foldl_max _ 0).2 slot member

theorem forall₂_and {α β : Type} {R S : α → β → Prop} {first : List α} {second : List β}
    (related : List.Forall₂ R first second) (related' : List.Forall₂ S first second) :
    List.Forall₂ (fun a b => R a b ∧ S a b) first second := by
  induction related with
  | nil => exact .nil
  | cons holds _ ih =>
    cases related' with
    | cons holds' rest => exact .cons ⟨holds, holds'⟩ (ih rest)

namespace RuleSet

variable {program : Program} {rules : RuleSet} {store after : Store} {compiled : CompiledRule}

theorem slots_of_compileRules (index : Nat) (list : List Rule) (store : Store) :
    List.Forall₂ (fun rule compiled => compiled.slots = rule.slotCount) list
      (compileRules index list store).1 := by
  induction list generalizing index store with
  | nil => exact .nil
  | cons rule list ih => exact .cons rfl (ih (index + 1) _)

/-- Every compiled rule comes from a rule of the program and has its number of slots. -/
theorem exists_of_mem_rules (compiles : compile program store = .ok (rules, after))
    (sound : store.Sound) (member : compiled ∈ rules.rules) :
    ∃ rule ∈ program.rules, rule.Compiles after compiled ∧ compiled.slots = rule.slotCount := by
  have related := (compile_sound sound compiles).2.2.rules
  rw [compile] at compiles
  split at compiles
  · cases compiles
  · obtain ⟨rfl, rfl⟩ := Prod.mk.inj (Except.ok.inj compiles)
    exact exists_of_mem_right
      (forall₂_and related (slots_of_compileRules 0 program.rules store)) member

/-- A join among the compiled rules suits its rule. -/
theorem exists_suits (compiles : compile program store = .ok (rules, after)) (sound : store.Sound)
    (member : compiled ∈ rules.rules) {join : Join} (joins : compiled.join? = some join) :
    ∃ premise, join.Suits after premise := by
  obtain ⟨rule, hrule, hcompiles, hslots⟩ := exists_of_mem_rules compiles sound member
  have linked := (compile_sound sound compiles).2.2.linked rule hrule
  cases hcompiles with
  | unary | run | runForFailure => cases joins
  | @join intermediate vars shared premise conclusion _ _ _ _ premise_compiles =>
    obtain rfl := Option.some.inj joins
    obtain ⟨shared_le, shared_le', linked⟩ := linked
    refine ⟨premise, premise_compiles, shared_le, shared_le', linked, ?_, ?_⟩
    · intro slot hslot
      exact hslots ▸ Rule.lt_slotCount (List.mem_append_left _ (List.mem_append_left _ hslot))
    · intro slot hslot
      exact hslots ▸ Rule.lt_slotCount (List.mem_append_left _ (List.mem_append_right _ hslot))

end RuleSet

/-! ### Turns -/

/-- The news triggers the rule. -/
def News.triggers (news : News) (rule : CompiledRule) : Bool :=
  match news with
  | .fact name _ _ => rule.body.factTrigger? == some name
  | .tuple name _ => rule.body.tupleTrigger? == some name

/-- What the news does to a rule that it triggers. -/
def News.trigger (rules : RuleSet) (news : News) (rule : CompiledRule) : Saturating Unit :=
  match news with
  | .fact _ args value => rule.onFact rules args value
  | .tuple _ args => rule.onTuple rules args

theorem News.propagate_eq (rules : RuleSet) (news : News) :
    news.propagate rules = each (fun rule => ifAlive (news.trigger rules rule))
      (rules.rules.filter news.triggers) := by
  cases news <;> rfl

/-- **It is the turn of a rule**: the search propagates the news, all rules before this one have
been triggered as far as the news triggers them, and the partial model is still alive. -/
inductive Workspace.Turn (program : Program) (rules : RuleSet) (news : News)
    (rule : CompiledRule) : Workspace → Prop where
  /-- The news was the first on the agenda. -/
  | intro {model : PartialModel} {store : Store} {asserted : Set News} {agenda : List News}
      {before after : List CompiledRule} {workspace : Workspace}
      (reached : Reached program rules ⟨model, store⟩ asserted)
      (pending : model.agenda = news :: agenda) (listed : rules.rules = before ++ rule :: after)
      (triggered : news.triggers rule = true)
      (ran : each (fun other => ifAlive (news.trigger rules other))
        (before.filter news.triggers) ⟨{ model with agenda := agenda }, store⟩ =
          .ok () workspace)
      (alive : workspace.model.isDead = false) : Turn program rules news rule workspace

section Turns

variable {program : Program} {rules : RuleSet} {news : News} {rule : CompiledRule}
  {workspace : Workspace} {asserted : Set News}

/-- A reachable partial model was compiled from the program, and the store has only grown since. -/
theorem Reached.exists_compile (reached : Reached program rules workspace asserted) :
    ∃ base, RuleSet.compile program .initial = .ok (rules, base) ∧
      base.Extends workspace.store := by
  induction reached with
  | root compiled _ => exact ⟨_, compiled, .refl _⟩
  | grow _ _ extension ih =>
    obtain ⟨base, compiled, hbase⟩ := ih
    exact ⟨base, compiled, hbase.trans extension⟩
  | step reached stepped ih =>
    obtain ⟨base, compiled, hbase⟩ := ih
    obtain ⟨-, -, extension, -⟩ := (Workspace.Advances.step stepped).reached reached
    exact ⟨base, compiled, hbase.trans extension⟩
  | examine _ _ ih => exact ih

/-- What triggering a rule does is a sequence of firings. -/
theorem News.fires_trigger {rule : Rule} {compiled : CompiledRule}
    (fit : workspace.Fit program rules) (alive : workspace.model.isDead = false)
    (member : rule ∈ program.rules) (compiles : rule.Compiles workspace.store compiled)
    (triggered : news.triggers compiled = true) (known : news ∈ workspace.model.known) :
    Fires program rules (news.trigger rules compiled) workspace fun _ _ => False := by
  obtain ⟨atom, reads⟩ := (fit.readable alive).reads news known
  cases reads with
  | fact args_expand value_expands =>
    exact (compiled.fires_onFact fit alive member compiles (Set.empty_subset _)
      (beq_iff_eq.1 triggered) known args_expand value_expands).mono fun _ _ => False.elim
  | tuple args_expand =>
    exact (compiled.fires_onTuple fit alive member compiles (Set.empty_subset _)
      (beq_iff_eq.1 triggered) known args_expand).mono fun _ _ => False.elim

/-- When it is the turn of a rule, the rules of the program can be fired, and the news is known. -/
theorem Workspace.Turn.fit (turn : workspace.Turn program rules news rule) :
    workspace.Fit program rules ∧ news ∈ workspace.model.known ∧
      workspace.model.isDead = false ∧ rule ∈ rules.rules ∧
        ∃ base, RuleSet.compile program .initial = .ok (rules, base) ∧
          base.Extends workspace.store := by
  obtain @⟨model, store, asserted, agenda, before, after, workspace, reached, pending, listed,
    triggered, ran, alive⟩ := turn
  obtain ⟨base, compiled, hbase⟩ := reached.exists_compile
  have fit := reached.fit.dropNews agenda
  have known (survives : model.isDead = false) : news ∈ model.known :=
    (reached.regular survives).agenda news (pending ▸ List.mem_cons_self)
  -- The rules before this one are triggered one after the other, each on what has become of the
  -- workspace in which the news was taken off the agenda.
  have fires : Fires program rules (each (fun other => ifAlive (news.trigger rules other))
      (before.filter news.triggers)) ⟨{ model with agenda := agenda }, store⟩ fun _ _ =>
        ∃ other ∈ before.filter news.triggers, False := by
    refine fires_each fit _ ?_
    intro other hother fired middle firings hfit
    obtain ⟨hbefore, triggered⟩ := List.mem_filter.1 hother
    obtain ⟨source, hsource, compiles⟩ := exists_of_mem_right hfit.compiles.rules
      (listed ▸ List.mem_append_left _ hbefore)
    refine fires_ifAlive hfit.sound fun survives => ?_
    exact News.fires_trigger hfit survives hsource compiles triggered
      ((firings.evolves fit survives).known (known (firings.alive survives)))
  rw [Fires, Saturating.Ensures, Ensures, ran] at fires
  obtain ⟨-, -, fired, firings, -⟩ := fires
  refine ⟨firings.fit fit, (firings.evolves fit alive).known (known (firings.alive alive)), alive,
    ?_, base, compiled, hbase.trans firings.extension⟩
  rw [listed]
  exact List.mem_append_right _ List.mem_cons_self

/-- **A join comes to its turn from either side**: in the first workspace for a fact while the tuple
is derived, in the second one for the tuple while the fact is stored. The two workspaces need not
belong to one leaf of the search, nor to one search, but their handles have to mean the same. -/
structure Crossing (program : Program) (rules : RuleSet) (rule : CompiledRule) (join : Join)
    (args : List Handle) (value : Handle) (tuple : List Handle) (first second : Workspace) :
    Prop where
  /-- The rule is a join. -/
  joins : rule.join? = some join
  /-- The fact is propagated. -/
  onFact : first.Turn program rules (.fact join.premise.name args value) rule
  /-- The tuple has been derived. -/
  derived : first.model.derives join.intermediate tuple = true
  /-- The tuple is propagated. -/
  onTuple : second.Turn program rules (.tuple join.intermediate tuple) rule
  /-- The fact has been stored. -/
  stored : second.model.database.get? join.premise.name args = some (.just value)
  /-- The stores agree about what they know. -/
  common : ∃ more : Store, more.Sound ∧ first.store.Extends more ∧ second.store.Extends more

section Crossings

variable {join : Join} {args tuple start : List Handle} {value last : Handle}
  {first second : Workspace} {substitution : Substitution}

/-- Both stores have the join of one rule of the program. -/
theorem Crossing.exists_suits
    (crossing : Crossing program rules rule join args value tuple first second) :
    ∃ premise, join.Suits first.store premise ∧ join.Suits second.store premise := by
  obtain ⟨-, -, -, member, base, compiled, extension⟩ := crossing.onFact.fit
  obtain ⟨-, -, -, -, base', compiled', extension'⟩ := crossing.onTuple.fit
  obtain ⟨-, rfl⟩ := Prod.mk.inj (Except.ok.inj (compiled.symm.trans compiled'))
  obtain ⟨premise, suits⟩ :=
    RuleSet.exists_suits compiled Store.sound_initial member crossing.joins
  exact ⟨premise, suits.mono extension, suits.mono extension'⟩

/-- The order does not matter for what the tuple and the beginning of the fact bind. -/
theorem Crossing.factFirst_eq_tupleFirst
    (crossing : Crossing program rules rule join args value tuple first second)
    (begins : start ++ [last] <+: args ++ [value])
    (shares : tuple.take join.shared = start.take join.shared) :
    join.factFirst first.store start last (tuple.drop join.shared) =
      join.tupleFirst second.store tuple (start.drop join.shared ++ [last]) := by
  obtain ⟨premise, suits, suits'⟩ := crossing.exists_suits
  obtain ⟨-, turn, derived, turn', stored, more, sound, extension, extension'⟩ := crossing
  obtain ⟨fit, known, alive, -⟩ := turn.fit
  obtain ⟨fit', known', alive', -⟩ := turn'.fit
  have beginning {store : Store} {terms : List Term} {term : Term}
      (args_expand : store.Expands args terms) (value_expands : store.expand value = some term) :
      ∃ terms term, store.Expands start terms ∧ store.expand last = some term := by
    obtain ⟨rest, heq⟩ := begins
    have expands : store.Expands (args ++ [value]) (terms ++ [term]) :=
      List.rel_append args_expand (.cons value_expands .nil)
    rw [← heq, List.append_assoc] at expands
    obtain ⟨terms, others, -, start_expand, rest_expand⟩ := expands.exists_of_append
    obtain _ | ⟨last_expands, -⟩ := rest_expand
    exact ⟨terms, _, start_expand, last_expands⟩
  obtain ⟨others, tuple_expand⟩ := (fit.readable alive).tuples _ _ derived
  obtain ⟨_, @⟨_, _, _, _, _, args_expand, value_expands⟩⟩ := (fit.readable alive).reads _ known
  obtain ⟨terms, term, start_expand, last_expands⟩ := beginning args_expand value_expands
  obtain ⟨_, @⟨_, _, _, _, _, args_expand', value_expands'⟩⟩ :=
    (fit'.readable alive').reads (.fact join.premise.name args value) stored
  obtain ⟨terms', term', start_expand', last_expands'⟩ := beginning args_expand' value_expands'
  exact suits.factFirst_eq_tupleFirst suits' fit.sound fit'.sound sound extension extension'
    tuple_expand start_expand last_expands ((fit'.readable alive').tuples _ _ known')
    ⟨_, start_expand'⟩ ⟨_, last_expands'⟩ shares

/-- **What the tuple takes for the fact**: a beginning of its arguments, followed by its value or by
the next of its arguments, with which the tuple would join if it were the fact. -/
theorem Crossing.exists_reading_iff
    (crossing : Crossing program rules rule join args value tuple first second) :
    (∃ reading, reading <+: args ++ [value] ∧
        (reading, substitution) ∈ join.ofTuple second tuple) ↔
      ∃ start last, start ++ [last] <+: args ++ [value] ∧
        start.length = join.premise.args.length ∧
          tuple.take join.shared = start.take join.shared ∧
            join.factFirst first.store start last (tuple.drop join.shared) =
              some substitution := by
  obtain ⟨premise, suits, suits'⟩ := crossing.exists_suits
  obtain ⟨fit', -, alive', -⟩ := crossing.onTuple.fit
  have sound := (fit'.readable alive').sound.database
  rw [suits.length_args]
  constructor
  · rintro ⟨_, begins, joined⟩
    obtain ⟨start, last, rfl, hstart, -, shares, -, answer⟩ := (suits'.mem_ofTuple sound).1 joined
    exact ⟨start, last, begins, hstart, shares,
      (crossing.factFirst_eq_tupleFirst begins shares).trans answer⟩
  · rintro ⟨start, last, begins, hstart, shares, answer⟩
    have hanswer := crossing.factFirst_eq_tupleFirst begins shares
    refine ⟨_, begins, (suits'.mem_ofTuple sound).2 ⟨start, last, rfl, hstart,
      suits.length_of_shares shares answer, shares, ?_, hanswer.symm.trans answer⟩⟩
    -- The beginning is the whole fact, or the fact goes on behind it.
    obtain ⟨rest, heq⟩ := begins
    rcases List.eq_nil_or_concat rest with rfl | ⟨more, final, rfl⟩
    · rw [List.append_nil] at heq
      obtain ⟨rfl, hlast⟩ := List.append_inj' heq rfl
      exact Or.inl (List.singleton_inj.1 hlast ▸ crossing.stored)
    · rw [List.concat_eq_append, ← List.append_assoc] at heq
      obtain ⟨rfl, -⟩ := List.append_inj' heq rfl
      exact Or.inr ⟨more, _, by simpa using crossing.stored⟩

/-- **A join fires from either side alike, except for facts that are too long.** Under the same
bindings it fires for a tuple and a fact when the fact is propagated and when the tuple is
propagated, as long as the fact has no more arguments than the premise. A fact with more of them is
ignored when it is propagated. The tuple, however, finds the beginning of its arguments, and fires
if it would for a fact with these arguments and the argument behind them in the place of the
value. -/
theorem Crossing.alike
    (crossing : Crossing program rules rule join args value tuple first second) :
    rule.onFact rules args value first =
        each (fun found => rule.conclusion.fire rules found.2)
          (join.ofFact first args value) first ∧
      rule.onTuple rules tuple second =
        each (fun found => rule.conclusion.fire rules found.2) (join.ofTuple second tuple) second ∧
      (args.length ≤ join.premise.args.length → ∀ substitution,
        (tuple, substitution) ∈ join.ofFact first args value ↔
          ∃ reading, reading <+: args ++ [value] ∧
            (reading, substitution) ∈ join.ofTuple second tuple) ∧
      ∀ start last rest, args = start ++ last :: rest →
        start.length = join.premise.args.length → ∀ substitution,
          (tuple, substitution) ∉ join.ofFact first args value ∧
            ((∃ reading, reading <+: args ++ [value] ∧
              (reading, substitution) ∈ join.ofTuple second tuple) ↔
                tuple.take join.shared = start.take join.shared ∧
                  join.factFirst first.store start last (tuple.drop join.shared) =
                    some substitution) := by
  obtain ⟨premise, suits, -⟩ := crossing.exists_suits
  obtain ⟨fit, -, alive, -⟩ := crossing.onFact.fit
  obtain ⟨fit', known', alive', member, base, compiled, extension⟩ := crossing.onTuple.fit
  obtain ⟨source, -, compiles, -⟩ :=
    RuleSet.exists_of_mem_rules compiled Store.sound_initial member
  refine ⟨CompiledRule.onFact_eq_each crossing.joins,
    CompiledRule.onTuple_eq_each fit' alive' (compiles.mono extension) crossing.joins known',
    fun length_le substitution => ?_, ?_⟩
  · rw [crossing.exists_reading_iff, suits.mem_ofFact (fit.readable alive).sound, suits.length_args]
    constructor
    · rintro ⟨-, -, shares, answer⟩
      exact ⟨args, value, List.prefix_rfl, (suits.length_of_factFirst answer).1, shares, answer⟩
    · rintro ⟨start, last, begins, hstart, shares, answer⟩
      -- The beginning is as long as the whole fact.
      have hlength := begins.length_le
      simp only [List.length_append, List.length_singleton] at hlength
      rw [suits.length_args] at length_le
      have heq := begins.eq_of_length (by
        simp only [List.length_append, List.length_singleton]
        omega)
      obtain ⟨rfl, hlast⟩ := List.append_inj' heq rfl
      obtain rfl := List.singleton_inj.1 hlast
      exact ⟨crossing.derived, suits.length_of_shares shares answer, shares, answer⟩
  · rintro start last rest rfl hstart substitution
    rw [crossing.exists_reading_iff]
    refine ⟨fun joined => ?_, ?_, ?_⟩
    · obtain ⟨-, -, -, answer⟩ := (suits.mem_ofFact (fit.readable alive).sound).1 joined
      have hargs := (suits.length_of_factFirst answer).1
      rw [← suits.length_args, ← hstart, List.length_append, List.length_cons] at hargs
      omega
    · rintro ⟨start', last', ⟨after, heq⟩, hstart', found⟩
      simp only [List.append_assoc, List.cons_append] at heq
      obtain ⟨rfl, hrest⟩ := List.append_inj heq (hstart'.trans hstart.symm)
      obtain ⟨rfl, -⟩ := List.cons.inj hrest
      exact found
    · rintro found
      exact ⟨start, last, ⟨rest ++ [value], by simp⟩, hstart, found⟩

end Crossings

/-- In the first two steps after the seeds, a fact and a tuple come to the turn of the last of three
rules, which is a join and the only one that they trigger. It finds the pair so many times when the
fact is propagated, and the fact, or what it takes for one, so many times when the tuple is. -/
def Program.crosses (program : Program) (onFact onTuple : Nat) : Bool :=
  match RuleSet.compile program .initial with
  | .error _ => false
  | .ok (rules, store) =>
    match PartialModel.seeded rules with
    | .error _ => false
    | .ok model =>
      match step rules ⟨model, store⟩ with
      | .error _ _ => false
      | .ok _ middle =>
        match step rules middle with
        | .error _ _ => false
        | .ok _ last =>
          match middle.model.agenda, last.model.agenda, rules.rules with
          | news@(.fact name args value) :: agenda, news'@(.tuple name' tuple) :: agenda',
              [one, two, rule] =>
            match rule.join? with
            | none => false
            | some join =>
              let first : Workspace := ⟨{ middle.model with agenda := agenda }, middle.store⟩
              let second : Workspace := ⟨{ last.model with agenda := agenda' }, last.store⟩
              join.premise.name == name && join.intermediate == name' &&
                [one, two, rule].map news.triggers == [false, false, true] &&
                [one, two, rule].map news'.triggers == [false, false, true] &&
                !first.model.isDead && !second.model.isDead &&
                first.model.derives join.intermediate tuple &&
                second.model.database.get? join.premise.name args == some (.just value) &&
                ((join.ofFact first args value).filter fun found => found.1 == tuple).length ==
                  onFact &&
                ((join.ofTuple second tuple).filter fun found =>
                  found.1.isPrefixOf (args ++ [value])).length == onTuple
          | _, _, _ => false

theorem Program.exists_of_crosses {onFact onTuple : Nat}
    (checked : program.crosses onFact onTuple = true) :
    ∃ rules rule join args value tuple first second,
      Crossing program rules rule join args value tuple first second ∧
        ((join.ofFact first args value).filter fun found => found.1 == tuple).length = onFact ∧
          ((join.ofTuple second tuple).filter fun found =>
            found.1.isPrefixOf (args ++ [value])).length = onTuple := by
  rw [crosses] at checked
  split at checked
  · cases checked
  next rules store compiled =>
  split at checked
  · cases checked
  next model planted =>
  split at checked
  · cases checked
  next progress middle stepped =>
  split at checked
  · cases checked
  next progress' last stepped' =>
  have reached := (Reached.root compiled planted).step stepped
  have reached' := Reached.step reached stepped'
  have advances : Workspace.Advances rules middle last := .step stepped'
  obtain ⟨-, -, extension, -⟩ := advances.reached reached
  split at checked
  next _ _ _ name args value agenda name' tuple agenda' one two rule pending pending' listed =>
    split at checked
    · cases checked
    next join joins =>
    simp only [Bool.and_eq_true, Bool.not_eq_true', beq_iff_eq, List.map_cons, List.map_nil,
      List.cons.injEq, and_true] at checked
    obtain ⟨⟨⟨⟨⟨⟨⟨⟨⟨rfl, rfl⟩, triggers⟩, triggers'⟩, alive⟩, alive'⟩, derived⟩, stored⟩, found⟩,
      found'⟩ := checked
    have listed' : rules.rules = [one, two] ++ rule :: [] := listed
    refine ⟨rules, rule, join, args, value, tuple, ⟨{ middle.model with agenda := agenda }, _⟩,
      ⟨{ last.model with agenda := agenda' }, _⟩, ⟨joins, ?_, derived, ?_, stored, ?_⟩, found,
      found'⟩
    · refine .intro reached pending listed' triggers.2.2 ?_ alive
      rw [List.filter_cons_of_neg (by simp [triggers.1]),
        List.filter_cons_of_neg (by simp [triggers.2.1])]
      rfl
    · refine .intro reached' pending' listed' triggers'.2.2 ?_ alive'
      rw [List.filter_cons_of_neg (by simp [triggers'.1]),
        List.filter_cons_of_neg (by simp [triggers'.2.1])]
      rfl
    · exact ⟨last.store, reached'.fit.sound, extension, .refl _⟩
  · cases checked

/-- The fact has as many arguments as the premise. -/
def meeting : Program where
  seeds := ["go"]
  rules := [.run "go" [] [.const (.string "a"), .store 0] (.fact "f" [.var 0] (.string "b")),
    .run "go" [] [.const (.string "a"), .store 0] (.intermediate "late" [.var 0]),
    .join "late" [0] 1 ⟨"f", [.var 0], .var 1⟩ (.intermediate "met" [.var 1])]

theorem Crossing.alike_meeting : ∃ rules rule join args value tuple first second substitution,
    Crossing meeting rules rule join args value tuple first second ∧
      (tuple, substitution) ∈ join.ofFact first args value ∧
        ∃ reading, reading <+: args ++ [value] ∧
          (reading, substitution) ∈ join.ofTuple second tuple := by
  have checked : meeting.crosses 1 1 = true := by decide +kernel
  obtain ⟨rules, rule, join, args, value, tuple, first, second, crossing, one, -⟩ :=
    Program.exists_of_crosses checked
  obtain ⟨⟨other, substitution⟩, member⟩ := List.exists_mem_of_length_pos (one ▸ Nat.one_pos)
  obtain ⟨joined, same⟩ := List.mem_filter.1 member
  obtain rfl : other = tuple := beq_iff_eq.1 same
  obtain ⟨-, -, alike, ignored⟩ := crossing.alike
  have length_le : args.length ≤ join.premise.args.length := by
    by_contra longer
    have lt : join.premise.args.length < args.length := Nat.lt_of_not_le longer
    have split_args := (List.take_append_drop join.premise.args.length args).symm
    rw [List.drop_eq_getElem_cons lt] at split_args
    exact (ignored _ _ _ split_args (List.length_take_of_le lt.le) substitution).1 joined
  exact ⟨rules, rule, join, args, value, other, first, second, substitution, crossing, joined,
    (alike length_le substitution).1 joined⟩

/-- The fact has one argument more than the premise. -/
def passing : Program where
  seeds := ["go"]
  rules := [.run "go" [] [] (.fact "f" [.string "a", .string "b"] (.string "c")),
    .run "go" [] [] (.intermediate "late" []),
    .join "late" [] 0 ⟨"f", [.wildcard], .wildcard⟩ (.fact "strayed" [] .unit)]

/-- A join need not fire from either side alike: in `StableModels.passing` the fact is ignored when
it is propagated, and the tuple fires for it one step later. -/
theorem not_forall_crossing_alike : ¬∀ (program : Program) (rules : RuleSet) (rule : CompiledRule)
    (join : Join) (args : List Handle) (value : Handle) (tuple : List Handle)
    (first second : Workspace),
      Crossing program rules rule join args value tuple first second → ∀ substitution,
        (tuple, substitution) ∈ join.ofFact first args value ↔
          ∃ reading, reading <+: args ++ [value] ∧
            (reading, substitution) ∈ join.ofTuple second tuple := by
  intro claimed
  have checked : passing.crosses 0 1 = true := by decide +kernel
  obtain ⟨rules, rule, join, args, value, tuple, first, second, crossing, none, one⟩ :=
    Program.exists_of_crosses checked
  obtain ⟨⟨reading, substitution⟩, member⟩ := List.exists_mem_of_length_pos (one ▸ Nat.one_pos)
  obtain ⟨joined, begins⟩ := List.mem_filter.1 member
  have found := (claimed _ _ _ _ _ _ _ _ _ crossing substitution).2
    ⟨reading, List.isPrefixOf_iff_prefix.1 begins, joined⟩
  have listed : (tuple, substitution) ∈
      (join.ofFact first args value).filter fun found => found.1 == tuple :=
    List.mem_filter.2 ⟨found, beq_self_eq_true tuple⟩
  rw [List.length_eq_zero_iff.1 none] at listed
  cases listed

end Turns

end StableModels
