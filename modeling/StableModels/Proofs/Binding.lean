import StableModels.Proofs.Joining

/-!
# Bound slots

Validation follows a rule from its body to its conclusion and collects the slots that are bound on
the way, without knowing to which terms. This file shows that it is right about them. A premise
that matches binds its slots, a tuple that matches binds its variables, and every outcome of code
that was checked binds the slots that the check answers, whatever the code forks into on the way
(`StableModels.Machine.binds_of_outcomes`).

What an instruction does to the slots and to the number of operands is `StableModels.Machine.Fits`;
the same numbers are those that the check counts with.
-/

namespace StableModels

/-! ### Slots of a substitution -/

namespace Substitution

variable {substitution after : Substitution} {slots more : List Nat} {slot : Nat} {handle : Handle}
  {store : Store}

/-- Each of the slots is bound. -/
def Binds (slots : List Nat) (substitution : Substitution) : Prop :=
  ∀ slot ∈ slots, ∃ handle, substitution.get? slot = some handle

theorem Binds.append (binds : substitution.Binds slots) (binds' : substitution.Binds more) :
    substitution.Binds (slots ++ more) := by
  intro slot member
  rcases List.mem_append.1 member with member | member
  · exact binds slot member
  · exact binds' slot member

/-- Slots that stand for terms are bound. -/
theorem binds_of_valuation (store : Store)
    (stands : ∀ slot ∈ slots, ∃ term, substitution.valuation store slot = some term) :
    substitution.Binds slots := by
  intro slot member
  obtain ⟨term, hslot⟩ := stands slot member
  obtain ⟨handle, bound, -⟩ := valuation_eq_some_iff.1 hslot
  exact ⟨handle, bound⟩

theorem binds_of_map_eq {terms : List Term}
    (binds : slots.map (substitution.valuation store) = terms.map some) :
    substitution.Binds slots := by
  refine binds_of_valuation store fun slot member => ?_
  have hslot : substitution.valuation store slot ∈ terms.map some := by
    rw [← binds]
    exact List.mem_map_of_mem member
  obtain ⟨term, -, heq⟩ := List.mem_map.1 hslot
  exact ⟨term, heq.symm⟩

/-- A slot that is bound leaves the others bound. -/
theorem Binds.bind (binds : substitution.Binds slots)
    (bound : substitution.bind slot handle = (true, after)) : after.Binds (slots ++ [slot]) := by
  cases old : substitution.get? slot with
  | some other =>
    rw [Substitution.bind, old] at bound
    obtain ⟨-, rfl⟩ := Prod.mk.inj bound
    refine binds.append fun slot' member => ?_
    rw [List.mem_singleton.1 member]
    exact ⟨other, old⟩
  | none =>
    have found := get?_bind handle old
    rw [bound] at found
    intro other member
    rw [found]
    split
    · exact ⟨handle, rfl⟩
    · next hne =>
      rcases List.mem_append.1 member with member | member
      · exact binds other member
      · exact absurd (List.mem_singleton.1 member) hne

end Substitution

/-! ### Slots of patterns -/

namespace Pattern

variable {valuation : Valuation}

mutual

/-- The slots of a pattern that denotes a term stand for something. -/
theorem Denotes.exists_of_mem_slots : {pattern : Pattern} → {term : Term} →
    pattern.Denotes valuation term → ∀ slot ∈ pattern.slots, ∃ other, valuation slot = some other
  | .unit, _, _ | .int _, _, _ | .bool _, _, _ | .string _, _, _ | .ref _, _, _
  | .wildcard, _, _ => by simp [slots]
  | .var slot, term, denotes => by
    intro other member
    rw [List.mem_singleton.1 member]
    exact ⟨term, denotes⟩
  | .const _ _, _, ⟨_, _, denote⟩ => DenoteAll.exists_of_mem_slots denote

/-- The slots of patterns that denote terms stand for something. -/
theorem DenoteAll.exists_of_mem_slots : {patterns : List Pattern} → {terms : List Term} →
    DenoteAll valuation patterns terms → ∀ slot ∈ slotsOf patterns, ∃ other,
      valuation slot = some other
  | [], _, _ => by simp [slotsOf]
  | _ :: _, _ :: _, ⟨denotes, rest⟩ => by
    intro slot member
    rcases List.mem_append.1 member with member | member
    · exact denotes.exists_of_mem_slots slot member
    · exact DenoteAll.exists_of_mem_slots rest slot member

end

/-- Once these slots are bound the pattern can be instantiated. -/
def Complete (bound : List Nat) (pattern : Pattern) : Prop :=
  pattern.hasWildcard = false ∧ pattern.slots ⊆ bound

/-- The arguments of a pattern that can be instantiated can be instantiated. -/
theorem Complete.args {bound : List Nat} {name : String} {args : List Pattern}
    (complete : (const name args).Complete bound) : ∀ arg ∈ args, arg.Complete bound := by
  obtain ⟨tame, subset⟩ := complete
  rw [hasWildcard] at tame
  rw [slots] at subset
  induction args with
  | nil => simp
  | cons first args ih =>
    rw [anyWildcard, Bool.or_eq_false_iff] at tame
    rw [slotsOf, List.append_subset] at subset
    intro arg member
    rcases List.mem_cons.1 member with rfl | member
    · exact ⟨tame.1, subset.1⟩
    · exact ih tame.2 subset.2 arg member

end Pattern

/-- A premise that a fact matches has bound its slots. -/
theorem Premise.Denotes.binds {premise : Premise} {substitution : Substitution} {store : Store}
    {terms : List Term} {term : Term}
    (denotes : premise.Denotes (substitution.valuation store) terms term) :
    substitution.Binds premise.slots := by
  refine Substitution.binds_of_valuation store fun slot member => ?_
  rcases Premise.mem_slots_iff.1 member with member | member
  · exact denotes.1.exists_of_mem_slots slot member
  · exact denotes.2.exists_of_mem_slots slot member

/-! ### Checked conclusions -/

/-- Once these slots are bound the conclusion can be instantiated. -/
def Conclusion.Complete (bound : List Nat) (conclusion : Conclusion) : Prop :=
  ∀ pattern ∈ conclusion.patterns, pattern.Complete bound

namespace Rule

theorem complete_of_checkPatterns {name : String} {bound : List Nat} {patterns : List Pattern}
    (checked : checkPatterns name bound patterns = .ok ()) :
    ∀ pattern ∈ patterns, pattern.Complete bound := by
  induction patterns with
  | nil => simp
  | cons first patterns ih =>
    rw [checkPatterns] at checked
    obtain ⟨tame, checked⟩ := of_require checked
    split at checked
    · cases checked
    · next inside =>
      intro pattern member
      rcases List.mem_cons.1 member with rfl | member
      · refine ⟨by simpa using tame, fun slot hslot => ?_⟩
        simpa using List.find?_eq_none.1 inside slot hslot
      · exact ih checked pattern member

/-- **The conclusion of a valid rule can be instantiated** once the body has bound its slots. -/
theorem exists_complete_of_validate {rule : Rule} (valid : rule.validate = .ok ()) :
    ∃ bound, rule.checkBody = .ok bound ∧ rule.conclusion.Complete bound := by
  obtain ⟨bound, checked, patterns_checked⟩ := exists_of_check valid
  exact ⟨bound, checked, complete_of_checkPatterns patterns_checked⟩

/-- Code that runs for failure is checked, and binds nothing for the conclusion. -/
theorem exists_of_checkBody_runForFailure {intermediate : String} {vars : List Nat}
    {code : List Instruction} {conclusion : Conclusion} {bound : List Nat}
    (checked : checkBody (runForFailure intermediate vars code conclusion) = .ok bound) :
    ∃ final, checkCode code 0 0 vars = .ok final ∧ bound = vars := by
  obtain ⟨final, code_checked, checked⟩ := exists_of_check checked
  exact ⟨final, code_checked, (Except.ok.inj checked).symm⟩

end Rule

/-! ### Checked code -/

/-- What the check asks of the first instruction, and what it goes on with. -/
structure Instruction.Admits (instruction : Instruction) (code : List Instruction)
    (position depth : Nat) (bound final : List Nat) : Prop where
  /-- A constant is ground. -/
  ground : ∀ value, instruction = .const value → value.isGround = true
  /-- The slot that is read is bound. -/
  reads : ∀ slot, instruction.reads = some slot → slot ∈ bound
  /-- There are enough operands. -/
  pops : instruction.pops ≤ depth
  /-- The rest of the code is right with what there is after the instruction. -/
  rest : Rule.checkCode code (position + 1) (depth - instruction.pops + instruction.pushes)
    (bound ++ instruction.binds) = .ok final

theorem Rule.admits_of_checkCode {instruction : Instruction} {code : List Instruction}
    {position depth : Nat} {bound final : List Nat}
    (checked : checkCode (instruction :: code) position depth bound = .ok final) :
    instruction.Admits code position depth bound final := by
  rw [checkCode] at checked
  obtain ⟨ground, checked⟩ := of_require checked
  have hground : ∀ value, instruction = .const value → value.isGround = true := by
    rintro value rfl
    exact ground
  cases reads : instruction.reads with
  | none =>
    rw [reads] at checked
    obtain ⟨pops, checked⟩ := of_require checked
    exact ⟨hground, by simp [reads], of_decide_eq_true pops, checked⟩
  | some slot =>
    rw [reads] at checked
    obtain ⟨bound_slot, checked⟩ := of_require checked
    obtain ⟨pops, checked⟩ := of_require checked
    refine ⟨hground, ?_, of_decide_eq_true pops, checked⟩
    rintro other hother
    obtain rfl := Option.some.inj (reads.symm.trans hother)
    exact List.contains_iff_mem.1 bound_slot

namespace Machine

variable {instruction : Instruction} {stack : List Handle} {substitution after : Substitution}
  {store last : Store}

/-- **What an instruction leads to, but for the terms**: the operands that are left with those that
it pushes, and the slots that are bound with those that it binds. -/
inductive Fits (instruction : Instruction) (stack : List Handle) (substitution : Substitution) :
    Progress → Prop where
  /-- The run ends. -/
  | stop : Fits instruction stack substitution .stop
  /-- The run goes on. -/
  | next {more : List Handle} {after : Substitution}
      (length_eq : more.length = stack.length + instruction.pushes)
      (binds : ∀ slots, substitution.Binds slots → after.Binds (slots ++ instruction.binds)) :
      Fits instruction stack substitution (.next more after)
  /-- The run forks, and each row has a text for each slot. -/
  | fork {rows : List (List (Nat × List Char))} (pushes : instruction.pushes = 0)
      (covers : ∀ row ∈ rows, row.map Prod.fst = instruction.binds) :
      Fits instruction stack substitution (.fork stack substitution rows)

/-- The run goes on with one operand more and the same slots. -/
theorem fits_push (handle : Handle) (pushes : instruction.pushes = 1)
    (binds : instruction.binds = []) :
    Fits instruction stack substitution (.next (handle :: stack) substitution) := by
  refine .next (by rw [pushes, List.length_cons]) fun slots bound => ?_
  rwa [binds, List.append_nil]

theorem fits_guard (holds : Bool) (pushes : instruction.pushes = 0)
    (binds : instruction.binds = []) :
    Fits instruction stack substitution (.guard holds stack substitution) := by
  cases holds with
  | false => exact .stop
  | true =>
    refine .next (by rw [pushes, Nat.add_zero]) fun slots bound => ?_
    rwa [binds, List.append_nil]

/-- An operator pushes its result and binds nothing. -/
theorem of_result? {operands : List Handle} {shape : Shape}
    (computed : result? store instruction operands = some shape) :
    instruction.pushes = 1 ∧ instruction.binds = [] := by
  cases instruction <;> first | exact ⟨rfl, rfl⟩ | simp [result?] at computed

theorem fits_compute {operands : List Handle} {progress : Progress}
    (computed : compute stack substitution instruction operands store = .ok progress last) :
    Fits instruction stack substitution progress := by
  rw [compute, get_bind] at computed
  cases hresult : result? store instruction operands with
  | some shape =>
    rw [hresult] at computed
    obtain ⟨pushes, binds⟩ := of_result? hresult
    obtain ⟨rfl, -⟩ := EStateM.Result.ok.inj computed
    exact fits_push _ pushes binds
  | none =>
    rw [hresult] at computed
    obtain ⟨rfl, -⟩ := EStateM.Result.ok.inj computed
    exact .stop

end Machine

/-! ### Splits -/

/-- The segment has a text in each row. -/
def Segment.isPiece : Segment → Bool
  | literal _ => false
  | known _ | free => true

/-- A segmentation lists a text for each piece. -/
theorem length_of_mem_segmentations {template : List Segment} {text : List Char}
    {pieces : List (List Char)} (member : pieces ∈ segmentations template text) :
    pieces.length = template.countP Segment.isPiece := by
  fun_induction segmentations template text generalizing pieces with
  | case1 rest empty =>
    obtain rfl := List.mem_singleton.1 member
    rfl
  | case2 => cases member
  | case3 => cases member
  | case4 text template rest after _ ih => simpa [Segment.isPiece] using ih member
  | case5 => cases member
  | case6 text template rest after _ ih =>
    obtain ⟨others, hothers, rfl⟩ := List.mem_map.1 member
    rw [List.length_cons, ih hothers, List.countP_cons_of_pos rfl]
  | case7 rest =>
    obtain rfl := List.mem_singleton.1 member
    rfl
  | case8 segment template rest ih =>
    obtain ⟨cut, -, hpieces⟩ := List.mem_flatMap.1 member
    obtain ⟨others, hothers, rfl⟩ := List.mem_map.1 hpieces
    have counted := @List.countP_cons_of_pos _ Segment.isPiece .free (segment :: template) rfl
    rw [List.length_cons, ih cut hothers, counted]

namespace Machine

variable {instruction : Instruction} {stack : List Handle} {substitution after : Substitution}
  {store last : Store}

/-- The template has a piece for each slot of the split. -/
theorem countP_of_template? {parts : List SplitPart} {template : List Segment}
    (found : template? store substitution parts = some template) :
    template.countP Segment.isPiece = (parts.filterMap SplitPart.slot?).length := by
  induction parts generalizing template with
  | nil =>
    obtain rfl := Option.some.inj found
    rfl
  | cons part parts ih =>
    cases part with
    | literal text =>
      rw [template?, Option.map_eq_some_iff] at found
      obtain ⟨rest, hrest, rfl⟩ := found
      rw [List.countP_cons_of_neg (by simp [Segment.isPiece]), ih hrest]
      rfl
    | piece slot =>
      rw [template?] at found
      split at found
      · obtain ⟨rest, hrest, rfl⟩ := Option.map_eq_some_iff.1 found
        rw [List.countP_cons_of_pos rfl, ih hrest]
        rfl
      · obtain ⟨text, -, found⟩ := Option.bind_eq_some_iff.1 found
        obtain ⟨rest, hrest, found⟩ := Option.bind_eq_some_iff.1 found
        obtain rfl := Option.some.inj found
        rw [List.countP_cons_of_pos rfl, ih hrest]
        rfl

/-- Each row of a split has a text for each of its slots. -/
theorem map_fst_of_mem_rows {parts : List SplitPart} {subject : Handle}
    {rows : List (List (Nat × List Char))}
    (found : rows? store parts substitution subject = some rows) :
    ∀ row ∈ rows, row.map Prod.fst = parts.filterMap SplitPart.slot? := by
  obtain ⟨text, -, found⟩ := Option.bind_eq_some_iff.1 found
  obtain ⟨template, htemplate, found⟩ := Option.bind_eq_some_iff.1 found
  obtain rfl := Option.some.inj found
  intro row member
  obtain ⟨pieces, hpieces, rfl⟩ := List.mem_map.1 member
  refine List.map_fst_zip ?_
  rw [length_of_mem_segmentations hpieces, countP_of_template? htemplate]

/-- A row binds the slots of its texts. -/
theorem binds_of_bindRow {row : List (Nat × List Char)} {slots : List Nat}
    (binds : substitution.Binds slots)
    (bound : bindRow row substitution store = .ok (some after) last) :
    after.Binds (slots ++ row.map Prod.fst) := by
  induction row generalizing substitution slots store with
  | nil =>
    obtain ⟨heq, -⟩ := EStateM.Result.ok.inj bound
    obtain rfl := Option.some.inj heq
    simpa using binds
  | cons entry row ih =>
    obtain ⟨slot, text⟩ := entry
    rw [bindRow] at bound
    have interned : Interning.intern (.string (String.ofList text)) store =
        .ok (store.intern (.string (String.ofList text))).1
          (store.intern (.string (String.ofList text))).2 := rfl
    rw [bind_of_ok interned] at bound
    generalize hbind : substitution.bind slot _ = outcome at bound
    obtain ⟨flag, middle⟩ := outcome
    cases flag with
    | true =>
      have hrest := ih (binds.bind hbind) bound
      rwa [List.append_assoc, List.singleton_append] at hrest
    | false =>
      obtain ⟨heq, -⟩ := EStateM.Result.ok.inj bound
      cases heq

/-! ### Steps -/

theorem fits_perform {position : Nat} {operands : List Handle} {progress : Progress}
    (performed : perform position stack substitution instruction operands store =
      .ok progress last) : Fits instruction stack substitution progress := by
  revert performed
  fun_cases perform position stack substitution instruction operands with
  | case1 value =>
    intro performed
    obtain ⟨handle, middle, -, ⟨⟩⟩ := exists_of_bind_eq_ok performed
    exact fits_push handle rfl rfl
  | case2 slot handle bound =>
    rintro ⟨⟩
    exact fits_push _ rfl rfl
  | case3 => rintro ⟨⟩
  | case4 slot operand after bound =>
    rintro ⟨⟩
    exact .next rfl fun slots binds => binds.bind bound
  | case6 | case7 =>
    rintro ⟨⟩
    exact fits_push _ rfl rfl
  | case8 | case9 | case10 | case11 | case12 | case13 =>
    rintro ⟨⟩
    exact fits_guard _ rfl rfl
  | case14 parts subject =>
    rw [get_bind]
    cases hrows : rows? store parts substitution subject with
    | none =>
      rintro ⟨⟩
      exact .stop
    | some rows =>
      rintro ⟨⟩
      exact .fork rfl (map_fst_of_mem_rows hrows)
  | case5 | case15 =>
    rintro ⟨⟩
    exact .stop
  | case16 => exact fits_compute

theorem fits_step {position : Nat} {progress : Progress}
    (stepped : step position instruction stack substitution store = .ok progress last) :
    Fits instruction (stack.drop instruction.pops) substitution progress := by
  rw [step] at stepped
  split at stepped
  · exact fits_perform stepped
  · cases stepped

/-! ### Runs -/

/-- What is collected comes from some member, whose turn it was in some store. -/
theorem exists_of_mem_collect {α β : Type} {results : α → Interning (List β)} {members : List α}
    {all : List β} (collected : collect results members store = .ok all last) {result : β}
    (member : result ∈ all) : ∃ found ∈ members, ∃ before part after,
      results found before = .ok part after ∧ result ∈ part := by
  induction members generalizing store all with
  | nil =>
    cases collected
    cases member
  | cons first members ih =>
    rw [collect] at collected
    obtain ⟨part, middle, hfirst, collected⟩ := exists_of_bind_eq_ok collected
    obtain ⟨rest, final, hrest, ⟨⟩⟩ := exists_of_bind_eq_ok collected
    rcases List.mem_append.1 member with member | member
    · exact ⟨first, List.mem_cons_self, _, _, _, hfirst, member⟩
    · obtain ⟨found, hfound, others⟩ := ih hrest member
      exact ⟨found, List.mem_cons_of_mem _ hfound, others⟩

/-- **Every outcome binds the slots that the check of the code answers.** -/
theorem binds_of_outcomes {code : List Instruction} {position depth : Nat} {bound final : List Nat}
    (checked : Rule.checkCode code position depth bound = .ok final)
    (binds : substitution.Binds bound) {results : List Substitution}
    (ran : outcomes code position stack substitution store = .ok results last) :
    ∀ outcome ∈ results, outcome.Binds final := by
  induction code generalizing position depth bound stack substitution store results last with
  | nil =>
    cases checked
    cases ran
    intro outcome member
    rw [List.mem_singleton.1 member]
    exact binds
  | cons instruction code ih =>
    have admits := Rule.admits_of_checkCode checked
    rw [outcomes] at ran
    obtain ⟨progress, middle, stepped, ran⟩ := exists_of_bind_eq_ok ran
    cases fits_step stepped with
    | stop =>
      cases ran
      simp
    | next _ hbinds => exact ih admits.rest (hbinds _ binds) ran
    | fork _ covers =>
      -- Each row goes on by itself, in the store that the rows before it have left.
      intro outcome member
      obtain ⟨row, hrow, before, part, after, hresult, hpart⟩ := exists_of_mem_collect ran member
      obtain ⟨answer, again, hbind, hresult⟩ := exists_of_bind_eq_ok hresult
      cases answer with
      | none =>
        cases hresult
        cases hpart
      | some branch =>
        have hbranch := binds_of_bindRow binds hbind
        rw [covers row hrow] at hbranch
        exact ih admits.rest hbranch hresult outcome hpart

end Machine

end StableModels
