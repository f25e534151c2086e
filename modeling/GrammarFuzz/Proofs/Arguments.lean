import GrammarFuzz.Command.Options
import Mathlib.Data.List.Induction

/-! The command line by its groups. A line without help and without an unknown strategy falls into
switches, options with their values and arguments that mean nothing, perhaps with an option at the
end that lacks its value. Which argument belongs to which group is settled from left to right by
looking one ahead, and what is read is then described by the groups as a whole: the last value of an
option decides, rules to duplicate are collected, and the order of groups of different options does
not matter. -/
namespace GrammarFuzz

namespace Options

/-- The options that take the next argument as their value. -/
def valued : List String := setters.map Prod.fst

def switches : List String := flags.map Prod.fst

/-- Read from a place on, moving past each argument and past the value that is looked for after
it. -/
def scan (arguments : List String) (o : Options) (place : Nat) : Request × List String :=
  if more : place < arguments.length then
    let argument := arguments.get ⟨place, more⟩
    match setters.lookup argument with
    | some set =>
        if ahead : place + 1 < arguments.length then
          let value := arguments.get ⟨place + 1, ahead⟩
          match set value o with
          | some o => scan arguments o (place + 2)
          | none => (.unknownStrategy value, [])
        else scan arguments o (place + 2)
    | none =>
        match flags.lookup argument with
        | some set => scan arguments (set o) (place + 1)
        | none =>
            if argument = "--help" ∨ argument = "-h" then (.help, [])
            else
              let (request, ignored) := scan arguments o (place + 1)
              (request, argument :: ignored)
  else (.run o, [])
termination_by arguments.length - place

/-- Read a line whose first argument is the name of the program. -/
def scanLine (arguments : List String) : Request × List String := scan arguments {} 1

section Reading

variable {o o' : Options} {name value argument : String} {rest : List String}

theorem read_setting {set : Setter} (known : setters.lookup name = some set)
    (accepted : set value o = some o') :
    read o (name :: value :: rest) = read o' rest := by
  rw [read, known]
  simp only [accepted]

theorem read_refused {set : Setter} (known : setters.lookup name = some set)
    (refused : set value o = none) :
    read o (name :: value :: rest) = (.unknownStrategy value, []) := by
  rw [read, known]
  simp only [refused]

theorem read_cut {set : Setter} (known : setters.lookup name = some set) :
    read o [name] = (.run o, []) := by
  rw [read, known]

theorem read_switch {set : Options → Options} (valueless : setters.lookup name = none)
    (known : flags.lookup name = some set) : read o (name :: rest) = read (set o) rest := by
  rw [read, valueless, known]

theorem read_help (valueless : setters.lookup name = none) (unknown : flags.lookup name = none)
    (help : name = "--help" ∨ name = "-h") : read o (name :: rest) = (.help, []) := by
  rw [read, valueless, unknown]
  exact if_pos help

theorem read_stray (valueless : setters.lookup argument = none)
    (unknown : flags.lookup argument = none) (wanted : ¬(argument = "--help" ∨ argument = "-h")) :
    read o (argument :: rest) = ((read o rest).1, argument :: (read o rest).2) := by
  rw [read, valueless, unknown]
  exact if_neg wanted

end Reading

theorem scan_eq_read (arguments : List String) (o : Options) (place : Nat) :
    scan arguments o place = read o (arguments.drop place) := by
  have moved {place : Nat} (more : place < arguments.length) :
      arguments.drop place = arguments.get ⟨place, more⟩ :: arguments.drop (place + 1) :=
    List.drop_eq_getElem_cons more
  fun_induction scan arguments o place with
  | case1 o place more argument set known ahead value _ accepted ih =>
      rw [moved more, moved ahead, ih, read_setting known accepted]
  | case2 o place more argument set known ahead value refused =>
      rw [moved more, moved ahead, read_refused known refused]
  | case3 o place more argument set known last ih =>
      have nothing : arguments.drop (place + 1) = [] :=
        List.drop_eq_nil_of_le (Nat.le_of_not_lt last)
      have beyond : arguments.drop (place + 2) = [] :=
        List.drop_eq_nil_of_le (Nat.le_succ_of_le (Nat.le_of_not_lt last))
      rw [ih, beyond, moved more, nothing, read, read_cut known]
  | case4 o place more argument valueless set known ih =>
      rw [moved more, ih, read_switch valueless known]
  | case5 o place more argument valueless unknown help =>
      rw [moved more, read_help valueless unknown help]
  | case6 o place more argument valueless unknown wanted request ignored result ih =>
      rw [moved more, read_stray valueless unknown wanted, ← ih, result]
  | case7 o place ended => rw [List.drop_eq_nil_of_le (Nat.le_of_not_lt ended), read]

end Options

open Options

/-- One thing said on a command line. -/
inductive Group where
  | switch (name : String)
  | setting (name value : String)
  | stray (argument : String)
  deriving DecidableEq

namespace Group

def spell : Group → List String
  | switch name => [name]
  | setting name value => [name, value]
  | stray argument => [argument]

/-- Its name is taken for what it is meant to be, and a strategy is one that there is. A value may
be any text. -/
def Readable : Group → Prop
  | switch name => name ∈ switches
  | setting name value =>
      name ∈ valued ∧ (name = "--strategy" → (StrategyKind.ofName? value).isSome)
  | stray argument =>
      argument ∉ valued ∧ argument ∉ switches ∧ argument ≠ "--help" ∧ argument ≠ "-h"

instance : DecidablePred Readable
  | switch name => inferInstanceAs (Decidable (name ∈ switches))
  | setting name value =>
      inferInstanceAs (Decidable (name ∈ valued ∧
        (name = "--strategy" → (StrategyKind.ofName? value).isSome)))
  | stray argument => inferInstanceAs (Decidable
      (argument ∉ valued ∧ argument ∉ switches ∧ argument ≠ "--help" ∧ argument ≠ "-h"))

/-- The value for an option of a name. -/
def value? (name : String) : Group → Option String
  | setting other value => if other = name then some value else none
  | _ => none

def stray? : Group → Option String
  | stray argument => some argument
  | _ => none

/-- What a group does to the options read before it. -/
def apply (o : Options) : Group → Options
  | switch name => (flags.lookup name).elim o (· o)
  | setting name value => ((setters.lookup name).bind (· value o)).getD o
  | stray _ => o

end Group

namespace Options

variable {groups groups' : List Group} {trailing? : Option String} {name : String}

/-- The values given for an option, in order. -/
def given (name : String) (groups : List Group) : List String := groups.filterMap (·.value? name)

/-- The last number given for an option, if it is one. -/
def number? (name : String) (groups : List Group) : Option Nat :=
  (given name groups).getLast?.bind Number.readWord?

theorem number?_eq_some_iff {number : Nat} : number? name groups = some number ↔
    ∃ text, (given name groups).getLast? = some text ∧ Number.Denotes text number ∧
      number < UInt64.size := by
  simp only [number?, Option.bind_eq_some_iff, Number.readWord?_eq_some_iff]

/-- The options that groups stand for. The last value of an option decides, and where it is
malformed there is none; rules to duplicate are collected. -/
def chosen (groups : List Group) : Options where
  grammar := .ofArgument ((given "--grammar" groups).getLast?.getD "expr")
  kind := ((given "--strategy" groups).getLast?.bind StrategyKind.ofName?).getD .foresight
  config := {
    seed := UInt64.ofNat ((number? "--seed" groups).getD 42)
    minPending := (number? "--min-nonterminals" groups).getD 0
    maxPending := (number? "--max-nonterminals" groups).getD 10
    maxGenerations := (number? "--generations" groups).getD 1000 }
  trials := (number? "--trials" groups).getD 0
  duplications := (given "--duplicate" groups).map .ofArgument
  depth? := number? "--depth" groups
  output? := (given "--output" groups).getLast?
  json := decide (.switch "--json" ∈ groups)
  verbose := decide (.switch "--verbose" ∈ groups)

/-- The arguments that spell groups, perhaps with an option at the end that lacks its value. -/
def spelled (groups : List Group) (trailing? : Option String) : List String :=
  groups.flatMap Group.spell ++ trailing?.toList

theorem spelled_cons (group : Group) :
    spelled (group :: groups) trailing? = group.spell ++ spelled groups trailing? := by
  simp only [spelled, List.flatMap_cons, List.append_assoc]

theorem exists_setter {value : String} (readable : (Group.setting name value).Readable)
    (o : Options) :
    ∃ set after, setters.lookup name = some set ∧ set value o = some after := by
  obtain ⟨known, there⟩ := readable
  simp only [valued, setters, List.map_cons, List.map_nil, List.mem_cons, List.not_mem_nil,
    or_false] at known
  rcases known with rfl | rfl | rfl | rfl | rfl | rfl | rfl | rfl | rfl | rfl
  case inr.inl =>
    obtain ⟨kind, named⟩ := Option.isSome_iff_exists.mp (there rfl)
    exact ⟨_, { o with kind }, rfl, by simp [named]⟩
  all_goals exact ⟨_, _, rfl, rfl⟩

theorem lookup_eq_none_iff {β : Type} {entries : List (String × β)} :
    entries.lookup name = none ↔ name ∉ entries.map Prod.fst := by
  simp only [List.lookup_eq_none_iff, bne_iff_ne, List.mem_map, not_exists, not_and]
  exact ⟨fun other entry listed same => other entry listed same.symm,
    fun other entry listed same => other entry listed same.symm⟩

theorem exists_lookup_iff {β : Type} {entries : List (String × β)} :
    (∃ entry, entries.lookup name = some entry) ↔ name ∈ entries.map Prod.fst := by
  rw [← Option.ne_none_iff_exists', ne_eq, lookup_eq_none_iff, not_not]

theorem not_mem_valued_of_mem_switches (known : name ∈ switches) : name ∉ valued := by
  have apart : ∀ name ∈ switches, name ∉ valued := by decide
  exact apart name known

/-- Reading one group is doing what it says. -/
theorem read_group {group : Group} (readable : group.Readable) (o : Options) (rest : List String) :
    read o (group.spell ++ rest) =
      ((read (group.apply o) rest).1, group.stray?.toList ++ (read (group.apply o) rest).2) := by
  cases group with
  | switch name =>
      obtain ⟨set, known⟩ := exists_lookup_iff.mpr readable
      have applied : (Group.switch name).apply o = set o := by simp [Group.apply, known]
      rw [applied]
      exact read_switch (lookup_eq_none_iff.mpr (not_mem_valued_of_mem_switches readable)) known
  | setting name value =>
      obtain ⟨set, after, known, accepted⟩ := exists_setter readable o
      have applied : (Group.setting name value).apply o = after := by
        simp [Group.apply, known, accepted]
      rw [applied]
      exact read_setting known accepted
  | stray argument =>
      obtain ⟨valueless, unknown, wanted⟩ := readable
      exact read_stray (lookup_eq_none_iff.mpr valueless) (lookup_eq_none_iff.mpr unknown)
        (not_or.mpr wanted)

/-- Groups are read one after the other: each does what it says, and the arguments that mean nothing
are reported in order. -/
theorem read_spelled (readable : ∀ group ∈ groups, group.Readable)
    (cut : ∀ name ∈ trailing?, name ∈ valued)
    (o : Options) : read o (spelled groups trailing?) =
      (.run (groups.foldl (fun o group => group.apply o) o),
      groups.filterMap Group.stray?) := by
  induction groups generalizing o with
  | nil =>
      cases trailing? with
      | none => rfl
      | some name =>
          obtain ⟨set, known⟩ := exists_lookup_iff.mpr (cut name rfl)
          exact read_cut known
  | cons group rest ih =>
      have first := readable group List.mem_cons_self
      have further :=
        ih (fun other listed => readable other (List.mem_cons_of_mem _ listed)) (group.apply o)
      rw [spelled_cons, read_group first, further]
      cases group <;> rfl

@[simp]
theorem given_append : given name (groups ++ groups') = given name groups ++ given name groups' :=
  List.filterMap_append

@[simp]
theorem given_cons {group : Group} :
    given name (group :: groups) = (group.value? name).toList ++ given name groups := by
  simp only [given, List.filterMap_cons]
  cases group.value? name <;> rfl

@[simp]
theorem given_nil : given name [] = [] := rfl

/-- A group that is said last does what it says. -/
theorem chosen_concat {group : Group} (readable : group.Readable) :
    chosen (groups ++ [group]) = group.apply (chosen groups) := by
  cases group with
  | switch name =>
      simp only [Group.Readable, switches, flags, List.map_cons, List.map_nil, List.mem_cons,
        List.not_mem_nil, or_false] at readable
      rcases readable with rfl | rfl <;>
        simp [chosen, number?, Group.value?, Group.apply, flags, List.lookup_cons]
  | stray argument => simp [chosen, number?, Group.value?, Group.apply]
  | setting name value =>
      obtain ⟨known, there⟩ := readable
      simp only [valued, setters, List.map_cons, List.map_nil, List.mem_cons, List.not_mem_nil,
        or_false] at known
      rcases known with rfl | rfl | rfl | rfl | rfl | rfl | rfl | rfl | rfl | rfl
      case inr.inl =>
        obtain ⟨kind, named⟩ := Option.isSome_iff_exists.mp (there rfl)
        simp [chosen, number?, Group.value?, Group.apply, setters, named, List.lookup_cons]
      all_goals simp [chosen, number?, Group.value?, Group.apply, setters, List.lookup_cons, count]

/-- Doing what the groups say, one after the other, leaves the options that they stand for: the last
group decides what it speaks of, and the groups before it the rest. -/
theorem foldl_apply_eq_chosen (readable : ∀ group ∈ groups, group.Readable) :
    groups.foldl (fun o group => group.apply o) {} = chosen groups := by
  induction groups using List.reverseRecOn with
  | nil => rfl
  | append_singleton groups last ih =>
      have before := ih fun group listed => readable group (List.mem_append_left _ listed)
      rw [List.foldl_append, List.foldl_cons, List.foldl_nil, before,
        chosen_concat (readable last (by simp))]

theorem ofArguments_spelled (readable : ∀ group ∈ groups, group.Readable)
    (cut : ∀ name ∈ trailing?, name ∈ valued) :
    ofArguments (spelled groups trailing?) =
      (.run (chosen groups), groups.filterMap Group.stray?) := by
  rw [ofArguments, read_spelled readable cut, foldl_apply_eq_chosen readable]

theorem scanLine_eq_ofArguments (program : String) (arguments : List String) :
    scanLine (program :: arguments) = ofArguments arguments :=
  scan_eq_read (program :: arguments) {} 1

/-- Only the last value of an option matters, but for rules to duplicate. -/
theorem chosen_congr
    (last : ∀ name ∈ valued, name ≠ "--duplicate" →
      (given name groups').getLast? = (given name groups).getLast?)
    (collected : given "--duplicate" groups' = given "--duplicate" groups)
    (said : ∀ name ∈ switches, .switch name ∈ groups' ↔ .switch name ∈ groups) :
    chosen groups' = chosen groups := by
  simp only [chosen, number?, collected, last "--grammar" (by decide) (by decide),
    last "--strategy" (by decide) (by decide), last "--seed" (by decide) (by decide),
    last "--min-nonterminals" (by decide) (by decide),
    last "--max-nonterminals" (by decide) (by decide),
    last "--generations" (by decide) (by decide), last "--trials" (by decide) (by decide),
    last "--depth" (by decide) (by decide), last "--output" (by decide) (by decide),
    said "--json" (by decide),
    said "--verbose" (by decide)]

/-- The same groups in another order, but those of one option in the same order. -/
structure Reordered (groups groups' : List Group) : Prop where
  perm : groups'.Perm groups
  same : ∀ name ∈ valued, given name groups' = given name groups

theorem Reordered.chosen_eq (reordered : Reordered groups groups') :
    chosen groups' = chosen groups :=
  chosen_congr (fun name known _ => by rw [reordered.same name known])
    (reordered.same "--duplicate" (by decide))
    fun _ _ => reordered.perm.mem_iff

theorem chosen_filter_stray (groups : List Group) :
    chosen (groups.filter (·.stray?.isNone)) = chosen groups := by
  have same (name : String) : given name (groups.filter (·.stray?.isNone)) = given name groups := by
    rw [given, given, List.filterMap_filter]
    congr 1
    funext group
    cases group <;> rfl
  refine chosen_congr (fun name _ _ => by rw [same]) (same "--duplicate") fun name _ => ?_
  simp [Group.stray?]

/-- A value that comes before another of its option is not looked at. -/
theorem chosen_override {before after : List Group} {value later : String}
    (single : name ≠ "--duplicate") (again : .setting name later ∈ after) :
    chosen (before ++ after) = chosen (before ++ .setting name value :: after) := by
  have apart {other : String} (different : name ≠ other) :
      given other (before ++ after) = given other (before ++ .setting name value :: after) := by
    simp [Group.value?, different]
  refine chosen_congr (fun other _ _ => ?_) (apart single) fun other _ => by simp
  by_cases same : name = other
  case neg => rw [apart same]
  case pos =>
    subst same
    have listed : later ∈ given name after :=
      List.mem_filterMap.mpr ⟨_, again, by simp [Group.value?]⟩
    obtain ⟨last, ending⟩ :=
      Option.isSome_iff_exists.mp (List.getLast?_isSome.mpr (List.ne_nil_of_mem listed))
    simp [Group.value?, List.getLast?_cons, ending]

/-- A line falls into groups. -/
def Grouped (arguments : List String) : Prop :=
  ∃ groups trailing?, (∀ group ∈ groups, Group.Readable group) ∧
    (∀ name ∈ trailing?, name ∈ valued) ∧
    arguments = spelled groups trailing?

theorem Grouped.cons {group : Group} {rest : List String} (readable : group.Readable)
    (grouped : Grouped rest) :
    Grouped (group.spell ++ rest) := by
  obtain ⟨groups, trailing?, known, cut, rfl⟩ := grouped
  exact ⟨group :: groups, trailing?, List.forall_mem_cons.mpr ⟨readable, known⟩, cut,
    (spelled_cons group).symm⟩

theorem readable_setting {set : Setter} {value : String} {o after : Options}
    (known : setters.lookup name = some set)
    (accepted : set value o = some after) : (Group.setting name value).Readable := by
  refine ⟨exists_lookup_iff.mp ⟨set, known⟩, fun strategy => ?_⟩
  subst strategy
  cases known
  obtain ⟨kind, named, _⟩ := Option.map_eq_some_iff.mp accepted
  exact Option.isSome_iff_exists.mpr ⟨kind, named⟩

/-- A line that is read to its end falls into groups. The cases are those of the reading. -/
theorem grouped_of_read_eq_run {arguments : List String} {o after : Options}
    (ran : (read o arguments).1 = .run after) : Grouped arguments := by
  fun_induction read o arguments with
  | case1 => exact ⟨[], none, by simp, by simp, rfl⟩
  | case2 o name set known =>
      have valued : name ∈ valued := exists_lookup_iff.mp ⟨set, known⟩
      exact ⟨[], some name, by simp, by simpa using valued, rfl⟩
  | case3 o name set known value rest after accepted ih =>
      exact (ih ran).cons (readable_setting known accepted)
  | case4 => cases ran
  | case5 o name rest valueless set known ih =>
      have readable : (Group.switch name).Readable := exists_lookup_iff.mp ⟨set, known⟩
      exact (ih ran).cons readable
  | case6 => cases ran
  | case7 o argument rest valueless unknown wanted request ignored result ih =>
      have readable : (Group.stray argument).Readable :=
        ⟨lookup_eq_none_iff.mp valueless, lookup_eq_none_iff.mp unknown, not_or.mp wanted⟩
      rw [result] at ih
      exact (ih ran).cons readable

/-- Options are read from a line exactly if it falls into groups, and then they are what the groups
stand for. -/
theorem ofArguments_eq_run_iff {arguments ignored : List String} {o : Options} :
    ofArguments arguments = (.run o, ignored) ↔
      ∃ groups trailing?, (∀ group ∈ groups, Group.Readable group) ∧
        (∀ name ∈ trailing?, name ∈ valued) ∧
        arguments = spelled groups trailing? ∧ o = chosen groups ∧
        ignored = groups.filterMap Group.stray? := by
  constructor
  case mpr =>
    rintro ⟨groups, trailing?, readable, cut, rfl, rfl, rfl⟩
    exact ofArguments_spelled readable cut
  case mp =>
    intro ran
    obtain ⟨groups, trailing?, readable, cut, rfl⟩ := grouped_of_read_eq_run (congrArg Prod.fst ran)
    rw [ofArguments_spelled readable cut] at ran
    obtain ⟨same, listed⟩ := Prod.mk.inj ran
    exact ⟨groups, trailing?, readable, cut, rfl, (Request.run.inj same).symm, listed.symm⟩

/-- What a line of groups comes to. It is described by the groups and not by their arrangement: any
order will do that keeps the values of one option in turn, and arguments that mean nothing, an
option at the end without its value and values that are overridden may be left out. A number is what
the decimal digits of the last value stand for, if they are no more than 64 bits can hold. -/
theorem ofArguments_order {groups : List Group} {trailing? : Option String}
    (readable : ∀ group ∈ groups, group.Readable) (cut : ∀ name ∈ trailing?, name ∈ valued) :
    ofArguments (spelled groups trailing?) = (.run (chosen groups), groups.filterMap Group.stray?) ∧
      (∀ program, scanLine (program :: spelled groups trailing?) =
        ofArguments (spelled groups trailing?)) ∧
      (∀ groups' trailing?', Reordered groups groups' → (∀ name ∈ trailing?', name ∈ valued) →
        (ofArguments (spelled groups' trailing?')).1 =
          (ofArguments (spelled groups trailing?)).1) ∧
      (ofArguments (spelled (groups.filter (·.stray?.isNone)) none)).1 =
        (ofArguments (spelled groups trailing?)).1 ∧
      (∀ before name value later after, groups = before ++ .setting name value :: after →
        name ≠ "--duplicate" → .setting name later ∈ after →
        (ofArguments (spelled (before ++ after) trailing?)).1 =
          (ofArguments (spelled groups trailing?)).1) ∧
      ∀ name number, number? name groups = some number ↔
        ∃ text, (given name groups).getLast? = some text ∧ Number.Denotes text number ∧
          number < UInt64.size := by
  have read := ofArguments_spelled readable cut
  refine ⟨read, fun program => scanLine_eq_ofArguments program _,
    fun groups' trailing?' reordered cut' => ?_, ?_, ?_, fun _ _ => number?_eq_some_iff⟩
  · have readable' : ∀ group ∈ groups', group.Readable := fun group listed =>
      readable group (reordered.perm.mem_iff.mp listed)
    rw [read, ofArguments_spelled readable' cut', reordered.chosen_eq]
  · have readable' : ∀ group ∈ groups.filter (·.stray?.isNone), group.Readable :=
      fun group listed => readable group (List.mem_filter.mp listed).1
    rw [read, ofArguments_spelled readable' (by simp), chosen_filter_stray]
  · rintro before name value later after rfl single again
    have readable' : ∀ group ∈ before ++ after, group.Readable := by
      intro group listed
      refine readable group ?_
      simp only [List.mem_append, List.mem_cons] at listed ⊢
      exact listed.imp_right .inr
    rw [read, ofArguments_spelled readable' cut, chosen_override single again]

/-- A value may look like an option, a number may have a plus sign, and a malformed seed does not
bring the earlier one back. -/
theorem ofArguments_order_seeds :
    ofArguments ["--seed", "7", "--trials", "+3", "digits", "--output", "--json", "--seed", "1e3",
        "--duplicate", "<digit>", "--verbose", "--duplicate", "<digit>=1", "--depth"] =
      (.run { trials := 3, duplications := [⟨"<digit>", none⟩, ⟨"<digit>", some "1"⟩],
              output? := some "--json", verbose := true }, ["digits"]) ∧
    (ofArguments ["--verbose", "--duplicate", "<digit>", "--seed", "7", "--seed", "1e3",
        "--duplicate", "<digit>=1", "digits", "--output", "--json", "--trials", "+3"]).1 =
      .run { trials := 3, duplications := [⟨"<digit>", none⟩, ⟨"<digit>", some "1"⟩],
             output? := some "--json", verbose := true } ∧
    Number.Denotes "+3" 3 := by
  let groups : List Group := [.setting "--seed" "7", .setting "--trials" "+3", .stray "digits",
    .setting "--output" "--json", .setting "--seed" "1e3", .setting "--duplicate" "<digit>",
    .switch "--verbose", .setting "--duplicate" "<digit>=1"]
  have readable : ∀ group ∈ groups, Group.Readable group := by decide
  have cut : ∀ name ∈ some "--depth", name ∈ valued := by decide
  obtain ⟨read, _, permuted, _, _, numbers⟩ := ofArguments_order readable cut
  have again := permuted [.switch "--verbose", .setting "--duplicate" "<digit>",
    .setting "--seed" "7", .setting "--seed" "1e3", .setting "--duplicate" "<digit>=1",
    .stray "digits", .setting "--output" "--json", .setting "--trials" "+3"] none
    ⟨by decide, by decide⟩ (by decide)
  rw [read] at again
  have last : (given "--trials" groups).getLast? = some "+3" := by decide
  obtain ⟨_, found, three, _⟩ := (numbers "--trials" 3).mp (by decide)
  cases last.symm.trans found
  exact ⟨read.trans (by decide), again.trans (by decide), three⟩

end Options
end GrammarFuzz
