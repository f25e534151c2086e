import GrammarFuzz.Command.Run
import GrammarFuzz.Proofs.Arguments
import GrammarFuzz.Proofs.Edits
import GrammarFuzz.Proofs.KeyForms
import Mathlib.Data.List.TakeWhile

/-! Requests for duplications on a command line. A request is a symbol, alone or followed by an
equals sign and the text of one expansion. The text may contain anything, since the first equals
sign is the separator, but so may a symbol: one that contains an equals sign is cut inside, what is
left of it is no nonterminal, and no other argument names it either. All other requests are carried
out as they are made. -/
namespace GrammarFuzz

namespace Duplication

variable {request : Duplication} {text : String} {front rest : List Char}

/-- How a request is made. -/
def argument (request : Duplication) : String := request.symbol ++ request.only?.elim "" ("=" ++ ·)

theorem ofArgument_plain (plain : '=' ∉ text.toList) : ofArgument text = ⟨text, none⟩ := by
  have uncut : text.toList.dropWhile (· != '=') = [] :=
    List.dropWhile_eq_nil_iff.mpr fun c listed => bne_iff_ne.mpr fun same => plain (same ▸ listed)
  simp only [ofArgument, uncut]

theorem ofArgument_cut (spelled : text.toList = front ++ '=' :: rest) (plain : '=' ∉ front) :
    ofArgument text = ⟨String.ofList front, some (String.ofList rest)⟩ := by
  have before : ∀ c ∈ front, (c != '=') = true :=
    fun c listed => bne_iff_ne.mpr fun same => plain (same ▸ listed)
  have taken : text.toList.takeWhile (· != '=') = front := by
    rw [spelled, List.takeWhile_append_of_pos before, List.takeWhile_cons_of_neg (by simp),
      List.append_nil]
  have dropped : text.toList.dropWhile (· != '=') = '=' :: rest := by
    rw [spelled, List.dropWhile_append_of_pos before, List.dropWhile_cons_of_neg (by simp)]
  simp only [ofArgument, taken, dropped]

/-- The symbol is what stands before the first equals sign. -/
theorem not_mem_symbol_ofArgument (text : String) : '=' ∉ (ofArgument text).symbol.toList := by
  by_cases cut : '=' ∈ text.toList
  case neg => exact ofArgument_plain cut ▸ cut
  case pos =>
    obtain ⟨front, rest, spelled, plain⟩ := List.eq_append_cons_of_mem cut
    rw [ofArgument_cut spelled plain, String.toList_ofList]
    exact plain

theorem ofArgument_argument (plain : '=' ∉ request.symbol.toList) :
    ofArgument request.argument = request := by
  obtain ⟨symbol, only?⟩ := request
  cases only? with
  | none => simpa [argument] using ofArgument_plain plain
  | some expansion =>
      have spelled : (argument ⟨symbol, some expansion⟩).toList =
          symbol.toList ++ '=' :: expansion.toList := by
        simp [argument]
      simpa using ofArgument_cut spelled plain

/-- A request can be made if its symbol has no equals sign, and otherwise no argument makes it. -/
theorem exists_ofArgument_iff : (∃ text, ofArgument text = request) ↔
    '=' ∉ request.symbol.toList := by
  constructor
  case mp =>
    rintro ⟨text, rfl⟩
    exact not_mem_symbol_ofArgument text
  case mpr => exact fun plain => ⟨request.argument, ofArgument_argument plain⟩

theorem ofArgument_argument_iff : ofArgument request.argument = request ↔
    '=' ∉ request.symbol.toList :=
  ⟨fun same => exists_ofArgument_iff.mp ⟨_, same⟩, ofArgument_argument⟩

/-- No nonterminal is the front of another. -/
theorem isNonterminal_symbol_ofArgument (closed : isNonterminal request.symbol = true)
    (cut : '=' ∈ request.symbol.toList) :
    isNonterminal (ofArgument request.argument).symbol = false := by
  obtain ⟨front, rest, spelled, plain⟩ := List.eq_append_cons_of_mem cut
  have longer : request.argument.toList = front ++
      '=' :: (rest ++ (request.only?.elim "" ("=" ++ ·)).toList) := by
    rw [argument, String.toList_append, spelled, List.append_assoc, List.cons_append]
  rw [ofArgument_cut longer plain]
  refine Bool.eq_false_iff.mpr fun closed' => ?_
  have inside : (String.ofList front).toList <:+: request.symbol.toList := by
    rw [spelled, String.toList_ofList]
    exact (List.prefix_append _ _).isInfix
  have same := eq_of_isInfix closed' closed inside
  rw [← same, String.toList_ofList] at cut
  exact plain cut

/-- The edit that a request asks for. -/
def edit (depth? : Option Nat) (request : Duplication) : Edit :=
  .duplicate request.symbol request.only? depth?

end Duplication

namespace Edit

/-- Make edits in place one after the other, up to the first that fails. -/
def inTurn (edits : List Edit) (g : Grammar) : Except GrammarError Grammar :=
  ((edits.forM program).run.run g).1.map fun _ => ((edits.forM program).run.run g).2

theorem inTurn_eq_foldlM (edits : List Edit) (g : Grammar) :
    inTurn edits g = edits.foldlM result g := by
  induction edits generalizing g with
  | nil => rfl
  | cons edit rest ih =>
      have applied : edit.program.run.run g = g.settle (edit.result g) := edit.apply_eq g
      have unrolled : (edit :: rest).forM program = edit.program >>=
          fun _ => rest.forM program := rfl
      rw [List.foldlM_cons]
      cases ended : edit.result g with
      | ok after =>
          rw [ended] at applied
          have further : ((edit :: rest).forM program).run.run g =
              (rest.forM program).run.run after := by
            rw [unrolled, ExceptT.run_bind, StateT.run_bind, applied]
            rfl
          rw [inTurn, further]
          exact ih after
      | error error =>
          rw [ended] at applied
          have further : ((edit :: rest).forM program).run.run g = (.error error, g) := by
            rw [unrolled, ExceptT.run_bind, StateT.run_bind, applied]
            rfl
          rw [inTurn, further]
          rfl

/-- Where all edits go well, each of them is made on a valid grammar. -/
theorem exists_result_of_mem (edits : List Edit) :
    ∀ {g after : Grammar}, g.Valid → inTurn edits g = .ok after →
    ∀ edit ∈ edits, ∃ held next : Grammar, held.Valid ∧ edit.result held = .ok next := by
  induction edits with
  | nil => simp
  | cons first rest ih =>
      intro g after valid ended
      rw [inTurn_eq_foldlM, List.foldlM_cons] at ended
      cases made : first.result g with
      | error error =>
          rw [made] at ended
          contradiction
      | ok next =>
          rw [made] at ended
          have others : inTurn rest next = .ok after := (inTurn_eq_foldlM rest next).trans ended
          exact List.forall_mem_cons.mpr ⟨⟨g, next, valid, made⟩,
            ih (valid_result valid made) others⟩

end Edit

namespace Grammar

/-- A run prepares its grammar by the edits that its options ask for. -/
theorem prepare_eq_inTurn (options : Options) (g : Grammar) : Run.prepare options g =
    Edit.inTurn (options.duplications.map (·.edit options.depth?) ++
      [.trim options.config.start]) g := by
  rw [Edit.inTurn_eq_foldlM, List.foldlM_append, List.foldlM_map, Run.prepare]
  refine bind_congr fun copied => ?_
  have trimmed : [Edit.trim options.config.start].foldlM Edit.result copied =
      (copied.trim options.config.start).map Prod.snd := bind_pure _
  rw [trimmed]
  cases copied.trim options.config.start <;> rfl

/-- A request for a symbol with an equals sign ends a run before anything is generated. -/
theorem prepare_ne_ok {options : Options} {g : Grammar} (valid : g.Valid) {request : Duplication}
    (closed : isNonterminal request.symbol = true) (cut : '=' ∈ request.symbol.toList)
    (asked : Duplication.ofArgument request.argument ∈ options.duplications) (kept : Grammar) :
    Run.prepare options g ≠ .ok kept := by
  intro prepared
  rw [prepare_eq_inTurn] at prepared
  have made : (Duplication.ofArgument request.argument).edit options.depth? ∈
      options.duplications.map (·.edit options.depth?) ++ [.trim options.config.start] :=
    List.mem_append_left _ (List.mem_map_of_mem asked)
  obtain ⟨held, next, valid', duplicated⟩ := Edit.exists_result_of_mem _ valid prepared _ made
  have known := (valid' _ (duplicateContext_eq_ok duplicated).1).1
  rw [Duplication.isNonterminal_symbol_ofArgument closed cut] at known
  contradiction

end Grammar

namespace Options

theorem ofArgument_requests_eq_iff {requests : List Duplication} :
    requests.map (fun request => Duplication.ofArgument request.argument) = requests ↔
      ∀ request ∈ requests, '=' ∉ request.symbol.toList := by
  have each : requests.map (fun request => Duplication.ofArgument request.argument) =
      requests.map id ↔
      ∀ request ∈ requests, Duplication.ofArgument request.argument = request := List.map_inj_left
  rw [List.map_id] at each
  exact each.trans (forall₂_congr fun _ _ => Duplication.ofArgument_argument_iff)

/-- Requests on a command line are served exactly if no symbol in them has an equals sign. Then
rules are duplicated as asked, in this order, and trimmed at the end; otherwise the run fails on
every grammar, and no other argument would have made the request. -/
theorem requests_served_iff {groups : List Group} {trailing? : Option String}
    {requests : List Duplication}
    (readable : ∀ group ∈ groups, group.Readable) (cut : ∀ name ∈ trailing?, name ∈ valued)
    (asked : given "--duplicate" groups = requests.map Duplication.argument)
    (closed : ∀ request ∈ requests, isNonterminal request.symbol = true) :
    (∀ request : Duplication,
      (Duplication.ofArgument request.argument = request ↔ '=' ∉ request.symbol.toList) ∧
      ((∃ text, Duplication.ofArgument text = request) ↔ '=' ∉ request.symbol.toList)) ∧
    ∃ options, (ofArguments (spelled groups trailing?)).1 = .run options ∧
      (options.duplications = requests ↔ ∀ request ∈ requests, '=' ∉ request.symbol.toList) ∧
      ((∀ request ∈ requests, '=' ∉ request.symbol.toList) → ∀ g, Run.prepare options g =
        Edit.inTurn (requests.map (·.edit options.depth?) ++ [.trim startSymbol]) g) ∧
      ((∃ request ∈ requests, '=' ∈ request.symbol.toList) → ∀ g : Grammar, g.Valid →
        ∀ kept, Run.prepare options g ≠ .ok kept) := by
  have listed : (chosen groups).duplications =
      requests.map fun request => .ofArgument request.argument := by
    rw [chosen, asked, List.map_map]
    rfl
  refine ⟨fun _ => ⟨Duplication.ofArgument_argument_iff, Duplication.exists_ofArgument_iff⟩,
    chosen groups, congrArg Prod.fst (ofArguments_spelled readable cut), ?_, fun plain g => ?_, ?_⟩
  · rw [listed, ofArgument_requests_eq_iff]
  · rw [Grammar.prepare_eq_inTurn, listed, ofArgument_requests_eq_iff.mpr plain]
    rfl
  · rintro ⟨request, member, inside⟩ g valid kept
    exact Grammar.prepare_ne_ok valid (closed request member) inside
      (listed ▸ List.mem_map_of_mem member) kept

/-- A text with an equals sign is no obstacle. -/
theorem requests_served_pair : ∃ options,
    (ofArguments ["--duplicate", "<pair>=x=y", "--depth", "2", "--duplicate", "<pair>"]).1 =
      .run options ∧
      options.duplications = [⟨"<pair>", some "x=y"⟩, ⟨"<pair>", none⟩] ∧
      ∀ g, Run.prepare options g = Edit.inTurn [.duplicate "<pair>" (some "x=y") options.depth?,
        .duplicate "<pair>" none options.depth?, .trim startSymbol] g := by
  have readable : ∀ group ∈ [.setting "--duplicate" "<pair>=x=y", .setting "--depth" "2",
      .setting "--duplicate" "<pair>"], Group.Readable group := by decide
  have complete : ∀ name ∈ (none : Option String), name ∈ valued := by decide
  have closed : ∀ request ∈ [⟨"<pair>", some "x=y"⟩, ⟨"<pair>", none⟩],
      isNonterminal (Duplication.symbol request) = true := by decide
  have plain : ∀ request ∈ [⟨"<pair>", some "x=y"⟩, ⟨"<pair>", none⟩],
      '=' ∉ (Duplication.symbol request).toList := by decide
  obtain ⟨_, options, read, listed, served, _⟩ :=
    requests_served_iff readable complete (by decide) closed
  exact ⟨options, read, listed.mpr plain, served plain⟩

/-- A symbol with an equals sign, whose rule has nothing to copy. -/
def equated : Grammar := ⟨Rules.ofList [("<start>", ["<a=b>"]), ("<a=b>", ["x", "y"])]⟩

theorem equated_unnamed : equated.Valid ∧ "<a=b>" ∈ equated.symbols ∧
    equated.duplicateContext "<a=b>" none none = .ok equated ∧
    Duplication.ofArgument "<a=b>" = ⟨"<a", some "b>"⟩ ∧
    ∃ options, (ofArguments ["--duplicate", "<a=b>"]).1 = .run options ∧
      Run.prepare options equated = .error (.unknownSymbol "<a") := by
  refine ⟨by decide +kernel, by decide +kernel, by decide +kernel, by decide,
    { duplications := [⟨"<a", some "b>"⟩] }, by decide, ?_⟩
  have refused : equated.duplicateContext "<a" (some "b>") none = .error (.unknownSymbol "<a") := by
    decide +kernel
  rw [Run.prepare, List.foldlM_cons, refused]
  rfl

end Options

end GrammarFuzz
