import Mathlib.Data.List.Forall2
import GrammarFuzz.Reference.Duplicate
import GrammarFuzz.Proofs.Derivation

/-! Duplicating contexts renames and copies rules, and does nothing else. The grammar in the
making is followed together with the origin of each of its symbols; a symbol claimed for a
copy under way has the rule of its origin, which the copied rule refines, so the grammar is
a renamed copy of the source at every moment. -/
namespace GrammarFuzz.Duplicate

/-- A grammar in the making, and what its symbols are copies of. -/
structure Stage where
  grammar : Grammar
  origin : Symbol → Symbol

namespace Stage

/-- Symbols are added and keep their origins. -/
def Grows (before after : Stage) : Prop :=
  ∀ symbol ∈ before.grammar.symbols,
    symbol ∈ after.grammar.symbols ∧ after.origin symbol = before.origin symbol

theorem Grows.refl (stage : Stage) : stage.Grows stage := fun _ member => ⟨member, rfl⟩

theorem Grows.trans {first second third : Stage} (left : first.Grows second)
    (right : second.Grows third) : first.Grows third := fun symbol member =>
  ⟨(right symbol (left symbol member).1).1,
    (right symbol (left symbol member).1).2.trans (left symbol member).2⟩

/-- A renamed copy of the source that has the symbols of the source. -/
structure Renames (source : Grammar) (stage : Stage) : Prop where
  valid : stage.grammar.Valid
  renamed : Grammar.Renaming stage.origin stage.grammar source
  base {symbol : Symbol} : symbol ∈ source.symbols →
    symbol ∈ stage.grammar.symbols ∧ stage.origin symbol = symbol

/-- The invariant while copies are made: the rules of the source are untouched. -/
structure Copies (source : Grammar) (stage : Stage) : Prop extends Renames source stage where
  kept {symbol : Symbol} : symbol ∈ source.symbols →
    stage.grammar.expansions symbol = source.expansions symbol

/-- An expansion over the symbols of a stage that is a renamed copy of another. -/
def Refines (stage : Stage) (expansion copy : Expansion) : Prop :=
  (∀ reference ∈ copy.references, reference ∈ stage.grammar.symbols) ∧
    copy.rename stage.origin = expansion

theorem Refines.grows {before after : Stage} (grows : before.Grows after)
    {expansion copy : Expansion} (refines : before.Refines expansion copy) :
    after.Refines expansion copy :=
  ⟨fun reference member => (grows reference (refines.1 reference member)).1,
    (Expansion.rename_congr fun reference member =>
      (grows reference (refines.1 reference member)).2).trans refines.2⟩

/-- A symbol of a stage that is a copy of another. -/
def Resolves (stage : Stage) (symbol copy : Symbol) : Prop :=
  copy ∈ stage.grammar.symbols ∧ stage.origin copy = symbol

theorem Resolves.grows {before after : Stage} (grows : before.Grows after) {symbol copy : Symbol}
    (resolves : before.Resolves symbol copy) : after.Resolves symbol copy :=
  ⟨(grows copy resolves.1).1, (grows copy resolves.1).2.trans resolves.2⟩

theorem Renames.refines_self {source : Grammar} {stage : Stage} (renames : stage.Renames source)
    (valid : source.Valid) {symbol : Symbol} {expansion : Expansion}
    (member : expansion ∈ source.expansions symbol) : stage.Refines expansion expansion := by
  have known : ∀ reference ∈ expansion.references, reference ∈ source.symbols :=
    fun _ reference => valid.references_mem member reference
  refine ⟨fun reference inside => (renames.base (known reference inside)).1, ?_⟩
  exact (Expansion.rename_congr fun reference inside =>
    (renames.base (known reference inside)).2).trans Expansion.rename_id

theorem refines_map {stage : Stage} {rule copy : List Expansion}
    (refines : List.Forall₂ stage.Refines rule copy) :
    copy.map (Expansion.rename stage.origin) = rule ∧
      ∀ expansion ∈ copy, ∀ reference ∈ expansion.references,
        reference ∈ stage.grammar.symbols := by
  induction refines with
  | nil => exact ⟨rfl, by simp⟩
  | cons first _ ih =>
      refine ⟨by rw [List.map_cons, first.2, ih.1], fun expansion member => ?_⟩
      rcases List.mem_cons.mp member with rfl | member
      · exact first.1
      · exact ih.2 expansion member

/-- Give `copy` the rule `rule`, as a copy of `symbol`. -/
def define (stage : Stage) (copy symbol : Symbol) (rule : List Expansion) : Stage where
  grammar := stage.grammar.setRule copy rule
  origin other := if other = copy then symbol else stage.origin other

theorem origin_define_self {stage : Stage} {copy symbol : Symbol} {rule : List Expansion} :
    (stage.define copy symbol rule).origin copy = symbol := if_pos rfl

theorem grows_define {stage : Stage} {copy symbol : Symbol} {rule : List Expansion}
    (agrees : copy ∈ stage.grammar.symbols → stage.origin copy = symbol) :
    stage.Grows (stage.define copy symbol rule) := by
  intro other member
  refine ⟨Grammar.mem_symbols_setRule.mpr (.inr member), ?_⟩
  by_cases same : other = copy
  · subst same
    exact origin_define_self.trans (agrees member).symm
  · exact if_neg same

section Define

variable {source : Grammar} {stage : Stage} {copy symbol : Symbol} {rule : List Expansion}
  (valid : source.Valid) (closed : isNonterminal copy = true) (member : symbol ∈ source.symbols)
  (agrees : copy ∈ stage.grammar.symbols → stage.origin copy = symbol)
  (refines : List.Forall₂ stage.Refines (source.expansions symbol) rule)
include valid closed member agrees refines

/-- Refining one rule keeps a renamed copy, also when the rule belongs to the source. -/
theorem renames_define (renames : stage.Renames source) :
    (stage.define copy symbol rule).Renames source := by
  have grows : stage.Grows (stage.define copy symbol rule) := grows_define agrees
  obtain ⟨renamed, inside⟩ := refines_map (refines.imp fun _ _ refined => refined.grows grows)
  have earlier : ∀ {other}, other ≠ copy → other ∈ (stage.define copy symbol rule).grammar.symbols →
      other ∈ stage.grammar.symbols := fun differs listed =>
    (Grammar.mem_symbols_setRule.mp listed).resolve_left differs
  refine ⟨fun other listed => ?_, ⟨fun {other} listed => ?_, fun {other} listed => ?_⟩,
    fun known => ?_⟩
  · by_cases same : other = copy
    · subst same
      simp only [Grammar.references, define, Grammar.expansions_setRule_self]
      refine ⟨closed, fun empty => ?_, fun reference used => ?_⟩
      · subst empty
        exact valid.expansions_ne_nil member (List.forall₂_nil_right_iff.mp refines)
      · obtain ⟨expansion, listed, used⟩ := List.mem_flatMap.mp used
        exact inside expansion listed reference used
    · obtain ⟨closed, some, known⟩ := renames.valid other (earlier same listed)
      simp only [Grammar.references, define, Grammar.expansions_setRule_of_ne same]
      exact ⟨closed, some, fun reference used => (grows reference (known reference used)).1⟩
  · by_cases same : other = copy
    · subst same
      rwa [origin_define_self]
    · rw [(grows other (earlier same listed)).2]
      exact renames.renamed.image (earlier same listed)
  · by_cases same : other = copy
    · subst same
      rw [origin_define_self, ← renamed, define, Grammar.expansions_setRule_self]
    · rw [(grows other (earlier same listed)).2, ← renames.renamed.rule (earlier same listed)]
      rw [define, Grammar.expansions_setRule_of_ne same]
      refine List.map_congr_left fun expansion listed' =>
        Expansion.rename_congr fun reference used => ?_
      exact (grows reference (renames.valid.references_mem listed' used)).2
  · obtain ⟨listed, same⟩ := renames.base known
    exact ⟨(grows _ listed).1, (grows _ listed).2.trans same⟩

theorem copies_define (fresh : copy ∉ source.symbols) (copies : stage.Copies source) :
    (stage.define copy symbol rule).Copies source where
  toRenames := renames_define valid closed member agrees refines copies.toRenames
  kept known :=
    (Grammar.expansions_setRule_of_ne (ne_of_mem_of_not_mem known fresh)).trans (copies.kept known)

end Define

end Stage

/-! Actions that resolve references while the grammar grows. The state `σ` shows a stage. -/

section Actions

variable {σ α β : Type} (shows : Stage → σ → Prop)

/-- Started where a stage shows, the action ends where a later stage shows that justifies
its result. -/
def Follows (action : StateM σ α) (result : Stage → α → Prop) : Prop :=
  ∀ ⦃stage state⦄, shows stage state → ∃ later, stage.Grows later ∧
    shows later (action.run state).2 ∧ result later (action.run state).1

variable {shows}

theorem Follows.pure {value : α} {result : Stage → α → Prop}
    (justified : ∀ {stage state}, shows stage state → result stage value) :
    Follows shows (pure value) result :=
  fun stage _ shown => ⟨stage, .refl stage, shown, justified shown⟩

/-- Results stay justified while later items are resolved. -/
theorem Follows.mapM {items : List α} {f : α → StateM σ β} {result : α → Stage → β → Prop}
    (each : ∀ item ∈ items, Follows shows (f item) (result item))
    (stable : ∀ {item before after value}, before.Grows after → result item before value →
      result item after value) :
    Follows shows (items.mapM f) fun stage values =>
      List.Forall₂ (fun item value => result item stage value) items values := by
  induction items with
  | nil => exact Follows.pure fun _ => .nil
  | cons item rest ih =>
      intro stage state shown
      obtain ⟨middle, first, shown, known⟩ := each item List.mem_cons_self shown
      obtain ⟨later, second, shown, others⟩ :=
        ih (fun other member => each other (List.mem_cons_of_mem item member)) shown
      rw [List.mapM_cons]
      exact ⟨later, first.trans second, shown, .cons (stable second known) others⟩

end Actions

namespace Stage

/-- The text of a part that is renamed to another. -/
def Spells (stage : Stage) (part : Part) (text : String) : Prop :=
  ∃ piece : Part, piece.text = text ∧ piece.rename stage.origin = part ∧
    ∀ symbol, piece = .nonterminal symbol → symbol ∈ stage.grammar.symbols

theorem Spells.grows {before after : Stage} (grows : before.Grows after) {part : Part}
    {text : String} (spells : before.Spells part text) : after.Spells part text := by
  obtain ⟨piece, spelled, renamed, known⟩ := spells
  refine ⟨piece, spelled, ?_, fun symbol same => (grows symbol (known symbol same)).1⟩
  cases piece with
  | terminal content => exact renamed
  | nonterminal symbol =>
      rw [← renamed, Part.rename, Part.rename, (grows symbol (known symbol rfl)).2]

theorem pieces_of_spells {stage : Stage} {parts : List Part} {texts : List String}
    (spells : List.Forall₂ stage.Spells parts texts) :
    ∃ pieces : List Part, pieces.map Part.text = texts ∧
      pieces.map (Part.rename stage.origin) = parts ∧
      ∀ symbol, .nonterminal symbol ∈ pieces → symbol ∈ stage.grammar.symbols := by
  induction spells with
  | nil => exact ⟨[], rfl, rfl, by simp⟩
  | cons first _ ih =>
      obtain ⟨piece, rfl, rfl, known⟩ := first
      obtain ⟨pieces, rfl, rfl, others⟩ := ih
      refine ⟨piece :: pieces, rfl, rfl, fun symbol member => ?_⟩
      rcases List.mem_cons.mp member with same | member
      · exact known symbol same.symm
      · exact others symbol member

/-- Texts of copies, put together, refine the expansion: the concatenation is split into the
copies again. -/
theorem refines_of_spells {stage : Stage} (valid : stage.grammar.Valid) {expansion : Expansion}
    {texts : List String} (spells : List.Forall₂ stage.Spells expansion.parts texts) :
    stage.Refines expansion ⟨String.join texts⟩ := by
  obtain ⟨pieces, rfl, renamed, known⟩ := pieces_of_spells spells
  have lexed : Part.Lexed (pieces.map (Part.rename stage.origin)) := renamed ▸ lexed_parts _
  have split : Expansion.parts ⟨String.join (pieces.map Part.text)⟩ = pieces :=
    parts_join (lexed.alike (Part.rename_alike fun symbol member =>
      valid.closed (known symbol member)))
  refine ⟨fun reference member => known reference ?_, ?_⟩
  · rw [← split]
    exact mem_references.mp member
  · rw [Expansion.rename, split, renamed]
    exact congrArg Expansion.mk (join_parts expansion.text)

end Stage

section Actions

variable {source : Grammar} {σ : Type} {shows : Stage → σ → Prop}

theorem follows_part {part : Part} {rename : Symbol → StateM σ Symbol}
    (each : ∀ reference, part = .nonterminal reference →
      Follows shows (rename reference) fun stage => stage.Resolves reference) :
    Follows shows
      (match part with
        | .terminal text => pure text
        | .nonterminal symbol => rename symbol)
      fun stage => stage.Spells part := by
  cases part with
  | terminal text => exact Follows.pure fun _ => ⟨.terminal text, rfl, rfl, by simp⟩
  | nonterminal symbol =>
      intro stage state shown
      obtain ⟨later, grows, shown, known, same⟩ := each symbol rfl shown
      refine ⟨later, grows, shown, .nonterminal _, rfl, congrArg Part.nonterminal same, ?_⟩
      rintro other ⟨⟩
      exact known

theorem follows_renameM {expansion : Expansion} {rename : Symbol → StateM σ Symbol}
    (copies : ∀ {stage state}, shows stage state → stage.Copies source)
    (each : ∀ reference ∈ expansion.references,
      Follows shows (rename reference) fun stage => stage.Resolves reference) :
    Follows shows (expansion.renameM rename) fun stage => stage.Refines expansion := by
  intro stage state shown
  obtain ⟨later, grows, shown, texts⟩ := Follows.mapM
    (fun part member => follows_part fun reference same =>
      each reference (mem_references.mpr (same ▸ member)))
    (fun grows => Stage.Spells.grows grows) shown
  exact ⟨later, grows, shown, Stage.refines_of_spells (copies shown).valid texts⟩

end Actions

/-- The invariant within one occurrence: copies made for it are copies of what they stand for. -/
def ShowsProgress (source : Grammar) (stage : Stage) (progress : Progress) : Prop :=
  progress.grammar = stage.grammar ∧ stage.Copies source ∧
    ∀ symbol copy, progress.copies[symbol]? = some copy → stage.Resolves symbol copy

/-- The invariant between occurrences. -/
def ShowsGrammar (source : Grammar) (stage : Stage) (grammar : Grammar) : Prop :=
  grammar = stage.grammar ∧ stage.Copies source

section Resolve

variable {source : Grammar} (valid : source.Valid)
include valid

/-- The new name is claimed with the rule as it stands, which is a copy of itself. -/
theorem shows_claim {stage : Stage} {made : Std.ExtTreeMap Symbol Symbol} {symbol : Symbol}
    (shown : ShowsProgress source stage ⟨stage.grammar, made⟩) (member : symbol ∈ source.symbols) :
    ∃ later, stage.Grows later ∧
      later.Resolves symbol (stage.grammar.newSymbol symbol) ∧
      ShowsProgress source later
        ⟨stage.grammar.setRule (stage.grammar.newSymbol symbol) (source.expansions symbol),
          made.insert symbol (stage.grammar.newSymbol symbol)⟩ := by
  obtain ⟨_, copies, resolved⟩ := shown
  have closed : isNonterminal (stage.grammar.newSymbol symbol) = true :=
    Grammar.isNonterminal_newSymbol (valid.closed member)
  have unused := Grammar.newSymbol_not_mem stage.grammar symbol
  generalize stage.grammar.newSymbol symbol = copy at closed unused
  have fresh : copy ∉ source.symbols := fun known => unused (copies.base known).1
  have same : List.Forall₂ stage.Refines (source.expansions symbol) (source.expansions symbol) :=
    List.forall₂_same.mpr fun _ listed => copies.refines_self valid listed
  have claims := Stage.copies_define valid closed member (absurd · unused) same fresh copies
  have grows : stage.Grows (stage.define copy symbol (source.expansions symbol)) :=
    Stage.grows_define (absurd · unused)
  have own : (stage.define copy symbol (source.expansions symbol)).Resolves symbol copy :=
    ⟨Grammar.mem_symbols_setRule.mpr (.inl rfl), Stage.origin_define_self⟩
  refine ⟨_, grows, own, rfl, claims, fun other name listed => ?_⟩
  simp only [Std.ExtTreeMap.getElem?_insert, Std.LawfulEqCmp.compare_eq_iff_eq] at listed
  split at listed
  · rename_i same
    obtain rfl := Option.some.inj listed
    exact same ▸ own
  · exact (resolved other name listed).grows grows

/-- Once the references of a claimed rule are resolved, the rewritten rule replaces it. -/
theorem shows_define {stage below : Stage} {progress : Progress} {symbol copy : Symbol}
    {rule : List Expansion} (member : symbol ∈ source.symbols) (fresh : copy ∉ source.symbols)
    (own : stage.Resolves symbol copy) (grows : stage.Grows below)
    (shown : ShowsProgress source below progress)
    (refines : List.Forall₂ below.Refines (source.expansions symbol) rule) :
    below.Grows (below.define copy symbol rule) ∧
      ShowsProgress source (below.define copy symbol rule)
        { progress with grammar := progress.grammar.setRule copy rule } ∧
      (below.define copy symbol rule).Resolves symbol copy := by
  obtain ⟨current, copies, resolved⟩ := shown
  have claimed := own.grows grows
  have defining : below.Grows (below.define copy symbol rule) :=
    Stage.grows_define fun _ => claimed.2
  refine ⟨defining, ⟨congrArg (Grammar.setRule · copy rule) current, ?_, ?_⟩,
    claimed.grows defining⟩
  · exact Stage.copies_define valid (copies.valid.closed claimed.1) member (fun _ => claimed.2)
      refines fresh copies
  · exact fun other name listed => (resolved other name listed).grows defining

/-- Resolving a reference yields a copy of it; by induction on how deep copies may nest. -/
theorem follows_resolve (depth : Nat) : ∀ symbol ∈ source.symbols,
    Follows (ShowsProgress source) (resolve source depth symbol)
      fun stage => stage.Resolves symbol := by
  induction depth with
  | zero =>
      intro symbol member stage progress shown
      refine ⟨stage, .refl stage, shown, ?_⟩
      change stage.Resolves symbol (progress.copies.getD symbol symbol)
      rw [Std.ExtTreeMap.getD_eq_getD_getElem?]
      cases found : progress.copies[symbol]? with
      | none => exact shown.2.1.base member
      | some copy => exact shown.2.2 symbol copy found
  | succ depth ih =>
      rintro symbol member stage ⟨grammar, made⟩ ⟨rfl, copies, resolved⟩
      cases found : made[symbol]? with
      | some copy =>
          refine ⟨stage, .refl stage, ?_⟩
          simp only [resolve, StateT.run, found]
          exact ⟨⟨rfl, copies, resolved⟩, resolved symbol copy found⟩
      | none =>
          obtain ⟨claimed, claiming, own, shown⟩ := shows_claim valid ⟨rfl, copies, resolved⟩ member
          have fresh : stage.grammar.newSymbol symbol ∉ source.symbols := fun known =>
            Grammar.newSymbol_not_mem stage.grammar symbol (copies.base known).1
          have rewriting : ∀ expansion ∈ source.expansions symbol,
              Follows (ShowsProgress source) (expansion.renameM (resolve source depth))
                fun stage => stage.Refines expansion := fun _ listed =>
            follows_renameM (fun shown => shown.2.1) fun reference used =>
              ih reference (valid.references_mem listed used)
          obtain ⟨below, growing, shown, refines⟩ :=
            Follows.mapM rewriting (fun grows => Stage.Refines.grows grows) shown
          obtain ⟨defining, shown, own⟩ := shows_define valid member fresh own growing shown refines
          refine ⟨_, (claiming.trans growing).trans defining, ?_⟩
          simp only [resolve, StateT.run, found]
          exact ⟨shown, own⟩

/-- Every occurrence starts without copies, and leaves a grammar in the making behind. -/
theorem follows_occurrence (depth : Nat) {symbol : Symbol} (member : symbol ∈ source.symbols) :
    Follows (ShowsGrammar source) (occurrence source depth symbol)
      fun stage => stage.Resolves symbol := by
  rintro stage grammar ⟨rfl, copies⟩
  have start : ShowsProgress source stage ⟨stage.grammar, ∅⟩ := ⟨rfl, copies, by simp⟩
  obtain ⟨later, grows, ⟨current, copies, _⟩, resolves⟩ :=
    follows_resolve valid depth symbol member start
  exact ⟨later, grows, ⟨current, copies⟩, resolves⟩

end Resolve
end GrammarFuzz.Duplicate

namespace GrammarFuzz.Grammar

open Duplicate

/-- The selected expansions renamed from left to right, the others as they are. -/
def rewriteRule (g : Grammar) (symbol : Symbol) (only? : Option String) (depth : Nat) :
    StateM Grammar (List Expansion) :=
  (g.expansions symbol).mapM fun expansion =>
    if only?.all (· == expansion.text) then expansion.renameM (occurrence g depth)
      else pure expansion

/-- A successful duplication makes the copies first and then replaces the rule. -/
theorem duplicateContext_eq_ok {g copy : Grammar} {symbol : Symbol} {only? : Option String}
    {depth? : Option Nat} (duplicated : g.duplicateContext symbol only? depth? = .ok copy) :
    symbol ∈ g.symbols ∧
      copy = ((g.rewriteRule symbol only? (depth?.getD g.size)).run g).2.setRule symbol
        ((g.rewriteRule symbol only? (depth?.getD g.size)).run g).1 := by
  unfold duplicateContext at duplicated
  cases required : g.require symbol with
  | error error =>
      rw [required] at duplicated
      contradiction
  | ok expansions =>
      obtain ⟨member, rfl⟩ := require_eq_ok.mp required
      rw [required] at duplicated
      refine ⟨member, ?_⟩
      cases only? with
      | none => exact (Except.ok.inj duplicated).symm
      | some text =>
          simp only [bind, Except.bind] at duplicated
          split at duplicated
          · contradiction
          · exact (Except.ok.inj duplicated).symm

/-- The source as its own copy, before anything is duplicated. -/
theorem showsGrammar_self {g : Grammar} (valid : g.Valid) : ShowsGrammar g ⟨g, id⟩ g := by
  refine ⟨rfl, ⟨valid, ⟨id, fun _ => ?_⟩, fun member => ⟨member, rfl⟩⟩, fun _ => rfl⟩
  refine (List.map_congr_left fun expansion _ => ?_).trans (List.map_id _)
  exact Expansion.rename_id

theorem duplicateContext_renames {g copy : Grammar} (valid : g.Valid) {symbol : Symbol}
    {only? : Option String} {depth? : Option Nat}
    (duplicated : g.duplicateContext symbol only? depth? = .ok copy) :
    ∃ stage : Stage, stage.Renames g ∧ stage.grammar = copy := by
  obtain ⟨member, rfl⟩ := duplicateContext_eq_ok duplicated
  have each : ∀ expansion ∈ g.expansions symbol, Follows (ShowsGrammar g)
      (if only?.all (· == expansion.text) then
        expansion.renameM (occurrence g (depth?.getD g.size))
      else pure expansion) fun stage => stage.Refines expansion := by
    intro expansion listed
    split
    · exact follows_renameM (fun shown => shown.2) fun reference used =>
        follows_occurrence valid _ (valid.references_mem listed used)
    · exact Follows.pure fun shown => shown.2.refines_self valid listed
  obtain ⟨below, _, ⟨current, copies⟩, refines⟩ :=
    Follows.mapM each (fun grows => Stage.Refines.grows grows) (showsGrammar_self valid)
  refine ⟨below.define symbol symbol _, ?_, congrArg (setRule · symbol _) current.symm⟩
  exact Stage.renames_define valid (valid.closed member) member (fun _ => (copies.base member).2)
    refines copies.toRenames

/-- A duplication renames and copies rules and changes nothing else: sending every symbol to
the one it is a copy of turns every rule of the result, expansion by expansion, into a rule
of the grammar. So no symbol of the grammar gains or loses a text. -/
theorem duplicateContext_preserves_language {g copy : Grammar} (valid : g.Valid) {symbol : Symbol}
    {only? : Option String} {depth? : Option Nat}
    (duplicated : g.duplicateContext symbol only? depth? = .ok copy) :
    (∃ origin : Symbol → Symbol,
      (∀ original ∈ g.symbols, original ∈ copy.symbols ∧ origin original = original) ∧
      ∀ name ∈ copy.symbols, origin name ∈ g.symbols ∧
        (copy.expansions name).length = (g.expansions (origin name)).length ∧
        (copy.expansions name).map (Expansion.rename origin) = g.expansions (origin name)) ∧
    ∀ original ∈ g.symbols, ∀ text, copy.Derives original text ↔ g.Derives original text := by
  obtain ⟨stage, renames, rfl⟩ := duplicateContext_renames valid duplicated
  refine ⟨⟨stage.origin, fun original member => renames.base member, fun name member => ?_⟩,
    fun original member text => ?_⟩
  · have rule := renames.renamed.rule member
    refine ⟨renames.renamed.image member, ?_, rule⟩
    rw [← rule, List.length_map]
  · obtain ⟨listed, same⟩ := renames.base member
    rw [renames.renamed.derives_iff renames.valid valid listed, same]

/-- Numbers with a point, among stray brackets, where the first numbered name is taken. -/
def pointed : Grammar := ⟨Rules.ofList [
  ("<start>", ["<<num>.<num>>"]), ("<num>", ["<digit><num>", "<digit>"]), ("<digit>", ["0", "1"]),
  ("<num-1>", ["< num>"])]⟩

/-- Both sides of the point have their own copies. -/
def pointedApart : Grammar := ⟨Rules.ofList [
  ("<start>", ["<<num-2>.<num-3>>"]), ("<num>", ["<digit><num>", "<digit>"]),
  ("<digit>", ["0", "1"]),
  ("<num-1>", ["< num>"]), ("<num-2>", ["<digit-1><num-2>", "<digit-1>"]),
  ("<digit-1>", ["0", "1"]),
  ("<num-3>", ["<digit-2><num-3>", "<digit-2>"]), ("<digit-2>", ["0", "1"])]⟩

theorem pointedApart_derives_iff : pointed.Valid ∧
    pointed.duplicateContext "<start>" none none = .ok pointedApart ∧
    ∀ original ∈ pointed.symbols, ∀ text,
      pointedApart.Derives original text ↔ pointed.Derives original text := by
  have valid : pointed.Valid := by decide +kernel
  have duplicated : pointed.duplicateContext "<start>" none none = .ok pointedApart := by
    decide +kernel
  exact ⟨valid, duplicated, (duplicateContext_preserves_language valid duplicated).2⟩

end GrammarFuzz.Grammar
