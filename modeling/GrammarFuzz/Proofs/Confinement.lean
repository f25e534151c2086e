import GrammarFuzz.Proofs.BoundedCopies

/-! What a duplication may touch. Every copy is claimed under a name that is free in the grammar as
it stands, and a copy is all that is set later, so the rules that were there stay as they are,
however deep copies nest. In the one rule that is rewritten every expansion keeps its place, and
where nothing is selected or no depth is given it keeps its text. If the symbol or the expansion is
not there, nothing is done at all. -/
namespace GrammarFuzz

namespace Grammar

variable {g copy : Grammar} {symbol base name : Symbol} {only? : Option String}
  {depth? : Option Nat}

/-- A name made from a symbol of the grammar by a positive number. -/
def Numbers (g : Grammar) (name : Symbol) : Prop :=
  ∃ base ∈ g.symbols, ∃ number, 0 < number ∧ numbered base number = name

theorem numbers_newSymbol (source : Grammar) (known : base ∈ source.symbols)
    (taken : base ∈ g.symbols) :
    source.Numbers (g.newSymbol base) := by
  obtain ⟨number, positive, _, _, same⟩ := exists_newSymbol_eq taken
  exact ⟨base, known, number, positive, same.symm⟩

def Includes (g copy : Grammar) : Prop := ∀ name ∈ g.symbols, name ∈ copy.symbols

/-- Between two moments symbols were only added, under numbered names. -/
structure Mints (source before after : Grammar) : Prop where
  grows : before.Includes after
  numbers : ∀ name ∈ after.symbols, name ∈ before.symbols ∨ source.Numbers name

theorem Mints.refl (source before : Grammar) : source.Mints before before :=
  ⟨fun _ => id, fun _ => .inl⟩

theorem Mints.trans {source first second third : Grammar} (left : source.Mints first second)
    (right : source.Mints second third) : source.Mints first third where
  grows name known := right.grows name (left.grows name known)
  numbers name known := (right.numbers name known).elim (left.numbers name) .inr

theorem Mints.includes {source before after : Grammar} (mints : source.Mints before after)
    (taken : source.Includes before) : source.Includes after :=
  fun name known => mints.grows name (taken name known)

theorem mints_setRule (source : Grammar) {rule : List Expansion}
    (named : name ∈ g.symbols ∨ source.Numbers name) :
    source.Mints g (g.setRule name rule) where
  grows _ known := mem_symbols_setRule.mpr (.inr known)
  numbers other known := by
    rcases mem_symbols_setRule.mp known with rfl | before
    · exact named
    · exact .inl before

end Grammar

namespace Duplicate

open Grammar

variable {σ : Type} {ready : σ → Prop} {step : σ → σ → Prop}

section Steps

variable (refl : ∀ state, step state state)
  (trans : ∀ {first second third}, step first second → step second third → step first third)
  (stays : ∀ {before after}, step before after → ready before → ready after)
include refl trans stays

/-- If every item takes a step, so do all of them together. -/
theorem Takes.each {α β : Type} {items : List α} {f : α → StateM σ β}
    (each : ∀ item ∈ items, Takes ready step (f item) fun _ _ => True) :
    Takes ready step (items.mapM f) fun _ _ => True := by
  have together : Takes ready step (items.mapM f) fun _ => List.Forall₂ (fun _ _ => True) items :=
    Takes.mapM refl trans stays each fun _ => id
  exact fun state started => ⟨(together state started).1, trivial⟩

/-- If every reference takes a step, so does the expansion. -/
theorem Takes.renameM {rename : Symbol → StateM σ Symbol} {expansion : Expansion}
    (each : ∀ reference ∈ expansion.references,
      Takes ready step (rename reference) fun _ _ => True) :
    Takes ready step (expansion.renameM rename) fun _ _ => True := by
  have parts : ∀ part ∈ expansion.parts,
      Takes ready step (part.renameM rename) fun _ _ => True := by
    intro part listed
    cases part with
    | terminal text => exact Takes.pure refl fun _ => trivial
    | nonterminal reference => exact each reference (mem_references.mpr listed)
  exact fun state started => ⟨(Takes.each refl trans stays parts state started).1, trivial⟩

end Steps

section Names

variable {source : Grammar} (valid : source.Valid)
include valid

/-- However deep copies may nest, resolving adds no symbols but numbered ones. Symbols of the source
are taken, so that a copy of one has a number. -/
theorem takes_resolve_mints (depth : Nat) : ∀ symbol ∈ source.symbols,
    Takes (fun progress => source.Includes progress.grammar)
      (fun before after => source.Mints before.grammar after.grammar)
      (resolve source depth symbol) fun _ _ => True := by
  induction depth with
  | zero => exact fun symbol _ progress _ => ⟨.refl source _, trivial⟩
  | succ depth ih =>
      intro symbol member progress taken
      refine ⟨?_, trivial⟩
      by_cases known : symbol ∈ progress.copies
      · obtain ⟨copy, found⟩ := Progress.mem_copies_iff.mp known
        rw [run_resolve_of_found found]
        exact .refl source _
      · have rewriting : ∀ expansion ∈ source.expansions symbol,
            Takes (fun progress => source.Includes progress.grammar)
              (fun before after : Progress => source.Mints before.grammar after.grammar)
              (expansion.renameM (resolve source depth)) fun _ _ => True := fun expansion offered =>
          Takes.renameM (fun _ => .refl source _) (fun first second => first.trans second)
            (fun mints taken => mints.includes taken) fun reference used =>
              ih reference (valid.references_mem offered used)
        have numbers := numbers_newSymbol source member (taken symbol member)
        have claims : source.Mints progress.grammar
            (progress.claim symbol (progress.grammar.newSymbol symbol)
              (source.expansions symbol)).grammar :=
          mints_setRule source (.inr numbers)
        obtain ⟨below, _⟩ :=
          Takes.each (fun _ => .refl source _) (fun first second => first.trans second)
          (fun mints taken => mints.includes taken) rewriting _ (claims.includes taken)
        rw [run_resolve_of_absent known]
        exact (claims.trans below).trans (mints_setRule source (.inr numbers))

theorem takes_rewrite_mints (only? : Option String) (depth : Nat) {expansion : Expansion}
    (known : ∀ reference ∈ expansion.references, reference ∈ source.symbols) :
    Takes source.Includes source.Mints (rewrite source only? depth expansion) fun _ _ => True := by
  unfold rewrite
  split
  · refine Takes.renameM (Mints.refl source) .trans Mints.includes
      fun reference used grammar taken => ?_
    exact ⟨(takes_resolve_mints valid depth reference (known reference used) ⟨grammar, ∅⟩ taken).1,
      trivial⟩
  · exact Takes.pure (Mints.refl source) fun _ => trivial

end Names

/-! No depth. -/

section Still

variable {source : Grammar}

theorem run_renameM_of_still {rename : Symbol → StateM σ Symbol}
    (still : ∀ reference state, (rename reference).run state = (reference, state))
    (expansion : Expansion) (state : σ) :
    (expansion.renameM rename).run state = (expansion, state) := by
  have parts : ∀ parts : List Part, (parts.mapM (Part.renameM rename)).run state =
      (parts.map Part.text, state) := by
    intro parts
    induction parts with
    | nil => rfl
    | cons part rest ih =>
        have first : (part.renameM rename).run state = (part.text, state) := by
          cases part with
          | terminal text => rfl
          | nonterminal reference => exact still reference state
        rw [List.mapM_cons, StateT.run_bind, first]
        exact congrArg (fun call : List String × σ => (part.text :: call.1, call.2)) ih
  rw [Expansion.run_renameM, parts]
  exact congrArg (fun text => ((⟨text⟩ : Expansion), state)) (join_parts expansion.text)

theorem run_rewrite_zero (only? : Option String) (expansion : Expansion) (grammar : Grammar) :
    (rewrite source only? 0 expansion).run grammar = (expansion, grammar) := by
  have still (reference : Symbol) (grammar : Grammar) :
      (occurrence source 0 reference).run grammar = (reference, grammar) :=
    congrArg (·, grammar) Std.ExtTreeMap.getD_empty
  unfold rewrite
  split
  · exact run_renameM_of_still still expansion grammar
  · rfl

theorem run_rewriteRule_zero (g : Grammar) (symbol : Symbol) (only? : Option String) :
    (g.rewriteRule symbol only? 0).run g = (g.expansions symbol, g) := by
  have rule : ∀ rule : List Expansion, (rule.mapM (rewrite g only? 0)).run g = (rule, g) := by
    intro rule
    induction rule with
    | nil => rfl
    | cons expansion rest ih =>
        rw [List.mapM_cons, StateT.run_bind, run_rewrite_zero]
        exact congrArg (fun call : List Expansion × Grammar => (expansion :: call.1, call.2)) ih
  exact rule _

end Still

end Duplicate

namespace Grammar

open Duplicate

variable {g copy : Grammar} {symbol : Symbol} {only? : Option String} {depth? : Option Nat}

/-- Only the rule of the symbol is rewritten, expansion by expansion in their order, and only where
they are selected; new rules have new names. -/
structure Confined (g copy : Grammar) (symbol : Symbol) (only? : Option String) : Prop where
  kept {other : Symbol} : other ∈ g.symbols → other ≠ symbol →
    copy.expansions? other = g.expansions? other
  unselected :
    List.Forall₂ (fun before after => (∃ text ∈ only?, text ≠ before.text) → after = before)
      (g.expansions symbol) (copy.expansions symbol)
  /-- Read as what it is a copy of, every new name, the rule is what it was. -/
  renamed : ∃ origin : Symbol → Symbol, (∀ original ∈ g.symbols, origin original = original) ∧
    (copy.expansions symbol).map (Expansion.rename origin) = g.expansions symbol
  added {name : Symbol} : name ∈ copy.symbols → name ∈ g.symbols ∨ name ∉ g.symbols ∧ g.Numbers name

/-- A duplication does not know the symbol, or the expansion, or it goes well. -/
theorem duplicateContext_cases (g : Grammar) (symbol : Symbol) (only? : Option String)
    (depth? : Option Nat) :
    (symbol ∉ g.symbols ∧ g.duplicateContext symbol only? depth? = .error (.unknownSymbol symbol)) ∨
    (∃ text, symbol ∈ g.symbols ∧ only? = some text ∧
      (∀ expansion ∈ g.expansions symbol, expansion.text ≠ text) ∧
      g.duplicateContext symbol only? depth? = .error (.unknownExpansion symbol text)) ∨
    (symbol ∈ g.symbols ∧ (∀ text ∈ only?, ∃ expansion ∈ g.expansions symbol,
      expansion.text = text) ∧
      ∃ copy, g.duplicateContext symbol only? depth? = .ok copy) := by
  by_cases member : symbol ∈ g.symbols
  · by_cases selects : ∀ text ∈ only?, ∃ expansion ∈ g.expansions symbol, expansion.text = text
    · exact .inr (.inr ⟨member, selects, _, duplicateContext_eq member selects⟩)
    · push Not at selects
      obtain ⟨text, rfl, unlisted⟩ := selects
      refine .inr (.inl ⟨text, member, rfl, unlisted, ?_⟩)
      have none : (g.expansions symbol).any
          (fun expansion => (some text).all (· == expansion.text)) = false := by
        refine List.any_eq_false.mpr fun expansion listed => ?_
        simpa using Ne.symm (unlisted expansion listed)
      rw [duplicateContext, require_eq_ok.mpr ⟨member, rfl⟩]
      simp only [bind, Except.bind, none, Bool.not_false, if_true]
      rfl
  · refine .inl ⟨member, ?_⟩
    rw [duplicateContext, require_of_not_mem member]
    rfl

theorem confined_of_duplicated (valid : g.Valid)
    (duplicated : g.duplicateContext symbol only? depth? = .ok copy) :
    g.Confined copy symbol only? := by
  obtain ⟨stage, renames, rfl⟩ := duplicateContext_renames valid duplicated
  obtain ⟨member, same⟩ := duplicateContext_eq_ok duplicated
  have known {expansion : Expansion} (offered : expansion ∈ g.expansions symbol) :
      ∀ reference ∈ expansion.references, reference ∈ g.symbols :=
        fun _ => valid.references_mem offered
  generalize depth?.getD g.size = depth at same
  obtain ⟨keeps, _⟩ := Takes.each Keeps.refl Keeps.trans (fun _ => id)
    (fun expansion offered => takes_rewrite valid only? (known offered) depth) g trivial
  obtain ⟨mints, _⟩ := Takes.each (Mints.refl g) (fun first second => first.trans second)
    (fun mints taken => mints.includes taken)
    (fun expansion offered => takes_rewrite_mints valid only? depth (known offered)) g fun _ => id
  constructor
  case kept =>
    intro other listed differs
    obtain ⟨there, rule⟩ := keeps other listed
    rw [same, expansions?_setRule, if_neg differs.symm, expansions?_of_mem listed]
    exact (expansions?_of_mem there).trans (congrArg some rule)
  case unselected =>
    rw [same, expansions_setRule_self]
    have each : ∀ expansion ∈ g.expansions symbol,
        Takes (fun _ => True) (fun _ _ => True) (rewrite g only? depth expansion) fun _ after =>
          (∃ text ∈ only?, text ≠ expansion.text) → after = expansion := by
      rintro expansion _ grammar _
      refine ⟨trivial, ?_⟩
      rintro ⟨text, given, differs⟩
      obtain rfl : only? = some text := given
      have unselected : rewrite g (some text) depth expansion = pure expansion :=
        if_neg (by simpa using differs)
      rw [unselected]
      rfl
    exact (Takes.mapM (fun _ => trivial) (fun _ _ => trivial) (fun _ => id) each
      (fun _ => id) g trivial).2
  case renamed =>
    refine ⟨stage.origin, fun original listed => (renames.base listed).2, ?_⟩
    have listed := renames.base member
    rw [renames.renamed.rule listed.1, listed.2]
  case added =>
    intro name listed
    by_cases before : name ∈ g.symbols
    · exact .inl before
    · refine .inr ⟨before, ?_⟩
      rw [same] at listed
      rcases mem_symbols_setRule.mp listed with rfl | listed
      · exact absurd member before
      · exact (mints.numbers name listed).resolve_left before

/-- A duplication of no depth copies nothing, and a text put together again from its parts is the
text. -/
theorem eq_of_duplicated_zero (duplicated : g.duplicateContext symbol only? (some 0) = .ok copy) :
    copy = g := by
  obtain ⟨member, same⟩ := duplicateContext_eq_ok duplicated
  rw [same, Option.getD_some, run_rewriteRule_zero, setRule_expansions member]

/-- A duplication touches what it is asked to and no more. Done in place, it goes well exactly if
the symbol has a rule and a text that is given is among its expansions, and otherwise says which of
the two is missing and leaves the grammar as it was. If it goes well, all rules but the one of the
symbol are untouched, that one keeps its expansions in their order and those that are not selected
as they are, and new rules have new names. Without depth nothing changes. -/
theorem duplicate_confined (valid : g.Valid) (symbol : Symbol) (only? : Option String)
    (depth? : Option Nat) :
    let call := (Edit.duplicate symbol only? depth?).apply g
    (call.1 = .ok () ↔ symbol ∈ g.symbols ∧ ∀ text ∈ only?, ∃ expansion ∈ g.expansions symbol,
      expansion.text = text) ∧
    (call.1 = .error (.unknownSymbol symbol) ↔ symbol ∉ g.symbols) ∧
    (∀ text, call.1 = .error (.unknownExpansion symbol text) ↔
      symbol ∈ g.symbols ∧ only? = some text ∧ ∀ expansion ∈ g.expansions symbol,
      expansion.text ≠ text) ∧
    (∀ error, call.1 = .error error → call.2 = g ∧
      (error = .unknownSymbol symbol ∨ ∃ text, error = .unknownExpansion symbol text)) ∧
    (call.1 = .ok () → g.Confined call.2 symbol only?) ∧
    (depth? = some 0 → call.2 = g) := by
  intro call
  have result : call = g.settle (g.duplicateContext symbol only? depth?) :=
    Edit.apply_duplicate g symbol only? depth?
  rcases g.duplicateContext_cases symbol only? depth? with
    ⟨absent, failed⟩ | ⟨text, member, rfl, unlisted, failed⟩ | ⟨member, selects, copy, duplicated⟩
  · obtain ⟨outcome, after⟩ : call.1 = .error (.unknownSymbol symbol) ∧ call.2 = g := by
      simp [result, failed, settle]
    simp [outcome, after, absent]
  · obtain ⟨outcome, after⟩ : call.1 = .error (.unknownExpansion symbol text) ∧ call.2 = g := by
      simp [result, failed, settle]
    have missed : ¬∃ expansion ∈ g.expansions symbol, expansion.text = text := by
      simpa using unlisted
    have once (other : String) : text = other ↔ text = other ∧ ∀ expansion ∈ g.expansions symbol,
        expansion.text ≠ other := ⟨fun same => ⟨same, same ▸ unlisted⟩, And.left⟩
    rw [outcome, after]
    exact ⟨by simp [missed], by simp [member],
      fun other => by simpa [member] using once other, by simp, by simp, fun _ => rfl⟩
  · obtain ⟨outcome, after⟩ : call.1 = .ok () ∧ call.2 = copy := by
      simp [result, duplicated, settle]
    have selected (text : String) (given : only? = some text) :
        ¬∀ expansion ∈ g.expansions symbol, expansion.text ≠ text := by
          simpa using selects text given
    rw [outcome, after]
    refine ⟨iff_of_true rfl ⟨member, selects⟩, by simp [member], fun text => ?_, by simp,
      fun _ => confined_of_duplicated valid duplicated,
      fun none => eq_of_duplicated_zero (none ▸ duplicated)⟩
    exact iff_of_false (by simp) fun missed => selected text missed.2.1 missed.2.2

/-- The rule refers to itself, and a numbered name is taken. -/
theorem pointed_confined : pointed.Valid ∧ ∃ copy : Grammar,
    (Edit.duplicate "<num>" (some "<digit><num>") (some 2)).apply pointed = (.ok (), copy) ∧
    pointed.Confined copy "<num>" (some "<digit><num>") ∧ copy.size = 7 ∧
    (copy.expansions "<num>").map Expansion.text = ["<digit-1><num-2>", "<digit>"] := by
  have valid : pointed.Valid := by decide +kernel
  have selected : ∀ text ∈ some "<digit><num>", ∃ expansion ∈ pointed.expansions "<num>",
      expansion.text = text := by
    rintro _ ⟨⟩
    exact ⟨⟨"<digit><num>"⟩, by decide +kernel, rfl⟩
  have size : ((Edit.duplicate "<num>" (some "<digit><num>") (some 2)).apply pointed).2.size =
      7 := by decide +kernel
  have texts :
      (((Edit.duplicate "<num>" (some "<digit><num>") (some 2)).apply pointed).2.expansions
        "<num>").map Expansion.text = ["<digit-1><num-2>", "<digit>"] := by decide +kernel
  obtain ⟨succeeds, _, _, _, confined, _⟩ :=
    duplicate_confined valid "<num>" (some "<digit><num>") (some 2)
  have done := succeeds.mpr ⟨by decide +kernel, selected⟩
  have confined := confined done
  obtain ⟨⟨outcome, copy⟩, ended⟩ :
      ∃ call, (Edit.duplicate "<num>" (some "<digit><num>") (some 2)).apply pointed = call :=
    ⟨_, rfl⟩
  rw [ended] at size texts done confined
  obtain rfl : outcome = .ok () := done
  exact ⟨valid, copy, ended, confined, size, texts⟩

end Grammar
end GrammarFuzz
