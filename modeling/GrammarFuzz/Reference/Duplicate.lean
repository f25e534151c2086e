import GrammarFuzz.Language.Grammar

/-! Private copies of the rules below a reference. Coverage does not tell where in a
derivation an expansion was used; once `<factor>` offers `<integer-1>.<integer-2>`,
each with its own copies of the rules below, the two places are covered apart. -/
namespace GrammarFuzz

/-- Rename the references of an expansion from left to right, in any effect; terminal
text stays as it is. -/
def Expansion.renameM {m : Type → Type} [Monad m] (rename : Symbol → m Symbol)
    (expansion : Expansion) : m Expansion := do
  let texts ← expansion.parts.mapM fun
    | .terminal text => pure text
    | .nonterminal symbol => rename symbol
  pure ⟨String.join texts⟩

namespace Duplicate

/-- Where a duplication stands: the grammar with the copies made so far, and for one
occurrence the copy of each symbol that already has one. -/
structure Progress where
  grammar : Grammar
  copies : Std.ExtTreeMap Symbol Symbol

/-- What a reference to `symbol` becomes when copies may still nest `depth` levels. A
symbol that has a copy resolves to it; at depth zero the reference stays. Otherwise the
rule in `source` is copied under a new name, which is claimed before the references
below it are resolved, so that they can resolve to it and no other copy takes it. -/
def resolve (source : Grammar) : Nat → Symbol → StateM Progress Symbol
  | 0, symbol => fun progress => (progress.copies.getD symbol symbol, progress)
  | depth + 1, symbol => fun progress =>
      match progress.copies[symbol]? with
      | some copy => (copy, progress)
      | none =>
          let expansions := source.expansions symbol
          let copy := progress.grammar.newSymbol symbol
          let claimed : Progress :=
            ⟨progress.grammar.setRule copy expansions, progress.copies.insert symbol copy⟩
          let (rewritten, below) :=
            (expansions.mapM (Expansion.renameM (resolve source depth))).run claimed
          (copy, { below with grammar := below.grammar.setRule copy rewritten })

/-- A reference at the top of a duplication: every occurrence starts without copies. -/
def occurrence (source : Grammar) (depth : Nat) (symbol : Symbol) : StateM Grammar Symbol :=
  fun grammar =>
    let (copy, progress) := (resolve source depth symbol).run ⟨grammar, ∅⟩
    (copy, progress.grammar)

end Duplicate

namespace Grammar

/-- Give each reference in the expansions of `symbol` (in those with text `only?`, if
given) private copies of the rules it depends on, `depth?` levels deep. Copies nest at
most once per symbol of the grammar, so its size stands for no limit. -/
def duplicateContext (g : Grammar) (symbol : Symbol) (only? : Option String)
    (depth? : Option Nat) : Except GrammarError Grammar := do
  let expansions ← g.require symbol
  let selected (expansion : Expansion) : Bool := only?.all (· == expansion.text)
  match only? with
  | some text =>
      if !expansions.any selected then throw (.unknownExpansion symbol text)
  | none => pure ()
  let depth := depth?.getD g.size
  let (rewritten, copied) := (expansions.mapM fun expansion =>
    if selected expansion then expansion.renameM (Duplicate.occurrence g depth)
    else pure expansion).run g
  pure (copied.setRule symbol rewritten)

end Grammar
end GrammarFuzz
