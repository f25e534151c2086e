import GrammarFuzz.Generation.Fuzzer

/-! Grow a derivation tree in three phases: the most expensive expansions until enough
nodes are pending, any expansions while few are, and the cheapest ones to finish. A step
that fails keeps the choices already drawn. -/
namespace GrammarFuzz

/-- How the expansions of a pending node are narrowed before the strategy chooses. -/
inductive Phase where
  /-- Only those of the greatest cost, which the recursive ones have. -/
  | costliest
  | anything
  | cheapest
  deriving DecidableEq

namespace Phase

/-- The expansions of a symbol whose cost below it is the one selected. -/
def ofCost (g : Grammar) (symbol : Symbol) (select : List Cost → Cost) : List Expansion :=
  let priced := (g.expansions symbol).map fun expansion =>
    (expansion, g.expansionCost expansion {symbol})
  let target := select (priced.map Prod.snd)
  (priced.filter (fun pair => pair.2 == target)).map Prod.fst

def offered (phase : Phase) (g : Grammar) (symbol : Symbol) : List Expansion :=
  match phase with
  | anything => g.expansions symbol
  | costliest => ofCost g symbol (·.foldl max 0)
  | cheapest => ofCost g symbol (·.foldl min Cost.infinite)

end Phase

namespace Fuzzer

variable {γ : Type} [Chance γ]

/-- Expand a pending node of this symbol. It fails where nothing is offered, that is for
a symbol without a rule. -/
def expandSymbol (f : Fuzzer γ) (phase : Phase) (symbol : Symbol) :
    Except GrammarError Tree × Fuzzer γ :=
  let candidates := (phase.offered f.grammar symbol).map Expansion.toChildren
  match f.strategy.choose symbol candidates f.source with
  | some (position, strategy, source) =>
      (.ok (.node symbol candidates[position]), { f with strategy, source })
  | none => (.error (.unknownSymbol symbol), f)

/-- The positions of the trees in which a node is pending. -/
def openPositions (trees : List Tree) : List (Fin trees.length) :=
  (List.finRange trees.length).filter (fun position => trees[position].hasPending)

mutual

/-- Expand one pending node, found from the root by picking at every node among the
children with pending nodes. A tree without pending nodes stays as it is. -/
def expandOnce (f : Fuzzer γ) (phase : Phase) : Tree → Except GrammarError Tree × Fuzzer γ
  | .pending symbol => f.expandSymbol phase symbol
  | .node symbol children =>
      let positions := openPositions children
      if some? : 0 < positions.length then
        let (place, source) := Chance.pick positions.length some? f.source
        match expandAt { f with source } phase children positions[place].val with
        | (.ok children, f) => (.ok (.node symbol children), f)
        | (.error error, f) => (.error error, f)
      else (.ok (.node symbol children), f)

/-- Expand one pending node of the tree at a position. -/
def expandAt (f : Fuzzer γ) (phase : Phase) :
    List Tree → Nat → Except GrammarError (List Tree) × Fuzzer γ
  | [], _ => (.ok [], f)
  | tree :: rest, 0 =>
      match expandOnce f phase tree with
      | (.ok tree, f) => (.ok (tree :: rest), f)
      | (.error error, f) => (.error error, f)
  | tree :: rest, position + 1 =>
      match expandAt f phase rest position with
      | (.ok rest, f) => (.ok (tree :: rest), f)
      | (.error error, f) => (.error error, f)

end

/-- Go on while nodes are pending, fewer than `limit` if there is one, for at most
`budget` steps. -/
def expandWhile (phase : Phase) (limit : Option Nat) :
    Nat → Fuzzer γ → Tree → Outcome Tree × Fuzzer γ
  | budget, f, tree =>
      if tree.hasPending && limit.all (tree.pendingCount < ·) then
        match budget with
        | 0 => (.unfinished, f)
        | budget + 1 =>
            match f.expandOnce phase tree with
            | (.ok tree, f) => expandWhile phase limit budget f tree
            | (.error error, f) => (.failed error, f)
      else (.done tree, f)

/-- Expand every pending node, in the three phases of at most `budget` steps each. -/
def expandTree (f : Fuzzer γ) (budget : Nat) (tree : Tree) : Outcome Tree × Fuzzer γ :=
  match expandWhile .costliest (some f.config.minPending) budget f tree with
  | (.done tree, f) =>
      match expandWhile .anything (some f.config.maxPending) budget f tree with
      | (.done tree, f) => expandWhile .cheapest none budget f tree
      | stopped => stopped
  | stopped => stopped

def fuzzTree (f : Fuzzer γ) (budget : Nat) : Outcome Tree × Fuzzer γ :=
  f.expandTree budget f.initialTree

def fuzz (f : Fuzzer γ) (budget : Nat) : Outcome String × Fuzzer γ :=
  match f.fuzzTree budget with
  | (.done tree, f) => (.done tree.text, f)
  | (.failed error, f) => (.failed error, f)
  | (.unfinished, f) => (.unfinished, f)

end Fuzzer
end GrammarFuzz
