import GrammarFuzz.Language.Grammar

/-! Which rule sets are grammars: `Valid` states the three conditions, `defect?`
finds the first violation in symbol order, and `build` accepts what has none. -/
namespace GrammarFuzz.Grammar

/-- Every rule belongs to a nonterminal, offers an expansion, and refers only to
symbols that have rules. -/
def Valid (g : Grammar) : Prop :=
  ∀ symbol ∈ g.symbols, isNonterminal symbol = true ∧ g.expansions symbol ≠ [] ∧
    ∀ reference ∈ g.references symbol, reference ∈ g.symbols

instance (g : Grammar) : Decidable g.Valid :=
  inferInstanceAs (Decidable (∀ symbol ∈ g.symbols, isNonterminal symbol = true ∧
    g.expansions symbol ≠ [] ∧ ∀ reference ∈ g.references symbol, reference ∈ g.symbols))

/-- The first defect of one rule: its name, then its emptiness, then its references in
order of occurrence. -/
def ruleDefect? (g : Grammar) (symbol : Symbol) (expansions : List Expansion) : Option Defect :=
  if !isNonterminal symbol then some (.notANonterminal symbol)
  else if expansions.isEmpty then some (.noExpansions symbol)
  else ((expansions.flatMap Expansion.references).find? (fun child => !g.contains child)).map
    (Defect.undefinedSymbol · symbol)

def defect? (g : Grammar) : Option Defect :=
  g.rules.toList.findSome? (fun rule => g.ruleDefect? rule.1 rule.2)

def build (rules : Rules) : Except GrammarError Grammar :=
  match Grammar.defect? ⟨rules⟩ with
  | some defect => .error (.invalid defect)
  | none => .ok ⟨rules⟩

/-- Replace or add one rule, checking the result. -/
def withRule (g : Grammar) (symbol : Symbol) (expansions : List Expansion) :
    Except GrammarError Grammar :=
  build (g.rules.insert symbol expansions)

end GrammarFuzz.Grammar
