import Mathlib.Logic.Relation
import GrammarFuzz.Proofs.Rules

/-! The language of a symbol by rewriting sentential forms, independent of trees and of the
fuzzer. A grammar whose rules are those of another up to a map of symbols derives the same
texts from a symbol as the other derives from its image. -/
namespace GrammarFuzz.Grammar

/-- One reference of a sentential form is replaced by the parts of an expansion of it. -/
inductive Rewrites (g : Grammar) : List Part → List Part → Prop
  | at {symbol : Symbol} {expansion : Expansion} (front back : List Part)
      (member : expansion ∈ g.expansions symbol) :
      Rewrites g (front ++ .nonterminal symbol :: back) (front ++ (expansion.parts ++ back))

abbrev RewritesTo (g : Grammar) : List Part → List Part → Prop := Relation.ReflTransGen g.Rewrites

/-- A text is derived by a form without references that spells it. -/
def Derives (g : Grammar) (symbol : Symbol) (text : String) : Prop :=
  ∃ form, g.RewritesTo [.nonterminal symbol] form ∧ (∀ other, .nonterminal other ∉ form) ∧
    String.join (form.map Part.text) = text

/-- Every rule of `copy` becomes the rule of the image of its symbol in `g` when its
references are replaced by their images. -/
structure Renaming (origin : Symbol → Symbol) (copy g : Grammar) : Prop where
  image {symbol : Symbol} : symbol ∈ copy.symbols → origin symbol ∈ g.symbols
  rule {symbol : Symbol} : symbol ∈ copy.symbols →
    (copy.expansions symbol).map (Expansion.rename origin) = g.expansions (origin symbol)

namespace Renaming

variable {origin : Symbol → Symbol} {copy g : Grammar} (copied : Renaming origin copy g)
  (copyValid : copy.Valid) (valid : g.Valid)
include copied copyValid valid

theorem parts_rename {symbol : Symbol} {expansion : Expansion}
    (member : expansion ∈ copy.expansions symbol) :
    (expansion.rename origin).parts = expansion.parts.map (Part.rename origin) :=
  Expansion.parts_rename fun _ reference =>
    valid.closed (copied.image (copyValid.references_mem member reference))

theorem rewrites {before after : List Part} (step : copy.Rewrites before after) :
    g.Rewrites (before.map (Part.rename origin)) (after.map (Part.rename origin)) := by
  obtain @⟨symbol, expansion, front, back, member⟩ := step
  have image : expansion.rename origin ∈ g.expansions (origin symbol) := by
    rw [← copied.rule (mem_symbols_of_expansion member)]
    exact List.mem_map_of_mem member
  simp only [List.map_append, List.map_cons, Part.rename]
  rw [← copied.parts_rename copyValid valid member]
  exact .at _ _ image

/-- The other direction of the simulation: what can be rewritten after copied could be
rewritten before, since an expansion of the image is the image of an expansion. -/
theorem lift_rewrites {form after : List Part}
    (known : ∀ symbol, .nonterminal symbol ∈ form → symbol ∈ copy.symbols)
    (step : g.Rewrites (form.map (Part.rename origin)) after) :
    ∃ lifted, lifted.map (Part.rename origin) = after ∧ copy.Rewrites form lifted := by
  generalize same : form.map (Part.rename origin) = before at step
  obtain @⟨symbol, expansion, front, back, member⟩ := step
  obtain ⟨left, right, rfl, rfl, tail⟩ := List.map_eq_append_iff.mp same
  obtain ⟨part, back', rfl, renamed, rfl⟩ := List.map_eq_cons_iff.mp tail
  cases part with
  | terminal text => simp [Part.rename] at renamed
  | nonterminal name =>
      obtain rfl : origin name = symbol := by simpa [Part.rename] using renamed
      have listed := known name (by simp)
      rw [← copied.rule listed] at member
      obtain ⟨preimage, inside, rfl⟩ := List.mem_map.mp member
      refine ⟨left ++ (preimage.parts ++ back'), ?_, .at left back' inside⟩
      rw [copied.parts_rename copyValid valid inside]
      simp only [List.map_append]

omit copied valid in
theorem known_rewrites {before after : List Part}
    (known : ∀ symbol, .nonterminal symbol ∈ before → symbol ∈ copy.symbols)
    (step : copy.Rewrites before after) :
    ∀ symbol, .nonterminal symbol ∈ after → symbol ∈ copy.symbols := by
  obtain @⟨symbol, expansion, front, back, member⟩ := step
  intro name listed
  simp only [List.mem_append, List.mem_cons] at listed known
  rcases listed with left | inside | right
  · exact known name (.inl left)
  · exact copyValid.references_mem member (mem_references.mpr inside)
  · exact known name (.inr (.inr right))

theorem lift_rewritesTo {form after : List Part}
    (known : ∀ symbol, .nonterminal symbol ∈ form → symbol ∈ copy.symbols)
    (steps : g.RewritesTo (form.map (Part.rename origin)) after) :
    ∃ lifted, lifted.map (Part.rename origin) = after ∧ copy.RewritesTo form lifted := by
  generalize same : form.map (Part.rename origin) = before at steps
  induction steps using Relation.ReflTransGen.head_induction_on generalizing form with
  | refl => exact ⟨form, same, .refl⟩
  | head step _ ih =>
      subst same
      obtain ⟨middle, renamed, first⟩ := copied.lift_rewrites copyValid valid known step
      obtain ⟨lifted, reached, rest⟩ := ih (known_rewrites copyValid known first) renamed
      exact ⟨lifted, reached, .head first rest⟩

/-- A renamed copy of a symbol has the language of the symbol. -/
theorem derives_iff {symbol : Symbol} (member : symbol ∈ copy.symbols) (text : String) :
    copy.Derives symbol text ↔ g.Derives (origin symbol) text := by
  constructor
  · rintro ⟨form, steps, final, spelled⟩
    have image : g.RewritesTo ([.nonterminal symbol].map (Part.rename origin))
        (form.map (Part.rename origin)) :=
      steps.lift _ fun _ _ step => copied.rewrites copyValid valid step
    rw [Part.map_rename_of_terminal final] at image
    exact ⟨form, image, final, spelled⟩
  · rintro ⟨form, steps, final, spelled⟩
    have image : g.RewritesTo ([.nonterminal symbol].map (Part.rename origin)) form := steps
    obtain ⟨lifted, rfl, lifts⟩ :=
      copied.lift_rewritesTo copyValid valid (by simpa using member) image
    have terminal : ∀ other, .nonterminal other ∉ lifted := fun other listed =>
      final (origin other) (List.mem_map_of_mem (f := Part.rename origin) listed)
    rw [Part.map_rename_of_terminal terminal] at spelled
    exact ⟨lifted, lifts, terminal, spelled⟩

end Renaming
end GrammarFuzz.Grammar
