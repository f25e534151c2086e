import GrammarFuzz.Proofs.Duplication
import GrammarFuzz.Proofs.Keys
import GrammarFuzz.Proofs.Trimming

/-! Grammars made by duplicating again and again. Renamings compose, so what was copied from a
copy is a copy of the original. References, and with them what can be reached, go along a
renaming in both directions: what is reached in the original is the image of something reached
in the copy, which is why trimming a copy drops no expansion but only places where it was used. -/
namespace GrammarFuzz

namespace Part

theorem rename_rename (f f' : Symbol → Symbol) (part : Part) :
    (part.rename f).rename f' = part.rename (f' ∘ f) := by
  cases part <;> rfl

theorem symbol?_rename (f : Symbol → Symbol) (part : Part) :
    (part.rename f).symbol? = part.symbol?.map f := by
  cases part <;> rfl

end Part

namespace Expansion

variable {f f' : Symbol → Symbol} {expansion : Expansion}

theorem rename_rename (closed : ∀ symbol ∈ expansion.references, isNonterminal (f symbol) = true) :
    (expansion.rename f).rename f' = expansion.rename (f' ∘ f) := by
  have pieces : (expansion.parts.map (Part.rename f)).map (Part.rename f') =
      expansion.parts.map (Part.rename (f' ∘ f)) := by
    rw [List.map_map]
    exact List.map_congr_left fun part _ => part.rename_rename f f'
  rw [rename, parts_rename closed, pieces, rename]

theorem references_rename
    (closed : ∀ symbol ∈ expansion.references, isNonterminal (f symbol) = true) :
    (expansion.rename f).references = expansion.references.map f := by
  have pieces : (expansion.rename f).references =
      (expansion.rename f).parts.filterMap Part.symbol? := rfl
  rw [pieces, parts_rename closed, List.filterMap_map]
  change _ = (expansion.parts.filterMap Part.symbol?).map f
  rw [List.map_filterMap]
  exact List.filterMap_congr fun part _ => part.symbol?_rename f

end Expansion

namespace Grammar

theorem Renaming.comp {first second : Symbol → Symbol} {g middle copy : Grammar}
    (original : Renaming first middle g) (copied : Renaming second copy middle)
    (copyValid : copy.Valid) (valid : middle.Valid) : Renaming (first ∘ second) copy g where
  image member := original.image (copied.image member)
  rule {symbol} member := by
    rw [Function.comp_apply, ← original.rule (copied.image member),
      ← copied.rule member, List.map_map]
    refine List.map_congr_left fun expansion listed => ?_
    exact (Expansion.rename_rename fun reference used =>
      valid.closed (copied.image (copyValid.references_mem listed used))).symm

namespace Renaming

variable {origin : Symbol → Symbol} {copy g : Grammar} {symbol child start : Symbol} {key : Key}
  (copied : Renaming origin copy g)
include copied

section Valid

variable (copyValid : copy.Valid) (valid : g.Valid)
include copyValid valid

theorem closed {expansion : Expansion} (member : expansion ∈ copy.expansions symbol) :
    ∀ reference ∈ expansion.references, isNonterminal (origin reference) = true := fun _ used =>
  valid.closed (copied.image (copyValid.references_mem member used))

theorem references (member : symbol ∈ copy.symbols) :
    g.references (origin symbol) = (copy.references symbol).map origin := by
  rw [Grammar.references, ← copied.rule member, List.flatMap_map, Grammar.references,
    List.map_flatMap]
  exact List.flatMap_congr fun expansion listed =>
    Expansion.references_rename (copied.closed copyValid valid listed)

theorem reaches (member : symbol ∈ copy.symbols) (reaches : copy.Reaches symbol child) :
    g.Reaches (origin symbol) (origin child) := by
  induction reaches with
  | refl => exact .refl
  | tail earlier step ih =>
      have below := copied.references copyValid valid (Reaches.mem_symbols copyValid member earlier)
      exact ih.tail (below ▸ List.mem_map_of_mem step)

/-- The way to a symbol of the original can be gone in the copy, reference by reference. -/
theorem exists_reaches (member : symbol ∈ copy.symbols)
    (reaches : g.Reaches (origin symbol) child) :
    ∃ lifted, copy.Reaches symbol lifted ∧ origin lifted = child := by
  induction reaches with
  | refl => exact ⟨symbol, .refl, rfl⟩
  | tail _ step ih =>
      obtain ⟨lifted, reached, rfl⟩ := ih
      rw [copied.references copyValid valid (reached.mem_symbols copyValid member)] at step
      obtain ⟨next, used, same⟩ := List.mem_map.mp step
      exact ⟨next, reached.tail used, same⟩

end Valid

/-- Trimming a copy leaves a copy. -/
theorem kept (copyValid : copy.Valid) (member : start ∈ copy.symbols) :
    Renaming origin (copy.kept start) g where
  image listed :=
    copied.image (((mem_symbols_kept copyValid member).mp listed).mem_symbols copyValid member)
  rule listed := by
    have reaches := (mem_symbols_kept copyValid member).mp listed
    rw [expansions_kept copyValid member reaches]
    exact copied.rule (reaches.mem_symbols copyValid member)

theorem keysOf (copyValid : copy.Valid) (member : symbol ∈ copy.symbols) :
    g.keysOf (origin symbol) = (copy.keysOf symbol).map (Key.rename origin) := by
  rw [Grammar.keysOf, ← copied.rule member, Grammar.keysOf, List.map_map, List.map_map]
  exact List.map_congr_left fun expansion _ =>
    (Key.rename_ofText origin (copyValid.closed member) expansion).symm

/-- The keys of a trimmed copy are renamed to the keys that can be reached in the original. -/
theorem mem_keysWithin_iff (copyValid : copy.Valid) (valid : g.Valid)
    (member : start ∈ copy.symbols) :
    key ∈ g.keysWithin none (origin start) ↔
      ∃ own ∈ (copy.kept start).maximumCoverage, own.rename origin = key := by
  have within : key ∈ g.keysWithin none (origin start) ↔
      ∃ found, g.Reaches (origin start) found ∧ key ∈ g.keysOf found :=
    mem_keysWithin_of_reaches valid (copied.image member) (Nat.le_refl _)
  have trimmed := copied.kept copyValid member
  have trimmedValid := valid_kept copyValid member
  rw [within]
  constructor
  · rintro ⟨found, reaches, own⟩
    obtain ⟨lifted, reached, rfl⟩ := copied.exists_reaches copyValid valid member reaches
    have listed := (mem_symbols_kept copyValid member).mpr reached
    rw [trimmed.keysOf trimmedValid listed] at own
    obtain ⟨own, inside, renamed⟩ := List.mem_map.mp own
    exact ⟨own, mem_maximumCoverage.mpr ⟨lifted, listed, inside⟩, renamed⟩
  · rintro ⟨own, inside, rfl⟩
    obtain ⟨name, listed, inside⟩ := mem_maximumCoverage.mp inside
    have reached := (mem_symbols_kept copyValid member).mp listed
    refine ⟨origin name, copied.reaches copyValid valid member reached, ?_⟩
    rw [trimmed.keysOf trimmedValid listed]
    exact List.mem_map_of_mem inside

end Renaming

/-- The second grammar comes from duplicating a context in the first. -/
def Duplicates (g copy : Grammar) : Prop :=
  ∃ symbol only? depth?, g.duplicateContext symbol only? depth? = .ok copy

/-- However often contexts are duplicated, the result is a renamed copy of the grammar at the
start. -/
theorem exists_renames {g copied : Grammar} (valid : g.Valid)
    (duplicated : Relation.ReflTransGen Duplicates g copied) :
    ∃ stage : Duplicate.Stage, stage.Renames g ∧ stage.grammar = copied := by
  induction duplicated with
  | refl => exact ⟨⟨g, id⟩, (showsGrammar_self valid).2.toRenames, rfl⟩
  | tail _ step ih =>
      obtain ⟨middle, earlier, rfl⟩ := ih
      obtain ⟨symbol, only?, depth?, last⟩ := step
      obtain ⟨later, renames, rfl⟩ := duplicateContext_renames earlier.valid last
      refine ⟨⟨later.grammar, middle.origin ∘ later.origin⟩, ?_, rfl⟩
      refine ⟨renames.valid, earlier.renamed.comp renames.renamed renames.valid earlier.valid,
        fun known => ?_⟩
      obtain ⟨listed, same⟩ := earlier.base known
      obtain ⟨listed', same'⟩ := renames.base listed
      exact ⟨listed', (congrArg middle.origin same').trans same⟩

end Grammar
end GrammarFuzz
