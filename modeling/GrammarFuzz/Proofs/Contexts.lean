import GrammarFuzz.Proofs.BoundedReach
import GrammarFuzz.Proofs.Edits
import GrammarFuzz.Proofs.PrivateCopies

/-! The contexts that a duplication sets apart. Each reference it starts from has a copy of its own
of all that can be reached from there. -/
namespace GrammarFuzz.Duplicate

section Provides

variable {κ ι : Type}

/-- From one grammar to the next a symbol was given a copy, in terms of the copies of its
references. -/
structure OwnCopy (source before after : Grammar) (name : Symbol → Symbol)
    (symbol : Symbol) : Prop where
  closed : isNonterminal (name symbol) = true
  fresh : name symbol ∉ before.symbols
  known : name symbol ∈ after.symbols
  rule : after.expansions (name symbol) = (source.expansions symbol).map (Expansion.rename name)

/-- From one grammar to the next each spot was given copies of all that can be reached from its
target, under names of their own. -/
structure Provides (source : Grammar) (target : κ → Symbol) (spots : List κ)
    (name : κ → Symbol → Symbol) (before after : Grammar) : Prop where
  keeps : before.Keeps after
  copied {spot : κ} {symbol : Symbol} : spot ∈ spots → source.Reaches (target spot) symbol →
    OwnCopy source before after (name spot) symbol
  apart {spot other : κ} {symbol symbol' : Symbol} : spot ∈ spots → other ∈ spots →
    source.Reaches (target spot) symbol → source.Reaches (target other) symbol' →
    name spot symbol = name other symbol' → spot = other ∧ symbol = symbol'
  symbols {symbol : Symbol} : symbol ∈ after.symbols → symbol ∈ before.symbols ∨
    ∃ spot ∈ spots, ∃ original, source.Reaches (target spot) original ∧ name spot original = symbol
  size : after.size = before.size + (spots.map fun spot => source.reachCount (target spot)).sum

namespace Provides

variable {source before middle after : Grammar} {target : κ → Symbol} {target' : ι → Symbol}
  {spots spots' : List κ} {name : κ → Symbol → Symbol} {name' : ι → Symbol → Symbol}

theorem nil (g : Grammar) : Provides source target [] name g g where
  keeps := .refl g
  copied listed := absurd listed List.not_mem_nil
  apart listed := absurd listed List.not_mem_nil
  symbols := .inl
  size := rfl

theorem append (left : Provides source target spots name before middle)
    (right : Provides source target spots' name middle after) :
    Provides source target (spots ++ spots') name before after where
  keeps := left.keeps.trans right.keeps
  copied listed reaches := by
    rcases List.mem_append.mp listed with first | second
    · have copied := left.copied first reaches
      obtain ⟨known, same⟩ := right.keeps _ copied.known
      exact ⟨copied.closed, copied.fresh, known, same.trans copied.rule⟩
    · have copied := right.copied second reaches
      exact ⟨copied.closed, fun earlier => copied.fresh (left.keeps _ earlier).1,
        copied.known, copied.rule⟩
  apart listed listed' reaches reaches' same := by
    rcases List.mem_append.mp listed with first | second
      <;> rcases List.mem_append.mp listed' with first' | second'
    · exact left.apart first first' reaches reaches' same
    · exact absurd (same ▸ (left.copied first reaches).known) (right.copied second' reaches').fresh
    · exact absurd (same ▸ (left.copied first' reaches').known) (right.copied second reaches).fresh
    · exact right.apart second second' reaches reaches' same
  symbols known := by
    rcases right.symbols known with earlier | ⟨spot, listed, minted⟩
    · rcases left.symbols earlier with before | ⟨spot, listed, minted⟩
      · exact .inl before
      · exact .inr ⟨spot, List.mem_append_left _ listed, minted⟩
    · exact .inr ⟨spot, List.mem_append_right _ listed, minted⟩
  size := by rw [right.size, left.size, List.map_append, List.sum_append, Nat.add_assoc]

/-- The spots under other labels. -/
theorem map {label : κ → ι}
    (provides : Provides source (target' ∘ label) spots (name' ∘ label) before after) :
    Provides source target' (spots.map label) name' before after where
  keeps := provides.keeps
  copied listed reaches := by
    obtain ⟨spot, inside, rfl⟩ := List.mem_map.mp listed
    exact provides.copied inside reaches
  apart listed listed' reaches reaches' same := by
    obtain ⟨spot, inside, rfl⟩ := List.mem_map.mp listed
    obtain ⟨other, inside', rfl⟩ := List.mem_map.mp listed'
    exact (provides.apart inside inside' reaches reaches' same).imp (congrArg label) id
  symbols known := (provides.symbols known).imp id fun ⟨spot, inside, minted⟩ =>
    ⟨label spot, List.mem_map_of_mem inside, minted⟩
  size := by rw [provides.size, List.map_map]; rfl

end Provides

end Provides

/-! One reference. -/

/-- Symbols that are added count once each. -/
theorem size_of_added {before after : Grammar} {added : Set Symbol}
    (fresh : ∀ name ∈ added, name ∉ before.symbols)
    (symbols : ∀ name, name ∈ after.symbols ↔ name ∈ before.symbols ∨ name ∈ added) :
    after.size = before.size + added.ncard := by
  have finite : added.Finite :=
    after.symbols.finite_toSet.subset fun name inside => (symbols name).mpr (.inr inside)
  have disjoint : Disjoint {name | name ∈ before.symbols} added :=
    Set.disjoint_left.mpr fun name earlier inside => fresh name inside earlier
  rw [← Grammar.ncard_symbols, ← Grammar.ncard_symbols,
    ← Set.ncard_union_eq disjoint before.symbols.finite_toSet finite]
  exact congrArg Set.ncard (Set.ext symbols)

section Occurrence

variable {source : Grammar} {root : Symbol}

namespace Extends

variable {before : Grammar} {after : Progress} (extension : Extends source root ⟨before, ∅⟩ after)
  (found : root ∈ after.copies)
include extension found

/-- Every symbol that the root leads to was given a copy: each reference on the way was resolved. -/
theorem adds_copyOf {symbol : Symbol} (reaches : source.Reaches root symbol) :
    Progress.Adds ⟨before, ∅⟩ after symbol (after.copyOf symbol) := by
  have added {symbol copy : Symbol} (found : after.copies[symbol]? = some copy) :
      Progress.Adds ⟨before, ∅⟩ after symbol copy := ⟨Std.ExtTreeMap.not_mem_empty, found⟩
  have inside : symbol ∈ after.copies := by
    induction reaches with
    | refl => exact found
    | tail _ step ih =>
        obtain ⟨copy, earlier⟩ := Progress.mem_copies_iff.mp ih
        exact (extension.copied (added earlier)).resolved _ step
  obtain ⟨copy, found⟩ := Progress.mem_copies_iff.mp inside
  exact Progress.copyOf_eq found ▸ added found

theorem mem_symbols_iff (name : Symbol) : name ∈ after.grammar.symbols ↔
    name ∈ before.symbols ∨ name ∈ after.copyOf '' {symbol | source.Reaches root symbol} := by
  constructor
  · intro known
    rcases extension.symbols known with earlier | ⟨symbol, minted⟩
    · exact .inl earlier
    · exact .inr ⟨symbol, (extension.copied minted).reaches, Progress.copyOf_eq minted.2⟩
  · rintro (earlier | ⟨symbol, reaches, rfl⟩)
    · exact (extension.keeps name earlier).1
    · exact (extension.copied (extension.adds_copyOf found reaches)).known

theorem injOn_copyOf : Set.InjOn after.copyOf {symbol | source.Reaches root symbol} := by
  intro symbol reaches other reaches' same
  exact extension.apart (extension.adds_copyOf found reaches)
    (same ▸ extension.adds_copyOf found reaches')

/-- A table that started empty ends with what can be reached, and names it. -/
theorem provides : Provides source id [root] (fun _ => after.copyOf) before after.grammar := by
  have copied {symbol : Symbol} (reaches : source.Reaches root symbol) :=
    extension.copied (extension.adds_copyOf found reaches)
  constructor
  case keeps => exact extension.keeps
  case copied =>
    intro spot symbol inside reaches
    obtain rfl := List.mem_singleton.mp inside
    have copied := copied reaches
    exact ⟨copied.closed, copied.fresh, copied.known, copied.rule⟩
  case apart =>
    intro spot other symbol symbol' inside inside' reaches reaches' same
    obtain rfl := List.mem_singleton.mp inside
    obtain rfl := List.mem_singleton.mp inside'
    exact ⟨rfl, extension.injOn_copyOf found reaches reaches' same⟩
  case symbols =>
    intro name known
    apply ((extension.mem_symbols_iff found name).mp known).imp_right
    exact fun minted => ⟨root, List.mem_singleton_self root, minted⟩
  case size =>
    have fresh : ∀ name ∈ after.copyOf '' {symbol | source.Reaches root symbol},
        name ∉ before.symbols := by
      rintro _ ⟨symbol, reaches, rfl⟩
      exact (copied reaches).fresh
    rw [size_of_added fresh (extension.mem_symbols_iff found),
      (extension.injOn_copyOf found).ncard_image]
    rfl

end Extends

theorem provides_occurrence (valid : source.Valid) (member : root ∈ source.symbols) {depth : Nat}
    (deep : source.size ≤ depth) (before : Grammar) : ∃ name : Symbol → Symbol,
      Provides source id [root] (fun _ => name) before
        ((occurrence source depth root).run before).2 ∧
      ((occurrence source depth root).run before).1 = name root := by
  have room : Progress.uncopied source ⟨before, ∅⟩ ≤ depth :=
    Nat.le_trans (Grammar.unentered_le _) deep
  obtain ⟨extension, found⟩ := takes_resolve valid member depth root .refl ⟨before, ∅⟩ room
  refine ⟨_, extension.provides (Progress.mem_copies_iff.mpr ⟨_, found⟩), ?_⟩
  exact (Progress.copyOf_eq found).symm

end Occurrence

/-! References one after the other. -/

section Indexed

variable {α β κ : Type} {spots : α → List κ}

/-- What the items of a list have, each with the position of its item. -/
def indexed (spots : α → List κ) (items : List α) : List (Nat × κ) :=
  (items.mapIdx fun position item => (spots item).map (Prod.mk position)).flatten

theorem mem_indexed {items : List α} {position : Nat} {spot : κ} :
    (position, spot) ∈ indexed spots items ↔ ∃ item, items[position]? = some item ∧
      spot ∈ spots item := by
  simp only [indexed, List.mem_flatten, List.mem_mapIdx]
  constructor
  · rintro ⟨_, ⟨place, less, rfl⟩, inside⟩
    obtain ⟨_, listed, same⟩ := List.mem_map.mp inside
    obtain ⟨rfl, rfl⟩ := Prod.mk.inj same
    exact ⟨_, List.getElem?_eq_getElem less, listed⟩
  · rintro ⟨item, found, inside⟩
    obtain ⟨less, rfl⟩ := List.getElem?_eq_some_iff.mp found
    exact ⟨_, ⟨position, less, rfl⟩, List.mem_map_of_mem inside⟩

theorem map_mapIdx {γ : Type} (f : Nat → α → β) (g : β → γ) (items : List α) :
    (items.mapIdx f).map g = items.mapIdx fun position item => g (f position item) := by
  refine (List.mapIdx_eq_iff.mpr fun position => ?_).symm
  rw [List.getElem?_map, List.getElem?_mapIdx, Option.map_map]
  rfl

theorem indexed_cons (item : α) (rest : List α) : indexed spots (item :: rest) =
    (spots item).map (Prod.mk 0) ++ (indexed spots rest).map (Prod.map Nat.succ id) := by
  have shifted : (rest.mapIdx fun position item => (spots item).map (Prod.mk (position + 1))) =
      (rest.mapIdx fun position item => (spots item).map (Prod.mk position)).map
          (List.map (Prod.map Nat.succ id)) := by
    simp only [map_mapIdx, List.map_map]
    rfl
  rw [indexed, List.mapIdx_cons, List.flatten_cons, shifted, ← List.map_flatten]
  rfl

/-- If what becomes of an item depends on the names of its spots alone, so it is with the items of a
list. -/
theorem provides_mapM {source : Grammar} {target : κ → Symbol} {items : List α}
    {action : α → StateM Grammar β} {value : α → (κ → Symbol → Symbol) → β}
    (each : ∀ item ∈ items, ∀ before, ∃ name, Provides source target (spots item) name before
      ((action item).run before).2 ∧ ((action item).run before).1 = value item name) :
    ∀ before, ∃ name : Nat × κ → Symbol → Symbol,
      Provides source (target ∘ Prod.snd) (indexed spots items) name before
        ((items.mapM action).run before).2 ∧
      ((items.mapM action).run before).1 =
        items.mapIdx fun position item => value item fun spot => name (position, spot) := by
  induction items with
  | nil => exact fun before => ⟨fun _ => id, .nil before, rfl⟩
  | cons item rest ih =>
      intro before
      obtain ⟨first, provides, same⟩ := each item List.mem_cons_self before
      obtain ⟨others, provides', same'⟩ :=
        ih (fun other listed => each other (List.mem_cons_of_mem item listed))
          ((action item).run before).2
      refine ⟨fun
        | (0, spot) => first spot
        | (position + 1, spot) => others (position, spot), ?_, ?_⟩
      · rw [indexed_cons, List.mapM_cons]
        exact .append (.map provides) (.map provides')
      · rw [List.mapM_cons, List.mapIdx_cons]
        exact congrArg₂ List.cons same same'

end Indexed

end GrammarFuzz.Duplicate

namespace GrammarFuzz

theorem Part.alike_mapIdx {f : Nat → Symbol → Symbol} {pieces : List Part} (closed : ∀ place symbol,
      pieces[place]? = some (.nonterminal symbol) → isNonterminal (f place symbol) = true) :
    Part.Alike pieces (pieces.mapIdx fun place => Part.rename (f place)) := by
  induction pieces generalizing f with
  | nil => exact .nil
  | cons part rest ih =>
      have tail := ih fun place symbol found => closed (place + 1) symbol found
      rw [List.mapIdx_cons]
      cases part with
      | terminal text => exact .terminal tail
      | nonterminal symbol => exact .nonterminal (closed 0 symbol rfl) tail

namespace Expansion

/-- Replace every reference by an image that may depend on its place; terminal text stays as it
is. -/
def renameEach (f : Nat → Symbol → Symbol) (expansion : Expansion) : Expansion :=
  ⟨String.join ((expansion.parts.mapIdx fun place => Part.rename (f place)).map Part.text)⟩

theorem parts_renameEach {f : Nat → Symbol → Symbol} {expansion : Expansion}
    (closed : ∀ place symbol,
      expansion.parts[place]? = some (.nonterminal symbol) →
      isNonterminal (f place symbol) = true) :
    (expansion.renameEach f).parts = expansion.parts.mapIdx fun place => Part.rename (f place) :=
  parts_join ((lexed_parts _).alike (Part.alike_mapIdx closed))

/-- The references of an expansion, each with its place. -/
def places (expansion : Expansion) : List (Nat × Symbol) :=
  Duplicate.indexed (fun part => part.symbol?.toList) expansion.parts

theorem mem_places {expansion : Expansion} {place : Nat} {reference : Symbol} :
    (place, reference) ∈ expansion.places ↔
      expansion.parts[place]? = some (.nonterminal reference) := by
  rw [places, Duplicate.mem_indexed]
  constructor
  · rintro ⟨part, found, inside⟩
    cases part with
    | terminal text => contradiction
    | nonterminal symbol =>
        obtain rfl := List.mem_singleton.mp inside
        exact found
  · exact fun found => ⟨_, found, List.mem_singleton_self reference⟩

end Expansion

/-- A reference in the rule of a symbol: the part of the expansion where it stands. -/
structure Occurrence where
  expansion : Nat
  part : Nat
  symbol : Symbol
  deriving DecidableEq

namespace Grammar

open Duplicate

/-- The references in the expansions of a symbol, in those with a certain text if one is given. -/
def occurrences (g : Grammar) (symbol : Symbol) (only? : Option String) : List Occurrence :=
  (indexed (fun expansion => if only?.all (· == expansion.text) then expansion.places else [])
    (g.expansions symbol)).map fun spot => ⟨spot.1, spot.2.1, spot.2.2⟩

variable {g copy : Grammar} {symbol : Symbol} {only? : Option String}

theorem mem_occurrences {occurrence : Occurrence} : occurrence ∈ g.occurrences symbol only? ↔
    ∃ expansion, (g.expansions symbol)[occurrence.expansion]? = some expansion ∧
      only?.all (· == expansion.text) = true ∧
      expansion.parts[occurrence.part]? = some (.nonterminal occurrence.symbol) := by
  have listed : occurrence ∈ g.occurrences symbol only? ↔
      (occurrence.expansion, occurrence.part, occurrence.symbol) ∈
        indexed
          (fun expansion : Expansion =>
            if only?.all (· == expansion.text) then expansion.places else [])
          (g.expansions symbol) := by
    constructor
    · intro member
      obtain ⟨_, inside, rfl⟩ := List.mem_map.mp member
      exact inside
    · exact fun inside => List.mem_map.mpr ⟨_, inside, rfl⟩
  rw [listed, mem_indexed]
  refine exists_congr fun expansion => and_congr_right fun _ => ?_
  split
  · rename_i selected
    rw [Expansion.mem_places]
    exact (and_iff_right selected).symm
  · rename_i unselected
    exact iff_of_false List.not_mem_nil fun both => unselected both.1

/-- Every occurrence has copies of its own of all that can be reached from there, among which its
references stay; nothing else changes. -/
structure SetApart (g copy : Grammar) (symbol : Symbol) (only? : Option String)
    (name : Occurrence → Symbol → Symbol) : Prop where
  rewritten : (copy.expansions symbol).map Expansion.parts =
      (g.expansions symbol).mapIdx fun position expansion =>
    if only?.all (· == expansion.text) then
      expansion.parts.mapIdx fun place => Part.rename fun reference =>
        name ⟨position, place, reference⟩ reference
    else expansion.parts
  copied {occurrence : Occurrence} {original : Symbol} : occurrence ∈ g.occurrences symbol only? →
    g.Reaches occurrence.symbol original → name occurrence original ∉ g.symbols ∧
      (copy.expansions (name occurrence original)).map Expansion.parts =
        (g.expansions original).map fun expansion =>
          expansion.parts.map (Part.rename (name occurrence))
  apart {occurrence other : Occurrence} {original original' : Symbol} :
    occurrence ∈ g.occurrences symbol only? → other ∈ g.occurrences symbol only? →
    g.Reaches occurrence.symbol original → g.Reaches other.symbol original' →
    name occurrence original = name other original' → occurrence = other ∧ original = original'
  symbols {minted : Symbol} : minted ∈ copy.symbols ↔ minted ∈ g.symbols ∨
    ∃ occurrence ∈ g.occurrences symbol only?, ∃ original, g.Reaches occurrence.symbol original ∧
      name occurrence original = minted
  kept {other : Symbol} : other ∈ g.symbols → other ≠ symbol →
    copy.expansions other = g.expansions other
  size : copy.size = g.size +
    ((g.occurrences symbol only?).map fun occurrence => g.reachCount occurrence.symbol).sum

theorem duplicateContext_eq {depth? : Option Nat} (member : symbol ∈ g.symbols)
    (selects : ∀ text ∈ only?, ∃ expansion ∈ g.expansions symbol, expansion.text = text) :
    g.duplicateContext symbol only? depth? =
      .ok (((g.rewriteRule symbol only? (depth?.getD g.size)).run g).2.setRule symbol
        ((g.rewriteRule symbol only? (depth?.getD g.size)).run g).1) := by
  have required : g.require symbol = .ok (g.expansions symbol) := require_eq_ok.mpr ⟨member, rfl⟩
  unfold duplicateContext
  rw [required]
  cases only? with
  | none => rfl
  | some text =>
      obtain ⟨expansion, listed, same⟩ := selects text rfl
      have found : (g.expansions symbol).any (fun expansion =>
          (some text).all (· == expansion.text)) = true :=
        List.any_eq_true.mpr ⟨expansion, listed, by simp [same]⟩
      simp only [bind, Except.bind, found, Bool.not_true, Bool.false_eq_true, if_false]
      rfl

section Rewrite

variable {depth : Nat} (valid : g.Valid) (deep : g.size ≤ depth)
include valid deep

theorem provides_renameM {expansion : Expansion}
    (known : ∀ reference ∈ expansion.references, reference ∈ g.symbols)
    (before : Grammar) : ∃ name : Nat × Symbol → Symbol → Symbol,
      Provides g Prod.snd expansion.places name before
        ((expansion.renameM (occurrence g depth)).run before).2 ∧
      ((expansion.renameM (occurrence g depth)).run before).1 =
        expansion.renameEach fun place reference => name (place, reference) reference := by
  have each : ∀ part ∈ expansion.parts, ∀ before, ∃ name : Symbol → Symbol → Symbol,
      Provides g id part.symbol?.toList name before
        ((part.renameM (occurrence g depth)).run before).2 ∧
      ((part.renameM (occurrence g depth)).run before).1 =
        (part.rename fun reference => name reference reference).text := by
    intro part listed before
    cases part with
    | terminal text => exact ⟨fun _ => id, .nil before, rfl⟩
    | nonterminal reference =>
        obtain ⟨name, provides, same⟩ :=
          provides_occurrence valid (known reference (mem_references.mpr listed)) deep before
        exact ⟨fun _ => name, provides, same⟩
  obtain ⟨name, provides, same⟩ := provides_mapM each before
  refine ⟨name, provides, ?_⟩
  rw [Expansion.run_renameM, same, Expansion.renameEach, map_mapIdx]

theorem provides_rewriteRule (only? : Option String) : ∃ name : Occurrence → Symbol → Symbol,
    Provides g Occurrence.symbol (g.occurrences symbol only?) name g
      ((g.rewriteRule symbol only? depth).run g).2 ∧
    ((g.rewriteRule symbol only? depth).run g).1 =
      (g.expansions symbol).mapIdx fun position expansion =>
      if only?.all (· == expansion.text) then
        expansion.renameEach fun place reference => name ⟨position, place, reference⟩ reference
      else expansion := by
  have each : ∀ expansion ∈ g.expansions symbol, ∀ before, ∃ name : Nat × Symbol → Symbol → Symbol,
      Provides g Prod.snd (if only?.all (· == expansion.text) then expansion.places else [])
        name before
        ((rewrite g only? depth expansion).run before).2 ∧
      ((rewrite g only? depth expansion).run before).1 =
        if only?.all (· == expansion.text) then
          expansion.renameEach fun place reference => name (place, reference) reference
        else expansion := by
    intro expansion listed before
    unfold rewrite
    split
    · exact provides_renameM valid deep (fun reference used =>
        valid.references_mem listed used) before
    · exact ⟨fun _ => id, .nil before, rfl⟩
  obtain ⟨name, provides, same⟩ := provides_mapM each g
  exact ⟨fun occurrence => name (occurrence.expansion, occurrence.part, occurrence.symbol),
    .map provides, same⟩

end Rewrite

/-- Once all copies are provided, the rule is set in terms of them. -/
theorem setApart_of_provides {name : Occurrence → Symbol → Symbol} {below : Grammar}
    (member : symbol ∈ g.symbols)
    (provides : Provides g Occurrence.symbol (g.occurrences symbol only?) name g below) :
    g.SetApart (below.setRule symbol ((g.expansions symbol).mapIdx fun position expansion =>
      if only?.all (· == expansion.text) then
        expansion.renameEach fun place reference => name ⟨position, place, reference⟩ reference
      else expansion)) symbol only? name := by
  constructor
  case rewritten =>
    rw [expansions_setRule_self, map_mapIdx]
    refine List.mapIdx_eq_mapIdx_iff.mpr fun position less => ?_
    split
    · rename_i selected
      refine Expansion.parts_renameEach fun place reference used => ?_
      have listed : ⟨position, place, reference⟩ ∈ g.occurrences symbol only? :=
        mem_occurrences.mpr ⟨_, List.getElem?_eq_getElem less, selected, used⟩
      exact (provides.copied listed .refl).closed
    · rfl
  case copied =>
    intro occurrence original listed reaches
    have copied := provides.copied listed reaches
    have differs : name occurrence original ≠ symbol := fun same => copied.fresh (same ▸ member)
    refine ⟨copied.fresh, ?_⟩
    rw [expansions_setRule_of_ne differs, copied.rule, List.map_map]
    refine List.map_congr_left fun expansion offered =>
      Expansion.parts_rename fun reference used => ?_
    exact (provides.copied listed (reaches.tail (mem_references_of_expansion offered used))).closed
  case apart => exact fun listed listed' => provides.apart listed listed'
  case symbols =>
    intro minted
    rw [mem_symbols_setRule]
    constructor
    · rintro (rfl | known)
      · exact .inl member
      · exact provides.symbols known
    · rintro (known | ⟨occurrence, listed, original, reaches, rfl⟩)
      · exact .inr (provides.keeps minted known).1
      · exact .inr (provides.copied listed reaches).known
  case kept =>
    intro other known differs
    exact (expansions_setRule_of_ne differs).trans (provides.keeps other known).2
  case size => exact (size_setRule (provides.keeps symbol member).1).trans provides.size

/-- A depth of the number of symbols stands for no limit. -/
theorem rewriteRule_of_deep {depth : Nat} (valid : g.Valid) (deep : g.size ≤ depth) :
    (g.rewriteRule symbol only? depth).run g = (g.rewriteRule symbol only? g.size).run g := by
  have each : ∀ expansion ∈ g.expansions symbol,
      Agree (fun _ => True) (rewrite g only? g.size expansion)
          (rewrite g only? depth expansion) := by
    intro expansion listed
    unfold rewrite
    split
    · exact Agree.renameM fun reference used =>
        agree_occurrence valid (Nat.le_refl g.size) deep (valid.references_mem listed used)
    · exact .pure expansion
  exact (Agree.mapM each g trivial).1.symm

/-- Without a limit, and with every limit of at least the number of symbols, a duplication gives
each occurrence a copy of its own of all that can be reached from there. As many rules are added as
there are symbols to reach, for each occurrence anew. -/
theorem duplicateContext_setApart (valid : g.Valid) (member : symbol ∈ g.symbols)
    (selects : ∀ text ∈ only?, ∃ expansion ∈ g.expansions symbol, expansion.text = text) :
    ∃ copy, (∀ depth? : Option Nat, (∀ depth ∈ depth?, g.size ≤ depth) →
        g.duplicateContext symbol only? depth? = .ok copy) ∧
      ∃ name : Occurrence → Symbol → Symbol, g.SetApart copy symbol only? name := by
  obtain ⟨name, provides, rewritten⟩ := provides_rewriteRule valid (Nat.le_refl g.size) only?
  refine ⟨_, fun depth? deep => ?_, name, setApart_of_provides member provides⟩
  have enough : g.size ≤ depth?.getD g.size := by
    cases depth? with
    | none => exact Nat.le_refl g.size
    | some depth => exact deep depth rfl
  rw [duplicateContext_eq member selects, rewriteRule_of_deep valid enough, rewritten]

theorem pointed_setApart : pointed.Valid ∧ "<start>" ∈ pointed.symbols ∧ pointed.size = 4 ∧
    pointed.duplicateContext "<start>" (some "<<num>.<num>>") (some 4) = .ok pointedApart ∧
    pointed.occurrences "<start>" (some "<<num>.<num>>") = [⟨0, 1, "<num>"⟩, ⟨0, 3, "<num>"⟩] ∧
    ∃ name : Occurrence → Symbol → Symbol,
      pointed.SetApart pointedApart "<start>" (some "<<num>.<num>>") name := by
  have valid : pointed.Valid := by decide +kernel
  have member : "<start>" ∈ pointed.symbols := by decide +kernel
  have size : pointed.size = 4 := by decide +kernel
  have selects : ∀ text ∈ some "<<num>.<num>>", ∃ expansion ∈ pointed.expansions "<start>",
      expansion.text = text := by
    rintro _ ⟨⟩
    exact ⟨⟨"<<num>.<num>>"⟩, by decide +kernel, rfl⟩
  have duplicated : pointed.duplicateContext "<start>" (some "<<num>.<num>>") none =
      .ok pointedApart := by
    decide +kernel
  obtain ⟨copy, every, apart⟩ := duplicateContext_setApart valid member selects
  obtain rfl : copy = pointedApart := Except.ok.inj ((every none nofun).symm.trans duplicated)
  refine ⟨valid, member, size, every (some 4) ?_, by decide +kernel, apart⟩
  rintro depth ⟨⟩
  exact Nat.le_of_eq size

end Grammar
end GrammarFuzz
