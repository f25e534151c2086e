import GrammarFuzz.Proofs.BoundedCopies
import GrammarFuzz.Proofs.Copies
import GrammarFuzz.Proofs.Detours

/-! What a bound on duplication means. Copies are made on the way of a depth-first walk and shared
by all references of one occurrence, so a symbol that is first met with no depth left stays where it
was met and may be copied later, and a symbol that is first met by a long way has copies of less
below it. The bound counts levels, and references are resolved alike, where it leaves no room for
two ways of different length or covers all that can be reached. -/
namespace GrammarFuzz

namespace Grammar

/-- The second symbol is a copy of the first that was made for the occurrence: it stands in the
place of the occurrence, or a copy made for the occurrence refers to it in the place of the first
symbol. -/
inductive CopiedFor (g dup : Grammar) (symbol : Symbol) (occurrence : Occurrence) :
    Symbol → Symbol → Prop
  | top {copy : Symbol} {expansion : Expansion}
      (placed : (dup.expansions symbol)[occurrence.expansion]? = some expansion)
      (stands : expansion.parts[occurrence.part]? = some (.nonterminal copy))
      (fresh : copy ∉ g.symbols) :
      CopiedFor g dup symbol occurrence occurrence.symbol copy
  | deeper {original copy child target : Symbol}
      (above : CopiedFor g dup symbol occurrence original copy)
      (linked : (child, target) ∈ (g.references original).zip (dup.references copy))
      (fresh : target ∉ g.symbols) :
      CopiedFor g dup symbol occurrence child target

/-- In the copies made for the occurrence all references to a symbol are to the same: all to the
symbol itself, or all to one copy of it. -/
def ResolvesAlike (g dup : Grammar) (symbol : Symbol) (occurrence : Occurrence) : Prop :=
  ∃ target : Symbol → Symbol,
    (∀ reference, target reference = reference ∨
      g.CopiedFor dup symbol occurrence reference (target reference)) ∧
    ∀ original copy, g.CopiedFor dup symbol occurrence original copy →
      dup.references copy = (g.references original).map target

/-- The symbols with a copy made for the occurrence are those that are fewer references away than
the depth. -/
def CopiesLevels (depth : Nat) (g dup : Grammar) (symbol : Symbol)
    (occurrence : Occurrence) : Prop :=
  ∀ original, (∃ copy, g.CopiedFor dup symbol occurrence original copy) ↔
    ∃ steps < depth, g.ReachesIn steps occurrence.symbol original

variable {g dup : Grammar} {symbol original copy original' copy' reference target target' : Symbol}
  {occurrence : Occurrence}

theorem ResolvesAlike.eq (alike : g.ResolvesAlike dup symbol occurrence)
    (copied : g.CopiedFor dup symbol occurrence original copy)
    (copied' : g.CopiedFor dup symbol occurrence original' copy')
    (linked : (reference, target) ∈ (g.references original).zip (dup.references copy))
    (linked' : (reference, target') ∈ (g.references original').zip (dup.references copy')) :
    target = target' := by
  obtain ⟨resolved, _, same⟩ := alike
  have image {original copy target : Symbol}
      (copied : g.CopiedFor dup symbol occurrence original copy)
      (linked : (reference, target) ∈ (g.references original).zip (dup.references copy)) :
      target = resolved reference := by
    have each : List.Forall₂ (fun reference target => target = resolved reference)
        (g.references original) ((g.references original).map resolved) :=
      List.forall₂_map_right_iff.mpr (List.forall₂_same.mpr fun _ _ => rfl)
    rw [same original copy copied] at linked
    exact List.forall₂_zip each linked
  rw [image copied linked, image copied' linked']

end Grammar

namespace Duplicate

open Progress

variable {g dup moment : Grammar} {symbol original copy : Symbol} {occurrence : Occurrence}
  {depth : Nat}

/-- Every copy refers to the copies that there are, and otherwise to originals. -/
def Settled (source : Grammar) (progress : Progress) : Prop :=
  ∀ original copy : Symbol, progress.copies[original]? = some copy →
    progress.grammar.references copy = (source.references original).map progress.copyOf

namespace Served

variable (served : Served g dup symbol depth occurrence moment) (valid : g.Valid)
  (known : occurrence.symbol ∈ g.symbols)
include served valid known

theorem minted
    (found : (resolution g depth occurrence.symbol moment).2.copies[original]? = some copy) :
    copy ∉ g.symbols ∧
      List.Forall₂ (resolution g depth occurrence.symbol moment).2.Answers (g.references original)
        (dup.references copy) ∧
      dup.references copy =
        (resolution g depth occurrence.symbol moment).2.grammar.references copy := by
  have minted :=
    (resolved_start valid known depth moment).minted ⟨Std.ExtTreeMap.not_mem_empty, found⟩
  have fresh : copy ∉ g.symbols := fun earlier => minted.fresh (served.base copy earlier).1
  have same := references_congr (served.kept minted.known fresh)
  exact ⟨fresh, same ▸ minted.answers, same⟩

/-- The copies made for an occurrence are those in the table that it leaves. -/
theorem copiedFor_iff : g.CopiedFor dup symbol occurrence original copy ↔
    (resolution g depth occurrence.symbol moment).2.copies[original]? = some copy := by
  have resolved := resolved_start valid known depth moment
  obtain ⟨expansion, placed, stands⟩ := served.placed
  constructor
  · intro copied
    induction copied with
    | top placed' stands' fresh =>
        obtain rfl := Option.some.inj (placed.symm.trans placed')
        obtain rfl := Part.nonterminal.inj (Option.some.inj (stands.symm.trans stands'))
        rcases List.forall₂_zip resolved.answers (List.mem_singleton_self _) with same | found
        · rw [same] at fresh
          exact absurd known fresh
        · exact found
    | deeper _ linked fresh ih =>
        obtain ⟨_, answers, _⟩ := served.minted valid known ih
        rcases List.forall₂_zip answers linked with rfl | found
        · obtain ⟨expansion, listed, used⟩ := List.mem_flatMap.mp (List.of_mem_zip linked).1
          exact absurd (valid.references_mem listed used) fresh
        · exact found
  · intro found
    obtain ⟨top, listed, topmost, chain⟩ := resolved.linked ⟨Std.ExtTreeMap.not_mem_empty, found⟩
    obtain rfl := List.mem_singleton.mp listed
    have copied (pair : Symbol × Symbol) (chain : Relation.ReflTransGen
        (Link g ⟨moment, ∅⟩ (resolution g depth occurrence.symbol moment).2)
        (occurrence.symbol, (resolution g depth occurrence.symbol moment).1) pair) :
        g.CopiedFor dup symbol occurrence pair.1 pair.2 := by
      induction chain with
      | refl => exact .top placed stands (served.minted valid known topmost.2).1
      | tail _ link ih =>
          obtain ⟨above, below, linked⟩ := link
          refine .deeper ih ?_ (served.minted valid known below.2).1
          rwa [(served.minted valid known above.2).2.2]
    exact copied _ chain

/-- The originals of the copies are the symbols that the walk of the same depth enters. -/
theorem exists_copiedFor_iff : (∃ copy, g.CopiedFor dup symbol occurrence original copy) ↔
    original ∈ g.reached (some depth) occurrence.symbol := by
  have walked := (resolved_start valid known depth moment).domain
  have none : Progress.domain ⟨moment, ∅⟩ = ∅ := Std.ExtTreeSet.ext_mem fun name => by
    simp [mem_domain_iff]
  rw [List.foldl_cons, List.foldl_nil, none,
    Grammar.enter_of_not_mem Std.ExtTreeSet.not_mem_empty] at walked
  simp only [served.copiedFor_iff valid known]
  rw [← mem_domain_iff, walked]
  rfl

/-- Where every copy refers to the copies that there are in the end, all references are resolved
alike. -/
theorem resolvesAlike (settled : Settled g (resolution g depth occurrence.symbol moment).2) :
    g.ResolvesAlike dup symbol occurrence := by
  refine ⟨(resolution g depth occurrence.symbol moment).2.copyOf, fun reference => ?_,
    fun original copy copied => ?_⟩
  · exact (answers_copyOf _ reference).imp id (served.copiedFor_iff valid known).mpr
  · have found := (served.copiedFor_iff valid known).mp copied
    rw [(served.minted valid known found).2.2, settled original copy found]

end Served

/-! With a depth of at most one the only copy refers to itself and to originals. With a depth of at
least what there is to reach no reference stays. -/

section Settle

variable {root : Symbol}

theorem run_mapM_resolve_zero (references : List Symbol) (progress : Progress) :
    (references.mapM (resolve g 0)).run progress = (references.map progress.copyOf, progress) := by
  induction references with
  | nil => rfl
  | cons reference rest ih =>
      rw [List.mapM_cons]
      exact congrArg (fun call : List Symbol × Progress =>
        (progress.copyOf reference :: call.1, call.2)) ih

theorem settled_of_le_one (valid : g.Valid) (member : root ∈ g.symbols) (shallow : depth ≤ 1)
    (before : Grammar) :
    Settled g (resolution g depth root before).2 := by
  intro original copy found
  cases depth with
  | zero => exact absurd (mem_copies_iff.mpr ⟨copy, found⟩) Std.ExtTreeMap.not_mem_empty
  | succ depth =>
      obtain rfl : depth = 0 := by omega
      obtain ⟨name, rewritten, names, below, claimed⟩ :=
        exists_claimed valid (resolved_resolve valid 0) member Std.ExtTreeMap.not_mem_empty
          (closed_start before)
      have named := claimed.named
      rw [run_mapM_resolve_zero] at named
      obtain ⟨rfl, rfl⟩ := Prod.mk.inj named
      rw [resolution, claimed.ran] at found ⊢
      have only : original = root ∧ name = copy := by
        rw [Progress.claim, Std.ExtTreeMap.getElem?_insert] at found
        split at found
        · rename_i same
          exact ⟨(Std.LawfulEqCmp.eq_of_compare same).symm, Option.some.inj found⟩
        · exact absurd (mem_copies_iff.mpr ⟨copy, found⟩) Std.ExtTreeMap.not_mem_empty
      obtain ⟨rfl, rfl⟩ := only
      rw [Grammar.references, Grammar.expansions_setRule_self, claimed.written]
      rfl

/-- A copy is made by the rules of what can be reached. -/
theorem agree_resolve_of_reaches {other : Grammar} (depth : Nat) : ∀ {symbol : Symbol},
    (∀ name, g.Reaches symbol name → other.expansions name = g.expansions name) →
    Agree (fun _ => True) (resolve other depth symbol) (resolve g depth symbol) := by
  induction depth with
  | zero => exact fun _ _ _ => ⟨rfl, trivial⟩
  | succ depth ih =>
      intro symbol same progress _
      refine ⟨?_, trivial⟩
      by_cases known : symbol ∈ progress.copies
      · obtain ⟨copy, found⟩ := mem_copies_iff.mp known
        rw [run_resolve_of_found found, run_resolve_of_found found]
      · have rewriting : ∀ expansion ∈ g.expansions symbol, Agree (fun _ => True)
            (expansion.renameM (resolve other depth)) (expansion.renameM (resolve g depth)) :=
          fun expansion offered =>
            Agree.renameM fun reference used => ih fun name reaches =>
              same name (.head (Grammar.mem_references_of_expansion offered used) reaches)
        rw [run_resolve_of_absent known, run_resolve_of_absent known, same symbol .refl,
          (Agree.mapM rewriting _ trivial).1]

theorem settled_of_reachCount_le (valid : g.Valid) (member : root ∈ g.symbols)
    (deep : g.reachCount root ≤ depth)
    (before : Grammar) : Settled g (resolution g depth root before).2 := by
  -- The depth is compared with what can be reached, not with the grammar: copies are made as if
  -- there was no more.
  have validKept := Grammar.valid_kept valid member
  have memberKept : root ∈ (g.kept root).symbols :=
    (Grammar.mem_symbols_kept valid member).mpr .refl
  have same {name : Symbol} (reaches : g.Reaches root name) :
      (g.kept root).expansions name = g.expansions name :=
    Grammar.expansions_kept valid member reaches
  have room : Progress.uncopied (g.kept root) ⟨before, ∅⟩ ≤ depth := by
    rw [← Grammar.size_kept valid member] at deep
    exact Nat.le_trans (Grammar.unentered_le _) deep
  obtain ⟨extension, _⟩ := takes_resolve validKept memberKept depth root .refl ⟨before, ∅⟩ room
  rw [(agree_resolve_of_reaches depth (fun _ => same) ⟨before, ∅⟩ trivial).1] at extension
  intro original copy found
  have copied := extension.copied ⟨Std.ExtTreeMap.not_mem_empty, found⟩
  have reaches : g.Reaches root original :=
    (Grammar.mem_symbols_kept valid member).mp (copied.reaches.mem_symbols validKept memberKept)
  have closed : ∀ reference ∈ g.references original,
      isNonterminal ((resolution g depth root before).2.copyOf reference) = true := by
    intro reference used
    have kept : reference ∈ (g.kept root).references original :=
      references_congr (same reaches) ▸ used
    obtain ⟨name, there⟩ := mem_copies_iff.mp (copied.resolved reference kept)
    rw [Progress.copyOf_eq there]
    exact (extension.copied ⟨Std.ExtTreeMap.not_mem_empty, there⟩).closed
  rw [Grammar.references, copied.rule, same reaches, List.flatMap_map, Grammar.references,
    List.map_flatMap]
  refine List.flatMap_congr fun expansion offered => ?_
  exact Expansion.references_rename fun reference used =>
    closed reference (Grammar.mem_references_of_expansion offered used)

end Settle

/-! A symbol with two references, of which the second is below the first where the depth runs out:
it stays there, and has a copy afterwards. -/

section Split

variable {root first last : Symbol} {rewritten : List Expansion} {names : List Symbol}
  {before below : Progress}

theorem Claimed.exists_middle (valid : g.Valid) (member : root ∈ g.symbols)
    (refers : g.references root = [first, last]) (closed : before.Closed)
    (claimed : Claimed g (depth + 1) root before copy rewritten names below) :
    ∃ near far middle, names = [near, far] ∧
      Resolved g (depth + 1) [first] (before.claim root copy (g.expansions root)) [near] middle ∧
      Resolved g (depth + 1) [last] middle [far] below ∧ below.copies[last]? = some far := by
  have listed : ∀ reference ∈ [first, last], reference ∈ g.symbols :=
    refers ▸ (valid root member).2.2
  have start := closed_claim root (g.expansions root) closed claimed.closed
  have left := resolved_resolve valid (depth + 1) first (listed first (by simp)) _ start
  have right :=
    resolved_resolve valid (depth + 1) last (listed last (by simp)) _ (left.closed start)
  have own := found_of_resolve_succ valid depth (listed last (by simp)) (left.closed start)
  have named := claimed.named
  rw [refers] at named
  obtain ⟨rfl, rfl⟩ := Prod.mk.inj named
  exact ⟨_, _, _, rfl, left, right, own⟩

theorem Served.not_resolvesAlike (served : Served g dup symbol (depth + 2) occurrence moment)
    (valid : g.Valid) (known : occurrence.symbol ∈ g.symbols) (first last upper : Symbol)
    (refers : g.references occurrence.symbol = [first, last]) (differs : upper ≠ occurrence.symbol)
    (met : upper ∈ g.enter (depth + 1) ((∅ : SymbolSet).insert occurrence.symbol) first)
    (unmet : last ∉ g.enter (depth + 1) ((∅ : SymbolSet).insert occurrence.symbol) first)
    (under : last ∈ g.references upper) : ¬g.ResolvesAlike dup symbol occurrence := by
  intro alike
  obtain ⟨copy, rewritten, names, below, claimed⟩ :=
    exists_claimed valid (resolved_resolve valid (depth + 1)) known
    Std.ExtTreeMap.not_mem_empty (closed_start moment)
  obtain ⟨near, far, middle, rfl, left, right, own⟩ :=
    claimed.exists_middle valid known refers (closed_start moment)
  have ended : resolution g (depth + 2) occurrence.symbol moment = _ := claimed.ran
  have copiedFor {original name : Symbol} (found : below.copies[original]? = some name) :
      g.CopiedFor dup symbol occurrence original name ∧ name ∉ g.symbols ∧
        dup.references name = (below.grammar.setRule copy rewritten).references name := by
    have found' : (resolution g (depth + 2) occurrence.symbol moment).2.copies[original]? =
        some name := ended ▸ found
    obtain ⟨fresh, _, same⟩ := served.minted valid known found'
    exact ⟨(served.copiedFor_iff valid known).mpr found', fresh, same.trans (by rw [ended])⟩
  have entered : middle.domain = g.enter (depth + 1)
      ((∅ : SymbolSet).insert occurrence.symbol) first := by
    rw [left.domain, Progress.domain, domain_claim]
    rfl
  rw [← entered] at met unmet
  obtain ⟨other, found⟩ := mem_domain_iff.mp met
  have added : Progress.Adds (Progress.claim ⟨moment, ∅⟩ occurrence.symbol copy
      (g.expansions occurrence.symbol)) middle
      upper other := by
    refine ⟨fun inside => ?_, found⟩
    exact (mem_copies_claim.mp inside).elim (differs ·.symm) Std.ExtTreeMap.not_mem_empty
  have topmost := right.copies (left.copies Std.ExtTreeMap.getElem?_insert_self)
  -- The rule of this copy was set before the last symbol had one, and is not touched afterwards.
  have stays : (last, last) ∈ (g.references upper).zip (dup.references other) := by
    have elsewhere : other ≠ copy := fun same =>
      (left.minted added).fresh (same ▸ Grammar.mem_symbols_setRule.mpr (.inl rfl))
    have same : (below.grammar.setRule copy rewritten).references other =
        middle.grammar.references other :=
      references_congr ((Grammar.expansions_setRule_of_ne elsewhere).trans
        (right.keeps other (left.minted added).known).2)
    rw [(copiedFor (right.copies found)).2.2, same]
    exact left.stays added under unmet
  have copied : (last, far) ∈ (g.references occurrence.symbol).zip (dup.references copy) := by
    have own : (below.grammar.setRule copy rewritten).references copy = [near, far] := by
      rw [Grammar.references, Grammar.expansions_setRule_self, claimed.written]
    rw [(copiedFor topmost).2.2, own, refers]
    exact List.mem_cons_of_mem _ List.mem_cons_self
  have same : last = far :=
    alike.eq (copiedFor (right.copies found)).1 (copiedFor topmost).1 stays copied
  exact (copiedFor own).2.1 (same ▸ (valid _ known).2.2 last (refers ▸ by simp))

end Split

end Duplicate

namespace Grammar

open Duplicate

variable {g : Grammar} {head root name symbol : Symbol} {only? : Option String}
  {occurrence : Occurrence}

theorem symbol_mem_of_occurrence (valid : g.Valid)
    (listed : occurrence ∈ g.occurrences symbol only?) :
    occurrence.symbol ∈ g.symbols := by
  obtain ⟨expansion, offered, _, stands⟩ := mem_occurrences.mp listed
  exact valid.references_mem (List.mem_of_getElem? offered)
    (mem_references.mpr (List.mem_of_getElem? stands))

/-- A property of the copies made for every occurrence from which so many symbols can be reached. -/
def OfCopies (depth count : Nat)
    (property : Grammar → Grammar → Symbol → Occurrence → Prop) : Prop :=
  ∀ g : Grammar, g.Valid → ∀ symbol ∈ g.symbols, ∀ only? : Option String,
    (∀ text ∈ only?, ∃ expansion ∈ g.expansions symbol, expansion.text = text) →
    ∃ dup, g.duplicateContext symbol only? (some depth) = .ok dup ∧
      ∀ occurrence ∈ g.occurrences symbol only?, g.reachCount occurrence.symbol = count →
        property g dup symbol occurrence

theorem ofCopies_of_served {depth count : Nat}
    {property : Grammar → Grammar → Symbol → Occurrence → Prop}
    (each : ∀ {g dup symbol occurrence moment}, g.Valid → occurrence.symbol ∈ g.symbols →
      g.reachCount occurrence.symbol = count → Served g dup symbol depth occurrence moment →
      property g dup symbol occurrence) : OfCopies depth count property := by
  intro g valid symbol member only? selects
  obtain ⟨dup, duplicated, every⟩ := exists_served valid only? member selects depth
  refine ⟨dup, duplicated, fun occurrence listed reach => ?_⟩
  obtain ⟨moment, served⟩ := every occurrence listed
  exact each valid (symbol_mem_of_occurrence valid listed) reach served

/-! A symbol on top of a grammar, whose rule is one reference into it. -/

def headed (g : Grammar) (head root : Symbol) : Grammar := g.setRule head [⟨root⟩]

section Headed

variable (valid : g.Valid) (fresh : head ∉ g.symbols) (member : root ∈ g.symbols)

include fresh in
theorem references_headed (known : name ∈ g.symbols) :
    (g.headed head root).references name = g.references name :=
  references_congr (expansions_setRule_of_ne fun same => fresh (same ▸ known))

include valid fresh in
theorem references_headed_of_reaches (known : symbol ∈ g.symbols) (name : Symbol)
    (reaches : g.Reaches symbol name) :
    (g.headed head root).references name = g.references name :=
  references_headed fresh (reaches.mem_symbols valid known)

include valid fresh member

theorem valid_headed (closed : isNonterminal head = true) : (g.headed head root).Valid := by
  intro name known
  by_cases same : name = head
  · subst same
    refine ⟨closed, by simp [headed, expansions_setRule_self], fun child used => ?_⟩
    rw [references, headed, expansions_setRule_self, List.flatMap_singleton, Expansion.references,
      references_of_isNonterminal (valid.closed member)] at used
    exact mem_symbols_setRule.mpr (.inr (List.mem_singleton.mp used ▸ member))
  · have known := (mem_symbols_setRule.mp known).resolve_left same
    obtain ⟨closed, offers, below⟩ := valid name known
    refine ⟨closed, ?_, fun child used => mem_symbols_setRule.mpr (.inr (below child ?_))⟩
    · rwa [headed, expansions_setRule_of_ne same]
    · rwa [references_headed fresh known] at used

theorem reachCount_headed : (g.headed head root).reachCount root = g.reachCount root :=
  congrArg Set.ncard (Set.ext fun _ =>
    reaches_congr (references_headed_of_reaches valid fresh member))

omit fresh in
theorem occurrence_headed : ⟨0, 0, root⟩ ∈ (g.headed head root).occurrences head none := by
  have closed := valid.closed member
  refine mem_occurrences.mpr ⟨⟨root⟩, ?_, rfl, ?_⟩
  · rw [headed, expansions_setRule_self]
    rfl
  · rw [Expansion.parts, parts_of_isNonterminal closed]
    rfl

end Headed

/-! The row under a symbol of its own. -/

section Row

variable {size target : Nat}

theorem link_size_not_mem : link size ∉ (row size target).symbols := by
  intro member
  obtain ⟨position, less, same⟩ := mem_symbols_row.mp member
  exact (Nat.ne_of_lt less) (link_injective same)

/-- The row with one more symbol, which is not in a row itself, on top. -/
def headedRow (size target : Nat) : Grammar := (row size target).headed (link size) (link 0)

theorem references_headedRow {position : Nat} (less : position < size) :
    (headedRow size target).references (link position) =
      (row size target).references (link position) :=
  references_headed link_size_not_mem (mem_symbols_row.mpr ⟨position, less, rfl⟩)

theorem visit_headedRow {depth position : Nat} {entered : SymbolSet} (less : position < size) :
    (headedRow size target).visit depth entered (link position) =
      (row size target).visit depth entered (link position) :=
  visit_congr depth (references_headed_of_reaches valid_row link_size_not_mem
    (mem_symbols_row.mpr ⟨position, less, rfl⟩))

variable (positive : 0 < size)
include positive

theorem link_zero_mem_row : link 0 ∈ (row size target).symbols :=
  mem_symbols_row.mpr ⟨0, positive, rfl⟩

theorem valid_headedRow (target : Nat) : (headedRow size target).Valid :=
  valid_headed valid_row link_size_not_mem (link_zero_mem_row positive) (isNonterminal_link size)

theorem reachCount_headedRow (target : Nat) : (headedRow size target).reachCount (link 0) = size :=
  (reachCount_headed valid_row link_size_not_mem (link_zero_mem_row positive)).trans
    (reachCount_row positive)

theorem occurrence_headedRow (target : Nat) :
    ⟨0, 0, link 0⟩ ∈ (headedRow size target).occurrences (link size) none :=
  occurrence_headed valid_row (link_zero_mem_row positive)

/-- What holds of all copies holds of those made for the row when the symbol on top is
duplicated. -/
theorem OfCopies.row {depth : Nat} {property : Grammar → Grammar → Symbol → Occurrence → Prop}
    (every : OfCopies depth size property) (target : Nat) : ∃ dup moment,
      Served (headedRow size target) dup (link size) depth ⟨0, 0, link 0⟩ moment ∧
        property (headedRow size target) dup (link size) ⟨0, 0, link 0⟩ := by
  have valid := valid_headedRow positive target
  have member : link size ∈ (headedRow size target).symbols := mem_symbols_setRule.mpr (.inl rfl)
  obtain ⟨dup, duplicated, served⟩ := exists_served valid none member nofun depth
  obtain ⟨other, duplicated', holds⟩ := every _ valid _ member none nofun
  obtain rfl : dup = other := Except.ok.inj (duplicated.symm.trans duplicated')
  have listed := occurrence_headedRow positive target
  obtain ⟨moment, served⟩ := served _ listed
  exact ⟨dup, moment, served, holds _ listed (reachCount_headedRow positive target)⟩

omit positive

/-- The short cut leads to where the walk along the row has no depth left. -/
theorem not_resolvesAlike_headedRow {depth : Nat} {dup moment : Grammar} (less : depth + 2 < size)
    (served : Served (headedRow size (depth + 2)) dup (link size) (depth + 2)
      ⟨0, 0, link 0⟩ moment) :
    ¬(headedRow size (depth + 2)).ResolvesAlike dup (link size) ⟨0, 0, link 0⟩ := by
  have positive : 0 < size := Nat.zero_lt_of_lt less
  have valid := valid_headedRow positive (depth + 2)
  have known := symbol_mem_of_occurrence valid (occurrence_headedRow positive (depth + 2))
  have walked : (headedRow size (depth + 2)).enter (depth + 1)
      ((∅ : SymbolSet).insert (link 0)) (link 1) =
      (row size (depth + 2)).visit (depth + 1) ((∅ : SymbolSet).insert (link 0)) (link 1) :=
    (enter_of_not_mem (not_mem_start Nat.one_pos)).trans (visit_headedRow (by omega))
  refine served.not_resolvesAlike valid known (link 1) (link (depth + 2)) (link (depth + 1)) ?refers
    ?differs ?met ?unmet ?under
  case refers => rw [references_headedRow (by omega), references_zero (by omega) less]
  case differs => exact fun same => absurd (link_injective same) (by omega)
  case met =>
    have last : link (0 + 1 + depth) ∈
        (row size (depth + 2)).visit (depth + 1) ((∅ : SymbolSet).insert (link 0)) (link 1) :=
      link_mem_visit_row (fun other positive => not_mem_start positive) (by omega)
    rw [walked]
    rwa [Nat.zero_add, Nat.add_comm 1 depth] at last
  case unmet =>
    rw [walked]
    intro found
    rcases mem_visit_row found with start | ⟨other, near, same⟩
    · exact not_mem_start (by omega) start
    · have equal := link_injective same
      omega
  case under =>
    rw [references_headedRow (by omega), references_succ (by omega)]
    exact List.mem_singleton_self _

/-- The last symbol is two references away by the short cut, to where the walk has come along the
row. -/
theorem not_copiesLevels_headedRow {target : Nat} {dup moment : Grammar} (less : target + 3 < size)
    (served : Served (headedRow size (target + 2)) dup (link size) (target + 3)
      ⟨0, 0, link 0⟩ moment) :
    ¬CopiesLevels (target + 3) (headedRow size (target + 2)) dup (link size) ⟨0, 0, link 0⟩ := by
  intro levels
  have positive : 0 < size := Nat.zero_lt_of_lt less
  have valid := valid_headedRow positive (target + 2)
  have known := symbol_mem_of_occurrence valid (occurrence_headedRow positive (target + 2))
  have first : link (target + 2) ∈ (headedRow size (target + 2)).references (link 0) := by
    rw [references_headedRow positive, references_zero (by omega) (by omega)]
    exact List.mem_cons_of_mem _ List.mem_cons_self
  have second : link (target + 3) ∈ (headedRow size (target + 2)).references
      (link (target + 2)) := by
    rw [references_headedRow (by omega), references_succ less]
    exact List.mem_singleton_self _
  have copied :=
    (levels (link (target + 3))).mpr ⟨2, by omega, .next first (.next second (.none _))⟩
  rw [served.exists_copiedFor_iff valid known, reached, visit_headedRow positive] at copied
  exact not_mem_reached_row less copied

end Row

/-- In the copies made for an occurrence all references to a symbol go to the same, whatever the
grammar, if the depth is at most one or no less than the number of symbols to reach from the
occurrence; of any other depth and number of symbols, there is a grammar for which some references
to a symbol go to its copy and others to the symbol. -/
theorem duplicateContext_resolvesAlike_iff (depth count : Nat) :
    (∀ g : Grammar, g.Valid → ∀ symbol ∈ g.symbols, ∀ only? : Option String,
      (∀ text ∈ only?, ∃ expansion ∈ g.expansions symbol, expansion.text = text) →
      ∃ dup, g.duplicateContext symbol only? (some depth) = .ok dup ∧
        ∀ occurrence ∈ g.occurrences symbol only?, g.reachCount occurrence.symbol = count →
          g.ResolvesAlike dup symbol occurrence) ↔
    depth ≤ 1 ∨ count ≤ depth := by
  constructor
  · intro every
    by_contra unlike
    push Not at unlike
    obtain ⟨deep, beyond⟩ := unlike
    obtain ⟨less, rfl⟩ : ∃ less, depth = less + 2 := ⟨depth - 2, by omega⟩
    have every : OfCopies (less + 2) count ResolvesAlike := every
    obtain ⟨dup, moment, served, alike⟩ := every.row (Nat.zero_lt_of_lt beyond) (less + 2)
    exact not_resolvesAlike_headedRow beyond served alike
  · intro bound
    apply ofCopies_of_served
    intro g dup symbol occurrence moment valid known reach served
    apply served.resolvesAlike valid known
    rcases bound with shallow | enough
    · exact settled_of_le_one valid known shallow moment
    · exact settled_of_reachCount_le valid known (reach ▸ enough) moment

/-- The second reference comes below the first. -/
def crossing : Grammar :=
  ⟨Rules.ofList [("<s>", ["<a>"]), ("<a>", ["<b><c>"]), ("<b>", ["<c>"]), ("<c>", ["c"])]⟩

def crossingApart : Grammar :=
  ⟨Rules.ofList [("<s>", ["<a-1>"]), ("<a>", ["<b><c>"]), ("<b>", ["<c>"]), ("<c>", ["c"]),
  ("<a-1>", ["<b-1><c-1>"]), ("<b-1>", ["<c>"]), ("<c-1>", ["c"])]⟩

theorem crossing_unlike : crossing.Valid ∧ "<s>" ∈ crossing.symbols ∧
    crossing.duplicateContext "<s>" none (some 2) = .ok crossingApart ∧
    ⟨0, 0, "<a>"⟩ ∈ crossing.occurrences "<s>" none ∧
    ¬crossing.ResolvesAlike crossingApart "<s>" ⟨0, 0, "<a>"⟩ := by
  refine ⟨by decide +kernel, by decide +kernel, by decide +kernel, by decide +kernel,
    fun alike => ?_⟩
  have top : crossing.CopiedFor crossingApart "<s>" ⟨0, 0, "<a>"⟩ "<a>" "<a-1>" :=
    .top (show (crossingApart.expansions "<s>")[0]? = some ⟨"<a-1>"⟩ by decide +kernel)
      (by decide +kernel) (by decide +kernel)
  have first : crossing.CopiedFor crossingApart "<s>" ⟨0, 0, "<a>"⟩ "<b>" "<b-1>" :=
    .deeper top (by decide +kernel) (by decide +kernel)
  have same : "<c>" = "<c-1>" :=
    alike.eq first top (show ("<c>", "<c>") ∈ _ by decide +kernel) (by decide +kernel)
  exact absurd same (by decide)

/-- No symbol that is as many references away as the depth has a copy made for the occurrence. All
that are fewer away have one, whatever the grammar, if the depth is at most two or no less than the
number of symbols to reach from the occurrence; of any other depth and number of symbols, there is a
grammar for which a symbol that is near enough has no copy. -/
theorem duplicateContext_levels_iff (depth count : Nat) :
    (∀ g : Grammar, g.Valid → ∀ symbol ∈ g.symbols, ∀ only? : Option String,
      (∀ text ∈ only?, ∃ expansion ∈ g.expansions symbol, expansion.text = text) →
      ∃ dup, g.duplicateContext symbol only? (some depth) = .ok dup ∧
        ∀ occurrence ∈ g.occurrences symbol only?, ∀ original copy,
          g.CopiedFor dup symbol occurrence original copy →
          ∃ steps < depth, g.ReachesIn steps occurrence.symbol original) ∧
    ((∀ g : Grammar, g.Valid → ∀ symbol ∈ g.symbols, ∀ only? : Option String,
      (∀ text ∈ only?, ∃ expansion ∈ g.expansions symbol, expansion.text = text) →
      ∃ dup, g.duplicateContext symbol only? (some depth) = .ok dup ∧
        ∀ occurrence ∈ g.occurrences symbol only?, g.reachCount occurrence.symbol = count →
          CopiesLevels depth g dup symbol occurrence) ↔
      depth ≤ 2 ∨ count ≤ depth) := by
  refine ⟨fun g valid symbol member only? selects => ?within, fun every => ?only,
    fun bound => ?enough⟩
  case within =>
    obtain ⟨dup, duplicated, every⟩ := exists_served valid only? member selects depth
    refine ⟨dup, duplicated, fun occurrence listed original copy copied => ?_⟩
    obtain ⟨moment, served⟩ := every occurrence listed
    have known := symbol_mem_of_occurrence valid listed
    exact reachesIn_of_mem_reached ((served.exists_copiedFor_iff valid known).mp ⟨copy, copied⟩)
  case only =>
    by_contra uneven
    push Not at uneven
    obtain ⟨deep, beyond⟩ := uneven
    obtain ⟨target, rfl⟩ : ∃ target, depth = target + 3 := ⟨depth - 3, by omega⟩
    have every : OfCopies (target + 3) count (CopiesLevels (target + 3)) := every
    obtain ⟨dup, moment, served, levels⟩ := every.row (Nat.zero_lt_of_lt beyond) (target + 2)
    exact not_copiesLevels_headedRow beyond served levels
  case enough =>
    apply ofCopies_of_served
    intro g dup symbol occurrence moment valid known reach served original
    rw [served.exists_copiedFor_iff valid known]
    refine ⟨reachesIn_of_mem_reached, fun ⟨steps, less, way⟩ => ?_⟩
    rcases bound with shallow | deep
    · exact mem_reached_of_reachesIn (by omega) less way
    · exact mem_reached_of_reachCount_le valid known (reach ▸ deep) way.reflTransGen

/-- The short way to the last symbol comes after a long one. -/
def shortcut : Grammar := ⟨Rules.ofList
  [("<s>", ["<a>"]), ("<a>", ["<b><c>"]), ("<b>", ["<c>"]), ("<c>", ["<d>"]), ("<d>", ["d"])]⟩

theorem shortcut_uncopied : shortcut.Valid ∧ "<s>" ∈ shortcut.symbols ∧
    ⟨0, 0, "<a>"⟩ ∈ shortcut.occurrences "<s>" none ∧
    ∃ dup, shortcut.duplicateContext "<s>" none (some 3) = .ok dup ∧
      shortcut.ReachesIn 2 "<a>" "<d>" ∧ ¬∃ copy,
        shortcut.CopiedFor dup "<s>" ⟨0, 0, "<a>"⟩ "<d>" copy := by
  have valid : shortcut.Valid := by decide +kernel
  have member : "<s>" ∈ shortcut.symbols := by decide +kernel
  have listed : ⟨0, 0, "<a>"⟩ ∈ shortcut.occurrences "<s>" none := by decide +kernel
  obtain ⟨dup, duplicated, served⟩ := exists_served valid none member nofun 3
  obtain ⟨moment, served⟩ := served _ listed
  have near : shortcut.ReachesIn 2 "<a>" "<d>" :=
    .next (show "<c>" ∈ _ by decide +kernel) (.next (by decide +kernel) (.none _))
  refine ⟨valid, member, listed, dup, duplicated, near, ?_⟩
  rw [served.exists_copiedFor_iff valid (symbol_mem_of_occurrence valid listed)]
  decide +kernel

end Grammar

end GrammarFuzz
