import GrammarFuzz.Proofs.Contexts

/-! The copies made for one reference within a bound. A rule is rewritten as if its references were
resolved one after the other, so a list of references is what the recursion is about: the table of
copies grows as the walk of the same depth enters symbols, each copy refers to copies and to
originals, and each is referred to by a copy made before, up to one of the references of the
list. -/
namespace GrammarFuzz

/-! A rule is rewritten by its references. -/

section Rewriting

variable {σ : Type} {rename : Symbol → StateM σ Symbol}

theorem Part.Alike.getElem? {left right : List Part} (alike : Part.Alike left right) {place : Nat}
    {symbol : Symbol} (found : left[place]? = some (.nonterminal symbol)) :
    ∃ other, right[place]? = some (.nonterminal other) := by
  induction alike generalizing place with
  | nil => contradiction
  | terminal _ ih =>
      cases place with
      | zero => simp at found
      | succ place => exact ih found
  | @nonterminal before after left right closed _ ih =>
      cases place with
      | zero => exact ⟨after, rfl⟩
      | succ place => exact ih found

theorem Part.filterMap_nonterminal (symbol : Symbol) (rest : List Part) :
    (.nonterminal symbol :: rest).filterMap Part.symbol? =
      symbol :: rest.filterMap Part.symbol? := rfl

/-- The texts that parts become are those of parts alike, whose references are the names
resolved. -/
theorem Part.exists_pieces (rename : Symbol → StateM σ Symbol) (parts : List Part) :
    ∀ state, ∃ pieces : List Part,
    (parts.mapM (Part.renameM rename)).run state =
      (pieces.map Part.text, (((parts.filterMap Part.symbol?).mapM rename).run state).2) ∧
    pieces.filterMap Part.symbol? = (((parts.filterMap Part.symbol?).mapM rename).run state).1 ∧
    ((∀ name ∈ pieces.filterMap Part.symbol?, isNonterminal name = true) →
      Part.Alike parts pieces) := by
  induction parts with
  | nil => exact fun state => ⟨[], rfl, rfl, fun _ => .nil⟩
  | cons part rest ih =>
      intro state
      cases part with
      | terminal text =>
          obtain ⟨pieces, ran, names, alike⟩ := ih state
          refine ⟨.terminal text :: pieces, ?_, names, fun closed => .terminal (alike closed)⟩
          rw [List.mapM_cons, StateT.run_bind]
          exact congrArg (fun call : List String × σ => (text :: call.1, call.2)) ran
      | nonterminal symbol =>
          obtain ⟨pieces, ran, names, alike⟩ := ih ((rename symbol).run state).2
          refine ⟨.nonterminal ((rename symbol).run state).1 :: pieces, ?_, ?_, fun closed => ?_⟩
          · rw [List.mapM_cons, filterMap_nonterminal, List.mapM_cons]
            exact congrArg (fun call : List String × σ =>
              (((rename symbol).run state).1 :: call.1, call.2)) ran
          · rw [filterMap_nonterminal, filterMap_nonterminal, List.mapM_cons, names]
            rfl
          · rw [filterMap_nonterminal] at closed
            exact .nonterminal (closed _ List.mem_cons_self)
              (alike fun name inside => closed name (List.mem_cons_of_mem _ inside))

/-- An expansion is rewritten with the names that its references are resolved to, and split at them
again. -/
theorem Expansion.exists_pieces (rename : Symbol → StateM σ Symbol)
    (expansion : Expansion) (state : σ) :
    ∃ pieces : List Part,
      (expansion.parts.mapM (Part.renameM rename)).run state =
        (pieces.map Part.text, ((expansion.references.mapM rename).run state).2) ∧
      pieces.filterMap Part.symbol? = ((expansion.references.mapM rename).run state).1 ∧
      ((∀ name ∈ ((expansion.references.mapM rename).run state).1, isNonterminal name = true) →
        Part.Alike expansion.parts pieces ∧
          ((expansion.renameM rename).run state).1.parts = pieces) := by
  obtain ⟨pieces, ran, names, alike⟩ := Part.exists_pieces rename expansion.parts state
  refine ⟨pieces, ran, names, fun closed => ?_⟩
  have alike := alike fun name inside => closed name (names ▸ inside)
  refine ⟨alike, ?_⟩
  rw [Expansion.run_renameM, ran]
  exact parts_join ((lexed_parts _).alike alike)

/-- An expansion leaves the state that its references leave. -/
theorem Expansion.run_renameM_snd (rename : Symbol → StateM σ Symbol)
    (expansion : Expansion) (state : σ) :
    ((expansion.renameM rename).run state).2 =
      ((expansion.references.mapM rename).run state).2 := by
  obtain ⟨pieces, ran, _⟩ := Expansion.exists_pieces rename expansion state
  rw [Expansion.run_renameM, ran]

/-- If all names are nonterminals, they are the references of the new text. -/
theorem Expansion.references_renameM {expansion : Expansion} {state : σ}
    (closed : ∀ name ∈ ((expansion.references.mapM rename).run state).1,
      isNonterminal name = true) :
    ((expansion.renameM rename).run state).1.references =
      ((expansion.references.mapM rename).run state).1 := by
  obtain ⟨pieces, _, names, split⟩ := Expansion.exists_pieces rename expansion state
  exact (congrArg (List.filterMap Part.symbol?) (split closed).2).trans names

/-- A rule is rewritten with the names that its references are resolved to. -/
theorem Expansion.run_mapM_renameM (rename : Symbol → StateM σ Symbol)
    (rule : List Expansion) : ∀ state,
    ((rule.mapM (Expansion.renameM rename)).run state).2 =
      (((rule.flatMap Expansion.references).mapM rename).run state).2 ∧
    ((∀ name ∈ (((rule.flatMap Expansion.references).mapM rename).run state).1,
      isNonterminal name = true) →
      ((rule.mapM (Expansion.renameM rename)).run state).1.flatMap Expansion.references =
        (((rule.flatMap Expansion.references).mapM rename).run state).1) := by
  induction rule with
  | nil => exact fun state => ⟨rfl, fun _ => rfl⟩
  | cons expansion rest ih =>
      intro state
      obtain ⟨rewritten, own⟩ : ∃ rewritten, (expansion.renameM rename).run state =
          (rewritten, ((expansion.references.mapM rename).run state).2) :=
        ⟨_, Prod.ext rfl (Expansion.run_renameM_snd rename expansion state)⟩
      obtain ⟨after, others⟩ := ih ((expansion.references.mapM rename).run state).2
      rw [List.mapM_cons, List.flatMap_cons, List.mapM_append]
      simp only [StateT.run_bind, own]
      refine ⟨after, fun closed => ?_⟩
      have named :=
        Expansion.references_renameM fun name inside => closed name (List.mem_append_left _ inside)
      have later : ∀ name ∈ (((rest.flatMap Expansion.references).mapM rename).run
          ((expansion.references.mapM rename).run state).2).1, isNonterminal name = true :=
        fun name inside => closed name (List.mem_append_right _ inside)
      rw [own] at named
      refine (List.flatMap_cons ..).trans ?_
      rw [named, others later]
      rfl

end Rewriting

namespace Duplicate

open Progress

variable {source : Grammar} {depth : Nat} {before middle after : Progress}
  {symbol copy reference target : Symbol} {references others targets names : List Symbol}

namespace Progress

/-- The symbols that have a copy. -/
def domain (progress : Progress) : SymbolSet := Std.ExtTreeSet.ofList progress.copies.keys

/-- A reference stays as it is, or becomes the copy that the table has for it. -/
def Answers (progress : Progress) (reference target : Symbol) : Prop :=
  target = reference ∨ progress.copies[reference]? = some target

/-- The copies in the table are nonterminals, so that they are found again where they are referred
to. -/
def Closed (progress : Progress) : Prop :=
  ∀ symbol copy : Symbol, progress.copies[symbol]? = some copy → isNonterminal copy = true

end Progress

/-- A copy that was added, whose references stay as they are or are copies. -/
structure Minted (source : Grammar) (before after : Progress) (symbol copy : Symbol) : Prop where
  closed : isNonterminal copy = true
  fresh : copy ∉ before.grammar.symbols
  known : copy ∈ after.grammar.symbols
  answers : List.Forall₂ after.Answers (source.references symbol) (after.grammar.references copy)

/-- Of two symbols with copies that were added, the copy of the first refers to that of the
second. -/
def Link (source : Grammar) (before after : Progress) (parent child : Symbol × Symbol) : Prop :=
  before.Adds after parent.1 parent.2 ∧ before.Adds after child.1 child.2 ∧
    child ∈ (source.references parent.1).zip (after.grammar.references parent.2)

/-- References resolved one after the other, between two moments. -/
structure Resolved (source : Grammar) (depth : Nat) (references : List Symbol) (before : Progress)
    (targets : List Symbol) (after : Progress) : Prop where
  copies {symbol copy : Symbol} : before.copies[symbol]? = some copy →
    after.copies[symbol]? = some copy
  keeps : before.grammar.Keeps after.grammar
  answers : List.Forall₂ after.Answers references targets
  minted {symbol copy : Symbol} : before.Adds after symbol copy →
    Minted source before after symbol copy
  linked {symbol copy : Symbol} : before.Adds after symbol copy → ∃ top ∈ references.zip targets,
    before.Adds after top.1 top.2 ∧
      Relation.ReflTransGen (Link source before after) top (symbol, copy)
  domain : after.domain = references.foldl (source.enter depth) before.domain

/-- How a symbol without a copy is resolved: it claims a name, the references of its rule are
resolved one level deeper, and the rule is set. -/
structure Claimed (source : Grammar) (depth : Nat) (symbol : Symbol) (before : Progress)
    (copy : Symbol)
    (rewritten : List Expansion) (names : List Symbol) (below : Progress) : Prop where
  closed : isNonterminal copy = true
  fresh : copy ∉ before.grammar.symbols
  resolved : Resolved source depth (source.references symbol)
    (before.claim symbol copy (source.expansions symbol)) names below
  named : ((source.references symbol).mapM (resolve source depth)).run
    (before.claim symbol copy (source.expansions symbol)) = (names, below)
  written : rewritten.flatMap Expansion.references = names
  ran : (resolve source (depth + 1) symbol).run before =
    (copy, { below with grammar := below.grammar.setRule copy rewritten })

theorem mem_domain_iff : symbol ∈ before.domain ↔ ∃ copy, before.copies[symbol]? = some copy :=
  mem_domain.trans mem_copies_iff

theorem Progress.Answers.mono
    (grows : ∀ {symbol copy : Symbol}, before.copies[symbol]? = some copy →
      after.copies[symbol]? = some copy)
    (answers : before.Answers reference target) : after.Answers reference target :=
  answers.imp_right grows

theorem references_congr {left right : Grammar}
    (same : left.expansions symbol = right.expansions symbol) :
    left.references symbol = right.references symbol :=
  congrArg (List.flatMap Expansion.references) same

theorem forall_of_forall₂ {α β : Type} {P : β → Prop} {items : List α} {values : List β}
    (each : List.Forall₂ (fun _ value => P value) items values) : ∀ value ∈ values, P value := by
  induction each with
  | nil => simp
  | cons first _ ih => exact List.forall_mem_cons.mpr ⟨first, ih⟩

theorem exists_zip_of_mem {α β : Type} {R : α → β → Prop} {items : List α}
    {values : List β} {item : α} (each : List.Forall₂ R items values) (listed : item ∈ items) :
    ∃ value, (item, value) ∈ items.zip values ∧ R item value := by
  induction each with
  | nil => contradiction
  | @cons first value _ _ related _ ih =>
      rcases List.mem_cons.mp listed with rfl | later
      · exact ⟨value, List.mem_cons_self, related⟩
      · obtain ⟨other, inside, related⟩ := ih later
        exact ⟨other, List.mem_cons_of_mem _ inside, related⟩

namespace Resolved

/-- Nothing changes where the references have copies, or no depth is left. -/
theorem unchanged (answers : List.Forall₂ before.Answers references targets)
    (walked : ∀ reference ∈ references, depth = 0 ∨ reference ∈ before.domain) :
    Resolved source depth references before targets before := by
  have none : ∀ {symbol copy}, ¬before.Adds before symbol copy := fun added =>
    added.1 (mem_copies_iff.mpr ⟨_, added.2⟩)
  exact ⟨id, .refl _, answers, fun added => absurd added none, fun added => absurd added none,
    (Grammar.foldl_enter_again walked).symm⟩

theorem closed (resolved : Resolved source depth references before targets after)
    (closed : before.Closed) :
    after.Closed := by
  intro symbol copy found
  by_cases early : symbol ∈ before.copies
  · obtain ⟨other, earlier⟩ := mem_copies_iff.mp early
    obtain rfl : other = copy := Option.some.inj ((resolved.copies earlier).symm.trans found)
    exact closed symbol other earlier
  · exact (resolved.minted ⟨early, found⟩).closed

theorem isNonterminal_target (resolved : Resolved source depth references before targets after)
    (closed : before.Closed) (known : ∀ reference ∈ references, isNonterminal reference = true) :
    ∀ target ∈ targets, isNonterminal target = true := by
  intro target listed
  have each : List.Forall₂ (fun _ target => isNonterminal target = true) references targets := by
    refine ((List.forall₂_and_left _ _).mpr ⟨known, resolved.answers⟩).imp ?_
    rintro reference target ⟨known, rfl | found⟩
    · exact known
    · exact resolved.closed closed _ _ found
  exact forall_of_forall₂ each target listed

/-- A copy refers to what had no copy by the original. -/
theorem stays (resolved : Resolved source depth references before targets after)
    (added : before.Adds after symbol copy)
    (used : reference ∈ source.references symbol) (unmet : reference ∉ after.domain) :
    (reference, reference) ∈ (source.references symbol).zip (after.grammar.references copy) := by
  obtain ⟨target, listed, same | found⟩ := exists_zip_of_mem (resolved.minted added).answers used
  · exact same ▸ listed
  · exact absurd (mem_domain_iff.mpr ⟨target, found⟩) unmet

theorem append (left : Resolved source depth references before targets middle)
    (right : Resolved source depth others middle names after) :
    Resolved source depth (references ++ others) before (targets ++ names) after := by
  have early : ∀ {symbol copy}, before.Adds middle symbol copy → before.Adds after symbol copy :=
    fun added => ⟨added.1, right.copies added.2⟩
  have late : ∀ {symbol copy}, middle.Adds after symbol copy → before.Adds after symbol copy := by
    intro symbol copy added
    refine ⟨fun inside => ?_, added.2⟩
    obtain ⟨other, found⟩ := mem_copies_iff.mp inside
    exact added.1 (mem_copies_iff.mpr ⟨other, left.copies found⟩)
  -- A rule that was set earlier is not touched later.
  have same : ∀ {symbol copy}, before.Adds middle symbol copy →
      after.grammar.references copy = middle.grammar.references copy :=
    fun added => references_congr (right.keeps _ (left.minted added).known).2
  constructor
  case copies => exact right.copies ∘ left.copies
  case keeps => exact left.keeps.trans right.keeps
  case answers =>
    refine List.rel_append (left.answers.imp fun _ _ => Answers.mono right.copies) right.answers
  case minted =>
    intro symbol copy added
    rcases adds_cases right.copies added with first | second
    · have minted := left.minted first
      refine ⟨minted.closed, minted.fresh, (right.keeps _ minted.known).1, ?_⟩
      rw [same first]
      exact minted.answers.imp fun _ _ => Answers.mono right.copies
    · have minted := right.minted second
      exact ⟨minted.closed, fun inside => minted.fresh (left.keeps _ inside).1, minted.known,
        minted.answers⟩
  case linked =>
    have zipped : (references ++ others).zip (targets ++ names) =
        references.zip targets ++ others.zip names :=
      List.zip_append left.answers.length_eq
    intro symbol copy added
    rw [zipped]
    rcases adds_cases right.copies added with first | second
    · obtain ⟨top, listed, topmost, chain⟩ := left.linked first
      refine ⟨top, List.mem_append_left _ listed, early topmost,
        Relation.ReflTransGen.mono ?_ _ _ chain⟩
      rintro parent child ⟨above, below, linked⟩
      exact ⟨early above, early below, by rwa [same above]⟩
    · obtain ⟨top, listed, topmost, chain⟩ := right.linked second
      refine ⟨top, List.mem_append_right _ listed, late topmost,
        Relation.ReflTransGen.mono ?_ _ _ chain⟩
      rintro parent child ⟨above, below, linked⟩
      exact ⟨late above, late below, linked⟩
  case domain => rw [List.foldl_append, ← left.domain, right.domain]

/-- A name is claimed, the references of its rule are resolved one level deeper, and the rule is
set. -/
theorem claim {rule rewritten : List Expansion} (absent : symbol ∉ before.copies)
    (closed : isNonterminal copy = true) (fresh : copy ∉ before.grammar.symbols)
    (below : Resolved source depth (source.references symbol)
      (before.claim symbol copy rule) names after)
    (written : rewritten.flatMap Expansion.references = names) :
    Resolved source (depth + 1) [symbol] before [copy]
      { after with grammar := after.grammar.setRule copy rewritten } := by
  have own : after.copies[symbol]? = some copy := below.copies Std.ExtTreeMap.getElem?_insert_self
  have claimed : copy ∈ (before.claim symbol copy rule).grammar.symbols :=
    Grammar.mem_symbols_setRule.mpr (.inl rfl)
  have elsewhere : ∀ {other name}, (before.claim symbol copy rule).Adds after other name →
      name ≠ copy :=
    fun added same => (below.minted added).fresh (same ▸ claimed)
  have earlier : ∀ {other name}, (before.claim symbol copy rule).Adds after other name →
      before.Adds after other name :=
    fun added => ⟨fun inside => added.1 (mem_copies_claim.mpr (.inr inside)), added.2⟩
  have self : (after.grammar.setRule copy rewritten).references copy = names := by
    rw [Grammar.references, Grammar.expansions_setRule_self, written]
  have same : ∀ {other name}, (before.claim symbol copy rule).Adds after other name →
      (after.grammar.setRule copy rewritten).references name = after.grammar.references name :=
    fun added => references_congr (Grammar.expansions_setRule_of_ne (elsewhere added))
  constructor
  case copies => exact fun found => below.copies (copies_claim absent found)
  case keeps =>
    intro name known
    obtain ⟨kept, same⟩ := ((Grammar.keeps_setRule fresh).trans below.keeps) name known
    have differs : name ≠ copy := fun same => fresh (same ▸ known)
    exact ⟨Grammar.mem_symbols_setRule.mpr (.inr kept),
      (Grammar.expansions_setRule_of_ne differs).trans same⟩
  case answers => exact .cons (.inr own) .nil
  case minted =>
    intro other name added
    rcases adds_claim rule own added with ⟨rfl, rfl⟩ | later
    · exact ⟨closed, fresh, Grammar.mem_symbols_setRule.mpr (.inl rfl), self ▸ below.answers⟩
    · have minted := below.minted later
      refine ⟨minted.closed, fun known =>
        minted.fresh (Grammar.mem_symbols_setRule.mpr (.inr known)),
        Grammar.mem_symbols_setRule.mpr (.inr minted.known), ?_⟩
      exact (same later).symm ▸ minted.answers
  case linked =>
    intro other name added
    refine ⟨(symbol, copy), List.mem_singleton_self _, ⟨absent, own⟩, ?_⟩
    rcases adds_claim rule own added with ⟨rfl, rfl⟩ | later
    · exact .refl
    · obtain ⟨top, listed, topmost, chain⟩ := below.linked later
      refine .head ⟨⟨absent, own⟩, earlier topmost, self.symm ▸ listed⟩
        (Relation.ReflTransGen.mono ?_ _ _ chain)
      rintro parent child ⟨above, under, linked⟩
      exact ⟨earlier above, earlier under, (same above).symm ▸ linked⟩
  case domain =>
    have entered : symbol ∉ before.domain := mem_domain.not.mpr absent
    have start : (before.claim symbol copy rule).domain = before.domain.insert symbol :=
      domain_claim before symbol copy rule
    rw [List.foldl_cons, List.foldl_nil, Grammar.enter_of_not_mem entered,
      Grammar.visit_succ, ← start]
    exact below.domain

end Resolved

theorem answers_copyOf (progress : Progress) (symbol : Symbol) :
    progress.Answers symbol (progress.copyOf symbol) := by
  by_cases known : symbol ∈ progress.copies
  · obtain ⟨copy, found⟩ := mem_copies_iff.mp known
    exact .inr (Progress.copyOf_eq found ▸ found)
  · left
    rw [Progress.copyOf, Std.ExtTreeMap.getD_eq_fallback known]

theorem closed_start (before : Grammar) : Progress.Closed ⟨before, ∅⟩ := by simp [Closed]

theorem closed_claim (symbol : Symbol) (rule : List Expansion) (closed : before.Closed)
    (nonterminal : isNonterminal copy = true) :
    (before.claim symbol copy rule).Closed := by
  intro other name found
  rw [Progress.claim, Std.ExtTreeMap.getElem?_insert] at found
  split at found
  · exact Option.some.inj found ▸ nonterminal
  · exact closed other name found

theorem run_resolve_zero (progress : Progress) (symbol : Symbol) :
    (resolve source 0 symbol).run progress = (progress.copyOf symbol, progress) := rfl

/-- What a reference at the top becomes, and how far the copies are when it has. -/
abbrev resolution (source : Grammar) (depth : Nat) (symbol : Symbol) (before : Grammar) :
    Symbol × Progress :=
  (resolve source depth symbol).run ⟨before, ∅⟩

/-- One reference after the other, at a depth at which each one is resolved. -/
theorem resolved_mapM (each : ∀ reference ∈ source.symbols, ∀ before : Progress, before.Closed →
      Resolved source depth [reference] before [((resolve source depth reference).run before).1]
        ((resolve source depth reference).run before).2) : ∀ references : List Symbol,
    (∀ reference ∈ references, reference ∈ source.symbols) → ∀ before : Progress, before.Closed →
    Resolved source depth references before ((references.mapM (resolve source depth)).run before).1
      ((references.mapM (resolve source depth)).run before).2 := by
  intro references
  induction references with
  | nil => exact fun _ before _ => .unchanged .nil (by simp)
  | cons reference rest ih =>
      intro known before closed
      have first := each reference (known reference List.mem_cons_self) before closed
      have later :=
        ih (fun other listed => known other (List.mem_cons_of_mem reference listed)) _
          (first.closed closed)
      rw [List.mapM_cons]
      exact first.append later

section Run

variable (valid : source.Valid)
include valid

theorem exists_claimed (each : ∀ reference ∈ source.symbols, ∀ before : Progress, before.Closed →
      Resolved source depth [reference] before [((resolve source depth reference).run before).1]
        ((resolve source depth reference).run before).2)
    (member : symbol ∈ source.symbols) (absent : symbol ∉ before.copies) (closed : before.Closed) :
    ∃ copy rewritten names below,
      Claimed source depth symbol before copy rewritten names below := by
  have nonterminal := Grammar.isNonterminal_newSymbol (g := before.grammar) (valid.closed member)
  have claimed := closed_claim symbol (source.expansions symbol) closed nonterminal
  have below := resolved_mapM each (source.references symbol) (valid symbol member).2.2 _ claimed
  obtain ⟨after, written⟩ :=
    Expansion.run_mapM_renameM (resolve source depth) (source.expansions symbol)
    (before.claim symbol (before.grammar.newSymbol symbol) (source.expansions symbol))
  refine ⟨before.grammar.newSymbol symbol, _, _, _, nonterminal,
    Grammar.newSymbol_not_mem before.grammar symbol, below, rfl,
    written (below.isNonterminal_target claimed fun reference used =>
      valid.closed ((valid symbol member).2.2 reference used)), ?_⟩
  rw [run_resolve_of_absent absent]
  simp only [after]
  rfl

/-- At every depth a symbol is resolved to itself or a copy of it, and what was added are copies
that are linked to this one by references. -/
theorem resolved_resolve (depth : Nat) :
    ∀ symbol ∈ source.symbols, ∀ before : Progress, before.Closed →
    Resolved source depth [symbol] before [((resolve source depth symbol).run before).1]
      ((resolve source depth symbol).run before).2 := by
  induction depth with
  | zero =>
      intro symbol _ before _
      rw [run_resolve_zero]
      exact .unchanged (.cons (answers_copyOf before symbol) .nil) (by simp)
  | succ depth ih =>
      intro symbol member before closed
      by_cases known : symbol ∈ before.copies
      · obtain ⟨copy, found⟩ := mem_copies_iff.mp known
        rw [run_resolve_of_found found]
        refine .unchanged (.cons (.inr found) .nil) fun reference listed => .inr ?_
        rw [List.mem_singleton.mp listed]
        exact mem_domain_iff.mpr ⟨copy, found⟩
      · obtain ⟨copy, rewritten, names, below, claimed⟩ :=
          exists_claimed valid ih member known closed
        rw [claimed.ran]
        exact Resolved.claim known claimed.closed claimed.fresh claimed.resolved claimed.written

/-- With depth left a symbol has a copy in the end, which is what it is resolved to. -/
theorem found_of_resolve_succ (depth : Nat) (member : symbol ∈ source.symbols)
    (closed : before.Closed) :
    ((resolve source (depth + 1) symbol).run before).2.copies[symbol]? =
      some ((resolve source (depth + 1) symbol).run before).1 := by
  by_cases known : symbol ∈ before.copies
  · obtain ⟨copy, found⟩ := mem_copies_iff.mp known
    rw [run_resolve_of_found found]
    exact found
  · obtain ⟨copy, rewritten, names, below, claimed⟩ :=
      exists_claimed valid (resolved_resolve valid depth) member known closed
    rw [claimed.ran]
    exact claimed.resolved.copies Std.ExtTreeMap.getElem?_insert_self

/-- A table that starts empty ends with what the walk enters. -/
theorem resolved_start (member : symbol ∈ source.symbols) (depth : Nat) (before : Grammar) :
    Resolved source depth [symbol] ⟨before, ∅⟩ [(resolution source depth symbol before).1]
      (resolution source depth symbol before).2 :=
  resolved_resolve valid depth symbol member ⟨before, ∅⟩ (closed_start before)

theorem takes_occurrence (member : symbol ∈ source.symbols) (depth : Nat) :
    Takes (fun _ => True) Grammar.Keeps (occurrence source depth symbol) fun _ name =>
      isNonterminal name = true := by
  intro before _
  have resolved := resolved_start valid member depth before
  refine ⟨resolved.keeps, resolved.isNonterminal_target (closed_start before) ?_ _
    (List.mem_singleton_self _)⟩
  intro reference listed
  exact List.mem_singleton.mp listed ▸ valid.closed member

end Run

/-! One item among those that are turned into something one after the other. -/

section Items

variable {σ α β : Type} {step : σ → σ → Prop} {result : α → β → Prop}
  (refl : ∀ state, step state state)
  (trans : ∀ {first second third}, step first second → step second third → step first third)
  {items : List α} {f : α → StateM σ β}
  (each : ∀ item ∈ items, Takes (fun _ => True) step (f item) fun _ => result item)
include refl trans each

theorem takes_mapM (state : σ) : step state ((items.mapM f).run state).2 ∧
    List.Forall₂ result items ((items.mapM f).run state).1 :=
  Takes.mapM refl trans (fun _ => id) each (fun _ => id) state trivial

/-- It was turned into its value at some moment in between. -/
theorem exists_moment {position : Nat} {item : α} (found : items[position]? = some item) :
    ∀ state, ∃ moment,
    step state moment ∧ step ((f item).run moment).2 ((items.mapM f).run state).2 ∧
      ((items.mapM f).run state).1[position]? = some ((f item).run moment).1 := by
  induction items generalizing position with
  | nil => contradiction
  | cons first rest ih =>
      intro state
      have others : ∀ item ∈ rest, Takes (fun _ => True) step (f item) fun _ => result item :=
        fun other listed => each other (List.mem_cons_of_mem first listed)
      rw [List.mapM_cons]
      cases position with
      | zero =>
          obtain rfl := Option.some.inj found
          exact ⟨state, refl state, (takes_mapM refl trans others _).1, rfl⟩
      | succ position =>
          obtain ⟨moment, since, till, same⟩ := ih others found ((f first).run state).2
          exact ⟨moment, trans (each first List.mem_cons_self state trivial).1 since, till, same⟩

end Items

/-- An occurrence was resolved at some moment: the name it was given stands in its place, and the
rules that were made for it stay. -/
structure Served (g dup : Grammar) (symbol : Symbol) (depth : Nat) (occurrence : Occurrence)
    (moment : Grammar) : Prop where
  base : g.Keeps moment
  placed : ∃ expansion, (dup.expansions symbol)[occurrence.expansion]? = some expansion ∧
    expansion.parts[occurrence.part]? =
      some (.nonterminal (resolution g depth occurrence.symbol moment).1)
  kept {name : Symbol} : name ∈ (resolution g depth occurrence.symbol moment).2.grammar.symbols →
    name ∉ g.symbols →
    dup.expansions name = (resolution g depth occurrence.symbol moment).2.grammar.expansions name

section Serve

variable {g : Grammar} (valid : g.Valid)
include valid

theorem takes_place {expansion : Expansion}
    (known : ∀ reference ∈ expansion.references, reference ∈ g.symbols)
    (depth : Nat) : ∀ part ∈ expansion.parts,
      Takes (fun _ => True) Grammar.Keeps (part.renameM (Duplicate.occurrence g depth))
        fun _ _ => True := by
  intro part listed before _
  refine ⟨?_, trivial⟩
  cases part with
  | terminal text => exact .refl before
  | nonterminal reference =>
      exact (takes_occurrence valid (known reference (mem_references.mpr listed)) depth
        before trivial).1

theorem takes_rewrite (only? : Option String) {expansion : Expansion}
    (known : ∀ reference ∈ expansion.references, reference ∈ g.symbols)
    (depth : Nat) : Takes (fun _ => True) Grammar.Keeps (rewrite g only? depth expansion)
      fun _ _ => True := by
  intro before _
  refine ⟨?_, trivial⟩
  unfold rewrite
  split
  · exact (takes_mapM Grammar.Keeps.refl Grammar.Keeps.trans
      (takes_place valid known depth) before).1
  · exact .refl before

/-- In the place of a reference stands the name that it was given. -/
theorem exists_part_renameM {expansion : Expansion}
    (known : ∀ reference ∈ expansion.references, reference ∈ g.symbols)
    {depth place : Nat} (stands : expansion.parts[place]? = some (.nonterminal symbol))
    (before : Grammar) :
    ∃ moment, before.Keeps moment ∧
      ((Duplicate.occurrence g depth symbol).run moment).2.Keeps
        ((expansion.renameM (Duplicate.occurrence g depth)).run before).2 ∧
      ((expansion.renameM (Duplicate.occurrence g depth)).run before).1.parts[place]? =
        some (.nonterminal ((Duplicate.occurrence g depth symbol).run moment).1) := by
  obtain ⟨moment, since, till, text⟩ :=
    exists_moment Grammar.Keeps.refl Grammar.Keeps.trans
      (takes_place valid known depth) stands before
  have closed := forall_of_forall₂ (takes_mapM Grammar.Keeps.refl Grammar.Keeps.trans
    (fun reference used => takes_occurrence valid (known reference used) depth) before).2
  obtain ⟨pieces, ran, _, pasted⟩ :=
    Expansion.exists_pieces (Duplicate.occurrence g depth) expansion before
  obtain ⟨alike, split⟩ := pasted closed
  refine ⟨moment, since, till, ?_⟩
  obtain ⟨name, there⟩ := alike.getElem? stands
  rw [ran, List.getElem?_map, there] at text
  rw [split, there]
  exact congrArg (some ∘ Part.nonterminal) (Option.some.inj text)

/-- Every occurrence is served. -/
theorem exists_served (only? : Option String) (member : symbol ∈ g.symbols)
    (selects : ∀ text ∈ only?, ∃ expansion ∈ g.expansions symbol, expansion.text = text)
    (depth : Nat) :
    ∃ dup, g.duplicateContext symbol only? (some depth) = .ok dup ∧
      ∀ occurrence ∈ g.occurrences symbol only?, ∃ moment,
        Served g dup symbol depth occurrence moment := by
  refine ⟨_, Grammar.duplicateContext_eq member selects, fun occurrence listed => ?_⟩
  obtain ⟨expansion, found, selected, stands⟩ := Grammar.mem_occurrences.mp listed
  have known {expansion : Expansion} (offered : expansion ∈ g.expansions symbol) :
      ∀ reference ∈ expansion.references, reference ∈ g.symbols :=
        fun _ used => valid.references_mem offered used
  obtain ⟨outer, since, till, written⟩ := exists_moment Grammar.Keeps.refl Grammar.Keeps.trans
    (fun expansion offered => takes_rewrite valid only? (known offered) depth) found g
  have rewritten : rewrite g only? depth expansion =
      expansion.renameM (Duplicate.occurrence g depth) := if_pos selected
  rw [rewritten] at till written
  obtain ⟨moment, since', till', placed⟩ :=
    exists_part_renameM valid (known (List.mem_of_getElem? found)) stands outer
  refine ⟨moment, since.trans since', ⟨_, ?_, placed⟩, fun {name} made fresh => ?_⟩
  · rw [Grammar.expansions_setRule_self]
    exact written
  · have differs : name ≠ symbol := fun same => fresh (same ▸ member)
    exact (Grammar.expansions_setRule_of_ne differs).trans ((till'.trans till) name made).2

end Serve

end Duplicate

end GrammarFuzz
