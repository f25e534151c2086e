import GrammarFuzz.Proofs.Duplication
import GrammarFuzz.Proofs.Reachability

/-! The copies made for one reference. While they are made the table of copies only grows; each
symbol added to it is claimed under a new name and ends up with the rule of its original, every
reference resolved by the table. The depth is enough as long as it is no less than the number of
symbols without a copy, and what is left of it then makes no difference. -/
namespace GrammarFuzz

namespace Grammar

/-- Symbols were only added, and the rules that there were are as they were. -/
def Keeps (before after : Grammar) : Prop :=
  ∀ symbol ∈ before.symbols, symbol ∈ after.symbols ∧
    after.expansions symbol = before.expansions symbol

theorem Keeps.refl (g : Grammar) : g.Keeps g := fun _ known => ⟨known, rfl⟩

theorem Keeps.trans {first second third : Grammar} (left : first.Keeps second)
    (right : second.Keeps third) :
    first.Keeps third := by
  intro symbol known
  obtain ⟨listed, same⟩ := left symbol known
  obtain ⟨listed', same'⟩ := right symbol listed
  exact ⟨listed', same'.trans same⟩

theorem keeps_setRule {g : Grammar} {symbol : Symbol} {rule : List Expansion}
    (absent : symbol ∉ g.symbols) :
    g.Keeps (g.setRule symbol rule) := by
  intro other known
  exact ⟨mem_symbols_setRule.mpr (.inr known),
    expansions_setRule_of_ne fun same => absent (same ▸ known)⟩

end Grammar

/-- The text of a part, of which a reference is renamed in any effect. -/
def Part.renameM {m : Type → Type} [Monad m] (rename : Symbol → m Symbol) : Part → m String
  | terminal text => pure text
  | nonterminal symbol => rename symbol

theorem Expansion.run_renameM {σ : Type} (rename : Symbol → StateM σ Symbol)
    (expansion : Expansion) (state : σ) :
    (expansion.renameM rename).run state =
      (⟨String.join ((expansion.parts.mapM (Part.renameM rename)).run state).1⟩,
        ((expansion.parts.mapM (Part.renameM rename)).run state).2) := rfl

namespace Duplicate

section Actions

variable {σ α β : Type} {ready : σ → Prop} {step : σ → σ → Prop}

/-- Started where it is ready the action takes a step, which justifies its result. -/
def Takes (ready : σ → Prop) (step : σ → σ → Prop) (action : StateM σ α)
    (result : σ → α → Prop) : Prop :=
  ∀ state, ready state → step state (action.run state).2 ∧
    result (action.run state).2 (action.run state).1

variable (refl : ∀ state, step state state)
  (trans : ∀ {first second third}, step first second → step second third → step first third)
  (stays : ∀ {before after}, step before after → ready before → ready after)

include refl in
theorem Takes.pure {value : α} {result : σ → α → Prop} (justified : ∀ state, result state value) :
    Takes ready step (pure value) result := fun state _ => ⟨refl state, justified state⟩

include refl trans stays in
/-- What an item is turned into stays justified while later items are. -/
theorem Takes.mapM {items : List α} {f : α → StateM σ β} {result : α → σ → β → Prop}
    (each : ∀ item ∈ items, Takes ready step (f item) (result item))
    (stable : ∀ {item before after value}, step before after → result item before value →
      result item after value) :
    Takes ready step (items.mapM f) fun state =>
      List.Forall₂ (fun item value => result item state value) items := by
  induction items with
  | nil => exact Takes.pure refl fun _ => .nil
  | cons item rest ih =>
      intro state started
      obtain ⟨first, known⟩ := each item List.mem_cons_self state started
      obtain ⟨later, others⟩ :=
        ih (fun other listed => each other (List.mem_cons_of_mem item listed)) _
        (stays first started)
      rw [List.mapM_cons]
      exact ⟨trans first later, .cons (stable later known) others⟩

end Actions

namespace Progress

/-- The copy of a symbol, or the symbol itself if it has none. -/
def copyOf (progress : Progress) (symbol : Symbol) : Symbol := progress.copies.getD symbol symbol

variable {progress before after : Progress} {symbol copy name : Symbol}

theorem copyOf_eq (found : progress.copies[symbol]? = some copy) :
    progress.copyOf symbol = copy := by
  rw [copyOf, Std.ExtTreeMap.getD_eq_getD_getElem?, found]
  rfl

theorem mem_copies_iff : symbol ∈ progress.copies ↔
    ∃ copy, progress.copies[symbol]? = some copy := by
  rw [Std.ExtTreeMap.mem_iff_isSome_getElem?, Option.isSome_iff_exists]

theorem mem_domain : symbol ∈ Std.ExtTreeSet.ofList progress.copies.keys ↔
    symbol ∈ progress.copies := by
  rw [Std.ExtTreeSet.mem_ofList, List.contains_iff_mem, Std.ExtTreeMap.mem_keys]

/-- The copy is one that was added. -/
def Adds (before after : Progress) (symbol copy : Symbol) : Prop :=
  symbol ∉ before.copies ∧ after.copies[symbol]? = some copy

/-- What was added was added before or after the moment in between. -/
theorem adds_cases {first second third : Progress} (later : ∀ {symbol copy : Symbol},
      second.copies[symbol]? = some copy → third.copies[symbol]? = some copy)
    (added : first.Adds third symbol copy) : first.Adds second symbol copy ∨
    second.Adds third symbol copy := by
  by_cases early : symbol ∈ second.copies
  · obtain ⟨other, found⟩ := mem_copies_iff.mp early
    obtain rfl : other = copy := Option.some.inj ((later found).symm.trans added.2)
    exact .inl ⟨added.1, found⟩
  · exact .inr ⟨early, added.2⟩

/-- How many symbols of the source have no copy. -/
def uncopied (source : Grammar) (progress : Progress) : Nat :=
  source.unentered (Std.ExtTreeSet.ofList progress.copies.keys)

end Progress

open Progress

/-- What holds of a copy that was added. -/
structure Copied (source : Grammar) (root : Symbol) (before after : Progress)
    (symbol copy : Symbol) : Prop where
  reaches : source.Reaches root symbol
  closed : isNonterminal copy = true
  fresh : copy ∉ before.grammar.symbols
  known : copy ∈ after.grammar.symbols
  resolved : ∀ reference ∈ source.references symbol, reference ∈ after.copies
  rule : after.grammar.expansions copy =
    (source.expansions symbol).map (Expansion.rename after.copyOf)

/-- Between two moments of the duplication for one reference. -/
structure Extends (source : Grammar) (root : Symbol) (before after : Progress) : Prop where
  copies {symbol copy : Symbol} : before.copies[symbol]? = some copy →
    after.copies[symbol]? = some copy
  keeps : before.grammar.Keeps after.grammar
  copied {symbol copy : Symbol} : before.Adds after symbol copy →
    Copied source root before after symbol copy
  apart {symbol other copy : Symbol} : before.Adds after symbol copy →
    before.Adds after other copy → symbol = other
  symbols {name : Symbol} : name ∈ after.grammar.symbols →
    name ∈ before.grammar.symbols ∨ ∃ symbol, before.Adds after symbol name

namespace Extends

variable {source : Grammar} {root symbol copy reference : Symbol}

theorem refl (progress : Progress) : Extends source root progress progress := by
  have none : ∀ {symbol copy}, ¬ progress.Adds progress symbol copy := fun added =>
    added.1 (mem_copies_iff.mpr ⟨_, added.2⟩)
  exact ⟨id, .refl _, fun added => absurd added none, fun added => absurd added none, .inl⟩

variable {first second third before after : Progress}

theorem mem_copies (extension : Extends source root before after)
    (member : symbol ∈ before.copies) :
    symbol ∈ after.copies := by
  obtain ⟨copy, found⟩ := mem_copies_iff.mp member
  exact mem_copies_iff.mpr ⟨copy, extension.copies found⟩

theorem copyOf_eq (extension : Extends source root before after) (member : symbol ∈ before.copies) :
    after.copyOf symbol = before.copyOf symbol := by
  obtain ⟨copy, found⟩ := mem_copies_iff.mp member
  rw [Progress.copyOf_eq found, Progress.copyOf_eq (extension.copies found)]

/-- A rule whose references have copies already does not change when more copies are made. -/
theorem map_rename_eq (extension : Extends source root before after)
    (resolved : ∀ reference ∈ source.references symbol, reference ∈ before.copies) :
    (source.expansions symbol).map (Expansion.rename after.copyOf) =
      (source.expansions symbol).map (Expansion.rename before.copyOf) := by
  refine List.map_congr_left fun expansion listed => Expansion.rename_congr fun reference used => ?_
  exact extension.copyOf_eq (resolved reference (Grammar.mem_references_of_expansion listed used))

theorem trans (left : Extends source root first second) (right : Extends source root second third) :
    Extends source root first third where
  copies := right.copies ∘ left.copies
  keeps := left.keeps.trans right.keeps
  copied added := by
    rcases adds_cases right.copies added with early | late
    · have copied := left.copied early
      obtain ⟨known, same⟩ := right.keeps _ copied.known
      refine ⟨copied.reaches, copied.closed, copied.fresh, known,
        fun reference used => right.mem_copies (copied.resolved reference used), ?_⟩
      rw [same, copied.rule, right.map_rename_eq copied.resolved]
    · have copied := right.copied late
      exact ⟨copied.reaches, copied.closed, fun before => copied.fresh (left.keeps _ before).1,
        copied.known, copied.resolved, copied.rule⟩
  apart added added' := by
    rcases adds_cases right.copies added with early | late
      <;> rcases adds_cases right.copies added' with early' | late'
    · exact left.apart early early'
    · exact absurd (left.copied early).known (right.copied late').fresh
    · exact absurd (left.copied early').known (right.copied late).fresh
    · exact right.apart late late'
  symbols known := by
    rcases right.symbols known with middle | ⟨symbol, absent, late⟩
    · rcases left.symbols middle with before | ⟨symbol, absent, early⟩
      · exact .inl before
      · exact .inr ⟨symbol, absent, right.copies early⟩
    · exact .inr ⟨symbol, fun before => absent (left.mem_copies before), late⟩

theorem uncopied_le (extension : Extends source root before after) :
    after.uncopied source ≤ before.uncopied source := by
  apply Grammar.unentered_mono
  intro symbol member
  rw [mem_domain] at member ⊢
  exact extension.mem_copies member

end Extends

/-! Resolving references one after the other. -/

section Resolve

variable {source : Grammar} {root : Symbol}

/-- A part is turned into the text of its copy, which the table has. -/
def Spelled (part : Part) (progress : Progress) (text : String) : Prop :=
  (∀ reference, part = .nonterminal reference → reference ∈ progress.copies) ∧
    text = (part.rename progress.copyOf).text

/-- An expansion is turned into its copy, with the copies of all its references. -/
def Renamed (expansion : Expansion) (progress : Progress) (value : Expansion) : Prop :=
  (∀ reference ∈ expansion.references, reference ∈ progress.copies) ∧
    value = expansion.rename progress.copyOf

theorem Spelled.stable {before after : Progress} {part : Part} {text : String}
    (extension : Extends source root before after) (spelled : Spelled part before text) :
    Spelled part after text := by
  obtain ⟨known, rfl⟩ := spelled
  refine ⟨fun reference same => extension.mem_copies (known reference same), ?_⟩
  cases part with
  | terminal text => rfl
  | nonterminal reference => exact (extension.copyOf_eq (known reference rfl)).symm

theorem Renamed.stable {before after : Progress} {expansion value : Expansion}
    (extension : Extends source root before after) (renamed : Renamed expansion before value) :
    Renamed expansion after value := by
  obtain ⟨known, rfl⟩ := renamed
  refine ⟨fun reference used => extension.mem_copies (known reference used), ?_⟩
  exact Expansion.rename_congr fun reference used =>
    (extension.copyOf_eq (known reference used)).symm

theorem map_text_of_spelled {progress : Progress} {parts : List Part} {texts : List String}
    (spelled : List.Forall₂ (Spelled · progress ·) parts texts) :
    (∀ reference, .nonterminal reference ∈ parts → reference ∈ progress.copies) ∧
      texts = (parts.map (Part.rename progress.copyOf)).map Part.text := by
  induction spelled with
  | nil => simp
  | cons first _ ih =>
      obtain ⟨known, rfl⟩ := first
      obtain ⟨others, rfl⟩ := ih
      refine ⟨fun reference listed => ?_, rfl⟩
      rcases List.mem_cons.mp listed with same | later
      · exact known reference same.symm
      · exact others reference later

theorem renamed_of_spelled {progress : Progress} {expansion : Expansion} {texts : List String}
    (spelled : List.Forall₂ (Spelled · progress ·) expansion.parts texts) :
    Renamed expansion progress ⟨String.join texts⟩ := by
  obtain ⟨known, rfl⟩ := map_text_of_spelled spelled
  exact ⟨fun reference used => known reference (mem_references.mp used), rfl⟩

theorem takes_part {ready : Progress → Prop}
    {rename : Symbol → StateM Progress Symbol} {part : Part}
    (each : ∀ reference, part = .nonterminal reference →
      Takes ready (Extends source root) (rename reference)
      fun progress copy => progress.copies[reference]? = some copy) :
    Takes ready (Extends source root) (part.renameM rename) (Spelled part) := by
  cases part with
  | terminal text => exact Takes.pure Extends.refl fun _ => ⟨nofun, rfl⟩
  | nonterminal reference =>
      intro progress started
      obtain ⟨extension, found⟩ := each reference rfl progress started
      refine ⟨extension, ?_, (Progress.copyOf_eq found).symm⟩
      rintro _ ⟨⟩
      exact mem_copies_iff.mpr ⟨_, found⟩

theorem takes_renameM {ready : Progress → Prop} {rename : Symbol → StateM Progress Symbol}
    {expansion : Expansion}
    (stays : ∀ {before after}, Extends source root before after → ready before → ready after)
    (each : ∀ reference ∈ expansion.references, Takes ready (Extends source root) (rename reference)
      fun progress copy => progress.copies[reference]? = some copy) :
    Takes ready (Extends source root) (expansion.renameM rename) (Renamed expansion) := by
  intro progress started
  obtain ⟨extension, spelled⟩ := Takes.mapM Extends.refl Extends.trans stays
    (fun part listed => takes_part fun reference same =>
      each reference (mem_references.mpr (same ▸ listed)))
    (fun extension => Spelled.stable extension) progress started
  rw [Expansion.run_renameM]
  exact ⟨extension, renamed_of_spelled spelled⟩

theorem forall₂_renamed {rule values : List Expansion} {progress : Progress}
    (renamed : List.Forall₂ (Renamed · progress ·) rule values) :
    (∀ reference ∈ rule.flatMap Expansion.references, reference ∈ progress.copies) ∧
      values = rule.map (Expansion.rename progress.copyOf) := by
  induction renamed with
  | nil => simp
  | cons first _ ih =>
      obtain ⟨resolved, rfl⟩ := first
      obtain ⟨others, rfl⟩ := ih
      refine ⟨fun reference used => ?_, rfl⟩
      rw [List.flatMap_cons, List.mem_append] at used
      exact used.elim (resolved reference) (others reference)

section Claim

variable {progress below : Progress} {symbol other copy name : Symbol} {rule : List Expansion}

/-- A name claimed for the copy of a symbol. -/
def Progress.claim (progress : Progress) (symbol copy : Symbol)
    (rule : List Expansion) : Progress :=
  ⟨progress.grammar.setRule copy rule, progress.copies.insert symbol copy⟩

theorem copies_claim (absent : symbol ∉ progress.copies)
    (found : progress.copies[other]? = some name) :
    (progress.claim symbol copy rule).copies[other]? = some name := by
  rw [Progress.claim, Std.ExtTreeMap.getElem?_insert, if_neg, found]
  intro same
  exact absent (Std.LawfulEqCmp.eq_of_compare same ▸ mem_copies_iff.mpr ⟨name, found⟩)

theorem mem_copies_claim : other ∈ (progress.claim symbol copy rule).copies ↔
    symbol = other ∨ other ∈ progress.copies := by
  rw [Progress.claim, Std.ExtTreeMap.mem_insert, Std.LawfulEqCmp.compare_eq_iff_eq]

theorem adds_claim (rule : List Expansion) (own : below.copies[symbol]? = some copy)
    (added : progress.Adds below other name) :
    (other = symbol ∧ name = copy) ∨ (progress.claim symbol copy rule).Adds below other name := by
  by_cases same : other = symbol
  · subst same
    exact .inl ⟨rfl, Option.some.inj (added.2.symm.trans own)⟩
  · refine .inr ⟨fun listed => ?_, added.2⟩
    exact (mem_copies_claim.mp listed).elim (same ·.symm) added.1

variable (reaches : source.Reaches root symbol) (absent : symbol ∉ progress.copies)
  (closed : isNonterminal copy = true) (fresh : copy ∉ progress.grammar.symbols)
  (extension : Extends source root (progress.claim symbol copy rule) below)
include reaches absent closed fresh extension

/-- A name is claimed, the references of its rule are resolved, and the rule is set. -/
theorem extends_claim {rewritten : List Expansion}
    (resolved : ∀ reference ∈ source.references symbol, reference ∈ below.copies)
    (renamed : rewritten = (source.expansions symbol).map (Expansion.rename below.copyOf)) :
    Extends source root progress
      { below with grammar := below.grammar.setRule copy rewritten } := by
  have own : below.copies[symbol]? = some copy :=
    extension.copies Std.ExtTreeMap.getElem?_insert_self
  have claimed : copy ∈ (progress.claim symbol copy rule).grammar.symbols :=
    Grammar.mem_symbols_setRule.mpr (.inl rfl)
  have elsewhere : ∀ {other name}, (progress.claim symbol copy rule).Adds below other name →
      name ≠ copy :=
    fun added same => (extension.copied added).fresh (same ▸ claimed)
  constructor
  case copies => exact fun found => extension.copies (copies_claim absent found)
  case keeps =>
    intro name known
    obtain ⟨kept, same⟩ := ((Grammar.keeps_setRule fresh).trans extension.keeps) name known
    have differs : name ≠ copy := fun same => fresh (same ▸ known)
    exact ⟨Grammar.mem_symbols_setRule.mpr (.inr kept),
      (Grammar.expansions_setRule_of_ne differs).trans same⟩
  case copied =>
    intro other name added
    rcases adds_claim rule own added with ⟨rfl, rfl⟩ | later
    · exact ⟨reaches, closed, fresh, Grammar.mem_symbols_setRule.mpr (.inl rfl), resolved,
        Grammar.expansions_setRule_self.trans renamed⟩
    · have copied := extension.copied later
      refine ⟨copied.reaches, copied.closed, fun known =>
        copied.fresh (Grammar.mem_symbols_setRule.mpr (.inr known)),
        Grammar.mem_symbols_setRule.mpr (.inr copied.known), copied.resolved, ?_⟩
      exact (Grammar.expansions_setRule_of_ne (elsewhere later)).trans copied.rule
  case apart =>
    intro one other name added added'
    rcases adds_claim rule own added with ⟨rfl, rfl⟩ | later
      <;> rcases adds_claim rule own added' with ⟨rfl, same⟩ | later'
    · rfl
    · exact absurd rfl (elsewhere later')
    · exact absurd same (elsewhere later)
    · exact extension.apart later later'
  case symbols =>
    intro name known
    rcases Grammar.mem_symbols_setRule.mp known with rfl | known
    · exact .inr ⟨symbol, absent, own⟩
    · rcases extension.symbols known with before | ⟨other, added⟩
      · rcases Grammar.mem_symbols_setRule.mp before with rfl | before
        · exact .inr ⟨symbol, absent, own⟩
        · exact .inl before
      · exact .inr ⟨other, fun before => added.1 (mem_copies_claim.mpr (.inr before)), added.2⟩

end Claim

theorem domain_claim (progress : Progress) (symbol copy : Symbol) (rule : List Expansion) :
    (Std.ExtTreeSet.ofList (progress.claim symbol copy rule).copies.keys : SymbolSet) =
      (Std.ExtTreeSet.ofList progress.copies.keys).insert symbol := by
  refine Std.ExtTreeSet.ext_mem fun other => ?_
  rw [mem_domain, mem_copies_claim, Grammar.mem_insert_iff, mem_domain]

theorem uncopied_claim {progress : Progress} {symbol : Symbol} (copy : Symbol)
    (rule : List Expansion) (member : symbol ∈ source.symbols) (absent : symbol ∉ progress.copies) :
    (progress.claim symbol copy rule).uncopied source < progress.uncopied source := by
  rw [Progress.uncopied, domain_claim]
  exact Grammar.unentered_insert member (mem_domain.not.mpr absent)

theorem mem_copies_of_room {progress : Progress} {symbol : Symbol}
    (member : symbol ∈ source.symbols)
    (room : progress.uncopied source ≤ 0) : symbol ∈ progress.copies := by
  by_contra absent
  have left : 0 < progress.uncopied source :=
    Nat.zero_lt_of_lt (Grammar.unentered_insert member (mem_domain.not.mpr absent))
  omega

theorem run_resolve_of_found {progress : Progress} {symbol copy : Symbol}
    (found : progress.copies[symbol]? = some copy) (depth : Nat) :
    (resolve source depth symbol).run progress = (copy, progress) := by
  cases depth with
  | zero => exact congrArg (·, progress) (Progress.copyOf_eq found)
  | succ depth => simp only [resolve, StateT.run, found]

theorem run_resolve_of_absent {progress : Progress} {symbol : Symbol}
    (absent : symbol ∉ progress.copies) (depth : Nat) :
    (resolve source (depth + 1) symbol).run progress =
      (progress.grammar.newSymbol symbol,
        let rewriting :=
          ((source.expansions symbol).mapM (Expansion.renameM (resolve source depth))).run
            (progress.claim symbol (progress.grammar.newSymbol symbol) (source.expansions symbol))
        { rewriting.2 with
          grammar :=
            rewriting.2.grammar.setRule (progress.grammar.newSymbol symbol) rewriting.1 }) := by
  simp only [resolve, StateT.run, Std.ExtTreeMap.getElem?_eq_none absent, Progress.claim]
  rfl

/-- Where the symbols without a copy are no more than the levels that are left, a symbol is resolved
to a copy of it. Each claim uses up one of both. -/
theorem takes_resolve (valid : source.Valid) (member : root ∈ source.symbols) (depth : Nat) :
    ∀ symbol, source.Reaches root symbol → Takes (fun progress => progress.uncopied source ≤ depth)
      (Extends source root) (resolve source depth symbol) fun progress copy =>
        progress.copies[symbol]? = some copy := by
  induction depth with
  | zero =>
      intro symbol reaches progress room
      obtain ⟨copy, found⟩ :=
        mem_copies_iff.mp (mem_copies_of_room (reaches.mem_symbols valid member) room)
      rw [run_resolve_of_found found]
      exact ⟨.refl progress, found⟩
  | succ depth ih =>
      intro symbol reaches progress room
      have listed := reaches.mem_symbols valid member
      by_cases known : symbol ∈ progress.copies
      · obtain ⟨copy, found⟩ := mem_copies_iff.mp known
        rw [run_resolve_of_found found]
        exact ⟨.refl progress, found⟩
      · have stays {before after : Progress} (extension : Extends source root before after)
            (room : before.uncopied source ≤ depth) : after.uncopied source ≤ depth :=
          Nat.le_trans extension.uncopied_le room
        have rewriting : ∀ expansion ∈ source.expansions symbol,
            Takes (fun progress => progress.uncopied source ≤ depth) (Extends source root)
              (expansion.renameM (resolve source depth)) (Renamed expansion) :=
          fun expansion offered => takes_renameM stays fun reference used =>
            ih reference (reaches.tail (Grammar.mem_references_of_expansion offered used))
        have fewer :=
          uncopied_claim (progress.grammar.newSymbol symbol) (source.expansions symbol) listed known
        obtain ⟨extension, renamed⟩ := Takes.mapM Extends.refl Extends.trans stays rewriting
          (fun extension => Renamed.stable extension) _
            (Nat.le_of_lt_succ (Nat.lt_of_lt_of_le fewer room))
        obtain ⟨resolved, same⟩ := forall₂_renamed renamed
        rw [run_resolve_of_absent known]
        refine ⟨extends_claim reaches known (Grammar.isNonterminal_newSymbol (valid.closed listed))
          (Grammar.newSymbol_not_mem progress.grammar symbol) extension resolved same, ?_⟩
        exact extension.copies Std.ExtTreeMap.getElem?_insert_self

end Resolve

/-! Depth beyond what is used up makes no difference. -/

section Agree

variable {σ α β : Type} {ready : σ → Prop}

/-- Started where it is ready, the actions do the same and leave it ready. -/
def Agree (ready : σ → Prop) (action action' : StateM σ α) : Prop :=
  ∀ state, ready state → action.run state = action'.run state ∧ ready (action.run state).2

theorem Agree.pure (value : α) : Agree ready (pure value) (pure value) :=
  fun _ started => ⟨rfl, started⟩

theorem Agree.bind {action action' : StateM σ α} {next next' : α → StateM σ β}
    (first : Agree ready action action')
    (others : ∀ value, Agree ready (next value) (next' value)) :
    Agree ready (action >>= next) (action' >>= next') := by
  intro state started
  obtain ⟨same, between⟩ := first state started
  rw [StateT.run_bind, StateT.run_bind, ← same]
  exact others (action.run state).1 (action.run state).2 between

theorem Agree.mapM {items : List α} {f f' : α → StateM σ β}
    (each : ∀ item ∈ items, Agree ready (f item) (f' item)) :
    Agree ready (items.mapM f) (items.mapM f') := by
  induction items with
  | nil => exact .pure []
  | cons item rest ih =>
      rw [List.mapM_cons, List.mapM_cons]
      exact (each item List.mem_cons_self).bind fun _ =>
        (ih fun other listed => each other (List.mem_cons_of_mem item listed)).bind fun _ => .pure _

theorem Agree.renameM {rename rename' : Symbol → StateM σ Symbol} {expansion : Expansion}
    (each : ∀ reference ∈ expansion.references,
      Agree ready (rename reference) (rename' reference)) :
    Agree ready (expansion.renameM rename) (expansion.renameM rename') := by
  have parts : ∀ part ∈ expansion.parts,
      Agree ready (part.renameM rename) (part.renameM rename') := by
    intro part listed
    cases part with
    | terminal text => exact .pure text
    | nonterminal reference => exact each reference (mem_references.mpr listed)
  exact (Agree.mapM parts).bind fun _ => .pure _

end Agree

section Deep

variable {source : Grammar} (valid : source.Valid)
include valid

/-- A depth that is enough for the symbols without a copy does the same as a larger one. -/
theorem agree_resolve (depth : Nat) : ∀ {deeper}, depth ≤ deeper → ∀ symbol ∈ source.symbols,
    Agree (fun progress => progress.uncopied source ≤ depth) (resolve source depth symbol)
      (resolve source deeper symbol) := by
  induction depth with
  | zero =>
      intro deeper _ symbol member progress room
      obtain ⟨copy, found⟩ := mem_copies_iff.mp (mem_copies_of_room member room)
      rw [run_resolve_of_found found, run_resolve_of_found found]
      exact ⟨rfl, room⟩
  | succ depth ih =>
      intro deeper le symbol member progress room
      obtain ⟨extension, _⟩ := takes_resolve valid member (depth + 1) symbol .refl progress room
      refine ⟨?_, Nat.le_trans extension.uncopied_le room⟩
      obtain ⟨less, rfl⟩ :=
        Nat.exists_eq_succ_of_ne_zero (Nat.ne_of_gt (Nat.lt_of_lt_of_le depth.succ_pos le))
      by_cases known : symbol ∈ progress.copies
      · obtain ⟨copy, found⟩ := mem_copies_iff.mp known
        rw [run_resolve_of_found found, run_resolve_of_found found]
      · have rewriting : ∀ expansion ∈ source.expansions symbol,
            Agree (fun progress => progress.uncopied source ≤ depth)
              (expansion.renameM (resolve source depth))
              (expansion.renameM (resolve source less)) := fun expansion offered =>
          Agree.renameM fun reference used =>
            ih (Nat.le_of_succ_le_succ le) reference (valid.references_mem offered used)
        have fewer :=
          uncopied_claim (progress.grammar.newSymbol symbol) (source.expansions symbol) member known
        obtain ⟨same, _⟩ :=
          Agree.mapM rewriting _ (Nat.le_of_lt_succ (Nat.lt_of_lt_of_le fewer room))
        rw [run_resolve_of_absent known, run_resolve_of_absent known, same]

/-- From the number of symbols on, the depth of a duplication does not matter. -/
theorem agree_occurrence {depth deeper : Nat} (deep : source.size ≤ depth) (le : depth ≤ deeper)
    {reference : Symbol} (member : reference ∈ source.symbols) :
    Agree (fun _ => True) (occurrence source depth reference)
      (occurrence source deeper reference) := by
  intro grammar _
  have room : Progress.uncopied source ⟨grammar, ∅⟩ ≤ depth :=
    Nat.le_trans (Grammar.unentered_le _) deep
  obtain ⟨same, _⟩ := agree_resolve valid depth le reference member ⟨grammar, ∅⟩ room
  exact ⟨congrArg (fun call : Symbol × Progress => (call.1, call.2.grammar)) same, trivial⟩

end Deep

end Duplicate
end GrammarFuzz
