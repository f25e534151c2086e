import GrammarFuzz.Proofs.LeastCost
import GrammarFuzz.Proofs.Steps

/-! Which start symbols a fuzzer is made for. The check follows the references breadth first and
compares costs with the cap, so it answers the first symbol in that order of which no derivation
tree is small enough to be counted; a fuzzer is made where every symbol that can be reached has
one. -/
namespace GrammarFuzz

namespace Grammar

variable {g : Grammar} {start symbol : Symbol} {order other : List Symbol}

/-- Some complete derivation tree of the symbol has fewer nodes to expand than the count stands for
that means infinitely many. -/
def Finishes (g : Grammar) (symbol : Symbol) : Prop :=
  ∃ tree : Tree, tree.Complete g ∧ tree.symbol = symbol ∧ tree.expandedCount < Cost.infinite

theorem symbolCost_lt_iff (valid : g.Valid) (member : symbol ∈ g.symbols) :
    g.symbolCost symbol ∅ < Cost.infinite ↔ g.Finishes symbol := by
  constructor
  · intro finite
    obtain ⟨tree, complete, root, _, sized⟩ := exists_expandedCount_eq valid _ member finite
    exact ⟨tree, complete, root, sized ▸ finite⟩
  · rintro ⟨tree, complete, rfl, small⟩
    exact Nat.lt_of_le_of_lt (symbolCost_le_of_complete valid complete (valid.closed member)) small

/-! The order of the search. -/

/-- All that can be reached from a symbol, once each: first the symbol itself, then the references
of each symbol in turn, those left out that came before. -/
structure BreadthFirst (g : Grammar) (start : Symbol) (order : List Symbol) : Prop where
  reached : ∀ symbol ∈ order, g.Reaches start symbol
  order_eq : order = (start :: order.flatMap g.references).eraseDups

section EraseDups

variable {α : Type} [BEq α] [LawfulBEq α] {items front back : List α} {item : α}

theorem eraseDups_append_of_subset (known : ∀ item ∈ back, item ∈ front) :
    (front ++ back).eraseDups = front.eraseDups := by
  have none : back.removeAll front = [] := by
    rw [List.removeAll, List.filter_eq_nil_iff]
    intro item inside
    simp [known item inside]
  rw [List.eraseDups_append, none, List.eraseDups_nil, List.append_nil]

theorem eraseDups_concat_of_not_mem (absent : item ∉ items) :
    (items ++ [item]).eraseDups = items.eraseDups ++ [item] := by
  have kept : [item].removeAll items = [item] := by simp [List.removeAll, absent]
  rw [List.eraseDups_append, kept, List.eraseDups_cons, List.filter_nil, List.eraseDups_nil]

theorem nodup_eraseDups (items : List α) : items.eraseDups.Nodup := by
  induction items using List.reverseRecOn with
  | nil => exact List.nodup_nil
  | append_singleton items item ih =>
      by_cases inside : item ∈ items
      · rwa [eraseDups_append_of_subset (by simpa using inside)]
      · rw [eraseDups_concat_of_not_mem inside, ← List.concat_eq_append]
        exact ih.concat (List.mem_eraseDups.not.mpr inside)

theorem eraseDups_of_nodup (distinct : items.Nodup) : items.eraseDups = items := by
  induction items using List.reverseRecOn with
  | nil => exact List.eraseDups_nil
  | append_singleton items item ih =>
      rw [← List.concat_eq_append, List.nodup_concat] at distinct
      rw [eraseDups_concat_of_not_mem distinct.1, ih distinct.2]

theorem eraseDups_eraseDups_append :
    (front.eraseDups ++ back).eraseDups = (front ++ back).eraseDups := by
  have same : back.removeAll front.eraseDups = back.removeAll front := by
    refine List.filter_congr fun item _ => ?_
    rw [List.elem_eq_mem, List.elem_eq_mem, decide_eq_decide.mpr List.mem_eraseDups]
  rw [List.eraseDups_append, eraseDups_of_nodup (nodup_eraseDups front), same,
    List.eraseDups_append]

end EraseDups

theorem BreadthFirst.nodup (first : g.BreadthFirst start order) : order.Nodup :=
  first.order_eq ▸ nodup_eraseDups _

/-- What is found at one symbol comes behind all that was queued. -/
theorem foldl_found {queued : List Symbol} (children : List Symbol) :
    ∀ found : List Symbol, (queued ++ found).Nodup →
    queued ++ children.foldl (fun found child =>
      if queued.contains child || found.contains child then found else found ++ [child]) found =
        (queued ++ found ++ children).eraseDups := by
  induction children with
  | nil =>
      intro found distinct
      rw [List.foldl_nil, List.append_nil, eraseDups_of_nodup distinct]
  | cons child rest ih =>
      intro found distinct
      rw [List.foldl_cons]
      by_cases seen : child ∈ queued ++ found
      · have gone : (child :: rest).removeAll (queued ++ found) =
            rest.removeAll (queued ++ found) := by
          rw [List.cons_removeAll,
            if_neg (by simpa only [Bool.not_eq_false, List.contains_iff_mem] using seen)]
        have same : (queued ++ found ++ child :: rest).eraseDups =
            (queued ++ found ++ rest).eraseDups := by
          rw [List.eraseDups_append, gone, ← List.eraseDups_append]
        rw [if_pos (by simpa using seen), ih found distinct, same]
      · have more : (queued ++ (found ++ [child])).Nodup := by
          rw [← List.append_assoc, ← List.concat_eq_append]
          exact distinct.concat seen
        rw [if_neg (by simpa using seen), ih (found ++ [child]) more]
        simp only [List.append_assoc, List.singleton_append]

/-- The symbols queued are those that the followed ones refer to; it ends with all of them
followed. -/
theorem breadthFirstFrom_eq_eraseDups (valid : g.Valid) (count : Nat) :
    ∀ followed waiting : List Symbol,
    followed ++ waiting = (start :: followed.flatMap g.references).eraseDups →
    (∀ symbol ∈ followed ++ waiting, symbol ∈ g.symbols ∧ g.Reaches start symbol) →
    g.size < count + followed.length →
    g.BreadthFirst start (g.breadthFirstFrom count (followed ++ waiting) waiting) := by
  induction count with
  | zero =>
      intro followed waiting queued known room
      have bound := (queued ▸ nodup_eraseDups _ : (followed ++ waiting).Nodup).length_le_of_subset
        fun symbol inside => (known symbol inside).1
      rw [List.length_append, length_symbols] at bound
      omega
  | succ count ih =>
      intro followed waiting queued known room
      cases waiting with
      | nil =>
          rw [breadthFirstFrom]
          refine ⟨fun symbol inside => (known symbol inside).2, ?_⟩
          rwa [List.append_nil] at queued ⊢
      | cons symbol waiting =>
          have distinct : (followed ++ symbol :: waiting ++ []).Nodup := by
            rw [List.append_nil, queued]
            exact nodup_eraseDups _
          have found := foldl_found (g.references symbol) [] distinct
          rw [breadthFirstFrom]
          generalize (g.references symbol).foldl _ [] = new at found ⊢
          rw [List.append_nil] at found
          have regroup : followed ++ symbol :: waiting ++ new =
              (followed ++ [symbol]) ++ (waiting ++ new) := by simp
          have next : followed ++ [symbol] ++ (waiting ++ new) =
              (start :: (followed ++ [symbol]).flatMap g.references).eraseDups := by
            rw [← regroup, found, queued, eraseDups_eraseDups_append]
            simp only [List.flatMap_append, List.flatMap_singleton, List.cons_append]
          rw [regroup]
          refine ih _ _ next (fun other inside => ?_)
            (by simp only [List.length_append, List.length_singleton]; omega)
          rw [← regroup, found, List.mem_eraseDups, List.mem_append] at inside
          rcases inside with before | child
          · exact known other before
          · obtain ⟨own, reaches⟩ := known symbol (by simp)
            exact ⟨(valid symbol own).2.2 other child, reaches.tail child⟩

theorem breadthFirst_spec (valid : g.Valid) (member : start ∈ g.symbols) :
    g.BreadthFirst start (g.breadthFirst start) := by
  refine breadthFirstFrom_eq_eraseDups valid (g.size + 1) [] [start]
    (by simp [List.eraseDups_cons]) ?_ (by simp)
  simpa using ⟨member, Relation.ReflTransGen.refl⟩

namespace BreadthFirst

/-- Follow a front of the order: what its symbols refer to comes next, unless nothing is left. -/
theorem eraseDups_isPrefix (first : g.BreadthFirst start order) (count : Nat) :
    (start :: (order.take count).flatMap g.references).eraseDups <+: order := by
  have whole := first.order_eq
  rw [← List.take_append_drop count order, List.flatMap_append, ← List.cons_append,
    List.eraseDups_append, List.take_append_drop] at whole
  exact ⟨_, whole.symm⟩

theorem lt_length_eraseDups (first : g.BreadthFirst start order) {count : Nat}
    (more : count < order.length) :
    count < (start :: (order.take count).flatMap g.references).eraseDups.length := by
  by_contra short
  obtain ⟨rest, whole⟩ := first.eraseDups_isPrefix count
  have within : ∀ symbol, symbol ∈ start :: (order.take count).flatMap g.references →
      symbol ∈ order.take count := by
    intro symbol inside
    have placed : (start :: (order.take count).flatMap g.references).eraseDups <+:
        order.take count :=
      List.prefix_take_iff.mpr ⟨⟨rest, whole⟩, Nat.le_of_not_lt short⟩
    exact placed.subset (List.mem_eraseDups.mpr inside)
  have every : ∀ symbol, g.Reaches start symbol → symbol ∈ order.take count := by
    intro symbol reaches
    induction reaches with
    | refl => exact within start List.mem_cons_self
    | tail _ step ih => exact within _ (List.mem_cons_of_mem _ (List.mem_flatMap.mpr ⟨_, ih, step⟩))
  have bound :=
    first.nodup.length_le_of_subset fun symbol inside => every symbol (first.reached symbol inside)
  rw [List.length_take] at bound
  omega

/-- Two breadth-first orders have the same symbols in their first places. -/
theorem take_eq (first : g.BreadthFirst start order) (second : g.BreadthFirst start other)
    (count : Nat) :
    order.take count = other.take count := by
  induction count with
  | zero => rfl
  | succ count ih =>
      have left := first.eraseDups_isPrefix count
      have right := second.eraseDups_isPrefix count
      rw [← ih] at right
      have longer : ∀ {listed : List Symbol},
          (start :: (order.take count).flatMap g.references).eraseDups <+: listed →
          count < (start :: (order.take count).flatMap g.references).eraseDups.length →
          listed.take (count + 1) =
              (start :: (order.take count).flatMap g.references).eraseDups.take (count + 1) := by
        rintro _ ⟨rest, rfl⟩ long
        exact List.take_append_of_le_length long
      by_cases more : count < order.length
      · have long := first.lt_length_eraseDups more
        rw [longer left long, longer right long]
      · by_cases others : count < other.length
        · have long := second.lt_length_eraseDups others
          rw [← ih] at long
          rw [longer left long, longer right long]
        · rw [List.take_of_length_le (by omega), List.take_of_length_le (by omega)] at ih ⊢
          exact ih

theorem unique (first : g.BreadthFirst start order) (second : g.BreadthFirst start other) :
    order = other := by
  have same := first.take_eq second (max order.length other.length)
  rwa [List.take_of_length_le (Nat.le_max_left _ _),
    List.take_of_length_le (Nat.le_max_right _ _)] at same

/-- Nothing that can be reached is left out. -/
theorem mem_iff (first : g.BreadthFirst start order) : symbol ∈ order ↔ g.Reaches start symbol := by
  refine ⟨first.reached symbol, fun reaches => ?_⟩
  have inside : ∀ other, other ∈ start :: order.flatMap g.references → other ∈ order := by
    intro other listed
    rw [first.order_eq]
    exact List.mem_eraseDups.mpr listed
  induction reaches with
  | refl => exact inside start List.mem_cons_self
  | tail _ step ih => exact inside _ (List.mem_cons_of_mem _ (List.mem_flatMap.mpr ⟨_, ih, step⟩))

end BreadthFirst

/-! What the check answers. -/

section Valid

variable (valid : g.Valid) (member : start ∈ g.symbols)
include valid member

/-- The search stops at a symbol that does not finish. -/
theorem stops_iff (reaches : g.Reaches start symbol) :
    (g.symbolCost symbol ∅ == Cost.infinite) = true ↔ ¬g.Finishes symbol := by
  rw [← symbolCost_lt_iff valid (Reaches.mem_symbols valid member reaches), beq_iff_eq, Nat.not_lt]
  exact ⟨Eq.ge, (costWithin_le _ _ _).antisymm⟩

theorem unproductive?_eq_none_iff :
    g.unproductive? start = none ↔ ∀ symbol, g.Reaches start symbol → g.Finishes symbol := by
  simp only [unproductive?, List.find?_eq_none, (breadthFirst_spec valid member).mem_iff]
  exact forall₂_congr fun symbol reaches => by rw [stops_iff valid member reaches, not_not]

theorem unproductive?_eq_some_iff (first : g.BreadthFirst start order) {stuck : Symbol} :
    g.unproductive? start = some stuck ↔ ∃ front back, order = front ++ stuck :: back ∧
      (∀ symbol ∈ front, g.Finishes symbol) ∧ ¬g.Finishes stuck := by
  have stops : ∀ symbol ∈ order, (g.symbolCost symbol ∅ == Cost.infinite) = true ↔
      ¬g.Finishes symbol :=
    fun symbol inside => stops_iff valid member (first.reached symbol inside)
  rw [unproductive?, (breadthFirst_spec valid member).unique first, List.find?_eq_some_iff_append]
  constructor
  · rintro ⟨blocked, front, back, rfl, passed⟩
    refine ⟨front, back, rfl, fun symbol inside => ?_, (stops stuck (by simp)).mp blocked⟩
    have passes := passed symbol inside
    rwa [Bool.not_eq_true', ← Bool.not_eq_true, stops symbol (by simp [inside]), not_not] at passes
  · rintro ⟨front, back, rfl, finish, blocked⟩
    refine ⟨(stops stuck (by simp)).mpr blocked, front, back, rfl, fun symbol inside => ?_⟩
    rw [Bool.not_eq_true', ← Bool.not_eq_true, stops symbol (by simp [inside]), not_not]
    exact finish symbol inside

end Valid

end Grammar

namespace Fuzzer

variable {γ : Type} {source : γ} {strategy : Strategy} {config : Config}

theorem ofSource_of_not_mem (unknown : config.start ∉ strategy.grammar.symbols) :
    ofSource source strategy config = .error (.grammar (.unknownSymbol config.start)) := by
  simp only [ofSource, Grammar.require, Grammar.expansions?_of_not_mem unknown]

theorem ofSource_of_mem (member : config.start ∈ strategy.grammar.symbols) :
    ofSource source strategy config =
    (strategy.grammar.unproductive? config.start).elim (.ok ⟨config, strategy, source⟩)
      (.error <| .unproductive ·) := by
  simp only [ofSource, Grammar.require_eq_ok.mpr ⟨member, rfl⟩]
  cases strategy.grammar.unproductive? config.start <;> rfl

theorem ofSource_eq_grammar_iff {error : GrammarError} :
    ofSource source strategy config = .error (.grammar error) ↔
    error = .unknownSymbol config.start ∧ config.start ∉ strategy.grammar.symbols := by
  by_cases member : config.start ∈ strategy.grammar.symbols
  · rw [ofSource_of_mem member]
    cases strategy.grammar.unproductive? config.start <;> simp [member]
  · simp [ofSource_of_not_mem member, member, eq_comm]

theorem ofSource_eq_unproductive_iff {stuck : Symbol} :
    ofSource source strategy config = .error (.unproductive stuck) ↔
      config.start ∈ strategy.grammar.symbols ∧
      strategy.grammar.unproductive? config.start = some stuck := by
  by_cases member : config.start ∈ strategy.grammar.symbols
  · rw [ofSource_of_mem member]
    cases strategy.grammar.unproductive? config.start <;> simp [member]
  · simp [ofSource_of_not_mem member, member]

theorem ofSource_isOk_iff : (∃ f, ofSource source strategy config = .ok f) ↔
    config.start ∈ strategy.grammar.symbols ∧
    strategy.grammar.unproductive? config.start = none := by
  by_cases member : config.start ∈ strategy.grammar.symbols
  · rw [ofSource_of_mem member]
    cases strategy.grammar.unproductive? config.start <;> simp [member]
  · simp [ofSource_of_not_mem member, member]

/-- The constructor admits the start symbols that can be used, and no others. The check finds
nothing exactly if all that can be reached from the start symbol finishes, and otherwise the first
symbol in breadth-first order that does not; there is one such order, of all that can be reached. A
start symbol without a rule is refused as unknown, and one from which such a symbol is found as
unproductive. -/
theorem new_admits {g : Grammar} (valid : g.Valid) :
    (∀ start ∈ g.symbols, ∃ order, (∀ other, g.BreadthFirst start other ↔ other = order) ∧
      (∀ symbol, symbol ∈ order ↔ g.Reaches start symbol) ∧
      (g.unproductive? start = none ↔ ∀ symbol, g.Reaches start symbol → g.Finishes symbol) ∧
      ∀ stuck, g.unproductive? start = some stuck ↔ ∃ front back, order = front ++ stuck :: back ∧
        (∀ symbol ∈ front, g.Finishes symbol) ∧ ¬g.Finishes stuck) ∧
    ∀ (kind : StrategyKind) (config : Config),
      (∀ error, new g kind config = .error (.grammar error) ↔
        error = .unknownSymbol config.start ∧ config.start ∉ g.symbols) ∧
      (∀ stuck, new g kind config = .error (.unproductive stuck) ↔
        config.start ∈ g.symbols ∧ g.unproductive? config.start = some stuck) ∧
      ((∃ f, new g kind config = .ok f) ↔
        config.start ∈ g.symbols ∧ ∀ symbol, g.Reaches config.start symbol →
          g.Finishes symbol) := by
  constructor
  · intro start member
    have first := Grammar.breadthFirst_spec valid member
    refine ⟨g.breadthFirst start, fun other => ⟨fun also => also.unique first, ?_⟩,
      fun symbol => first.mem_iff, Grammar.unproductive?_eq_none_iff valid member,
      fun stuck => Grammar.unproductive?_eq_some_iff valid member first⟩
    rintro rfl
    exact first
  · intro kind config
    refine ⟨fun error => ofSource_eq_grammar_iff, fun stuck => ofSource_eq_unproductive_iff, ?_⟩
    exact ofSource_isOk_iff.trans (and_congr_right fun member =>
      Grammar.unproductive?_eq_none_iff valid member)

/-- A vine that never ends, behind a leaf that does. -/
def vine : Grammar :=
  ⟨Rules.ofList [("<start>", ["<leaf>", "<vine>"]), ("<leaf>", ["x"]), ("<vine>", ["y<vine>"])]⟩

theorem new_admits_vine : vine.Valid ∧ vine.unproductive? "<start>" = some "<vine>" ∧
    (∃ front back, vine.breadthFirst "<start>" = front ++ "<vine>" :: back ∧
      (∀ symbol ∈ front, vine.Finishes symbol) ∧ ¬vine.Finishes "<vine>") ∧
    ∀ kind config,
      (config.start = "<start>" → new vine kind config = .error (.unproductive "<vine>")) ∧
      (config.start = "<leaf>" → ∃ f, new vine kind config = .ok f) := by
  have valid : vine.Valid := by decide +kernel
  have found : vine.unproductive? "<start>" = some "<vine>" := by decide +kernel
  have free : vine.unproductive? "<leaf>" = none := by decide +kernel
  obtain ⟨checks, answers⟩ := new_admits valid
  obtain ⟨order, unique, _, _, stops⟩ := checks "<start>" (by decide +kernel)
  obtain ⟨_, _, _, finish, _⟩ := checks "<leaf>" (by decide +kernel)
  have same :=
    (unique _).mp (Grammar.breadthFirst_spec valid (by decide +kernel : "<start>" ∈ vine.symbols))
  refine ⟨valid, found, ?_, fun kind config => ⟨fun start => ?_, fun start => ?_⟩⟩
  · rw [same]
    exact (stops "<vine>").mp found
  · refine ((answers kind config).2.1 "<vine>").mpr ⟨?_, start ▸ found⟩
    rw [start]
    decide +kernel
  · refine (answers kind config).2.2.mpr ⟨?_, start ▸ finish.mp free⟩
    rw [start]
    decide +kernel

end Fuzzer
end GrammarFuzz
