import GrammarFuzz.Proofs.Duplication
import GrammarFuzz.Proofs.Trimming
import GrammarFuzz.Proofs.Validity

/-! Editing a grammar in place. A caller trims a grammar, duplicates contexts in it and
rebuilds it, and holds what each edit leaves behind, also if it fails. Rules are dropped one
by one and expansions are replaced one by one while names are minted from the grammar as it
stands; each edit still comes to what the functions on whole grammars give, so that what is
known of these holds of every grammar in between. -/
namespace GrammarFuzz

namespace Grammar

def remove (g : Grammar) (symbol : Symbol) : Grammar := ⟨g.rules.erase symbol⟩

/-- Replace one expansion of a rule, if it is there. -/
def replaceExpansion (g : Grammar) (symbol : Symbol) (index : Nat)
    (expansion : Expansion) : Grammar :=
  match g.expansions? symbol with
  | some expansions => g.setRule symbol (expansions.set index expansion)
  | none => g

/-- Take the rules out, add or replace some, and build a grammar again. -/
def rebuilt (g : Grammar) (entries : List (Symbol × List Expansion)) :
    Except GrammarError Grammar :=
  build (entries.foldl (fun rules entry => rules.insert entry.1 entry.2) g.rules)

/-- The result if there is one, and otherwise the grammar as it is. -/
def settle (g : Grammar) : Except GrammarError Grammar → Except GrammarError Unit × Grammar
  | .ok after => (.ok (), after)
  | .error error => (.error error, g)

end Grammar

/-- What a caller can do to a grammar. -/
inductive Edit where
  | trim (start : Symbol)
  | duplicate (symbol : Symbol) (only? : Option String) (depth? : Option Nat)
  | rebuild (entries : List (Symbol × List Expansion))

/-- Steps on a grammar that may fail; what was done before the failure stays done. -/
abbrev Editing := ExceptT GrammarError (StateM Grammar)

namespace Edit

/-- Copy one expansion of `symbol` if it is selected, and replace it at once. -/
def replaceAt (original : Grammar) (symbol : Symbol) (only? : Option String) (depth index : Nat)
    (current : Expansion) : StateM Grammar Unit := do
  if only?.all (· == current.text) then
    let rewritten ← current.renameM (Duplicate.occurrence original depth)
    modify (·.replaceExpansion symbol index rewritten)

def replaceFrom (original : Grammar) (symbol : Symbol) (only? : Option String) (depth : Nat) :
    Nat → List Expansion → StateM Grammar Unit
  | _, [] => pure ()
  | index, current :: rest => do
      replaceAt original symbol only? depth index current
      replaceFrom original symbol only? depth (index + 1) rest

def program : Edit → Editing Unit
  | .trim start => do
      let dropped ← MonadExcept.ofExcept ((← get).unreachable start)
      dropped.forM fun symbol => modify (·.remove symbol)
  | .duplicate symbol only? depth? => do
      let original ← get
      let expansions ← MonadExcept.ofExcept (original.require symbol)
      if let some text := only? then
        unless expansions.any (text == ·.text) do throw (.unknownExpansion symbol text)
      monadLift (replaceFrom original symbol only? (depth?.getD original.size) 0 expansions)
  | .rebuild entries => do
      let built ← MonadExcept.ofExcept ((← get).rebuilt entries)
      set built

/-- Run an edit: whether it succeeds, and the grammar that is there afterwards. -/
def apply (edit : Edit) (g : Grammar) : Except GrammarError Unit × Grammar := edit.program.run.run g

/-- What an edit should come to, on whole grammars. -/
def result (g : Grammar) : Edit → Except GrammarError Grammar
  | .trim start => (g.trim start).map Prod.snd
  | .duplicate symbol only? depth? => g.duplicateContext symbol only? depth?
  | .rebuild entries => g.rebuilt entries

end Edit

/-! Actions that do not look at a rule that is being rewritten. -/

namespace Duplicate

section Commutes

variable {σ α β : Type} {keeps : σ → Prop} {change : σ → σ}

/-- The action does the same after the change as before it, and leaves the change in place. -/
def Commutes (keeps : σ → Prop) (change : σ → σ) (action : StateM σ α) : Prop :=
  ∀ state, keeps state → keeps (action.run state).2 ∧
    action.run (change state) = ((action.run state).1, change (action.run state).2)

theorem Commutes.pure (value : α) : Commutes keeps change (pure value) := fun _ kept => ⟨kept, rfl⟩

theorem Commutes.bind {action : StateM σ α} {next : α → StateM σ β}
    (first : Commutes keeps change action)
    (others : ∀ value, Commutes keeps change (next value)) :
    Commutes keeps change (action >>= next) := by
  intro state kept
  obtain ⟨kept, same⟩ := first state kept
  obtain ⟨kept, same'⟩ := others (action.run state).1 (action.run state).2 kept
  refine ⟨kept, ?_⟩
  rw [StateT.run_bind, same]
  exact same'

theorem Commutes.mapM {f : α → StateM σ β} (each : ∀ item, Commutes keeps change (f item))
    (items : List α) : Commutes keeps change (items.mapM f) := by
  induction items with
  | nil => exact .pure []
  | cons item rest ih =>
      rw [List.mapM_cons]
      exact (each item).bind fun _ => ih.bind fun _ => .pure _

theorem Commutes.renameM {rename : Symbol → StateM σ Symbol}
    (each : ∀ symbol, Commutes keeps change (rename symbol)) (expansion : Expansion) :
    Commutes keeps change (expansion.renameM rename) := by
  refine Commutes.bind (Commutes.mapM (fun part => ?_) _) fun _ => .pure _
  cases part with
  | terminal text => exact .pure text
  | nonterminal symbol => exact each symbol

end Commutes

variable (source : Grammar) {symbol : Symbol} (rule : List Expansion)

/-- Resolving a reference commutes with setting a rule: a copy has another name than the rule that
is being rewritten, so the two rules are set in either order. -/
theorem commutes_resolve (depth : Nat) : ∀ reference,
    Commutes (fun progress : Progress => symbol ∈ progress.grammar.symbols)
      (fun progress => { progress with grammar := progress.grammar.setRule symbol rule })
      (resolve source depth reference) := by
  induction depth with
  | zero => exact fun reference progress kept => ⟨kept, rfl⟩
  | succ depth ih =>
      rintro reference ⟨grammar, made⟩ kept
      cases found : made[reference]? with
      | some copy =>
          simp only [resolve, StateT.run, found]
          exact ⟨kept, trivial⟩
      | none =>
          have differs : grammar.newSymbol reference ≠ symbol := fun same =>
            Grammar.newSymbol_not_mem grammar reference (same ▸ kept)
          have claimed : symbol ∈
              (grammar.setRule (grammar.newSymbol reference)
                  (source.expansions reference)).symbols :=
            Grammar.mem_symbols_setRule.mpr (.inr kept)
          have below :=
            Commutes.mapM (fun expansion => Commutes.renameM ih expansion)
              (source.expansions reference)
            ⟨grammar.setRule (grammar.newSymbol reference) (source.expansions reference),
              made.insert reference (grammar.newSymbol reference)⟩ claimed
          simp only [resolve, StateT.run, found, Grammar.newSymbol_setRule kept,
            Grammar.setRule_comm differs] at below ⊢
          rw [below.2]
          refine ⟨Grammar.mem_symbols_setRule.mpr (.inr below.1), ?_⟩
          exact congrArg (fun grammar => (_, (⟨grammar, _⟩ : Progress)))
            (Grammar.setRule_comm differs)

theorem commutes_occurrence (depth : Nat) (reference : Symbol) :
    Commutes (fun grammar : Grammar => symbol ∈ grammar.symbols) (·.setRule symbol rule)
      (occurrence source depth reference) := by
  intro grammar kept
  obtain ⟨kept', same⟩ := commutes_resolve source rule depth reference ⟨grammar, ∅⟩ kept
  refine ⟨kept', ?_⟩
  exact congrArg (fun call : Symbol × Progress => (call.1, call.2.grammar)) same

/-- One expansion of a rule: copied if it is selected, or left as it is. -/
def rewrite (source : Grammar) (only? : Option String) (depth : Nat) (expansion : Expansion) :
    StateM Grammar Expansion :=
  if only?.all (· == expansion.text) then expansion.renameM (occurrence source depth)
    else pure expansion

theorem commutes_rewrite (only? : Option String) (depth : Nat) (expansion : Expansion) :
    Commutes (fun grammar : Grammar => symbol ∈ grammar.symbols) (·.setRule symbol rule)
      (rewrite source only? depth expansion) := by
  unfold rewrite
  split
  · exact .renameM (commutes_occurrence source rule depth) expansion
  · exact .pure expansion

end Duplicate

namespace Edit

open Duplicate

variable {g : Grammar} {symbol : Symbol}

theorem replaceExpansion_setRule (done rest : List Expansion) (current rewritten : Expansion) :
    (g.setRule symbol (done ++ current :: rest)).replaceExpansion symbol done.length rewritten =
      g.setRule symbol (done ++ rewritten :: rest) := by
  rw [Grammar.replaceExpansion, Grammar.expansions?_setRule, if_pos rfl]
  simp only [Grammar.setRule_setRule, List.set_append_right _ _ (Nat.le_refl _), Nat.sub_self,
    List.set_cons_zero]

theorem run_replaceAt (original : Grammar) (only? : Option String) (depth : Nat)
    (done rest : List Expansion) (current : Expansion) (member : symbol ∈ g.symbols) :
    (replaceAt original symbol only? depth done.length current).run
      (g.setRule symbol (done ++ current :: rest)) =
      ((), ((rewrite original only? depth current).run g).2.setRule symbol
        (done ++ ((rewrite original only? depth current).run g).1 :: rest)) := by
  obtain ⟨_, same⟩ := commutes_rewrite original (done ++ current :: rest) only? depth
    current g member
  unfold rewrite at same ⊢
  unfold replaceAt
  split
  · rename_i selected
    rw [if_pos selected] at same
    rw [StateT.run_bind, same]
    exact congrArg (Prod.mk ()) (replaceExpansion_setRule done rest current _)
  · rfl

/-- Replacing the expansions in the rule one by one leaves the rule that is made when they are
rewritten first; `done` are those replaced so far. -/
theorem run_replaceFrom (original : Grammar) (only? : Option String) (depth : Nat)
    (rest : List Expansion) :
    ∀ (done : List Expansion) {g : Grammar}, symbol ∈ g.symbols →
      (replaceFrom original symbol only? depth done.length rest).run
        (g.setRule symbol (done ++ rest)) =
        ((), ((rest.mapM (rewrite original only? depth)).run g).2.setRule symbol
          (done ++ ((rest.mapM (rewrite original only? depth)).run g).1)) := by
  induction rest with
  | nil => exact fun done g _ => rfl
  | cons current rest ih =>
      intro done g member
      have kept : symbol ∈ ((rewrite original only? depth current).run g).2.symbols :=
        (commutes_rewrite original [] only? depth current g member).1
      have others := ih (done ++ [((rewrite original only? depth current).run g).1]) kept
      simp only [List.length_append, List.length_singleton, List.append_assoc,
        List.singleton_append] at others
      rw [replaceFrom, List.mapM_cons, StateT.run_bind,
        run_replaceAt original only? depth done rest current member]
      exact others

theorem run_get_bind {α : Type} (next : Grammar → Editing α) (g : Grammar) :
    (get >>= next : Editing α).run.run g = (next g).run.run g := rfl

theorem run_ofExcept_bind {α β : Type} (value : Except GrammarError α) (next : α → Editing β)
    (g : Grammar) :
    (MonadExcept.ofExcept value >>= next : Editing β).run.run g =
      match value with
      | .ok result => (next result).run.run g
      | .error error => (.error error, g) := by
  cases value <;> rfl

theorem apply_duplicate (g : Grammar) (symbol : Symbol) (only? : Option String)
    (depth? : Option Nat) :
    (duplicate symbol only? depth?).apply g =
      g.settle (g.duplicateContext symbol only? depth?) := by
  rw [apply, program, run_get_bind, run_ofExcept_bind, Grammar.duplicateContext]
  cases required : g.require symbol with
  | error error => rfl
  | ok expansions =>
      obtain ⟨member, rfl⟩ := Grammar.require_eq_ok.mp required
      have replaced := run_replaceFrom g only? (depth?.getD g.size) (g.expansions symbol) [] member
      simp only [List.nil_append, List.length_nil, Grammar.setRule_expansions member] at replaced
      have runs (steps : StateM Grammar Unit) :
          (monadLift steps : Editing Unit).run.run g = (.ok (), (steps.run g).2) := rfl
      have lifted := runs (replaceFrom g symbol only? (depth?.getD g.size) 0 (g.expansions symbol))
      rw [replaced] at lifted
      cases only? with
      | none => exact lifted
      | some text =>
          simp only [Option.all_some]
          by_cases listed : (g.expansions symbol).any
            (fun expansion => text == expansion.text) = true
          · simp only [listed, bind, Except.bind]
            exact lifted
          · simp only [listed, bind, Except.bind]
            rfl

theorem apply_rebuild (g : Grammar) (entries : List (Symbol × List Expansion)) :
    (rebuild entries).apply g = g.settle (g.rebuilt entries) := by
  rw [apply, program, run_get_bind, run_ofExcept_bind]
  cases g.rebuilt entries <;> rfl

theorem run_forM_remove (dropped : List Symbol) (g : Grammar) :
    (dropped.forM fun symbol => modify (·.remove symbol) : Editing Unit).run.run g =
      (.ok (), dropped.foldl Grammar.remove g) := by
  induction dropped generalizing g with
  | nil => rfl
  | cons symbol rest ih => exact ih (g.remove symbol)

theorem expansions?_foldl_remove (dropped : List Symbol) (name : Symbol) (g : Grammar) :
    (dropped.foldl Grammar.remove g).expansions? name =
      if name ∈ dropped then none else g.expansions? name := by
  induction dropped generalizing g with
  | nil => simp
  | cons symbol rest ih =>
      have first : (g.remove symbol).expansions? name =
          if symbol = name then none else g.expansions? name := by
        simp only [Grammar.remove, Grammar.expansions?, Std.ExtTreeMap.getElem?_erase,
          Std.LawfulEqCmp.compare_eq_iff_eq]
      rw [List.foldl_cons, ih, first]
      by_cases listed : name ∈ rest
      · simp only [listed, List.mem_cons, or_true, if_true]
      · simp only [listed, List.mem_cons, or_false, if_false, eq_comm]

/-- Dropping the unreachable rules one by one leaves the reachable ones. -/
theorem foldl_remove_unreachable (g : Grammar) (start : Symbol) :
    (g.symbols.filter fun symbol => !(g.reached none start).contains symbol).foldl
      Grammar.remove g =
      g.kept start := by
  refine Grammar.ext_expansions? fun name => ?_
  rw [expansions?_foldl_remove, Grammar.expansions?_kept]
  simp only [List.mem_filter, not_contains_iff]
  by_cases reached : name ∈ g.reached none start
  · simp only [reached, not_true, and_false, if_false, if_true]
  · by_cases member : name ∈ g.symbols
    · simp only [reached, member, not_false_eq_true, and_true, if_true, if_false]
    · simp only [reached, member, false_and, if_false, Grammar.expansions?_of_not_mem member]

theorem apply_trim (g : Grammar) (start : Symbol) :
    (trim start).apply g = g.settle ((g.trim start).map Prod.snd) := by
  rw [apply, program, run_get_bind, run_ofExcept_bind]
  by_cases member : start ∈ g.symbols
  · have dropped : g.unreachable start =
        .ok (g.symbols.filter fun symbol => !(g.reached none start).contains symbol) := by
      simp only [Grammar.unreachable, Grammar.require_eq_ok.mpr ⟨member, rfl⟩]
    rw [dropped, Grammar.trim_of_mem member]
    simp only [run_forM_remove, foldl_remove_unreachable, Except.map, Grammar.settle]
  · simp only [Grammar.trim_of_not_mem member, Grammar.unreachable,
      Grammar.require_of_not_mem member]
    rfl

/-- Done in place, an edit comes to its result, and to nothing if it fails. -/
theorem apply_eq (edit : Edit) (g : Grammar) : edit.apply g = g.settle (edit.result g) := by
  cases edit with
  | trim start => exact apply_trim g start
  | duplicate symbol only? depth? => exact apply_duplicate g symbol only? depth?
  | rebuild entries => exact apply_rebuild g entries

theorem valid_result (valid : g.Valid) {edit : Edit} {after : Grammar}
    (ended : edit.result g = .ok after) :
    after.Valid := by
  cases edit with
  | trim start =>
      by_cases member : start ∈ g.symbols
      · rw [result, Grammar.trim_of_mem member] at ended
        cases ended
        exact Grammar.valid_kept valid member
      · rw [result, Grammar.trim_of_not_mem member] at ended
        contradiction
  | duplicate symbol only? depth? =>
      obtain ⟨stage, renames, rfl⟩ := Grammar.duplicateContext_renames valid ended
      exact renames.valid
  | rebuild entries => exact (Grammar.build_eq_ok.mp ended).2

theorem valid_apply (valid : g.Valid) (edit : Edit) : (edit.apply g).2.Valid := by
  rw [apply_eq]
  cases ended : edit.result g with
  | ok after => exact valid_result valid ended
  | error error => exact valid

end Edit

namespace Grammar

/-- The grammars that a caller holds who makes the edits one after the other. -/
def held (g : Grammar) : List Edit → List Grammar
  | [] => [g]
  | edit :: edits => g :: (edit.apply g).2.held edits

theorem valid_held (edits : List Edit) :
    ∀ {g : Grammar}, g.Valid → ∀ held ∈ g.held edits, held.Valid := by
  induction edits with
  | nil => exact fun valid held member => List.mem_singleton.mp member ▸ valid
  | cons edit edits ih =>
      intro g valid held member
      rcases List.mem_cons.mp member with rfl | member
      · exact valid
      · exact ih (edit.valid_apply valid) held member

/-- The conditions on a rule set, in terms of its texts. -/
structure Sound (g : Grammar) : Prop where
  closed {symbol : Symbol} : symbol ∈ g.symbols → isNonterminal symbol = true
  offers {symbol : Symbol} : symbol ∈ g.symbols → g.expansions symbol ≠ []
  known {symbol name : Symbol} {expansion : Expansion} :
    symbol ∈ g.symbols → expansion ∈ g.expansions symbol →
    isNonterminal name = true → name.toList <:+: expansion.text.toList → name ∈ g.symbols

theorem sound_iff {g : Grammar} : g.Sound ↔ g.Valid := by
  rw [valid_iff_occurring]
  constructor
  · intro sound symbol member
    exact ⟨sound.closed member, sound.offers member,
      fun _ listed _ closed occurs => sound.known member listed closed occurs⟩
  · intro valid
    exact ⟨fun member => (valid _ member).1, fun member => (valid _ member).2.1,
      fun member listed closed occurs => (valid _ member).2.2 _ listed _ closed occurs⟩

/-- Every grammar that a caller can hold is sound. Rules are accepted exactly if they are
sound, whether they are built or read from a document, and however a grammar is edited then,
every grammar in between is sound; an edit that fails leaves the grammar as it was. -/
theorem held_sound :
    (∀ rules g, build rules = .ok g ↔ g = ⟨rules⟩ ∧ g.Sound) ∧
    (∀ text g, ofDocument text = .ok g ↔
      ∃ entries, Document.entriesFrom [] .record (Json.tokens text) = .ok (entries, []) ∧
        g = ⟨Rules.ofList entries⟩ ∧ g.Sound) ∧
    (∀ g : Grammar, g.Sound → ∀ edits, ∀ held ∈ g.held edits, held.Sound) ∧
    (∀ (edit : Edit) (g : Grammar) error after, edit.apply g = (.error error, after) → after = g) ∧
    ∀ (edit : Edit) (g : Grammar), edit.apply g = g.settle (edit.result g) := by
  simp only [sound_iff]
  refine ⟨fun rules g => build_eq_ok, fun text g => ?_,
    fun g valid edits => valid_held edits valid, ?_, Edit.apply_eq⟩
  · simp only [ofDocument_eq_ok, build_eq_ok]
  · intro edit g error after failed
    rw [Edit.apply_eq] at failed
    cases ended : edit.result g with
    | ok built =>
        rw [ended] at failed
        cases failed
    | error error =>
        rw [ended] at failed
        cases failed
        rfl

/-- Both sides of the point apart, without the rules that only the originals used. -/
def pointedTrimmed : Grammar := ⟨Rules.ofList [
  ("<start>", ["<<num-2>.<num-3>>"]), ("<num-2>", ["<digit-1><num-2>", "<digit-1>"]),
  ("<digit-1>", ["0", "1"]),
  ("<num-3>", ["<digit-2><num-3>", "<digit-2>"]), ("<digit-2>", ["0", "1"])]⟩

/-- The last edit fails, since the rule was dropped. -/
def pointedEdits : List Edit :=
  [.duplicate "<start>" none none, .trim "<start>", .duplicate "<num>" none (some 1)]

theorem pointed_held : build pointed.rules = .ok pointed ∧
    pointed.held pointedEdits = [pointed, pointedApart, pointedTrimmed, pointedTrimmed] ∧
    ∀ held ∈ [pointed, pointedApart, pointedTrimmed], held.Sound := by
  obtain ⟨built, _, sound, _⟩ := held_sound
  have accepted : build pointed.rules = .ok pointed := by decide +kernel
  have duplicated : (Edit.duplicate "<start>" none none).result pointed = .ok pointedApart := by
    decide +kernel
  have trimmed : (Edit.trim "<start>").result pointedApart = .ok pointedTrimmed := by
    have entries : pointedApart.kept "<start>" = pointedTrimmed := by
      rw [pointedApart, kept_ofList]
      decide +kernel
    rw [Edit.result, trim_of_mem (by decide +kernel), entries]
    rfl
  have dropped : (Edit.duplicate "<num>" none (some 1)).result pointedTrimmed =
      .error (.unknownSymbol "<num>") := by
    decide +kernel
  have holds : pointed.held pointedEdits =
      [pointed, pointedApart, pointedTrimmed, pointedTrimmed] := by
    simp only [pointedEdits, held, Edit.apply_eq, duplicated, trimmed, dropped, settle]
  have every := sound pointed ((built _ _).mp accepted).2 pointedEdits
  rw [holds] at every
  exact ⟨accepted, holds, fun held member =>
    every held (List.mem_append_left [pointedTrimmed] member)⟩

end Grammar
end GrammarFuzz
