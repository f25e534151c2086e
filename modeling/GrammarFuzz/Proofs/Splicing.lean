import GrammarFuzz.Proofs.Confinement

/-! Names put in the place of references. A rewritten text is split anew wherever it is read, so
what matters is which of its characters are taken for references then: those of the names put in and
no others, whatever brackets the terminal text between them holds. This is said of a map of symbols,
of one name at one place, and of names found one after the other in a state that changes, as they
are while copies are made. -/
namespace GrammarFuzz

variable {expansion : Expansion} {f : Symbol → Symbol}

/-- A renaming commutes with splitting exactly if it turns the references into nonterminals. -/
theorem Expansion.parts_rename_iff :
    (expansion.rename f).parts = expansion.parts.map (Part.rename f) ↔
    ∀ symbol ∈ expansion.references, isNonterminal (f symbol) = true := by
  constructor
  · intro same symbol used
    have listed : Part.nonterminal (f symbol) ∈ (expansion.rename f).parts := by
      rw [same]
      exact List.mem_map_of_mem (f := Part.rename f) (mem_references.mp used)
    exact (lexed_parts _).closed listed
  · exact Expansion.parts_rename

/-- Renaming without an effect is renaming by a map. -/
theorem Expansion.renameM_pure (expansion : Expansion) (f : Symbol → Symbol) :
    Id.run (expansion.renameM fun symbol => pure (f symbol)) = expansion.rename f := by
  have text (part : Part) : part.renameM (fun symbol => (pure (f symbol) : Id Symbol)) =
      pure (part.rename f).text := by
    cases part <;> rfl
  change Expansion.mk
    (String.join (Id.run (expansion.parts.mapM (Part.renameM fun symbol => pure (f symbol))))) = _
  rw [funext text, List.mapM_pure, Expansion.rename, List.map_map]
  rfl

theorem isNonterminal_of_mem_references {symbol : Symbol} (used : symbol ∈ expansion.references) :
    isNonterminal symbol = true := (lexed_parts _).closed (mem_references.mp used)

/-- An expansion is rewritten by resolving its references one after the other: each name takes the
place of its reference, and the terminal text stays what it was. -/
structure Expansion.Splices {σ : Type} (expansion : Expansion) (rename : Symbol → StateM σ Symbol)
    (state : σ) : Prop where
  alike : Part.Alike expansion.parts ((expansion.renameM rename).run state).1.parts
  names : ((expansion.renameM rename).run state).1.references =
    ((expansion.references.mapM rename).run state).1
  later : ((expansion.renameM rename).run state).2 =
    ((expansion.references.mapM rename).run state).2

namespace Duplicate

section Actions

variable {σ : Type} {ready : σ → Prop} {step : σ → σ → Prop} {rename : Symbol → StateM σ Symbol}
  {state : σ}

theorem splices_of_takes (refl : ∀ state, step state state)
    (trans : ∀ {first second third}, step first second → step second third → step first third)
    (stays : ∀ {before after}, step before after → ready before → ready after)
    (each : ∀ reference ∈ expansion.references,
      Takes ready step (rename reference) fun _ name => isNonterminal name = true)
    (started : ready state) : expansion.Splices rename state := by
  obtain ⟨_, named⟩ := Takes.mapM refl trans stays each (fun _ => id) state started
  have closed := forall_of_forall₂ named
  obtain ⟨pieces, _, _, pasted⟩ := Expansion.exists_pieces rename expansion state
  obtain ⟨alike, split⟩ := pasted closed
  exact ⟨split.symm ▸ alike, Expansion.references_renameM closed,
    Expansion.run_renameM_snd rename expansion state⟩

end Actions

/-- If the copies before are nonterminals, so are those after. -/
def Progress.StaysClosed (before after : Progress) : Prop := before.Closed → after.Closed

theorem Progress.StaysClosed.refl (progress : Progress) : progress.StaysClosed progress := id

theorem Progress.StaysClosed.trans {first second third : Progress} (left : first.StaysClosed second)
    (right : second.StaysClosed third) : first.StaysClosed third := right ∘ left

theorem Progress.StaysClosed.closed {before after : Progress} (stays : before.StaysClosed after)
    (closed : before.Closed) : after.Closed := stays closed

variable (source : Grammar) (depth : Nat)

/-- What a nonterminal is resolved to is a nonterminal, in any grammar and at any depth. By
induction on the depth: the name claimed is one, and so are those that the references below it are
resolved to. -/
theorem takes_resolve_closed : ∀ symbol, isNonterminal symbol = true →
    Takes Progress.Closed Progress.StaysClosed (resolve source depth symbol)
      fun _ name => isNonterminal name = true := by
  induction depth with
  | zero =>
      intro symbol nonterminal progress closed
      rw [run_resolve_zero]
      refine ⟨id, ?_⟩
      rcases answers_copyOf progress symbol with same | found
      · exact same.symm ▸ nonterminal
      · exact closed symbol _ found
  | succ depth ih =>
      intro symbol nonterminal progress closed
      by_cases known : symbol ∈ progress.copies
      · obtain ⟨copy, found⟩ := Progress.mem_copies_iff.mp known
        rw [run_resolve_of_found found]
        exact ⟨id, closed symbol copy found⟩
      · have claimed : isNonterminal (progress.grammar.newSymbol symbol) = true :=
          Grammar.isNonterminal_newSymbol nonterminal
        have rewriting : ∀ expansion ∈ source.expansions symbol,
            Takes Progress.Closed Progress.StaysClosed
              (expansion.renameM (resolve source depth)) fun _ _ => True := fun expansion _ =>
          Takes.renameM Progress.StaysClosed.refl .trans Progress.StaysClosed.closed
            fun reference used before started =>
              ⟨(ih reference (isNonterminal_of_mem_references used) before started).1, trivial⟩
        -- The references below find the claimed name in the table, so it has to be a nonterminal by
        -- then.
        have ready := closed_claim symbol (source.expansions symbol) closed claimed
        obtain ⟨below, _⟩ :=
          Takes.each Progress.StaysClosed.refl .trans Progress.StaysClosed.closed rewriting _ ready
        rw [run_resolve_of_absent known]
        exact ⟨fun _ => below ready, claimed⟩

theorem splices_resolve (expansion : Expansion) {progress : Progress} (closed : progress.Closed) :
    expansion.Splices (resolve source depth) progress :=
  splices_of_takes Progress.StaysClosed.refl .trans Progress.StaysClosed.closed
    (fun reference used => takes_resolve_closed source depth reference
      (isNonterminal_of_mem_references used)) closed

theorem splices_occurrence (expansion : Expansion) (grammar : Grammar) :
    expansion.Splices (occurrence source depth) grammar := by
  have each : ∀ reference ∈ expansion.references, Takes (fun _ => True) (fun _ _ => True)
      (occurrence source depth reference) fun _ name => isNonterminal name = true := by
    intro reference used before _
    have nonterminal := isNonterminal_of_mem_references used
    exact ⟨trivial,
      (takes_resolve_closed source depth reference nonterminal ⟨before, ∅⟩ (closed_start before)).2⟩
  exact splices_of_takes (fun _ => trivial) (fun _ _ => trivial) (fun _ => id) each trivial

end Duplicate

/-- Splitting commutes with renaming. If references are renamed by a map, the parts of the new text
are the old ones with the references renamed, exactly if all of these become nonterminals. A name
minted for a nonterminal that occurs in a text is one reference in its place, and the text on both
sides is split as before. While copies are made every reference is replaced by the name found for it
and nothing else is read differently, in whatever grammar and with whatever copies this starts. -/
theorem splitting_commutes_with_renaming (expansion : Expansion) :
    (∀ f : Symbol → Symbol,
      (Id.run (expansion.renameM fun symbol => pure (f symbol))).parts =
        expansion.parts.map (Part.rename f) ↔
        ∀ symbol ∈ expansion.references, isNonterminal (f symbol) = true) ∧
    (∀ (front back : String) (symbol : Symbol), isNonterminal symbol = true →
      expansion.text = front ++ symbol ++ back →
        expansion.parts = parts front ++ .nonterminal symbol :: parts back ∧
        ∀ g : Grammar, parts (front ++ g.newSymbol symbol ++ back) =
          parts front ++ .nonterminal (g.newSymbol symbol) :: parts back) ∧
    ∀ (source : Grammar) (depth : Nat),
      (∀ grammar, expansion.Splices (Duplicate.occurrence source depth) grammar) ∧
      ∀ progress : Duplicate.Progress, progress.Closed →
        expansion.Splices (Duplicate.resolve source depth) progress := by
  refine ⟨fun f => ?_, fun front back symbol nonterminal spelled => ⟨?_, fun g => ?_⟩,
    fun source depth => ⟨?_, ?_⟩⟩
  · rw [Expansion.renameM_pure]
    exact Expansion.parts_rename_iff
  · rw [Expansion.parts, spelled]
    exact parts_append_nonterminal front back nonterminal
  · exact parts_append_nonterminal front back (Grammar.isNonterminal_newSymbol nonterminal)
  · exact Duplicate.splices_occurrence source depth expansion
  · exact fun progress closed => Duplicate.splices_resolve source depth expansion closed

/-- Two references, with stray brackets before and after them. -/
def stray : Expansion := ⟨"<<num>.<num>> <"⟩

theorem stray_splices :
    stray.text = "<" ++ "<num>" ++ ".<num>> <" ∧ isNonterminal "<num>" = true ∧
    isNonterminal "<num-7>" = true ∧
    (Id.run (stray.renameM fun _ => pure "<num-7>")).parts =
      [.terminal "<", .nonterminal "<num-7>", .terminal ".", .nonterminal "<num-7>",
        .terminal "> <"] ∧
    stray.parts = parts "<" ++ .nonterminal "<num>" :: parts ".<num>> <" ∧
    stray.Splices (Duplicate.occurrence Grammar.pointed 4) Grammar.pointed ∧
    stray.Splices (Duplicate.resolve Grammar.pointed 4) ⟨Grammar.pointed, ∅⟩ := by
  have spelled : stray.text = "<" ++ "<num>" ++ ".<num>> <" := by decide +kernel
  have closed : isNonterminal "<num>" = true := by decide +kernel
  have closed' : isNonterminal "<num-7>" = true := by decide +kernel
  have split : stray.parts.map (Part.rename fun _ => "<num-7>") =
      [.terminal "<", .nonterminal "<num-7>", .terminal ".", .nonterminal "<num-7>",
          .terminal "> <"] := by
    decide +kernel
  obtain ⟨renames, pastes, copies⟩ := splitting_commutes_with_renaming stray
  have renamed := (renames fun _ => "<num-7>").mpr fun _ _ => closed'
  obtain ⟨above, below⟩ := copies Grammar.pointed 4
  have started := Duplicate.closed_start Grammar.pointed
  exact ⟨spelled, closed, closed', renamed.trans split, (pastes _ _ _ closed spelled).1, above _,
    below _ started⟩

end GrammarFuzz
