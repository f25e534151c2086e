import Mathlib.Data.List.TFAE
import GrammarFuzz.Command.Run
import GrammarFuzz.Proofs.Campaigns
import GrammarFuzz.Proofs.Copies
import GrammarFuzz.Proofs.Offers
import GrammarFuzz.Proofs.Validity

/-! The verdicts on a campaign. Whether coverage is complete is told by a flag of the campaign, by
numbers of keys, by the missing keys, by the report and by how the command exits; over a grammar
that was made ready for the start symbol they agree, and are right about the trees that were
generated. -/
namespace GrammarFuzz

theorem GrammarSource.valid_of_load {source : GrammarSource}
    {bytes? : String → Option ByteArray} {g : Grammar}
    (loaded : source.load bytes? = .ok g) : g.Valid := by
  cases source with
  | standard name =>
      cases found : Standard.grammar? name with
      | none => simp [load, found] at loaded
      | some known =>
          obtain rfl : known = g := by simpa [load, found] using loaded
          exact Standard.valid_of_grammar? found
  | file path =>
      cases read : bytes? path with
      | none => simp [load, read] at loaded
      | some bytes =>
          have parsed : ofBytes bytes = .ok g := by simpa [load, read] using loaded
          unfold ofBytes at parsed
          cases decoded : String.fromUTF8? bytes with
          | none => simp [decoded] at parsed
          | some text =>
              simp only [decoded] at parsed
              cases accepted : Grammar.ofDocument text with
              | error error => simp [accepted, Except.mapError] at parsed
              | ok known =>
                  obtain rfl : known = g := by simpa [accepted, Except.mapError] using parsed
                  obtain ⟨_, _, built⟩ := Grammar.ofDocument_eq_ok.mp accepted
                  exact (Grammar.build_eq_ok.mp built).2

namespace Grammar

/-- A grammar of which everything can be used from a start symbol. -/
structure Ready (g : Grammar) (start : Symbol) : Prop where
  valid : g.Valid
  member : start ∈ g.symbols
  within : g.maximumCoverage = g.keysWithin none start

theorem duplicates_of_foldlM {depth? : Option Nat} (duplications : List Duplication) :
    ∀ {g copied : Grammar},
    duplications.foldlM (fun g duplication =>
      g.duplicateContext duplication.symbol duplication.only? depth?) g =
      .ok copied → Relation.ReflTransGen Duplicates g copied := by
  induction duplications with
  | nil =>
      rintro g _ ⟨⟩
      exact .refl
  | cons duplication rest ih =>
      intro g copied folded
      rw [List.foldlM_cons] at folded
      cases first : g.duplicateContext duplication.symbol duplication.only? depth? with
      | error error =>
          rw [first] at folded
          contradiction
      | ok once =>
          rw [first] at folded
          exact .head ⟨_, _, _, first⟩ (ih folded)

theorem prepare_eq_ok {options : Options} {loaded g : Grammar} :
    Run.prepare options loaded = .ok g ↔
    ∃ copied, options.duplications.foldlM
        (fun g duplication => g.duplicateContext duplication.symbol duplication.only?
          options.depth?) loaded =
          .ok copied ∧
      options.config.start ∈ copied.symbols ∧ copied.kept options.config.start = g := by
  simp only [Run.prepare, bind, Except.bind]
  generalize options.duplications.foldlM
    (fun g duplication => g.duplicateContext duplication.symbol duplication.only? options.depth?)
      loaded = folded
  cases folded with
  | error error => simp
  | ok copied =>
      by_cases member : options.config.start ∈ copied.symbols
      · simp [trim_of_mem member, member, pure, Except.pure]
      · simp [trim_of_not_mem member, member]

theorem ready_of_prepare {options : Options} {loaded g : Grammar} (valid : loaded.Valid)
    (prepared : Run.prepare options loaded = .ok g) : g.Ready options.config.start := by
  obtain ⟨copied, folded, member, rfl⟩ := prepare_eq_ok.mp prepared
  obtain ⟨stage, renames, rfl⟩ := exists_renames valid (duplicates_of_foldlM _ folded)
  exact ⟨valid_kept renames.valid member, (mem_symbols_kept renames.valid member).mpr .refl,
    maximumCoverage_kept renames.valid member⟩

end Grammar

namespace Fuzzer

variable {γ : Type} [Chance γ]

theorem Generates.continues {f f' : Fuzzer γ} {trees : List Tree} (generates : Generates f trees f')
    (valid : f.grammar.Valid) (accepted : f.Accepted) : Continues f f' := by
  induction generates with
  | none f => exact .refl f
  | next done _ ih =>
      have first := (fuzzTree_done valid accepted done).1.continues
      exact first.trans (ih (first.grammar ▸ valid) (accepted.continues first))

/-- Coverage is complete when all within reach of the symbol that the grammar was made ready for was
used in the trees that were generated since nothing was covered. -/
theorem isComplete_iff_uses {f f' : Fuzzer γ} {trees : List Tree} (generates : Generates f trees f')
    {start : Symbol} (ready : f.grammar.Ready start) (accepted : f.Accepted)
    (fresh : f.tracker.covered = ∅) :
    f'.tracker.isComplete = true ↔ ∀ key ∈ f.grammar.keysWithin none start, ∃ tree ∈ trees,
      tree.Uses key := by
  have same : f'.tracker.grammar = f.grammar := (generates.continues ready.valid accepted).grammar
  have covered (key : Key) : key ∈ f'.tracker.covered ↔ ∃ tree ∈ trees, tree.Uses key := by
    simp [generates.covered ready.valid accepted, fresh]
  simp only [Tracker.isComplete_iff_covered, same, covered, ready.within]

end Fuzzer

namespace Run

variable {options : Options} {g : Grammar} {budget : Nat} {f f' : Fuzzer ChaCha}
  {campaign : Campaign} {lines : List String} {files : Files}

/-- Where nothing breaks off a run, its exit code is the verdict of its report. -/
theorem exit_of_draft (made : Fuzzer.new g options.kind options.config = .ok f)
    (done : f.untilCovered budget options.config.maxGenerations = (.done campaign, f'))
    (closed : closing budget options g = some (lines, none)) {report : Report}
    (reported : Report.new options.kind.name options.config.seed campaign f'.tracker = report)
    (writes : ∀ path, options.output? = some path →
      ∃ after, files.write path (if options.json then report.json else report.text) = .ok after)
    (warnings : List String) : ∃ drafted, draft budget options g = .drafted drafted ∧
      ((publish options warnings drafted).within files).1.map (·.exit) =
        some (if report.isComplete then 0 else 1) := by
  refine ⟨_, by simp only [draft, made, done, closed, reported]; rfl, ?_⟩
  cases path : options.output? with
  | none => simp only [publish, path, close, Interaction.within, Option.map_some]
  | some path' =>
      obtain ⟨after, wrote⟩ := writes path' path
      simp only [publish, path, close, Interaction.within, wrote, Option.map_some]

end Run

/-- The verdicts agree and are earned. Over a grammar made ready for a start symbol, a campaign from
no coverage is complete by its flag, by the numbers of keys, by the state, by what is missing and by
the report exactly if its trees use every key within reach of that symbol; and of a run over the
grammar that nothing breaks off, the exit code says the same. In any case what is covered and what
is missing are all keys, told apart, and the missing ones are in order. -/
theorem verdicts_agree {options : Options} {bytes? : String → Option ByteArray} {loaded g : Grammar}
    (read : options.grammar.load bytes? = .ok loaded)
    (prepared : Run.prepare options loaded = .ok g) :
    (∀ {γ : Type} [Chance γ] {f f' : Fuzzer γ} {budget generations : Nat} {campaign : Campaign},
      f.Accepted → f.grammar = g → f.tracker.covered = ∅ →
      f.untilCovered budget generations = (.done campaign, f') → ∀ (name : String) (seed : UInt64),
      let report := Report.new name seed campaign f'.tracker
      (∃ reach trees, g.maximumCoverageFrom options.config.start none = .ok reach ∧
        f.Generates trees f' ∧
        trees.map Tree.text = campaign.inputs.toList ∧
        [campaign.complete = true, f'.tracker.isComplete = true, f'.tracker.state = .full,
          f'.tracker.missing = [], report.isComplete = true, report.covered = report.total,
          ∀ key ∈ reach, ∃ tree ∈ trees, tree.Uses key].TFAE) ∧
      report.covered + report.missing.length = report.total ∧
      (report.missing.map Key.text).Pairwise (· < ·) ∧
      ∀ key ∈ report.missing, key ∉ f'.tracker.covered) ∧
    ∀ {run : Options} {f f' : Fuzzer ChaCha} {budget : Nat} {campaign : Campaign}
      {lines : List String} {files : Files},
      Fuzzer.new g run.kind run.config = .ok f →
      f.untilCovered budget run.config.maxGenerations = (.done campaign, f') →
      Run.closing budget run g = some (lines, none) →
      (∀ path, run.output? = some path →
        let report := Report.new run.kind.name run.config.seed campaign f'.tracker
        ∃ after, files.write path (if run.json then report.json else report.text) = .ok after) →
      ∀ warnings, ∃ drafted, Run.draft budget run g = .drafted drafted ∧
        ((Run.publish run warnings drafted).within files).1.map (·.exit) =
          some (if campaign.complete then 0 else 1) := by
  have ready := Grammar.ready_of_prepare (GrammarSource.valid_of_load read) prepared
  constructor
  · intro γ _ f f' budget generations campaign accepted same fresh done name seed report
    obtain ⟨inputs, advances, _, _, rfl⟩ := Fuzzer.untilCovered_eq_done_iff.mp done
    obtain ⟨trees, generates, spelled⟩ := advances.exists_generates
    have uses := Fuzzer.isComplete_iff_uses generates (same.symm ▸ ready) accepted fresh
    rw [same] at uses
    have counts := f'.tracker.size_add_length_missing
    refine ⟨⟨_, trees, Grammar.maximumCoverageFrom_eq_ok.mpr ⟨ready.member, rfl⟩, generates,
      spelled, List.tfae_of_forall (f'.tracker.isComplete = true) _ ?_⟩,
      counts, f'.tracker.pairwise_missing, fun key missed => (Tracker.mem_missing.mp missed).2⟩
    simp only [List.mem_cons, List.not_mem_nil, or_false]
    rintro _ (rfl | rfl | rfl | rfl | rfl | rfl | rfl)
    · rfl
    · rfl
    · exact Tracker.state_eq_full_iff
    · exact Tracker.isComplete_iff.symm
    · rw [Tracker.isComplete_iff]
      exact List.isEmpty_iff
    · exact beq_iff_eq.symm
    · exact uses.symm
  · intro run f f' budget campaign lines files made done closed writes warnings
    obtain ⟨inputs, _, _, _, rfl⟩ := Fuzzer.untilCovered_eq_done_iff.mp done
    have agrees (campaign : Campaign) :
        (Report.new run.kind.name run.config.seed campaign f'.tracker).isComplete =
          f'.tracker.isComplete := by
      rw [Bool.eq_iff_iff, Tracker.isComplete_iff]
      exact List.isEmpty_iff
    have exits := Run.exit_of_draft made done closed rfl writes warnings
    rwa [agrees] at exits

def coinDocument : String := "\x7b\"<start>\": [\"<side>\"], \"<side>\": [\"heads\", \"tails\"]\x7d"

def coin : Grammar := ⟨Rules.ofList [("<start>", ["<side>"]), ("<side>", ["heads", "tails"])]⟩

/-- The context of the side is taken apart, so that its own rule is dropped. -/
def coinOptions (limit : Nat) : Options where
  grammar := .file "coin.json"
  kind := .immediate
  config := { maxGenerations := limit }
  duplications := [⟨"<start>", none⟩]

def coinApart : Grammar :=
  ⟨Rules.ofList [("<start>", ["<side-1>"]), ("<side-1>", ["heads", "tails"])]⟩

def coinFuzzer (limit : Nat) : Fuzzer ChaCha :=
  ⟨(coinOptions limit).config, .new .immediate coinApart, ChaCha.ofSeed 42⟩

/-- Two inputs are enough, and a campaign that is cut off after one is not complete. -/
theorem coin_verdicts :
    (coinOptions 2).grammar.load (fun _ => some coinDocument.toUTF8) = .ok coin ∧
    Run.prepare (coinOptions 2) coin = .ok coinApart ∧
    (∃ campaign f' trees,
      Fuzzer.new coinApart .immediate (coinOptions 2).config = .ok (coinFuzzer 2) ∧
      (coinFuzzer 2).untilCovered 5 2 = (.done campaign, f') ∧ (coinFuzzer 2).Generates trees f' ∧
      campaign.complete = true ∧ f'.tracker.state = .full ∧
      (∀ key ∈ coinApart.keysWithin none "<start>", ∃ tree ∈ trees, tree.Uses key) ∧
      ∃ drafted, Run.draft 5 (coinOptions 2) coinApart = .drafted drafted ∧
        ((Run.publish (coinOptions 2) [] drafted).within ⟨[]⟩).1.map (·.exit) = some 0) ∧
    ∃ campaign f' trees,
      Fuzzer.new coinApart .immediate (coinOptions 1).config = .ok (coinFuzzer 1) ∧
      (coinFuzzer 1).untilCovered 5 1 = (.done campaign, f') ∧ (coinFuzzer 1).Generates trees f' ∧
      campaign.complete = false ∧ f'.tracker.state ≠ .full ∧
      (∃ key ∈ coinApart.keysWithin none "<start>", ∀ tree ∈ trees, ¬tree.Uses key) ∧
      ∃ drafted, Run.draft 5 (coinOptions 1) coinApart = .drafted drafted ∧
        ((Run.publish (coinOptions 1) [] drafted).within ⟨[]⟩).1.map (·.exit) = some 1 := by
  have read : (coinOptions 2).grammar.load (fun _ => some coinDocument.toUTF8) = .ok coin := by
    decide +kernel
  have prepared : Run.prepare (coinOptions 2) coin = .ok coinApart := by
    refine Grammar.prepare_eq_ok.mpr ⟨⟨Rules.ofList [("<start>", ["<side-1>"]),
      ("<side>", ["heads", "tails"]), ("<side-1>", ["heads", "tails"])]⟩, by decide +kernel,
      by decide +kernel, ?_⟩
    rw [Grammar.kept_ofList]
    decide +kernel
  have known : "<start>" ∈ coinApart.symbols ∧ coinApart.unproductive? "<start>" = none := by
    decide +kernel
  have accepted (limit : Nat) : (coinFuzzer limit).Accepted := Fuzzer.accepted_iff.mpr known
  have both : ((coinFuzzer 2).untilCovered 5 2).1 = .done ⟨#["tails", "heads"], 10, true⟩ := by
    decide +kernel
  have one : ((coinFuzzer 1).untilCovered 5 1).1 = .done ⟨#["tails"], 5, false⟩ := by
    decide +kernel
  obtain ⟨verdicts, exits⟩ := verdicts_agree read prepared
  have runs (limit : Nat) {campaign : Campaign}
      (ended : ((coinFuzzer limit).untilCovered 5 limit).1 = .done campaign) :
      ∃ f' trees, (coinFuzzer limit).untilCovered 5 limit = (.done campaign, f') ∧
        (coinFuzzer limit).Generates trees f' ∧
        (campaign.complete = true ↔ f'.tracker.state = .full) ∧
        (campaign.complete = true ↔
          ∀ key ∈ coinApart.keysWithin none "<start>", ∃ tree ∈ trees, tree.Uses key) ∧
        ∃ drafted, Run.draft 5 (coinOptions limit) coinApart = .drafted drafted ∧
          ((Run.publish (coinOptions limit) [] drafted).within ⟨[]⟩).1.map (·.exit) =
            some (if campaign.complete then 0 else 1) := by
    obtain ⟨⟨outcome, f'⟩, done⟩ : ∃ ran, (coinFuzzer limit).untilCovered 5 limit = ran := ⟨_, rfl⟩
    rw [done] at ended
    obtain rfl := ended
    obtain ⟨⟨reach, trees, found, generates, _, agree⟩, _⟩ :=
      verdicts (accepted limit) rfl rfl done "immediate" 42
    obtain rfl := (Grammar.maximumCoverageFrom_eq_ok.mp found).2
    have closes : Run.closing 5 (coinOptions limit) coinApart = some ([], none) := if_pos (.inl rfl)
    have made : Fuzzer.new coinApart (coinOptions limit).kind (coinOptions limit).config =
        .ok (coinFuzzer limit) := accepted limit
    exact ⟨f', trees, done, generates, agree.out 0 2, agree.out 0 6,
      exits made done closes (by simp [coinOptions]) []⟩
  obtain ⟨f', trees, done, generates, full, used, exit⟩ := runs 2 both
  obtain ⟨f'', trees', done', generates', full', used', exit'⟩ := runs 1 one
  refine ⟨read, prepared, ⟨_, f', trees, accepted 2, done, generates, rfl, full.mp rfl,
    used.mp rfl, exit⟩, _, f'', trees', accepted 1, done', generates', rfl,
    fun now => ?_, ?_, exit'⟩
  · exact Bool.false_ne_true (full'.mpr now)
  · by_contra! all
    exact Bool.false_ne_true (used'.mpr all)

end GrammarFuzz
