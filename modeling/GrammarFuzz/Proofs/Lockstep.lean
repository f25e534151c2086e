import GrammarFuzz.Generation.Campaign
import GrammarFuzz.Proofs.Steps

/-! What can be asked of a fuzzer, what is seen of it, and when two fuzzers look the same.
Strategies may differ in kind and memory and still choose alike; as long as they do, a step of
one fuzzer is matched by the same step of the other, and so is every loop of steps. -/
namespace GrammarFuzz

/-- What can be asked of a fuzzer. A budget bounds the steps of every loop. -/
inductive Call where
  | fuzzTree (budget : Nat)
  | fuzz (budget : Nat)
  | expandOnce (tree : Tree)
  | expandTree (budget : Nat) (tree : Tree)
  | campaign (budget generations : Nat)
  | summedLength (budget trials : Nat)
  | averageLength (budget trials : Nat)
  | choose (symbol : Symbol) (candidates : List (List Tree))
  /-- The new keys that expanding the symbol this way could lead to. -/
  | newCoverage (symbol : Symbol) (depth : Nat) (children : List Tree)
  | newCoverages (symbol : Symbol) (candidates : List (List Tree))
  | record (key : Key)
  | recordTree (tree : Tree)
  | reset
  | configure (config : Config)

inductive Answer where
  | tree (outcome : Outcome Tree)
  | input (outcome : Outcome String)
  | expanded (result : Except GrammarError Tree)
  | campaign (outcome : Outcome Campaign)
  | length (outcome : Outcome Nat)
  | average (outcome : Outcome Float)
  | position (chosen : Option Nat)
  | coverage (keys : KeySet)
  | coverages (offers : Option (List KeySet))
  | recorded (isNew : Bool)
  | added (count : Nat)
  | nothing

/-- What is seen of a fuzzer after a call: all but what its strategy remembers. -/
structure Observation (γ : Type) where
  answer : Answer
  config : Config
  tracker : Tracker
  source : γ

namespace Fuzzer

variable {γ : Type}

/-- Go on with what a call of the tracker left. -/
def track (f : Fuzzer γ) (t : Tracker) : Fuzzer γ :=
  { f with strategy := { f.strategy with tracker := t } }

/-- Go on with what looking ahead left in memory. -/
def look {α : Type} (f : Fuzzer γ) (action : StateM ReachMemory α) : α × Fuzzer γ :=
  ((action.run f.strategy.memory).1,
    { f with strategy := { f.strategy with memory := (action.run f.strategy.memory).2 } })

variable [Chance γ]

def perform (f : Fuzzer γ) : Call → Answer × Fuzzer γ
  | .fuzzTree budget => (f.fuzzTree budget).map .tree id
  | .fuzz budget => (f.fuzz budget).map .input id
  | .expandOnce tree => (f.expandOnce .anything tree).map .expanded id
  | .expandTree budget tree => (f.expandTree budget tree).map .tree id
  | .campaign budget generations => (f.untilCovered budget generations).map .campaign id
  | .summedLength budget trials => (summedLength budget trials f 0).map .length id
  | .averageLength budget trials => (f.averageLength budget trials).map .average id
  | .choose symbol candidates =>
      match f.strategy.choose symbol candidates f.source with
      | some (position, strategy, source) =>
          (.position (some position), { f with strategy, source })
      | none => (.position none, f)
  | .newCoverage symbol depth children =>
      (f.look (Lookahead.newCoverage f.tracker symbol depth children)).map .coverage id
  | .newCoverages symbol candidates =>
      (f.look (Lookahead.newCoverages f.tracker symbol candidates)).map .coverages id
  | .record key => (f.tracker.recordKey key).map .recorded f.track
  | .recordTree tree => (f.tracker.recordTree tree).map .added f.track
  | .reset => (.nothing, f.resetCoverage)
  | .configure config => (.nothing, { f with config })

def run (f : Fuzzer γ) (calls : List Call) : Fuzzer γ :=
  calls.foldl (fun f call => (f.perform call).2) f

/-- What is seen after each of the calls. -/
def observe (f : Fuzzer γ) : List Call → List (Observation γ)
  | [] => []
  | call :: rest =>
      let (answer, f) := f.perform call
      ⟨answer, f.config, f.tracker, f.source⟩ :: observe f rest

end Fuzzer

namespace Strategy

section Choose

variable {γ : Type} [Chance γ]

/-- A pick from a list; none from an empty one. -/
def pickFrom? {α : Type} (items : List α) (source : γ) : Option (α × γ) :=
  if some? : 0 < items.length then
    let (place, source) := Chance.pick items.length some? source
    some (items[place], source)
  else none

/-- To choose is to pick among the preferred positions. -/
theorem choose_eq (s : Strategy) (symbol : Symbol) (candidates : List (List Tree)) (source : γ) :
    s.choose symbol candidates source = (pickFrom? (s.positions symbol candidates) source).map
      fun (position, source) => (position, s.chose symbol candidates position, source) := by
  by_cases some : 0 < (s.positions symbol candidates).length
  · rw [choose_of_pick (Eq.refl (Chance.pick _ some source)), pickFrom?, dif_pos some]
    rfl
  · rw [pickFrom?, dif_neg some]
    exact dif_neg some

end Choose

/-- A strategy of this kind over this grammar, whose memory holds what the walk finds. -/
structure Sound (kind : StrategyKind) (g : Grammar) (s : Strategy) : Prop where
  kind : s.kind = kind
  grammar : s.grammar = g
  faithful : Lookahead.Faithful g s.memory

namespace Sound

variable {kind : StrategyKind} {g : Grammar} {s : Strategy} {symbol : Symbol}
  {candidates : List (List Tree)}

/-- Memory shows neither in what is preferred nor in what it becomes. -/
theorem preferred (sound : Sound kind g s) :
    s.positions symbol candidates = choices kind s.tracker symbol candidates ∧
      Lookahead.Faithful g ((s.preferred symbol candidates).run s.memory).2 := by
  obtain ⟨rfl, rfl, faithful⟩ := sound
  exact answers_preferred s.memory faithful

theorem chose (sound : Sound kind g s) (position : Fin candidates.length) :
    Sound kind g (s.chose symbol candidates position) where
  kind := sound.kind
  grammar := (Tracker.grammar_cover _ _).trans sound.grammar
  faithful := sound.preferred.2

theorem track (sound : Sound kind g s) {t : Tracker} (same : t.grammar = g) :
    Sound kind g { s with tracker := t } :=
  ⟨sound.kind, same, sound.faithful⟩

end Sound
end Strategy

/-- A relation that keeps strategies choosing alike: related strategies have covered the same
and prefer the same among the expansions of their grammar, and whichever they choose, they are
related again. -/
structure Lockstep (related : Strategy → Strategy → Prop) : Prop where
  tracker {s s' : Strategy} : related s s' → s'.tracker = s.tracker
  positions {s s' : Strategy} {symbol : Symbol} {expansions : List Expansion} : related s s' →
    (∀ expansion ∈ expansions, expansion ∈ s.grammar.expansions symbol) →
    s'.positions symbol (expansions.map Expansion.toChildren) =
      s.positions symbol (expansions.map Expansion.toChildren)
  chose {s s' : Strategy} {symbol : Symbol} {expansions : List Expansion} : related s s' →
    (∀ expansion ∈ expansions, expansion ∈ s.grammar.expansions symbol) →
    ∀ position, related (s.chose symbol (expansions.map Expansion.toChildren) position)
      (s'.chose symbol (expansions.map Expansion.toChildren) position)

namespace Fuzzer

variable {γ : Type} {related : Strategy → Strategy → Prop} {f f' : Fuzzer γ}

/-- Two fuzzers that differ in their strategies only, and these are related. -/
structure Paired (related : Strategy → Strategy → Prop) (f f' : Fuzzer γ) : Prop where
  config : f'.config = f.config
  source : f'.source = f.source
  strategy : related f.strategy f'.strategy

/-- The same result, and fuzzers that are paired again. -/
def Matches (related : Strategy → Strategy → Prop) {α : Type} (step step' : α × Fuzzer γ) : Prop :=
  step'.1 = step.1 ∧ Paired related step.2 step'.2

theorem Matches.map {α β : Type} {step step' : α × Fuzzer γ} (agrees : Matches related step step')
    (result : α → β) : Matches related (step.map result id) (step'.map result id) :=
  ⟨congrArg result agrees.1, agrees.2⟩

theorem Matches.regrow {step step' : Except GrammarError Tree × Fuzzer γ}
    (agrees : Matches related step step')
    (plug : Tree → Tree) : Matches related (regrow plug step) (regrow plug step') :=
  ⟨congrArg (Except.map plug) agrees.1, agrees.2⟩

theorem Matches.cases {α : Type} {step step' : α × Fuzzer γ} (agrees : Matches related step step') :
    ∃ result g g', step = (result, g) ∧ step' = (result, g') ∧ Paired related g g' :=
  ⟨step.1, step.2, step'.2, rfl, Prod.ext agrees.1 rfl, agrees.2⟩

variable [Chance γ]

/-- To expand a pending node is to pick among the candidates that the strategy prefers. -/
theorem expandSymbol_eq (f : Fuzzer γ) (phase : Phase) (symbol : Symbol)
    {candidates : List (List Tree)}
    (offered : (phase.offered f.grammar symbol).map Expansion.toChildren = candidates) :
    f.expandSymbol phase symbol =
      (Strategy.pickFrom? (f.strategy.positions symbol candidates) f.source).elim
        (.error (.unknownSymbol symbol), f) fun picked =>
          (.ok (.node symbol candidates[picked.1]),
            { f with
              strategy := f.strategy.chose symbol candidates picked.1, source := picked.2 }) := by
  subst offered
  simp only [expandSymbol, Strategy.choose_eq]
  cases Strategy.pickFrom? (f.strategy.positions symbol _) f.source with
  | none => rfl
  | some picked => rfl

section Lockstep

variable (lockstep : Lockstep related)
include lockstep

theorem expandSymbol_matches (paired : Paired related f f') (phase : Phase) (symbol : Symbol) :
    Matches related (f.expandSymbol phase symbol) (f'.expandSymbol phase symbol) := by
  have listed : ∀ expansion ∈ phase.offered f.grammar symbol,
      expansion ∈ f.grammar.expansions symbol :=
    fun _ => Phase.mem_expansions_of_mem_offered
  have grammar : f'.grammar = f.grammar :=
    congrArg Tracker.grammar (lockstep.tracker paired.strategy)
  have candidates : (phase.offered f'.grammar symbol).map Expansion.toChildren =
      (phase.offered f.grammar symbol).map Expansion.toChildren := by rw [grammar]
  rw [f.expandSymbol_eq phase symbol rfl, f'.expandSymbol_eq phase symbol candidates,
    lockstep.positions paired.strategy listed, paired.source]
  cases Strategy.pickFrom? (f.strategy.positions symbol _) f.source with
  | none => exact ⟨rfl, paired⟩
  | some picked => exact ⟨rfl, paired.config, rfl, lockstep.chose paired.strategy listed picked.1⟩

theorem expandOnce_matches (paired : Paired related f f') (phase : Phase) (tree : Tree) :
    Matches related (f.expandOnce phase tree) (f'.expandOnce phase tree) := by
  cases pending : tree.hasPending with
  | false =>
      rw [expandOnce_settled f phase pending, expandOnce_settled f' phase pending]
      exact ⟨rfl, paired⟩
  | true =>
      obtain ⟨symbol, after, plug, _, step⟩ := expandOnce_descends phase tree f.source pending
      have first : f.expandOnce phase tree =
          regrow plug (expandSymbol { f with source := after } phase symbol) :=
        step f.config f.strategy
      have second : f'.expandOnce phase tree =
          regrow plug (expandSymbol { f' with source := after } phase symbol) := by
        have step := step f'.config f'.strategy
        rwa [← paired.source] at step
      have together : Paired related { f with source := after } { f' with source := after } :=
        ⟨paired.config, rfl, paired.strategy⟩
      rw [first, second]
      exact (expandSymbol_matches lockstep together phase symbol).regrow plug

theorem expandWhile_matches (phase : Phase) (limit : Option Nat) (budget : Nat) :
    ∀ {f f' : Fuzzer γ} (tree : Tree), Paired related f f' →
      Matches related (expandWhile phase limit budget f tree)
        (expandWhile phase limit budget f' tree) := by
  induction budget with
  | zero =>
      intro f f' tree paired
      unfold expandWhile
      split <;> exact ⟨rfl, paired⟩
  | succ budget ih =>
      intro f f' tree paired
      unfold expandWhile
      split
      · obtain ⟨result, g, g', first, second, after⟩ :=
          (expandOnce_matches lockstep paired phase tree).cases
        simp only [first, second]
        cases result with
        | ok next => exact ih next after
        | error error => exact ⟨rfl, after⟩
      · exact ⟨rfl, paired⟩

theorem expandTree_matches (paired : Paired related f f') (budget : Nat) (tree : Tree) :
    Matches related (f.expandTree budget tree) (f'.expandTree budget tree) := by
  unfold expandTree
  rw [paired.config]
  obtain ⟨outcome, g, g', first, second, paired⟩ :=
    (expandWhile_matches lockstep .costliest (some f.config.minPending) budget tree paired).cases
  simp only [first, second]
  cases outcome with
  | failed error => exact ⟨rfl, paired⟩
  | unfinished => exact ⟨rfl, paired⟩
  | done tree =>
      simp only [paired.config]
      obtain ⟨outcome, h, h', first, second, paired⟩ :=
        (expandWhile_matches lockstep .anything (some g.config.maxPending) budget tree paired).cases
      simp only [first, second]
      cases outcome with
      | failed error => exact ⟨rfl, paired⟩
      | unfinished => exact ⟨rfl, paired⟩
      | done tree => exact expandWhile_matches lockstep .cheapest none budget tree paired

theorem fuzzTree_matches (paired : Paired related f f') (budget : Nat) :
    Matches related (f.fuzzTree budget) (f'.fuzzTree budget) := by
  unfold fuzzTree initialTree
  rw [paired.config]
  exact expandTree_matches lockstep paired budget _

theorem fuzz_matches (paired : Paired related f f') (budget : Nat) :
    Matches related (f.fuzz budget) (f'.fuzz budget) := by
  unfold fuzz
  obtain ⟨outcome, g, g', first, second, paired⟩ := (fuzzTree_matches lockstep paired budget).cases
  simp only [first, second]
  cases outcome with
  | done tree => exact ⟨rfl, paired⟩
  | failed error => exact ⟨rfl, paired⟩
  | unfinished => exact ⟨rfl, paired⟩

/-- Fuzzers that a call leaves alike look the same in it, and after it if they do in the calls
that follow. -/
theorem observe_cons_eq {call : Call} {further : List Call}
    (matched : Matches related (f.perform call) (f'.perform call))
    (later : (f'.perform call).2.observe further = (f.perform call).2.observe further) :
    f'.observe (call :: further) = f.observe (call :: further) := by
  obtain ⟨same, after⟩ := matched
  simp only [observe, same, after.config, lockstep.tracker after.strategy, after.source,
    later, tracker]

end Lockstep
end Fuzzer
end GrammarFuzz
