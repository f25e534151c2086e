import Mathlib.Logic.Relation
import GrammarFuzz.Random.Script
import GrammarFuzz.Proofs.Lockstep

/-! Foresight against the algorithm it speeds up. The plain algorithm looks up what lies below a
symbol whenever it is asked; whatever was done with a foresight strategy before, it answers and
chooses as the plain algorithm does for what is covered. -/
namespace GrammarFuzz

namespace Uncached

/-- The uncovered keys among the own key of an expansion and those below its children. -/
def newCoverage (t : Tracker) (symbol : Symbol) (depth : Nat) (children : List Tree) : KeySet :=
  let below := children.filterMap fun child =>
    (t.grammar.maximumCoverageFrom child.symbol (some depth)).toOption
  (below.foldl Std.ExtTreeSet.union {Key.ofChildren symbol children}).filter
    (fun key => !t.isCovered key)

/-- The least depth at which some candidate has a new key. -/
def horizon? (t : Tracker) (symbol : Symbol) (candidates : List (List Tree)) : Option Nat :=
  (List.range' 1 t.grammar.size).find? fun depth =>
    candidates.any fun children => !(newCoverage t symbol depth children).isEmpty

/-- The positions of the candidates with the most new keys at a depth. -/
def largest (t : Tracker) (symbol : Symbol) (candidates : List (List Tree)) (depth : Nat) :
    List (Fin candidates.length) :=
  let size (position : Fin candidates.length) :=
    (newCoverage t symbol depth (candidates.get position)).size
  let positions := List.finRange candidates.length
  positions.filter fun position => positions.all fun other => size other ≤ size position

/-- Pick among the largest at the horizon; as tracking does if there is none. -/
def choose {γ : Type} [Chance γ] (t : Tracker) (symbol : Symbol) (candidates : List (List Tree))
    (source : γ) :
    Option (Fin candidates.length × Tracker × γ) :=
  (horizon? t symbol candidates).elim
    (((Strategy.withTracker .tracking t).choose symbol candidates source).map fun chosen =>
      (chosen.1, chosen.2.1.tracker, chosen.2.2))
    fun depth => (Strategy.pickFrom? (largest t symbol candidates depth) source).map fun picked =>
      (picked.1, t.cover (Key.ofChildren symbol (candidates.get picked.1)), picked.2)

end Uncached

theorem Uncached.mem_newCoverage {t : Tracker} {symbol : Symbol} {depth : Nat}
    {children : List Tree} {key : Key} :
    key ∈ newCoverage t symbol depth children ↔ (key = Key.ofChildren symbol children ∨
      ∃ child ∈ children, ∃ keys, t.grammar.maximumCoverageFrom child.symbol (some depth) =
        .ok keys ∧ key ∈ keys) ∧
        key ∉ t.covered := by
  have ok {result : Except GrammarError KeySet} {keys : KeySet} :
      result.toOption = some keys ↔ result = .ok keys := by
    cases result <;> simp [Except.toOption]
  simp only [newCoverage, Lookahead.mem_uncovered, List.mem_filterMap, ok]
  refine and_congr_left fun _ => or_congr_right ⟨?_, ?_⟩
  · rintro ⟨keys, ⟨child, member, looked⟩, listed⟩
    exact ⟨child, member, keys, looked, listed⟩
  · rintro ⟨child, member, keys, looked, listed⟩
    exact ⟨keys, ⟨child, member, looked⟩, listed⟩

/-- Each candidate is offered what is looked up afresh. -/
theorem Uncached.offer_eq (t : Tracker) (symbol : Symbol) (depth : Nat) (children : List Tree) :
    Lookahead.offer t symbol depth children = newCoverage t symbol depth children := by
  refine Std.ExtTreeSet.ext_mem fun key => ?_
  simp only [Lookahead.mem_offer, Lookahead.mem_found, mem_newCoverage,
    Grammar.maximumCoverageFrom_eq_ok, and_assoc, exists_and_left, exists_eq_left']

namespace Strategy

/-- One thing done with a strategy. -/
inductive Operates (s : Strategy) : Strategy → Prop
  | choose {γ : Type} [Chance γ] {after : Strategy} {symbol : Symbol}
      {candidates : List (List Tree)} {position : Fin candidates.length} {source source' : γ} :
      s.choose symbol candidates source = some (position, after, source') → Operates s after
  | newCoverage (symbol : Symbol) (depth : Nat) (children : List Tree) : Operates s
      { s with memory := ((Lookahead.newCoverage s.tracker symbol depth children).run s.memory).2 }
  | newCoverages (symbol : Symbol) (candidates : List (List Tree)) : Operates s
      { s with memory := ((Lookahead.newCoverages s.tracker symbol candidates).run s.memory).2 }
  | recordText (symbol : Symbol) (text : String) : Operates s
      { s with tracker := (s.tracker.recordText symbol text).2 }
  | recordChildren (symbol : Symbol) (children : List Tree) : Operates s
      { s with tracker := (s.tracker.recordChildren symbol children).2 }
  | recordKey (key : Key) : Operates s { s with tracker := (s.tracker.recordKey key).2 }
  | recordTree (tree : Tree) : Operates s { s with tracker := (s.tracker.recordTree tree).2 }
  | reset : Operates s s.reset

/-- Whatever is done, memory holds what the walk finds. -/
theorem Operates.sound {kind : StrategyKind} {g : Grammar} {s after : Strategy}
    (step : Operates s after) (sound : Sound kind g s) : Sound kind g after := by
  obtain ⟨rfl, rfl, faithful⟩ := sound
  have sound : Sound s.kind s.grammar s := ⟨rfl, rfl, faithful⟩
  cases step with
  | choose chosen =>
      rw [choose_eq] at chosen
      obtain ⟨picked, _, same⟩ := Option.map_eq_some_iff.mp chosen
      cases same
      exact sound.chose picked.1
  | newCoverage symbol depth children =>
      exact ⟨rfl, rfl, (Lookahead.answers_newCoverage s.tracker symbol depth children _ faithful).2⟩
  | newCoverages symbol candidates =>
      exact ⟨rfl, rfl,
        (Lookahead.answers_search s.tracker symbol candidates s.grammar.size 1 _ faithful).2⟩
  | recordText => exact sound.track (Tracker.grammar_cover _ _)
  | recordChildren => exact sound.track (Tracker.grammar_cover _ _)
  | recordKey => exact sound.track (Tracker.grammar_cover _ _)
  | recordTree tree =>
      refine sound.track ?_
      rw [Tracker.recordTree_snd, Tracker.grammar_foldl_cover]
  | reset => exact sound.track rfl

/-- The leaders are those that nothing exceeds. -/
theorem leaders_map {α : Type} (offer : α → KeySet) {items : List α} (some : items ≠ []) :
    leaders (items.map offer) items.length = (List.finRange items.length).filter fun position =>
      (List.finRange items.length).all fun other =>
        (offer (items.get other)).size ≤ (offer (items.get position)).size := by
  obtain ⟨_, bound, attained⟩ :=
    foldl_max_spec (fun offer : KeySet => offer.size) (items.map offer) 0
  unfold leaders
  generalize (items.map offer).foldl (fun most offer => max most offer.size) 0 = best
    at bound attained
  have within (position : Fin items.length) : (offer (items.get position)).size ≤ best :=
    bound _ (List.mem_map_of_mem (List.getElem_mem position.isLt))
  have reached : ∃ position : Fin items.length, (offer (items.get position)).size = best := by
    rcases attained with rfl | ⟨_, listed, same⟩
    · exact ⟨⟨0, List.length_pos_of_ne_nil some⟩, Nat.le_zero.mp (within _)⟩
    · obtain ⟨item, member, rfl⟩ := List.mem_map.mp listed
      obtain ⟨place, bound, rfl⟩ := List.mem_iff_getElem.mp member
      exact ⟨⟨place, bound⟩, same⟩
  have test (position : Fin items.length) :
      (((items.map offer)[position.val]?.map (·.size)) == .some best) =
        (List.finRange items.length).all fun other =>
          (offer (items.get other)).size ≤ (offer (items.get position)).size := by
    rw [Bool.eq_iff_iff, List.all_eq_true, List.getElem?_map,
      List.getElem?_eq_getElem position.isLt]
    simp only [Option.map_some, Option.some_beq_some, beq_iff_eq, decide_eq_true_iff]
    constructor
    · exact fun same other _ => same ▸ within other
    · intro most
      obtain ⟨leader, same⟩ := reached
      exact Nat.le_antisymm (within position) (same ▸ most leader (List.mem_finRange leader))
  obtain ⟨leader, same⟩ := reached
  rw [orAll_of_any ⟨leader, by simpa using same⟩]
  exact List.filter_congr fun position _ => test position

end Strategy

namespace Uncached

theorem answers_newCoverages (t : Tracker) (symbol : Symbol) (candidates : List (List Tree)) :
    Lookahead.Answers t.grammar (Lookahead.newCoverages t symbol candidates)
      ((horizon? t symbol candidates).map fun depth =>
        candidates.map (newCoverage t symbol depth)) := by
  have answers := Lookahead.answers_search t symbol candidates t.grammar.size 1
  simp only [Lookahead.firstOffer?, funext (offer_eq t symbol _)] at answers
  exact answers

/-- Foresight prefers the largest sets at the horizon, and nothing if there is none. -/
theorem choices_eq (t : Tracker) (symbol : Symbol) (candidates : List (List Tree)) :
    Strategy.choices .foresight t symbol candidates =
      (horizon? t symbol candidates).elim (List.finRange candidates.length)
        (largest t symbol candidates) := by
  rw [Strategy.choices_foresight (answers_newCoverages t symbol candidates)]
  cases found : horizon? t symbol candidates with
  | none => rfl
  | some depth =>
      have some : candidates ≠ [] := by
        rintro rfl
        exact Bool.false_ne_true (List.find?_some found)
      exact Strategy.leaders_map _ some

end Uncached

namespace Strategy

/-- With memory that holds what the walk finds, to choose is to choose by the plain algorithm. -/
theorem Sound.choose_eq {γ : Type} [Chance γ] {g : Grammar} {s : Strategy}
    (sound : Sound .foresight g s) (symbol : Symbol) (candidates : List (List Tree)) (source : γ) :
    (s.choose symbol candidates source).map (fun chosen =>
      (chosen.1, chosen.2.1.tracker, chosen.2.2)) =
      Uncached.choose s.tracker symbol candidates source := by
  rw [Strategy.choose_eq, sound.preferred.1, Uncached.choices_eq, Option.map_map, Uncached.choose]
  cases Uncached.horizon? s.tracker symbol candidates with
  | some depth => rfl
  | none =>
      rw [Strategy.choose_eq, Option.map_map]
      rfl

/-- Memory shows in nothing. After any operations on a foresight strategy, over any grammar, the
new keys that it finds are those looked up afresh, and it chooses what the plain algorithm chooses,
with the same coverage and the same choices left. -/
theorem foresight_uncached (t : Tracker) {s : Strategy}
    (history : Relation.ReflTransGen Operates (withTracker .foresight t) s) :
    (∀ symbol depth children,
      ((Lookahead.newCoverage s.tracker symbol depth children).run s.memory).1 =
      Uncached.newCoverage s.tracker symbol depth children) ∧
    (∀ symbol candidates, ((Lookahead.newCoverages s.tracker symbol candidates).run s.memory).1 =
      (Uncached.horizon? s.tracker symbol candidates).map fun depth =>
        candidates.map (Uncached.newCoverage s.tracker symbol depth)) ∧
    ∀ {γ : Type} [Chance γ] symbol candidates (source : γ),
      (s.choose symbol candidates source).map (fun chosen =>
        (chosen.1, chosen.2.1.tracker, chosen.2.2)) =
        Uncached.choose s.tracker symbol candidates source := by
  have sound : Sound .foresight t.grammar s := by
    induction history with
    | refl => exact ⟨rfl, rfl, Lookahead.faithful_empty _⟩
    | tail _ step ih => exact step.sound ih
  have faithful : Lookahead.Faithful s.grammar s.memory := sound.grammar ▸ sound.faithful
  refine ⟨fun symbol depth children => ?_, fun symbol candidates => ?_,
    fun symbol candidates source => ?_⟩
  · rw [← Uncached.offer_eq]
    exact (Lookahead.answers_newCoverage s.tracker symbol depth children _ faithful).1
  · exact (Uncached.answers_newCoverages s.tracker symbol candidates _ faithful).1
  · exact sound.choose_eq symbol candidates source

/-- A choice whose consequences lie one level further down on one side. -/
def fork : Grammar := ⟨Rules.ofList [
  ("<start>", ["<left>", "<right>"]), ("<left>", ["a"]), ("<right>", ["<deep>"]),
  ("<deep>", ["b", "c"])]⟩

def forkWays : List (List Tree) := [[.pending "<left>"], [.pending "<right>"]]

theorem fork_uncached : ∃ s, Relation.ReflTransGen Operates (withTracker .foresight (.new fork)) s ∧
    (Lookahead.known? s.memory "<right>" 1).isSome = true ∧
    Uncached.horizon? s.tracker "<start>" forkWays = some 2 ∧
    ((s.choose "<start>" forkWays (Script.ofWords [])).map (·.1.val)) = some 1 ∧
    (s.choose "<start>" forkWays (Script.ofWords [])).map
      (fun chosen => (chosen.1, chosen.2.1.tracker, chosen.2.2)) =
      Uncached.choose s.tracker "<start>" forkWays (Script.ofWords []) := by
  have looked := Operates.newCoverages (s := withTracker .foresight (.new fork)) "<start>" forkWays
  have history := (Relation.ReflTransGen.single looked).tail
    (.recordTree (.node "<start>" [.node "<left>" [.leaf "a"]]))
  have history :=
    (history.tail (.recordText "<start>" "<right>")).tail (.recordText "<right>" "<deep>")
  exact ⟨_, history, by decide +kernel, by decide +kernel, by decide +kernel,
    (foresight_uncached (.new fork) history).2.2 _ _ _⟩

end Strategy
end GrammarFuzz
