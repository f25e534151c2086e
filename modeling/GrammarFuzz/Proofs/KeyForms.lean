import Mathlib.Data.Set.Card
import Mathlib.Data.String.Basic
import GrammarFuzz.Proofs.Keys
import GrammarFuzz.Proofs.Reachability
import GrammarFuzz.Proofs.Uses

/-! Keys as a code for symbols and texts. A key is spelled without escapes, but a symbol without
spaces can be read off it whatever the text contains, so no two pairs share a key; and of two
nonterminals neither begins with the other, so keys have the order of the pairs. A text and the
children it is split into have one key. -/
namespace GrammarFuzz

/-- What a symbol was expanded to: the text of an expansion, or children. -/
inductive Form where
  | text (content : String)
  | children (forest : List Tree)

namespace Form

/-- Children stand for what their leaves spell, and a pending node is a leaf. -/
def flat : Form → String
  | text content => content
  | children forest => String.join ((forest.flatMap Tree.frontier).map Part.text)

def key (symbol : Symbol) : Form → Key
  | text content => Key.ofText symbol content
  | children forest => Key.ofChildren symbol forest

theorem key_eq (symbol : Symbol) (form : Form) : form.key symbol = Key.ofText symbol form.flat := by
  cases form with
  | text content => rfl
  | children forest =>
      have same : String.join ((forest.flatMap Tree.frontier).map Part.text) =
          Tree.forestText forest :=
        Tree.forestText_congr fun child _ => child.join_frontier
      rw [key, Key.ofChildren, flat, same]

end Form

/-- Where the texts that come first differ they decide, if neither begins with the other. -/
theorem append_lt_append_iff {front front' : List Char} (apart : front <+: front' → front = front')
    (apart' : front' <+: front → front' = front) (back back' : List Char) :
    front ++ back < front' ++ back' ↔ front < front' ∨ front = front' ∧ back < back' := by
  induction front generalizing front' with
  | nil =>
      obtain rfl := apart List.nil_prefix
      simp
  | cons c front ih =>
      cases front' with
      | nil => exact absurd (apart' List.nil_prefix) (by simp)
      | cons c' front' =>
          rw [List.cons_append, List.cons_append, List.cons_lt_cons_iff, List.cons_lt_cons_iff]
          by_cases same : c = c'
          · subst same
            have tails : front ++ back < front' ++ back' ↔
                front < front' ∨ front = front' ∧ back < back' := by
              apply ih
              · exact fun starts => List.tail_eq_of_cons_eq
                  (apart (List.cons_prefix_cons.mpr ⟨rfl, starts⟩))
              · exact fun starts => List.tail_eq_of_cons_eq
                  (apart' (List.cons_prefix_cons.mpr ⟨rfl, starts⟩))
            simpa using tails
          · simp [same]

section Order

variable {symbol symbol' : Symbol}

theorem eq_of_isInfix (closed : isNonterminal symbol = true)
    (closed' : isNonterminal symbol' = true)
    (inside : symbol.toList <:+: symbol'.toList) : symbol = symbol' := by
  have used : symbol ∈ references symbol' := mem_references_iff_infix.mpr ⟨closed, inside⟩
  rwa [references_of_isNonterminal closed', List.mem_singleton] at used

namespace Key

variable (closed : isNonterminal symbol = true) (closed' : isNonterminal symbol' = true)
  (text text' : String)
include closed closed'

theorem ofText_lt_iff : (ofText symbol text).text < (ofText symbol' text').text ↔
    symbol < symbol' ∨ symbol = symbol' ∧ text < text' := by
  have tails : separator.toList ++ text.toList < separator.toList ++ text'.toList ↔
      text.toList < text'.toList := by
    rw [append_lt_append_iff (fun _ => rfl) fun _ => rfl, or_iff_right (List.lt_irrefl _),
      and_iff_right rfl]
  have heads := append_lt_append_iff
    (fun starts => congrArg String.toList (eq_of_isInfix closed closed' starts.isInfix))
    (fun starts => congrArg String.toList (eq_of_isInfix closed' closed starts.isInfix))
    (separator.toList ++ text.toList) (separator.toList ++ text'.toList)
  rw [tails, String.toList_inj] at heads
  simpa only [String.lt_iff_toList_lt, ofText, String.toList_append, List.append_assoc] using heads

theorem compare_ofText_eq_lt : compare (ofText symbol text) (ofText symbol' text') = .lt ↔
    (compare symbol symbol').then (compare text text') = .lt := by
  rw [Ordering.then_eq_lt, Std.LawfulEqCmp.compare_eq_iff_eq, compare_lt_iff_lt, compare_lt_iff_lt]
  exact compare_lt_iff_lt.trans (ofText_lt_iff closed closed' text text')

theorem compare_ofText :
    compare (ofText symbol text) (ofText symbol' text') =
      (compare symbol symbol').then (compare text text') := by
  have before := compare_ofText_eq_lt closed closed' text text'
  have after := compare_ofText_eq_lt closed' closed text' text
  rw [Std.OrientedOrd.eq_swap (a := ofText symbol' text'), Std.OrientedOrd.eq_swap (a := symbol'),
    Std.OrientedOrd.eq_swap (a := text'), ← Ordering.swap_then, Ordering.swap_eq_lt,
    Ordering.swap_eq_lt] at after
  cases own : compare (ofText symbol text) (ofText symbol' text') with
  | lt => exact (before.mp own).symm
  | gt => exact (after.mp own).symm
  | eq =>
      cases pairs : (compare symbol symbol').then (compare text text') with
      | lt => rw [before.mpr pairs] at own; contradiction
      | gt => rw [after.mpr pairs] at own; contradiction
      | eq => rfl

end Key
end Order

namespace Grammar

/-- The symbols of a grammar, each with the texts it can be expanded to. -/
def alternatives (g : Grammar) : Set (Symbol × String) :=
  {pair | pair.1 ∈ g.symbols ∧ ∃ expansion ∈ g.expansions pair.1, expansion.text = pair.2}

theorem coe_maximumCoverage (g : Grammar) :
    {key | key ∈ g.maximumCoverage} = (fun pair => Key.ofText pair.1 pair.2) '' g.alternatives := by
  ext key
  rw [Set.mem_ofPred_eq, mem_maximumCoverage]
  constructor
  · rintro ⟨symbol, member, listed⟩
    obtain ⟨expansion, inside, rfl⟩ := mem_keysOf.mp listed
    exact ⟨(symbol, expansion.text), ⟨member, expansion, inside, rfl⟩, rfl⟩
  · rintro ⟨⟨symbol, text⟩, ⟨member, expansion, inside, rfl⟩, rfl⟩
    exact ⟨symbol, member, mem_keysOf.mpr ⟨expansion, inside, rfl⟩⟩

theorem ncard_keys (keys : KeySet) : {key | key ∈ keys}.ncard = keys.size := by
  rw [← Std.ExtTreeSet.length_toList, ← List.toFinset_card_of_nodup (nodup_keys keys),
    ← Set.ncard_coe_finset]
  exact congrArg Set.ncard (Set.ext fun key => by simp)

theorem size_maximumCoverage {g : Grammar} (spaceless : ∀ symbol ∈ g.symbols, ' ' ∉ symbol.toList) :
    g.maximumCoverage.size = g.alternatives.ncard := by
  have injective : Set.InjOn (fun pair : Symbol × String => Key.ofText pair.1 pair.2)
      g.alternatives := by
    intro pair own pair' own' same
    obtain ⟨symbols, texts⟩ := (Key.ofText_inj (spaceless _ own.1) (spaceless _ own'.1)).mp same
    exact Prod.ext symbols texts
  rw [← ncard_keys, coe_maximumCoverage, injective.ncard_image]

end Grammar

/-- A key tells symbol and text, whatever the text contains: pairs are kept apart, in their own
order, so keys count them. A node that was given an expansion has the key of its text. -/
theorem keys_tell_pairs :
    (∀ symbol : Symbol, ' ' ∉ symbol.toList → ∀ form : Form,
      (form.key symbol).symbol = symbol ∧ (form.key symbol).expansion = form.flat) ∧
    (∀ symbol symbol' : Symbol, ' ' ∉ symbol.toList → ' ' ∉ symbol'.toList → ∀ form form' : Form,
      form.key symbol = form'.key symbol' ↔ symbol = symbol' ∧ form.flat = form'.flat) ∧
    (∀ symbol symbol' : Symbol, isNonterminal symbol = true → isNonterminal symbol' = true →
      ∀ form form' : Form, compare (form.key symbol) (form'.key symbol') =
        (compare symbol symbol').then (compare form.flat form'.flat)) ∧
    (∀ (symbol : Symbol) (expansion : Expansion),
      (Form.text expansion.text).key symbol = (Form.children expansion.toChildren).key symbol ∧
      (Tree.node symbol expansion.toChildren).expansionText? = some expansion.text) ∧
    (∀ g : Grammar, g.Valid → ∀ symbol ∈ g.symbols, ' ' ∉ symbol.toList) ∧
    ∀ g : Grammar, (∀ symbol ∈ g.symbols, ' ' ∉ symbol.toList) →
      g.maximumCoverage.size = g.alternatives.ncard := by
  refine ⟨fun symbol spaceless form => ?_, fun symbol symbol' spaceless spaceless' form form' => ?_,
    fun symbol symbol' closed closed' form form' => ?_, fun symbol expansion => ⟨?_, ?_⟩,
    fun g valid symbol member => Key.space_not_mem (valid.closed member),
    fun g => Grammar.size_maximumCoverage⟩
  · rw [form.key_eq]
    exact ⟨Key.symbol_ofText spaceless, Key.expansion_ofText spaceless⟩
  · rw [form.key_eq, form'.key_eq]
    exact Key.ofText_inj spaceless spaceless'
  · rw [form.key_eq, form'.key_eq]
    exact Key.compare_ofText closed closed' form.flat form'.flat
  · exact (Expansion.ofChildren_toChildren symbol expansion).symm
  · have some : expansion.toChildren.isEmpty = false :=
      List.isEmpty_eq_false_iff.mpr expansion.toChildren_ne_nil
    simp [Tree.expansionText?, Tree.children, some, expansion.join_symbols]

/-- Symbols and texts that look like separators, and an alternative listed twice. -/
def arrows : Grammar := ⟨Rules.ofList [("<->", [" -> <->", "x", "", "x"])]⟩

theorem arrows_told : ' ' ∉ "->".toList ∧ arrows.Valid ∧
    ((Form.children [.node "<->" [.leaf " -> "], .pending "<->"]).key "->").symbol = "->" ∧
    ((Form.children [.node "<->" [.leaf " -> "], .pending "<->"]).key "->").expansion = " -> <->" ∧
    arrows.alternatives.ncard = 3 := by
  have spaceless : ' ' ∉ "->".toList := by decide
  have valid : arrows.Valid := by decide +kernel
  have size : arrows.maximumCoverage.size = 3 := by decide +kernel
  obtain ⟨told, _, _, _, unspaced, counted⟩ := keys_tell_pairs
  obtain ⟨symbol, expansion⟩ :=
    told "->" spaceless (.children [.node "<->" [.leaf " -> "], .pending "<->"])
  have flat : (Form.children [.node "<->" [.leaf " -> "], .pending "<->"]).flat = " -> <->" := by
    decide +kernel
  exact ⟨spaceless, valid, symbol, expansion.trans flat,
    (counted arrows (unspaced arrows valid)).symm.trans size⟩

end GrammarFuzz
