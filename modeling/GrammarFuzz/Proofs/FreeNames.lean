import Mathlib.Algebra.Group.Nat.Defs
import GrammarFuzz.Proofs.Rules

/-! The first free name. `FirstFree` says which name that is without a search. The search counts in
32 bits, and gives out where its counter would run over; each number it passes belongs to a rule, so
this takes more rules than there are numbers. -/
namespace GrammarFuzz.Grammar

variable {g : Grammar} {base name other : Symbol}

/-- A text without the bracket it ends with, or all of it if it ends with none. -/
def IsStem (base stem : String) : Prop :=
  base = stem ++ ">" ∨ base = stem ∧ ∀ front, base ≠ front ++ ">"

/-- A symbol itself if it is free, and otherwise its stem with the least number that is free. -/
inductive FirstFree (g : Grammar) (base : Symbol) : Symbol → Prop
  | base (free : base ∉ g.symbols) : g.FirstFree base base
  | numbered {stem : String} {number : Nat} (taken : base ∈ g.symbols) (stripped : IsStem base stem)
      (positive : 0 < number) (free : stem ++ "-" ++ toString number ++ ">" ∉ g.symbols)
      (least : ∀ smaller, 0 < smaller → smaller < number →
        stem ++ "-" ++ toString smaller ++ ">" ∈ g.symbols) :
      g.FirstFree base (stem ++ "-" ++ toString number ++ ">")

def stem (base : Symbol) : String :=
  String.ofList (if base.toList.getLast? = some '>' then base.toList.dropLast else base.toList)

theorem toInt_succ {counter : Int32} (less : counter < Int32.maxValue) :
    (counter + 1).toInt = counter.toInt + 1 := by
  have bound := Int32.lt_iff_toInt_lt.mp less
  have lower := counter.le_toInt
  rw [Int32.toInt_maxValue] at bound
  rw [Int32.toInt_add, Int32.toInt_one, Int.bmod_eq_of_le] <;> omega

/-- Count up until a name is free. The counter moves on before its name is tried, so that the
greatest number is never tried: the counter would run over. -/
def searchFrom (g : Grammar) (stem : String) (counter : Int32) : Option Symbol :=
  if counter < Int32.maxValue then
    if g.contains (stem ++ "-" ++ toString counter ++ ">") then g.searchFrom stem (counter + 1)
    else some (stem ++ "-" ++ toString counter ++ ">")
  else none
termination_by (Int32.maxValue.toInt - counter.toInt).toNat
decreasing_by
  rename_i less _
  have bound := Int32.lt_iff_toInt_lt.mp less
  have next := toInt_succ less
  omega

/-- The search for a name; nothing if the counter runs over. -/
def search (g : Grammar) (base : Symbol) : Option Symbol :=
  if g.contains base then g.searchFrom (stem base) 1 else some base

/-! Numbered names. -/

theorem numbered_eq (base : Symbol) (number : Nat) :
    numbered base number = stem base ++ "-" ++ toString number ++ ">" := rfl

theorem isStem_iff {text : String} : IsStem base text ↔ text = stem base := by
  by_cases closed : base.toList.getLast? = some '>'
  · obtain ⟨front, spelled⟩ := List.getLast?_eq_some_iff.mp closed
    obtain rfl : base = String.ofList front ++ ">" := by
      rw [← String.toList_inj, spelled]
      simp
    have stripped : stem (String.ofList front ++ ">") = String.ofList front := by
      rw [stem, if_pos closed, spelled, List.dropLast_concat]
    rw [stripped, IsStem, String.append_left_inj, eq_comm]
    exact or_iff_left fun unstripped => unstripped.2 _ rfl
  · have whole : stem base = base := by
      rw [stem, if_neg closed, String.ofList_toList]
    have unclosed (front : String) : base ≠ front ++ ">" := fun same => closed (by simp [same])
    rw [whole, IsStem, or_iff_right (unclosed text), and_iff_left unclosed, eq_comm]

/-- A number makes a name longer than the symbol was. -/
theorem numbered_ne (base : Symbol) (number : Nat) : numbered base number ≠ base := by
  intro same
  have length := congrArg (List.length ∘ String.toList) same
  rcases isStem_iff.mpr (Eq.refl (stem base)) with spelled | ⟨whole, _⟩
  · have spelled := congrArg (List.length ∘ String.toList) spelled
    simp [numbered_eq] at length spelled
    omega
  · rw [numbered_eq, ← whole] at length
    simp at length

/-- A symbol that is taken has a rule of its own, so one of the numbers up to that of the rules is
free. -/
theorem exists_numbered_le (taken : base ∈ g.symbols) :
    ∃ number, 0 < number ∧ number ≤ g.size ∧ numbered base number ∉ g.symbols := by
  obtain ⟨number, listed, free⟩ := exists_numbered_not_mem base (g.symbols.erase base)
  have keys : g.symbols.length = g.size := Std.ExtTreeMap.length_keys
  have some := List.length_pos_of_mem taken
  rw [List.length_erase_of_mem taken, List.mem_range'_1] at listed
  refine ⟨number, by omega, by omega, fun known => free ?_⟩
  exact (List.mem_erase_of_ne (numbered_ne base number)).mpr known

/-! The name that is first. -/

theorem FirstFree.unique (first : g.FirstFree base name) (first' : g.FirstFree base other) :
    name = other := by
  cases first with
  | base free =>
      cases first' with
      | base => rfl
      | numbered taken => exact absurd taken free
  | @numbered stem number taken stripped positive free least =>
      cases first' with
      | base free => exact absurd taken free
      | @numbered stem' number' _ stripped' positive' free' least' =>
          obtain rfl : stem = stem' := (isStem_iff.mp stripped).trans (isStem_iff.mp stripped').symm
          rcases Nat.lt_trichotomy number number' with less | rfl | greater
          · exact absurd (least' number positive less) free
          · rfl
          · exact absurd (least number' positive' greater) free'

theorem firstFree_newSymbol (g : Grammar) (base : Symbol) :
    g.FirstFree base (g.newSymbol base) := by
  by_cases taken : base ∈ g.symbols
  · obtain ⟨number, positive, free, least, same⟩ := exists_newSymbol_eq taken
    exact same ▸ .numbered taken (isStem_iff.mpr rfl) positive free least
  · rw [newSymbol_of_not_mem taken]
    exact .base taken

theorem firstFree_iff : g.FirstFree base name ↔ name = g.newSymbol base :=
  ⟨fun first => first.unique (firstFree_newSymbol g base),
    fun same => same ▸ firstFree_newSymbol g base⟩

/-! Counting. -/

theorem toString_ofNat {count : Nat} (within : count < 2 ^ 31) :
    toString (Int32.ofNat count) = toString count := by
  change toString (Int32.ofNat count).toInt = toString count
  rw [Int32.toInt_ofNat_of_lt within]
  rfl

theorem ofNat_lt_maxValue {count : Nat} (within : count < 2 ^ 31) :
    Int32.ofNat count < Int32.maxValue ↔ count < 2 ^ 31 - 1 := by
  rw [Int32.lt_iff_toInt_lt, Int32.toInt_ofNat_of_lt within, Int32.toInt_maxValue]
  omega

/-- Counting goes through the numbers that are left as a search in their list does. By induction on
how many are left. -/
theorem searchFrom_eq (g : Grammar) (base : Symbol) (left : Nat) :
    ∀ count, count + left = 2 ^ 31 - 1 →
    g.searchFrom (stem base) (Int32.ofNat count) =
      ((List.range' count left).find? fun number => !g.contains (numbered base number)).map
        (numbered base) := by
  induction left with
  | zero =>
      intro count last
      have full : ¬Int32.ofNat count < Int32.maxValue := by
        rw [ofNat_lt_maxValue (by omega)]
        omega
      rw [searchFrom, if_neg full]
      rfl
  | succ left ih =>
      intro count last
      have within : count < 2 ^ 31 := by omega
      have less : Int32.ofNat count < Int32.maxValue := (ofNat_lt_maxValue within).mpr (by omega)
      have next : Int32.ofNat count + 1 = Int32.ofNat (count + 1) := (Int32.ofNat_add count 1).symm
      rw [searchFrom, if_pos less, toString_ofNat within, ← numbered_eq, next,
        ih (count + 1) (by omega), List.range'_succ, List.find?_cons]
      cases g.contains (numbered base count) <;> rfl

theorem search_of_mem (taken : base ∈ g.symbols) : g.search base =
    ((List.range' 1 (2 ^ 31 - 2)).find? fun number => !g.contains (numbered base number)).map
      (numbered base) := by
  rw [search, if_pos (contains_iff.mpr taken)]
  exact searchFrom_eq g base (2 ^ 31 - 2) 1 (by omega)

/-- A name that the search finds is the first one. -/
theorem firstFree_of_search (found : g.search base = some name) : g.FirstFree base name := by
  by_cases taken : base ∈ g.symbols
  · rw [search_of_mem taken] at found
    obtain ⟨number, first, rfl⟩ := Option.map_eq_some_iff.mp found
    obtain ⟨positive, free, least⟩ := least_of_find? first
    exact .numbered taken (isStem_iff.mpr rfl) positive free least
  · rw [search, if_neg (contains_iff.not.mpr taken)] at found
    exact Option.some.inj found ▸ .base taken

/-- The search gives out exactly if the symbol and all names with numbers it can try have rules. -/
theorem search_eq_none_iff : g.search base = none ↔
    base ∈ g.symbols ∧ ∀ number, 0 < number → number < 2 ^ 31 - 1 →
      numbered base number ∈ g.symbols := by
  by_cases taken : base ∈ g.symbols
  · rw [search_of_mem taken, Option.map_eq_none_iff, List.find?_range'_eq_none, and_iff_right taken]
    simp only [Bool.not_not, contains_iff]
    exact forall_congr' fun number => imp_congr_right fun _ => imp_congr_left (by omega)
  · rw [search, if_neg (contains_iff.not.mpr taken)]
    exact iff_of_false nofun fun both => taken both.1

/-- Minting a name finds the first one that is free: the symbol itself if it has no rule, and
otherwise its stem with the least number that gives no symbol. With fewer rules than a counter of 32
bits can pass, counting ends there too. The name has no rule, and that of a nonterminal is a
nonterminal. -/
theorem newSymbol_finds_first (few : g.size < 2 ^ 31 - 1) (base : Symbol) :
    g.search base = some (g.newSymbol base) ∧
    (∀ name, g.FirstFree base name ↔ name = g.newSymbol base) ∧
    g.newSymbol base ∉ g.symbols ∧
    (isNonterminal base = true → isNonterminal (g.newSymbol base) = true) := by
  refine ⟨?_, fun name => firstFree_iff, newSymbol_not_mem g base, isNonterminal_newSymbol⟩
  cases found : g.search base with
  | some name => rw [firstFree_iff.mp (firstFree_of_search found)]
  | none =>
      -- The symbol and all the numbers would be one rule more than there may be.
      obtain ⟨taken, all⟩ := search_eq_none_iff.mp found
      obtain ⟨number, positive, bounded, free⟩ := exists_numbered_le taken
      exact absurd (all number positive (Nat.lt_of_le_of_lt bounded few)) free

/-- The second number is free and the third is not. -/
def gapped : Grammar :=
  ⟨Rules.ofList [("<digit>", ["0", "1"]), ("<digit-1>", ["2"]), ("<digit-3>", ["3"])]⟩

theorem gapped_finds_first : gapped.size < 2 ^ 31 - 1 ∧ gapped.search "<digit>" = some "<digit-2>" ∧
    gapped.search "<digit-1>" = some "<digit-1-1>" ∧
    (∀ name, gapped.FirstFree "<digit>" name ↔ name = "<digit-2>") ∧ "<digit-2>" ∉ gapped.symbols ∧
    isNonterminal "<digit>" = true ∧ isNonterminal "<digit-2>" = true := by
  have few : gapped.size < 2 ^ 31 - 1 := by decide +kernel
  have second : gapped.newSymbol "<digit>" = "<digit-2>" := by decide +kernel
  have nested : gapped.newSymbol "<digit-1>" = "<digit-1-1>" := by decide +kernel
  have closed : isNonterminal "<digit>" = true := by decide +kernel
  obtain ⟨ends, first, fresh, nonterminal⟩ := newSymbol_finds_first few "<digit>"
  have ends' := (newSymbol_finds_first few "<digit-1>").1
  rw [second] at ends first fresh nonterminal
  exact ⟨few, ends, nested ▸ ends', first, fresh, closed, nonterminal closed⟩

end GrammarFuzz.Grammar
