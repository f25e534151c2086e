import GrammarFuzz.Language.Valid

/-! The grammars that come with the program, found by name. -/
namespace GrammarFuzz.Standard

def digits : List String := ["0", "1", "2", "3", "4", "5", "6", "7", "8", "9"]

def digit : List (Symbol × List String) := [("<start>", digits)]

def expr : List (Symbol × List String) := [
  ("<start>", ["<expr>"]),
  ("<expr>", ["<term> + <expr>", "<term> - <expr>", "<term>"]),
  ("<term>", ["<factor> * <term>", "<factor> / <term>", "<factor>"]),
  ("<factor>", ["+<factor>", "-<factor>", "(<expr>)", "<integer>.<integer>", "<integer>"]),
  ("<integer>", ["<digit><integer>", "<digit>"]),
  ("<digit>", digits)]

def cgi : List (Symbol × List String) := [
  ("<start>", ["<string>"]),
  ("<string>", ["<letter>", "<letter><string>"]),
  ("<letter>", ["<plus>", "<percent>", "<other>"]),
  ("<plus>", ["+"]),
  ("<percent>", ["%<hexdigit><hexdigit>"]),
  ("<hexdigit>", digits ++ ["a", "b", "c", "d", "e", "f"]),
  ("<other>", ["0", "1", "2", "3", "4", "5", "a", "b", "c", "d", "e", "-", "_"])]

def url : List (Symbol × List String) := [
  ("<start>", ["<url>"]),
  ("<url>", ["<scheme>://<authority><path><query>"]),
  ("<scheme>", ["http", "https", "ftp", "ftps"]),
  ("<authority>",
    ["<host>", "<host>:<port>", "<userinfo>@<host>", "<userinfo>@<host>:<port>"]),
  ("<host>", ["cispa.saarland", "www.google.com", "fuzzingbook.com"]),
  ("<port>", ["80", "8080", "<nat>"]),
  ("<nat>", ["<digit>", "<digit><digit>"]),
  ("<digit>", digits),
  ("<userinfo>", ["user:password"]),
  ("<path>", ["", "/", "/<id>"]),
  ("<id>", ["abc", "def", "x<digit><digit>"]),
  ("<query>", ["", "?<params>"]),
  ("<params>", ["<param>", "<param>&<params>"]),
  ("<param>", ["<id>=<id>", "<id>=<nat>"])]

def named : List (String × List (Symbol × List String)) :=
  [("digit", digit), ("expr", expr), ("cgi", cgi), ("url", url)]

def names : List String := named.map Prod.fst

def grammar? (name : String) : Option Grammar :=
  (named.lookup name).map (fun entries => ⟨Rules.ofList entries⟩)

/-- Whatever name is found, its grammar is valid. -/
theorem valid_of_grammar? {name : String} {g : Grammar} (found : grammar? name = some g) :
    g.Valid := by
  have valid : ∀ entry ∈ named, Grammar.Valid ⟨Rules.ofList entry.2⟩ := by decide +kernel
  obtain ⟨entries, listed, rfl⟩ := Option.map_eq_some_iff.mp found
  obtain ⟨front, back, split, _⟩ := List.lookup_eq_some_iff.mp listed
  exact valid (name, entries) (by simp [split])

end GrammarFuzz.Standard
