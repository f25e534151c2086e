import GrammarFuzz.Proofs.Uses

/-! What a tree of any shape shows. The nodes of a tree are found by their paths from the root. A
node counts if nothing but nonterminals leads to it from the root, itself included, and if it has
children; its key need not belong to a grammar, and other nodes may have the same key. -/
namespace GrammarFuzz.Tree

/-- The subtree at a path, which lists positions among children from the root down. -/
def at? : Tree → List Nat → Option Tree
  | tree, [] => some tree
  | tree, position :: path => tree.children[position]?.bind (at? · path)

theorem at?_cons (parent : Symbol) {children : List Tree} (position : Fin children.length)
    (path : List Nat) :
    (node parent children).at? (position.val :: path) = (children.get position).at? path := by
  rw [at?, Tree.children, List.getElem?_eq_getElem position.isLt, Option.bind_some,
    List.get_eq_getElem]

variable {tree node : Tree} {path : List Nat} {key : Key}

theorem at?_cons_eq_some_iff {position : Nat} : tree.at? (position :: path) = some node ↔
    ∃ child, tree.children[position]? = some child ∧ child.at? path = some node :=
  Option.bind_eq_some_iff

/-- The node at a path, where all nodes from the root down to it are nonterminals. -/
structure Exposes (tree : Tree) (path : List Nat) (node : Tree) : Prop where
  found : tree.at? path = some node
  named {way : List Nat} {ancestor : Tree} :
    way <+: path → tree.at? way = some ancestor → isNonterminal ancestor.symbol = true

theorem exposes_nil : tree.Exposes [] node ↔ isNonterminal tree.symbol = true ∧ node = tree := by
  constructor
  · rintro ⟨found, named⟩
    exact ⟨named List.nil_prefix rfl, (Option.some.inj found).symm⟩
  · rintro ⟨closed, rfl⟩
    refine ⟨rfl, fun within found => ?_⟩
    obtain rfl := List.prefix_nil.mp within
    exact Option.some.inj found ▸ closed

theorem exposes_cons {position : Nat} : tree.Exposes (position :: path) node ↔
    isNonterminal tree.symbol = true ∧
      ∃ child, tree.children[position]? = some child ∧ child.Exposes path node := by
  constructor
  · rintro ⟨found, named⟩
    obtain ⟨child, listed, below⟩ := at?_cons_eq_some_iff.mp found
    refine ⟨named List.nil_prefix rfl, child, listed, below, fun {way ancestor} within there => ?_⟩
    have above : tree.at? (position :: way) = some ancestor :=
      at?_cons_eq_some_iff.mpr ⟨child, listed, there⟩
    exact named (List.cons_prefix_cons.mpr ⟨rfl, within⟩) above
  · rintro ⟨closed, child, listed, found, named⟩
    refine ⟨at?_cons_eq_some_iff.mpr ⟨child, listed, found⟩,
      fun {way ancestor} within there => ?_⟩
    cases way with
    | nil => exact Option.some.inj there ▸ closed
    | cons first way =>
        obtain ⟨rfl, inner⟩ := List.cons_prefix_cons.mp within
        obtain ⟨other, listed', there⟩ := at?_cons_eq_some_iff.mp there
        obtain rfl : child = other := Option.some.inj (listed.symm.trans listed')
        exact named inner there

theorem Exposes.closed (exposes : tree.Exposes path node) : isNonterminal node.symbol = true :=
  exposes.named (List.prefix_refl path) exposes.found

/-- Some exposed node with children has this key, spelled by its symbol and those of the
children. -/
def Shows (tree : Tree) (key : Key) : Prop :=
  ∃ path node, tree.Exposes path node ∧ node.children ≠ [] ∧
    key = Key.ofText node.symbol (String.join (node.children.map Tree.symbol))

/-- The nodes to visit after a node: below anything but a nonterminal there are none. -/
def exposed (node : Tree) : List Tree := if isNonterminal node.symbol then node.children else []

theorem mem_exposed {child : Tree} :
    child ∈ tree.exposed ↔ isNonterminal tree.symbol = true ∧ child ∈ tree.children := by
  by_cases closed : isNonterminal tree.symbol = true
  · simp [exposed, closed]
  · simp [exposed, closed]

theorem usedKeys_eq (tree : Tree) :
    tree.usedKeys = tree.ownKey?.toList ++ tree.exposed.flatMap usedKeys := by
  cases tree with
  | pending symbol => simp [usedKeys, ownKey?, exposed, expansionText?, Tree.children]
  | node symbol children =>
      by_cases closed : isNonterminal symbol = true
      · cases children with
        | nil =>
            simp [usedKeys, ownKey?, exposed, expansionText?, Tree.symbol, Tree.children, closed,
              forestUsedKeys]
        | cons child rest =>
            simp [usedKeys, ownKey?, exposed, expansionText?, Tree.symbol, Tree.children, closed,
              forestUsedKeys_eq]
      · simp [usedKeys, ownKey?, exposed, Tree.symbol, closed]

theorem ownKey?_eq_some_iff (closed : isNonterminal node.symbol = true) :
    node.ownKey? = some key ↔ node.children ≠ [] ∧
      key = Key.ofText node.symbol (String.join (node.children.map Tree.symbol)) := by
  rw [ownKey?, if_pos closed, expansionText?, eq_comm (a := key)]
  by_cases none : node.children = []
  · simp [none]
  · simp [none]

/-- Something is shown at the root, or by a child of a nonterminal. -/
theorem shows_iff : tree.Shows key ↔
    tree.ownKey? = some key ∨ ∃ child ∈ tree.exposed, child.Shows key := by
  constructor
  · rintro ⟨path, node, exposes, parent, spelled⟩
    cases path with
    | nil =>
        obtain ⟨closed, rfl⟩ := exposes_nil.mp exposes
        exact .inl ((ownKey?_eq_some_iff closed).mpr ⟨parent, spelled⟩)
    | cons position path =>
        obtain ⟨closed, child, found, exposes⟩ := exposes_cons.mp exposes
        have listed := mem_exposed.mpr ⟨closed, List.mem_of_getElem? found⟩
        exact .inr ⟨child, listed, path, node, exposes, parent, spelled⟩
  · rintro (own | ⟨child, listed, path, node, exposes, shown⟩)
    · have closed : isNonterminal tree.symbol = true := by
        by_contra opened
        simp [ownKey?, opened] at own
      exact ⟨[], tree, exposes_nil.mpr ⟨closed, rfl⟩, (ownKey?_eq_some_iff closed).mp own⟩
    · obtain ⟨closed, member⟩ := mem_exposed.mp listed
      obtain ⟨position, found⟩ := List.mem_iff_getElem?.mp member
      exact ⟨position :: path, node, exposes_cons.mpr ⟨closed, child, found, exposes⟩, shown⟩

/-- The keys used in a tree are those that it shows. -/
theorem mem_usedKeys_iff_shows : key ∈ tree.usedKeys ↔ tree.Shows key := by
  induction tree using induct with
  | pending symbol =>
      rw [shows_iff]
      simp [usedKeys, ownKey?, exposed, expansionText?, Tree.children]
  | node symbol children ih =>
      rw [shows_iff, usedKeys_eq, List.mem_append, Option.mem_toList, List.mem_flatMap]
      exact or_congr_right (exists_congr fun child => and_congr_right fun listed =>
        ih child (mem_exposed.mp listed).2)

end GrammarFuzz.Tree
