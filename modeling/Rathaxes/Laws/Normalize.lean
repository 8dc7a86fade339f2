import Rathaxes.Parse.Normalize

/-!
# What normalising a C tree resolves

A walk treats every node in one of three ways: it looks at it, it only goes into its block, or it leaves it
(`at?_walk`). A declaration whose type is `auto` is resolved when the walk looks at it and it has one word.
With two words the iterator is not at its last one; and a branch or a loop body without braces is no block, so
nothing in it is looked at. These are the only two reasons (`normalised_iff`). A second walk changes nothing.
-/

set_option autoImplicit false

namespace Rathaxes.Parse

/-! ## One walk -/

/-- The call for a node. -/
def walk : Visit → CNode → CNode
  | .check => cnormcheck
  | .normalize => normalize
  | .skip => id

/-- How the nodes in a node are treated when it is treated in some way. -/
def Visit.next : Visit → NodeType → Slot → Visit
  | .check, type, slot => type.visits slot
  | .normalize, type, slot => if type.isBlock ∧ slot = .block then .check else .skip
  | .skip, _, _ => .skip

/-- What becomes of the attributes of a node. -/
def Visit.pass (visit : Visit) (head : Head) : Head :=
  if visit = .check ∧ head.type.isDecl then cnormpass head else head

theorem cnormcheckAll_eq_map (type : NodeType) : ∀ children : List CNode,
    cnormcheckAll type children = children.map fun child => walk (type.visits child.slot) child
  | [] => rfl
  | child :: children => by
    rw [cnormcheckAll, List.map_cons, cnormcheckAll_eq_map type children]
    cases type.visits child.slot <;> rfl

theorem normalizeAll_eq_map : ∀ children : List CNode,
    normalizeAll children =
      children.map fun child => if child.slot = .block then cnormcheck child else child
  | [] => rfl
  | child :: children => by rw [normalizeAll, List.map_cons, normalizeAll_eq_map children]

/-- **One equation for the two functions**: the attributes are passed on, and each node inside is treated in
its way. -/
theorem walk_mk (visit : Visit) (slot : Slot) (head : Head) (children : List CNode) :
    walk visit (.mk slot head children) = .mk slot (visit.pass head)
      (children.map fun child => walk (visit.next head.type child.slot) child) := by
  cases visit with
  | check =>
    simp [walk, cnormcheck, Visit.pass, Visit.next, cnormcheckAll_eq_map]
  | normalize =>
    by_cases hblock : head.type.isBlock = true
    · simp only [walk, normalize, hblock, if_true, normalizeAll_eq_map, Visit.pass, Visit.next,
        reduceCtorEq, false_and, if_false, true_and]
      congr 1
      refine List.map_congr_left fun child _ => ?_
      split <;> rfl
    · simp [walk, normalize, hblock, Visit.pass, Visit.next]
  | skip => simp [walk, Visit.pass, Visit.next]

theorem slot_walk (visit : Visit) (node : CNode) : (walk visit node).slot = node.slot := by
  obtain ⟨slot, head, children⟩ := node
  rw [walk_mk]
  rfl

theorem head_walk (visit : Visit) (node : CNode) : (walk visit node).head = visit.pass node.head := by
  obtain ⟨slot, head, children⟩ := node
  rw [walk_mk]
  rfl

/-! ## Positions -/

/-- The node at a position, given by the places in the nodes on the way. -/
def CNode.at? : List Nat → CNode → Option CNode
  | [], node => some node
  | i :: path, node => node.children[i]?.bind (CNode.at? path)

/-- How a walk treats the node at a position. -/
def Visit.at : List Nat → Visit → CNode → Visit
  | [], visit, _ => visit
  | i :: path, visit, node =>
    match node.children[i]? with
    | some child => Visit.at path (visit.next node.head.type child.slot) child
    | none => .skip

/-- **A walk** treats the node at a position in the way this position has. -/
theorem at?_walk : ∀ (path : List Nat) (visit : Visit) (node : CNode),
    (walk visit node).at? path = (node.at? path).map (walk (Visit.at path visit node))
  | [], _, _ => rfl
  | i :: path, visit, .mk slot head children => by
    rw [walk_mk]
    simp only [CNode.at?, Visit.at, CNode.children, CNode.head, List.getElem?_map]
    cases children[i]? with
    | none => rfl
    | some child => exact at?_walk path _ child

/-! ## A second walk -/

theorem type_cnormpass (head : Head) : (cnormpass head).type = head.type := by
  unfold cnormpass
  split
  · simp only
    split_ifs <;> rfl
  · rfl

/-- A declaration is passed once: what the pass changes has no words left. -/
theorem cnormpass_cnormpass (head : Head) : cnormpass (cnormpass head) = cnormpass head := by
  have hcases : cnormpass head = head ∨ (cnormpass head).ctype.unknown = none := by
    unfold cnormpass
    split
    · simp only
      split_ifs with _ hlast _ hlast
      · exact Or.inr (by simp [removeLastElement, hlast])
      · exact Or.inl rfl
      · exact Or.inr (by simp [removeLastElement, hlast])
      · exact Or.inl rfl
      · exact Or.inl rfl
    · exact Or.inl rfl
  rcases hcases with hsame | hnone
  · rw [hsame, hsame]
  · rw [cnormpass, hnone]

theorem type_pass (visit : Visit) (head : Head) : (visit.pass head).type = head.type := by
  unfold Visit.pass
  split
  · exact type_cnormpass head
  · rfl

theorem pass_pass (visit : Visit) (head : Head) : visit.pass (visit.pass head) = visit.pass head := by
  by_cases hpass : visit = .check ∧ head.type.isDecl
  · simp [Visit.pass, hpass, type_cnormpass, cnormpass_cnormpass]
  · simp [Visit.pass, hpass]

/-- **A second walk changes nothing**, by induction on the tree. -/
theorem walk_walk (visit : Visit) : ∀ node : CNode, walk visit (walk visit node) = walk visit node
  | .mk slot head children => by
    rw [walk_mk, walk_mk, pass_pass, type_pass, List.map_map]
    congr 1
    refine List.map_congr_left fun child hchild => ?_
    have : sizeOf child < sizeOf children := List.sizeOf_lt_of_mem hchild
    simp only [Function.comp_apply, slot_walk]
    exact walk_walk (visit.next head.type child.slot) child
termination_by node => sizeOf node

/-! ## Declarations -/

/-- A declaration to resolve: its type is `auto`, and it has words. -/
structure Unresolved (head : Head) (words : List String) : Prop where
  decl : head.type.isDecl = true
  auto : head.ctype.identifier = "auto"
  unknown : head.ctype.unknown = some words
  some_word : words ≠ []

/-- Its last word is its type, and the others are left. -/
structure Resolved (words : List String) (head : Head) : Prop where
  identifier : words.getLast? = some head.ctype.identifier
  unknown : head.ctype.unknown.getD [] = words.dropLast

/-- The walk resolves a declaration when it looks at it and there is one word. -/
theorem resolved_pass_iff {visit : Visit} {head : Head} {words : List String} (h : Unresolved head words) :
    Resolved words (visit.pass head) ↔ words.length = 1 ∧ visit = .check := by
  obtain ⟨hdecl, hauto, hunknown, hne⟩ := h
  -- a declaration that stays as it is keeps all its words
  have hkept : ¬ Resolved words head := by
    intro hres
    have hall := hres.unknown
    rw [hunknown, Option.getD_some] at hall
    have hlength := congrArg List.length hall
    have hpos := List.length_pos_of_ne_nil hne
    rw [List.length_dropLast] at hlength
    omega
  cases words with
  | nil => exact absurd rfl hne
  | cons word words =>
    by_cases hcheck : visit = .check
    · cases words with
      | nil =>
        have hpass : visit.pass head =
            { head with ctype := { head.ctype with identifier := word, unknown := none } } := by
          simp [Visit.pass, hcheck, hdecl, cnormpass, hunknown, hauto, removeLastElement]
        rw [hpass]
        exact ⟨fun _ => ⟨rfl, hcheck⟩, fun _ => ⟨rfl, rfl⟩⟩
      | cons word' words =>
        have hpass : visit.pass head = head := by
          simp [Visit.pass, hcheck, hdecl, cnormpass, hunknown, hauto]
        rw [hpass]
        simpa using hkept
    · have hpass : visit.pass head = head := by simp [Visit.pass, hcheck]
      rw [hpass]
      simpa [hcheck] using hkept

/-- A tree whose declarations the normalisation resolves, and which a second one leaves as it is. -/
structure Normalised (tree : CNode) : Prop where
  resolved : ∀ path node words, tree.at? path = some node → Unresolved node.head words →
    ∃ node', (normalize tree).at? path = some node' ∧ Resolved words node'.head
  stable : normalize (normalize tree) = normalize tree

/-- **The trees that are normalised** are those in which every declaration to resolve has one word and is at a
position the walk looks at. -/
theorem normalised_iff (tree : CNode) :
    Normalised tree ↔ ∀ path node words, tree.at? path = some node → Unresolved node.head words →
      words.length = 1 ∧ Visit.at path .normalize tree = .check := by
  -- at a position the walk leaves the head it makes of the one there
  have hat : ∀ {path node words}, tree.at? path = some node →
      ((∃ node', (normalize tree).at? path = some node' ∧ Resolved words node'.head) ↔
        Resolved words ((Visit.at path .normalize tree).pass node.head)) := by
    intro path node words hnode
    have hrun := at?_walk path .normalize tree
    rw [hnode, Option.map_some] at hrun
    change (normalize tree).at? path = _ at hrun
    rw [hrun, ← head_walk]
    simp
  constructor
  · intro h path node words hnode hwords
    exact (resolved_pass_iff hwords).1 ((hat hnode).1 (h.resolved path node words hnode hwords))
  · intro h
    refine ⟨fun path node words hnode hwords => ?_, walk_walk .normalize tree⟩
    exact (hat hnode).2 ((resolved_pass_iff hwords).2 (h path node words hnode hwords))

/-! ## Two words, and a branch without braces -/

/-- A declaration with these words for its type. -/
def autoDecl (slot : Slot) (words : List String) : CNode :=
  .mk slot ⟨.decl, some "x", ⟨"auto", "", some words⟩⟩ []

/-- A node without a type. -/
def plainNode (slot : Slot) (type : NodeType) (children : List CNode) : CNode :=
  .mk slot ⟨type, none, ⟨"", "", none⟩⟩ children

/-- A block with `unsigned u32 x;` and `if (..) (u32) x;`, where the cast is in a branch without braces. -/
def looseTree : CNode :=
  plainNode .block .rootBlock
    [autoDecl .block ["unsigned", "u32"],
     plainNode .block .other [plainNode .thenPart .other [autoDecl .left ["u32"]]]]

/-- Neither declaration is resolved: the type of both is `auto` as before. -/
theorem words_left_unresolved :
    ((normalize looseTree).at? [0]).map CNode.head =
        some ⟨.decl, some "x", ⟨"auto", "", some ["unsigned", "u32"]⟩⟩ ∧
      ((normalize looseTree).at? [1, 0, 0]).map CNode.head =
        some ⟨.decl, some "x", ⟨"auto", "", some ["u32"]⟩⟩ := by
  decide

end Rathaxes.Parse
