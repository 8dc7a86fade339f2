import Rathaxes.Laws.PlaceHolders

/-!
# Types of placeholders

The type of a placeholder in an expression is what is in `this.phtype` when the walk comes to it. That should
follow from the operators on the way to it. But `this.phtype` is set back behind each operand only. What is visited
before the placeholder, beside the way to it, may do that or not; and a part of an index may not be visited at all.
-/

set_option autoImplicit false

namespace Rathaxes

/-- The child of an expression the way goes on to. -/
inductive Place where
  | left
  | right
  | condition
  | thenPart
  | elsePart
  | body
  | index (j : Nat)
  | arg (j k : Nat)
deriving DecidableEq

namespace Place

/-- The steps to the child, the last one first. -/
def steps : Place → Address
  | left => [.attr .left]
  | right => [.attr .right]
  | condition => [.attr .condition]
  | thenPart => [.attr .thenPart]
  | elsePart => [.attr .elsePart]
  | body => [.attr .body]
  | index j => [.entry .list j]
  | arg j k => [.entry .args k, .entry .list j]

/-- The child is an index. -/
def isIndex : Place → Bool
  | index _ => true
  | _ => false

/-- The child is in the list of the expression. -/
def inList : Place → Bool
  | index _ => true
  | arg _ _ => true
  | _ => false

end Place

/-- A step on the way to a placeholder: the type and the operator of the expression, and the child. -/
structure Turn where
  exprType : String
  operator : String
  place : Place
deriving DecidableEq

/-- The argument of a call in the list of an expression. -/
def Postfix.arg? (k : Nat) : Postfix → Option CTree
  | call args => args[k]?
  | index _ => none

/-- The index in the list of an expression. -/
def Postfix.index? : Postfix → Option CTree
  | index expr => some expr
  | call _ => none

/-- The child a turn goes on to, if the expression is of its type and has its operator. -/
def CTree.take (turn : Turn) : CTree → Option CTree
  | expr exprType operator left right condition thenExpr elseExpr body list =>
    if turn.exprType = exprType ∧ turn.operator = operator then
      match turn.place with
      | .left => left
      | .right => right
      | .condition => condition
      | .thenPart => thenExpr
      | .elsePart => elseExpr
      | .body => body
      | .index j => list[j]?.bind Postfix.index?
      | .arg j k => list[j]?.bind (Postfix.arg? k)
    else none
  | _ => none

/-- Only an expression of the turn's own type and operator has a child to go on to. -/
theorem CTree.expr_of_take {turn : Turn} {node child : CTree} (h : node.take turn = some child) :
    ∃ left right condition thenExpr elseExpr body list,
      node = .expr turn.exprType turn.operator left right condition thenExpr elseExpr body list := by
  cases node with
  | expr exprType operator left right condition thenExpr elseExpr body list =>
    simp only [CTree.take] at h
    split at h
    case isFalse => cases h
    case isTrue heq =>
      obtain ⟨rfl, rfl⟩ := heq
      exact ⟨left, right, condition, thenExpr, elseExpr, body, list, rfl⟩
  | block | decl | terminal | stmt | indexDesignation | fieldDesignation | pointcutRaw => cases h

theorem Postfix.index_of_bind {list : List Postfix} {j : Nat} {child : CTree}
    (h : list[j]?.bind Postfix.index? = some child) : list[j]? = some (.index child) := by
  obtain ⟨x, hx, hchild⟩ := Option.bind_eq_some_iff.1 h
  cases x with
  | call args => cases hchild
  | index expr =>
    cases hchild
    exact hx

theorem Postfix.call_of_bind {list : List Postfix} {j k : Nat} {child : CTree}
    (h : list[j]?.bind (Postfix.arg? k) = some child) : ∃ args, list[j]? = some (.call args) ∧ args[k]? = some child := by
  obtain ⟨x, hx, hchild⟩ := Option.bind_eq_some_iff.1 h
  cases x with
  | index expr => cases hchild
  | call args => exact ⟨args, hx, hchild⟩

/-- The node at the end of a way. -/
def CTree.follow : List Turn → CTree → Option CTree
  | [], node => some node
  | turn :: path, node => (node.take turn).bind (follow path)

namespace Back

open CodeWorker

/-! ## What a walk leaves in `this.phtype` -/

/-- The event sets `this.phtype`. -/
def Event.isSet : Event → Bool
  | set _ => true
  | text _ => false
  | init => false

/-- Behind the events `this.phtype` is what it was, or set back. -/
structure Settles (es : List Event) : Prop where
  ofSome : ∀ v, phtypeAfter es (some v) = some (if es.any Event.isSet then .copy else v)
  ofNone : phtypeAfter es none = none ∨ phtypeAfter es none = some .copy

namespace Settles

theorem nil : Settles [] := ⟨fun _ => rfl, Or.inl rfl⟩

theorem text (x : Site) : Settles [.text x] := ⟨fun _ => rfl, Or.inl rfl⟩

theorem init : Settles [.init] := ⟨fun _ => rfl, Or.inr rfl⟩

theorem append {es fs : List Event} (h : Settles es) (h' : Settles fs) : Settles (es ++ fs) where
  ofSome v := by
    rw [phtypeAfter_append, h.ofSome, h'.ofSome, List.any_append]
    cases es.any Event.isSet with
    | true => simp
    | false => simp
  ofNone := by
    rw [phtypeAfter_append]
    rcases h.ofNone with hnone | hcopy
    · rw [hnone]
      exact h'.ofNone
    · rw [hcopy, h'.ofSome]
      exact Or.inr (by simp)

theorem hide : ∀ es : List Event, Settles (hide es)
  | [] => nil
  | .text x :: es => (text { x with role := .unvisited }).append (hide es)
  | .init :: es => hide es
  | .set _ :: es => hide es

theorem shown {es : List Event} (h : Settles es) (visited : Bool) : Settles (shown visited es) := by
  cases visited with
  | true => exact h
  | false => exact hide es

theorem operand {es : List Event} (h : Settles es) (present points : Bool) : Settles (operand present points es) := by
  cases present with
  | false =>
    have hes : Back.operand false points es = es := by simp [Back.operand, pointing, resting]
    rw [hes]
    exact h
  | true =>
    have hrest : ∀ p, phtypeAfter (Back.operand true points es) p = some .copy := by
      intro p
      unfold Back.operand
      rw [phtypeAfter_append]
      rfl
    have hany : (Back.operand true points es).any Event.isSet = true := by
      unfold Back.operand
      rw [List.any_append]
      exact Bool.or_true _
    refine ⟨fun v => ?_, Or.inr (hrest none)⟩
    rw [hrest, hany, if_pos rfl]

end Settles

mutual

/-- A walk over a node leaves `this.phtype` as it was, or sets it back. -/
theorem settles_events (A : Address) (i : Int) : ∀ node : CTree, Settles (events A i node)
  | .block _ items => settles_eventsList _ _ 0 items
  | .decl _ ctype name colonExpr assignExpr body =>
    ((((settles_eventsTypes A i 0 ctype).append (.text _)).append (settles_eventsOpt _ i colonExpr)).append
      (settles_eventsOpt _ i assignExpr)).append (settles_eventsOpt _ i body)
  | .expr exprType operator left right condition thenExpr elseExpr body list => by
    have hoperands := (Settles.init.append
      ((settles_eventsOpt (.attr .left :: A) i left).operand left.isSome (pointsLeft exprType operator))).append
      ((settles_eventsOpt (.attr .right :: A) i right).operand right.isSome (pointsRight exprType operator))
    have hparts := (((hoperands.append (settles_eventsOpt (.attr .condition :: A) i condition)).append
      (settles_eventsOpt (.attr .thenPart :: A) i thenExpr)).append
      (settles_eventsOpt (.attr .elsePart :: A) i elseExpr)).append (settles_eventsOpt (.attr .body :: A) i body)
    exact hparts.append (settles_eventsPostfixes A i 0 list)
  | .terminal _ => Settles.init.append (.text _)
  | .stmt expr label condition thenStmt elseStmt initial increment body => by
    have hparts := (((settles_eventsTarget (.attr .expr :: A) i expr).append (.text ⟨.attr .label :: A, i, .identifier, label⟩)).append
      (settles_eventsOpt (.attr .condition :: A) i condition)).append (settles_eventsBody (.attr .thenPart :: A) i thenStmt)
    exact (((hparts.append (settles_eventsBody _ i elseStmt)).append (settles_eventsOpt _ i initial)).append
      (settles_eventsOpt _ i increment)).append (settles_eventsBody _ i body)
  | .indexDesignation index expr => (settles_events _ i index).append (settles_events _ i expr)
  | .fieldDesignation _ expr => (Settles.text _).append (settles_events _ i expr)
  | .pointcutRaw _ => .text _

theorem settles_eventsOpt (A : Address) (i : Int) : ∀ node : Option CTree, Settles (eventsOpt A i node)
  | none => .nil
  | some node => settles_events A i node

theorem settles_eventsTarget (A : Address) (i : Int) : ∀ node : Option CTree, Settles (eventsTarget A i node)
  | none => .nil
  | some node => by
    rw [eventsTarget]
    split
    · exact .text _
    · exact settles_events A i node

theorem settles_eventsBody (A : Address) (i : Int) : ∀ node : Option CTree, Settles (eventsBody A i node)
  | none => .nil
  | some node => by
    rw [eventsBody]
    split
    · exact settles_events A i node
    · exact settles_events _ 0 node

theorem settles_eventsList (place : Nat → Address × Int) (visits : CTree → Bool) :
    ∀ (j : Nat) (nodes : List CTree), Settles (eventsList place visits j nodes)
  | _, [] => .nil
  | j, node :: nodes => ((settles_events _ _ node).shown _).append (settles_eventsList place visits (j + 1) nodes)

theorem settles_eventsTypes (A : Address) (i : Int) :
    ∀ (j : Nat) (types : List CType), Settles (eventsTypes A i j types)
  | _, [] => .nil
  | j, .mk body _ list param enum :: types =>
    (((((settles_eventsOpt _ i body).append (.text _)).append (settles_eventsList _ _ 0 list)).append
      (settles_eventsOpt _ i param)).append (settles_eventsList _ _ 0 enum)).append (settles_eventsTypes A i (j + 1) types)

theorem settles_eventsPostfixes (A : Address) (i : Int) :
    ∀ (j : Nat) (items : List Postfix), Settles (eventsPostfixes A i j items)
  | _, [] => .nil
  | j, .index expr :: items =>
    ((settles_events _ i expr).shown _).append (settles_eventsPostfixes A i (j + 1) items)
  | j, .call args :: items => (settles_eventsList _ _ 0 args).append (settles_eventsPostfixes A i (j + 1) items)

end

/-- The states in which a walk over an expression may begin: whatever was compiled before, into this table or another. -/
inductive Reached : Walk → Prop where
  | start : Reached .start
  | compiled {s : Walk} (A : Address) (i : Int) (node : CTree) : Reached s → Reached (compile A i node s).2
  | table {s : Walk} : Reached s → Reached ⟨Table.empty, 0, s.phtype⟩

theorem Reached.numbered {s : Walk} (h : Reached s) : Numbered s := by
  induction h with
  | start => rfl
  | compiled A i node _ ih =>
    rw [compile_run]
    exact (ran _ ih).numbered ih
  | table _ _ => rfl

/-- Between two walks `this.phtype` is not there yet or set back. -/
theorem Reached.phtype {s : Walk} (h : Reached s) : s.phtype.getD .copy = .copy := by
  have hrest : s.phtype = none ∨ s.phtype = some .copy := by
    induction h with
    | start => exact Or.inl rfl
    | @compiled s A i node hs ih =>
      have hsettles := settles_events A i node
      rw [compile_run, (ran _ hs.numbered).phtype]
      rcases ih with hnone | hcopy
      · rw [hnone]
        exact hsettles.ofNone
      · rw [hcopy, hsettles.ofSome]
        exact Or.inr (by simp)
    | table _ ih => exact ih
  rcases hrest with hnone | hcopy
  · rw [hnone]
    rfl
  · rw [hcopy]
    rfl

/-! ## One turn -/

/-- The type on the way behind a turn, from the one before it, where `this.phtype` may have been set back in between. -/
def typeIn (turn : Turn) (reset : Bool) (v : PhType) : PhType :=
  match turn.place with
  | .left => if pointsLeft turn.exprType turn.operator then .pointer else v
  | .right =>
    if pointsRight turn.exprType turn.operator then .pointer else if reset then .copy else v
  | _ => if reset then .copy else v

/-- What is done with an expression before its list. -/
def parts (A : Address) (i : Int) (exprType operator : String) (left right condition thenExpr elseExpr body : Option CTree) :
    List Event :=
  [.init] ++ operand left.isSome (pointsLeft exprType operator) (eventsOpt (.attr .left :: A) i left) ++
    operand right.isSome (pointsRight exprType operator) (eventsOpt (.attr .right :: A) i right) ++
    eventsOpt (.attr .condition :: A) i condition ++ eventsOpt (.attr .thenPart :: A) i thenExpr ++
    eventsOpt (.attr .elsePart :: A) i elseExpr ++ eventsOpt (.attr .body :: A) i body

/-- What is done before the child at a place. -/
def earlier (A : Address) (i : Int) (place : Place) : CTree → List Event
  | .expr exprType operator left right condition thenExpr elseExpr body list =>
    let before := parts A i exprType operator
    match place with
    | .left => [.init] ++ pointing left.isSome (pointsLeft exprType operator)
    | .right => before left none none none none none ++ pointing right.isSome (pointsRight exprType operator)
    | .condition => before left right none none none none
    | .thenPart => before left right condition none none none
    | .elsePart => before left right condition thenExpr none none
    | .body => before left right condition thenExpr elseExpr none
    | .index j => before left right condition thenExpr elseExpr body ++ eventsPostfixes A i 0 (list.take j)
    | .arg j k =>
      before left right condition thenExpr elseExpr body ++ eventsPostfixes A i 0 (list.take j) ++
        match list[j]? with
        | some (.call args) =>
          eventsList (fun k => (.entry .args k :: .entry .list j :: A, i)) CTree.isExpr 0 (args.take k)
        | _ => []
  | _ => []

/-- The second state comes behind the first in a walk. -/
def Later (s t : Walk) : Prop := ∃ es, t = run es s

namespace Later

variable {s t u : Walk}

theorem refl (s : Walk) : Later s s := ⟨[], rfl⟩

theorem run (h : Later s t) (es : List Event) : Later s (run es t) := by
  obtain ⟨fs, rfl⟩ := h
  exact ⟨fs ++ es, (run_append fs es s).symm⟩

theorem trans (h : Later s t) (h' : Later t u) : Later s u := by
  obtain ⟨es, rfl⟩ := h'
  exact h.run es

/-- What is in the table stays in it. -/
theorem get? (h : Later s t) (hs : Numbered s) {key : String} {entry : Entry}
    (hget : s.compile.get? key = some entry) : t.compile.get? key = some entry := by
  obtain ⟨es, rfl⟩ := h
  rw [← Table.mem_entries_iff] at hget ⊢
  rw [(ran es hs).entries]
  exact List.mem_append_left _ hget

end Later

theorem compilePostfixes_cons (A : Address) (i : Int) (j : Nat) (x : Postfix) (xs : List Postfix) (s : Walk) :
    compilePostfixes A i j (x :: xs) s =
      ((compilePostfixes A i j [x] s).1 ++ (compilePostfixes A i (j + 1) xs (compilePostfixes A i j [x] s).2).1,
        (compilePostfixes A i (j + 1) xs (compilePostfixes A i j [x] s).2).2) := by
  cases x with
  | index expr =>
    simp only [compilePostfixes]
    split <;> rfl
  | call args => rfl

theorem length_compilePostfixes_singleton (A : Address) (i : Int) (j : Nat) (x : Postfix) (s : Walk) :
    (compilePostfixes A i j [x] s).1.length = 1 := by
  cases x with
  | index expr =>
    simp only [compilePostfixes]
    split <;> rfl
  | call args => rfl

/-- An entry of the list after the walk, and the state in which it is visited. -/
theorem getElem?_compilePostfixes (A : Address) (i : Int) {x : Postfix} :
    ∀ (n j : Nat) (items : List Postfix) (s : Walk), items[j]? = some x →
      (compilePostfixes A i n items s).1[j]? =
          (compilePostfixes A i (n + j) [x] (run (eventsPostfixes A i n (items.take j)) s)).1[0]? ∧
        Later (compilePostfixes A i (n + j) [x] (run (eventsPostfixes A i n (items.take j)) s)).2
          (compilePostfixes A i n items s).2
  | n, 0, y :: items, s, h => by
    cases h
    have hlength := length_compilePostfixes_singleton A i n x s
    rw [compilePostfixes_cons]
    refine ⟨?_, ?_⟩
    · rw [List.getElem?_append_left (by rw [hlength]; exact Nat.zero_lt_one)]
      rfl
    · rw [compilePostfixes_run A i (n + 1)]
      exact (Later.refl _).run _
  | n, j + 1, y :: items, s, h => by
    have hlength := length_compilePostfixes_singleton A i n y s
    have hstate : run (eventsPostfixes A i n ((y :: items).take (j + 1))) s =
        run (eventsPostfixes A i (n + 1) (items.take j)) (compilePostfixes A i n [y] s).2 := by
      rw [← compilePostfixes_run, ← compilePostfixes_run, List.take_succ_cons, compilePostfixes_cons]
    have ih := getElem?_compilePostfixes A i (n + 1) j items (compilePostfixes A i n [y] s).2 h
    rw [hstate, compilePostfixes_cons, show n + (j + 1) = n + 1 + j by omega]
    refine ⟨?_, ih.2⟩
    rw [List.getElem?_append_right (by rw [hlength]; omega), hlength]
    exact ih.1

/-- A node of a list after the walk, and the state in which it is visited. -/
theorem getElem?_compileList (place : Nat → Address × Int) {visits : CTree → Bool} {node : CTree}
    (hvisit : visits node = true) :
    ∀ (n k : Nat) (nodes : List CTree) (s : Walk), nodes[k]? = some node →
      (compileList place visits n nodes s).1[k]? =
          some (compile (place (n + k)).1 (place (n + k)).2 node (run (eventsList place visits n (nodes.take k)) s)).1 ∧
        Later (compile (place (n + k)).1 (place (n + k)).2 node (run (eventsList place visits n (nodes.take k)) s)).2
          (compileList place visits n nodes s).2
  | n, 0, first :: nodes, s, h => by
    cases h
    simp only [compileList, hvisit, ↓reduceIte]
    refine ⟨rfl, ?_⟩
    rw [compileList_run]
    exact (Later.refl _).run _
  | n, k + 1, first :: nodes, s, h => by
    have ih := fun s => getElem?_compileList place hvisit (n + 1) k nodes s h
    rw [show n + (k + 1) = n + 1 + k by omega]
    cases hfirst : visits first with
    | true =>
      simp only [compileList, List.take_succ_cons, eventsList, shown, hfirst, ↓reduceIte, run_append]
      rw [← compile_run]
      exact ih _
    | false =>
      simp only [compileList, List.take_succ_cons, eventsList, shown, hfirst, Bool.false_eq_true, ↓reduceIte, run_append,
        run_hide]
      exact ih _

section

variable (A : Address) (i : Int) (exprType operator : String) (left right condition thenExpr elseExpr body : Option CTree)
  (list : List Postfix) (s : Walk)

theorem take_index (j : Nat) :
    (compile A i (.expr exprType operator left right condition thenExpr elseExpr body list) s).1.take
        ⟨exprType, operator, .index j⟩ =
      (compilePostfixes A i 0 list (run (parts A i exprType operator left right condition thenExpr elseExpr body) s)).1[j]?.bind
        Postfix.index? := by
  simp only [compile, CTree.take, and_self, ↓reduceIte, compileOpt_run, parts, operand, run_append, run_pointing,
    run_resting]
  rfl

theorem take_arg (j k : Nat) :
    (compile A i (.expr exprType operator left right condition thenExpr elseExpr body list) s).1.take
        ⟨exprType, operator, .arg j k⟩ =
      (compilePostfixes A i 0 list (run (parts A i exprType operator left right condition thenExpr elseExpr body) s)).1[j]?.bind
        (Postfix.arg? k) := by
  simp only [compile, CTree.take, and_self, ↓reduceIte, compileOpt_run, parts, operand, run_append, run_pointing,
    run_resting]
  rfl

/-- The list comes last. -/
theorem compilePostfixes_last :
    (compilePostfixes A i 0 list (run (parts A i exprType operator left right condition thenExpr elseExpr body) s)).2 =
      (compile A i (.expr exprType operator left right condition thenExpr elseExpr body list) s).2 := by
  rw [compile_run, compilePostfixes_run, ← run_append]
  rfl

end

/-- A child that is visited: what it is after the walk, and the state in which it is visited. -/
theorem take_compile {turn : Turn} {node child : CTree} (h : node.take turn = some child)
    (hseen : (turn.place.isIndex && child.hasList) = false) (hexpr : child.isExpr = true) (A : Address) (i : Int)
    (s : Walk) :
    (compile A i node s).1.take turn =
        some (compile (turn.place.steps ++ A) i child (run (earlier A i turn.place node) s)).1 ∧
      Later (compile (turn.place.steps ++ A) i child (run (earlier A i turn.place node) s)).2 (compile A i node s).2 := by
  obtain ⟨left, right, condition, thenExpr, elseExpr, body, list, rfl⟩ := CTree.expr_of_take h
  obtain ⟨exprType, operator, place⟩ := turn
  simp only [CTree.take, and_self, ↓reduceIte] at h
  -- the tree after the walk has the same children, each visited behind the earlier ones
  cases place with
  | left | right | condition | thenPart | elsePart | body =>
    subst h
    refine ⟨?_, ?_⟩
    · simp only [compile, CTree.take, and_self, ↓reduceIte, compileOpt, compileOpt_run, earlier, parts, operand, run_append,
        run_pointing, run_resting]
      rfl
    · rw [compile_run, compile_run]
      simp only [events, operand, run_append, eventsOpt, earlier, parts]
      repeat first
        | exact Later.refl _
        | apply Later.run
  | index j =>
    have hshort : child.hasList = false := hseen
    obtain ⟨hget, hlater⟩ := getElem?_compilePostfixes A i 0 j list
      (run (parts A i exprType operator left right condition thenExpr elseExpr body) s) (Postfix.index_of_bind h)
    rw [compilePostfixes_last] at hlater
    simp only [compilePostfixes, hshort, Bool.false_eq_true, ↓reduceIte, Nat.zero_add, ← run_append] at hget hlater
    refine ⟨?_, hlater⟩
    rw [take_index, hget]
    rfl
  | arg j k =>
    obtain ⟨args, hargs, hchild⟩ := Postfix.call_of_bind h
    obtain ⟨hget, hlater⟩ := getElem?_compilePostfixes A i 0 j list
      (run (parts A i exprType operator left right condition thenExpr elseExpr body) s) hargs
    rw [compilePostfixes_last] at hlater
    simp only [compilePostfixes, Nat.zero_add, ← run_append] at hget hlater
    obtain ⟨harg, hlater'⟩ := getElem?_compileList (fun k => (.entry .args k :: .entry .list j :: A, i)) hexpr 0 k
      args (run (parts A i exprType operator left right condition thenExpr elseExpr body ++
        eventsPostfixes A i 0 (list.take j)) s) hchild
    simp only [Nat.zero_add, ← run_append] at harg hlater'
    simp only [earlier, hargs]
    refine ⟨?_, hlater'.trans hlater⟩
    rw [take_arg, hget]
    exact harg

/-- An index with a list is not visited. -/
theorem take_compile_hidden {turn : Turn} {node child : CTree} (h : node.take turn = some child)
    (hindex : turn.place.isIndex = true) (hlist : child.hasList = true) (A : Address) (i : Int) (s : Walk) :
    (compile A i node s).1.take turn = some child := by
  obtain ⟨left, right, condition, thenExpr, elseExpr, body, list, rfl⟩ := CTree.expr_of_take h
  obtain ⟨exprType, operator, place⟩ := turn
  simp only [CTree.take, and_self, ↓reduceIte] at h
  cases place with
  | index j =>
    obtain ⟨hget, _⟩ := getElem?_compilePostfixes A i 0 j list
      (run (parts A i exprType operator left right condition thenExpr elseExpr body) s) (Postfix.index_of_bind h)
    simp only [compilePostfixes, hlist, ↓reduceIte] at hget
    rw [take_index, hget]
    rfl
  | left | right | condition | thenPart | elsePart | body | arg => cases hindex

theorem settles_parts (A : Address) (i : Int) (exprType operator : String)
    (left right condition thenExpr elseExpr body : Option CTree) :
    Settles (parts A i exprType operator left right condition thenExpr elseExpr body) :=
  (((((Settles.init.append ((settles_eventsOpt _ i left).operand _ _)).append
    ((settles_eventsOpt _ i right).operand _ _)).append (settles_eventsOpt _ i condition)).append
    (settles_eventsOpt _ i thenExpr)).append (settles_eventsOpt _ i elseExpr)).append (settles_eventsOpt _ i body)

theorem Settles.ofInit {es fs : List Event} (h : Settles es) (hes : es = .init :: fs) (p : Option PhType) :
    phtypeAfter es p = some (if es.any Event.isSet then .copy else p.getD .copy) := by
  have hinit : phtypeAfter es p = phtypeAfter es (some (p.getD .copy)) := by
    rw [hes]
    rfl
  rw [hinit, h.ofSome]

theorem phtypeAfter_pointing (points : Bool) (v : PhType) :
    phtypeAfter (pointing true points) (some v) = some (if points then .pointer else v) := by
  cases points <;> rfl

theorem any_isSet_pointing (present : Bool) : (pointing present false).any Event.isSet = false := by
  cases present <;> rfl

/-- What is done before a child makes its type that of the turn. -/
theorem phtypeAfter_earlier {turn : Turn} {node child : CTree} (h : node.take turn = some child) (A : Address) (i : Int)
    (p : Option PhType) :
    phtypeAfter (earlier A i turn.place node) p =
      some (typeIn turn ((earlier A i turn.place node).any Event.isSet) (p.getD .copy)) := by
  obtain ⟨left, right, condition, thenExpr, elseExpr, body, list, rfl⟩ := CTree.expr_of_take h
  obtain ⟨exprType, operator, place⟩ := turn
  simp only [CTree.take, and_self, ↓reduceIte] at h
  cases place with
  | left =>
    subst h
    exact phtypeAfter_pointing _ _
  | right =>
    subst h
    have hleft := settles_parts A i exprType operator left none none none none none
    show phtypeAfter (parts A i exprType operator left none none none none none ++
      pointing true (pointsRight exprType operator)) p = _
    rw [phtypeAfter_append, hleft.ofInit rfl, phtypeAfter_pointing]
    cases hpoints : pointsRight exprType operator with
    | true => simp only [typeIn, hpoints, ↓reduceIte]
    | false =>
      simp only [typeIn, earlier, hpoints, List.any_append, any_isSet_pointing, Bool.or_false, Bool.false_eq_true,
        ↓reduceIte]
  | condition => exact (settles_parts A i exprType operator left right none none none none).ofInit rfl p
  | thenPart => exact (settles_parts A i exprType operator left right condition none none none).ofInit rfl p
  | elsePart => exact (settles_parts A i exprType operator left right condition thenExpr none none).ofInit rfl p
  | body => exact (settles_parts A i exprType operator left right condition thenExpr elseExpr none).ofInit rfl p
  | index j =>
    have hparts := settles_parts A i exprType operator left right condition thenExpr elseExpr body
    exact (hparts.append (settles_eventsPostfixes A i 0 (list.take j))).ofInit rfl p
  | arg j k =>
    obtain ⟨args, hargs, -⟩ := Postfix.call_of_bind h
    have hparts := settles_parts A i exprType operator left right condition thenExpr elseExpr body
    have hbefore := (hparts.append (settles_eventsPostfixes A i 0 (list.take j))).append
      (settles_eventsList (fun k => (.entry .args k :: .entry .list j :: A, i)) CTree.isExpr 0 (args.take k))
    simp only [earlier, hargs]
    exact hbefore.ofInit rfl p

/-! ## The way to a placeholder -/

/-- The type in `this.phtype` at the end of a way. -/
def typeAt (A : Address) (i : Int) : List Turn → CTree → PhType → PhType
  | [], _, v => v
  | turn :: path, node, v =>
    match node.take turn with
    | some child =>
      typeAt (turn.place.steps ++ A) i path child (typeIn turn ((earlier A i turn.place node).any Event.isSet) v)
    | none => v

/-- The walk comes to the end of a way. -/
def comesTo : List Turn → CTree → Bool
  | [], _ => true
  | turn :: path, node =>
    match node.take turn with
    | some child => !(turn.place.isIndex && child.hasList) && comesTo path child
    | none => false

/-- The `ph_type` in the table for the terminal at the end of a way, by the key that stands there after the walk. -/
def recordedType (r : CTree × Walk) (path : List Turn) : Option PhType :=
  match CTree.follow path r.1 with
  | some (.terminal key) => (r.2.compile.get? key).map Entry.phType
  | _ => none

theorem isExpr_of_follow {t : String} : ∀ {path : List Turn} {node : CTree},
    CTree.follow path node = some (.terminal t) → node.isExpr = true
  | [], node, h => by
    cases h
    rfl
  | turn :: path, node, h => by
    cases node with
    | expr | terminal => rfl
    | block | decl | stmt | indexDesignation | fieldDesignation | pointcutRaw => cases h

/-- The terminal at the end of a way the walk comes to. -/
theorem follow_compile {t : String} (i : Int) : ∀ (path : List Turn) (A : Address) (node : CTree) (s : Walk),
    CTree.follow path node = some (.terminal t) → comesTo path node = true →
      ∃ B s', CTree.follow path (compile A i node s).1 = some (compile B i (.terminal t) s').1 ∧
        Later s s' ∧ Later (compile B i (.terminal t) s').2 (compile A i node s).2 ∧
        (Numbered s → s'.phtype.getD .copy = typeAt A i path node (s.phtype.getD .copy))
  | [], A, node, s, h, _ => by
    cases h
    exact ⟨A, s, rfl, .refl s, .refl _, fun _ => rfl⟩
  | turn :: path, A, node, s, h, hcomes => by
    obtain ⟨child, htake, hfollow⟩ := Option.bind_eq_some_iff.1 h
    simp only [comesTo, htake, Bool.and_eq_true, Bool.not_eq_true'] at hcomes
    obtain ⟨hchild, hlater⟩ := take_compile htake hcomes.1 (isExpr_of_follow hfollow) A i s
    obtain ⟨B, s', hB, hbefore, hbehind, htype⟩ := follow_compile i path (turn.place.steps ++ A) child
      (run (earlier A i turn.place node) s) hfollow hcomes.2
    refine ⟨B, s', ?_, ((Later.refl s).run _).trans hbefore, hbehind.trans hlater, fun hs => ?_⟩
    · simp only [CTree.follow, hchild]
      exact hB
    · have hran := ran (earlier A i turn.place node) hs
      rw [htype (hran.numbered hs), hran.phtype, phtypeAfter_earlier htake]
      simp only [typeAt, htake]
      rfl

/-- The terminal at the end of a way the walk does not come to. -/
theorem follow_compile_hidden {t : String} (i : Int) : ∀ (path : List Turn) (A : Address) (node : CTree) (s : Walk),
    CTree.follow path node = some (.terminal t) → comesTo path node = false →
      CTree.follow path (compile A i node s).1 = some (.terminal t)
  | turn :: path, A, node, s, h, hcomes => by
    obtain ⟨child, htake, hfollow⟩ := Option.bind_eq_some_iff.1 h
    simp only [comesTo, htake, Bool.and_eq_false_iff, Bool.not_eq_false'] at hcomes
    cases hhidden : turn.place.isIndex && child.hasList with
    | true =>
      rw [Bool.and_eq_true] at hhidden
      simp only [CTree.follow, take_compile_hidden htake hhidden.1 hhidden.2 A i s]
      exact hfollow
    | false =>
      have hrest : comesTo path child = false := hcomes.resolve_left (by simp [hhidden])
      obtain ⟨hchild, _⟩ := take_compile htake hhidden (isExpr_of_follow hfollow) A i s
      simp only [CTree.follow, hchild]
      exact follow_compile_hidden i path _ child _ hfollow hrest

/-- The type in the table is the one on the way, where the walk comes to the placeholder. -/
theorem recordedType_compile {path : List Turn} {node : CTree} {t : String} {s : Walk} (hs : Numbered s)
    (hfollow : CTree.follow path node = some (.terminal t)) (ht : havePlaceHolder t = true) (A : Address) (i : Int) :
    recordedType (compile A i node s) path =
      if comesTo path node then some (typeAt A i path node (s.phtype.getD .copy)) else none := by
  cases hcomes : comesTo path node with
  | true =>
    obtain ⟨B, s', hB, hbefore, hbehind, htype⟩ := follow_compile i path A node s hfollow hcomes
    have hs' : Numbered s' := by
      obtain ⟨es, rfl⟩ := hbefore
      exact (ran es hs).numbered hs
    let x : Site := ⟨.attr .id :: B, i, .terminal, t⟩
    have hx : x.replaced = true := ht
    have hvisit := Site.visit_of_replaced hx s'.initPhtype
    have hterminal : compile B i (.terminal t) s' =
        (.terminal (x.visit s'.initPhtype).1, (x.visit s'.initPhtype).2) := rfl
    rw [hterminal] at hB hbehind
    have hnumbered : Numbered (x.visit s'.initPhtype).2 := (ran [.init, .text x] hs').numbered hs'
    have hvisited : (x.visit s'.initPhtype).2.compile.get? (x.visit s'.initPhtype).1 =
        some (x.entry s'.initPhtype.phtype) := by
      rw [hvisit]
      exact (Table.get?_set _ _ _ _).trans (if_pos rfl)
    have hget := hbehind.get? hnumbered hvisited
    rw [recordedType, hB]
    show ((compile A i node s).2.compile.get? (x.visit s'.initPhtype).1).map Entry.phType = _
    rw [hget, if_pos rfl, ← htype hs, s'.initPhtype_eq]
    rfl
  | false =>
    have hnone : (compile A i node s).2.compile.get? t = none := by
      rw [Option.eq_none_iff_forall_ne_some]
      intro entry hget
      have hmem := List.mem_map_of_mem (f := Prod.fst) ((Table.mem_entries_iff _ _ _).2 hget)
      rw [compile_run, (ran _ hs).numbered hs, List.mem_map] at hmem
      obtain ⟨m, _, rfl⟩ := hmem
      rw [havePlaceHolder_key] at ht
      cases ht
    rw [recordedType, follow_compile_hidden i path A node s hfollow hcomes]
    show ((compile A i node s).2.compile.get? t).map Entry.phType = none
    rw [hnone]
    rfl

/-! ## What follows from the way alone -/

/-- The type at the end of a way, if `this.phtype` is set back beside it at every turn, or at none. -/
def typeAlong (reset : Bool) : List Turn → PhType → PhType
  | [], v => v
  | turn :: path, v => typeAlong reset path (typeIn turn reset v)

/-- The way goes on through the list of the next expression; with a list in every expression, it goes on at all. -/
def entersList (lists : Bool) : List Turn → Bool
  | [] => false
  | turn :: _ => lists || turn.place.inList

/-- The walk comes to the end of the way, with a list in every expression or only where the way goes through one. -/
def visible (lists : Bool) : List Turn → Bool
  | [] => true
  | turn :: path => !(turn.place.isIndex && entersList lists path) && visible lists path

/-- A type between those for a way with and without resets. -/
def Squeezed (low v high : PhType) : Prop := (v = high ∨ v = .copy) ∧ (low = v ∨ low = .copy)

theorem Squeezed.eq_of_eq {low v high : PhType} (h : Squeezed low v high) (heq : low = high) : v = high := by
  rcases h.1 with hv | hv
  · exact hv
  · rcases h.2 with hlow | hlow
    · rw [← hlow, heq]
    · rw [hv, ← hlow, heq]

theorem Squeezed.typeIn {low v high : PhType} (h : Squeezed low v high) (turn : Turn) (reset : Bool) :
    Squeezed (typeIn turn true low) (typeIn turn reset v) (typeIn turn false high) := by
  have hrest : Squeezed .copy (if reset then .copy else v) high := by
    cases reset with
    | true => exact ⟨Or.inr rfl, Or.inl rfl⟩
    | false => exact ⟨h.1, Or.inr rfl⟩
  have hpointer : Squeezed .pointer .pointer .pointer := ⟨Or.inl rfl, Or.inl rfl⟩
  unfold Back.typeIn
  cases turn.place with
  | left =>
    cases pointsLeft turn.exprType turn.operator with
    | true => exact hpointer
    | false => exact h
  | right =>
    cases pointsRight turn.exprType turn.operator with
    | true => exact hpointer
    | false => exact hrest
  | condition | thenPart | elsePart | body | index | arg => exact hrest

theorem squeezed_typeAt {t : String} (i : Int) : ∀ (path : List Turn) (A : Address) (node : CTree) {low v high : PhType},
    CTree.follow path node = some (.terminal t) → Squeezed low v high →
      Squeezed (typeAlong true path low) (typeAt A i path node v) (typeAlong false path high)
  | [], _, _, _, _, _, _, h => h
  | turn :: path, A, node, _, _, _, hfollow, h => by
    obtain ⟨child, htake, hfollow⟩ := Option.bind_eq_some_iff.1 hfollow
    simp only [typeAt, htake]
    exact squeezed_typeAt i path _ child hfollow (h.typeIn turn _)

theorem hasList_of_take {turn : Turn} {node child : CTree} (h : node.take turn = some child)
    (hlist : turn.place.inList = true) : node.hasList = true := by
  obtain ⟨left, right, condition, thenExpr, elseExpr, body, list, rfl⟩ := CTree.expr_of_take h
  have hnil : list ≠ [] := by
    rintro rfl
    simp only [CTree.take, and_self, ↓reduceIte] at h
    cases hplace : turn.place with
    | index | arg =>
      rw [hplace] at h
      cases h
    | left | right | condition | thenPart | elsePart | body =>
      rw [hplace] at hlist
      cases hlist
  simpa [CTree.hasList] using hnil

theorem comesTo_of_visible {t : String} : ∀ {path : List Turn} {node : CTree},
    CTree.follow path node = some (.terminal t) → visible true path = true → comesTo path node = true
  | [], _, _, _ => rfl
  | turn :: path, node, hfollow, h => by
    obtain ⟨child, htake, hfollow⟩ := Option.bind_eq_some_iff.1 hfollow
    simp only [visible, Bool.and_eq_true, Bool.not_eq_true'] at h
    simp only [comesTo, htake, comesTo_of_visible hfollow h.2, Bool.and_true, Bool.not_eq_true']
    cases path with
    | nil =>
      cases hfollow
      exact Bool.and_false _
    | cons next path =>
      have hindex : turn.place.isIndex = false := by simpa [entersList] using h.1
      rw [hindex, Bool.false_and]

theorem visible_of_comesTo {t : String} : ∀ {path : List Turn} {node : CTree},
    CTree.follow path node = some (.terminal t) → comesTo path node = true → visible false path = true
  | [], _, _, _ => rfl
  | turn :: path, node, hfollow, h => by
    obtain ⟨child, htake, hfollow⟩ := Option.bind_eq_some_iff.1 hfollow
    simp only [comesTo, htake, Bool.and_eq_true, Bool.not_eq_true'] at h
    simp only [visible, visible_of_comesTo hfollow h.2, Bool.and_true, Bool.not_eq_true']
    cases path with
    | nil => exact Bool.and_false _
    | cons next path =>
      obtain ⟨_, hnext, _⟩ := Option.bind_eq_some_iff.1 hfollow
      cases hlist : next.place.inList with
      | false => simp [entersList, hlist]
      | true =>
        have hchild := hasList_of_take hnext hlist
        rw [hchild, Bool.and_true] at h
        rw [h.1, Bool.false_and]

/-! ## Expressions around a placeholder -/

/-- An expression beside the way that sets `this.phtype` back behind it. -/
def beside (reset : Bool) : Option CTree := if reset then some (.terminal "") else none

/-- A list behind the way. -/
def listBehind (lists : Bool) : List Postfix := if lists then [.call []] else []

/-- An expression with this way to a placeholder, and on each turn something beside it, or nothing. -/
def around (reset lists : Bool) (t : String) : List Turn → CTree
  | [] => .terminal t
  | turn :: path =>
    let e := around reset lists t path
    let node := CTree.expr turn.exprType turn.operator
    match turn.place with
    | .left => node (some e) none none none none none (listBehind lists)
    | .right => node (beside reset) (some e) none none none none (listBehind lists)
    | .condition => node (beside reset) none (some e) none none none (listBehind lists)
    | .thenPart => node (beside reset) none none (some e) none none (listBehind lists)
    | .elsePart => node (beside reset) none none none (some e) none (listBehind lists)
    | .body => node (beside reset) none none none none (some e) (listBehind lists)
    | .index j => node (beside reset) none none none none none (List.replicate j (.call []) ++ [.index e])
    | .arg j k =>
      node (beside reset) none none none none none
        (List.replicate j (.call []) ++ [.call (List.replicate k (.terminal "") ++ [e])])

section

variable (reset lists : Bool) (t : String)

theorem getElem?_replicate_append {α : Type} (x y : α) (j : Nat) : (List.replicate j x ++ [y])[j]? = some y := by
  rw [List.getElem?_append_right (Nat.le_of_eq List.length_replicate), List.length_replicate, Nat.sub_self]
  rfl

theorem take_replicate_append {α : Type} (x y : α) (j : Nat) :
    (List.replicate j x ++ [y]).take j = List.replicate j x :=
  List.take_left' List.length_replicate

theorem take_around (turn : Turn) (path : List Turn) :
    (around reset lists t (turn :: path)).take turn = some (around reset lists t path) := by
  obtain ⟨exprType, operator, place⟩ := turn
  cases place with
  | left | right | condition | thenPart | elsePart | body =>
    simp only [around, CTree.take, and_self, ↓reduceIte]
  | index j =>
    simp only [around, CTree.take, and_self, ↓reduceIte, getElem?_replicate_append]
    rfl
  | arg j k =>
    simp only [around, CTree.take, and_self, ↓reduceIte, getElem?_replicate_append]
    exact getElem?_replicate_append _ _ k

theorem follow_around : ∀ path : List Turn, CTree.follow path (around reset lists t path) = some (.terminal t)
  | [] => rfl
  | turn :: path => by
    rw [CTree.follow, take_around]
    exact follow_around path

theorem hasList_around (path : List Turn) : (around reset lists t path).hasList = entersList lists path := by
  cases path with
  | nil => rfl
  | cons turn path =>
    obtain ⟨exprType, operator, place⟩ := turn
    cases place with
    | left | right | condition | thenPart | elsePart | body => cases lists <;> rfl
    | index | arg => simp [around, CTree.hasList, entersList, Place.inList]

theorem comesTo_around : ∀ path : List Turn, comesTo path (around reset lists t path) = visible lists path
  | [] => rfl
  | turn :: path => by
    simp only [comesTo, take_around, hasList_around, comesTo_around path, visible]

theorem any_isSet_calls (A : Address) (i : Int) :
    ∀ n j : Nat, (eventsPostfixes A i n (List.replicate j (.call []))).any Event.isSet = false
  | _, 0 => rfl
  | n, j + 1 => any_isSet_calls A i (n + 1) j

theorem any_isSet_terminals (place : Nat → Address × Int) :
    ∀ n k : Nat, (eventsList place CTree.isExpr n (List.replicate k (.terminal ""))).any Event.isSet = false
  | _, 0 => rfl
  | n, k + 1 => any_isSet_terminals place (n + 1) k

theorem any_isSet_parts (A : Address) (i : Int) (exprType operator : String) :
    (parts A i exprType operator (beside reset) none none none none none).any Event.isSet = reset := by
  cases reset with
  | true =>
    unfold parts operand
    simp [beside, resting, Event.isSet]
  | false => rfl

/-- The type is that of the way, with something beside every turn or with nothing. -/
theorem typeIn_around (A : Address) (i : Int) (turn : Turn) (path : List Turn) (v : PhType) :
    typeIn turn ((earlier A i turn.place (around reset lists t (turn :: path))).any Event.isSet) v =
      typeIn turn reset v := by
  obtain ⟨exprType, operator, place⟩ := turn
  have hparts := any_isSet_parts reset A i exprType operator
  cases place with
  | left => rfl
  | right =>
    cases hpoints : pointsRight exprType operator with
    | true => simp only [typeIn, hpoints, ↓reduceIte]
    | false =>
      simp only [around, earlier, hpoints, List.any_append, any_isSet_pointing, Bool.or_false, hparts]
  | condition | thenPart | elsePart | body => simp only [around, earlier, hparts]
  | index j =>
    simp only [around, earlier, List.any_append, hparts, take_replicate_append, any_isSet_calls, Bool.or_false]
  | arg j k =>
    simp only [around, earlier, List.any_append, hparts, take_replicate_append, any_isSet_calls, getElem?_replicate_append,
      any_isSet_terminals, Bool.or_false]

theorem typeAt_around (i : Int) : ∀ (path : List Turn) (A : Address) (v : PhType),
    typeAt A i path (around reset lists t path) v = typeAlong reset path v
  | [], _, _ => rfl
  | turn :: path, A, v => by
    simp only [typeAt, take_around, typeIn_around, typeAlong]
    exact typeAt_around i path _ _

end

/-! ## The type as a function of the way -/

/-- For placeholders with this way to them the same type is in the table, whatever is beside the way and whatever was
compiled before. -/
def PathOnly (path : List Turn) : Prop :=
  ∀ (node node' : CTree) (t t' : String) (s s' : Walk) (A A' : Address) (i i' : Int),
    CTree.follow path node = some (.terminal t) → CTree.follow path node' = some (.terminal t') →
    havePlaceHolder t = true → havePlaceHolder t' = true → Reached s → Reached s' →
      recordedType (compile A i node s) path = recordedType (compile A' i' node' s') path

theorem recordedType_around {t : String} (ht : havePlaceHolder t = true) (reset lists : Bool) (path : List Turn) :
    recordedType (compile [] (-1) (around reset lists t path) .start) path =
      if visible lists path then some (typeAlong reset path .copy) else none := by
  rw [recordedType_compile Reached.start.numbered (follow_around reset lists t path) ht, comesTo_around, typeAt_around]
  rfl

/-- The turn is to an operand that is taken for a pointer. -/
def pointsTo (turn : Turn) : Bool :=
  match turn.place with
  | .left => pointsLeft turn.exprType turn.operator
  | .right => pointsRight turn.exprType turn.operator
  | _ => false

theorem typeIn_of_points {turn : Turn} (h : pointsTo turn = true) (reset : Bool) (v : PhType) :
    typeIn turn reset v = .pointer := by
  unfold pointsTo at h
  unfold typeIn
  cases hplace : turn.place with
  | left | right =>
    rw [hplace] at h
    simp only at h
    rw [if_pos h]
  | condition | thenPart | elsePart | body | index | arg =>
    rw [hplace] at h
    cases h

theorem typeIn_of_not_points {turn : Turn} (h : pointsTo turn = false) (reset : Bool) (v : PhType) :
    typeIn turn reset v = if turn.place = .left ∨ reset = false then v else .copy := by
  unfold pointsTo at h
  unfold typeIn
  cases hplace : turn.place with
  | left | right =>
    rw [hplace] at h
    simp only at h
    cases reset <;> simp [h]
  | condition | thenPart | elsePart | body | index | arg => cases reset <;> simp

theorem typeAlong_append (reset : Bool) (path' : List Turn) : ∀ (path : List Turn) (v : PhType),
    typeAlong reset (path ++ path') v = typeAlong reset path' (typeAlong reset path v)
  | [], _ => rfl
  | turn :: path, v => typeAlong_append reset path' path (typeIn turn reset v)

/-- Where no turn is to a pointer the type is kept, or set back by what is beside the way. -/
theorem typeAlong_of_not_points : ∀ {path : List Turn}, (∀ turn ∈ path, pointsTo turn = false) → ∀ (reset : Bool) (v : PhType),
    typeAlong reset path v = if (∀ turn ∈ path, turn.place = .left) ∨ reset = false then v else .copy
  | [], _, reset, v => by simp [typeAlong]
  | turn :: path, h, reset, v => by
    obtain ⟨hturn, hpath⟩ := List.forall_mem_cons.1 h
    rw [typeAlong, typeAlong_of_not_points hpath, typeIn_of_not_points hturn]
    simp only [List.forall_mem_cons]
    cases reset with
    | false => simp
    | true =>
      by_cases hleft : turn.place = .left
      · simp [hleft]
      · simp [hleft]

/-- No turn of the way is to a pointer, or behind the last one that is all turns are to the left. -/
def KeepsPointer (path : List Turn) : Prop :=
  (∀ turn ∈ path, pointsTo turn = false) ∨ ∃ before last after, path = before ++ last :: after ∧ pointsTo last = true ∧
    ∀ turn ∈ after, pointsTo turn = false ∧ turn.place = .left

/-- The last turn to a pointer. -/
theorem exists_last_points {path : List Turn} (h : ¬ ∀ turn ∈ path, pointsTo turn = false) :
    ∃ before last after, path = before ++ last :: after ∧ pointsTo last = true ∧
      ∀ turn ∈ after, pointsTo turn = false := by
  have hsome : (path.reverse.find? pointsTo).isSome = true := by
    rw [List.find?_isSome]
    push Not at h
    obtain ⟨turn, hturn, hpoints⟩ := h
    exact ⟨turn, List.mem_reverse.2 hturn, by simpa using hpoints⟩
  obtain ⟨last, hlast⟩ := Option.isSome_iff_exists.1 hsome
  obtain ⟨hpoints, after, before, hpath, hafter⟩ := List.find?_eq_some_iff_append.1 hlast
  refine ⟨before.reverse, last, after.reverse, ?_, hpoints, fun turn hturn => ?_⟩
  · rw [← List.reverse_reverse path, hpath]
    simp
  · simpa using hafter turn (List.mem_reverse.1 hturn)

/-- The type does not change by what is set back beside the way. -/
theorem typeAlong_eq_iff (path : List Turn) :
    typeAlong true path .copy = typeAlong false path .copy ↔ KeepsPointer path := by
  have hbehind : ∀ {before after : List Turn} {last : Turn}, pointsTo last = true → ∀ reset,
      typeAlong reset (before ++ last :: after) .copy = typeAlong reset after .pointer := by
    intro before after last hlast reset
    rw [typeAlong_append, typeAlong, typeIn_of_points hlast]
  have hkept : ∀ {after : List Turn}, (∀ turn ∈ after, pointsTo turn = false) →
      typeAlong false after .pointer = .pointer := by
    intro after hafter
    rw [typeAlong_of_not_points hafter, if_pos (.inr rfl)]
  constructor
  · intro h
    by_cases hnone : ∀ turn ∈ path, pointsTo turn = false
    · exact .inl hnone
    · obtain ⟨before, last, after, rfl, hlast, hafter⟩ := exists_last_points hnone
      rw [hbehind hlast, hbehind hlast, typeAlong_of_not_points hafter, hkept hafter] at h
      refine .inr ⟨before, last, after, rfl, hlast, fun turn hturn => ⟨hafter turn hturn, ?_⟩⟩
      by_contra hleft
      rw [if_neg (by simpa using ⟨turn, hturn, hleft⟩)] at h
      cases h
  · rintro (hnone | ⟨before, last, after, rfl, hlast, hafter⟩)
    · rw [typeAlong_of_not_points hnone, typeAlong_of_not_points hnone, ite_self, ite_self]
    · have hnone : ∀ turn ∈ after, pointsTo turn = false := fun turn hturn => (hafter turn hturn).1
      rw [hbehind hlast, hbehind hlast, typeAlong_of_not_points hnone, hkept hnone,
        if_pos (.inl fun turn hturn => (hafter turn hturn).2)]

/-- The type is a function of the way just if the walk never comes to its end; or if it always does, and no turn is to
a pointer, or behind the last one that is all turns are to the left. -/
theorem pathOnly_iff (path : List Turn) : PathOnly path ↔
    visible false path = false ∨ (visible true path = true ∧ KeepsPointer path) := by
  rw [← typeAlong_eq_iff]
  constructor
  · intro h
    cases hvisible : visible false path with
    | false => exact Or.inl rfl
    | true =>
      have hplaceholder : havePlaceHolder "$\x7bp\x7d" = true := by decide
      have hsame := fun reset lists => h _ _ _ _ _ _ [] [] (-1) (-1) (follow_around reset lists "$\x7bp\x7d" path)
        (follow_around false false "$\x7bp\x7d" path) hplaceholder hplaceholder .start .start
      simp only [recordedType_around hplaceholder, hvisible, ↓reduceIte] at hsame
      refine Or.inr ⟨?_, ?_⟩
      · cases hlists : visible true path with
        | true => rfl
        | false =>
          have hnone := hsame false true
          rw [hlists, if_neg Bool.false_ne_true] at hnone
          cases hnone
      · have hreset := hsame true false
        rw [hvisible, if_pos rfl] at hreset
        exact Option.some.inj hreset
  · rintro h node node' t t' s s' A A' i i' hfollow hfollow' ht ht' hs hs'
    rw [recordedType_compile hs.numbered hfollow ht, recordedType_compile hs'.numbered hfollow' ht', hs.phtype, hs'.phtype]
    rcases h with hhidden | ⟨hvisible, hsame⟩
    · have hnever : ∀ {node : CTree} {t : String}, CTree.follow path node = some (.terminal t) →
          comesTo path node = false := by
        intro node t hfollow
        rw [Bool.eq_false_iff]
        intro hcomes
        rw [visible_of_comesTo hfollow hcomes] at hhidden
        cases hhidden
      rw [hnever hfollow, hnever hfollow']
      rfl
    · have hstart : Squeezed .copy .copy .copy := ⟨Or.inl rfl, Or.inl rfl⟩
      rw [comesTo_of_visible hfollow hvisible, comesTo_of_visible hfollow' hvisible,
        (squeezed_typeAt i path A node hfollow hstart).eq_of_eq hsame,
        (squeezed_typeAt i' path A' node' hfollow' hstart).eq_of_eq hsame]

/-- `*(c ? p : q)`, where `p` is a placeholder. -/
def pointerChoice (condition : CTree) : CTree :=
  .expr "__unary__" "*" none (some (.expr "__ternary__" "?" none none (some condition) (some (.terminal "$\x7bp\x7d"))
    (some (.terminal "q")) none [])) none none none none []

/-- With `c` for the condition the placeholder is a pointer, and with `a + b` it is not. -/
theorem pointerChoice_differs : ¬PathOnly [⟨"__unary__", "*", .right⟩, ⟨"__ternary__", "?", .thenPart⟩] := by
  intro h
  have hsame := h (pointerChoice (.terminal "c"))
    (pointerChoice (.expr "__binary__" "+" (some (.terminal "a")) (some (.terminal "b")) none none none none []))
    "$\x7bp\x7d" "$\x7bp\x7d" .start .start [] [] (-1) (-1) rfl rfl (by decide) (by decide) .start .start
  revert hsame
  decide

end Back

end Rathaxes
