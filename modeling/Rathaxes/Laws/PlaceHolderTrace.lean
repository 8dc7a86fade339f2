import Rathaxes.Back.PlaceHolders

/-!
# The trace of the walk over C code

What `rtxPH_compile` does with a tree is a list of events: the texts it comes to, in their order, and the changes of
`this.phtype` between them. The texts it does not come to are events too, which change nothing. Here the walk is
shown to be a run over its events, for the table and for the tree.
-/

set_option autoImplicit false

namespace Rathaxes.Back

open CodeWorker

/-! ## Events -/

/-- A text, where it stands and what it is there for. -/
structure Site where
  address : Address
  nodeIdx : Int
  role : Role
  text : String

/-- What is done at a site. -/
def Site.visit (x : Site) (s : Walk) : String × Walk := visitText x.address x.nodeIdx x.role x.text s

inductive Event where
  | text (x : Site)
  | init
  | set (phtype : PhType)

namespace Event

/-- The state after the event. -/
def run (s : Walk) : Event → Walk
  | text x => (x.visit s).2
  | init => s.initPhtype
  | set phtype => s.setPhtype phtype

/-- The event, with the text that stands there afterwards. -/
def relabel (s : Walk) : Event → Event
  | text x => text { x with text := (x.visit s).1 }
  | init => init
  | set phtype => set phtype

/-- A text that is not come to. -/
def hide : Event → Option Event
  | text x => some (text { x with role := .unvisited })
  | init => none
  | set _ => none

def site? : Event → Option Site
  | text x => some x
  | init => none
  | set _ => none

end Event

/-- The state after some events. -/
def run (es : List Event) (s : Walk) : Walk := es.foldl Event.run s

/-- The events, with the texts that stand there afterwards. -/
def relabel : List Event → Walk → List Event
  | [], _ => []
  | e :: es, s => e.relabel s :: relabel es (e.run s)

/-- Texts that are not come to. -/
def hide (es : List Event) : List Event := es.filterMap Event.hide

def shown (visited : Bool) (es : List Event) : List Event := if visited then es else hide es

/-- The texts. -/
def sites (es : List Event) : List Site := es.filterMap Event.site?

/-- On the way to an operand. -/
def pointing (present points : Bool) : List Event := if present && points then [.set .pointer] else []

/-- Behind an operand. -/
def resting (present : Bool) : List Event := if present then [.set .copy] else []

/-- An operand, and what is done around it. -/
def operand (present points : Bool) (es : List Event) : List Event :=
  pointing present points ++ es ++ resting present

@[simp] theorem run_nil (s : Walk) : run [] s = s := rfl

@[simp] theorem run_cons (e : Event) (es : List Event) (s : Walk) : run (e :: es) s = run es (e.run s) := rfl

@[simp] theorem run_append (es fs : List Event) (s : Walk) : run (es ++ fs) s = run fs (run es s) :=
  List.foldl_append

@[simp] theorem relabel_nil (s : Walk) : relabel [] s = [] := rfl

@[simp] theorem relabel_append (fs : List Event) :
    ∀ (es : List Event) (s : Walk), relabel (es ++ fs) s = relabel es s ++ relabel fs (run es s)
  | [], _ => rfl
  | e :: es, s => by
    simp only [List.cons_append, relabel, run_cons, relabel_append fs es]

@[simp] theorem run_pointing (present points : Bool) (s : Walk) :
    run (pointing present points) s = s.enter present points := by
  unfold pointing Walk.enter
  split <;> rfl

@[simp] theorem relabel_pointing (present points : Bool) (s : Walk) :
    relabel (pointing present points) s = pointing present points := by
  unfold pointing
  split <;> rfl

@[simp] theorem run_resting (present : Bool) (s : Walk) : run (resting present) s = s.leave present := by
  unfold resting Walk.leave
  split <;> rfl

@[simp] theorem relabel_resting (present : Bool) (s : Walk) : relabel (resting present) s = resting present := by
  unfold resting
  split <;> rfl

theorem run_hide (s : Walk) : ∀ es : List Event, run (hide es) s = s
  | [] => rfl
  | .text _ :: es => run_hide s es
  | .init :: es => run_hide s es
  | .set _ :: es => run_hide s es

theorem relabel_hide (s : Walk) : ∀ es : List Event, relabel (hide es) s = hide es
  | [] => rfl
  | .text _ :: es => congrArg (_ :: ·) (relabel_hide s es)
  | .init :: es => relabel_hide s es
  | .set _ :: es => relabel_hide s es

/-! ## The events of a tree -/

mutual

/-- What the walk does with a node. -/
def events (A : Address) (i : Int) : CTree → List Event
  | .block kind items => eventsList (fun j => (.item kind j :: A, j)) (fun _ => true) 0 items
  | .decl _ ctype name colonExpr assignExpr body =>
    eventsTypes A i 0 ctype ++ [.text ⟨.attr .name :: A, i, .identifier, name⟩] ++
      eventsOpt (.attr .colonExpr :: A) i colonExpr ++ eventsOpt (.attr .assignExpr :: A) i assignExpr ++
      eventsOpt (.attr .body :: A) i body
  | .expr exprType operator left right condition thenExpr elseExpr body list =>
    [.init] ++ operand left.isSome (pointsLeft exprType operator) (eventsOpt (.attr .left :: A) i left) ++
      operand right.isSome (pointsRight exprType operator) (eventsOpt (.attr .right :: A) i right) ++
      eventsOpt (.attr .condition :: A) i condition ++ eventsOpt (.attr .thenPart :: A) i thenExpr ++
      eventsOpt (.attr .elsePart :: A) i elseExpr ++ eventsOpt (.attr .body :: A) i body ++
      eventsPostfixes A i 0 list
  | .terminal id => [.init, .text ⟨.attr .id :: A, i, .terminal, id⟩]
  | .stmt expr label condition thenStmt elseStmt initial increment body =>
    eventsTarget (.attr .expr :: A) i expr ++
      [.text ⟨.attr .label :: A, i, .identifier, label⟩] ++
      eventsOpt (.attr .condition :: A) i condition ++ eventsBody (.attr .thenPart :: A) i thenStmt ++
      eventsBody (.attr .elsePart :: A) i elseStmt ++ eventsOpt (.attr .initial :: A) i initial ++
      eventsOpt (.attr .increment :: A) i increment ++ eventsBody (.attr .body :: A) i body
  | .indexDesignation index expr => events (.attr .index :: A) i index ++ events (.attr .expr :: A) i expr
  | .fieldDesignation name expr =>
    [.text ⟨.attr .name :: A, i, .identifier, name⟩] ++ events (.attr .expr :: A) i expr
  | .pointcutRaw id => [.text ⟨.attr .id :: A, i, .raw, id⟩]

def eventsOpt (A : Address) (i : Int) : Option CTree → List Event
  | none => []
  | some node => events A i node

def eventsTarget (A : Address) (i : Int) : Option CTree → List Event
  | none => []
  | some node =>
    match node.id? with
    | some id => [.text ⟨.attr .id :: A, i, .statement, id⟩]
    | none => events A i node

def eventsBody (A : Address) (i : Int) : Option CTree → List Event
  | none => []
  | some node => if node.isBlock then events A i node else events (.item .block 0 :: A) 0 node

def eventsList (place : Nat → Address × Int) (visits : CTree → Bool) (j : Nat) : List CTree → List Event
  | [] => []
  | node :: nodes =>
    shown (visits node) (events (place j).1 (place j).2 node) ++ eventsList place visits (j + 1) nodes

def eventsTypes (A : Address) (i : Int) (j : Nat) : List CType → List Event
  | [] => []
  | .mk body identifier list param enum :: types =>
    let B := .entry .ctype j :: A
    eventsOpt (.attr .body :: B) i body ++ [.text ⟨.attr .identifier :: B, i, .typeName, identifier⟩] ++
      eventsList (fun k => (.entry .list k :: B, i)) (fun _ => true) 0 list ++
      eventsOpt (.attr .param :: B) i param ++
      eventsList (fun k => (.entry .enum k :: B, i)) (fun _ => true) 0 enum ++ eventsTypes A i (j + 1) types

def eventsPostfixes (A : Address) (i : Int) (j : Nat) : List Postfix → List Event
  | [] => []
  | .index expr :: items =>
    shown (!expr.hasList) (events (.entry .list j :: A) i expr) ++ eventsPostfixes A i (j + 1) items
  | .call args :: items =>
    eventsList (fun k => (.entry .args k :: .entry .list j :: A, i)) CTree.isExpr 0 args ++
      eventsPostfixes A i (j + 1) items

end

/-! ## The table -/

mutual

/-- The walk over a node is a run over its events. -/
theorem compile_run (A : Address) (i : Int) : ∀ (node : CTree) (s : Walk), (compile A i node s).2 = run (events A i node) s
  | .block kind items, s => by
    simp only [compile, events, compileList_run]
  | .decl kind ctype name colonExpr assignExpr body, s => by
    simp only [compile, events, run_append, compileTypes_run, compileOpt_run]
    rfl
  | .expr exprType operator left right condition thenExpr elseExpr body list, s => by
    simp only [compile, events, operand, run_append, run_pointing, run_resting, compileOpt_run, compilePostfixes_run]
    rfl
  | .terminal id, s => rfl
  | .stmt expr label condition thenStmt elseStmt initial increment body, s => by
    simp only [compile, events, run_append, compileOpt_run, compileBody_run, compileTarget_run]
    rfl
  | .indexDesignation index expr, s => by
    simp only [compile, events, run_append, compile_run]
  | .fieldDesignation name expr, s => by
    simp only [compile, events, run_append, compile_run]
    rfl
  | .pointcutRaw id, s => rfl

theorem compileOpt_run (A : Address) (i : Int) :
    ∀ (node : Option CTree) (s : Walk), (compileOpt A i node s).2 = run (eventsOpt A i node) s
  | none, _ => rfl
  | some node, s => compile_run A i node s

theorem compileTarget_run (A : Address) (i : Int) :
    ∀ (node : Option CTree) (s : Walk), (compileTarget A i node s).2 = run (eventsTarget A i node) s
  | none, _ => rfl
  | some node, s => by
    cases hid : node.id? with
    | some id => simp only [compileTarget, eventsTarget, hid]; rfl
    | none => simp only [compileTarget, eventsTarget, hid, compile_run A i node]

theorem compileBody_run (A : Address) (i : Int) :
    ∀ (node : Option CTree) (s : Walk), (compileBody A i node s).2 = run (eventsBody A i node) s
  | none, _ => rfl
  | some node, s => by
    simp only [compileBody, eventsBody]
    split
    · exact compile_run A i node s
    · exact compile_run _ _ node s

theorem compileList_run (place : Nat → Address × Int) (visits : CTree → Bool) :
    ∀ (j : Nat) (nodes : List CTree) (s : Walk),
      (compileList place visits j nodes s).2 = run (eventsList place visits j nodes) s
  | _, [], _ => rfl
  | j, node :: nodes, s => by
    simp only [compileList, eventsList, shown, run_append]
    split
    · simp only [compileList_run place visits _ nodes, compile_run _ _ node]
    · simp only [compileList_run place visits _ nodes, run_hide]

theorem compileTypes_run (A : Address) (i : Int) :
    ∀ (j : Nat) (types : List CType) (s : Walk), (compileTypes A i j types s).2 = run (eventsTypes A i j types) s
  | _, [], _ => rfl
  | j, .mk body identifier list param enum :: types, s => by
    simp only [compileTypes, eventsTypes, run_append, compileOpt_run, compileList_run,
      compileTypes_run A i _ types]
    rfl

theorem compilePostfixes_run (A : Address) (i : Int) :
    ∀ (j : Nat) (items : List Postfix) (s : Walk),
      (compilePostfixes A i j items s).2 = run (eventsPostfixes A i j items) s
  | _, [], _ => rfl
  | j, .index expr :: items, s => by
    simp only [compilePostfixes, eventsPostfixes, shown, run_append]
    cases expr.hasList with
    | true => simp only [compilePostfixes_run A i _ items, run_hide, Bool.not_true, Bool.false_eq_true, ↓reduceIte]
    | false =>
      simp only [compilePostfixes_run A i _ items, compile_run _ _ expr, Bool.not_false, Bool.false_eq_true, ↓reduceIte]
  | j, .call args :: items, s => by
    simp only [compilePostfixes, eventsPostfixes, run_append, compileList_run, compilePostfixes_run A i _ items]

end

/-! ## The tree -/

theorem isEmpty_compilePostfixes (A : Address) (i : Int) (j : Nat) (s : Walk) :
    ∀ items : List Postfix, (compilePostfixes A i j items s).1.isEmpty = items.isEmpty
  | [] => rfl
  | .index expr :: items => by
    simp only [compilePostfixes]
    split <;> rfl
  | .call _ :: _ => rfl

theorem hasList_compile (A : Address) (i : Int) (node : CTree) (s : Walk) :
    (compile A i node s).1.hasList = node.hasList := by
  cases node with
  | expr => simp only [compile, CTree.hasList, isEmpty_compilePostfixes]
  | block | decl | terminal | stmt | indexDesignation | fieldDesignation | pointcutRaw => rfl

theorem isExpr_compile (A : Address) (i : Int) (node : CTree) (s : Walk) :
    (compile A i node s).1.isExpr = node.isExpr := by
  cases node <;> rfl

theorem isBlock_compile (A : Address) (i : Int) (node : CTree) (s : Walk) :
    (compile A i node s).1.isBlock = node.isBlock := by
  cases node with
  | block kind => cases kind <;> rfl
  | decl | expr | terminal | stmt | indexDesignation | fieldDesignation | pointcutRaw => rfl

theorem id?_compile {node : CTree} (hid : node.id? = none) (A : Address) (i : Int) (s : Walk) :
    (compile A i node s).1.id? = none := by
  cases node with
  | terminal | pointcutRaw => cases hid
  | block | decl | expr | stmt | indexDesignation | fieldDesignation => rfl

theorem id?_setId {node : CTree} {id : String} (hid : node.id? = some id) (t : String) :
    (node.setId t).id? = some t := by
  cases node with
  | terminal | pointcutRaw => rfl
  | block | decl | expr | stmt | indexDesignation | fieldDesignation => cases hid

theorem isSome_compileOpt (A : Address) (i : Int) (node : Option CTree) (s : Walk) :
    (compileOpt A i node s).1.isSome = node.isSome := by
  cases node <;> rfl

theorem isBlock_singleton (node : CTree) : (CTree.block .block [node]).isBlock = true := rfl

theorem events_singleton (A : Address) (i : Int) (node : CTree) :
    events A i (.block .block [node]) = events (.item .block 0 :: A) 0 node := by
  simp only [events, eventsList, shown, ↓reduceIte, List.append_nil]
  rfl

/-- What is visited in a list is visited in the list after the walk. -/
def Stable (visits : CTree → Bool) : Prop :=
  ∀ (A : Address) (i : Int) (node : CTree) (s : Walk), visits (compile A i node s).1 = visits node

theorem stable_true : Stable (fun _ => true) := fun _ _ _ _ => rfl

mutual

/-- The events of the tree after the walk are those of the tree before it, with the texts that were put there. -/
theorem events_compile (A : Address) (i : Int) :
    ∀ (node : CTree) (s : Walk), events A i (compile A i node s).1 = relabel (events A i node) s
  | .block kind items, s => by
    simp only [compile, events, events_compileList _ stable_true]
  | .decl kind ctype name colonExpr assignExpr body, s => by
    simp only [compile, events, relabel_append, run_append, compileTypes_run, compileOpt_run,
      events_compileTypes, events_compileOpt]
    rfl
  | .expr exprType operator left right condition thenExpr elseExpr body list, s => by
    simp only [compile, events, operand, relabel_append, run_append, run_pointing, run_resting, relabel_pointing,
      relabel_resting, compileOpt_run, isSome_compileOpt, events_compileOpt, events_compilePostfixes]
    rfl
  | .terminal id, s => rfl
  | .stmt expr label condition thenStmt elseStmt initial increment body, s => by
    simp only [compile, events, relabel_append, run_append, compileOpt_run, compileBody_run, compileTarget_run,
      events_compileTarget, events_compileOpt, events_compileBody]
    rfl
  | .indexDesignation index expr, s => by
    simp only [compile, events, relabel_append, compile_run, events_compile]
  | .fieldDesignation name expr, s => by
    simp only [compile, events, relabel_append, events_compile]
    rfl
  | .pointcutRaw id, s => rfl

theorem events_compileOpt (A : Address) (i : Int) :
    ∀ (node : Option CTree) (s : Walk),
      eventsOpt A i (compileOpt A i node s).1 = relabel (eventsOpt A i node) s
  | none, _ => rfl
  | some node, s => events_compile A i node s

theorem events_compileTarget (A : Address) (i : Int) :
    ∀ (node : Option CTree) (s : Walk),
      eventsTarget A i (compileTarget A i node s).1 = relabel (eventsTarget A i node) s
  | none, _ => rfl
  | some node, s => by
    cases hid : node.id? with
    | some id => simp only [compileTarget, eventsTarget, hid, id?_setId hid]; rfl
    | none => simp only [compileTarget, eventsTarget, hid, id?_compile hid, events_compile A i node]

theorem events_compileBody (A : Address) (i : Int) :
    ∀ (node : Option CTree) (s : Walk),
      eventsBody A i (compileBody A i node s).1 = relabel (eventsBody A i node) s
  | none, _ => rfl
  | some node, s => by
    cases hblock : node.isBlock with
    | true => simp only [compileBody, eventsBody, hblock, isBlock_compile, ↓reduceIte, events_compile A i node]
    | false =>
      simp only [compileBody, eventsBody, hblock, Bool.false_eq_true, ↓reduceIte, isBlock_singleton,
        events_singleton, events_compile _ _ node]

theorem events_compileList (place : Nat → Address × Int) {visits : CTree → Bool} (hv : Stable visits) :
    ∀ (j : Nat) (nodes : List CTree) (s : Walk),
      eventsList place visits j (compileList place visits j nodes s).1 = relabel (eventsList place visits j nodes) s
  | _, [], _ => rfl
  | j, node :: nodes, s => by
    cases hvisit : visits node with
    | true =>
      simp only [compileList, eventsList, hvisit, ↓reduceIte, hv _ _ node, shown, relabel_append, compile_run _ _ node,
        events_compile _ _ node, events_compileList place hv _ nodes]
    | false =>
      simp only [compileList, eventsList, hvisit, Bool.false_eq_true, ↓reduceIte, shown, relabel_append, run_hide,
        relabel_hide, events_compileList place hv _ nodes]

theorem events_compileTypes (A : Address) (i : Int) :
    ∀ (j : Nat) (types : List CType) (s : Walk),
      eventsTypes A i j (compileTypes A i j types s).1 = relabel (eventsTypes A i j types) s
  | _, [], _ => rfl
  | j, .mk body identifier list param enum :: types, s => by
    simp only [compileTypes, eventsTypes, relabel_append, run_append, compileOpt_run, compileList_run,
      events_compileOpt, events_compileList _ stable_true, events_compileTypes A i _ types]
    rfl

theorem events_compilePostfixes (A : Address) (i : Int) :
    ∀ (j : Nat) (items : List Postfix) (s : Walk),
      eventsPostfixes A i j (compilePostfixes A i j items s).1 = relabel (eventsPostfixes A i j items) s
  | _, [], _ => rfl
  | j, .index expr :: items, s => by
    cases hlist : expr.hasList with
    | true =>
      simp only [compilePostfixes, eventsPostfixes, hlist, ↓reduceIte, Bool.not_true, Bool.false_eq_true, shown,
        relabel_append, run_hide, relabel_hide, events_compilePostfixes A i _ items]
    | false =>
      simp only [compilePostfixes, eventsPostfixes, hlist, hasList_compile, ↓reduceIte, Bool.not_false,
        Bool.false_eq_true, shown, relabel_append, compile_run _ _ expr, events_compile _ _ expr,
        events_compilePostfixes A i _ items]
  | j, .call args :: items, s => by
    simp only [compilePostfixes, eventsPostfixes, relabel_append, compileList_run, events_compileList _ isExpr_compile,
      events_compilePostfixes A i _ items]

end

/-! ## The entries -/

/-- Whether there is a key in place of the text afterwards. -/
def Site.replaced (x : Site) : Bool := x.role.replaces x.text

/-- The entry made at a site. -/
def Site.entry (x : Site) (phtype : Option PhType) : Entry :=
  ⟨x.nodeIdx, x.text, x.role.target, x.role.phType phtype, x.role.target.refPlaceholder x.address⟩

theorem Site.visit_of_replaced {x : Site} (hx : x.replaced = true) (s : Walk) :
    x.visit s = (placeHolderKey (s.nbplaceholder + 1),
      ⟨s.compile.set (placeHolderKey (s.nbplaceholder + 1)) (x.entry s.phtype), s.nbplaceholder + 1, s.phtype⟩) := by
  unfold Site.replaced at hx
  simp only [Site.visit, visitText, hx, ↓reduceIte, mapPlaceHolder]
  rfl

theorem Site.visit_of_not_replaced {x : Site} (hx : x.replaced = false) (s : Walk) : x.visit s = (x.text, s) := by
  unfold Site.replaced at hx
  simp only [Site.visit, visitText, hx, Bool.false_eq_true, ↓reduceIte]

namespace Event

/-- `this.phtype` after the event. -/
def phtype (p : Option PhType) : Event → Option PhType
  | text _ => p
  | init => some (p.getD .copy)
  | set q => some q

/-- What the event adds to the table. -/
def recorded (p : Option PhType) : Event → List Entry
  | text x => if x.replaced then [x.entry p] else []
  | init => []
  | set _ => []

end Event

/-- `this.phtype` after some events. -/
def phtypeAfter (es : List Event) (p : Option PhType) : Option PhType := es.foldl Event.phtype p

/-- What some events add to the table. -/
def recorded : List Event → Option PhType → List Entry
  | [], _ => []
  | e :: es, p => e.recorded p ++ recorded es (e.phtype p)

/-- Entries under the keys that follow one. -/
def number : Nat → List Entry → List (String × Entry)
  | _, [] => []
  | n, e :: es => (placeHolderKey (n + 1), e) :: number (n + 1) es

theorem phtypeAfter_append (es fs : List Event) (p : Option PhType) :
    phtypeAfter (es ++ fs) p = phtypeAfter fs (phtypeAfter es p) :=
  List.foldl_append

theorem recorded_append (fs : List Event) :
    ∀ (es : List Event) (p : Option PhType),
      recorded (es ++ fs) p = recorded es p ++ recorded fs (phtypeAfter es p)
  | [], _ => rfl
  | e :: es, p => by
    simp only [List.cons_append, recorded, recorded_append fs es, List.append_assoc]
    rfl

theorem number_append (bs : List Entry) :
    ∀ (n : Nat) (as : List Entry), number n (as ++ bs) = number n as ++ number (n + as.length) bs
  | _, [] => rfl
  | n, a :: as => by
    simp only [List.cons_append, number, number_append bs (n + 1) as, List.length_cons]
    congr 3
    omega

theorem keys_number : ∀ (n : Nat) (es : List Entry),
    (number n es).map Prod.fst = (List.range' (n + 1) es.length).map placeHolderKey
  | _, [] => rfl
  | n, e :: es => by
    simp only [number, List.map_cons, keys_number (n + 1) es, List.length_cons, List.range'_succ]

theorem values_number : ∀ (n : Nat) (es : List Entry), (number n es).map Prod.snd = es
  | _, [] => rfl
  | n, e :: es => congrArg (e :: ·) (values_number (n + 1) es)

theorem placeHolderKey_injective : Function.Injective placeHolderKey := by
  intro m n h
  have hlist := congrArg String.toList h
  simp only [placeHolderKey, String.toList_append, List.append_cancel_left_eq] at hlist
  exact Table.positionKey_injective (String.toList_injective hlist)

/-- The keys of the table are those up to the counter. -/
def Numbered (s : Walk) : Prop := s.compile.entries.map Prod.fst = (List.range' 1 s.nbplaceholder).map placeHolderKey

theorem Numbered.not_mem {s : Walk} (hs : Numbered s) :
    placeHolderKey (s.nbplaceholder + 1) ∉ s.compile.entries.map Prod.fst := by
  rw [hs, List.mem_map]
  rintro ⟨m, hm, hkey⟩
  rw [placeHolderKey_injective hkey, List.mem_range'_1] at hm
  omega

/-- What a run has done. -/
structure Ran (es : List Event) (s t : Walk) : Prop where
  entries : t.compile.entries = s.compile.entries ++ number s.nbplaceholder (recorded es s.phtype)
  counter : t.nbplaceholder = s.nbplaceholder + (recorded es s.phtype).length
  phtype : t.phtype = phtypeAfter es s.phtype

theorem Ran.numbered {es : List Event} {s t : Walk} (h : Ran es s t) (hs : Numbered s) : Numbered t := by
  unfold Numbered
  rw [h.entries, List.map_append, hs, keys_number, h.counter, ← List.map_append, Nat.add_comm s.nbplaceholder 1,
    List.range'_append_1]

theorem Ran.trans {es fs : List Event} {s t u : Walk} (h : Ran es s t) (h' : Ran fs t u) : Ran (es ++ fs) s u where
  entries := by
    rw [h'.entries, h.entries, h.counter, h.phtype, recorded_append, number_append, List.append_assoc]
  counter := by
    rw [h'.counter, h.counter, h.phtype, recorded_append, List.length_append, Nat.add_assoc]
  phtype := by rw [h'.phtype, h.phtype, phtypeAfter_append]

theorem Walk.initPhtype_eq (s : Walk) :
    s.initPhtype = ⟨s.compile, s.nbplaceholder, some (s.phtype.getD .copy)⟩ := by
  obtain ⟨table, n, phtype⟩ := s
  cases phtype <;> rfl

theorem ran_singleton (e : Event) {s : Walk} (hs : Numbered s) : Ran [e] s (e.run s) := by
  cases e with
  | text x =>
    cases hx : x.replaced with
    | true =>
      have hrun : (Event.text x).run s = _ := congrArg Prod.snd (Site.visit_of_replaced hx s)
      have hrecorded : recorded [.text x] s.phtype = [x.entry s.phtype] := by
        simp only [recorded, Event.recorded, hx, ↓reduceIte, List.append_nil]
      rw [hrun]
      refine ⟨?_, ?_, rfl⟩ <;> rw [hrecorded]
      · exact Table.entries_set_of_not_mem hs.not_mem _
      · rfl
    | false =>
      have hrun : (Event.text x).run s = s := congrArg Prod.snd (Site.visit_of_not_replaced hx s)
      have hrecorded : recorded [.text x] s.phtype = [] := by
        simp only [recorded, Event.recorded, hx, Bool.false_eq_true, ↓reduceIte, List.append_nil]
      rw [hrun]
      refine ⟨?_, ?_, rfl⟩ <;> rw [hrecorded]
      · exact (List.append_nil _).symm
      · rfl
  | init =>
    have hrun : Event.init.run s = ⟨s.compile, s.nbplaceholder, some (s.phtype.getD .copy)⟩ := s.initPhtype_eq
    rw [hrun]
    exact ⟨(List.append_nil _).symm, rfl, rfl⟩
  | set q => exact ⟨(List.append_nil _).symm, rfl, rfl⟩

/-- A run adds what its events record, under the keys that follow. -/
theorem ran : ∀ (es : List Event) {s : Walk}, Numbered s → Ran es s (run es s)
  | [], _, _ => ⟨(List.append_nil _).symm, rfl, rfl⟩
  | e :: es, _, hs =>
    have h := ran_singleton e hs
    h.trans (ran es (h.numbered hs))

end Rathaxes.Back
