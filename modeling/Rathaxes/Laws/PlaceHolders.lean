import Rathaxes.Laws.PlaceHolderTrace

/-!
# Placeholders can be put back

After the walk every placeholder should be in the table, under a key that stands in its place and nowhere else, so that
the texts can be put back. Two things are in the way of that. The walk does not come to what is in the list of a postfix
expression that is an index. And a name of the program may look like a key.
-/

set_option autoImplicit false

namespace Rathaxes.Back

open CodeWorker

/-! ## Putting texts back -/

mutual

/-- Another text at each place. -/
def mapTexts (f : String → String) : CTree → CTree
  | .block kind items => .block kind (mapTextsList f items)
  | .decl kind ctype name colonExpr assignExpr body =>
    .decl kind (mapTextsTypes f ctype) (f name) (mapTextsOpt f colonExpr) (mapTextsOpt f assignExpr)
      (mapTextsOpt f body)
  | .expr exprType operator left right condition thenExpr elseExpr body list =>
    .expr exprType operator (mapTextsOpt f left) (mapTextsOpt f right) (mapTextsOpt f condition)
      (mapTextsOpt f thenExpr) (mapTextsOpt f elseExpr) (mapTextsOpt f body) (mapTextsPostfixes f list)
  | .terminal id => .terminal (f id)
  | .stmt expr label condition thenStmt elseStmt initial increment body =>
    .stmt (mapTextsOpt f expr) (f label) (mapTextsOpt f condition) (mapTextsOpt f thenStmt) (mapTextsOpt f elseStmt)
      (mapTextsOpt f initial) (mapTextsOpt f increment) (mapTextsOpt f body)
  | .indexDesignation index expr => .indexDesignation (mapTexts f index) (mapTexts f expr)
  | .fieldDesignation name expr => .fieldDesignation (f name) (mapTexts f expr)
  | .pointcutRaw id => .pointcutRaw (f id)

def mapTextsOpt (f : String → String) : Option CTree → Option CTree
  | none => none
  | some node => some (mapTexts f node)

def mapTextsList (f : String → String) : List CTree → List CTree
  | [] => []
  | node :: nodes => mapTexts f node :: mapTextsList f nodes

def mapTextsTypes (f : String → String) : List CType → List CType
  | [] => []
  | .mk body identifier list param enum :: types =>
    .mk (mapTextsOpt f body) (f identifier) (mapTextsList f list) (mapTextsOpt f param) (mapTextsList f enum) ::
      mapTextsTypes f types

def mapTextsPostfixes (f : String → String) : List Postfix → List Postfix
  | [] => []
  | .index expr :: items => .index (mapTexts f expr) :: mapTextsPostfixes f items
  | .call args :: items => .call (mapTextsList f args) :: mapTextsPostfixes f items

end

mutual

/-- The tree with single statements made blocks, where the walk comes to them. -/
def upgrade : CTree → CTree
  | .block kind items => .block kind (upgradeList (fun _ => true) items)
  | .decl kind ctype name colonExpr assignExpr body =>
    .decl kind (upgradeTypes ctype) name (upgradeOpt colonExpr) (upgradeOpt assignExpr) (upgradeOpt body)
  | .expr exprType operator left right condition thenExpr elseExpr body list =>
    .expr exprType operator (upgradeOpt left) (upgradeOpt right) (upgradeOpt condition) (upgradeOpt thenExpr)
      (upgradeOpt elseExpr) (upgradeOpt body) (upgradePostfixes list)
  | .terminal id => .terminal id
  | .stmt expr label condition thenStmt elseStmt initial increment body =>
    .stmt (upgradeOpt expr) label (upgradeOpt condition) (upgradeBody thenStmt) (upgradeBody elseStmt)
      (upgradeOpt initial) (upgradeOpt increment) (upgradeBody body)
  | .indexDesignation index expr => .indexDesignation (upgrade index) (upgrade expr)
  | .fieldDesignation name expr => .fieldDesignation name (upgrade expr)
  | .pointcutRaw id => .pointcutRaw id

def upgradeOpt : Option CTree → Option CTree
  | none => none
  | some node => some (upgrade node)

def upgradeBody : Option CTree → Option CTree
  | none => none
  | some node => if node.isBlock then some (upgrade node) else some (.block .block [upgrade node])

def upgradeList (visits : CTree → Bool) : List CTree → List CTree
  | [] => []
  | node :: nodes => (if visits node then upgrade node else node) :: upgradeList visits nodes

def upgradeTypes : List CType → List CType
  | [] => []
  | .mk body identifier list param enum :: types =>
    .mk (upgradeOpt body) identifier (upgradeList (fun _ => true) list) (upgradeOpt param)
      (upgradeList (fun _ => true) enum) :: upgradeTypes types

def upgradePostfixes : List Postfix → List Postfix
  | [] => []
  | .index expr :: items => .index (if expr.hasList then expr else upgrade expr) :: upgradePostfixes items
  | .call args :: items => .call (upgradeList CTree.isExpr args) :: upgradePostfixes items

end

@[simp] theorem sites_append (es fs : List Event) : sites (es ++ fs) = sites es ++ sites fs := List.filterMap_append

theorem mem_sites_shown {visited : Bool} {es : List Event} {t : String} :
    t ∈ (sites (shown visited es)).map Site.text ↔ t ∈ (sites es).map Site.text := by
  cases visited with
  | true => exact Iff.rfl
  | false =>
    show t ∈ (sites (hide es)).map Site.text ↔ t ∈ (sites es).map Site.text
    induction es with
    | nil => exact Iff.rfl
    | cons e es ih =>
      cases e with
      | text x =>
        show t ∈ x.text :: (sites (hide es)).map Site.text ↔ t ∈ x.text :: (sites es).map Site.text
        rw [List.mem_cons, List.mem_cons, ih]
      | init => exact ih
      | set _ => exact ih

/-- The texts at some events stay what they are. -/
def Fixes (f : String → String) (es : List Event) : Prop := ∀ t ∈ (sites es).map Site.text, f t = t

@[simp] theorem fixes_nil (f : String → String) : Fixes f [] := fun _ h => by cases h

@[simp] theorem fixes_append {f : String → String} {es fs : List Event} :
    Fixes f (es ++ fs) ↔ Fixes f es ∧ Fixes f fs := by
  simp only [Fixes, sites_append, List.map_append, List.mem_append, or_imp, forall_and]

@[simp] theorem fixes_shown {f : String → String} {visited : Bool} {es : List Event} :
    Fixes f (shown visited es) ↔ Fixes f es := by
  simp only [Fixes, mem_sites_shown]

@[simp] theorem fixes_text {f : String → String} {x : Site} : Fixes f [.text x] ↔ f x.text = x.text := by
  simp [Fixes, sites, Event.site?]

theorem Fixes.init_cons {f : String → String} {es : List Event} (h : Fixes f (.init :: es)) : Fixes f es := h

mutual

/-- Where all texts stay what they are, the tree does. -/
theorem mapTexts_of_fixes {f : String → String} (A : Address) (i : Int) :
    ∀ node : CTree, Fixes f (events A i node) → mapTexts f node = node
  | .block kind items, h => by
    rw [mapTexts, mapTextsList_of_fixes _ _ _ items h]
  | .decl kind ctype name colonExpr assignExpr body, h => by
    simp only [events, fixes_append, fixes_text] at h
    obtain ⟨⟨⟨⟨ht, hn⟩, hc⟩, ha⟩, hb⟩ := h
    rw [mapTexts, mapTextsTypes_of_fixes A i _ ctype ht, hn, mapTextsOpt_of_fixes _ i colonExpr hc,
      mapTextsOpt_of_fixes _ i assignExpr ha, mapTextsOpt_of_fixes _ i body hb]
  | .expr exprType operator left right condition thenExpr elseExpr body list, h => by
    simp only [events, operand, fixes_append] at h
    obtain ⟨⟨⟨⟨⟨⟨⟨_, ⟨_, hl⟩, _⟩, ⟨_, hr⟩, _⟩, hc⟩, ht⟩, he⟩, hb⟩, hp⟩ := h
    rw [mapTexts, mapTextsOpt_of_fixes _ i left hl, mapTextsOpt_of_fixes _ i right hr,
      mapTextsOpt_of_fixes _ i condition hc, mapTextsOpt_of_fixes _ i thenExpr ht,
      mapTextsOpt_of_fixes _ i elseExpr he, mapTextsOpt_of_fixes _ i body hb, mapTextsPostfixes_of_fixes A i _ list hp]
  | .terminal id, h => by
    rw [mapTexts, fixes_text.1 (Fixes.init_cons h)]
  | .stmt expr label condition thenStmt elseStmt initial increment body, h => by
    simp only [events, fixes_append, fixes_text] at h
    obtain ⟨⟨⟨⟨⟨⟨⟨hx, hl⟩, hc⟩, ht⟩, he⟩, hn⟩, hm⟩, hb⟩ := h
    rw [mapTexts, mapTextsTarget_of_fixes _ i expr hx, hl, mapTextsOpt_of_fixes _ i condition hc,
      mapTextsBody_of_fixes _ i thenStmt ht, mapTextsBody_of_fixes _ i elseStmt he,
      mapTextsOpt_of_fixes _ i initial hn, mapTextsOpt_of_fixes _ i increment hm, mapTextsBody_of_fixes _ i body hb]
  | .indexDesignation index expr, h => by
    simp only [events, fixes_append] at h
    rw [mapTexts, mapTexts_of_fixes _ i index h.1, mapTexts_of_fixes _ i expr h.2]
  | .fieldDesignation name expr, h => by
    simp only [events, fixes_append, fixes_text] at h
    rw [mapTexts, h.1, mapTexts_of_fixes _ i expr h.2]
  | .pointcutRaw id, h => by
    rw [mapTexts, fixes_text.1 h]

theorem mapTextsOpt_of_fixes {f : String → String} (A : Address) (i : Int) :
    ∀ node : Option CTree, Fixes f (eventsOpt A i node) → mapTextsOpt f node = node
  | none, _ => rfl
  | some node, h => by rw [mapTextsOpt, mapTexts_of_fixes A i node h]

theorem mapTextsTarget_of_fixes {f : String → String} (A : Address) (i : Int) :
    ∀ node : Option CTree, Fixes f (eventsTarget A i node) → mapTextsOpt f node = node
  | none, _ => rfl
  | some node, h => by
    cases hid : node.id? with
    | some id =>
      simp only [eventsTarget, hid, fixes_text] at h
      cases node with
      | terminal | pointcutRaw =>
        cases hid
        rw [mapTextsOpt, mapTexts, h]
      | block | decl | expr | stmt | indexDesignation | fieldDesignation => cases hid
    | none =>
      simp only [eventsTarget, hid] at h
      rw [mapTextsOpt, mapTexts_of_fixes A i node h]

theorem mapTextsBody_of_fixes {f : String → String} (A : Address) (i : Int) :
    ∀ node : Option CTree, Fixes f (eventsBody A i node) → mapTextsOpt f node = node
  | none, _ => rfl
  | some node, h => by
    rw [eventsBody] at h
    split at h
    · rw [mapTextsOpt, mapTexts_of_fixes _ _ node h]
    · rw [mapTextsOpt, mapTexts_of_fixes _ _ node h]

theorem mapTextsList_of_fixes {f : String → String} (place : Nat → Address × Int) (visits : CTree → Bool) :
    ∀ (j : Nat) (nodes : List CTree), Fixes f (eventsList place visits j nodes) → mapTextsList f nodes = nodes
  | _, [], _ => rfl
  | j, node :: nodes, h => by
    simp only [eventsList, fixes_append, fixes_shown] at h
    rw [mapTextsList, mapTexts_of_fixes _ _ node h.1, mapTextsList_of_fixes place visits _ nodes h.2]

theorem mapTextsTypes_of_fixes {f : String → String} (A : Address) (i : Int) :
    ∀ (j : Nat) (types : List CType), Fixes f (eventsTypes A i j types) → mapTextsTypes f types = types
  | _, [], _ => rfl
  | j, .mk body identifier list param enum :: types, h => by
    simp only [eventsTypes, fixes_append, fixes_text] at h
    obtain ⟨⟨⟨⟨⟨hb, hn⟩, hl⟩, hp⟩, he⟩, hs⟩ := h
    rw [mapTextsTypes, mapTextsOpt_of_fixes _ i body hb, hn, mapTextsList_of_fixes _ _ _ list hl,
      mapTextsOpt_of_fixes _ i param hp, mapTextsList_of_fixes _ _ _ enum he, mapTextsTypes_of_fixes A i _ types hs]

theorem mapTextsPostfixes_of_fixes {f : String → String} (A : Address) (i : Int) :
    ∀ (j : Nat) (items : List Postfix), Fixes f (eventsPostfixes A i j items) → mapTextsPostfixes f items = items
  | _, [], _ => rfl
  | j, .index expr :: items, h => by
    simp only [eventsPostfixes, fixes_append, fixes_shown] at h
    rw [mapTextsPostfixes, mapTexts_of_fixes _ i expr h.1, mapTextsPostfixes_of_fixes A i _ items h.2]
  | j, .call args :: items, h => by
    simp only [eventsPostfixes, fixes_append] at h
    rw [mapTextsPostfixes, mapTextsList_of_fixes _ _ _ args h.1, mapTextsPostfixes_of_fixes A i _ items h.2]

end

/-- At every event the text that was there is put back. -/
def Restores (f : String → String) : List Event → Walk → Prop
  | [], _ => True
  | e :: es, s => (∀ x, e = .text x → f (x.visit s).1 = x.text) ∧ Restores f es (e.run s)

@[simp] theorem restores_nil (f : String → String) (s : Walk) : Restores f [] s := trivial

@[simp] theorem restores_append {f : String → String} {fs : List Event} :
    ∀ (es : List Event) {s : Walk}, Restores f (es ++ fs) s ↔ Restores f es s ∧ Restores f fs (run es s)
  | [], _ => by simp
  | e :: es, s => by
    simp only [List.cons_append, Restores, restores_append es, run_cons, and_assoc]

@[simp] theorem restores_text {f : String → String} {x : Site} {s : Walk} :
    Restores f [.text x] s ↔ f (x.visit s).1 = x.text := by
  simp [Restores]

theorem restores_hide {f : String → String} {s : Walk} : ∀ (es : List Event), Restores f (hide es) s → Fixes f es
  | [], _ => fixes_nil f
  | .text x :: es, h => by
    have hx := h.1 _ rfl
    have hes := restores_hide es h.2
    rw [← List.singleton_append, fixes_append]
    exact ⟨fixes_text.2 hx, hes⟩
  | .init :: es, h => restores_hide es h
  | .set _ :: es, h => restores_hide es h

mutual

/-- Putting the texts back after the walk gives the tree before it, with single statements made blocks. -/
theorem mapTexts_compile {f : String → String} (A : Address) (i : Int) :
    ∀ (node : CTree) (s : Walk), Restores f (events A i node) s → mapTexts f (compile A i node s).1 = upgrade node
  | .block kind items, s, h => by
    simp only [compile, mapTexts, upgrade, mapTexts_compileList _ _ _ items s h]
  | .decl kind ctype name colonExpr assignExpr body, s, h => by
    simp only [events, restores_append, restores_text, run_append] at h
    obtain ⟨⟨⟨⟨ht, hn⟩, hc⟩, ha⟩, hb⟩ := h
    simp only [compile, mapTexts, upgrade, compileTypes_run, compileOpt_run]
    rw [mapTexts_compileTypes A i _ ctype _ ht]
    congr 1
    · exact mapTexts_compileOpt _ i colonExpr _ hc
    · exact mapTexts_compileOpt _ i assignExpr _ ha
    · exact mapTexts_compileOpt _ i body _ hb
  | .expr exprType operator left right condition thenExpr elseExpr body list, s, h => by
    simp only [events, operand, restores_append, run_append, run_pointing, run_resting] at h
    obtain ⟨⟨⟨⟨⟨⟨⟨_, ⟨_, hl⟩, _⟩, ⟨_, hr⟩, _⟩, hc⟩, ht⟩, he⟩, hb⟩, hp⟩ := h
    simp only [compile, mapTexts, upgrade, compileOpt_run]
    congr 1
    · exact mapTexts_compileOpt _ i left _ hl
    · exact mapTexts_compileOpt _ i right _ hr
    · exact mapTexts_compileOpt _ i condition _ hc
    · exact mapTexts_compileOpt _ i thenExpr _ ht
    · exact mapTexts_compileOpt _ i elseExpr _ he
    · exact mapTexts_compileOpt _ i body _ hb
    · exact mapTexts_compilePostfixes A i _ list _ hp
  | .terminal id, s, h => congrArg CTree.terminal (h.2.1 _ rfl)
  | .stmt expr label condition thenStmt elseStmt initial increment body, s, h => by
    simp only [events, restores_append, restores_text, run_append] at h
    obtain ⟨⟨⟨⟨⟨⟨⟨hx, hl⟩, hc⟩, ht⟩, he⟩, hn⟩, hm⟩, hb⟩ := h
    simp only [compile, mapTexts, upgrade, compileOpt_run, compileBody_run, compileTarget_run]
    congr 1
    · exact mapTexts_compileTarget _ i expr _ hx
    · exact mapTexts_compileOpt _ i condition _ hc
    · exact mapTexts_compileBody _ i thenStmt _ ht
    · exact mapTexts_compileBody _ i elseStmt _ he
    · exact mapTexts_compileOpt _ i initial _ hn
    · exact mapTexts_compileOpt _ i increment _ hm
    · exact mapTexts_compileBody _ i body _ hb
  | .indexDesignation index expr, s, h => by
    simp only [events, restores_append] at h
    simp only [compile, mapTexts, upgrade, compile_run, mapTexts_compile _ i index _ h.1,
      mapTexts_compile _ i expr _ h.2]
  | .fieldDesignation name expr, s, h => by
    simp only [events, restores_append, restores_text] at h
    simp only [compile, mapTexts, upgrade]
    congr 1
    · exact h.1
    · exact mapTexts_compile _ i expr _ h.2
  | .pointcutRaw id, s, h => congrArg CTree.pointcutRaw (h.1 _ rfl)

theorem mapTexts_compileOpt {f : String → String} (A : Address) (i : Int) :
    ∀ (node : Option CTree) (s : Walk),
      Restores f (eventsOpt A i node) s → mapTextsOpt f (compileOpt A i node s).1 = upgradeOpt node
  | none, _, _ => rfl
  | some node, s, h => congrArg some (mapTexts_compile A i node s h)

theorem mapTexts_compileTarget {f : String → String} (A : Address) (i : Int) :
    ∀ (node : Option CTree) (s : Walk),
      Restores f (eventsTarget A i node) s → mapTextsOpt f (compileTarget A i node s).1 = upgradeOpt node
  | none, _, _ => rfl
  | some node, s, h => by
    cases hid : node.id? with
    | some id =>
      simp only [eventsTarget, hid, restores_text] at h
      simp only [compileTarget, hid, mapTextsOpt, upgradeOpt]
      cases node with
      | terminal => cases hid; exact congrArg (fun t => some (CTree.terminal t)) h
      | pointcutRaw => cases hid; exact congrArg (fun t => some (CTree.pointcutRaw t)) h
      | block | decl | expr | stmt | indexDesignation | fieldDesignation => cases hid
    | none =>
      simp only [eventsTarget, hid] at h
      simp only [compileTarget, hid, mapTextsOpt, upgradeOpt, mapTexts_compile A i node s h]

theorem mapTexts_compileBody {f : String → String} (A : Address) (i : Int) :
    ∀ (node : Option CTree) (s : Walk),
      Restores f (eventsBody A i node) s → mapTextsOpt f (compileBody A i node s).1 = upgradeBody node
  | none, _, _ => rfl
  | some node, s, h => by
    simp only [eventsBody] at h
    simp only [compileBody, upgradeBody]
    split at h
    · simp only [*, ↓reduceIte, mapTextsOpt, mapTexts_compile _ _ node s h]
    · simp only [*, ↓reduceIte, mapTextsOpt, mapTexts, mapTextsList, mapTexts_compile _ _ node s h, Bool.false_eq_true]

theorem mapTexts_compileList {f : String → String} (place : Nat → Address × Int) (visits : CTree → Bool) :
    ∀ (j : Nat) (nodes : List CTree) (s : Walk),
      Restores f (eventsList place visits j nodes) s →
        mapTextsList f (compileList place visits j nodes s).1 = upgradeList visits nodes
  | _, [], _, _ => rfl
  | j, node :: nodes, s, h => by
    simp only [eventsList, restores_append] at h
    cases hvisit : visits node with
    | true =>
      simp only [hvisit, shown, ↓reduceIte] at h
      simp only [compileList, upgradeList, hvisit, ↓reduceIte, mapTextsList, compile_run,
        mapTexts_compile _ _ node s h.1, mapTexts_compileList place visits _ nodes _ h.2]
    | false =>
      simp only [hvisit, shown, Bool.false_eq_true, ↓reduceIte, run_hide] at h
      simp only [compileList, upgradeList, hvisit, Bool.false_eq_true, ↓reduceIte, mapTextsList,
        mapTexts_of_fixes _ _ node (restores_hide _ h.1), mapTexts_compileList place visits _ nodes _ h.2]

theorem mapTexts_compileTypes {f : String → String} (A : Address) (i : Int) :
    ∀ (j : Nat) (types : List CType) (s : Walk),
      Restores f (eventsTypes A i j types) s → mapTextsTypes f (compileTypes A i j types s).1 = upgradeTypes types
  | _, [], _, _ => rfl
  | j, .mk body identifier list param enum :: types, s, h => by
    simp only [eventsTypes, restores_append, restores_text, run_append] at h
    obtain ⟨⟨⟨⟨⟨hb, hn⟩, hl⟩, hp⟩, he⟩, hs⟩ := h
    simp only [compileTypes, mapTextsTypes, upgradeTypes, compileOpt_run, compileList_run]
    congr 1
    · congr 1
      · exact mapTexts_compileOpt _ i body _ hb
      · exact mapTexts_compileList _ _ _ list _ hl
      · exact mapTexts_compileOpt _ i param _ hp
      · exact mapTexts_compileList _ _ _ enum _ he
    · exact mapTexts_compileTypes A i _ types _ hs

theorem mapTexts_compilePostfixes {f : String → String} (A : Address) (i : Int) :
    ∀ (j : Nat) (items : List Postfix) (s : Walk),
      Restores f (eventsPostfixes A i j items) s →
        mapTextsPostfixes f (compilePostfixes A i j items s).1 = upgradePostfixes items
  | _, [], _, _ => rfl
  | j, .index expr :: items, s, h => by
    simp only [eventsPostfixes, restores_append] at h
    cases hlist : expr.hasList with
    | true =>
      simp only [hlist, shown, Bool.not_true, Bool.false_eq_true, ↓reduceIte, run_hide] at h
      simp only [compilePostfixes, upgradePostfixes, hlist, ↓reduceIte, mapTextsPostfixes,
        mapTexts_of_fixes _ _ expr (restores_hide _ h.1), mapTexts_compilePostfixes A i _ items _ h.2]
    | false =>
      simp only [hlist, shown, Bool.not_false, ↓reduceIte] at h
      simp only [compilePostfixes, upgradePostfixes, hlist, Bool.false_eq_true, ↓reduceIte, mapTextsPostfixes,
        compile_run, mapTexts_compile _ _ expr s h.1, mapTexts_compilePostfixes A i _ items _ h.2]
  | j, .call args :: items, s, h => by
    simp only [eventsPostfixes, restores_append] at h
    simp only [compilePostfixes, upgradePostfixes, mapTextsPostfixes, compileList_run,
      mapTexts_compileList _ _ _ args s h.1, mapTexts_compilePostfixes A i _ items _ h.2]

end

/-! ## Texts after the walk -/

/-- The texts at some sites after the walk, with the keys that follow one. -/
def labels : List Site → Nat → List String
  | [], _ => []
  | x :: xs, n => if x.replaced then placeHolderKey (n + 1) :: labels xs (n + 1) else x.text :: labels xs n

/-- The texts that stay. -/
def keptTexts (xs : List Site) : List String := (xs.filter (fun x => !x.replaced)).map Site.text

theorem texts_relabel : ∀ (es : List Event) (s : Walk),
    (sites (relabel es s)).map Site.text = labels (sites es) s.nbplaceholder
  | [], _ => rfl
  | .text x :: es, s => by
    have ih := texts_relabel es (x.visit s).2
    show (x.visit s).1 :: (sites (relabel es (x.visit s).2)).map Site.text = labels (x :: sites es) s.nbplaceholder
    rw [ih, labels]
    cases hx : x.replaced with
    | true => rw [Site.visit_of_replaced hx, if_pos rfl]
    | false => rw [Site.visit_of_not_replaced hx, if_neg Bool.false_ne_true]
  | .init :: es, s => by
    have hcount : s.initPhtype.nbplaceholder = s.nbplaceholder := by rw [s.initPhtype_eq]
    exact (texts_relabel es s.initPhtype).trans (by rw [hcount]; rfl)
  | .set q :: es, s => texts_relabel es (s.setPhtype q)

theorem length_recorded : ∀ (es : List Event) (p : Option PhType),
    (recorded es p).length = (sites es).countP Site.replaced
  | [], _ => rfl
  | .text x :: es, p => by
    show (Event.recorded p (.text x) ++ recorded es p).length = (x :: sites es).countP Site.replaced
    rw [List.length_append, length_recorded es p, List.countP_cons, Event.recorded]
    cases hx : x.replaced with
    | true => simp [Nat.add_comm]
    | false => simp
  | .init :: es, p => length_recorded es _
  | .set _ :: es, p => length_recorded es _

/-- A key stands once at the site it was put at, and wherever it was before. -/
theorem count_labels (m : Nat) : ∀ (xs : List Site) (n : Nat),
    (labels xs n).count (placeHolderKey m) =
      (keptTexts xs).count (placeHolderKey m) + if n < m ∧ m ≤ n + xs.countP Site.replaced then 1 else 0
  | [], n => by
    have hnone : ¬(n < m ∧ m ≤ n + 0) := by omega
    rw [List.countP_nil, if_neg hnone]
    rfl
  | x :: xs, n => by
    cases hx : x.replaced with
    | true =>
      have hkept : keptTexts (x :: xs) = keptTexts xs := by simp [keptTexts, hx]
      rw [labels, if_pos hx, List.count_cons, count_labels m xs (n + 1), hkept, List.countP_cons_of_pos hx, Nat.add_assoc]
      congr 1
      by_cases hm : m = n + 1
      · simp [hm]
      · have hne : (placeHolderKey (n + 1) == placeHolderKey m) = false :=
          beq_false_of_ne fun h => hm (placeHolderKey_injective h).symm
        rw [hne, if_neg Bool.false_ne_true, Nat.add_zero]
        congr 1
        exact propext ⟨fun h => by omega, fun h => by omega⟩
    | false =>
      have hkept : keptTexts (x :: xs) = x.text :: keptTexts xs := by simp [keptTexts, hx]
      rw [labels, hx, if_neg Bool.false_ne_true, List.count_cons, count_labels m xs n, hkept, List.count_cons,
        List.countP_cons_of_neg (by simp [hx])]
      omega

theorem mem_labels {t : String} : ∀ {xs : List Site} {n : Nat}, t ∈ labels xs n →
    t ∈ keptTexts xs ∨ ∃ m, t = placeHolderKey m
  | x :: xs, n, h => by
    cases hx : x.replaced with
    | true =>
      rw [labels, if_pos hx, List.mem_cons] at h
      rcases h with h | h
      · exact Or.inr ⟨n + 1, h⟩
      · simpa [keptTexts, hx] using mem_labels h
    | false =>
      rw [labels, hx, if_neg Bool.false_ne_true, List.mem_cons] at h
      rcases h with h | h
      · exact Or.inl (by simp [keptTexts, hx, h])
      · rcases mem_labels h with hkept | hkey
        · exact Or.inl (by simpa [keptTexts, hx] using Or.inr hkept)
        · exact Or.inr hkey

theorem mem_labels_of_kept {t : String} : ∀ {xs : List Site} {n : Nat}, t ∈ keptTexts xs → t ∈ labels xs n
  | x :: xs, n, h => by
    cases hx : x.replaced with
    | true =>
      rw [labels, if_pos hx]
      exact List.mem_cons_of_mem _ (mem_labels_of_kept (by simpa [keptTexts, hx] using h))
    | false =>
      rw [labels, hx, if_neg Bool.false_ne_true]
      have h' : t = x.text ∨ t ∈ keptTexts xs := by simpa [keptTexts, hx] using h
      rcases h' with rfl | h'
      · exact List.mem_cons_self
      · exact List.mem_cons_of_mem _ (mem_labels_of_kept h')

theorem havePlaceHolder_key (n : Nat) : havePlaceHolder (placeHolderKey n) = false := by
  have hdollar : '$' ∉ (placeHolderKey n).toList := by
    rw [placeHolderKey, String.toList_append, Nat.toString_eq_repr, Nat.toList_repr, List.mem_append]
    rintro (h | h)
    · revert h
      decide
    · have hdigit := Nat.isDigit_of_mem_toDigits (by decide) (by decide) h
      revert hdigit
      decide
  refine decide_eq_false fun h => hdollar (h.subset ?_)
  exact List.mem_cons_self

/-- A placeholder that stays is one that is not come to. -/
theorem Site.unvisited_of_kept {x : Site} (hx : x.replaced = false) (htext : havePlaceHolder x.text = true) :
    x.role = .unvisited := by
  unfold Site.replaced at hx
  cases hrole : x.role with
  | unvisited => rfl
  | raw =>
    rw [hrole] at hx
    cases hx
  | identifier | typeName | terminal | statement =>
    rw [hrole] at hx
    exact absurd htext (by rw [show havePlaceHolder x.text = false from hx]; decide)

theorem Site.kept_of_unvisited {x : Site} (hx : x.role = .unvisited) : x.replaced = false := by
  rw [Site.replaced, hx]
  rfl

/-- Texts are put back where those that stay are no keys and each key has its text. -/
theorem restores_of {f : String → String} : ∀ (es : List Event) (s : Walk),
    (∀ t ∈ keptTexts (sites es), f t = t) →
    (∀ e ∈ number s.nbplaceholder (recorded es s.phtype), f e.1 = e.2.templateExpr) → Restores f es s
  | [], _, _, _ => trivial
  | .text x :: es, s, hkept, hkeys => by
    have hkept' : ∀ t ∈ keptTexts (x :: sites es), f t = t := hkept
    have hkeys' : ∀ e ∈ number s.nbplaceholder (Event.recorded s.phtype (.text x) ++ recorded es s.phtype),
      f e.1 = e.2.templateExpr := hkeys
    cases hx : x.replaced with
    | true =>
      simp only [Event.recorded, hx, ↓reduceIte, List.cons_append, List.nil_append, number, List.mem_cons,
        forall_eq_or_imp] at hkeys'
      simp only [keptTexts, hx, Bool.not_true, Bool.false_eq_true, not_false_eq_true, List.filter_cons_of_neg] at hkept'
      refine ⟨?_, ?_⟩
      · rintro _ ⟨⟩
        rw [Site.visit_of_replaced hx]
        exact hkeys'.1
      · rw [Event.run, Site.visit_of_replaced hx]
        exact restores_of es _ hkept' hkeys'.2
    | false =>
      simp only [Event.recorded, hx, Bool.false_eq_true, ↓reduceIte, List.nil_append] at hkeys'
      simp only [keptTexts, hx, Bool.not_false, List.filter_cons_of_pos, List.map_cons, List.mem_cons,
        forall_eq_or_imp] at hkept'
      refine ⟨?_, ?_⟩
      · rintro _ ⟨⟩
        rw [Site.visit_of_not_replaced hx]
        exact hkept'.1
      · rw [Event.run, Site.visit_of_not_replaced hx]
        exact restores_of es _ hkept'.2 hkeys'
  | .init :: es, s, hkept, hkeys => by
    refine ⟨fun x h => (by cases h), restores_of es _ hkept ?_⟩
    rw [Event.run, s.initPhtype_eq]
    exact hkeys
  | .set q :: es, s, hkept, hkeys => ⟨fun x h => (by cases h), restores_of es (s.setPhtype q) hkept hkeys⟩

/-! ## The round trip -/

/-- The sites of a tree. -/
def sitesOf (node : CTree) : List Site := sites (events [] (-1) node)

/-- The identifiers, type names, labels, field names and terminals of a tree. -/
def texts (node : CTree) : List String := (sitesOf node).map Site.text

/-- Those that stay what they are. -/
def kept (node : CTree) : List String := keptTexts (sitesOf node)

/-- Those the walk does not come to. -/
def skipped (node : CTree) : List String := ((sitesOf node).filter (fun x => x.role = .unvisited)).map Site.text

/-- The text of the entry under a key. -/
def templateOf (table : Table Entry) (t : String) : String :=
  match table.get? t with
  | some entry => entry.templateExpr
  | none => t

/-- After the walk no placeholder is left, the keys are numbered, each of them stands at one place, and putting the texts
back gives the tree one had, with single statements made blocks. -/
structure RoundTrips (node : CTree) (r : CTree × Walk) : Prop where
  noneLeft : ∀ t ∈ texts r.1, havePlaceHolder t = false
  keys : r.2.compile.entries.map Prod.fst = (List.range' 1 r.2.nbplaceholder).map placeHolderKey
  once : ∀ m, 1 ≤ m → m ≤ r.2.nbplaceholder → (texts r.1).count (placeHolderKey m) = 1
  restored : mapTexts (templateOf r.2.compile) r.1 = upgrade node

section

variable (phtype : Option PhType) (node : CTree)

theorem ran_compileRoot :
    Ran (events [] (-1) node) ⟨Table.empty, 0, phtype⟩ (compileRoot phtype node).2 := by
  rw [compileRoot, compile_run]
  exact ran _ rfl

theorem nbplaceholder_compileRoot : (compileRoot phtype node).2.nbplaceholder = (sitesOf node).countP Site.replaced := by
  rw [(ran_compileRoot phtype node).counter, length_recorded, Nat.zero_add]
  rfl

theorem texts_compileRoot : texts (compileRoot phtype node).1 = labels (sitesOf node) 0 := by
  rw [texts, sitesOf, compileRoot, events_compile, texts_relabel]
  rfl

theorem noneLeft_iff : (∀ t ∈ texts (compileRoot phtype node).1, havePlaceHolder t = false) ↔
    ∀ t ∈ skipped node, havePlaceHolder t = false := by
  rw [texts_compileRoot]
  constructor
  · intro h t ht
    obtain ⟨x, hx, rfl⟩ := List.mem_map.1 ht
    obtain ⟨hmem, hrole⟩ := List.mem_filter.1 hx
    refine h _ (mem_labels_of_kept (List.mem_map_of_mem (List.mem_filter.2 ⟨hmem, ?_⟩)))
    rw [Site.kept_of_unvisited (of_decide_eq_true hrole)]
    rfl
  · intro h t ht
    rcases mem_labels ht with hkept | ⟨m, rfl⟩
    · obtain ⟨x, hx, rfl⟩ := List.mem_map.1 hkept
      obtain ⟨hmem, hx⟩ := List.mem_filter.1 hx
      rw [Bool.eq_false_iff]
      intro htext
      have hrole := Site.unvisited_of_kept (by simpa using hx) htext
      have hskipped : x.text ∈ skipped node :=
        List.mem_map_of_mem (List.mem_filter.2 ⟨hmem, decide_eq_true hrole⟩)
      rw [h _ hskipped] at htext
      cases htext
    · exact havePlaceHolder_key m

theorem once_iff : (∀ m, 1 ≤ m → m ≤ (compileRoot phtype node).2.nbplaceholder →
      (texts (compileRoot phtype node).1).count (placeHolderKey m) = 1) ↔
    ∀ m, 1 ≤ m → m ≤ (compileRoot phtype node).2.nbplaceholder → placeHolderKey m ∉ kept node := by
  rw [texts_compileRoot, nbplaceholder_compileRoot]
  refine forall_congr' fun m => forall_congr' fun hlow => forall_congr' fun hhigh => ?_
  rw [count_labels, if_pos ⟨hlow, by rwa [Nat.zero_add]⟩, Nat.add_eq_right, List.count_eq_zero]
  rfl

theorem restored_of (h : ∀ m, 1 ≤ m → m ≤ (compileRoot phtype node).2.nbplaceholder → placeHolderKey m ∉ kept node) :
    mapTexts (templateOf (compileRoot phtype node).2.compile) (compileRoot phtype node).1 = upgrade node := by
  have hran := ran_compileRoot phtype node
  have hnumbered : Numbered (compileRoot phtype node).2 := hran.numbered rfl
  refine mapTexts_compile [] (-1) node _ (restores_of _ _ ?_ ?_)
  · intro t ht
    have hnone : (compileRoot phtype node).2.compile.get? t = none := by
      rw [Option.eq_none_iff_forall_ne_some]
      intro entry hget
      have hmem := List.mem_map_of_mem (f := Prod.fst) ((Table.mem_entries_iff _ _ _).2 hget)
      rw [hnumbered, List.mem_map] at hmem
      obtain ⟨m, hm, rfl⟩ := hmem
      rw [List.mem_range'_1] at hm
      exact h m hm.1 (by omega) ht
    rw [templateOf, hnone]
  · intro e he
    have hget := (Table.mem_entries_iff (compileRoot phtype node).2.compile e.1 e.2).1 (by
      rw [hran.entries]
      exact List.mem_append_right _ he)
    rw [templateOf, hget]

/-- Placeholders can be put back just if the walk comes to all of them and no text that stays is one of the keys, of
which there are as many as placeholders the walk comes to. -/
theorem roundTrips_iff : RoundTrips node (compileRoot phtype node) ↔
    (∀ t ∈ skipped node, havePlaceHolder t = false) ∧
      ∀ m, 1 ≤ m → m ≤ (sitesOf node).countP Site.replaced → placeHolderKey m ∉ kept node := by
  rw [← nbplaceholder_compileRoot phtype node]
  constructor
  · intro h
    exact ⟨(noneLeft_iff phtype node).1 h.noneLeft, (once_iff phtype node).1 h.once⟩
  · rintro ⟨hskipped, hkept⟩
    exact
      { noneLeft := (noneLeft_iff phtype node).2 hskipped
        keys := (ran_compileRoot phtype node).numbered rfl
        once := (once_iff phtype node).2 hkept
        restored := restored_of phtype node hkept }

end

/-- `a[b[c]]`, where `c` is a placeholder. -/
def nestedIndex : CTree :=
  let index (array : String) (expr : CTree) : CTree :=
    .expr "__postexpr__" "" (some (.terminal array)) none none none none none [.index expr]
  index "a" (index "b" (.terminal "$\x7bc\x7d"))

/-- The placeholder is left in the tree. -/
theorem nestedIndex_left : ¬RoundTrips nestedIndex (compileRoot none nestedIndex) := by
  intro h
  have hleft := h.noneLeft "$\x7bc\x7d" (by decide)
  revert hleft
  decide

end Rathaxes.Back
