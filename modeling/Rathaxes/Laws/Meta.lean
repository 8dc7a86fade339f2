import Rathaxes.Back.Meta

/-!
# Placeholders that cannot be parsed

`rtxMeta_walk` counts its failures and returns them through every level, with-blocks, templates and mappings. `rtxMeta` does
not look at what it returns, and asks for the attribute `error` of the items instead, which the walk never sets.
-/

set_option autoImplicit false

namespace Rathaxes.Back

open CodeWorker

/-! ## The tables in a file -/

section

variable {Holder : Type}

mutual

/-- The tables in an item. -/
def tables : SourceItem (Compiled Holder) → List (Table Holder)
  | .withBlock body cBlock _ => tablesAll body ++ [cBlock.2]
  | .tpl body mapping _ => tablesAll body ++ (mapping.getD []).map Prod.snd
  | .chunk body _ => [body.2]
  | .other _ => []

def tablesAll : List (SourceItem (Compiled Holder)) → List (Table Holder)
  | [] => []
  | item :: items => tables item ++ tablesAll items

end

/-- The placeholders in some tables. -/
def holders (ts : List (Table Holder)) : List Holder := ts.flatMap fun t => t.entries.map Prod.snd

theorem holders_append (ts us : List (Table Holder)) : holders (ts ++ us) = holders ts ++ holders us :=
  List.flatMap_append

end

/-- The placeholders extracted from a file. -/
def extracted (source : List (SourceItem CTree)) (phtype : Option PhType) : List Entry :=
  holders (tablesAll (phWalkAll source phtype).1)

/-! ## The second walk -/

section

variable {Node : Type} (parse : String → Option Node)

/-- The placeholders can all be parsed. -/
def Parses (entries : List Entry) : Prop := ∀ entry ∈ entries, (parse entry.templateExpr).isSome = true

theorem parses_append {es fs : List Entry} : Parses parse (es ++ fs) ↔ Parses parse es ∧ Parses parse fs :=
  List.forall_mem_append

theorem node_parsePlaceHolder (entry : Entry) : (parsePlaceHolder parse entry).1.node = parse entry.templateExpr := by
  unfold parsePlaceHolder
  split <;> simp only [*]

theorem parsePlaceHolder_snd (entry : Entry) :
    (parsePlaceHolder parse entry).2 = (parse entry.templateExpr).isSome := by
  unfold parsePlaceHolder
  split <;> simp only [*, Option.isSome]

/-- The loop over a table has no failure just if all its placeholders can be parsed. -/
theorem parseAll_eq_zero_iff (code : Compiled Entry) :
    (parseAll parse code).2 = 0 ↔ Parses parse (holders [code.2]) := by
  simp only [parseAll, List.countP_eq_zero, parsePlaceHolder_snd, Parses, holders, List.flatMap_cons, List.flatMap_nil,
    List.append_nil, List.forall_mem_map, Bool.not_eq_true', Bool.not_eq_false]

theorem parseMapping_eq_zero_iff (mapping : Option (List (Compiled Entry))) :
    (parseMapping parse mapping).2 = 0 ↔ Parses parse (holders ((mapping.getD []).map Prod.snd)) := by
  cases mapping with
  | none => simp [parseMapping, Parses, holders]
  | some codes =>
    simp only [parseMapping, Option.getD_some]
    induction codes with
    | nil => simp [Parses, holders]
    | cons code codes ih =>
      have hcons : holders ((code :: codes).map Prod.snd) = holders [code.2] ++ holders (codes.map Prod.snd) :=
        holders_append [code.2] (codes.map Prod.snd)
      rw [List.map_cons, List.sum_cons, Nat.add_eq_zero_iff, parseAll_eq_zero_iff, ih, hcons, parses_append]

mutual

/-- The walk returns true just if all placeholders in the item can be parsed. -/
theorem metaWalk_eq_true_iff : ∀ item : SourceItem (Compiled Entry),
    (metaWalk parse item).2 = true ↔ Parses parse (holders (tables item))
  | .withBlock body cBlock error => by
    simp only [metaWalk, tables, decide_eq_true_eq, Nat.add_eq_zero_iff, holders_append, parses_append,
      metaWalkAll_eq_zero_iff body, parseAll_eq_zero_iff]
  | .chunk body error => by
    simp only [metaWalk, tables, decide_eq_true_eq, parseAll_eq_zero_iff]
  | .tpl body mapping error => by
    simp only [metaWalk, tables, decide_eq_true_eq, Nat.add_eq_zero_iff, holders_append, parses_append,
      metaWalkAll_eq_zero_iff body, parseMapping_eq_zero_iff]
  | .other error => by
    simp [metaWalk, tables, holders, Parses]

theorem metaWalkAll_eq_zero_iff : ∀ items : List (SourceItem (Compiled Entry)),
    (metaWalkAll parse items).2 = 0 ↔ Parses parse (holders (tablesAll items))
  | [] => by simp [metaWalkAll, tablesAll, holders, Parses]
  | item :: items => by
    have hcount : (if (metaWalk parse item).2 = false then 1 else 0) = 0 ↔ (metaWalk parse item).2 = true := by
      cases (metaWalk parse item).2 <;> simp
    simp only [metaWalkAll, tablesAll, Nat.add_eq_zero_iff, hcount, holders_append, parses_append,
      metaWalk_eq_true_iff item, metaWalkAll_eq_zero_iff items]

end

mutual

theorem tables_metaWalk : ∀ item : SourceItem (Compiled Entry),
    tables (metaWalk parse item).1 =
      (tables item).map (Table.mapValues fun _ entry => (parsePlaceHolder parse entry).1)
  | .withBlock body cBlock error => by
    simp only [metaWalk, tables, tables_metaWalkAll body, List.map_append]
    rfl
  | .chunk body error => rfl
  | .tpl body mapping error => by
    simp only [metaWalk, tables, tables_metaWalkAll body, List.map_append]
    cases mapping with
    | none => rfl
    | some codes =>
      simp only [parseMapping, Option.getD_some, List.map_map]
      rfl
  | .other error => rfl

theorem tables_metaWalkAll : ∀ items : List (SourceItem (Compiled Entry)),
    tablesAll (metaWalkAll parse items).1 =
      (tablesAll items).map (Table.mapValues fun _ entry => (parsePlaceHolder parse entry).1)
  | [] => rfl
  | item :: items => by
    simp only [metaWalkAll, tablesAll, tables_metaWalk item, tables_metaWalkAll items, List.map_append]

end

/-! ## What `rtxMeta` returns -/

theorem error_phWalk (item : SourceItem CTree) (phtype : Option PhType) : (phWalk item phtype).1.error = item.error := by
  cases item <;> rfl

theorem error_metaWalk (item : SourceItem (Compiled Entry)) : (metaWalk parse item).1.error = item.error := by
  cases item <;> rfl

theorem errors_phWalkAll : ∀ (items : List (SourceItem CTree)) (phtype : Option PhType),
    (phWalkAll items phtype).1.map SourceItem.error = items.map SourceItem.error
  | [], _ => rfl
  | item :: items, phtype => by
    simp only [phWalkAll, List.map_cons, error_phWalk, errors_phWalkAll items]

theorem errors_metaWalkAll : ∀ items : List (SourceItem (Compiled Entry)),
    (metaWalkAll parse items).1.map SourceItem.error = items.map SourceItem.error
  | [] => rfl
  | item :: items => by
    simp only [metaWalkAll, List.map_cons, error_metaWalk, errors_metaWalkAll items]

variable (source : List (SourceItem CTree)) (phtype : Option PhType)

/-- The result is true just if no item had an error before. -/
theorem rtxMeta_eq_true_iff : (rtxMeta parse source phtype).1 = true ↔ ∀ item ∈ source, item.error = "" := by
  have herrors : (metaWalkAll parse (phWalkAll source phtype).1).1.map SourceItem.error = source.map SourceItem.error := by
    rw [errors_metaWalkAll, errors_phWalkAll]
  have hany : (metaWalkAll parse (phWalkAll source phtype).1).1.any (fun item => decide (item.error ≠ "")) =
      (source.map SourceItem.error).any (fun error => decide (error ≠ "")) := by
    rw [← herrors, List.any_map]
    rfl
  rw [rtxMeta, hany]
  simp

/-- Every placeholder in a file has a node. -/
def AllParsed (items : List (SourceItem (Compiled (ParsedHolder Node)))) : Prop :=
  ∀ holder ∈ holders (tablesAll items), holder.node.isSome = true

theorem allParsed_rtxMeta_iff :
    AllParsed (rtxMeta parse source phtype).2 ↔ Parses parse (extracted source phtype) := by
  have hholders : holders (tablesAll (rtxMeta parse source phtype).2) =
      (extracted source phtype).map fun entry => (parsePlaceHolder parse entry).1 := by
    simp only [rtxMeta, tables_metaWalkAll, extracted, holders, List.flatMap_map, List.map_flatMap, Table.mapValues,
      List.map_map]
    rfl
  rw [AllParsed, hholders, List.forall_mem_map]
  simp only [node_parsePlaceHolder, Parses]

/-- If `rtxMeta` returns true every placeholder has a node: that is so just if an item had an error before, so that it does
not return true, or there is no placeholder it fails to parse. -/
theorem rtxMeta_true_parsed_iff :
    ((rtxMeta parse source phtype).1 = true → AllParsed (rtxMeta parse source phtype).2) ↔
      (∃ item ∈ source, item.error ≠ "") ∨ Parses parse (extracted source phtype) := by
  rw [allParsed_rtxMeta_iff, rtxMeta_eq_true_iff]
  constructor
  · intro h
    by_cases herror : ∃ item ∈ source, item.error ≠ ""
    · exact Or.inl herror
    · refine Or.inr (h fun item hitem => ?_)
      by_contra hne
      exact herror ⟨item, hitem, hne⟩
  · rintro (⟨item, hitem, hne⟩ | hparses) hempty
    · exact absurd (hempty item hitem) hne
    · exact hparses

end

/-- A parser for one name only, and a chunk with a placeholder that has none: `rtxMeta` returns true, and the placeholder
has no node. -/
theorem unparsed_accepted :
    let parse := fun t : String => if t = "$\x7bp\x7d" then some "p" else none
    let source : List (SourceItem CTree) := [.chunk (.block .block [.stmt (some (.terminal "$\x7b\x7d")) "" none none none none
      none none]) ""]
    (rtxMeta parse source none).1 = true ∧ ¬AllParsed (rtxMeta parse source none).2 := by
  intro parse source
  refine ⟨by decide, ?_⟩
  rw [allParsed_rtxMeta_iff]
  intro h
  have hentry := h ⟨0, "$\x7b\x7d", .pointcut, .scalar, some [.item .block 0]⟩ (by decide)
  revert hentry
  decide

end Rathaxes.Back
