import Rathaxes.Node.Config

/-!
# What a configuration block assigns

The fields of a block at all depths, each in front of those of its extension, are assigned one after the other. The block
is accepted exactly when no variable is assigned twice, wherever the two assignments are, and then each field has one cell
of the configuration with its value (`buildFromConfig_iff`).
-/

set_option autoImplicit false

namespace Rathaxes

open CodeWorker

mutual

/-- The fields of a block, at all depths. -/
def allFields : List ConfigField → List ConfigField
  | [] => []
  | field :: fields => field.all ++ allFields fields

/-- A field and those of its extension. -/
def ConfigField.all : ConfigField → List ConfigField
  | .mk id val extension => .mk id val extension :: allFields extension

end

namespace ConfigField

/-- The variable a field assigns to. -/
def assigned (field : ConfigField) : Word × Word := (field.id.scope, field.id.name)

/-- The cell of the configuration a field stands for. -/
def cell (field : ConfigField) : (String × String) × ConfigVar :=
  ((field.id.scope.text, field.id.name.text), ⟨field.val.type, field.val⟩)

end ConfigField

/-- What an assignment of fields to a configuration answers and leaves: it fails unless the variables are fresh, and else
each has been put. -/
structure Assigns (config : Config) (fields : List ConfigField) (ok : Bool) (config' : Config) : Prop where
  ok_iff : ok = true ↔ config.Fresh (fields.map ConfigField.cell)
  filed : ok = true → config' = config.putAll (fields.map ConfigField.cell)

theorem Assigns.append {config config' config'' : Config} {fields fields' : List ConfigField} {ok ok' : Bool}
    (h : Assigns config fields ok config') (h' : Assigns config' fields' ok' config'') :
    Assigns config (fields ++ fields') (ok && ok') config'' := by
  have hthen : ok = true →
      (ok' = true ↔ (config.putAll (fields.map ConfigField.cell)).Fresh (fields'.map ConfigField.cell)) := by
    intro hok
    rw [← h.filed hok]
    exact h'.ok_iff
  constructor
  · rw [Bool.and_eq_true, List.map_append, Table.fresh_append, ← h.ok_iff]
    exact and_congr_right hthen
  · intro hok
    obtain ⟨hok, hok'⟩ := Bool.and_eq_true_iff.1 hok
    rw [List.map_append, Table.putAll_append, ← h.filed hok]
    exact h'.filed hok'

theorem assigns_nil (config : Config) : Assigns config [] true config :=
  ⟨⟨fun _ => ⟨List.nodup_nil, fun _ h => (nomatch h)⟩, fun _ => rfl⟩, fun _ => rfl⟩

/-- A variable that is not there is put. -/
theorem assigns_put {config : Config} {field : ConfigField} (h : config.cell? field.cell.1 = none) :
    Assigns config [field] true (config.put field.cell.1 field.cell.2) :=
  ⟨⟨fun _ => Table.fresh_singleton.2 h, fun _ => rfl⟩, fun _ => rfl⟩

/-- A variable that is there is refused, with its extension. -/
theorem assigns_refused {config : Config} {field : ConfigField} {fields : List ConfigField} {v : ConfigVar}
    (h : config.cell? field.cell.1 = some v) : Assigns config (field :: fields) false config := by
  refine ⟨⟨fun hfalse => (nomatch hfalse), fun hfresh => ?_⟩, fun hfalse => (nomatch hfalse)⟩
  have habsent := hfresh.absent field.cell.1 List.mem_cons_self
  rw [h] at habsent
  cases habsent

/-- One field: whether its interface is there makes no difference. -/
theorem buildFromConfigVar_eq (field : ConfigField) (config : Config) :
    buildFromConfigVar field config =
      if (config.cell? field.cell.1).isSome then (false, config)
      else
        let built := buildFromConfigVars field.extension (config.put field.cell.1 field.cell.2)
        (decide (built.1 = 0), built.2) := by
  obtain ⟨id, val, extension⟩ := field
  rw [buildFromConfigVar]
  cases hitf : config.get? id.scope.text with
  | some inner =>
    have hhas : config.has id.scope.text = true := by rw [Table.has, hitf]; rfl
    simp only [hhas, if_true]
    rfl
  | none =>
    have hhas : config.has id.scope.text = false := by rw [Table.has, hitf]; rfl
    have hcell : config.cell? (id.scope.text, id.name.text) = none := by
      rw [Table.cell?, hitf]
      rfl
    have hput : ∀ v, (config.set id.scope.text Table.empty).put (id.scope.text, id.name.text) v =
        config.put (id.scope.text, id.name.text) v := fun v => Table.put_set_empty hitf v
    simp only [hhas, Bool.false_eq_true, if_false, Table.cell?_set_empty hitf, hcell, Option.isSome_none, hput]
    show _ = if (config.cell? (id.scope.text, id.name.text)).isSome = true then _ else _
    rw [hcell]
    rfl

mutual

/-- A field assigns itself and those of its extension. -/
theorem assigns_buildFromConfigVar : ∀ (field : ConfigField) (config : Config),
    Assigns config field.all (buildFromConfigVar field config).1 (buildFromConfigVar field config).2
  | .mk id val extension, config => by
    rw [buildFromConfigVar_eq, ConfigField.all]
    cases hcell : config.cell? (ConfigField.mk id val extension).cell.1 with
    | some v => exact assigns_refused hcell
    | none =>
      have hextension := assigns_buildFromConfigVars extension
        (config.put (ConfigField.mk id val extension).cell.1 (ConfigField.mk id val extension).cell.2)
      exact (assigns_put hcell).append hextension

/-- **The loop over a block** assigns its fields at all depths. -/
theorem assigns_buildFromConfigVars : ∀ (fields : List ConfigField) (config : Config),
    Assigns config (allFields fields) (decide ((buildFromConfigVars fields config).1 = 0))
      (buildFromConfigVars fields config).2
  | [], config => by
    rw [buildFromConfigVars, allFields]
    exact assigns_nil config
  | field :: fields, config => by
    have hfield := assigns_buildFromConfigVar field config
    have hfields := assigns_buildFromConfigVars fields (buildFromConfigVar field config).2
    have hcount : decide ((buildFromConfigVars (field :: fields) config).1 = 0) =
        ((buildFromConfigVar field config).1 &&
          decide ((buildFromConfigVars fields (buildFromConfigVar field config).2).1 = 0)) := by
      rw [buildFromConfigVars]
      cases hok : (buildFromConfigVar field config).1 with
      | false => simp [hok]
      | true => simp [hok]
    rw [hcount, allFields]
    exact hfield.append hfields

end

/-- Cells of different variables have different keys. -/
theorem nodup_cells_iff (fields : List ConfigField) :
    ((fields.map ConfigField.cell).map Prod.fst).Nodup ↔ (fields.map ConfigField.assigned).Nodup := by
  have hinjective : Function.Injective fun words : Word × Word => (words.1.text, words.2.text) := by
    intro words words' h
    obtain ⟨hscope, hname⟩ := Prod.mk.inj h
    exact Prod.ext (Word.text_injective hscope) (Word.text_injective hname)
  have hkeys : (fields.map ConfigField.cell).map Prod.fst =
      (fields.map ConfigField.assigned).map fun words => (words.1.text, words.2.text) := by
    rw [List.map_map, List.map_map]
    rfl
  rw [hkeys, List.nodup_map_iff hinjective]

/-- **A configuration block is accepted** exactly when no variable is assigned twice, at whatever depths. Then the
configuration has one cell for each field, with its value. -/
theorem buildFromConfig_iff (block : List ConfigField) :
    ((buildFromConfig (rtxNodeConfig block) Table.empty).1 = true ↔
        ((allFields block).map ConfigField.assigned).Nodup) ∧
      ((buildFromConfig (rtxNodeConfig block) Table.empty).1 = true →
        (buildFromConfig (rtxNodeConfig block) Table.empty).2.cells.Perm ((allFields block).map ConfigField.cell) ∧
          ∀ field ∈ allFields block,
            (buildFromConfig (rtxNodeConfig block) Table.empty).2.cell? (field.id.scope.text, field.id.name.text) =
              some ⟨field.val.type, field.val⟩) := by
  have hassigns := assigns_buildFromConfigVars block Table.empty
  have hbuilt : buildFromConfig (rtxNodeConfig block) Table.empty =
      (decide ((buildFromConfigVars block Table.empty).1 = 0), (buildFromConfigVars block Table.empty).2) := rfl
  have hfresh : (Table.empty : Config).Fresh ((allFields block).map ConfigField.cell) ↔
      ((allFields block).map ConfigField.assigned).Nodup := by
    rw [← nodup_cells_iff]
    exact ⟨fun h => h.distinct, fun h => ⟨h, fun key _ => Table.cell?_empty key⟩⟩
  rw [hbuilt]
  refine ⟨hassigns.ok_iff.trans hfresh, fun hok => ?_⟩
  have hperm : (buildFromConfigVars block Table.empty).2.cells.Perm ((allFields block).map ConfigField.cell) := by
    rw [hassigns.filed hok]
    exact Table.perm_cells_putAll (hassigns.ok_iff.1 hok).distinct
  refine ⟨hperm, fun field hfield => ?_⟩
  exact Table.mem_cells_iff.1 (hperm.mem_iff.2 (List.mem_map.2 ⟨field, hfield, rfl⟩))

end Rathaxes
