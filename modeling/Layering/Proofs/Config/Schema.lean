import Layering.Config.Schema
import Layering.Rule.RuleSet
import Mathlib.Data.List.Forall2
import Mathlib.Tactic.Common

/-!
# The rules of a configuration without issues

A configuration without issues has a list of rule records (`exists_records_of_issues_eq_nil`). In a
record without issues the name and the description are no longer than what is shown of them, the layer
consists of texts, and each constraint is a list of texts or is missing, at least one of them being
there. So each record gives a rule, and the rule holds what the record says (`exists_rule_of_record`).
The main result is `ofConfig_of_issues_eq_nil`: the rules of the whole configuration are those of its
records.
-/

namespace Layering

namespace Config

/-! ## Records -/

theorem exists_records_of_issues_eq_nil {data : Value} (h : issues data = []) :
    ∃ entries records, data = .map entries ∧ Entries.field "rules" entries = .list records ∧
      records ≠ [] ∧ rulesIssues 0 records = [] := by
  cases data with
  | map entries =>
    simp only [issues, List.append_eq_nil_iff] at h
    cases hfield : Entries.field "rules" entries with
    | list records =>
      rw [hfield] at h
      cases records with
      | nil => cases h.2
      | cons record records => exact ⟨entries, _, rfl, hfield, List.cons_ne_nil _ _, h.2⟩
    | scalar s =>
      rw [hfield] at h
      cases h.2
    | map entries =>
      rw [hfield] at h
      cases h.2
    | set members =>
      rw [hfield] at h
      cases h.2
  | scalar s => cases h
  | list items => cases h
  | set members => cases h

theorem ruleIssues_eq_nil_of_mem {records : List Value} {position : ℕ}
    (h : rulesIssues position records = []) :
    ∀ record ∈ records, ∃ path, ruleIssues path record = [] := by
  induction records generalizing position with
  | nil => simp
  | cons r rs ih =>
    obtain ⟨hr, hrs⟩ := List.append_eq_nil_iff.mp h
    exact List.forall_mem_cons.mpr ⟨⟨_, hr⟩, ih hrs⟩

/-! ## Fields of a record -/

theorem exists_of_nameIssues_eq_nil {path : String} {v : Value} (h : nameIssues path v = []) :
    ∃ s, v = .str s ∧ s.length ≤ maxNameLength := by
  unfold nameIssues at h
  split at h
  · rename_i s
    split_ifs at h with hempty hlong
    exact ⟨s, rfl, Nat.le_of_not_lt hlong⟩
  · cases h

theorem cases_of_descriptionIssues_eq_nil {path : String} {v : Value}
    (h : descriptionIssues path v = []) :
    v = .null ∨ ∃ d, v = .str d ∧ d.length ≤ maxDescriptionLength := by
  unfold descriptionIssues at h
  split at h
  · exact .inl rfl
  · rename_i d
    split_ifs at h with hlong
    exact .inr ⟨d, rfl, Nat.le_of_not_lt hlong⟩
  · cases h

theorem eq_map_of_mapM {ps : List Value} {texts : List String}
    (h : (ps.mapM fun
      | .str s => if s = "" then none else some s
      | _ => none) = some texts) : ps = texts.map .str := by
  induction ps generalizing texts with
  | nil =>
    cases h
    rfl
  | cons p ps ih =>
    rw [List.mapM_cons, Option.bind_eq_bind, Option.bind_eq_some_iff] at h
    obtain ⟨s, hs, h⟩ := h
    rw [Option.bind_eq_bind, Option.bind_eq_some_iff] at h
    obtain ⟨rest, hrest, h⟩ := h
    cases h
    rw [List.map_cons, ← ih hrest]
    split at hs
    · split at hs
      · cases hs
      · cases hs
        rfl
    · cases hs

/-- The value of a layer is one text, or a list of texts. -/
theorem cases_of_layerPatterns? {layer : Value} {texts : List String}
    (h : layerPatterns? layer = some texts) :
    (∃ s, layer = .str s ∧ texts = [s]) ∨ layer = .list (texts.map .str) := by
  unfold layerPatterns? at h
  split at h
  · rename_i s
    split at h
    · cases h
    · cases h
      exact .inl ⟨s, rfl, rfl⟩
  · cases h
  · rename_i ps _
    exact .inr (congrArg Value.list (eq_map_of_mapM h))
  · cases h

theorem patterns_ofValue {layer : Value} {texts : List String}
    (h : layerPatterns? layer = some texts) : (Layer.ofValue layer).patterns = texts.map .str := by
  rcases cases_of_layerPatterns? h with ⟨s, rfl, rfl⟩ | rfl
  · rfl
  · rfl

theorem exists_patterns_of_layerIssues_eq_nil {path : String} {layer : Value}
    (h : layerIssues path layer = []) : ∃ texts, layerPatterns? layer = some texts := by
  unfold layerIssues at h
  split at h
  · rename_i texts htexts
    exact ⟨texts, htexts⟩
  · split at h <;> cases h

/-- A list of texts, or null for the empty one. -/
def IsTexts (v : Value) (texts : List String) : Prop :=
  v = .list (texts.map .str) ∨ v = .null ∧ texts = []

theorem eq_map_of_forall_text? {items : List Value} (h : ∀ v ∈ items, v.text?.isSome = true) :
    ∃ texts : List String, items = texts.map .str := by
  induction items with
  | nil => exact ⟨[], rfl⟩
  | cons v items ih =>
    obtain ⟨hv, hitems⟩ := List.forall_mem_cons.mp h
    obtain ⟨texts, rfl⟩ := ih hitems
    unfold Value.text? at hv
    split at hv
    · rename_i s
      exact ⟨s :: texts, rfl⟩
    · cases hv

theorem eq_list_of_isPatternList {v : Value} (h : isPatternList v = true) :
    ∃ texts : List String, v = .list (texts.map .str) := by
  unfold isPatternList at h
  split at h
  · obtain ⟨texts, rfl⟩ := eq_map_of_forall_text? (List.all_eq_true.mp h)
    exact ⟨texts, rfl⟩
  · cases h

theorem patternsOf_list (texts : List String) :
    ImportRule.patternsOf (.list (texts.map .str)) = texts := by
  have hkept : (texts.map Value.str).filter (fun v => !v.isNull) = texts.map .str := by
    refine List.filter_eq_self.mpr fun v hv => ?_
    obtain ⟨s, -, rfl⟩ := List.mem_map.mp hv
    rfl
  have hshown : ∀ s, (Value.str s).shownText = s := fun s => String.ofList_toList
  simp only [ImportRule.patternsOf, hkept, List.map_map, Function.comp_def, hshown, List.map_id']

/-- What a rule has as patterns is the list in its record, if there is one. -/
theorem isTexts_patternsOf {v : Value} (h : v.isNull = true ∨ isPatternList v = true) :
    IsTexts v (ImportRule.patternsOf v) := by
  rcases h with hnull | hlist
  · unfold Value.isNull at hnull
    split at hnull
    · exact .inr ⟨rfl, rfl⟩
    · cases hnull
  · obtain ⟨texts, rfl⟩ := eq_list_of_isPatternList hlist
    rw [patternsOf_list]
    exact .inl rfl

/-- The constraints of a record without issues are lists of texts or missing, and one is there. -/
theorem constraints_of_constraintIssues_eq_nil {path : String} {entries : List (Scalar × Value)}
    (h : constraintIssues path entries = []) :
    (ImportRule.constraintFields.any fun k => !(Entries.field k entries).isNull) = true ∧
      ∀ k ∈ ImportRule.constraintFields,
        (Entries.field k entries).isNull = true ∨ isPatternList (Entries.field k entries) = true := by
  unfold constraintIssues at h
  obtain ⟨hlists, hpresent⟩ := List.append_eq_nil_iff.mp h
  constructor
  · rw [List.any_eq_true]
    by_contra hnone
    have hempty : ImportRule.constraintFields.filter
        (fun k => !(Entries.field k entries).isNull) = [] :=
      List.filter_eq_nil_iff.mpr fun k hk hnull => hnone ⟨k, hk, hnull⟩
    rw [hempty] at hpresent
    cases hpresent
  · intro k hk
    by_contra hneither
    rw [not_or, Bool.not_eq_true, Bool.not_eq_true] at hneither
    have hmem : k ∈ (ImportRule.constraintFields.filter fun k =>
        !(Entries.field k entries).isNull).filter fun k =>
        !isPatternList (Entries.field k entries) := by
      rw [List.mem_filter, List.mem_filter, hneither.1, hneither.2]
      exact ⟨⟨hk, rfl⟩, rfl⟩
    rw [List.map_eq_nil_iff.mp hlists] at hmem
    cases hmem

end Config

namespace RuleSet

open Config

/-! ## Rules -/

/-- A rule that holds what a record says, without a change: the name and the description in full,
the patterns of the layer, and those of each constraint, in their order. -/
structure IsRuleOf (record : Value) (r : ImportRule) : Prop where
  name_eq : record.field "name" = .str r.toRule.name
  description_eq : record.field "description" = .str r.toRule.description ∨
    record.field "description" = .null ∧ r.toRule.description = ""
  layers_eq : ∃ texts : List String, r.toRule.layer.patterns = texts.map .str ∧
    (record.field "layer" = .list (texts.map .str) ∨
      ∃ s, record.field "layer" = .str s ∧ texts = [s])
  forbidden_eq : IsTexts (record.field "must_not_import_from") r.forbidden
  allowed_eq : IsTexts (record.field "may_import_from") r.allowed
  required_eq : IsTexts (record.field "must_import_from") r.required

theorem cut_of_length_le {n : ℕ} {s : String} (h : s.length ≤ n) : Rule.cut n s = s := by
  rw [Rule.cut, List.take_of_length_le (by rwa [String.length_toList]),
    String.ofList_toList]

theorem name_toRule_ofEntries (entries : List (Scalar × Value)) :
    (ImportRule.ofEntries entries).toRule.name =
      Rule.cut maxNameLength ((Entries.field "name" entries).text?.getD "unnamed") := rfl

theorem description_toRule_ofEntries (entries : List (Scalar × Value)) :
    (ImportRule.ofEntries entries).toRule.description =
      ((Entries.field "description" entries).text?.map (Rule.cut maxDescriptionLength)).getD "" := rfl

/-- A record without issues gives a rule that holds what it says. -/
theorem exists_rule_of_record {path : String} {record : Value} (h : ruleIssues path record = []) :
    ∃ r, ruleOf record = .ok r ∧ IsRuleOf record r := by
  cases record with
  | map entries =>
    simp only [ruleIssues, List.append_eq_nil_iff] at h
    obtain ⟨⟨⟨hname, hdescription⟩, hlayer⟩, hconstraints⟩ := h
    obtain ⟨name, hname, hshort⟩ := exists_of_nameIssues_eq_nil hname
    obtain ⟨texts, htexts⟩ := exists_patterns_of_layerIssues_eq_nil hlayer
    obtain ⟨hpresent, hlists⟩ := constraints_of_constraintIssues_eq_nil hconstraints
    have hkind : kindOf (.map entries) = .ok "import" := if_pos hpresent
    refine ⟨ImportRule.ofEntries entries, by rw [ruleOf, hkind]; rfl, ?_, ?_, ?_, ?_, ?_, ?_⟩
    · rw [Value.field, name_toRule_ofEntries, hname]
      exact congrArg Value.str (cut_of_length_le hshort).symm
    · rw [Value.field, description_toRule_ofEntries]
      rcases cases_of_descriptionIssues_eq_nil hdescription with hnull | ⟨d, hd, hshort⟩
      · rw [hnull]
        exact .inr ⟨rfl, rfl⟩
      · rw [hd]
        exact .inl (congrArg Value.str (cut_of_length_le hshort).symm)
    · refine ⟨texts, patterns_ofValue htexts, ?_⟩
      exact (cases_of_layerPatterns? htexts).symm
    · exact isTexts_patternsOf (hlists _ (by decide))
    · exact isTexts_patternsOf (hlists _ (by decide))
    · exact isTexts_patternsOf (hlists _ (by decide))
  | scalar s => cases h
  | list items => cases h
  | set members => cases h

theorem exists_mapM_of_forall {records : List Value}
    (h : ∀ record ∈ records, ∃ r, ruleOf record = .ok r ∧ IsRuleOf record r) :
    ∃ rules, records.mapM ruleOf = .ok rules ∧ List.Forall₂ IsRuleOf records rules := by
  induction records with
  | nil => exact ⟨[], rfl, .nil⟩
  | cons record records ih =>
    obtain ⟨⟨r, hr, hrule⟩, hrest⟩ := List.forall_mem_cons.mp h
    obtain ⟨rules, hrules, hforall⟩ := ih hrest
    refine ⟨r :: rules, ?_, hforall.cons hrule⟩
    rw [List.mapM_cons, hr, hrules]
    rfl

/-- **A configuration without issues gives the rules that it says.** Such a configuration has a list
of records. Unless there are more of them than a configuration may have, each of them gives a rule, in
their order, and each rule holds what its record says: its name and its description are not cut, and
no pattern is lost or changed. -/
theorem ofConfig_of_issues_eq_nil {data : Value} (h : issues data = []) :
    ∃ records, data.field "rules" = .list records ∧ records ≠ [] ∧
      (records.length ≤ maxRules →
        ∃ rules, ofConfig data = .ok rules ∧ List.Forall₂ IsRuleOf records rules) ∧
      (maxRules < records.length → ofConfig data = .error .tooManyRules) := by
  obtain ⟨entries, records, rfl, hfield, hne, hissues⟩ := exists_records_of_issues_eq_nil h
  have hconfig : ofConfig (.map entries) =
      if maxRules < records.length then .error .tooManyRules else records.mapM ruleOf := by
    rw [ofConfig, hfield]
  refine ⟨records, hfield, hne, fun hlength => ?_, fun hlength => ?_⟩
  · rw [hconfig, if_neg (Nat.not_lt.mpr hlength)]
    refine exists_mapM_of_forall fun record hrecord => ?_
    obtain ⟨path, hnone⟩ := ruleIssues_eq_nil_of_mem hissues record hrecord
    exact exists_rule_of_record hnone
  · rw [hconfig, if_pos hlength]

/-- Two records, one with a name as long as it may be and a constraint without patterns, the other
with a description and two constraints, of which one is null. -/
def edgeRecords : List Value :=
  [.record [("name", .str (String.ofList (List.replicate maxNameLength 'n'))), ("layer", .str "src"),
      ("must_import_from", .list [])],
    .record [("name", .str "layers"), ("description", .str "two"),
      ("layer", .list [.str "a/*", .str "b"]), ("may_import_from", .null),
      ("must_not_import_from", .list [.str "c", .str "c"])]]

theorem ofConfig_edgeRecords :
    issues (.record [("rules", .list edgeRecords)]) = [] ∧ edgeRecords.length ≤ maxRules ∧
      ∃ rules, ofConfig (.record [("rules", .list edgeRecords)]) = .ok rules ∧
        List.Forall₂ IsRuleOf edgeRecords rules := by
  have hissues : issues (.record [("rules", .list edgeRecords)]) = [] := by decide +kernel
  have hlength : edgeRecords.length ≤ maxRules := by decide
  obtain ⟨records, hrecords, -, hrules, -⟩ := ofConfig_of_issues_eq_nil hissues
  have heq : edgeRecords = records := Value.list.inj hrecords
  rw [← heq] at hrules
  exact ⟨hissues, hlength, hrules hlength⟩

end RuleSet

end Layering
