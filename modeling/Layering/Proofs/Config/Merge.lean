import Layering.Config.Merge
import Mathlib.Data.List.Nodup
import Mathlib.Data.List.Perm.Subperm

/-!
# Override by name

Rules are put over base rules one after the other. While that goes on, the base rules keep their
places: the names at the start are those of the base (`prefix_names_putRule`). So a rule with the
name of a base rule comes in the place of the first rule of that name, whichever stands there by
then, and any other rule goes to the end (`putRule_cases`). From what the step does to the rules of
one name follows, by induction, what is left of them (`filter_foldl_putRule`,
`under_foldl_putRule`).

In general a rule that repeats a name of the base takes the place of the rule that was put before
it, which is lost (`subperm_mergeRules_iff`). Where the names of each list are distinct, rules
override base rules by name: `mergeRules_override` gives the names and the rules of the result, and
says that overriding is associative, with the empty list as identity.
-/

namespace Layering.Config

open scoped List

/-! ## Names -/

/-- The names of rules in their order, with nothing for a rule that has none. -/
def names (rules : List Value) : List (Option String) := rules.map ruleName?

/-- The rules with a name, or those without one, in their order. -/
def under (key : Option String) (rules : List Value) : List Value :=
  rules.filter fun r => ruleName? r = key

/-- Whether rules under a name are added to base rules: there is no name, or no base rule has it. -/
def IsNew (base : List Value) (key : Option String) : Prop := key = none ∨ key ∉ names base

instance (base : List Value) : DecidablePred (IsNew base) := fun key =>
  inferInstanceAs (Decidable (key = none ∨ key ∉ names base))

variable {base child merged rules rest : List Value} {rule first : Value} {key : Option String}
  {name : String}

@[simp] theorem names_nil : names [] = [] := rfl

@[simp] theorem names_cons (r : Value) (rules : List Value) :
    names (r :: rules) = ruleName? r :: names rules := rfl

@[simp] theorem names_append (rules rules' : List Value) :
    names (rules ++ rules') = names rules ++ names rules' := List.map_append

theorem ruleName?_mem_names (h : rule ∈ rules) : ruleName? rule ∈ names rules :=
  List.mem_map_of_mem h

@[simp] theorem under_nil (key : Option String) : under key [] = [] := rfl

@[simp] theorem under_cons (key : Option String) (r : Value) (rules : List Value) :
    under key (r :: rules) =
      if ruleName? r = key then r :: under key rules else under key rules := by
  simp [under, List.filter_cons]

@[simp] theorem under_append (key : Option String) (rules rules' : List Value) :
    under key (rules ++ rules') = under key rules ++ under key rules' := List.filter_append ..

theorem under_eq_nil_iff : under key rules = [] ↔ key ∉ names rules := by
  simp [under, names]

/-! ## One rule -/

theorem position?_eq (name : String) (rules : List Value) :
    position? name rules = (names rules).findIdx? (· == some name) := by
  rw [names, List.findIdx?_map]
  rfl

/-- The first rule of a name, with what stands before and behind it. -/
theorem exists_of_position? {i : ℕ} (h : position? name rules = some i) :
    ∃ front old back, rules = front ++ old :: back ∧ front.length = i ∧
      ruleName? old = some name ∧ some name ∉ names front := by
  induction rules generalizing i with
  | nil => simp [position?] at h
  | cons r rules ih =>
    by_cases hr : ruleName? r = some name
    · have hi : i = 0 := by simpa [position?, List.findIdx?_cons, hr, eq_comm] using h
      exact ⟨[], r, rules, rfl, hi.symm, hr, by simp⟩
    · have hrest : ∃ j, position? name rules = some j ∧ j + 1 = i := by
        simpa [position?, List.findIdx?_cons, hr] using h
      obtain ⟨j, hj, rfl⟩ := hrest
      obtain ⟨front, old, back, rfl, rfl, hold, hfront⟩ := ih hj
      refine ⟨r :: front, old, back, rfl, rfl, hold, ?_⟩
      simp only [names_cons, List.mem_cons, not_or]
      exact ⟨fun h => hr h.symm, hfront⟩

/-- The base rules keep their places, so a name of theirs is found where it was. -/
theorem position?_merged (h : names base <+: names merged) {i : ℕ}
    (hi : position? name base = some i) : position? name merged = some i := by
  obtain ⟨rest, hrest⟩ := h
  rw [position?_eq] at hi ⊢
  rw [← hrest, List.findIdx?_append, hi]
  rfl

theorem isNew_iff :
    IsNew base (ruleName? rule) ↔ (ruleName? rule).bind (position? · base) = none := by
  cases hname : ruleName? rule with
  | none => simp [IsNew]
  | some name => simp [IsNew, position?, names]

/-- **What putting a rule over base rules can do.** The rule comes in the place of the first rule of
its name, or goes to the end. -/
theorem putRule_cases (h : names base <+: names merged) (rule : Value) :
    (¬IsNew base (ruleName? rule) ∧ ∃ front old back, merged = front ++ old :: back ∧
        ruleName? old = ruleName? rule ∧ ruleName? rule ∉ names front ∧
        putRule base merged rule = front ++ rule :: back) ∨
      (IsNew base (ruleName? rule) ∧ putRule base merged rule = merged ++ [rule]) := by
  by_cases hnew : IsNew base (ruleName? rule)
  · refine .inr ⟨hnew, ?_⟩
    rw [putRule, isNew_iff.mp hnew]
  · refine .inl ⟨hnew, ?_⟩
    obtain ⟨i, hi⟩ := Option.ne_none_iff_exists'.mp (mt isNew_iff.mpr hnew)
    obtain ⟨name, hname, hposition⟩ := Option.bind_eq_some_iff.mp hi
    obtain ⟨front, old, back, rfl, rfl, hold, hfront⟩ :=
      exists_of_position? (position?_merged h hposition)
    rw [hname]
    refine ⟨front, old, back, rfl, hold, hfront, ?_⟩
    rw [putRule, hi]
    simp

theorem names_putRule (h : names base <+: names merged) (rule : Value) :
    names (putRule base merged rule) =
      names merged ++ if IsNew base (ruleName? rule) then [ruleName? rule] else [] := by
  obtain ⟨hnew, front, old, back, rfl, hold, -, hput⟩ | ⟨hnew, hput⟩ := putRule_cases h rule
  · simp [hput, hnew, hold]
  · simp [hput, hnew]

theorem prefix_names_putRule (h : names base <+: names merged) (rule : Value) :
    names base <+: names (putRule base merged rule) := by
  rw [names_putRule h]
  exact h.trans (List.prefix_append _ _)

/-- A rule whose name is not asked for changes nothing, and a new one is added. -/
theorem filter_putRule (h : names base <+: names merged) {p : Option String → Bool}
    (hp : p (ruleName? rule) = true → IsNew base (ruleName? rule)) :
    (putRule base merged rule).filter (fun r => p (ruleName? r)) =
      merged.filter (fun r => p (ruleName? r)) ++ [rule].filter (fun r => p (ruleName? r)) := by
  obtain ⟨hnew, front, old, back, rfl, hold, -, hput⟩ | ⟨-, hput⟩ := putRule_cases h rule
  · have hrule : p (ruleName? rule) = false := by simpa using mt hp hnew
    simp [hput, hold, hrule]
  · rw [hput, List.filter_append]

/-- Under the name of a base rule, the first rule gives way. -/
theorem under_putRule (h : names base <+: names merged) (hkey : ¬IsNew base key)
    (hunder : under key merged = first :: rest) (rule : Value) :
    under key (putRule base merged rule) =
      (if ruleName? rule = key then rule else first) :: rest := by
  obtain ⟨hnew, front, old, back, rfl, hold, hfront, hput⟩ | ⟨hnew, hput⟩ := putRule_cases h rule
  · rw [hput]
    by_cases hname : ruleName? rule = key
    · have hnil : under key front = [] := under_eq_nil_iff.mpr (hname ▸ hfront)
      obtain ⟨-, hback⟩ : old = first ∧ under key back = rest := by
        simpa [hnil, hold, hname] using hunder
      simp [hnil, hname, hback]
    · have hold : ruleName? old ≠ key := hold ▸ hname
      simpa [hname, hold] using hunder
  · have hname : ruleName? rule ≠ key := fun hname => hkey (hname ▸ hnew)
    simpa [hput, hname] using hunder

/-! ## All rules -/

theorem names_foldl_putRule (child : List Value) (h : names base <+: names merged) :
    names (child.foldl (putRule base) merged) =
      names merged ++ (names child).filter (IsNew base ·) := by
  induction child generalizing merged with
  | nil => simp
  | cons rule child ih =>
    rw [List.foldl_cons, ih (prefix_names_putRule h rule), names_putRule h]
    by_cases hnew : IsNew base (ruleName? rule) <;> simp [hnew]

/-- Rules whose names are asked for only where they are new are added in their order. -/
theorem filter_foldl_putRule {p : Option String → Bool}
    (hp : ∀ r ∈ child, p (ruleName? r) = true → IsNew base (ruleName? r))
    (h : names base <+: names merged) :
    (child.foldl (putRule base) merged).filter (fun r => p (ruleName? r)) =
      merged.filter (fun r => p (ruleName? r)) ++ child.filter (fun r => p (ruleName? r)) := by
  induction child generalizing merged with
  | nil => simp
  | cons rule child ih =>
    have hrest := fun r hr => hp r (List.mem_cons_of_mem _ hr)
    rw [List.foldl_cons, ih hrest (prefix_names_putRule h rule),
      filter_putRule h (hp rule List.mem_cons_self), List.append_assoc, ← List.filter_append,
      List.singleton_append]

/-- Of the rules under the name of a base rule, the last one put comes in the first place. -/
theorem under_foldl_putRule (hkey : ¬IsNew base key) (child : List Value)
    (h : names base <+: names merged) (hunder : under key merged = first :: rest) :
    under key (child.foldl (putRule base) merged) = (under key child).getLastD first :: rest := by
  induction child generalizing merged first with
  | nil => exact hunder
  | cons rule child ih =>
    rw [List.foldl_cons, ih (prefix_names_putRule h rule) (under_putRule h hkey hunder rule)]
    by_cases hname : ruleName? rule = key
    · rw [if_pos hname, under_cons, if_pos hname, List.getLastD_cons]
    · rw [if_neg hname, under_cons, if_neg hname]

/-- What comes of rules that are put over base rules, name by name. -/
structure IsMerged (base child merged : List Value) : Prop where
  /-- The names of the base keep their places, and new ones follow. -/
  names_eq : names merged = names base ++ (names child).filter (IsNew base ·)
  /-- Base rules whose names nothing is put under stay in their order. -/
  kept : (base.filter fun r => IsNew child (ruleName? r)) <+ merged
  /-- Without a name, and under a name that the base does not have, rules are added in order. -/
  added : ∀ key, IsNew base key → under key merged = under key base ++ under key child
  /-- Under a name of the base, the last rule comes in the place of the first base rule. -/
  replaced : ∀ name first rest, under (some name) base = first :: rest →
    under (some name) merged = (under (some name) child).getLastD first :: rest

theorem not_isNew_of_under_eq_cons (h : under (some name) base = first :: rest) :
    ¬IsNew base (some name) := by
  have hmem : some name ∈ names base := by
    by_contra hnot
    rw [under_eq_nil_iff.mpr hnot] at h
    cases h
  simpa [IsNew] using hmem

theorem isMerged_mergeLists (base child : List Value) :
    IsMerged base child (mergeLists base child) where
  names_eq := names_foldl_putRule child List.prefix_rfl
  kept := by
    have hp : ∀ r ∈ child, decide (IsNew child (ruleName? r)) = true →
        IsNew base (ruleName? r) := by
      intro r hr hnew
      -- the name of a rule that is put is new only if there is none
      have hname : ruleName? r = none :=
        (of_decide_eq_true hnew).resolve_right (not_not.mpr (ruleName?_mem_names hr))
      exact .inl hname
    have hfilter := filter_foldl_putRule (p := fun key => IsNew child key) hp
      (List.prefix_refl (names base))
    have hkept : (base.filter fun r => IsNew child (ruleName? r)) <+
        (mergeLists base child).filter fun r => IsNew child (ruleName? r) := by
      rw [mergeLists, hfilter]
      exact List.sublist_append_left _ _
    exact hkept.trans List.filter_sublist
  added := by
    intro key hkey
    refine filter_foldl_putRule (p := fun k => k = key) (fun r _ hr => ?_) List.prefix_rfl
    rwa [of_decide_eq_true hr]
  replaced name first rest h :=
    under_foldl_putRule (not_isNew_of_under_eq_cons h) child List.prefix_rfl h

/-! ## Rules that are lost -/

/-- Rules are among others, each as often as it occurs, if this is so under each name. -/
theorem subperm_iff_forall_under {rules rules' : List Value} :
    rules <+~ rules' ↔ ∀ key, under key rules <+~ under key rules' := by
  classical
  constructor
  · intro h key
    exact h.filter _
  · intro h
    rw [List.subperm_ext_iff]
    intro r _
    have hcount := (h (ruleName? r)).count_le r
    rwa [under, under, List.count_filter (by simp), List.count_filter (by simp)] at hcount

theorem subperm_getLastD_cons_iff {α : Type*} {l rest : List α} {first : α} :
    l <+~ l.getLastD first :: rest ↔ l.dropLast <+~ rest := by
  rcases List.eq_nil_or_concat l with rfl | ⟨front, last, rfl⟩
  · simp
  · have hperm : front ++ [last] ~ last :: front := List.perm_append_singleton last front
    simp [hperm.subperm_right, List.subperm_cons]

/-- No rule is lost if, under each name of the base, those before the last are among the base rules
behind the first. -/
theorem IsMerged.subperm_iff (h : IsMerged base child merged) :
    child <+~ merged ↔ ∀ name first rest, under (some name) base = first :: rest →
      (under (some name) child).dropLast <+~ rest := by
  rw [subperm_iff_forall_under]
  constructor
  · intro hall name first rest hbase
    have hname := hall (some name)
    rwa [h.replaced name first rest hbase, subperm_getLastD_cons_iff] at hname
  · intro hnames key
    by_cases hkey : IsNew base key
    · rw [h.added key hkey]
      exact (List.sublist_append_right _ _).subperm
    · obtain ⟨name, rfl⟩ := Option.ne_none_iff_exists'.mp fun hnone => hkey (.inl hnone)
      obtain ⟨first, rest, hbase⟩ : ∃ first rest, under (some name) base = first :: rest := by
        apply List.exists_cons_of_ne_nil
        exact fun hnil => hkey (.inr (under_eq_nil_iff.mp hnil))
      rw [h.replaced name first rest hbase, subperm_getLastD_cons_iff]
      exact hnames name first rest hbase

/-- **Which rules are lost when they are put over base rules.** The names of the base keep their
places, and base rules whose names nothing is put under stay in their order. Rules without a name and
rules with new names are all there. Of the rules with one name of the base only the last is, in the
place of the first base rule of that name. So no rule is lost, each counted as often as it occurs,
exactly if those before the last are among the other base rules of the name. -/
theorem subperm_mergeRules_iff (base child : List Value) :
    ∃ merged, mergeRules (.list base) (.list child) = .list merged ∧
      IsMerged base child merged ∧
      (child <+~ merged ↔ ∀ name first rest, under (some name) base = first :: rest →
        (under (some name) child).dropLast <+~ rest) :=
  ⟨_, rfl, isMerged_mergeLists base child, (isMerged_mergeLists base child).subperm_iff⟩

/-- A rule with a name, which forbids one pattern. -/
def forbidding (name pattern : String) : Value :=
  .record [("name", .str name), ("layer", .str "src/domain"),
    ("must_not_import_from", .list [.str pattern])]

theorem ruleName?_forbidding (name pattern : String) :
    ruleName? (forbidding name pattern) = some name := rfl

/-- Of two rules with the name of a base rule, the first is not there any more. -/
theorem mergeRules_loses_repeatedName :
    ∃ merged, mergeRules (.list [forbidding "domain" "src/db"])
        (.list [forbidding "domain" "src/ui", forbidding "domain" "src/api"]) = .list merged ∧
      ¬[forbidding "domain" "src/ui", forbidding "domain" "src/api"] <+~ merged := by
  obtain ⟨merged, hmerge, -, hlost⟩ := subperm_mergeRules_iff [forbidding "domain" "src/db"]
    [forbidding "domain" "src/ui", forbidding "domain" "src/api"]
  refine ⟨merged, hmerge, fun hall => ?_⟩
  have hbase : under (some "domain") [forbidding "domain" "src/db"] =
      [forbidding "domain" "src/db"] := by simp [ruleName?_forbidding]
  have hlength := (hlost.mp hall "domain" _ [] hbase).length_le
  simp [ruleName?_forbidding] at hlength

/-! ## Distinct names -/

/-- Rules that all have a name, each a different one. -/
structure DistinctlyNamed (rules : List Value) : Prop where
  named : none ∉ names rules
  nodup : (names rules).Nodup

instance (rules : List Value) : Decidable (DistinctlyNamed rules) :=
  decidable_of_iff (none ∉ names rules ∧ (names rules).Nodup)
    ⟨fun ⟨h₁, h₂⟩ => ⟨h₁, h₂⟩, fun ⟨h₁, h₂⟩ => ⟨h₁, h₂⟩⟩

/-- The first rule with a name. -/
def rule? (name : String) (rules : List Value) : Option Value :=
  rules.find? fun r => ruleName? r = some name

theorem name_of_rule? (h : rule? name rules = some rule) : ruleName? rule = some name := by
  simpa using List.find?_some h

theorem rule?_eq_head? (name : String) (rules : List Value) :
    rule? name rules = (under (some name) rules).head? := (List.head?_filter ..).symm

/-- The rules of a base with other rules put over them, where all have distinct names. -/
structure IsOverride (base child merged : List Value) : Prop where
  distinctlyNamed : DistinctlyNamed merged
  /-- The names of the base come first, then the others. -/
  names_eq : names merged = names base ++ (names child).filter (· ∉ names base)
  /-- Each name has the rule that was put, else the base rule. -/
  rule?_eq : ∀ name, rule? name merged = (rule? name child).or (rule? name base)

namespace DistinctlyNamed

theorem rule?_eq_some_iff (h : DistinctlyNamed rules) :
    rule? name rules = some rule ↔ rule ∈ rules ∧ ruleName? rule = some name := by
  constructor
  · intro hrule
    exact ⟨List.mem_of_find?_eq_some hrule, name_of_rule? hrule⟩
  · rintro ⟨hmem, hname⟩
    obtain ⟨r, hr⟩ : ∃ r, rule? name rules = some r := by
      apply Option.isSome_iff_exists.mp
      rw [rule?, List.find?_isSome]
      exact ⟨rule, hmem, by simpa using hname⟩
    rw [hr, List.inj_on_of_nodup_map h.nodup (List.mem_of_find?_eq_some hr) hmem
      ((name_of_rule? hr).trans hname.symm)]

/-- Rules with distinct names are determined by their names and the rule of each name. -/
theorem eq_of_rule?_eq {rules' : List Value} (h : DistinctlyNamed rules)
    (h' : DistinctlyNamed rules') (hnames : names rules = names rules')
    (hrule : ∀ name, rule? name rules = rule? name rules') : rules = rules' := by
  have hlength : rules.length = rules'.length := by simpa [names] using congrArg List.length hnames
  apply List.ext_getElem hlength
  intro i hi hi'
  have hkey : ruleName? rules[i] = ruleName? rules'[i] := by
    have hget := List.getElem_of_eq hnames (by simpa [names] using hi : i < (names rules).length)
    simpa [names] using hget
  cases hname : ruleName? rules[i] with
  | none => exact absurd (hname ▸ ruleName?_mem_names (List.getElem_mem hi)) h.named
  | some name =>
    have hl : rule? name rules = some rules[i] :=
      h.rule?_eq_some_iff.mpr ⟨List.getElem_mem hi, hname⟩
    have hr : rule? name rules' = some rules'[i] :=
      h'.rule?_eq_some_iff.mpr ⟨List.getElem_mem hi', hkey ▸ hname⟩
    rw [hrule name, hr] at hl
    exact (Option.some.inj hl).symm

theorem length_under_le (h : DistinctlyNamed rules) (key : Option String) :
    (under key rules).length ≤ 1 := by
  have hcount : (under key rules).length = (names rules).count key := by
    rw [under, ← List.countP_eq_length_filter, names, List.count, List.countP_map]
    congr 1
    funext r
    simp [beq_eq_decide]
  rw [hcount]
  exact List.nodup_iff_count_le_one.mp h.nodup key

theorem names_mergeLists (hc : DistinctlyNamed child) :
    names (mergeLists base child) = names base ++ (names child).filter (· ∉ names base) := by
  rw [(isMerged_mergeLists base child).names_eq]
  congr 1
  apply List.filter_congr
  intro key hkey
  have hne : key ≠ none := fun hnone => hc.named (hnone ▸ hkey)
  simp [IsNew, hne]

theorem rule?_mergeLists (hc : DistinctlyNamed child) (name : String) :
    rule? name (mergeLists base child) = (rule? name child).or (rule? name base) := by
  have hmerged := isMerged_mergeLists base child
  simp only [rule?_eq_head?]
  cases hbase : under (some name) base with
  | nil =>
    have hnew : IsNew base (some name) := .inr (under_eq_nil_iff.mp hbase)
    simp [hmerged.added _ hnew, hbase]
  | cons first rest =>
    rw [hmerged.replaced name first rest hbase]
    -- at most one rule has the name, so that the last one is the first
    have hlength := hc.length_under_le (some name)
    rcases hchild : under (some name) child with - | ⟨r, - | ⟨r', rs⟩⟩
    · simp
    · simp
    · rw [hchild] at hlength
      simp at hlength

theorem mergeLists (hb : DistinctlyNamed base) (hc : DistinctlyNamed child) :
    DistinctlyNamed (mergeLists base child) where
  named := by
    rw [hc.names_mergeLists]
    simp [hb.named, hc.named]
  nodup := by
    rw [hc.names_mergeLists]
    refine hb.nodup.append (hc.nodup.filter _) ?_
    intro key hkey hfilter
    simp [hkey] at hfilter

theorem isOverride_mergeLists (hb : DistinctlyNamed base) (hc : DistinctlyNamed child) :
    IsOverride base child (Config.mergeLists base child) :=
  ⟨hb.mergeLists hc, hc.names_mergeLists, hc.rule?_mergeLists⟩

end DistinctlyNamed

variable {g b c : List Value}

theorem mergeLists_assoc (hg : DistinctlyNamed g) (hb : DistinctlyNamed b)
    (hc : DistinctlyNamed c) :
    mergeLists (mergeLists g b) c = mergeLists g (mergeLists b c) := by
  apply ((hg.mergeLists hb).mergeLists hc).eq_of_rule?_eq (hg.mergeLists (hb.mergeLists hc))
  · rw [hc.names_mergeLists, hb.names_mergeLists, (hb.mergeLists hc).names_mergeLists,
      hc.names_mergeLists, List.filter_append, List.filter_filter, List.append_assoc]
    congr 2
    apply List.filter_congr
    intro key _
    by_cases hkey : key ∈ names g <;> simp [hkey]
  · intro name
    rw [hc.rule?_mergeLists, hb.rule?_mergeLists, (hb.mergeLists hc).rule?_mergeLists,
      hc.rule?_mergeLists, Option.or_assoc]

theorem mergeLists_nil_left (rules : List Value) : mergeLists [] rules = rules := by
  have hnew : ∀ r ∈ rules, true = true → IsNew [] (ruleName? r) := fun _ _ _ =>
    .inr List.not_mem_nil
  simpa [mergeLists] using filter_foldl_putRule (p := fun _ => true) hnew List.prefix_rfl

/-- **Where names are distinct, rules override base rules by name,** and overriding is associative,
with the empty list as identity on both sides. -/
theorem mergeRules_override (hg : DistinctlyNamed g) (hb : DistinctlyNamed b)
    (hc : DistinctlyNamed c) :
    (∃ merged, mergeRules (.list g) (.list b) = .list merged ∧ IsOverride g b merged) ∧
      mergeRules (mergeRules (.list g) (.list b)) (.list c) =
        mergeRules (.list g) (mergeRules (.list b) (.list c)) ∧
      mergeRules (.list []) (.list g) = .list g ∧ mergeRules (.list g) (.list []) = .list g := by
  refine ⟨⟨_, rfl, hg.isOverride_mergeLists hb⟩, ?_, ?_, rfl⟩
  · exact congrArg Value.list (mergeLists_assoc hg hb hc)
  · exact congrArg Value.list (mergeLists_nil_left g)

/-- Rules that several teams share. -/
def sharedRules : List Value := [forbidding "domain" "src/db", forbidding "ui" "src/db"]

/-- Rules of a team, to be put over those that it shares. -/
def teamRules : List Value := [forbidding "api" "src/ui", forbidding "domain" "src/ui"]

/-- Rules of a project, to be put over those of its team. -/
def projectRules : List Value := [forbidding "api" "src/db", forbidding "ui" "src/api"]

theorem mergeRules_override_threeConfigurations :
    DistinctlyNamed sharedRules ∧ DistinctlyNamed teamRules ∧ DistinctlyNamed projectRules ∧
      (∃ merged, mergeRules (.list sharedRules) (.list teamRules) = .list merged ∧
        names merged = [some "domain", some "ui", some "api"] ∧
        rule? "domain" merged = some (forbidding "domain" "src/ui") ∧
        rule? "ui" merged = some (forbidding "ui" "src/db")) ∧
      mergeRules (mergeRules (.list sharedRules) (.list teamRules)) (.list projectRules) =
        mergeRules (.list sharedRules) (mergeRules (.list teamRules) (.list projectRules)) := by
  have hshared : DistinctlyNamed sharedRules := by decide
  have hteam : DistinctlyNamed teamRules := by decide
  have hproject : DistinctlyNamed projectRules := by decide
  obtain ⟨⟨merged, hmerge, hover⟩, hassoc, -⟩ := mergeRules_override hshared hteam hproject
  refine ⟨hshared, hteam, hproject, ⟨merged, hmerge, ?_, ?_, ?_⟩, hassoc⟩
  · rw [hover.names_eq]
    decide
  · rw [hover.rule?_eq]
    rfl
  · rw [hover.rule?_eq]
    rfl

end Layering.Config
