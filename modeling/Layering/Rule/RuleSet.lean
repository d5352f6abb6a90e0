import Layering.Rule.Import

/-!
# The rules of a configuration

A configuration has a list of rule records. A record with at least one constraint gives an import
rule; any other record is an error.
-/

namespace Layering

/-- The number of rules that a configuration may have. -/
def maxRules : Nat := 10000

/-- Why a value gives no rules. -/
inductive RuleSetError where
  | ruleNotAMapping
  | unknownKind (name : String)
  | configNotAMapping
  | noRuleList
  | tooManyRules
deriving DecidableEq, Repr

/-- The text of an error. -/
def RuleSetError.message : RuleSetError → String
  | ruleNotAMapping => "Rule config must be a mapping"
  | unknownKind name => s!"Cannot determine rule type for: {name}"
  | configNotAMapping => "Config must be a mapping"
  | noRuleList => "Config must have a \"rules\" list"
  | tooManyRules => s!"Too many rules (maximum {maxRules})"

namespace RuleSet

/-- The kind of rule that a record gives, judged by the constraints it has. -/
def kindOf : Value → Except RuleSetError String
  | .map entries =>
    if ImportRule.constraintFields.any fun k => !(Entries.field k entries).isNull then .ok "import"
    else
      let name := Entries.field "name" entries
      .error (.unknownKind (if name.isTruthy then name.shownText else "unnamed rule"))
  | _ => .error .ruleNotAMapping

/-- The rule that a record gives. -/
def ruleOf (record : Value) : Except RuleSetError ImportRule := do
  let _ ← kindOf record
  return ImportRule.ofEntries (record.entries?.getD [])

/-- The rules of a configuration. -/
def ofConfig : Value → Except RuleSetError (List ImportRule)
  | .map entries =>
    match Entries.field "rules" entries with
    | .list records =>
      if maxRules < records.length then .error .tooManyRules else records.mapM ruleOf
    | _ => .error .noRuleList
  | _ => .error .configNotAMapping

end RuleSet

end Layering
