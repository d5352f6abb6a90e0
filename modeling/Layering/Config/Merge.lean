import Layering.Value.Basic

/-!
# Merging of rules

The rules of a configuration are put over those of its base: a rule with the name of a base rule takes
its place, any other is added at the end.
-/

namespace Layering.Config

/-- The name of a rule, if it is a record with a text as name. -/
def ruleName? (rule : Value) : Option String :=
  match rule with
  | .map entries => (Entries.field "name" entries).text?
  | _ => none

/-- The position of the first rule with a name. -/
def position? (name : String) (rules : List Value) : Option Nat :=
  rules.findIdx? fun r => ruleName? r == some name

/-- Puts a rule in place of the base rule of its name, or at the end. -/
def putRule (base merged : List Value) (rule : Value) : List Value :=
  match (ruleName? rule).bind (position? · base) with
  | some i => merged.set i rule
  | none => merged ++ [rule]

/-- Puts rules over base rules. -/
def mergeLists (base child : List Value) : List Value := child.foldl (putRule base) base

/-- Puts what stands for rules over what stands for base rules. Without base rules nothing changes;
what is no list replaces the base rules unless it is null. -/
def mergeRules (base child : Value) : Value :=
  match base, child with
  | .list bs, .list cs => .list (mergeLists bs cs)
  | .list bs, .null => .list bs
  | _, _ => child

end Layering.Config
