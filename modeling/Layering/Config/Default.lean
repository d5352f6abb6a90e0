import Layering.Config.Basic

/-!
# The configuration to start with

The configuration that a new project gets, as a value and as the text of its file.
-/

namespace Layering.Config

/-- The configuration to start with. -/
def default : Value :=
  .record [
    ("version", .str defaultVersion),
    ("rules", .list [
      .record [
        ("name", .str "Domain isolation"),
        ("description", .str "Domain logic should not depend on UI"),
        ("layer", .str "src/domain"),
        ("must_not_import_from", .list [.str "src/ui", .str "src/components"])],
      .record [
        ("name", .str "API contract"),
        ("description", .str "API routes only use domain and shared"),
        ("layer", .str "src/api"),
        ("may_import_from", .list [.str "src/domain", .str "src/shared", .str "src/types"]),
        ("must_not_import_from", .list [.str "src/ui"])]])]

/-- The file of the configuration to start with. -/
def defaultText : String :=
  "version: '1.0'\n" ++
  "rules:\n" ++
  "- name: Domain isolation\n" ++
  "  description: Domain logic should not depend on UI\n" ++
  "  layer: src/domain\n" ++
  "  must_not_import_from:\n" ++
  "  - src/ui\n" ++
  "  - src/components\n" ++
  "- name: API contract\n" ++
  "  description: API routes only use domain and shared\n" ++
  "  layer: src/api\n" ++
  "  may_import_from:\n" ++
  "  - src/domain\n" ++
  "  - src/shared\n" ++
  "  - src/types\n" ++
  "  must_not_import_from:\n" ++
  "  - src/ui\n"

end Layering.Config
