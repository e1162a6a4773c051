import StatesLanguage.Validation.Fields
import StatesLanguage.Validation.Targets
/-!
All issues of a document: first those of structure, then those of transitions, then those of field
values, each over all graphs from the outside in.
-/
namespace StatesLanguage.Validation

open Document

/-- All issues of a document and of the graphs inside it. -/
def issues (g : Graph) : List Issue :=
  (g.all.flatMap fun x => structureOf x.1 x.2) ++ (g.all.flatMap fun x => targetsOf x.1 x.2) ++
    g.all.flatMap fun x => fieldsOf x.2

/-- The report of several issues, numbered. -/
def report (found : List Issue) : String :=
  s!"Multiple validation errors ({found.length} issues):" ++
    String.join (found.mapIdx fun i issue => s!"\n  {i + 1}. {issue.message}")

end StatesLanguage.Validation
