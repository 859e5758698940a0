/-!
# Catalogs

A catalog knows the header fields of relations. Where the header is cut at the field delimiter, the
fields depend on it.
-/

namespace ShellQuery

/-- The header fields of the relation at a path, or `none` where it cannot be read. -/
structure Catalog where
  fields : (path : String) → (delimiter : Char) → Option (List String)

namespace Catalog

/-- The catalog of some relations whose fields are known, whatever the delimiter. -/
def ofList (relations : List (String × List String)) : Catalog :=
  ⟨fun path _ => (relations.find? (·.1 == path)).map (·.2)⟩

end Catalog

end ShellQuery
