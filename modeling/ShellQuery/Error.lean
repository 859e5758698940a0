/-!
# Why a statement cannot be planned

Each error names its cause and carries the texts its message shows. The wording stands in one
place, `PlanError.message`, next to the code and the advice that go with it.
-/

namespace ShellQuery

/-- What is wrong with a sequence of conditions. -/
inductive ConditionFault where
  /-- An `and` or `or` lacks a condition on one side. -/
  | danglingConnective
  /-- Two conditions stand side by side. -/
  | missingConnective
  /-- Parentheses hold nothing. -/
  | emptyGroup
  /-- A conjunct is no disjunction of comparisons. -/
  | notClause (condition : String)
  /-- A condition is no conjunction of clauses. -/
  | notConjunctive (condition : String)
deriving DecidableEq, Repr

namespace ConditionFault

/-- The fault in words. -/
def reason : ConditionFault → String
  | danglingConnective => "dangling connective"
  | missingConnective => "adjacent conditions without a connective"
  | emptyGroup => "empty group"
  | notClause condition => "'" ++ condition ++ "' is not a disjunction of comparisons"
  | notConjunctive condition => "'" ++ condition ++ "' is not in conjunctive normal form"

end ConditionFault

/-- Why relations cannot be joined. -/
inductive JoinFault where
  /-- A side of the comparison is no column. -/
  | operandNotColumn (comparison : String)
  /-- The comparison is no equality. -/
  | notEquality (comparison : String)
  /-- A column is found on the wrong side of the join, or on both. -/
  | sameSide (comparison : String)
  /-- Both columns belong to one relation. -/
  | sameRelation (comparison : String)
  /-- No chain of equalities leads to the relation. -/
  | unconnected (relation : String)
  /-- There is nothing to join the two tables on. -/
  | noCondition (left right : String)
deriving DecidableEq, Repr

namespace JoinFault

/-- What the fault was found in. -/
def predicate : JoinFault → String
  | operandNotColumn comparison => comparison
  | notEquality comparison => comparison
  | sameSide comparison => comparison
  | sameRelation comparison => comparison
  | unconnected relation => "for relation '" ++ relation ++ "'"
  | noCondition left right => "between '" ++ left ++ "' and '" ++ right ++ "'"

/-- The fault in words. -/
def reason : JoinFault → String
  | operandNotColumn _ => "both operands must be columns"
  | notEquality _ => "only equality joins are supported"
  | sameSide _ => "operands must come from different sides of the join"
  | sameRelation _ => "operands belong to the same relation"
  | unconnected _ => "no equality join connects it to the other relations"
  | noCondition _ _ => "no equality condition connects the relations"

end JoinFault

/-- Why a statement cannot be planned. -/
inductive PlanError where
  /-- A text is no column name. -/
  | invalidColumnName (name : String)
  /-- No column answers to a name. -/
  | unknownColumn (name : String)
  /-- Different columns answer to a name. -/
  | ambiguousColumn (name : String) (candidates : List String)
  /-- A header names a column twice. -/
  | duplicateColumn (relation name : String)
  /-- A wildcard is qualified by no relation of the statement. -/
  | unknownRelation (qualifier : String)
  /-- The statement names no relation. -/
  | noRelations
  /-- Two relations share an alias. -/
  | duplicateRelation (relation : String)
  /-- Relations cannot be joined as asked. -/
  | unsupportedJoin (fault : JoinFault)
  /-- The conditions have no structure. -/
  | malformedCondition (fault : ConditionFault)
  /-- A text is no comparison operator. -/
  | invalidOperator (text : String)
  /-- A count stands next to other select items. -/
  | mixedAggregate
  /-- The header of a relation cannot be read. -/
  | unreadableHeader (path : String)
deriving DecidableEq, Repr

namespace PlanError

/-- The error in words. -/
def message : PlanError → String
  | invalidColumnName name => "invalid column name '" ++ name ++ "'"
  | unknownColumn name => "unknown column '" ++ name ++ "'"
  | ambiguousColumn name candidates =>
    "ambiguous column reference '" ++ name ++ "' matches " ++ String.intercalate ", " candidates
  | duplicateColumn relation name =>
    "duplicate column '" ++ name ++ "' in relation '" ++ relation ++ "'"
  | unknownRelation qualifier => "unknown relation '" ++ qualifier ++ "'"
  | noRelations => "the query names no relation"
  | duplicateRelation relation => "relation alias '" ++ relation ++ "' is used more than once"
  | unsupportedJoin fault =>
    "unsupported join predicate " ++ fault.predicate ++ ": " ++ fault.reason
  | malformedCondition fault => "malformed condition tree: " ++ fault.reason
  | invalidOperator text => "invalid operator '" ++ text ++ "'"
  | mixedAggregate =>
    "unsupported aggregate: COUNT cannot be combined with other select items"
  | unreadableHeader path => "failed to read the header of '" ++ path ++ "'"

/-- The code the error is known by. -/
def code : PlanError → String
  | invalidColumnName _ => "COLUMN_001"
  | unknownColumn _ => "COLUMN_002"
  | ambiguousColumn _ _ => "COLUMN_003"
  | duplicateColumn _ _ => "COLUMN_004"
  | unknownRelation _ => "RELATION_001"
  | noRelations => "RELATION_002"
  | duplicateRelation _ => "RELATION_003"
  | unsupportedJoin _ => "JOIN_001"
  | malformedCondition _ => "CONDITION_001"
  | invalidOperator _ => "CONDITION_002"
  | mixedAggregate => "AGGREGATE_001"
  | unreadableHeader _ => "CATALOG_001"

/-- What to do about the error. -/
def help : PlanError → String
  | invalidColumnName _ =>
    "column names start with a letter or underscore followed by letters, digits or underscores"
  | unknownColumn _ =>
    "check for typos or ensure the column exists in the header of one of the relations"
  | ambiguousColumn _ _ => "qualify the column with the relation alias, e.g. ta.col_a"
  | duplicateColumn _ _ => "every field in a header line must have a distinct name"
  | unknownRelation _ =>
    "qualified wildcards must name a relation path or alias from the FROM clause"
  | noRelations => "name at least one relation in the FROM clause"
  | duplicateRelation _ =>
    "give each relation a distinct alias, e.g. FROM a.csv x JOIN a.csv y ON ..."
  | unsupportedJoin _ =>
    "relations can only be joined on equality between columns of two different relations"
  | malformedCondition _ => "conditions are comparisons combined with AND, OR and parentheses"
  | invalidOperator _ => "supported comparison operators are =, !=, <>, <, <=, >, >="
  | mixedAggregate => "only a single COUNT(*) or COUNT(column) may be selected"
  | unreadableHeader _ => "make sure the file exists and is readable"

end PlanError

end ShellQuery
