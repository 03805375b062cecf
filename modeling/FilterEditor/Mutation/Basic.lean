import FilterEditor.Path
import FilterEditor.Tree.Node

/-!
# Mutations and their errors

A mutation is one structural edit of a tree, addressed by a path.  It is data: it can be stored,
exchanged and applied again.

An error names the reason for which a mutation does not fit a tree, and the place that was looked
at.
-/

namespace FilterEditor

/-- One structural edit. -/
inductive Mutation where
  /-- Give the filter at the path another text. -/
  | setFilterValue (path : Path) (value : String)
  /-- Put a fresh node, branch or entry behind the one at the path. -/
  | insertSibling (path : Path) (kind : Kind)
  /-- Give the array at the path one more, empty branch. -/
  | appendBranch (path : Path)
  /-- Take the node at the path out of its pipeline. -/
  | removeNode (path : Path)
  /-- Take the branch at the path out of its container. -/
  | removeBranch (path : Path)
  /-- Put a blank filter under a key of the object at the path. -/
  | addProperty (path : Path) (key : String)
  /-- Give the entry at the path another key. -/
  | renameProperty (path : Path) (newKey : String)
  deriving DecidableEq, Repr, Inhabited

namespace Mutation

def path : Mutation → Path
  | setFilterValue p _ => p
  | insertSibling p _ => p
  | appendBranch p => p
  | removeNode p => p
  | removeBranch p => p
  | addProperty p _ => p
  | renameProperty p _ => p

/-- The name by which a kind of mutation is reported. -/
def name : Mutation → String
  | setFilterValue .. => "set_filter_value"
  | insertSibling .. => "insert_sibling"
  | appendBranch .. => "append_branch"
  | removeNode .. => "remove_node"
  | removeBranch .. => "remove_branch"
  | addProperty .. => "add_property"
  | renameProperty .. => "rename_property"

end Mutation

/-- Why a mutation does not fit a tree. -/
inductive MutationError where
  /-- The path leads nowhere, or not to the sort of place that is needed. -/
  | notFound (place : Path)
  /-- The last selector is a branch selector of another container. -/
  | selectorMismatch (place : Path)
  /-- The node is not a filter. -/
  | notFilter (place : Path)
  /-- The node is not an array. -/
  | notArray (place : Path)
  /-- The node is not an object. -/
  | notObject (place : Path)
  /-- A key would be the empty text. -/
  | emptyKey
  /-- Another entry has the key already. -/
  | duplicateKey (key : String)
  /-- The path cannot be meant for this mutation, whatever the tree. -/
  | invalidStructure (reason : String)
  deriving DecidableEq, Repr

namespace MutationError

/-- The error of removing a node by a path that does not end on one. -/
def notNodePath (place : Path) : MutationError :=
  .invalidStructure (place.display ++ " does not address a node")

/-- The error of removing a branch by a path that ends on a node. -/
def notBranchPath (place : Path) : MutationError :=
  .invalidStructure (place.display ++ " addresses a node, not a branch")

/-- The error of renaming an entry by a path that does not end on one. -/
def notEntryPath (place : Path) : MutationError :=
  .invalidStructure (place.display ++ " does not address an object entry")

def rootBranch : MutationError :=
  .invalidStructure "Cannot remove the root pipeline"

def message : MutationError → String
  | notFound p => "Nothing found at " ++ p.display
  | selectorMismatch p => "Selector at the end of " ++ p.display ++ " does not fit its container"
  | notFilter p => "Node at " ++ p.display ++ " is not a filter"
  | notArray p => "Node at " ++ p.display ++ " is not an array"
  | notObject p => "Node at " ++ p.display ++ " is not an object"
  | emptyKey => "Property name must not be empty"
  | duplicateKey k => "Property already exists: " ++ k
  | invalidStructure reason => "Invalid structure: " ++ reason

end MutationError

end FilterEditor
