import Reshape.Path.Component

/-!
# Strategies

How the nodes of a source path are matched with the places of a target path.

* `Strategy`, `Strategy.select` and the name of a strategy.
-/

namespace Reshape

/-- How a move goes about. -/
inductive Strategy where
  /-- One node goes to every item of the target array. -/
  | replication
  /-- The items of the source array go to the items of the target array, one to one. -/
  | patternMove
  /-- One node goes to one place. -/
  | simpleMove
  deriving DecidableEq

namespace Strategy

/-- The name of a strategy. -/
def name : Strategy → String
  | replication => "replication"
  | patternMove => "pattern-move"
  | simpleMove => "simple-move"

/-- The strategy for two paths, by which of them holds a pattern. -/
def select (source target : List Component) : Strategy :=
  if source.any Component.isPattern then patternMove
  else if target.any Component.isPattern then replication
  else simpleMove

end Strategy

end Reshape
