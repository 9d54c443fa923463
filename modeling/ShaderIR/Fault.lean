import ShaderIR.Scalar.Type

/-!
# Faults

A fault is a broken promise of a caller: an identity that is not defined, a chain whose links do
not agree, a constant that does not fit its type.  An operation that meets one stops and has no
result; nothing is said about what it had done so far.

* `Insertion`: the four ways to insert into a chain.
* `Fault`: one constructor per cause.
* `Fault.message`: the wording of each cause.
-/

namespace ShaderIR

/-- Where a node is inserted into a chain. -/
inductive Insertion where
  | first
  | last
  | before
  | after
  deriving DecidableEq

/-- The name of an insertion, as fault messages give it. -/
def Insertion.name : Insertion → String
  | first => "insert_first"
  | last => "insert_last"
  | before => "insert_before"
  | after => "insert_after"

/-- Why an operation could not go on. -/
inductive Fault where
  /-- A definition was read that does not exist. -/
  | readUndefined
  /-- A definition was about to be changed that does not exist. -/
  | editUndefined
  /-- A definition was about to be destroyed that does not exist. -/
  | removeUndefined
  /-- A fresh identity turned out to be in use. -/
  | redefined
  /-- The node to insert has a neighbour already. -/
  | alreadyLinked (how : Insertion)
  /-- The first node of a chain has a predecessor. -/
  | firstHasPrev
  /-- The last node of a chain has a successor. -/
  | lastHasNext
  /-- The predecessor of a node does not lead back to it. -/
  | prevLeadsElsewhere
  /-- The successor of a node does not lead back to it. -/
  | nextLeadsElsewhere
  /-- A node without predecessor is not the first of the chain. -/
  | notFirst
  /-- A node without successor is not the last of the chain. -/
  | notLast
  /-- The ends of an empty chain were about to be moved. -/
  | noEnds
  /-- A segment has a first node and no last one. -/
  | firstWithoutLast
  /-- A segment has a last node and no first one. -/
  | lastWithoutFirst
  /-- The links run out on the way from the first node of a segment to the last. -/
  | lastNotReached
  /-- The links run out on the way from the last node of a segment to the first. -/
  | firstNotReached
  /-- The bits of a constant do not fit its type. -/
  | constantTooWide
  /-- An unsigned constant was asked for at another type. -/
  | constantNotUnsigned (ty : ScalarType)
  /-- A float conversion to a type that is not a float. -/
  | convertToNonFloat (ty : ScalarType)
  /-- An unsigned conversion to a type that is not unsigned. -/
  | convertToNonUnsigned (ty : ScalarType)
  /-- The result of an instruction was used that has none. -/
  | noResult
  /-- An instruction has fewer inputs than were asked for. -/
  | noSuchInput (count index : Nat)
  /-- A target with no samples, or more than a mask has bits. -/
  | sampleCount (samples : Nat)
  /-- An instruction other than a combined write was to be extended as one. -/
  | notCombinedWrite
  /-- A traversal went on for longer than the links that it started with allow. -/
  | endless
  deriving DecidableEq

/-- The wording of a fault. -/
def Fault.message : Fault → String
  | readUndefined => "no entry found for key"
  | editUndefined => "EntityDefs: entity not defined"
  | removeUndefined => "EntityDefs::remove: entity not defined (or already removed)"
  | redefined => "assertion failed: self.map.insert(entity, def).is_none()"
  | alreadyLinked how =>
    "EntityList::" ++ how.name ++ ": new node already linked into a (different?) list"
  | firstHasPrev => "invalid EntityList: `first->prev != None`"
  | lastHasNext => "invalid EntityList: `last->next != None`"
  | prevLeadsElsewhere => "invalid EntityListNode: `node->prev->next != node`"
  | nextLeadsElsewhere => "invalid EntityListNode: `node->next->prev != node`"
  | notFirst => "invalid EntityList: `node->prev == None` but `node != first`"
  | notLast => "invalid EntityList: `node->next == None` but `node != last`"
  | noEnds => "called `Option::unwrap()` on a `None` value"
  | firstWithoutLast => "invalid EntityListIter: `first` without `last`"
  | lastWithoutFirst => "invalid EntityListIter: `last` without `first`"
  | lastNotReached => "invalid EntityListIter: `first` not linked to `last`"
  | firstNotReached => "invalid EntityListIter: `last` not linked to `first`"
  | constantTooWide => "assertion failed: ct_trunc.bits == bits"
  | constantNotUnsigned ty => "uint_const: `" ++ ty.name ++ "` is not unsigned"
  | convertToNonFloat ty => "fconvert: `" ++ ty.name ++ "` is not a float type"
  | convertToNonUnsigned ty => "uconvert: `" ++ ty.name ++ "` is not unsigned"
  | noResult =>
    "internal error: entered unreachable code: " ++
      "using the output of an instruction without an output type"
  | noSuchInput count index =>
    "index out of bounds: the len is " ++ toString count ++
      " but the index is " ++ toString index
  | sampleCount samples =>
    "LowerConfig: `max_samples = " ++ toString samples ++ "` not in `1..=16`"
  | notCombinedWrite => "internal error: entered unreachable code"
  | endless => "a chain of links does not end"

end ShaderIR
