import ShaderIR.Flow.Dominators

/-!
# Cached analyses

* `Analysis`, `AnalysisSet`: the analyses of a function body, and sets of them.
* `Analyses`: what has been computed and kept, one slot for each analysis.
* `BlockIndex`, `InstIndex`: where a block stands in its body, and an instruction in its block.
-/

namespace ShaderIR

/-- What can be computed of a function body and kept. -/
inductive Analysis where
  /-- The position of every block in the body. -/
  | blockIndex
  /-- The dominator tree. -/
  | dominance
  /-- The block and position of every instruction. -/
  | instIndex
  deriving DecidableEq

namespace Analysis

/-- All analyses, in the order in which they are declared. -/
def all : List Analysis := [blockIndex, dominance, instIndex]

/-- The name that an analysis is declared with. -/
def name : Analysis → String
  | blockIndex => "BLOCK_INDEX"
  | dominance => "DOMINANCE"
  | instIndex => "INST_INDEX"

/-- The analysis with a given name. -/
def ofName? (s : String) : Option Analysis := all.find? (·.name == s)

end Analysis

/-- A set of analyses. -/
structure AnalysisSet where
  blockIndex : Bool
  dominance : Bool
  instIndex : Bool
  deriving DecidableEq

namespace AnalysisSet

def empty : AnalysisSet := ⟨false, false, false⟩

def full : AnalysisSet := ⟨true, true, true⟩

/-- What does not depend on the instructions of the blocks. -/
def flowOnly : AnalysisSet := ⟨true, true, false⟩

def contains (s : AnalysisSet) : Analysis → Bool
  | .blockIndex => s.blockIndex
  | .dominance => s.dominance
  | .instIndex => s.instIndex

def insert (s : AnalysisSet) : Analysis → AnalysisSet
  | .blockIndex => { s with blockIndex := true }
  | .dominance => { s with dominance := true }
  | .instIndex => { s with instIndex := true }

def ofList (as : List Analysis) : AnalysisSet := as.foldl insert empty

/-- The analyses of a set, in the order in which they are declared. -/
def toList (s : AnalysisSet) : List Analysis := Analysis.all.filter s.contains

end AnalysisSet

/-- The position of blocks in a body; of several entries for one block the first one counts. -/
abbrev BlockIndex := List (BlockId × Nat)

/-- The block and position of instructions; of several entries for one the first one counts. -/
abbrev InstIndex := List (InstId × BlockId × Nat)

/-- The analyses of a body that have been computed and not been dropped since. -/
structure Analyses where
  blockIndex : Option BlockIndex
  dominators : Option Dominators
  instIndex : Option InstIndex
  deriving DecidableEq

namespace Analyses

def empty : Analyses := ⟨none, none, none⟩

/-- Which analyses are there. -/
def valid (a : Analyses) : AnalysisSet :=
  ⟨a.blockIndex.isSome, a.dominators.isSome, a.instIndex.isSome⟩

/-- What a slot holds once an analysis is wanted or not: what is there already stays, and what is
wanted and missing is computed. -/
@[inline] def slot {α : Type} (wanted : Bool) (kept : Option α) (fresh : Except Fault α) :
    Except Fault (Option α) :=
  match kept with
  | some a => .ok (some a)
  | none => if wanted then some <$> fresh else .ok none

/-- Drops all analyses but those of a set. -/
def preserve (a : Analyses) (kept : AnalysisSet) : Analyses where
  blockIndex := if kept.blockIndex then a.blockIndex else none
  dominators := if kept.dominance then a.dominators else none
  instIndex := if kept.instIndex then a.instIndex else none

end Analyses

end ShaderIR
