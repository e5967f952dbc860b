import FlatNtuple.Meaning.Compiled
import FlatNtuple.OrderedMap
import FlatNtuple.Text.Blank
/-!
# Counting objects

A counter has labelled cuts and counts, for each of them, the objects of a collection that pass.  A blank cut lets every
object pass.
-/
namespace FlatNtuple

inductive CounterError
  | unequalLengths (cuts labels : Nat)
  | duplicateLabel (label : String)
  | cut (error : CompileError)
  deriving DecidableEq, Repr

def CounterError.message : CounterError → String
  | unequalLengths cuts labels =>
    "Object counter has " ++ toString cuts ++ " cuts but " ++ toString labels ++ " labels"
  | duplicateLabel label => "Object counter label '" ++ label ++ "' is used more than once"
  | cut e => e.message

/-- A label with its cut; `none` lets every object pass. -/
structure LabelledCut (t : ObjectType) where
  label : String
  cut : Option (Compiled .bool t)

structure ObjectCounter (t : ObjectType) where
  cuts : List (LabelledCut t)

namespace ObjectCounter

variable {t : ObjectType}

/-- The cut that a text is, without the blanks around it. -/
def compileCut (c : CompilerConfig) (text : String) : Except CompileError (Option (Compiled .bool t)) :=
  let text := Text.trim text
  if text = "" then .ok none else (c.compile .bool t text).map some

/-- Labelled cuts after those whose labels are given.  A label that is taken is noticed before its cut is compiled. -/
def compileAll (c : CompilerConfig) (seen : List String) :
    List (String × String) → Except CounterError (List (LabelledCut t))
  | [] => .ok []
  | (text, label) :: rest =>
    if label ∈ seen then .error (.duplicateLabel label)
    else match compileCut c text with
      | .error e => .error (.cut e)
      | .ok cut => (compileAll c (label :: seen) rest).map fun cuts => ⟨label, cut⟩ :: cuts

/-- The counter of cuts and labels, paired by position. -/
def ofCuts (t : ObjectType) (c : CompilerConfig) (cuts labels : List String) :
    Except CounterError (ObjectCounter t) :=
  if cuts.length ≠ labels.length then .error (.unequalLengths cuts.length labels.length)
  else (compileAll c [] (cuts.zip labels)).map ObjectCounter.mk

def labels (n : ObjectCounter t) : List String := n.cuts.map LabelledCut.label

/-- A count that stops at the greatest 32-bit integer. -/
def clamp (n : Nat) : Int32 := Int32.ofNat (min n Int32.maxValue.toNatClampNeg)

def LabelledCut.count (c : LabelledCut t) (xs : List t.Record) : Nat :=
  match c.cut with
  | some cut => xs.countP cut.evaluate
  | none => xs.length

/-- How many objects pass the cut of each label. -/
def count (n : ObjectCounter t) (xs : List t.Record) : OrderedMap Int32 :=
  .ofList (n.cuts.map fun c => (c.label, clamp (LabelledCut.count c xs)))

end ObjectCounter
end FlatNtuple
