import FlatNtuple.Binary.Convert
import FlatNtuple.Decimal.Layout
import FlatNtuple.Json.Decode
/-!
# Uncertainties of the jet energy

A table gives the relative uncertainty of a jet's energy by its pseudorapidity and transverse momentum: bins of
pseudorapidity that do not overlap, and in each of them knots of increasing transverse momentum with straight lines
between them.  `UncertaintyTable.ofBins` puts bins in order and says what is wrong with them; both look-ups halve the
range.
-/
namespace FlatNtuple

structure Knot where
  pt : Float
  uncertainty : Float

/-- The uncertainties from one pseudorapidity up to another. -/
structure UncertaintyBin where
  etaMin : Float
  etaMax : Float
  knots : List Knot

inductive TableError
  | noBins
  | emptyBin (etaMin etaMax : Float)
  | noKnots (etaMin etaMax : Float)
  | notIncreasing (etaMin etaMax : Float)
  | overlap (first second : Float)

namespace TableError

def number (x : Float) : String := Decimal.plain.float x

def range (lo hi : Float) : String := "[" ++ number lo ++ ", " ++ number hi ++ ")"

def reason : TableError → String
  | noBins => "no eta bins"
  | emptyBin lo hi => "eta bin " ++ range lo hi ++ " is empty"
  | noKnots lo hi => "eta bin " ++ range lo hi ++ " has no points"
  | notIncreasing lo hi => "pt points of eta bin " ++ range lo hi ++ " are not increasing"
  | overlap a b => "eta bins starting at " ++ number a ++ " and " ++ number b ++ " overlap"

def message (e : TableError) : String := "Invalid jet energy uncertainty table: " ++ e.reason

end TableError

/-- The least index from `lo` on, below `hi`, at which `p` fails, for a `p` that once it fails fails from there on. -/
def partitionPoint (p : Nat → Bool) (lo hi : Nat) : Nat :=
  if h : lo < hi then
    let mid := (lo + hi) / 2
    if p mid then partitionPoint p (mid + 1) hi else partitionPoint p lo mid
  else lo
termination_by hi - lo

/-- The number of leading elements that a test holds of, if it holds of no others. -/
def partitionIndex {α : Type} (p : α → Bool) (l : Array α) : Nat :=
  partitionPoint (fun i => if h : i < l.size then p l[i] else false) 0 l.size

namespace UncertaintyBin

def increasing : List Knot → Bool
  | a :: b :: rest => decide (a.pt < b.pt) && increasing (b :: rest)
  | _ => true

/-- What is wrong with a bin by itself. -/
def fault? (b : UncertaintyBin) : Option TableError :=
  if !decide (b.etaMin < b.etaMax) then some (.emptyBin b.etaMin b.etaMax)
  else if b.knots.isEmpty then some (.noKnots b.etaMin b.etaMax)
  else if !increasing b.knots then some (.notIncreasing b.etaMin b.etaMax)
  else none

/-- The value at a place between two knots. -/
def between (low high : Knot) (pt : Float) : Float :=
  let fraction := (pt - low.pt) / (high.pt - low.pt)
  low.uncertainty + fraction * (high.uncertainty - low.uncertainty)

/-- The uncertainty at a transverse momentum: that of the first or last knot beyond them, interpolated between knots.
There is none if it takes a knot that is not there. -/
def interpolate? (b : UncertaintyBin) (pt : Float) : Option Float :=
  let knots := b.knots.toArray
  let upper := partitionIndex (fun k : Knot => decide (k.pt ≤ pt)) knots
  if upper = 0 then knots[0]?.map Knot.uncertainty
  else if upper = knots.size then knots[upper - 1]?.map Knot.uncertainty
  else do
    let low ← knots[upper - 1]?
    let high ← knots[upper]?
    return between low high pt

end UncertaintyBin

structure UncertaintyTable where
  bins : List UncertaintyBin

namespace UncertaintyTable

/-- Two neighbours of which the first reaches into the second. -/
def overlap? : List UncertaintyBin → Option TableError
  | a :: b :: rest => if decide (b.etaMin < a.etaMax) then some (.overlap a.etaMin b.etaMin) else overlap? (b :: rest)
  | _ => none

/-- Bins in order of their lower ends. -/
def sort (bins : List UncertaintyBin) : List UncertaintyBin :=
  bins.mergeSort fun a b => decide (Binary.totalRank a.etaMin ≤ Binary.totalRank b.etaMin)

/-- The table of some bins: at least one, each sound by itself, and no two that overlap. -/
def ofBins (bins : List UncertaintyBin) : Except TableError UncertaintyTable :=
  if bins.isEmpty then .error .noBins
  else
    let sorted := sort bins
    match sorted.findSome? UncertaintyBin.fault? with
    | some e => .error e
    | none =>
      match overlap? sorted with
      | some e => .error e
      | none => .ok ⟨sorted⟩

/-- The bin for a pseudorapidity: the first that ends above it, or the last of all.  There is none if that is not
there. -/
def binFor? (t : UncertaintyTable) (eta : Float) : Option UncertaintyBin :=
  let bins := t.bins.toArray
  bins[min (partitionIndex (fun b : UncertaintyBin => decide (b.etaMax ≤ eta)) bins) (bins.size - 1)]?

/-- The uncertainty at a place.  The tables of `ofBins` have one everywhere. -/
def uncertainty (t : UncertaintyTable) (eta pt : Float) : Float :=
  ((t.binFor? eta).bind fun b => b.interpolate? pt).getD 0

end UncertaintyTable

open Json (Decoder FieldReader)
open Json.Decoder Json.FieldReader

def Knot.decode : Decoder Knot := record do
  return ⟨← required "pt" float, ← required "uncertainty" float⟩

def UncertaintyBin.decode : Decoder UncertaintyBin := record do
  return ⟨← required "eta_min" float, ← required "eta_max" float, ← required "points" (list Knot.decode)⟩

/-- A table, by bins that are accepted. -/
def UncertaintyTable.decode : Decoder UncertaintyTable := fun j => do
  match ofBins (← list UncertaintyBin.decode j) with
  | .ok t => return t
  | .error _ => none

end FlatNtuple
