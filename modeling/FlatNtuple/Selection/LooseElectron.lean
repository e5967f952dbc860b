import FlatNtuple.Event.Basic
/-!
# The loose electron selection

Electrons are selected by cuts on their shape, isolation and impact parameters, with thresholds of their own for the
barrel and the endcaps.  An `Embedder` writes the decision into the user data of electrons.  It also derives, from
flags that other selections have left there, the same flags with a cut on the impact parameters added.
-/
namespace FlatNtuple

/-- The quantities of an electron that are cut on. -/
structure IdVariables where
  pt : Float
  deltaEtaIn : Float
  deltaPhiIn : Float
  sigmaIetaIeta : Float
  hcalOverEcal : Float
  inverseDifference : Float
  ecalIso : Float
  hcalIso : Float
  trackIso : Float
  missingHits : UInt32
  dxy : Float
  dz : Float
  passConversionVeto : Bool

def Electron.idVariables (e : Electron) (vertex : Point) : IdVariables where
  pt := e.p4.pt
  deltaEtaIn := e.deltaEtaIn.abs
  deltaPhiIn := e.deltaPhiIn.abs
  sigmaIetaIeta := e.sigmaIetaIeta
  hcalOverEcal := e.hcalOverEcal
  inverseDifference := e.inverseDifference
  ecalIso := e.ecalIso
  hcalIso := e.hcalIso
  trackIso := e.trackIso
  missingHits := e.track.missingInnerHits
  dxy := (e.track.dxy vertex).abs
  dz := (e.track.dz vertex).abs
  passConversionVeto := e.passConversionVeto

/-- The thresholds of a region.  All are exclusive but the number of missing hits. -/
structure RegionCuts where
  deltaEtaIn : Float
  deltaPhiIn : Float
  sigmaIetaIeta : Float
  hcalOverEcal : Float
  inverseDifference : Float
  /-- The isolations are relative to the transverse momentum. -/
  ecalIso : Float
  hcalIso : Float
  trackIso : Float
  missingHits : UInt32
  dxy : Float
  dz : Float
  /-- The thresholds of the impact parameters in derived flags. -/
  flagDxy : Float
  flagDz : Float

namespace RegionCuts

def barrel : RegionCuts where
  deltaEtaIn := 0.01
  deltaPhiIn := 0.04
  sigmaIetaIeta := 0.011
  hcalOverEcal := 0.08
  inverseDifference := 0.01
  ecalIso := 0.45
  hcalIso := 0.25
  trackIso := 0.2
  missingHits := 2
  dxy := 0.1
  dz := 0.373
  flagDxy := 0.05
  flagDz := 0.1

def endcap : RegionCuts where
  deltaEtaIn := 0.01
  deltaPhiIn := 0.08
  sigmaIetaIeta := 0.031
  hcalOverEcal := 0.08
  inverseDifference := 0.01
  ecalIso := 0.45
  hcalIso := 0.25
  trackIso := 0.2
  missingHits := 1
  dxy := 0.2
  dz := 0.602
  flagDxy := 0.1
  flagDz := 0.2

def passes (c : RegionCuts) (v : IdVariables) : Bool :=
  decide (v.deltaEtaIn < c.deltaEtaIn) &&
  decide (v.deltaPhiIn < c.deltaPhiIn) &&
  decide (v.sigmaIetaIeta < c.sigmaIetaIeta) &&
  decide (v.hcalOverEcal < c.hcalOverEcal) &&
  decide (v.inverseDifference < c.inverseDifference) &&
  decide (v.ecalIso / v.pt < c.ecalIso) &&
  decide (v.hcalIso / v.pt < c.hcalIso) &&
  decide (v.trackIso / v.pt < c.trackIso) &&
  decide (v.missingHits ≤ c.missingHits) &&
  decide (v.dxy < c.dxy) &&
  decide (v.dz < c.dz) &&
  v.passConversionVeto

/-- The cut on the impact parameters that derived flags add. -/
def passesImpactParameter (c : RegionCuts) (v : IdVariables) : Bool :=
  decide (v.dxy < c.flagDxy) && decide (v.dz < c.flagDz)

end RegionCuts

namespace Electron

/-- The cuts of the region an electron lies in; the barrel comes first, and outside both there are none. -/
def region? (e : Electron) : Option RegionCuts :=
  if e.isBarrel then some .barrel else if e.isEndcap then some .endcap else none

/-- The loose selection; an electron outside both regions fails. -/
def passesLoose (e : Electron) (vertex : Point) : Bool :=
  match e.region? with
  | some cuts => cuts.passes (e.idVariables vertex)
  | none => false

/-- The cut on the impact parameters of derived flags, with the endcap's thresholds outside the barrel. -/
def passesFlagCut (e : Electron) (vertex : Point) : Bool :=
  (if e.isBarrel then RegionCuts.barrel else .endcap).passesImpactParameter (e.idVariables vertex)

end Electron

inductive EmbedderError
  | noPrimaryVertex
  deriving DecidableEq, Repr

def EmbedderError.message : EmbedderError → String
  | noPrimaryVertex => "No primary vertex available"

structure Embedder where
  /-- The user floats that hold the flags of other selections. -/
  flags : List String := ["IsCBVIDTight", "IsCBVIDMedium", "IsCBVIDLoose", "IsCBVIDVeto", "IsCBVIDHLTSafe"]
  /-- The user integer that takes the decision. -/
  label : String := "IsWWLoose"
  /-- What the names of derived flags end in. -/
  suffix : String := "wIP"

namespace Embedder

/-- Derives the flag of one name, if there is one, in the user floats. -/
def derive (suffix : String) (pass : Bool) (floats : OrderedMap Float32) (flag : String) : OrderedMap Float32 :=
  match floats.get? flag with
  | some decision => floats.insert (flag ++ suffix) (if decision != 0 && pass then 1 else 0)
  | none => floats

/-- An electron with the decisions in its user data.  The flags are derived one after the other. -/
def embed (c : Embedder) (vertex : Point) (e : Electron) : Electron :=
  let loose := e.region?.any fun cuts => cuts.passes (e.idVariables vertex)
  let user := e.user.addInt c.label (if loose then 1 else 0)
  let floats := c.flags.foldl (derive c.suffix (e.passesFlagCut vertex)) user.floats
  { e with user := { user with floats := floats } }

/-- The electrons of an event with the decisions in their user data, with respect to the first vertex. -/
def produce (c : Embedder) (electrons : List Electron) (vertices : List Vertex) :
    Except EmbedderError (List Electron) :=
  match vertices with
  | v :: _ => .ok (electrons.map (c.embed v.position))
  | [] => .error .noPrimaryVertex

end Embedder
end FlatNtuple
