import FlatNtuple.Function.Table
/-!
# Native functions

The quantities of events and objects that are not expressions.  What cannot be computed has one of two values: `-999`
where it is a place or an angle, and `-1` where it is a momentum, a mass or a count.
-/
namespace FlatNtuple
namespace Native

def missingPosition : Float32 := Binary.narrowInt (-999)

def missingMomentum : Float32 := Binary.narrowInt (-1)

/-- A number as a float, or a stand-in. -/
def floatOr (missing : Float32) (x : Option Float) : Float32 := (x.map Binary.narrow).getD missing

def jet? (i : Nat) (e : Event) : Option FourVector := e.jets[i]?.map Jet.p4

def genJet? (i : Nat) (e : Event) : Option FourVector := e.genJets[i]?

/-- The sum of the two leading momenta. -/
def pair? (get : Nat → Event → Option FourVector) (e : Event) : Option FourVector := do
  return (← get 0 e) + (← get 1 e)

def qgLikelihood (i : Nat) (e : Event) : Float32 :=
  (e.jets[i]?.bind fun j => j.user.floats.get? "qgLikelihood").getD missingMomentum

/-- The transverse mass of a momentum and the missing transverse momentum. -/
def mtToMet (p4 : FourVector) (e : Event) : Float32 :=
  let et := p4.et + e.met.pt
  let pt := (p4 + e.met).pt
  Binary.narrow (et * et - pt * pt).abs.sqrt

/-- A quantity of the primary vertex. -/
def ofVertex (f : Vertex → Float) (e : Event) : Float32 := floatOr missingPosition (e.primaryVertex?.map f)

def eventFloats : List (String × (Event → Float32)) :=
  [("pvZ", ofVertex fun v => v.position.z),
   ("pvndof", ofVertex Vertex.ndof),
   ("pvRho", ofVertex fun v => v.position.rho),
   ("nTruePU", fun e => e.trueInteractions?.getD missingMomentum),
   ("type1_pfMETEt", fun e => Binary.narrow e.met.pt),
   ("type1_pfMETPhi", fun e => Binary.narrow e.met.phi),
   ("genWeight", fun e => floatOr 0 e.genWeight),
   ("jet1Pt", fun e => floatOr missingMomentum ((jet? 0 e).map FourVector.pt)),
   ("jet1Eta", fun e => floatOr missingPosition ((jet? 0 e).map FourVector.eta)),
   ("jet1Phi", fun e => floatOr missingPosition ((jet? 0 e).map FourVector.phi)),
   ("jet2Pt", fun e => floatOr missingMomentum ((jet? 1 e).map FourVector.pt)),
   ("jet2Eta", fun e => floatOr missingPosition ((jet? 1 e).map FourVector.eta)),
   ("jet2Phi", fun e => floatOr missingPosition ((jet? 1 e).map FourVector.phi)),
   ("dijetMass", fun e => floatOr missingMomentum ((pair? jet? e).map FourVector.mass)),
   ("dijetPt", fun e => floatOr missingMomentum ((pair? jet? e).map FourVector.pt)),
   ("dijetEta", fun e => floatOr missingPosition ((pair? jet? e).map FourVector.eta)),
   ("dijetPhi", fun e => floatOr missingPosition ((pair? jet? e).map FourVector.phi)),
   ("jet1QGLikelihood", qgLikelihood 0),
   ("jet2QGLikelihood", qgLikelihood 1),
   ("genJet1Pt", fun e => floatOr missingMomentum ((genJet? 0 e).map FourVector.pt)),
   ("genJet2Pt", fun e => floatOr missingMomentum ((genJet? 1 e).map FourVector.pt)),
   ("genJet1Eta", fun e => floatOr missingPosition ((genJet? 0 e).map FourVector.eta)),
   ("genJet2Eta", fun e => floatOr missingPosition ((genJet? 1 e).map FourVector.eta)),
   ("genJet1Phi", fun e => floatOr missingPosition ((genJet? 0 e).map FourVector.phi)),
   ("genJet2Phi", fun e => floatOr missingPosition ((genJet? 1 e).map FourVector.phi)),
   ("mjjGen", fun e => floatOr missingMomentum ((pair? genJet? e).map FourVector.mass))]

/-- The functions of every object. -/
def shared {α : Type} (c : Candidate α) : (k : ReturnKind) → List (String × (α → Event → k.Carrier))
  | .float => ("mtToMET", fun x => mtToMet (c.p4 x)) :: eventFloats.map fun f => (f.1, fun _ => f.2)
  | .bool =>
    [("pvIsValid", fun _ e => (e.primaryVertex?.map Vertex.isValid).getD false),
     ("pvIsFake", fun _ e => (e.primaryVertex?.map Vertex.isFake).getD true)]
  | .int =>
    [("Charge", fun x _ => (c.chargeSum x).value),
     ("PdgId", fun x _ => c.pdgId x)]
  | .uint =>
    [("lumi", fun _ e => e.id.lumi),
     ("run", fun _ e => e.id.run),
     ("nvtx", fun _ e => UInt32.ofNat e.vertices.length),
     ("nJets", fun _ e => UInt32.ofNat e.jets.length),
     ("nGenJets", fun _ e => UInt32.ofNat e.genJets.length)]
  | .ulong => [("evt", fun _ e => e.id.event)]

/-- The size of an impact parameter in units of its uncertainty. -/
def significance (ip error : Float) : Float32 :=
  if error == 0 then missingMomentum else Binary.narrow (ip.abs / error)

/-- An impact parameter of a track with respect to the primary vertex. -/
def toVertex (f : Track → Point → Float) (track : Option Track) (e : Event) : Float32 :=
  floatOr missingPosition do return f (← track) (← e.primaryVertex?).position

/-- A quantity of the first two daughters. -/
def ofPair {β : Type} (missing : β) (f : Particle → Particle → β) (c : Composite) : β :=
  match c.daughters with
  | a :: b :: _ => f a b
  | _ => missing

def withoutFsr (f : FourVector → Float) (c : Composite) (_ : Event) : Float32 := Binary.narrow (f c.p4WithoutFsr)

/-- The functions of one object type. -/
def own : (k : ReturnKind) → (t : ObjectType) → List (String × (t.Record → Event → k.Carrier))
  | .float, .electron =>
    [("SIP3D", fun x _ => significance x.ip x.ipError),
     ("PVDZ", fun x => toVertex Track.dz (some x.track)),
     ("PVDXY", fun x => toVertex Track.dxy (some x.track))]
  | .uint, .electron => [("MissingHits", fun x _ => x.track.missingInnerHits)]
  | .float, .muon =>
    [("SIP3D", fun x _ => significance x.ip x.ipError),
     ("PVDZ", fun x => toVertex Track.dz x.bestTrack),
     ("PVDXY", fun x => toVertex Track.dxy x.bestTrack)]
  | .bool, .muon =>
    [("IsPFMuon", fun x _ => x.isPF),
     ("IsGlobal", fun x _ => x.isGlobal),
     ("IsTracker", fun x _ => x.isTracker)]
  | .uint, .muon =>
    [("BestTrackType", fun x _ => x.bestTrackFit.code),
     ("MatchedStations", fun x _ => x.matchedStations)]
  | .float, .composite =>
    [("DR", fun x _ => ofPair missingPosition (fun a b => Binary.narrow (a.p4.deltaR b.p4)) x),
     ("massNoFSR", withoutFsr FourVector.mass),
     ("ptNoFSR", withoutFsr FourVector.pt),
     ("etaNoFSR", withoutFsr FourVector.eta),
     ("phiNoFSR", withoutFsr FourVector.phi),
     ("energyNoFSR", withoutFsr FourVector.energy)]
  | .bool, .composite => [("SS", fun x _ => ofPair false (fun a b => a.chargeSum.value == b.chargeSum.value) x)]
  | _, _ => []

def sharedLayer (k : ReturnKind) (t : ObjectType) : List (NamedFunction k t) :=
  (shared t.candidate k).map fun f => ⟨f.1, .shared, f.2⟩

def objectLayer (k : ReturnKind) (t : ObjectType) : List (NamedFunction k t) :=
  (own k t).map fun f => ⟨f.1, .object, f.2⟩

/-- The native functions of a kind and an object type. -/
def table (k : ReturnKind) (t : ObjectType) : NativeTable k t := .ofLayers (sharedLayer k t) (objectLayer k t)

end Native
end FlatNtuple
