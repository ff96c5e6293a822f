import SVF.Util.ObjectRegions

namespace SVF.Util.Clusterer

open DefaultMaps NodeIDs ObjectRegions

inductive ClusterMethod
  | SINGLE
  | COMPLETE
  | AVERAGE
  | SVF_BEST
  deriving DecidableEq

inductive PtType
  | SBV
  | CBV
  | BV
  deriving DecidableEq

structure Options where
  NodeAllocStrat : Strategy
  RegionedClustering : Bool
  RegionAlign : Bool
  ClusterMethod : ClusterMethod
  PtType : PtType

def NATIVE_INT_SIZE : ℕ := 64

abbrev PtsOcc := List NodeID × ℕ

/-- The objects of a region in ascending order, and the points-to sets over them. -/
structure Region where
  objects : List NodeID
  pointsTos : List PtsOcc
  deriving DecidableEq

/-- The merge matrix for the objects of a region, from the distances that the
points-to sets give their positions: both are computed on doubles, the second by a
clustering library. -/
abbrev Hclust := ClusterMethod → ℕ → List (List ℕ × ℕ) → List ℤ

structure Allocation where
  nodeMap : List NodeID
  allocCounter : ℕ

def Allocation.assign (a : Allocation) (o : NodeID) : Allocation :=
  ⟨a.nodeMap.set o a.allocCounter, incr a.allocCounter⟩

structure Traversal where
  alloc : Allocation
  visited : List ℕ

def placeLeaf (regionNodeMap : List NodeID) (leaf : ℤ) (t : Traversal) : Option Traversal := do
  let o ← regionNodeMap[leaf.natAbs - 1]?
  some { t with alloc := t.alloc.assign o }

def traverseDendrogram (dendrogram : List ℤ) (numObjects : ℕ) (regionNodeMap : List NodeID) :
    ℕ → ℕ → Traversal → Option Traversal
  | 0, _, _ => none
  | _ + 1, 0, _ => none
  | fuel + 1, index + 1, t =>
      if index + 1 ∈ t.visited then some t
      else do
        let t : Traversal := { t with visited := (index + 1) :: t.visited }
        let left ← dendrogram[index]?
        let t ← if left < 0 then placeLeaf regionNodeMap left t
          else traverseDendrogram dendrogram numObjects regionNodeMap fuel left.toNat t
        let right ← dendrogram[numObjects - 1 + index]?
        if right < 0 then placeLeaf regionNodeMap right t
        else traverseDendrogram dendrogram numObjects regionNodeMap fuel right.toNat t

def alignCounter (opts : Options) (allocCounter : ℕ) : ℕ :=
  if opts.RegionAlign then
    (allocCounter + NATIVE_INT_SIZE - 1) / NATIVE_INT_SIZE * NATIVE_INT_SIZE % 2 ^ 32
  else allocCounter

/-- The positions in the region of the objects of its points-to sets, which
`getDistanceMatrix` asserts to be there. -/
def positions (region : Region) : Option (List (List ℕ × ℕ)) :=
  region.pointsTos.mapM fun p => do
    let moi ← p.1.mapM fun o => region.objects.idxOf? o
    some (moi, p.2)

def allocRegion (opts : Options) (hclust_fast : Hclust) (method : ClusterMethod) (a : Allocation)
    (region : Region) : Option Allocation := do
  let a : Allocation := { a with allocCounter := alignCounter opts a.allocCounter }
  let regionNumObjects := region.objects.length
  if regionNumObjects < NATIVE_INT_SIZE then some (region.objects.foldl Allocation.assign a)
  else
    let distances ← positions region
    let dendrogram := hclust_fast method regionNumObjects distances
    let t ← traverseDendrogram dendrogram regionNumObjects region.objects regionNumObjects
      (regionNumObjects - 1) ⟨a, []⟩
    some t.alloc

def allocRegions (opts : Options) (hclust_fast : Hclust) (numObjects : ℕ) (regions : List Region)
    (method : ClusterMethod) : Option (List NodeID) := do
  let a ← regions.foldlM (allocRegion opts hclust_fast method) ⟨List.replicate numObjects UINT_MAX, 0⟩
  some a.nodeMap

structure PointsToSets where
  pointsToSets : DefaultMap (List NodeID) ℕ
  coPointeeGraph : CoPointeeGraph

def addKey (getPts : NodeID → List NodeID) (s : PointsToSets) (keyOcc : NodeID × ℕ) : PointsToSets :=
  let pts := getPts keyOcc.1
  { pointsToSets := s.pointsToSets.modify pts fun occ => (occ + keyOcc.2) % 2 ^ 32
    coPointeeGraph := if pts ∈ s.pointsToSets.keys then s.coPointeeGraph
      else addPointsTo s.coPointeeGraph pts }

def collectPointsToSets (getPts : NodeID → List NodeID) (keys : List (NodeID × ℕ)) : PointsToSets :=
  keys.foldl (addKey getPts) ⟨.empty, .empty⟩

def objectsRegion (opts : Options) (order : HashOrder NodeID) (graph : CoPointeeGraph) (numObjects : ℕ) :
    Option (List NodeID × ℕ) :=
  if opts.RegionedClustering then regionObjects order graph numObjects
  else some (List.replicate numObjects 0, 1)

def makeRegion (numObjects : ℕ) (objectsRegion : List NodeID) (pointsToSets : List PtsOcc) (region : ℕ) :
    Option Region :=
  let objects := (List.range numObjects).filter fun o => objectsRegion.getD o UINT_MAX = region
  if objects = [] then none
  else some ⟨objects, pointsToSets.filter fun p =>
    p.1 ≠ [] ∧ objectsRegion.getD (p.1.headD 0) UINT_MAX = region⟩

def iteratePts (order : HashOrder (List NodeID)) (pointsToSets : DefaultMap (List NodeID) ℕ) : List PtsOcc :=
  (order.iterate pointsToSets.keys).map fun pts => (pts, pointsToSets.get pts)

def makeRegions (opts : Options) (order : HashOrder NodeID) (orderPts : HashOrder (List NodeID))
    (numObjects : ℕ) (s : PointsToSets) : Option (List Region) := do
  let (labels, numRegions) ← objectsRegion opts order s.coPointeeGraph numObjects
  if labels.all (· < numRegions) then
    (List.range numRegions).mapM (makeRegion numObjects labels (iteratePts orderPts s.pointsToSets))
  else none

abbrev Candidate := ClusterMethod × List NodeID

def newSbvWords (mapped : List NodeID) : ℕ := (mapped.map (· / 128)).dedup.length * 2

/-- The words from the one with the least id to the one with the greatest. -/
def newBvWords (mapped : List NodeID) : ℕ :=
  mapped.foldl max 0 / NATIVE_INT_SIZE - mapped.foldl min UINT_MAX / NATIVE_INT_SIZE + 1

/-- The total that `evaluate` finds for the type in use, in 64-bit numbers. -/
def evaluate (words : List NodeID → ℕ) (nodeMap : List NodeID) (pointsToSets : List PtsOcc) : Option ℕ :=
  pointsToSets.foldlM (fun total p =>
    if p.1 = [] then some total
    else do
      let mapped ← p.1.mapM (nodeMap[·]?)
      some ((total + words mapped * p.2) % 2 ^ 64)) 0

def candidateWords (opts : Options) (nodeMap : List NodeID) (pointsToSets : List PtsOcc) : Option ℕ :=
  match opts.PtType with
  | .SBV => evaluate newSbvWords nodeMap pointsToSets
  | .CBV => evaluate newBvWords nodeMap pointsToSets
  | .BV => none

def determineBestMapping (opts : Options) (candidates : List Candidate) (pointsToSets : List PtsOcc)
    (evalSubtitle : String) : Option Candidate := do
  let first ← candidates[0]?
  if evalSubtitle ≠ "" ∨ opts.ClusterMethod = .SVF_BEST then
    let best ← candidates.foldlM (fun (best : Candidate × ℕ) candidate => do
      let words ← candidateWords opts candidate.2 pointsToSets
      some (if words < best.2 then (candidate, words) else best)) (first, 2 ^ 64 - 1)
    some best.1
  else some first

def methods (opts : Options) : List ClusterMethod :=
  if opts.ClusterMethod = .SVF_BEST then [.SINGLE, .COMPLETE, .AVERAGE] else [opts.ClusterMethod]

def newCandidate (opts : Options) (hclust_fast : Hclust) (numObjects : ℕ) (regions : List Region)
    (method : ClusterMethod) : Option Candidate := do
  let nodeMap ← allocRegions opts hclust_fast numObjects regions method
  some (method, nodeMap)

/-- The mapping chosen, and the candidates with those given at the start. -/
def cluster (opts : Options) (order : HashOrder NodeID) (orderPts : HashOrder (List NodeID))
    (hclust_fast : Hclust) (numObjects : ℕ) (getPts : NodeID → List NodeID) (keys : List (NodeID × ℕ))
    (candidates : List Candidate) (evalSubtitle : String) : Option (List NodeID × List Candidate) :=
  if opts.NodeAllocStrat = .DENSE then do
    let s := collectPointsToSets getPts keys
    let regions ← makeRegions opts order orderPts numObjects s
    let new ← (methods opts).mapM (newCandidate opts hclust_fast numObjects regions)
    let candidates := candidates ++ new
    let best ← determineBestMapping opts candidates (iteratePts orderPts s.pointsToSets) evalSubtitle
    some (best.2, candidates)
  else none

def reverseStep (reverse : List NodeID) (p : ℕ × NodeID) : Option (List NodeID) :=
  let (i, mapsTo) := p
  let reverse := if reverse.length ≤ mapsTo then
      reverse.take (incr mapsTo) ++ List.replicate (incr mapsTo - reverse.length) UINT_MAX
    else reverse
  if mapsTo < reverse.length then some (reverse.set mapsTo i) else none

def getReverseNodeMapping (nodeMapping : List NodeID) : Option (List NodeID) :=
  (nodeMapping.mapIdx Prod.mk).foldlM reverseStep (List.replicate nodeMapping.length UINT_MAX)

end SVF.Util.Clusterer
