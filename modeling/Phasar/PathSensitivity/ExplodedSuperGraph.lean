import Phasar.PathSensitivity.PathReconstruction

/-!
# Construction of the exploded supergraph

`ExplodedSuperGraph::saveEdges` records the edges that an IFDS solver finds. A pair of an instruction
and a fact has a node, which holds the source of the first edge into the pair and the node of this
source; further edges get nodes of their own, the neighbors. Identity edges share the node of their
source.

* `ESG`, `saveEdge`, `saveEdges`, `run`;
* `SavedEdge`, `Chain`: the chains of saved edges;
* `RecordsChains`: the walks through the graph are the chains;
* `StepOk`, `RunOk`: what the edges must not do.
-/

namespace Phasar.ExplodedSuperGraph

open PathSensitivityManager Relation

inductive ESGEdgeKind
  | normal | call | callToRet | skipUnknownFn | ret | summary
  deriving DecidableEq

/-- An element of `NodeDataOwner`, with that of `NodeAdjOwner`. -/
structure Node (N D : Type*) where
  value : D
  source : N
  predecessorIdx : Option ℕ
  neighbors : List ℕ

/-- The nodes, and the node of each pair. -/
structure ESG (N D : Type*) where
  nodes : List (Node N D)
  flowFactVertexMap : N × D → Option ℕ

/-- The arguments of a call of `saveEdges`. -/
structure Call (N D : Type*) where
  curr : N
  currNode : D
  succ : N
  succNodes : List D
  kind : ESGEdgeKind

/-- The empty graph. -/
def ESG.empty (N D : Type*) : ESG N D := ⟨[], fun _ => none⟩

section Construction

variable {N D B : Type*}

namespace ESG

variable (G : ESG N D)

def getNodeIdOrNull (inst : N) (fact : D) : Option ℕ := G.flowFactVertexMap (inst, fact)

def predecessor (v : ℕ) : Option ℕ := (G.nodes[v]?).bind Node.predecessorIdx

def neighbors (v : ℕ) : List ℕ := (G.nodes[v]?).elim [] Node.neighbors

def source [Inhabited N] (v : ℕ) : N := (G.nodes[v]?).elim default Node.source

/-- The graph as a `NodeRef` reads it. -/
def refs [Inhabited N] : PathSensitivityManager.ExplodedSuperGraph ℕ N :=
  ⟨G.source, G.predecessor, G.neighbors⟩

/-- Change a node. -/
def modifyNode (v : ℕ) (f : Node N D → Node N D) : ESG N D := { G with nodes := G.nodes.modify v f }

variable [DecidableEq N] [DecidableEq D]

/-- The lambda `makeNode`. Without a predecessor the pair of the source gets the node, too. -/
def makeNode (predId : Option ℕ) (curr : N) (currNode succNode : D) : ESG N D where
  nodes := G.nodes ++ [⟨succNode, curr, predId, []⟩]
  flowFactVertexMap :=
    if predId = none then Function.update G.flowFactVertexMap (curr, currNode) (some G.nodes.length)
    else G.flowFactVertexMap

/-- Write an entry of `FlowFactVertexMap`. -/
def setNode (q : N × D) (v : Option ℕ) : ESG N D :=
  { G with flowFactVertexMap := Function.update G.flowFactVertexMap q v }

end ESG

section Edges

variable [DecidableEq D] [DecidableEq B]

/-- The test for an identity edge. The block is that of the source of the predecessor's node. -/
def isIdentity (block : N → B) (zeroValue : D) (G : ESG N D) (predId : Option ℕ) (succ : N)
    (succNode : D) : Bool :=
  (predId.bind (G.nodes[·]?)).any fun pred =>
    pred.value = succNode && block pred.source = block succ && succNode ≠ zeroValue

variable [DecidableEq N]

/-- `saveEdge`. -/
def saveEdge (block : N → B) (zeroValue : D) (G : ESG N D) (predId : Option ℕ) (curr : N)
    (currNode : D) (succ : N) (succNode : D) (maySkipEdge : Bool) : ESG N D :=
  match G.flowFactVertexMap (succ, succNode) with
  | none =>
    if maySkipEdge && succNode = currNode then
      ((G.makeNode predId curr currNode succNode).setNode (succ, succNode) G.nodes.length).modifyNode
        G.nodes.length fun nd => { nd with predecessorIdx := none }
    else if isIdentity block zeroValue G predId succ succNode then G.setNode (succ, succNode) predId
    else (G.makeNode predId curr currNode succNode).setNode (succ, succNode) G.nodes.length
  | some succVtx =>
    if maySkipEdge && succNode = currNode then G
    else if isIdentity block zeroValue G predId succ succNode && predId = some succVtx then G
    else
      match G.predecessor succVtx with
      -- meant for nodes of skipped edges; those of edges out of seeds have no predecessor either
      | none => G.modifyNode succVtx fun nd => { nd with predecessorIdx := predId, source := curr }
      | some w =>
        if some w ≠ predId && (G.neighbors succVtx).all fun nb => G.predecessor nb ≠ predId then
          (G.makeNode predId curr currNode succNode).modifyNode succVtx fun nd =>
            { nd with neighbors := nd.neighbors ++ [G.nodes.length] }
        else G

/-- `saveEdges`. The node of the source is looked up once. -/
def saveEdges (block : N → B) (zeroValue : D) (G : ESG N D) (c : Call N D) : ESG N D :=
  let predId := G.getNodeIdOrNull c.curr c.currNode
  let maySkipEdge := c.kind = .callToRet && c.currNode = zeroValue
  c.succNodes.foldl (fun G succNode =>
    saveEdge block zeroValue G predId c.curr c.currNode c.succ succNode maySkipEdge) G

/-- The graph after a sequence of calls. -/
def run (block : N → B) (zeroValue : D) (calls : List (Call N D)) : ESG N D :=
  calls.foldl (saveEdges block zeroValue) (ESG.empty N D)

end Edges

end Construction

/-! ### The saved edges -/

structure SavedEdge (N D : Type*) where
  src : N × D
  tgt : N × D
  kind : ESGEdgeKind

section Chains

variable {N D B : Type*}

/-- The edges of a call. -/
def Call.edges (c : Call N D) : List (SavedEdge N D) :=
  c.succNodes.map fun d => ⟨(c.curr, c.currNode), (c.succ, d), c.kind⟩

/-- The edges of a sequence of calls. -/
def savedEdges (calls : List (Call N D)) : List (SavedEdge N D) := calls.flatMap Call.edges

variable (block : N → B) (zeroValue : D)

/-- A call-to-return edge of the zero value. -/
def SavedEdge.Skipped (e : SavedEdge N D) : Prop :=
  e.kind = .callToRet ∧ e.src.2 = zeroValue ∧ e.tgt.2 = zeroValue

/-- An identity edge inside one block, not of the zero value. -/
def SavedEdge.Contracted (e : SavedEdge N D) : Prop :=
  e.src.2 = e.tgt.2 ∧ block e.src.1 = block e.tgt.1 ∧ e.tgt.2 ≠ zeroValue

/-- The instructions on a chain of saved edges from a seed to a pair, the last one first. Skipped edges
are on no chain, and contracted ones do not count, except for the instruction of the seed. -/
inductive Chain (seeds : Set (N × D)) (E : List (SavedEdge N D)) : N × D → List N → Prop
  | seed {e} : e ∈ E → ¬e.Skipped zeroValue → e.src ∈ seeds → Chain seeds E e.tgt [e.src.1]
  | step {e l} : e ∈ E → ¬e.Skipped zeroValue → ¬e.Contracted block zeroValue →
      Chain seeds E e.src l → Chain seeds E e.tgt (e.src.1 :: l)
  | contract {e l} : e ∈ E → ¬e.Skipped zeroValue → e.Contracted block zeroValue →
      Chain seeds E e.src l → Chain seeds E e.tgt l

variable {block zeroValue} in
theorem SavedEdge.Contracted.not_skipped {e : SavedEdge N D} (h : e.Contracted block zeroValue) :
    ¬e.Skipped zeroValue := fun hs => h.2.2 hs.2.2

variable {block zeroValue} in
theorem Chain.tgt_mem {seeds : Set (N × D)} {E : List (SavedEdge N D)} {q : N × D} {l : List N}
    (h : Chain block zeroValue seeds E q l) : ∃ e ∈ E, e.tgt = q := by
  cases h with
  | seed he => exact ⟨_, he, rfl⟩
  | step he => exact ⟨_, he, rfl⟩
  | contract he => exact ⟨_, he, rfl⟩

/-- The walks back from the node of each saved pair are the chains that end in the pair. -/
def RecordsChains [Inhabited N] (seeds : Set (N × D)) (E : List (SavedEdge N D)) (G : ESG N D) : Prop :=
  ∀ e ∈ E, ∃ v, G.getNodeIdOrNull e.tgt.1 e.tgt.2 = some v ∧ ∀ l,
    (∃ w ∈ alternatives G.refs v, Walk G.refs (PathTracingFilter.default ℕ) w l) ↔
      Chain block zeroValue seeds E e.tgt l

/-- Each source is a seed or was a target before. -/
def SourcesOk (seeds : Set (N × D)) (E : List (SavedEdge N D)) : List (Call N D) → Prop
  | [] => True
  | c :: cs => ((c.curr, c.currNode) ∈ seeds ∨ ∃ e ∈ E, e.tgt = (c.curr, c.currNode)) ∧
      SourcesOk seeds (E ++ c.edges) cs

end Chains

/-! ### What the edges must not do -/

section Conditions

variable {N D B : Type*} (block : N → B) (zeroValue : D)

/-- A contracted edge leads from `q` to `q'`. -/
def ContractedIn (E : List (SavedEdge N D)) (q q' : N × D) : Prop :=
  ∃ e ∈ E, e.Contracted block zeroValue ∧ e.src = q ∧ e.tgt = q'

/-- All edges into the pair were skipped. -/
def Pending (E : List (SavedEdge N D)) (q : N × D) : Prop :=
  (∃ e ∈ E, e.tgt = q) ∧ ∀ e ∈ E, e.tgt = q → e.Skipped zeroValue

/-- One of the alternatives of the node has the given source and predecessor. -/
def Offers [Inhabited N] (G : ESG N D) (v : ℕ) (a : N) (w : Option ℕ) : Prop :=
  ∃ u ∈ alternatives G.refs v, G.source u = a ∧ G.predecessor u = w

variable [DecidableEq D] [DecidableEq B]

/-- No edge leads to a seed, and none leaves a seed that has a node already. The assertion on skipped
edges holds. The code tests for identity edges correctly, and the pair of such an edge has no other node.
An edge into a pair with a node is there already, or is the first one that is not skipped, or the node
has a predecessor, offers none with the same node, and belongs to no pair but those that are contracted
with the target. -/
structure StepOk [Inhabited N] (seeds : Set (N × D)) (E : List (SavedEdge N D)) (G : ESG N D)
    (predId : Option ℕ) (e : SavedEdge N D) : Prop where
  tgt : e.tgt ∉ seeds
  seed : e.src ∈ seeds → predId = none
  skipped : e.Skipped zeroValue → predId ≠ none
  contracted : ¬e.Skipped zeroValue → predId ≠ none →
    (isIdentity block zeroValue G predId e.tgt.1 e.tgt.2 = true ↔ e.Contracted block zeroValue)
  sameNode : ¬e.Skipped zeroValue → isIdentity block zeroValue G predId e.tgt.1 e.tgt.2 = true →
    ∀ v, G.flowFactVertexMap e.tgt = some v → predId = some v
  offered : ¬e.Skipped zeroValue → isIdentity block zeroValue G predId e.tgt.1 e.tgt.2 = false →
    ∀ v, G.flowFactVertexMap e.tgt = some v → Offers G v e.src.1 predId ∨ Pending zeroValue E e.tgt ∨
      (G.predecessor v ≠ none ∧ (∀ a, ¬Offers G v a predId) ∧ ∀ q ∉ seeds,
        G.flowFactVertexMap q = some v → ReflTransGen (ContractedIn block zeroValue E) e.tgt q)

variable [DecidableEq N]

/-- A call of `saveEdge` by `saveEdges`. -/
def saveSavedEdge (G : ESG N D) (predId : Option ℕ) (e : SavedEdge N D) : ESG N D :=
  saveEdge block zeroValue G predId e.src.1 e.src.2 e.tgt.1 e.tgt.2
    (e.kind = .callToRet && e.src.2 = zeroValue)

/-- All steps of a call are as they must be. -/
def StepsOk [Inhabited N] (seeds : Set (N × D)) (predId : Option ℕ) :
    List (SavedEdge N D) → ESG N D → List (SavedEdge N D) → Prop
  | _, _, [] => True
  | E, G, e :: es => StepOk block zeroValue seeds E G predId e ∧
      StepsOk seeds predId (E ++ [e]) (saveSavedEdge block zeroValue G predId e) es

/-- All steps of a sequence of calls are as they must be. -/
def RunOk [Inhabited N] (seeds : Set (N × D)) :
    List (SavedEdge N D) → ESG N D → List (Call N D) → Prop
  | _, _, [] => True
  | E, G, c :: cs =>
    StepsOk block zeroValue seeds (G.getNodeIdOrNull c.curr c.currNode) E G c.edges ∧
      RunOk seeds (E ++ c.edges) (saveEdges block zeroValue G c) cs

theorem saveEdges_eq (G : ESG N D) (c : Call N D) :
    saveEdges block zeroValue G c = c.edges.foldl
      (saveSavedEdge block zeroValue · (G.getNodeIdOrNull c.curr c.currNode)) G := by
  rw [Call.edges, List.foldl_map]
  rfl

end Conditions

end Phasar.ExplodedSuperGraph
