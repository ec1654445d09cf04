import AegisDB.Graph.Store
import AegisDB.Library.Transition

/-!
# Ends of edges

The sections of any number of operations on the graph store run in any order that the locks allow.
A new edge is inserted when the lock under which its ends were seen has been given back, so a node
can be deleted in between, and the edge is left without it, in the store and in every snapshot from
then on.  Apart from these deletions, the ends of every edge are there, in the store and on the
disk.
-/

namespace AegisDB.Graph

variable {ν : Type}

def Closed (nodes : Table String (GraphNode ν)) (edges : Table String GraphEdge) : Prop :=
  ∀ id edge, edges.lookup id = some edge → edge.source ∈ nodes ∧ edge.target ∈ nodes

/-- The store, the operations that were asked for, and the snapshots that were written since there
is a disk, the last of them being the one that is there. -/
structure GraphSession (ν : Type) where
  store : GraphStore ν := {}
  calls : List (Operation ν) := []
  written : List (GraphSnapshot ν) := []

/-- What happens to the graph store. -/
inductive GraphEvent (ν : Type) where
  | call (operation : Operation ν)
  /-- The next section of an operation; a snapshot may fail to be written. -/
  | resume (i : ℕ) (succeeds : Bool)
  /-- The server is started again; the snapshot on the disk may be unreadable. -/
  | restart (readable : Bool)

namespace GraphSession

/-- The locks that the next section of an operation needs are not held by another. -/
def Free (calls : List (Operation ν)) (c : Operation ν) : Prop :=
  ∀ d ∈ calls, (c.writesNodes && d.readsNodes) = false ∧ (c.writesEdges && d.readsEdges) = false

instance (calls : List (Operation ν)) (c : Operation ν) : Decidable (Free calls c) :=
  inferInstanceAs (Decidable (∀ d ∈ calls, _))

/-- The snapshots that were written when an operation has run its next section. -/
def writtenBehind (written : List (GraphSnapshot ν)) (succeeds : Bool) :
    Operation ν → List (GraphSnapshot ν)
  | .flush (.write snapshot) _ => if succeeds then written ++ [snapshot] else written
  | _ => written

variable (lowercase : String → String) (dataDir : Bool)

def step (w : GraphSession ν) : GraphEvent ν → Option (GraphSession ν)
  | .call operation =>
    if operation.isCall then some { w with calls := w.calls ++ [operation] } else none
  | .resume i succeeds => w.calls[i]?.bind fun c =>
      if c.isEnded = false ∧ Free w.calls c then
        some { store := (c.next dataDir lowercase w.store).2
               calls := w.calls.set i (c.next dataDir lowercase w.store).1
               written := writtenBehind w.written succeeds c }
      else none
  | .restart readable =>
    some { w with
           store := .withDataDir (if readable then w.written.getLast? else none)
           calls := [] }

def system : System (GraphSession ν) (GraphEvent ν) where
  init := {}
  step := step lowercase dataDir

/-- When no operation is in progress, the ends of every edge are there, and so they are in every
snapshot that was written. -/
def NoDangling (w : GraphSession ν) : Prop :=
  ((∀ c ∈ w.calls, c.isEnded = true) → Closed w.store.nodes w.store.edges) ∧
    ∀ snapshot ∈ w.written, Closed snapshot.nodes snapshot.edges

end GraphSession

/-- Whether the operation has seen that a node is there and inserts an edge with it. -/
def Operation.joins (id : String) : Operation ν → Bool
  | .numberEdge source target _ => decide (source = id) || decide (target = id)
  | .insertEdge edge => decide (edge.source = id) || decide (edge.target = id)
  | _ => false

def Operation.deleted : Operation ν → Option String
  | .deleteNode id => some id
  | _ => none

namespace GraphSession

/-- No node that is there is deleted while an edge with it is between its check and its
insertion. -/
def Unraced (w : GraphSession ν) : GraphEvent ν → Prop
  | .resume i _ => ∀ c ∈ w.calls[i]?, ∀ id ∈ c.deleted, id ∈ w.store.nodes →
      ∀ d ∈ w.calls, d.joins id = false
  | _ => True

instance (w : GraphSession ν) (e : GraphEvent ν) : Decidable (Unraced w e) :=
  match e with
  | .call _ | .restart _ => isTrue trivial
  | .resume i _ => inferInstanceAs (Decidable (∀ c ∈ w.calls[i]?, ∀ id ∈ c.deleted, _))

end GraphSession

/-! ## Sections -/

/-- What an operation has seen is still so, and what it has copied is closed. -/
def Operation.Fits (store : GraphStore ν) : Operation ν → Prop
  | .numberEdge source target _ => source ∈ store.nodes ∧ target ∈ store.nodes
  | .insertEdge edge => edge.source ∈ store.nodes ∧ edge.target ∈ store.nodes
  | .flush (.readEdges nodes) _ => nodes = store.nodes
  | .flush (.loadNodeCounter nodes edges) _ => nodes = store.nodes ∧ edges = store.edges
  | .flush (.loadEdgeCounter nodes edges _) _ => nodes = store.nodes ∧ edges = store.edges
  | .flush (.write snapshot) _ => Closed snapshot.nodes snapshot.edges
  | _ => True

namespace Operation

variable {lowercase : String → String} {dataDir : Bool} {store : GraphStore ν} {c d : Operation ν}

theorem fits_flushToDisk (reply : Reply ν) : (flushToDisk dataDir reply).Fits store := by
  rw [flushToDisk]
  split_ifs <;> trivial

theorem mem_nodes_next {id : String} (h : id ∈ store.nodes) (hid : c.deleted ≠ some id) :
    id ∈ (c.next dataDir lowercase store).2.nodes := by
  cases c with
  | insertNode node => exact (AList.mem_insert _).mpr (Or.inr h)
  | checkEnds source target relationship =>
    rw [next]
    split_ifs <;> exact h
  | deleteNode id' =>
    rw [next]
    split_ifs
    · exact AList.mem_erase.mpr ⟨fun heq => hid (congrArg some heq.symm), h⟩
    · exact h
  | deleteEdge id' =>
    rw [next]
    split_ifs <;> exact h
  | updateNode id' label properties =>
    rw [next]
    split
    · exact h
    · rw [← AList.lookup_isSome] at h ⊢
      rw [Table.lookup_modify]
      split_ifs
      · rwa [Option.isSome_map]
      · exact h
  | updateEdge id' relationship =>
    rw [next]
    split <;> exact h
  | flush flush reply => cases flush <;> exact h
  | _ => exact h

theorem nodes_next (h : c.writesNodes = false) :
    (c.next dataDir lowercase store).2.nodes = store.nodes := by
  cases c with
  | insertNode node => cases h
  | deleteNode id => cases h
  | updateNode id label properties => cases h
  | checkEnds source target relationship =>
    rw [next]
    split_ifs <;> rfl
  | deleteEdge id =>
    rw [next]
    split_ifs <;> rfl
  | updateEdge id relationship =>
    rw [next]
    split <;> rfl
  | flush flush reply => cases flush <;> rfl
  | _ => rfl

theorem edges_next (h : c.writesEdges = false) :
    (c.next dataDir lowercase store).2.edges = store.edges := by
  cases c with
  | insertEdge edge => cases h
  | deleteNode id => cases h
  | deleteEdge id => cases h
  | updateEdge id relationship => cases h
  | checkEnds source target relationship =>
    rw [next]
    split_ifs <;> rfl
  | updateNode id label properties =>
    rw [next]
    split <;> rfl
  | flush flush reply => cases flush <;> rfl
  | _ => rfl

/-- The section of another operation does not change what an operation has seen, if the locks allow
it and it deletes no node with which the operation inserts an edge. -/
theorem Fits.next_of_free (h : d.Fits store)
    (hnodes : (c.writesNodes && d.readsNodes) = false)
    (hedges : (c.writesEdges && d.readsEdges) = false)
    (hdeleted : ∀ id ∈ c.deleted, id ∈ store.nodes → d.joins id = false) :
    d.Fits (c.next dataDir lowercase store).2 := by
  -- a node with which the operation inserts an edge stays
  have hstays : ∀ id ∈ store.nodes, d.joins id = true →
      id ∈ (c.next dataDir lowercase store).2.nodes := by
    intro id hid hjoins
    refine mem_nodes_next hid fun hc => ?_
    rw [hdeleted id hc hid] at hjoins
    cases hjoins
  cases d with
  | numberEdge source target relationship =>
    refine ⟨hstays source h.1 ?_, hstays target h.2 ?_⟩
    · rw [joins, decide_eq_true rfl, Bool.true_or]
    · rw [joins, decide_eq_true (rfl : target = target), Bool.or_true]
  | insertEdge edge =>
    refine ⟨hstays edge.source h.1 ?_, hstays edge.target h.2 ?_⟩
    · rw [joins, decide_eq_true rfl, Bool.true_or]
    · rw [joins, decide_eq_true (rfl : edge.target = edge.target), Bool.or_true]
  | flush flush reply =>
    cases flush with
    | readEdges nodes =>
      rw [readsNodes, Bool.and_true] at hnodes
      exact h.trans (nodes_next hnodes).symm
    | loadNodeCounter nodes edges =>
      rw [readsNodes, Bool.and_true] at hnodes
      rw [readsEdges, Bool.and_true] at hedges
      exact ⟨h.1.trans (nodes_next hnodes).symm, h.2.trans (edges_next hedges).symm⟩
    | loadEdgeCounter nodes edges nodeCounter =>
      rw [readsNodes, Bool.and_true] at hnodes
      rw [readsEdges, Bool.and_true] at hedges
      exact ⟨h.1.trans (nodes_next hnodes).symm, h.2.trans (edges_next hedges).symm⟩
    | readNodes => trivial
    | write snapshot => exact h
  | _ => trivial

theorem Fits.next (hclosed : Closed store.nodes store.edges) (h : c.Fits store) :
    (c.next dataDir lowercase store).1.Fits (c.next dataDir lowercase store).2 := by
  cases c with
  | numberNode label properties => trivial
  | insertNode node => exact fits_flushToDisk _
  | checkEnds source target relationship =>
    rw [Operation.next]
    split_ifs with hsource htarget
    · exact ⟨hsource, htarget⟩
    · trivial
    · trivial
  | numberEdge source target relationship => exact h
  | insertEdge edge => exact fits_flushToDisk _
  | deleteNode id =>
    rw [Operation.next]
    split_ifs
    · exact fits_flushToDisk _
    · trivial
  | deleteEdge id =>
    rw [Operation.next]
    split_ifs
    · exact fits_flushToDisk _
    · trivial
  | updateNode id label properties =>
    rw [Operation.next]
    split
    · trivial
    · exact fits_flushToDisk _
  | updateEdge id relationship =>
    rw [Operation.next]
    split
    · trivial
    · exact fits_flushToDisk _
  | flush flush reply =>
    cases flush with
    | readNodes => rfl
    | readEdges nodes => exact ⟨h, rfl⟩
    | loadNodeCounter nodes edges => exact h
    | loadEdgeCounter nodes edges nodeCounter =>
      obtain ⟨rfl, rfl⟩ := h
      exact hclosed
    | write snapshot => trivial
  | ended reply => trivial

theorem closed_next (hclosed : Closed store.nodes store.edges) (h : c.Fits store) :
    Closed (c.next dataDir lowercase store).2.nodes (c.next dataDir lowercase store).2.edges := by
  -- where no node goes, only new edges matter
  have hkeep : c.deleted = none → ∀ id edge, store.edges.lookup id = some edge →
      edge.source ∈ (c.next dataDir lowercase store).2.nodes ∧
        edge.target ∈ (c.next dataDir lowercase store).2.nodes := by
    intro hc id edge hedge
    obtain ⟨hsource, htarget⟩ := hclosed id edge hedge
    have hne : ∀ id', c.deleted ≠ some id' := fun id' h' => by
      rw [hc] at h'
      cases h'
    exact ⟨mem_nodes_next hsource (hne _), mem_nodes_next htarget (hne _)⟩
  cases c with
  | insertEdge edge =>
    intro id edge' hedge
    rw [Operation.next] at hedge
    dsimp only at hedge
    rw [Table.lookup_insert] at hedge
    split_ifs at hedge
    · rw [← Option.some.inj hedge]
      exact h
    · exact hkeep rfl id edge' hedge
  | deleteNode id =>
    rw [Operation.next]
    split_ifs
    · intro id' edge hedge
      dsimp only at hedge ⊢
      rw [Table.lookup_filterValues, Option.filter_eq_some_iff, Bool.and_eq_true,
        decide_eq_true_eq, decide_eq_true_eq] at hedge
      obtain ⟨hedge, hsource, htarget⟩ := hedge
      obtain ⟨hs, ht⟩ := hclosed id' edge hedge
      exact ⟨AList.mem_erase.mpr ⟨hsource, hs⟩, AList.mem_erase.mpr ⟨htarget, ht⟩⟩
    · exact hclosed
  | deleteEdge id =>
    rw [Operation.next]
    split_ifs
    · intro id' edge hedge
      dsimp only at hedge ⊢
      exact hclosed id' edge (Table.lookup_of_lookup_erase hedge)
    · exact hclosed
  | updateEdge id relationship =>
    rw [Operation.next]
    split
    · exact hclosed
    · rename_i edge hedge
      intro id' edge' hedge'
      dsimp only at hedge' ⊢
      rw [Table.lookup_modify] at hedge'
      split_ifs at hedge' with hid
      · rw [hid, hedge] at hedge'
        rw [← Option.some.inj hedge']
        exact hclosed id edge hedge
      · exact hclosed id' edge' hedge'
  | _ =>
    intro id edge hedge
    rw [edges_next rfl] at hedge
    exact hkeep rfl id edge hedge

end Operation

/-! ## Runs -/

namespace GraphSession

variable {lowercase : String → String} {dataDir : Bool} {w w' : GraphSession ν}

/-- The ends of every edge are there, in the store and on the disk, and every operation has seen and
copied what is so. -/
structure Sound (w : GraphSession ν) : Prop where
  closed : Closed w.store.nodes w.store.edges
  fits : ∀ c ∈ w.calls, c.Fits w.store
  written : ∀ snapshot ∈ w.written, Closed snapshot.nodes snapshot.edges

theorem sound_init : (system (ν := ν) lowercase dataDir).init.Sound where
  closed _ _ h := nomatch h
  fits _ hc := nomatch hc
  written _ h := nomatch h

theorem fits_of_isCall {c : Operation ν} {store : GraphStore ν} (h : c.isCall = true) :
    c.Fits store := by
  cases c with
  | numberEdge source target relationship => cases h
  | insertEdge edge => cases h
  | flush flush reply => cases h
  | _ => trivial

theorem closed_of_mem_writtenBehind {written : List (GraphSnapshot ν)} {succeeds : Bool}
    {c : Operation ν} {store : GraphStore ν} (hc : c.Fits store)
    (hwritten : ∀ snapshot ∈ written, Closed snapshot.nodes snapshot.edges) :
    ∀ snapshot ∈ writtenBehind written succeeds c, Closed snapshot.nodes snapshot.edges := by
  cases c with
  | flush flush reply =>
    cases flush with
    | write snapshot' =>
      cases succeeds with
      | true =>
        intro snapshot hmem
        rcases List.mem_append.mp hmem with hmem | hmem
        · exact hwritten snapshot hmem
        · rw [List.mem_singleton.mp hmem]
          exact hc
      | false => exact hwritten
    | _ => exact hwritten
  | _ => exact hwritten

/-- One step keeps the ends of the edges, unless it deletes one that is about to be used. -/
theorem Sound.step (h : w.Sound) {e : GraphEvent ν} (hunraced : w.Unraced e)
    (hstep : w.step lowercase dataDir e = some w') : w'.Sound := by
  cases e with
  | call operation =>
    rw [GraphSession.step] at hstep
    split_ifs at hstep with hcall
    obtain rfl := Option.some.inj hstep
    refine ⟨h.closed, fun c hc => ?_, h.written⟩
    rcases List.mem_append.mp hc with hc | hc
    · exact h.fits c hc
    · rw [List.mem_singleton.mp hc]
      exact fits_of_isCall hcall
  | resume i succeeds =>
    rw [GraphSession.step, Option.bind_eq_some_iff] at hstep
    obtain ⟨c, hc, hstep⟩ := hstep
    split_ifs at hstep with hfree
    obtain rfl := Option.some.inj hstep
    have hfits : c.Fits w.store := h.fits c (List.mem_of_getElem? hc)
    refine ⟨Operation.closed_next h.closed hfits, fun d hd => ?_,
      closed_of_mem_writtenBehind hfits h.written⟩
    rcases List.mem_or_eq_of_mem_set hd with hd | rfl
    · obtain ⟨hnodes, hedges⟩ := hfree.2 d hd
      exact (h.fits d hd).next_of_free hnodes hedges fun id hid hmem =>
        hunraced c hc id hid hmem d hd
    · exact hfits.next h.closed
  | restart readable =>
    obtain rfl := Option.some.inj hstep
    refine ⟨?_, fun _ hc => (nomatch hc), h.written⟩
    cases hlast : if readable then w.written.getLast? else none with
    | none => exact fun _ _ hedge => nomatch hedge
    | some snapshot =>
      split_ifs at hlast
      exact h.written snapshot (List.mem_of_getLast? hlast)

theorem sound_of_reach (h : (system lowercase dataDir).Reach Unraced w) : w.Sound :=
  h.invariant sound_init fun _ _ _ _ hw hunraced hstep => hw.step hunraced hstep

/-- In every run in which no node is deleted while an edge with it is about to be inserted, the ends
of every edge are there when no operation is in progress, and in every snapshot. -/
theorem noDangling_of_reach (h : (system lowercase dataDir).Reach Unraced w) : w.NoDangling := by
  have hsound : w.Sound := sound_of_reach h
  exact ⟨fun _ => hsound.closed, hsound.written⟩

def loop : List (GraphEvent Unit) :=
  .call (Operation.createNode "A" ()) :: List.replicate 7 (.resume 0 true) ++
    .call (Operation.createEdge "a:1" "a:1" "self") :: List.replicate 3 (.resume 1 true)

def inTurn : List (GraphEvent Unit) :=
  loop ++ List.replicate 5 (.resume 1 true) ++
    .call (Operation.createNode "B" ()) :: List.replicate 7 (.resume 2 true) ++
    .call (Operation.deleteNode "a:1") :: List.replicate 6 (.resume 3 true)

theorem noDangling_of_reach_inTurn : ∃ w : GraphSession Unit,
    (system String.toLower true).Reach Unraced w ∧ w.NoDangling ∧
      (∀ c ∈ w.calls, c.isEnded = true) ∧ w.store.nodes.keys = ["b:2"] ∧ w.written.length = 4 := by
  have hrun : (((system String.toLower true).run Unraced inTurn).any fun w =>
      decide ((∀ c ∈ w.calls, c.isEnded = true) ∧ w.store.nodes.keys = ["b:2"] ∧
        w.written.length = 4)) = true := by
    decide +kernel
  obtain ⟨w, -, hreach, hw⟩ := System.exists_reach_of_any hrun
  exact ⟨w, hreach, noDangling_of_reach hreach, of_decide_eq_true hw⟩

/-- The node is deleted when the edge has been let through. -/
def between : List (GraphEvent Unit) :=
  .call (Operation.createNode "A" ()) :: List.replicate 7 (.resume 0 true) ++
    .call (Operation.createEdge "a:1" "a:1" "self") :: List.replicate 2 (.resume 1 true) ++
    .call (Operation.deleteNode "a:1") :: List.replicate 6 (.resume 2 true) ++
    List.replicate 6 (.resume 1 true)

/-- The edge that is left has no ends, in the store and in the snapshot. -/
theorem not_noDangling : ¬ ∀ (lowercase : String → String) (dataDir : Bool)
    (w : GraphSession Unit), (system lowercase dataDir).Reachable w → w.NoDangling := by
  intro h
  have hrun : (((system String.toLower true).run (fun _ _ => True) between).any fun w =>
      decide (∀ c ∈ w.calls, c.isEnded = true) &&
        decide ((w.store.edges.lookup "e1").map GraphEdge.source = some "a:1") &&
        decide ("a:1" ∉ w.store.nodes)) = true := by
    decide +kernel
  obtain ⟨w, -, hreach, hw⟩ := System.exists_reach_of_any hrun
  rw [Bool.and_eq_true, Bool.and_eq_true, decide_eq_true_eq, decide_eq_true_eq,
    decide_eq_true_eq] at hw
  obtain ⟨⟨hended, hedge⟩, hnode⟩ := hw
  obtain ⟨edge, hlookup, hsource⟩ := Option.map_eq_some_iff.mp hedge
  exact hnode (hsource ▸ ((h String.toLower true w hreach).1 hended "e1" edge hlookup).1)

end GraphSession

end AegisDB.Graph
