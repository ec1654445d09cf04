import AegisDB.Vector.Completeness

/-!
# Runs of a collection

Vectors are inserted under names, replaced and deleted.  After each operation the names are those
that were given and not deleted since, under each stands the node of its last vector, and these are
the nodes that are not deleted.
-/

namespace AegisDB.Vector

variable {F ν : Type}

/-- An operation; the level of a new node is drawn. -/
inductive CollectionOp (F ν : Type) where
  | upsert (id : String) (vector : List F) (metadata : Json ν) (level : ℕ)
  | delete (id : String)

/-- A collection, and the vectors that were inserted and not deleted since, by their names. -/
structure CollectionRun (F ν : Type) where
  collection : Collection F ν
  stored : Table String (List F) := ∅

namespace CollectionRun

section System

variable [LinearOrder F] (floats : Floats F)

/-- An operation; a vector of another dimension is refused. -/
def op (self : CollectionRun F ν) : CollectionOp F ν → Option (CollectionRun F ν)
  | .upsert id vector metadata level =>
    match self.collection.upsert floats id vector metadata level with
    | .ok (.ok collection) => some { collection, stored := self.stored.insert id vector }
    | .ok (.error _) => some self
    | .error _ => none
  | .delete id =>
    match self.collection.delete id with
    | .ok (_, collection) => some { collection, stored := self.stored.erase id }
    | .error _ => none

def system (config : CollectionConfig) (hnsw : HnswConfig) :
    System (CollectionRun F ν) (CollectionOp F ν) where
  init := { collection := .new config hnsw }
  step := op floats

end System

def HasIds (self : CollectionRun F ν) (_ : CollectionOp F ν) : Prop :=
  self.collection.index.vectors.length < 2 ^ 32

instance (self : CollectionRun F ν) (e : CollectionOp F ν) : Decidable (self.HasIds e) :=
  inferInstanceAs (Decidable (_ < _))

/-- Names, nodes and vectors agree. -/
structure Agrees (floats : Floats F) (config : CollectionConfig) (run : CollectionRun F ν) : Prop where
  wellFormed : run.collection.index.WellFormed
  sameConfig : run.collection.config = config
  dim : run.collection.index.dim = config.dim
  metric : run.collection.index.metric = config.metric
  nodeId : run.collection.nodeId.length = run.collection.index.vectors.length
  nodeMeta : run.collection.nodeMeta.length = run.collection.index.vectors.length
  named : ∀ (id : String) (node : ℕ), run.collection.idToNode.lookup id = some node ↔
    run.collection.nodeId[node]? = some (some id)
  /-- The nodes that have names are those that are not deleted. -/
  live : ∀ node : ℕ, run.collection.index.deleted[node]? = some false ↔
    ∃ id, run.collection.nodeId[node]? = some (some id)
  stored : ∀ id, run.stored.lookup id = none ∧ run.collection.idToNode.lookup id = none ∨
    ∃ (v : List F) (node : ℕ), run.stored.lookup id = some v ∧ run.collection.idToNode.lookup id = some node ∧
      run.collection.index.vectors[node]? = some (config.metric.prepare floats v)

theorem agrees_new (floats : Floats F) (config : CollectionConfig) (hnsw : HnswConfig) :
    Agrees floats config ({ collection := .new config hnsw } : CollectionRun F ν) where
  wellFormed := HnswRun.wellFormed_new config.dim config.metric hnsw
  sameConfig := rfl
  dim := rfl
  metric := rfl
  nodeId := rfl
  nodeMeta := rfl
  named := fun _ _ => ⟨fun h => (nomatch h), fun h => (nomatch h)⟩
  live := fun _ => ⟨fun h => (nomatch h), fun ⟨_, h⟩ => (nomatch h)⟩
  stored := fun _ => Or.inl ⟨rfl, rfl⟩

variable {floats : Floats F} {config : CollectionConfig} {run : CollectionRun F ν}

theorem Agrees.lt_of_named (h : Agrees floats config run) {id : String} {node : ℕ}
    (hid : run.collection.idToNode.lookup id = some node) :
    node < run.collection.index.vectors.length :=
  h.nodeId ▸ (List.getElem?_eq_some_iff.mp ((h.named id node).mp hid)).1

theorem getElem?_set_eq_some_iff {α : Type} {l : List α} {i x : ℕ} {a b : α} (hne : b ≠ a) :
    (l.set i b)[x]? = some a ↔ x ≠ i ∧ l[x]? = some a := by
  rw [List.getElem?_set]
  by_cases hx : i = x
  · rw [if_pos hx]
    split_ifs with hlt
    · simp [hne, hx]
    · simp [hx]
  · rw [if_neg hx]
    simp [Ne.symm hx]

theorem getElem?_concat_eq_some_iff {α : Type} {l : List α} {x : ℕ} {a b : α} :
    (l ++ [b])[x]? = some a ↔ l[x]? = some a ∨ x = l.length ∧ b = a := by
  rcases lt_trichotomy x l.length with hlt | rfl | hgt
  · rw [List.getElem?_append_left hlt]
    simp [hlt.ne]
  · rw [List.getElem?_concat_length]
    simp
  · rw [List.getElem?_eq_none (by rw [List.length_append, List.length_singleton]; omega),
      List.getElem?_eq_none hgt.le]
    simp [hgt.ne']

theorem Agrees.forget (h : Agrees floats config run) {id : String} {node : ℕ}
    (hid : run.collection.idToNode.lookup id = some node)
    (hroom : run.collection.index.vectors.length < 2 ^ 32) (idToNode : Table String ℕ) :
    ∃ collection, Collection.forget { run.collection with idToNode } node =
        .ok { collection with idToNode } ∧
      collection.index.vectors = run.collection.index.vectors ∧
      collection.idToNode = run.collection.idToNode.erase id ∧
      Agrees floats config { collection, stored := run.stored.erase id } := by
  have hnamed := (h.named id node).mp hid
  have hlt := h.lt_of_named hid
  obtain ⟨index, hmark, hwf, hvectors, -, hdeleted, hdim, hmetric⟩ :=
    h.wellFormed.markDeleted node (Or.inl hroom)
  refine ⟨{ run.collection with
    index
    idToNode := run.collection.idToNode.erase id
    nodeId := run.collection.nodeId.set node none
    nodeMeta := run.collection.nodeMeta.set node .null }, ?_, hvectors, rfl, ?_⟩
  · rw [Collection.forget, hmark, ok_bind]
    dsimp only
    rw [hnamed, lookup_some, ok_bind,
      List.getElem?_eq_getElem (h.nodeMeta ▸ hlt : node < run.collection.nodeMeta.length), lookup_some,
      ok_bind]
  · have hother {id' : String} {node' : ℕ}
        (hnode : run.collection.nodeId[node']? = some (some id')) : id' = id ↔ node' = node := by
      constructor
      · rintro rfl
        exact Option.some.inj (((h.named id' node').mpr hnode).symm.trans hid)
      · rintro rfl
        exact Option.some.inj (Option.some.inj (hnode.symm.trans hnamed))
    refine ⟨hwf, h.sameConfig, hdim.trans h.dim, hmetric.trans h.metric, ?_, ?_, ?_, ?_, ?_⟩
    · rw [List.length_set, h.nodeId, hvectors]
    · rw [List.length_set, h.nodeMeta, hvectors]
    · intro id' node'
      dsimp only
      rw [Table.lookup_erase, getElem?_set_eq_some_iff (Option.some_ne_none _).symm]
      split_ifs with hsame
      · refine ⟨fun hnone => (nomatch hnone), fun ⟨hne, hnode⟩ => ?_⟩
        exact absurd ((hother hnode).mp hsame) hne
      · rw [h.named]
        exact ⟨fun hnode => ⟨fun heq => hsame ((hother hnode).mpr heq), hnode⟩, And.right⟩
    · intro node'
      dsimp only
      rw [hdeleted, getElem?_set_eq_some_iff (by decide), h.live]
      simp only [getElem?_set_eq_some_iff (Option.some_ne_none _).symm, exists_and_left]
    · intro id'
      dsimp only
      rw [Table.lookup_erase, Table.lookup_erase, hvectors]
      split_ifs with hsame
      · exact Or.inl ⟨rfl, rfl⟩
      · exact h.stored id'

theorem length_prepare (metric : Metric) (floats : Floats F) (vector : List F) :
    (metric.prepare floats vector).length = vector.length := by
  rw [Metric.prepare]
  split_ifs
  · exact List.length_map ..
  · rfl

variable [LinearOrder F]

theorem Agrees.insert (h : Agrees floats config run) {id : String}
    (hid : run.collection.idToNode.lookup id = none) {vector : List F}
    (hvector : vector.length = config.dim) (metadata : Json ν) (level : ℕ)
    (hroom : run.collection.index.vectors.length < 2 ^ 32) :
    run.collection.index.insert floats (config.metric.prepare floats vector) level =
        .error .capacityOverflow ∨
      ∃ node index, run.collection.index.insert floats (config.metric.prepare floats vector) level =
          .ok (node, index) ∧
        Agrees floats config
          { collection :=
              { run.collection with
                index
                nodeMeta := run.collection.nodeMeta ++ [metadata]
                nodeId := run.collection.nodeId ++ [some id]
                idToNode := run.collection.idToNode.insert id node }
            stored := run.stored.insert id vector } := by
  have hprepared : (config.metric.prepare floats vector).length = run.collection.index.dim := by
    rw [length_prepare, hvector, h.dim]
  rcases h.wellFormed.insert floats hprepared hroom level with herror |
    ⟨index, hinsert, hwf, hvectors, hdeleted, hdim, hmetric⟩
  · exact Or.inl herror
  have hmarks : run.collection.index.deleted.length = run.collection.nodeId.length := by
    rw [h.nodeId, h.wellFormed.stored.deleted, h.wellFormed.stored.vectors]
  refine Or.inr ⟨_, index, hinsert, hwf, h.sameConfig, hdim.trans h.dim, hmetric.trans h.metric, ?_,
    ?_, ?_, ?_, ?_⟩
  · rw [hvectors, List.length_append, List.length_append, h.nodeId]
    rfl
  · rw [hvectors, List.length_append, List.length_append, h.nodeMeta]
    rfl
  · intro id' node
    dsimp only
    rw [Table.lookup_insert, getElem?_concat_eq_some_iff, ← h.named, h.nodeId]
    split_ifs with hsame
    · rw [hsame, hid]
      simp [eq_comm]
    · simp [Ne.symm hsame]
  · intro node
    dsimp only
    simp only [hdeleted, getElem?_concat_eq_some_iff, h.live, hmarks, and_true]
    constructor
    · rintro (⟨id', hold⟩ | hnew)
      · exact ⟨id', Or.inl hold⟩
      · exact ⟨id, Or.inr ⟨hnew, rfl⟩⟩
    · rintro ⟨id', hold | ⟨hnew, -⟩⟩
      · exact Or.inl ⟨id', hold⟩
      · exact Or.inr hnew
  · intro id'
    dsimp only
    rw [Table.lookup_insert, Table.lookup_insert, hvectors]
    split_ifs with hsame
    · exact Or.inr ⟨vector, _, rfl, rfl, List.getElem?_concat_length⟩
    · rcases h.stored id' with hnone | ⟨v, node, hv, hnode, hvec⟩
      · exact Or.inl hnone
      · refine Or.inr ⟨v, node, hv, hnode, ?_⟩
        rw [List.getElem?_append_left (h.lt_of_named hnode)]
        exact hvec

theorem insert_erase {α β : Type} [DecidableEq α] (s : Table α β) (a : α) (b : β) :
    (s.erase a).insert a b = s.insert a b := by
  have hnone : a ∉ (s.erase a).entries.keys := List.notMem_keys_kerase a s.nodupKeys
  refine AList.ext ?_
  change (⟨a, b⟩ : Sigma fun _ => β) :: List.kerase a (s.erase a).entries = _
  rw [List.kerase_of_notMem_keys hnone]
  rfl

/-- An operation for which there are identifiers keeps names, nodes and vectors in agreement. -/
theorem Agrees.op (h : Agrees floats config run) {e : CollectionOp F ν} (hids : run.HasIds e)
    {run' : CollectionRun F ν} (hop : run.op floats e = some run') : Agrees floats config run' := by
  cases e with
  | upsert id vector metadata level =>
    rw [CollectionRun.op, Collection.upsert, Collection.prepared, h.sameConfig] at hop
    split_ifs at hop with hvector
    · dsimp only at hop
      cases hid : run.collection.idToNode.lookup id with
      | none =>
        rw [hid] at hop
        dsimp only at hop
        rw [ok_bind] at hop
        rcases h.insert hid hvector metadata level hids with herror | ⟨node, index, hinsert, hagrees⟩
        · rw [herror] at hop
          cases hop
        · rw [hinsert] at hop
          obtain rfl := Option.some.inj hop
          exact hagrees
      | some old =>
        rw [hid] at hop
        dsimp only at hop
        obtain ⟨collection, hforget, hvectors, hnames, hagrees⟩ :=
          h.forget hid hids run.collection.idToNode
        have hfree : collection.idToNode.lookup id = none := by
          rw [hnames]
          exact AList.lookup_erase id _
        have hroom : collection.index.vectors.length < 2 ^ 32 := hvectors ▸ hids
        rw [hforget, ok_bind] at hop
        rcases hagrees.insert hfree hvector metadata level hroom with herror |
          ⟨node, index, hinsert, hagrees'⟩
        · rw [herror] at hop
          cases hop
        · rw [hinsert] at hop
          obtain rfl := Option.some.inj hop
          rw [hnames, insert_erase, insert_erase] at hagrees'
          exact hagrees'
    · obtain rfl := Option.some.inj hop
      exact h
  | delete id =>
    rw [CollectionRun.op, Collection.delete] at hop
    cases hid : run.collection.idToNode.lookup id with
    | none =>
      rw [hid] at hop
      obtain rfl := Option.some.inj hop
      have hnone : id ∉ run.stored := by
        rcases h.stored id with ⟨hnone, -⟩ | ⟨v, node, -, hsome, -⟩
        · exact AList.lookup_eq_none.mp hnone
        · rw [hid] at hsome
          cases hsome
      rw [Table.erase_of_notMem hnone]
      exact h
    | some node =>
      rw [hid] at hop
      obtain ⟨collection, hforget, -, hnames, hagrees⟩ :=
        h.forget hid hids (run.collection.idToNode.erase id)
      dsimp only at hop
      rw [hforget, ← hnames] at hop
      obtain rfl := Option.some.inj hop
      exact hagrees

theorem collection_agrees {hnsw : HnswConfig} (h : (system floats config hnsw).Reach HasIds run) :
    Agrees floats config run := by
  refine h.invariant (agrees_new floats config hnsw) ?_
  rintro run e run' - hagrees hids hstep
  exact hagrees.op hids hstep

/-! ## Searches -/

omit [LinearOrder F] in
theorem Agrees.mem_keys_iff (h : Agrees floats config run) {id : String} :
    id ∈ run.stored.keys ↔ ∃ node : ℕ, run.collection.nodeId[node]? = some (some id) := by
  rw [← AList.mem_keys, ← AList.lookup_isSome]
  rcases h.stored id with ⟨hnone, hfree⟩ | ⟨v, node, hv, hnode, -⟩
  · rw [hnone]
    refine ⟨fun hsome => (nomatch hsome), fun ⟨node, hnode⟩ => ?_⟩
    rw [← h.named, hfree] at hnode
    cases hnode
  · rw [hv]
    exact ⟨fun _ => ⟨node, (h.named id node).mp hnode⟩, fun _ => rfl⟩

omit [LinearOrder F] in
theorem Agrees.live_eq (h : Agrees floats config run) :
    run.collection.index.live = run.stored.keys.length := by
  let name (node : ℕ) : String := run.collection.nodeId[node]?.join.getD ""
  have hname {node : ℕ} {id : String} (hnode : run.collection.nodeId[node]? = some (some id)) :
      name node = id := by
    change run.collection.nodeId[node]?.join.getD "" = id
    rw [hnode]
    rfl
  have hlive {node : ℕ} : node ∈ run.collection.index.deleted.idxsOf false ↔
      ∃ id, run.collection.nodeId[node]? = some (some id) := by
    rw [← h.live, List.mem_idxsOf_iff_exists_getElem_pos, List.getElem?_eq_some_iff]
    simp only [beq_iff_eq]
  have hnodup : ((run.collection.index.deleted.idxsOf false).map name).Nodup := by
    refine List.Nodup.map_on (fun x hx y hy heq => ?_) List.nodup_idxsOf
    obtain ⟨id, hid⟩ := hlive.mp hx
    obtain ⟨id', hid'⟩ := hlive.mp hy
    rw [hname hid, hname hid'] at heq
    subst heq
    exact Option.some.inj (((h.named id x).mpr hid).symm.trans ((h.named id y).mpr hid'))
  have hperm : ((run.collection.index.deleted.idxsOf false).map name).Perm run.stored.keys := by
    refine (List.perm_ext_iff_of_nodup hnodup run.stored.keys_nodup).mpr fun id => ?_
    rw [h.mem_keys_iff, List.mem_map]
    constructor
    · rintro ⟨node, hnode, rfl⟩
      obtain ⟨id, hid⟩ := hlive.mp hnode
      exact ⟨node, (hname hid).symm ▸ hid⟩
    · rintro ⟨node, hid⟩
      exact ⟨node, hlive.mpr ⟨id, hid⟩, hname hid⟩
  have hlength := hperm.length_eq
  rwa [List.length_map, List.length_idxsOf, ← h.wellFormed.live] at hlength

variable [DecidableEq ν]

/-- What a node is as a hit. -/
def hit (floats : Floats F) (collection : Collection F ν) (c : Cand F ℕ) : SearchHit F ν where
  id := collection.nodeId[c.node]?.join.getD ""
  score := floats.score collection.config.metric c.dist
  distance := c.dist
  metadata := collection.nodeMeta[c.node]?.getD .null

omit [LinearOrder F] in
/-- When there is nothing to match, all nodes that have names are hits. -/
theorem hits_eq {collection : Collection F ν} {filter : Json ν} (hfilter : hasFilter filter = false)
    {k : ℕ} {raw : List (Cand F ℕ)} (hraw : ∀ c ∈ raw, ∃ id metadata,
      collection.nodeId[c.node]? = some (some id) ∧ collection.nodeMeta[c.node]? = some metadata)
    {hits : List (SearchHit F ν)} (hlength : hits.length + raw.length ≤ k) :
    collection.hits floats k filter raw hits = .ok (hits ++ raw.map (hit floats collection)) := by
  induction raw generalizing hits with
  | nil => rw [Collection.hits, List.map_nil, List.append_nil]
  | cons c raw ih =>
    obtain ⟨⟨id, metadata, hid, hmeta⟩, hrest⟩ := List.forall_mem_cons.mp hraw
    have hhit : hit floats collection c =
        { id
          score := floats.score collection.config.metric c.dist
          distance := c.dist
          metadata } := by
      rw [hit, hid, hmeta]
      rfl
    rw [List.length_cons] at hlength
    rw [Collection.hits, hmeta, lookup_some, ok_bind, hfilter, Bool.false_and,
      if_neg Bool.false_ne_true, hid, lookup_some, ok_bind]
    dsimp only
    have hsplit : hits ++ hit floats collection c :: raw.map (hit floats collection) =
        (hits ++ [hit floats collection c]) ++ raw.map (hit floats collection) :=
      List.append_cons ..
    rw [← hhit, List.map_cons, hsplit]
    have hone : (hits ++ [hit floats collection c]).length = hits.length + 1 := by
      rw [List.length_append, List.length_singleton]
    split_ifs with hfull
    · have hnil : raw = [] := List.length_eq_zero_iff.mp (by omega)
      rw [hnil, List.map_nil, List.append_nil]
    · exact ih hrest (by omega)

theorem any_lt_eq_false {m : ℕ} {ef : Option ℕ} (h : ∀ n ∈ ef, n ≤ m) :
    ef.any (m < ·) = false := by
  cases ef with
  | none => rfl
  | some n => exact decide_eq_false (not_lt.mpr (h n rfl))

/-- The size of the list of candidates of a search. -/
def candidates (k : ℕ) (ef : Option ℕ) : ℕ :=
  max (max (ef.getD (max (k * 4) 64)) k) 1

/-- A search for at least one hit is a search of the index, and all that it finds are hits. -/
theorem Agrees.search_eq (h : Agrees floats config run) {query : List F}
    (hquery : query.length = config.dim) {k : ℕ} {ef : Option ℕ} (hk : k ≤ MAX_SEARCH_K)
    (hpos : k ≠ 0) (hef : ∀ n ∈ ef, n ≤ MAX_SEARCH_EF) {filter : Json ν}
    (hfilter : hasFilter filter = false) : ∃ found,
      run.collection.index.search floats (config.metric.prepare floats query) k
        (ef.getD (max (k * 4) 64)) = .ok found ∧
      run.collection.search floats query k ef filter =
        .ok (.ok (found.map (hit floats run.collection))) ∧
      found.length ≤ k ∧ (found.map Cand.node).Nodup ∧ found.Pairwise (· ≤ ·) ∧
      ∀ c ∈ found, ∃ id v, run.collection.nodeId[c.node]? = some (some id) ∧
        run.collection.idToNode.lookup id = some c.node ∧ run.stored.lookup id = some v ∧
        c.dist = floats.distance config.metric (config.metric.prepare floats v)
          (config.metric.prepare floats query) := by
  have hq : (config.metric.prepare floats query).length = run.collection.index.dim := by
    rw [length_prepare, hquery, h.dim]
  obtain ⟨found, hfound, hlength, hnodes, hnodup, hsorted⟩ := h.wellFormed.search floats hq k
    (ef.getD (max (k * 4) 64))
  have hnamed : ∀ c ∈ found, ∃ id v, run.collection.nodeId[c.node]? = some (some id) ∧
      run.collection.idToNode.lookup id = some c.node ∧ run.stored.lookup id = some v ∧
      c.dist = floats.distance config.metric (config.metric.prepare floats v)
        (config.metric.prepare floats query) := by
    intro c hc
    obtain ⟨hlive, hdist⟩ := hnodes c hc
    obtain ⟨id, hid⟩ := (h.live c.node).mp hlive
    have hnode := (h.named id c.node).mpr hid
    rcases h.stored id with ⟨-, hfree⟩ | ⟨v, node, hv, hsame, hvec⟩
    · rw [hfree] at hnode
      cases hnode
    obtain rfl := Option.some.inj (hnode.symm.trans hsame)
    refine ⟨id, v, hid, hnode, hv, ?_⟩
    rw [HnswIndex.dist, hvec, h.metric] at hdist
    have hdim := h.wellFormed.stored.dim _ (List.mem_of_getElem? hvec)
    have hsome := (HnswIndex.distance_eq_some floats config.metric hdim hq).symm.trans hdist
    exact (Option.some.inj hsome).symm
  refine ⟨found, hfound, ?_, hlength, hnodup, hsorted, hnamed⟩
  rw [Collection.search, if_neg (not_lt.mpr hk), any_lt_eq_false hef, if_neg Bool.false_ne_true,
    if_neg hpos, Collection.prepared, h.sameConfig, if_pos hquery]
  dsimp only
  rw [hfilter, if_neg Bool.false_ne_true, hfound, ok_bind, hits_eq hfilter (fun c hc => ?_)
    ((Nat.zero_add _).trans_le hlength), ok_bind, List.nil_append]
  obtain ⟨id, -, hid, -⟩ := hnamed c hc
  have hlt : c.node < run.collection.nodeMeta.length := by
    rw [h.nodeMeta, ← h.nodeId]
    exact (List.getElem?_eq_some_iff.mp hid).1
  exact ⟨id, _, hid, List.getElem?_eq_getElem hlt⟩

/-- A search of a collection, without a filter.  It has at most as many hits as are asked for, of
vectors that are stored, each once, with their distances, the nearest first.  It has just as many, if
with the deleted nodes that are reached they fit into the list of candidates and are reached; and a
search for all that is stored has a hit for a name whose node is reached, if all nodes that are
reached fit into the list of candidates. -/
theorem search_of_reach (hless : ∀ a b, floats.less a b = true → a < b) {hnsw : HnswConfig}
    (h : (system floats config hnsw).Reach HasIds run) {query : List F}
    (hquery : query.length = config.dim) {k : ℕ} {ef : Option ℕ} (hk : k ≤ MAX_SEARCH_K)
    (hef : ∀ n ∈ ef, n ≤ MAX_SEARCH_EF) {filter : Json ν} (hfilter : hasFilter filter = false) :
    ∃ hits, run.collection.search floats query k ef filter = .ok (.ok hits) ∧
      hits.length ≤ k ∧ (hits.map SearchHit.id).Nodup ∧
      hits.Pairwise (fun a b => a.distance ≤ b.distance) ∧
      (∀ hit ∈ hits, ∃ v, run.stored.lookup hit.id = some v ∧
        hit.distance = floats.distance config.metric (config.metric.prepare floats v)
          (config.metric.prepare floats query)) ∧
      (run.stored.keys ≠ [] → ∃ cur,
        run.collection.index.Ground floats (config.metric.prepare floats query) cur ∧
        (k + (run.collection.index.deletedReach cur).card ≤
            min (candidates k ef) (run.collection.index.reach cur).card → hits.length = k) ∧
        (run.stored.keys.length = k → (run.collection.index.reach cur).card ≤ candidates k ef →
          ∀ id node, run.collection.idToNode.lookup id = some node →
            node ∈ run.collection.index.reach cur → id ∈ hits.map SearchHit.id)) := by
  have hagrees := collection_agrees h
  have hq : (config.metric.prepare floats query).length = run.collection.index.dim := by
    rw [length_prepare, hquery, hagrees.dim]
  have hground : run.stored.keys ≠ [] → ∃ cur,
      run.collection.index.Ground floats (config.metric.prepare floats query) cur := by
    intro hsome
    cases hep : run.collection.index.entryPoint with
    | none =>
      have hlive := hagrees.wellFormed.entryPoint.1 hep
      rw [hagrees.live_eq] at hlive
      exact absurd (List.length_eq_zero_iff.mp hlive) hsome
    | some ep =>
      obtain ⟨cur, hdescend, -⟩ := hagrees.wellFormed.search_eq floats hq hep
      exact ⟨cur, ep, hep, hdescend⟩
  rcases eq_or_ne k 0 with rfl | hpos
  · -- nothing is asked for
    refine ⟨[], ?_, le_rfl, List.nodup_nil, List.Pairwise.nil, fun _ hhit => (nomatch hhit),
      fun hsome => ?_⟩
    · rw [Collection.search, if_neg (not_lt.mpr hk), any_lt_eq_false hef,
        if_neg Bool.false_ne_true, if_pos rfl]
    · obtain ⟨cur, hcur⟩ := hground hsome
      refine ⟨cur, hcur, fun _ => rfl, fun hnone => ?_⟩
      exact absurd (List.length_eq_zero_iff.mp hnone) hsome
  obtain ⟨found, hfound, hsearch, hlength, hnodup, hsorted, hnamed⟩ :=
    hagrees.search_eq hquery hk hpos hef hfilter
  have hid {c : Cand F ℕ} {id : String}
      (hc : run.collection.nodeId[c.node]? = some (some id)) :
      (hit floats run.collection c).id = id := by
    rw [hit, hc]
    rfl
  refine ⟨_, hsearch, (List.length_map _).trans_le hlength, ?_, ?_, ?_, fun hsome => ?_⟩
  · rw [List.map_map]
    refine List.Nodup.map_on (fun c hc d hd heq => ?_) hnodup.of_map
    obtain ⟨id, -, hc', hcnode, -⟩ := hnamed c hc
    obtain ⟨id', -, hd', hdnode, -⟩ := hnamed d hd
    have hsame : id = id' := (hid hc').symm.trans (heq.trans (hid hd'))
    rw [← hsame] at hdnode
    exact List.inj_on_of_nodup_map hnodup hc hd
      (Option.some.inj (hcnode.symm.trans hdnode))
  · exact List.pairwise_map.mpr (hsorted.imp fun hle => Cand.dist_le hle)
  · intro hit' hhit
    obtain ⟨c, hc, rfl⟩ := List.mem_map.mp hhit
    obtain ⟨id, v, hname, -, hv, hdist⟩ := hnamed c hc
    exact ⟨v, (hid hname).symm ▸ hv, hdist⟩
  · obtain ⟨cur, hcur⟩ := hground hsome
    refine ⟨cur, hcur, fun hroom => ?_, fun hall hroom id node hnode hreach => ?_⟩
    · rw [List.length_map]
      exact hagrees.wellFormed.length_search hless hq hcur hfound hroom
    · have hlive := (hagrees.live node).mpr ⟨id, (hagrees.named id node).mp hnode⟩
      obtain ⟨c, hc, rfl⟩ := List.mem_map.mp (hagrees.wellFormed.mem_search hless hq hcur hfound
        (hagrees.live_eq.trans_le hall.le) hroom hreach hlive)
      rw [List.map_map]
      exact List.mem_map.mpr ⟨c, hc, hid ((hagrees.named id c.node).mp hnode)⟩

/-- The names of the hits of a search, if it has hits. -/
def names (result : Except Panic (Except VectorError (List (SearchHit F ν)))) :
    Option (List String) :=
  match result with
  | .ok (.ok hits) => some (hits.map SearchHit.id)
  | _ => none

theorem less_squares (a b : ℤ) (h : squares.less a b = true) : a < b :=
  of_decide_eq_true h

/-- A vector is replaced, another deleted, and the two nearest are asked for. -/
theorem search_of_reach_replaced :
    ∃ run : CollectionRun ℤ ℕ, (system squares ⟨1, .l2⟩ { m := 2 }).Reach HasIds run ∧
      run.stored.keys = ["c", "b"] ∧
      names (run.collection.search squares [8] 2 none .null) = some ["b", "c"] ∧
      ∃ hits, run.collection.search squares [8] 2 none .null = .ok (.ok hits) ∧
        hits.length ≤ 2 ∧ (hits.map SearchHit.id).Nodup ∧
        hits.Pairwise (fun a b => a.distance ≤ b.distance) ∧
        (∀ hit ∈ hits, ∃ v, run.stored.lookup hit.id = some v ∧
          hit.distance = squares.distance .l2 (Metric.l2.prepare squares v)
            (Metric.l2.prepare squares [8])) ∧
        (run.stored.keys ≠ [] → ∃ cur,
          run.collection.index.Ground squares (Metric.l2.prepare squares [8]) cur ∧
          (2 + (run.collection.index.deletedReach cur).card ≤
              min (candidates 2 none) (run.collection.index.reach cur).card → hits.length = 2) ∧
          (run.stored.keys.length = 2 →
            (run.collection.index.reach cur).card ≤ candidates 2 none →
              ∀ id node, run.collection.idToNode.lookup id = some node →
                node ∈ run.collection.index.reach cur → id ∈ hits.map SearchHit.id)) := by
  have hrun : ((system squares ⟨1, .l2⟩ { m := 2 }).run HasIds
      [.upsert "a" [0] .null 0, .upsert "b" [5] .null 1, .upsert "b" [9] .null 0,
        .upsert "c" [4] .null 1, .delete "a"]).any (fun run : CollectionRun ℤ ℕ => decide
      (run.stored.keys = ["c", "b"] ∧
        names (run.collection.search squares [8] 2 none .null) = some ["b", "c"])) = true := by
    decide +kernel
  obtain ⟨run, -, hreach, hp⟩ := System.exists_reach_of_any hrun
  obtain ⟨hkeys, hnames⟩ := of_decide_eq_true hp
  exact ⟨run, hreach, hkeys, hnames, search_of_reach less_squares hreach rfl (by decide)
    (fun n hn => absurd hn (Option.not_mem_none n)) rfl⟩

/-- A search may miss what is stored: with one candidate it finds a deleted node only, and with all
candidates it does not find a node to which no link leads any more. -/
theorem search_incomplete :
    (∃ run : CollectionRun ℤ ℕ, (system squares ⟨1, .l2⟩ {}).Reach HasIds run ∧
      run.stored.keys = ["a"] ∧
      names (run.collection.search squares [5] 1 (some 1) .null) = some []) ∧
    ∃ run : CollectionRun ℤ ℕ, (system squares ⟨2, .l2⟩ { m := 2 }).Reach HasIds run ∧
      run.stored.keys = ["f", "e", "d", "c", "b", "a"] ∧
      names (run.collection.search squares [7, 5] 6 (some MAX_SEARCH_EF) .null) =
        some ["f", "c", "b", "d", "a"] := by
  have hdeleted : ((system squares ⟨1, .l2⟩ {}).run HasIds
      [.upsert "a" [0] .null 0, .upsert "b" [5] .null 0, .delete "b"]).any
        (fun run : CollectionRun ℤ ℕ => decide (run.stored.keys = ["a"] ∧
          names (run.collection.search squares [5] 1 (some 1) .null) = some [])) = true := by
    decide +kernel
  have hpruned : ((system squares ⟨2, .l2⟩ { m := 2 }).run HasIds
      [.upsert "a" [1, 8] .null 0, .upsert "b" [3, 6] .null 0, .upsert "c" [7, 8] .null 0,
        .upsert "d" [5, 9] .null 0, .upsert "e" [8, 0] .null 0, .upsert "f" [7, 5] .null 0]).any
        (fun run : CollectionRun ℤ ℕ => decide
          (run.stored.keys = ["f", "e", "d", "c", "b", "a"] ∧
            names (run.collection.search squares [7, 5] 6 (some MAX_SEARCH_EF) .null) =
              some ["f", "c", "b", "d", "a"])) = true := by
    decide +kernel
  obtain ⟨run, -, hreach, hp⟩ := System.exists_reach_of_any hdeleted
  obtain ⟨run', -, hreach', hp'⟩ := System.exists_reach_of_any hpruned
  exact ⟨⟨run, hreach, of_decide_eq_true hp⟩, run', hreach', of_decide_eq_true hp'⟩

end CollectionRun

end AegisDB.Vector
