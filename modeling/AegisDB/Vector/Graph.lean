import AegisDB.Vector.Hnsw

/-!
# The graph is well formed

Every neighbour is another node that has the layer, no list of neighbours is longer than it may be,
the live nodes are counted, and the entry point is a node whose top layer is the maximum layer.  An
insertion keeps this layer by layer: a node is linked only with nodes that a search on the layer has
found, and by then nobody is linked with it there.  Identifiers of nodes have 32 bits; as long as
there are fewer nodes, nothing is looked up outside of a list.
-/

namespace AegisDB.Vector

variable {F : Type}

namespace HnswIndex

variable {self self' self'' : HnswIndex F}

def HasLayer (self : HnswIndex F) (x layer : ℕ) : Prop :=
  (self.neighbors x layer).isSome = true

/-- How many neighbours a node may have on a layer. -/
def bound (self : HnswIndex F) (layer : ℕ) : ℕ :=
  if layer = 0 then self.mMax0 else self.mMax

/-- Every neighbour is another node that has the layer, and there are not too many. -/
def Linked (self : HnswIndex F) : Prop :=
  ∀ x layer ns, self.neighbors x layer = some ns →
    (∀ y ∈ ns, y ≠ x ∧ self.HasLayer y layer) ∧ ns.length ≤ self.bound layer

/-- Every node has a vector, and a mark whether it is deleted. -/
structure Stored (index : HnswIndex F) : Prop where
  vectors : index.vectors.length = index.links.length
  deleted : index.deleted.length = index.links.length
  dim : ∀ v ∈ index.vectors, v.length = index.dim

/-- The bounds are those that were made from the configuration. -/
structure Configured (index : HnswIndex F) : Prop where
  mMax : index.mMax = index.m
  mMax0 : index.mMax0 = index.m * 2 % 2 ^ 64

/-- The graph is well formed. -/
structure WellFormed (index : HnswIndex F) : Prop where
  stored : index.Stored
  configured : index.Configured
  linked : index.Linked
  hasLayer : ∀ x < index.links.length, index.HasLayer x 0
  live : index.live = index.deleted.count false
  /-- The entry point exists, and its top layer is the maximum layer. -/
  entry : ∀ ep, index.entryPoint = some ep →
    ∃ layers, index.links[ep]? = some layers ∧ layers.length = index.maxLayer + 1
  /-- There is an entry point unless all nodes are deleted, and it is not deleted. -/
  entryPoint : (index.entryPoint = none → index.live = 0) ∧
    ∀ ep, index.entryPoint = some ep → index.deleted[ep]? = some false

/-! ## Layers -/

def height (self : HnswIndex F) (x : ℕ) : Option ℕ :=
  (self.links[x]?).map List.length

theorem hasLayer_iff {x layer : ℕ} :
    self.HasLayer x layer ↔ ∃ n, self.height x = some n ∧ layer < n := by
  rw [HasLayer, neighbors, height]
  cases self.links[x]? with
  | none => simp
  | some layers => simp

theorem height_eq_none_iff {x : ℕ} : self.height x = none ↔ self.links.length ≤ x := by
  rw [height, Option.map_eq_none_iff, List.getElem?_eq_none_iff]

theorem HasLayer.of_le {x layer layer' : ℕ} (h : self.HasLayer x layer) (hle : layer' ≤ layer) :
    self.HasLayer x layer' := by
  obtain ⟨n, hn, hlt⟩ := hasLayer_iff.mp h
  exact hasLayer_iff.mpr ⟨n, hn, hle.trans_lt hlt⟩

theorem HasLayer.lt {x layer : ℕ} (h : self.HasLayer x layer) : x < self.links.length := by
  obtain ⟨n, hn, -⟩ := hasLayer_iff.mp h
  obtain ⟨layers, hlayers, -⟩ := Option.map_eq_some_iff.mp hn
  exact (List.getElem?_eq_some_iff.mp hlayers).1

/-- Only neighbours were changed, and every node has the layers that it had. -/
structure Relinked (index index' : HnswIndex F) : Prop where
  same : index' = { index with links := index'.links }
  shape : ∀ x, index'.height x = index.height x

theorem relinked_refl (self : HnswIndex F) : Relinked self self :=
  ⟨rfl, fun _ => rfl⟩

theorem Relinked.trans (h : Relinked self self') (h' : Relinked self' self'') :
    Relinked self self'' := by
  refine ⟨?_, fun x => (h'.shape x).trans (h.shape x)⟩
  rw [h'.same, h.same]

theorem Relinked.hasLayer (h : Relinked self self') {x layer : ℕ} :
    self'.HasLayer x layer ↔ self.HasLayer x layer := by
  rw [hasLayer_iff, hasLayer_iff, h.shape x]

theorem Relinked.length (h : Relinked self self') : self'.links.length = self.links.length := by
  have hsome (x : ℕ) : x < self'.links.length ↔ x < self.links.length := by
    rw [← not_le, ← not_le, ← height_eq_none_iff, ← height_eq_none_iff, h.shape x]
  exact Nat.le_antisymm (not_lt.mp fun hlt => absurd ((hsome _).mp hlt) (lt_irrefl _))
    (not_lt.mp fun hlt => absurd ((hsome _).mpr hlt) (lt_irrefl _))

theorem Relinked.stored (h : Relinked self self') (hstored : self.Stored) : self'.Stored := by
  have hlength := h.length
  refine ⟨?_, ?_, ?_⟩
  · rw [hlength, h.same]
    exact hstored.vectors
  · rw [hlength, h.same]
    exact hstored.deleted
  · rw [h.same]
    exact hstored.dim

theorem Relinked.bound (h : Relinked self self') (layer : ℕ) :
    self'.bound layer = self.bound layer := by
  rw [HnswIndex.bound, HnswIndex.bound, h.same]

theorem neighbors_setLinks (self : HnswIndex F) (node layer : ℕ) (ns : List ℕ) (x l : ℕ) :
    (self.setLinks node layer ns).neighbors x l =
      if x = node ∧ l = layer then (self.neighbors x l).map fun _ => ns
      else self.neighbors x l := by
  rw [neighbors, neighbors, setLinks]
  dsimp only
  rw [List.getElem?_modify]
  by_cases hx : x = node
  · subst hx
    cases self.links[x]? with
    | none => simp
    | some layers =>
      by_cases hl : l = layer
      · subst hl
        simp [List.getElem?_set]
        split_ifs <;> simp_all
      · simp [hl, Ne.symm hl]
  · simp [hx, Ne.symm hx]

theorem relinked_setLinks (self : HnswIndex F) (node layer : ℕ) (ns : List ℕ) :
    Relinked self (self.setLinks node layer ns) := by
  refine ⟨rfl, fun x => ?_⟩
  rw [height, height, setLinks]
  dsimp only
  rw [List.getElem?_modify]
  cases self.links[x]? with
  | none => rfl
  | some layers =>
    simp only [Option.map_eq_map, Option.map_some]
    split_ifs
    · rw [List.length_set]
    · rfl

theorem Linked.setLinks (h : self.Linked) {node layer : ℕ} {ns : List ℕ}
    (hns : ∀ y ∈ ns, y ≠ node ∧ self.HasLayer y layer) (hlength : ns.length ≤ self.bound layer) :
    (self.setLinks node layer ns).Linked := by
  have hrelinked := relinked_setLinks self node layer ns
  intro x l ns' hns'
  rw [hrelinked.bound]
  rw [neighbors_setLinks] at hns'
  split_ifs at hns' with hhere
  · obtain ⟨rfl, rfl⟩ := hhere
    obtain ⟨-, -, rfl⟩ := Option.map_eq_some_iff.mp hns'
    exact ⟨fun y hy => ⟨(hns y hy).1, hrelinked.hasLayer.mpr (hns y hy).2⟩, hlength⟩
  · obtain ⟨hold, hle⟩ := h x l ns' hns'
    exact ⟨fun y hy => ⟨(hold y hy).1, hrelinked.hasLayer.mpr (hold y hy).2⟩, hle⟩

variable (floats : Floats F) {q : List F} {layer : ℕ}

theorem Stored.exists_vector (h : self.Stored) {x : ℕ} (hx : x < self.links.length) :
    ∃ v, self.vectors[x]? = some v ∧ v.length = self.dim := by
  have hv := List.getElem?_eq_getElem (h.vectors ▸ hx)
  exact ⟨_, hv, h.dim _ (List.mem_of_getElem? hv)⟩

theorem distance_eq_some (metric : Metric) {a b : List F} {dim : ℕ} (ha : a.length = dim)
    (hb : b.length = dim) : metric.distance floats a b = some (floats.distance metric a b) :=
  if_pos (ha.trans hb.symm).le

/-- A kind of nodes, so that on a layer only nodes of this kind are linked to. -/
def LeadsTo (self : HnswIndex F) (layer : ℕ) (A : ℕ → Prop) : Prop :=
  ∀ x ns, self.neighbors x layer = some ns → ∀ y ∈ ns, A y

variable {A : ℕ → Prop}

theorem hasLayer_head {w : List (Cand F ℕ)} {cur : ℕ}
    (hw : ∀ c ∈ w, self.HasLayer c.node layer ∧ A c.node) (hcur : self.HasLayer cur layer)
    (hcurA : A cur) : self.HasLayer ((w.head?.map Cand.node).getD cur) layer ∧
      A ((w.head?.map Cand.node).getD cur) := by
  cases w with
  | nil => exact ⟨hcur, hcurA⟩
  | cons c w => exact hw c List.mem_cons_self

/-- On a layer, links lead from nodes that have it to nodes that have it. -/
theorem keeps_terrain (hstored : self.Stored) (hlinked : self.Linked) (hA : self.LeadsTo layer A)
    (hq : q.length = self.dim) :
    (self.terrain floats q layer).Keeps fun x => self.HasLayer x layer ∧ A x := by
  constructor
  · intro x hx
    obtain ⟨ns, hns⟩ := Option.isSome_iff_exists.mp hx.1
    refine ⟨ns, ?_, fun y hy => ⟨((hlinked x layer ns hns).1 y hy).2, hA x ns hns y hy⟩⟩
    obtain ⟨layers, hlayers, hlayer⟩ := Option.bind_eq_some_iff.mp hns
    rw [terrain]
    dsimp only
    rw [hlayers, Option.map_some, hlayer]
    rfl
  · intro x hx
    obtain ⟨v, hv, hdim⟩ := hstored.exists_vector hx.1.lt
    refine ⟨floats.distance self.metric v q, ?_⟩
    rw [terrain]
    dsimp only
    rw [dist, hv]
    exact distance_eq_some floats self.metric hdim hq

/-! ## Choosing neighbours -/

theorem isDiverse_spec (hstored : self.Stored) {eVec : List F} (heVec : eVec.length = self.dim)
    (dist : F) {result : List ℕ} (hresult : ∀ r ∈ result, r < self.links.length) :
    ∃ keep, self.isDiverse floats eVec dist result = .ok keep := by
  induction result with
  | nil => exact ⟨true, rfl⟩
  | cons r result ih =>
    obtain ⟨hr, hrest⟩ := List.forall_mem_cons.mp hresult
    obtain ⟨v, hv, hdim⟩ := hstored.exists_vector hr
    obtain ⟨keep, hkeep⟩ := ih hrest
    rw [isDiverse, hv, lookup_some, ok_bind, distance_eq_some floats self.metric heVec hdim, lookup_some,
      ok_bind]
    split_ifs
    · exact ⟨false, rfl⟩
    · exact ⟨keep, hkeep⟩

theorem pickDiverse_spec (hstored : self.Stored) (m : ℕ) {sorted : List (Cand F ℕ)}
    (hsorted : ∀ c ∈ sorted, c.node < self.links.length) {result : List ℕ}
    (hresult : ∀ r ∈ result, r < self.links.length) (hle : result.length ≤ m) :
    ∃ picked, self.pickDiverse floats m sorted result = .ok picked ∧ picked.length ≤ m ∧
      ∀ x ∈ picked, x ∈ result ∨ x ∈ sorted.map Cand.node := by
  induction sorted generalizing result with
  | nil => exact ⟨result, rfl, hle, fun x hx => Or.inl hx⟩
  | cons c sorted ih =>
    obtain ⟨hc, hrest⟩ := List.forall_mem_cons.mp hsorted
    rw [pickDiverse]
    split_ifs with hroom
    · exact ⟨result, rfl, hle, fun x hx => Or.inl hx⟩
    obtain ⟨eVec, heVec, hdim⟩ := hstored.exists_vector hc
    obtain ⟨keep, hkeep⟩ := isDiverse_spec floats hstored hdim c.dist hresult
    rw [heVec, lookup_some, ok_bind, hkeep, ok_bind]
    cases keep with
    | false =>
      obtain ⟨picked, hpicked, hlength, hmem⟩ := ih hrest hresult hle
      refine ⟨picked, hpicked, hlength, fun x hx => ?_⟩
      exact (hmem x hx).imp_right fun h => List.mem_cons_of_mem _ h
    | true =>
      have hresult' : ∀ r ∈ result ++ [c.node], r < self.links.length := by
        intro r hr
        rcases List.mem_append.mp hr with hold | hnew
        · exact hresult r hold
        · exact List.mem_singleton.mp hnew ▸ hc
      obtain ⟨picked, hpicked, hlength, hmem⟩ := ih hrest hresult' (by
        rw [List.length_append, List.length_singleton]
        omega)
      refine ⟨picked, hpicked, hlength, fun x hx => ?_⟩
      rcases hmem x hx with hold | hnew
      · rcases List.mem_append.mp hold with hold | hlast
        · exact Or.inl hold
        · exact Or.inr (List.mem_singleton.mp hlast ▸ List.mem_cons_self)
      · exact Or.inr (List.mem_cons_of_mem _ hnew)

theorem topUp_spec (m : ℕ) (sorted : List (Cand F ℕ)) {result : List ℕ} (hle : result.length ≤ m) :
    (topUp m sorted result).length ≤ m ∧
      ∀ x ∈ topUp m sorted result, x ∈ result ∨ x ∈ sorted.map Cand.node := by
  induction sorted generalizing result with
  | nil => exact ⟨hle, fun x hx => Or.inl hx⟩
  | cons c sorted ih =>
    rw [topUp]
    split_ifs with hroom hmem
    · exact ⟨hle, fun x hx => Or.inl hx⟩
    · obtain ⟨hlength, hmem⟩ := ih hle
      exact ⟨hlength, fun x hx => (hmem x hx).imp_right fun h => List.mem_cons_of_mem _ h⟩
    · have hle' : (result ++ [c.node]).length ≤ m := by
        rw [List.length_append, List.length_singleton]
        omega
      obtain ⟨hlength, hmem⟩ := ih hle'
      refine ⟨hlength, fun x hx => ?_⟩
      rcases hmem x hx with hold | hnew
      · rcases List.mem_append.mp hold with hold | hlast
        · exact Or.inl hold
        · exact Or.inr (List.mem_singleton.mp hlast ▸ List.mem_cons_self)
      · exact Or.inr (List.mem_cons_of_mem _ hnew)

theorem mapM_candidate_spec (hstored : self.Stored) {nbVec : List F}
    (hnbVec : nbVec.length = self.dim) {l : List ℕ} (hl : ∀ x ∈ l, x < self.links.length) :
    ∃ cands : List (Cand F ℕ), l.mapM (self.candidate floats nbVec) = .ok cands ∧
      cands.map Cand.node = l := by
  induction l with
  | nil => exact ⟨[], rfl, rfl⟩
  | cons x l ih =>
    obtain ⟨hx, hrest⟩ := List.forall_mem_cons.mp hl
    obtain ⟨v, hv, hdim⟩ := hstored.exists_vector hx
    obtain ⟨cands, hcands, hnodes⟩ := ih hrest
    refine ⟨⟨floats.distance self.metric nbVec v, x⟩ :: cands, ?_, by rw [List.map_cons, hnodes]⟩
    rw [List.mapM_cons, hcands, candidate, hv, lookup_some, ok_bind,
      distance_eq_some floats self.metric hnbVec hdim, lookup_some, ok_bind]
    rfl

/-! ## Searches -/

variable [LinearOrder F]

/-- What is chosen are candidates, and not too many; unless there is no room for them at all. -/
theorem selectNeighbors_spec (hstored : self.Stored) {cands : List (Cand F ℕ)}
    (hcands : ∀ c ∈ cands, c.node < self.links.length) (m : ℕ) :
    self.selectNeighbors floats cands m = .error .capacityOverflow ∨
      capacityFits m = true ∧ ∃ selected, self.selectNeighbors floats cands m = .ok selected ∧
        selected.length ≤ m ∧ ∀ x ∈ selected, x ∈ cands.map Cand.node := by
  rw [selectNeighbors]
  split_ifs with hfits
  · right
    have hperm := List.perm_insertionSort (α := Cand F ℕ) (· ≤ ·) cands
    have hsorted : ∀ c ∈ cands.insertionSort (· ≤ ·), c.node < self.links.length :=
      fun c hc => hcands c (hperm.mem_iff.mp hc)
    have hnone : ∀ r ∈ ([] : List ℕ), r < self.links.length := fun _ h => (nomatch h)
    obtain ⟨picked, hpicked, hlength, hmem⟩ :=
      pickDiverse_spec floats hstored m hsorted hnone (Nat.zero_le m)
    have hnodes {x : ℕ} (hx : x ∈ picked) : x ∈ cands.map Cand.node :=
      (hperm.map Cand.node).mem_iff.mp ((hmem x hx).resolve_left List.not_mem_nil)
    obtain ⟨htop, htopmem⟩ := topUp_spec m (cands.insertionSort (· ≤ ·)) hlength
    dsimp only
    rw [hpicked, ok_bind]
    refine ⟨hfits, _, rfl, ?_, fun x hx => ?_⟩
    · split_ifs
      · exact htop
      · exact hlength
    · split_ifs at hx
      · rcases htopmem x hx with hold | hnew
        · exact hnodes hold
        · exact (hperm.map Cand.node).mem_iff.mp hnew
      · exact hnodes hx
  · exact Or.inl rfl

theorem searchLayer_spec (hstored : self.Stored) (hlinked : self.Linked)
    (hA : self.LeadsTo layer A) (hq : q.length = self.dim) {cur : ℕ}
    (hcur : self.HasLayer cur layer) (hcurA : A cur) (ef : ℕ) :
    ∃ w, self.searchLayer floats q [cur] ef layer = .ok w ∧
      (∀ c ∈ w, self.HasLayer c.node layer ∧ A c.node) ∧
      (∀ c ∈ w, self.dist floats c.node q = some c.dist) ∧
      (w.map Cand.node).Nodup ∧ w.Pairwise (· ≤ ·) := by
  obtain ⟨w, hsearch, hw, hnodup, hsorted, -⟩ := BeamSearch.Terrain.search_spec ef
    (U := Finset.range self.links.length) (keeps_terrain floats hstored hlinked hA hq)
    (fun x hx => Finset.mem_range.mpr hx.1.lt) ⟨hcur, hcurA⟩ (Finset.card_range _).le
  refine ⟨w, ?_, fun c hc => (hw c hc).1, fun c hc => (hw c hc).2, hnodup, hsorted⟩
  rw [searchLayer, hsearch]
  rfl

/-- A descent ends at a node that has the layer on which it ends. -/
theorem descend_spec (hstored : self.Stored) (hlinked : self.Linked)
    (hA : ∀ layer, self.LeadsTo layer A) (hq : q.length = self.dim) (level : ℕ) {top cur : ℕ}
    (hcur : self.HasLayer cur top) (hcurA : A cur) :
    ∃ r, self.descend floats q level top cur = .ok r ∧ self.HasLayer r (min top level) ∧ A r := by
  induction top generalizing cur with
  | zero => exact ⟨cur, rfl, hcur.of_le (Nat.zero_min level).le, hcurA⟩
  | succ top ih =>
    rw [descend]
    split_ifs with hlevel
    · obtain ⟨w, hsearch, hw, -⟩ :=
        searchLayer_spec floats hstored hlinked (hA (top + 1)) hq hcur hcurA 1
      obtain ⟨hnext, hnextA⟩ := hasLayer_head hw hcur hcurA
      obtain ⟨r, hr, hlast, hrA⟩ := ih (hnext.of_le top.le_succ) hnextA
      refine ⟨r, ?_, hlast.of_le (by omega), hrA⟩
      rw [hsearch]
      exact hr
    · exact ⟨cur, rfl, hcur.of_le (min_le_left _ _), hcurA⟩

/-! ## Linking -/

omit [LinearOrder F] in
theorem setLinks_setLinks (self : HnswIndex F) (node layer : ℕ) (ns ns' : List ℕ) :
    (self.setLinks node layer ns).setLinks node layer ns' = self.setLinks node layer ns' := by
  rw [setLinks, setLinks, setLinks]
  dsimp only
  rw [List.modify_modify_eq]
  refine congrArg (fun f => { self with links := self.links.modify node f }) (funext fun layers => ?_)
  exact List.set_set ..

/-- What an operation on a layer leaves: the graph is as it should be, and on other layers as it
was. -/
structure LinkedOn (layer : ℕ) (index index' : HnswIndex F) : Prop where
  relinked : Relinked index index'
  linked : index'.Linked
  others : ∀ x l, l ≠ layer → index'.neighbors x l = index.neighbors x l

omit [LinearOrder F] in
theorem Linked.linkedOn_setLinks (h : self.Linked) {node : ℕ} {ns : List ℕ}
    (hns : ∀ y ∈ ns, y ≠ node ∧ self.HasLayer y layer) (hlength : ns.length ≤ self.bound layer) :
    LinkedOn layer self (self.setLinks node layer ns) := by
  refine ⟨relinked_setLinks self node layer ns, h.setLinks hns hlength, fun x l hl => ?_⟩
  rw [neighbors_setLinks, if_neg fun h => hl h.2]

omit [LinearOrder F] in
theorem LinkedOn.trans (h : LinkedOn layer self self') (h' : LinkedOn layer self' self'') :
    LinkedOn layer self self'' :=
  ⟨h.relinked.trans h'.relinked, h'.linked, fun x l hl => (h'.others x l hl).trans (h.others x l hl)⟩

theorem linkBack_spec (hstored : self.Stored) (hlinked : self.Linked) {node nb mMax : ℕ}
    (hmMax : mMax = self.bound layer) (hnode : self.HasLayer node layer)
    (hnb : self.HasLayer nb layer) (hne : nb ≠ node) :
    self.linkBack floats node layer mMax nb = .error .capacityOverflow ∨
      ∃ self', self.linkBack floats node layer mMax nb = .ok self' ∧
        LinkedOn layer self self' := by
  obtain ⟨old, hold⟩ := Option.isSome_iff_exists.mp hnb
  have hall : ∀ y ∈ old ++ [node], y ≠ nb ∧ self.HasLayer y layer := by
    intro y hy
    rcases List.mem_append.mp hy with hy | hy
    · exact (hlinked nb layer old hold).1 y hy
    · rw [List.mem_singleton.mp hy]
      exact ⟨hne.symm, hnode⟩
  have hrelinked := relinked_setLinks self nb layer (old ++ [node])
  rw [linkBack, hold, lookup_some, ok_bind]
  dsimp only
  split_ifs with hlong
  · -- the list is too long, so it is pruned
    obtain ⟨nbVec, hnbVec, hdim⟩ := hstored.exists_vector hnb.lt
    have hstored' := hrelinked.stored hstored
    have hlt : ∀ y ∈ old ++ [node], y < (self.setLinks nb layer (old ++ [node])).links.length :=
      fun y hy => hrelinked.length ▸ (hall y hy).2.lt
    obtain ⟨cands, hcands, hnodes⟩ := mapM_candidate_spec floats hstored' hdim hlt
    have hcandslt : ∀ c ∈ cands, c.node < (self.setLinks nb layer (old ++ [node])).links.length :=
      fun c hc => hlt c.node (hnodes ▸ List.mem_map_of_mem hc)
    rw [show (self.setLinks nb layer (old ++ [node])).vectors[nb]? = some nbVec from hnbVec,
      lookup_some, ok_bind, hcands, ok_bind]
    rcases selectNeighbors_spec floats hstored' hcandslt mMax with herror |
      ⟨-, pruned, hpruned, hlength, hmem⟩
    · exact Or.inl (by rw [herror, error_bind])
    · refine Or.inr ⟨_, by rw [hpruned, ok_bind], ?_⟩
      rw [setLinks_setLinks]
      exact hlinked.linkedOn_setLinks (fun y hy => hall y (hnodes ▸ hmem y hy)) (hmMax ▸ hlength)
  · exact Or.inr ⟨_, rfl, hlinked.linkedOn_setLinks hall (hmMax ▸ not_lt.mp hlong)⟩

/-- All selected neighbours get the node as their neighbour. -/
theorem linkBackAll_spec {node mMax : ℕ} {selected : List ℕ} (hstored : self.Stored)
    (hlinked : self.Linked) (hmMax : mMax = self.bound layer) (hnode : self.HasLayer node layer)
    (hselected : ∀ nb ∈ selected, nb ≠ node ∧ self.HasLayer nb layer) :
    linkBackAll floats node layer mMax selected self = .error .capacityOverflow ∨
      ∃ self', linkBackAll floats node layer mMax selected self = .ok self' ∧
        LinkedOn layer self self' := by
  induction selected generalizing self with
  | nil => exact Or.inr ⟨self, rfl, relinked_refl self, hlinked, fun _ _ _ => rfl⟩
  | cons nb selected ih =>
    obtain ⟨⟨hne, hnb⟩, hrest⟩ := List.forall_mem_cons.mp hselected
    rw [linkBackAll]
    rcases linkBack_spec floats hstored hlinked hmMax hnode hnb hne with herror |
      ⟨self₁, hback, hon⟩
    · exact Or.inl (by rw [herror, error_bind])
    · rw [hback, ok_bind]
      have hrelinked := hon.relinked
      rcases ih (hrelinked.stored hstored) hon.linked (hmMax.trans (hrelinked.bound layer).symm)
        (hrelinked.hasLayer.mpr hnode)
        (fun y hy => ⟨(hrest y hy).1, hrelinked.hasLayer.mpr (hrest y hy).2⟩) with herror |
        ⟨self₂, hall, hon'⟩
      · exact Or.inl herror
      · exact Or.inr ⟨self₂, hall, hon.trans hon'⟩

omit [LinearOrder F] in
theorem Configured.le_bound (h : self.Configured) (hfits : capacityFits self.m = true) (layer : ℕ) :
    self.m ≤ self.bound layer := by
  have hm : 4 * self.m < 2 ^ 63 := of_decide_eq_true hfits
  rw [bound, h.mMax, h.mMax0, Nat.mod_eq_of_lt (by omega)]
  split_ifs <;> omega

/-- A node is linked on a layer on which nobody is linked with it. -/
theorem linkLayer_spec (hstored : self.Stored) (hconfigured : self.Configured)
    (hlinked : self.Linked) (hq : q.length = self.dim) {node cur : ℕ}
    (hnode : self.HasLayer node layer) (hnew : self.LeadsTo layer (· ≠ node))
    (hcur : self.HasLayer cur layer) (hne : cur ≠ node) :
    self.linkLayer floats q node layer cur = .error .capacityOverflow ∨
      ∃ self' cur', self.linkLayer floats q node layer cur = .ok (self', cur') ∧
        LinkedOn layer self self' ∧ self.HasLayer cur' layer ∧ cur' ≠ node := by
  obtain ⟨w, hsearch, hw, -⟩ := searchLayer_spec floats hstored hlinked hnew hq hcur hne
    self.efConstruction
  rw [linkLayer, hsearch, ok_bind]
  rcases selectNeighbors_spec floats hstored (fun c hc => (hw c hc).1.lt) self.m with herror |
    ⟨hfits, selected, hselected, hlength, hmem⟩
  · exact Or.inl (by rw [herror, error_bind])
  obtain ⟨ns, hns⟩ := Option.isSome_iff_exists.mp hnode
  rw [hselected, ok_bind, hns, lookup_some, ok_bind]
  have hgood : ∀ y ∈ selected, y ≠ node ∧ self.HasLayer y layer := by
    intro y hy
    obtain ⟨c, hc, rfl⟩ := List.mem_map.mp (hmem y hy)
    exact ⟨(hw c hc).2, (hw c hc).1⟩
  have hon := hlinked.linkedOn_setLinks hgood
    (hlength.trans (hconfigured.le_bound hfits layer))
  have hrelinked := hon.relinked
  rcases linkBackAll_spec floats (hrelinked.stored hstored) hon.linked
    (show (if layer = 0 then self.mMax0 else self.mMax) = _ from (hrelinked.bound layer).symm)
    (hrelinked.hasLayer.mpr hnode)
    (fun y hy => ⟨(hgood y hy).1, hrelinked.hasLayer.mpr (hgood y hy).2⟩) with herror |
    ⟨self', hback, hon'⟩
  · exact Or.inl (by rw [herror, error_bind])
  · obtain ⟨hnext, hnextne⟩ := hasLayer_head (A := (· ≠ node)) hw hcur hne
    exact Or.inr ⟨self', _, by rw [hback, ok_bind], hon.trans hon', hnext, hnextne⟩

theorem linkLayers_spec {node cur : ℕ} (count : ℕ) (hstored : self.Stored)
    (hconfigured : self.Configured) (hlinked : self.Linked) (hq : q.length = self.dim)
    (hnode : ∀ layer < count, self.HasLayer node layer)
    (hnew : ∀ layer < count, self.LeadsTo layer (· ≠ node))
    (hcur : ∀ layer < count, self.HasLayer cur layer) (hne : cur ≠ node) :
    linkLayers floats q node count self cur = .error .capacityOverflow ∨
      ∃ self', linkLayers floats q node count self cur = .ok self' ∧
        Relinked self self' ∧ self'.Linked := by
  induction count generalizing self cur with
  | zero => exact Or.inr ⟨self, rfl, relinked_refl self, hlinked⟩
  | succ layer ih =>
    rw [linkLayers]
    rcases linkLayer_spec floats hstored hconfigured hlinked hq (hnode layer layer.lt_succ_self)
      (hnew layer layer.lt_succ_self) (hcur layer layer.lt_succ_self) hne with herror |
      ⟨self₁, cur₁, hlink, hon, hcur₁, hne₁⟩
    · exact Or.inl (by rw [herror, error_bind])
    rw [hlink, ok_bind]
    have hrelinked := hon.relinked
    have hconfigured₁ : self₁.Configured := by
      rw [hrelinked.same]
      exact ⟨hconfigured.mMax, hconfigured.mMax0⟩
    have hnew₁ : ∀ l < layer, self₁.LeadsTo l (· ≠ node) := by
      intro l hl x ns hns
      rw [hon.others x l hl.ne] at hns
      exact hnew l (Nat.lt_succ_of_lt hl) x ns hns
    rcases ih (hrelinked.stored hstored) hconfigured₁ hon.linked
      (by rw [hrelinked.same]; exact hq)
      (fun l hl => hrelinked.hasLayer.mpr (hnode l (Nat.lt_succ_of_lt hl))) hnew₁
      (fun l hl => hrelinked.hasLayer.mpr (hcur₁.of_le hl.le)) hne₁ with herror |
      ⟨self₂, hrest, hrelinked₂, hlinked₂⟩
    · exact Or.inl herror
    · exact Or.inr ⟨self₂, hrest, hrelinked.trans hrelinked₂, hlinked₂⟩

/-! ## A new node -/

section Append

variable (self : HnswIndex F) (vector : List F) (level : ℕ)

omit [LinearOrder F] in
theorem neighbors_append_of_lt {x : ℕ} (hx : x < self.links.length) (layer : ℕ) :
    (self.append vector level).neighbors x layer = self.neighbors x layer := by
  rw [neighbors, neighbors, append]
  dsimp only
  rw [List.getElem?_append_left hx]

omit [LinearOrder F] in
theorem neighbors_append_self (layer : ℕ) :
    (self.append vector level).neighbors self.links.length layer =
      if layer ≤ level then some [] else none := by
  rw [neighbors, append]
  dsimp only
  rw [List.getElem?_append_right le_rfl, Nat.sub_self, List.getElem?_cons_zero, Option.bind_some,
    List.getElem?_replicate]
  exact if_congr Nat.lt_succ_iff rfl rfl

omit [LinearOrder F] in
theorem neighbors_append_of_gt {x : ℕ} (hx : self.links.length < x) (layer : ℕ) :
    (self.append vector level).neighbors x layer = none := by
  rw [neighbors, append]
  dsimp only
  rw [List.getElem?_eq_none (by rw [List.length_append, List.length_singleton]; omega)]
  rfl

end Append

variable {vector : List F} {level : ℕ}

omit [LinearOrder F] in
theorem Stored.append (h : self.Stored) (hvector : vector.length = self.dim) :
    (self.append vector level).Stored := by
  refine ⟨?_, ?_, ?_⟩
  · simp only [HnswIndex.append, List.length_append, List.length_singleton, h.vectors]
  · simp only [HnswIndex.append, List.length_append, List.length_singleton, h.deleted]
  · intro v hv
    rcases List.mem_append.mp hv with hold | hnew
    · exact h.dim v hold
    · rw [List.mem_singleton.mp hnew]
      exact hvector

omit [LinearOrder F] in
theorem HasLayer.append {x layer : ℕ} (h : self.HasLayer x layer) :
    (self.append vector level).HasLayer x layer := by
  rw [HasLayer, neighbors_append_of_lt self vector level h.lt]
  exact h

omit [LinearOrder F] in
theorem hasLayer_append_self {layer : ℕ} (hle : layer ≤ level) :
    (self.append vector level).HasLayer self.links.length layer := by
  rw [HasLayer, neighbors_append_self, if_pos hle]
  rfl

omit [LinearOrder F] in
theorem neighbors_append {x layer : ℕ} {ns : List ℕ}
    (hns : (self.append vector level).neighbors x layer = some ns) :
    ns = [] ∨ self.neighbors x layer = some ns := by
  rcases lt_trichotomy x self.links.length with hlt | rfl | hgt
  · rw [neighbors_append_of_lt self vector level hlt] at hns
    exact Or.inr hns
  · rw [neighbors_append_self] at hns
    split_ifs at hns
    exact Or.inl (Option.some.inj hns).symm
  · rw [neighbors_append_of_gt self vector level hgt] at hns
    cases hns

omit [LinearOrder F] in
theorem Linked.append (h : self.Linked) : (self.append vector level).Linked := by
  intro x layer ns hns
  rcases neighbors_append hns with rfl | hold
  · exact ⟨fun _ hy => (nomatch hy), Nat.zero_le _⟩
  · obtain ⟨hall, hlength⟩ := h x layer ns hold
    exact ⟨fun y hy => ⟨(hall y hy).1, (hall y hy).2.append⟩, hlength⟩

omit [LinearOrder F] in
theorem Linked.leadsTo_append (h : self.Linked) (layer : ℕ) :
    (self.append vector level).LeadsTo layer (· ≠ self.links.length) := by
  intro x ns hns y hy
  rcases neighbors_append hns with rfl | hold
  · cases hy
  · exact ((h x layer ns hold).1 y hy).2.lt.ne

omit [LinearOrder F] in
theorem height_append_self : (self.append vector level).height self.links.length =
    some (level + 1) := by
  rw [height, append]
  dsimp only
  rw [List.getElem?_append_right le_rfl, Nat.sub_self, List.getElem?_cons_zero, Option.map_some,
    List.length_replicate]

omit [LinearOrder F] in
theorem height_append_of_lt {x : ℕ} (hx : x < self.links.length) :
    (self.append vector level).height x = self.height x := by
  rw [height, height, append]
  dsimp only
  rw [List.getElem?_append_left hx]

omit [LinearOrder F] in
theorem lt_append_length {x : ℕ} (hx : x < (self.append vector level).links.length) :
    x < self.links.length ∨ x = self.links.length := by
  rw [append, List.length_append, List.length_singleton] at hx
  omega

/-! ## Operations -/

omit [LinearOrder F] in
theorem WellFormed.height_entry (h : self.WellFormed) {ep : ℕ} (hep : self.entryPoint = some ep) :
    self.height ep = some (self.maxLayer + 1) := by
  obtain ⟨layers, hlayers, hlength⟩ := h.entry ep hep
  rw [height, hlayers, Option.map_some, hlength]

omit [LinearOrder F] in
/-- What is left of an index with a new node when only its neighbours, its maximum layer and its
entry point were changed. -/
theorem WellFormed.of_append (h : self.WellFormed) (hvector : vector.length = self.dim)
    (hrelinked : Relinked (self.append vector level) self') (hlinked : self'.Linked)
    {ep top : ℕ} (hep : ep < self.links.length → self.entryPoint = some ep)
    (hlt : ep < self'.links.length) (htop : self'.height ep = some (top + 1)) :
    { self' with entryPoint := some ep, maxLayer := top }.WellFormed where
  stored :=
    let hstored := hrelinked.stored (h.stored.append hvector)
    ⟨hstored.vectors, hstored.deleted, hstored.dim⟩
  configured := by
    rw [hrelinked.same]
    exact ⟨h.configured.mMax, h.configured.mMax0⟩
  linked := hlinked
  hasLayer := by
    intro x hx
    refine hrelinked.hasLayer.mpr ?_
    rcases lt_append_length (hrelinked.length ▸ hx) with hold | rfl
    · exact (h.hasLayer x hold).append
    · exact hasLayer_append_self (Nat.zero_le _)
  live := by
    rw [hrelinked.same]
    simp only [append, List.count_append, h.live]
    rfl
  entry := by
    rintro _ ⟨⟩
    exact Option.map_eq_some_iff.mp htop
  entryPoint := by
    refine ⟨fun hnone => (nomatch hnone), ?_⟩
    rintro _ ⟨⟩
    rw [hrelinked.same]
    change (self.deleted ++ [false])[ep]? = some false
    rcases lt_append_length (hrelinked.length ▸ hlt) with hold | rfl
    · rw [List.getElem?_append_left (h.stored.deleted ▸ hold)]
      exact h.entryPoint.2 ep (hep hold)
    · rw [← h.stored.deleted, List.getElem?_append_right le_rfl, Nat.sub_self]
      rfl

/-- An insertion, while an identifier is left for the node: unless there is no room for lists of
neighbours, the graph stays well formed. -/
theorem WellFormed.insert (h : self.WellFormed) (hvector : vector.length = self.dim)
    (hroom : self.vectors.length < 2 ^ 32) (level : ℕ) :
    self.insert floats vector level = .error .capacityOverflow ∨
      ∃ self', self.insert floats vector level = .ok (self.vectors.length, self') ∧
        self'.WellFormed ∧ self'.vectors = self.vectors ++ [vector] ∧
        self'.deleted = self.deleted ++ [false] ∧ self'.dim = self.dim ∧
        self'.metric = self.metric := by
  have hnode : self.vectors.length % 2 ^ 32 = self.links.length := by
    rw [Nat.mod_eq_of_lt hroom, h.stored.vectors]
  have hstored : (self.append vector level).Stored := h.stored.append hvector
  have hconfigured : (self.append vector level).Configured :=
    ⟨h.configured.mMax, h.configured.mMax0⟩
  have hlinked : (self.append vector level).Linked := h.linked.append
  have hself : self.links.length < (self.append vector level).links.length := by
    rw [HnswIndex.append, List.length_append]
    exact Nat.lt_succ_self _
  rw [HnswIndex.insert, hnode, h.stored.vectors]
  cases hep : self.entryPoint with
  | none =>
    dsimp only
    rw [show (self.append vector level).entryPoint = none from hep]
    exact Or.inr ⟨_, rfl, h.of_append hvector (relinked_refl _) hlinked
      (fun hlt => absurd hlt (lt_irrefl _)) hself height_append_self, rfl, rfl, rfl, rfl⟩
  | some ep =>
    have htop := h.height_entry hep
    have heplayer : self.HasLayer ep self.maxLayer :=
      hasLayer_iff.mpr ⟨_, htop, Nat.lt_succ_self _⟩
    have hne : ep ≠ self.links.length := heplayer.lt.ne
    obtain ⟨cur, hdescend, hcur, hcurne⟩ := descend_spec floats hstored hlinked
      (fun layer => h.linked.leadsTo_append layer) (q := vector) hvector level
      heplayer.append hne
    have hvec : (self.append vector level).vectors[self.links.length]? = some vector := by
      rw [← h.stored.vectors]
      exact List.getElem?_concat_length
    dsimp only
    rw [show (self.append vector level).entryPoint = some ep from hep]
    dsimp only
    rw [hvec, lookup_some, ok_bind, show (self.append vector level).maxLayer = self.maxLayer from rfl,
      hdescend, ok_bind]
    rcases linkLayers_spec floats (min self.maxLayer level + 1) hstored hconfigured hlinked
      hvector (fun layer hlt => hasLayer_append_self (by omega))
      (fun layer _ => h.linked.leadsTo_append layer)
      (fun layer hlt => hcur.of_le (Nat.le_of_lt_succ hlt)) hcurne with herror |
      ⟨self', hlink, hrelinked, hlinked'⟩
    · exact Or.inl (by rw [herror, error_bind])
    refine Or.inr ⟨_, by rw [hlink, ok_bind], ?_⟩
    have hvectors : self'.vectors = self.vectors ++ [vector] := by rw [hrelinked.same]; rfl
    have hdeleted : self'.deleted = self.deleted ++ [false] := by rw [hrelinked.same]; rfl
    have hdim : self'.dim = self.dim := by rw [hrelinked.same]; rfl
    have hmetric : self'.metric = self.metric := by rw [hrelinked.same]; rfl
    split_ifs with hhigher
    · refine ⟨h.of_append hvector hrelinked hlinked' (fun hlt => absurd hlt (lt_irrefl _))
        (hrelinked.length ▸ hself) ?_, hvectors, hdeleted, hdim, hmetric⟩
      rw [hrelinked.shape]
      exact height_append_self
    · have hsame : self' = { self' with entryPoint := some ep, maxLayer := self.maxLayer } := by
        rw [hrelinked.same, ← hep]
        rfl
      refine ⟨?_, hvectors, hdeleted, hdim, hmetric⟩
      rw [hsame]
      refine h.of_append hvector hrelinked hlinked' (fun _ => hep)
        (hrelinked.length ▸ heplayer.lt.trans hself) ?_
      rw [hrelinked.shape, height_append_of_lt heplayer.lt, htop]

omit [LinearOrder F] in
/-- The first node that is not deleted, when there are marks for all. -/
theorem findLive_spec {nodes : List ℕ} (hnodes : ∀ n ∈ nodes, n < self.deleted.length) :
    (∃ n ∈ nodes, self.findLive nodes = .ok (some n) ∧ self.deleted[n]? = some false) ∨
      self.findLive nodes = .ok none ∧ ∀ n ∈ nodes, self.deleted[n]? = some true := by
  induction nodes with
  | nil => exact Or.inr ⟨rfl, fun _ h => (nomatch h)⟩
  | cons n nodes ih =>
    obtain ⟨hn, hrest⟩ := List.forall_mem_cons.mp hnodes
    have hmark := List.getElem?_eq_getElem hn
    rw [findLive, hmark, lookup_some, ok_bind]
    cases hdeleted : self.deleted[n] with
    | false =>
      refine Or.inl ⟨n, List.mem_cons_self, rfl, ?_⟩
      rw [hmark, hdeleted]
    | true =>
      rcases ih hrest with ⟨n', hn', hfind, hlive⟩ | ⟨hfind, hall⟩
      · exact Or.inl ⟨n', List.mem_cons_of_mem _ hn', hfind, hlive⟩
      · refine Or.inr ⟨hfind, List.forall_mem_cons.mpr ⟨?_, hall⟩⟩
        rw [hmark, hdeleted]

theorem count_set_true {l : List Bool} {i : ℕ} (hi : l[i]? = some false) :
    (l.set i true).count false = l.count false - 1 := by
  obtain ⟨hlt, hget⟩ := List.getElem?_eq_some_iff.mp hi
  rw [List.count_set hlt, hget]
  rfl

omit [LinearOrder F] in
/-- What is left of an index when a live node is marked, and the entry point is set anew. -/
theorem WellFormed.of_mark (h : self.WellFormed) {node : ℕ} (hnode : self.deleted[node]? = some false)
    {entryPoint : Option ℕ} {maxLayer : ℕ}
    (hentry : ∀ ep, entryPoint = some ep →
      self.height ep = some (maxLayer + 1) ∧ (self.deleted.set node true)[ep]? = some false)
    (hnone : entryPoint = none → self.live - 1 = 0) :
    { self with
      deleted := self.deleted.set node true
      live := self.live - 1
      entryPoint
      maxLayer }.WellFormed where
  stored := ⟨h.stored.vectors, by rw [← h.stored.deleted]; exact List.length_set, h.stored.dim⟩
  configured := ⟨h.configured.mMax, h.configured.mMax0⟩
  linked := h.linked
  hasLayer := h.hasLayer
  live := by
    dsimp only
    rw [count_set_true hnode, h.live]
  entry := fun ep hep => Option.map_eq_some_iff.mp (hentry ep hep).1
  entryPoint := ⟨hnone, fun ep hep => (hentry ep hep).2⟩

omit [LinearOrder F] in
/-- A deletion, whatever it deletes: the graph stays well formed, if the nodes among which an entry
point is looked for are all that there are, or none is looked for, or none is left. -/
theorem WellFormed.markDeleted (h : self.WellFormed) (node : ℕ)
    (hroom : self.vectors.length < 2 ^ 32 ∨ self.entryPoint ≠ some node ∨ self.live = 1) :
    ∃ self', self.markDeleted node = .ok self' ∧ self'.WellFormed ∧
      self'.vectors = self.vectors ∧ self'.links = self.links ∧
      self'.deleted = self.deleted.set node true ∧ self'.dim = self.dim ∧
      self'.metric = self.metric := by
  rw [HnswIndex.markDeleted]
  by_cases hnode : self.deleted[node]? = some false
  swap
  · refine ⟨self, if_neg hnode, h, rfl, rfl, ?_, rfl, rfl⟩
    -- it is marked already, or there is no such node
    cases hmark : self.deleted[node]? with
    | none =>
      rw [List.set_eq_of_length_le (List.getElem?_eq_none_iff.mp hmark)]
    | some mark =>
      obtain ⟨hlt, hget⟩ := List.getElem?_eq_some_iff.mp hmark
      have htrue : mark = true := by
        cases mark with
        | false => exact absurd hmark hnode
        | true => rfl
      rw [htrue] at hget
      rw [← hget, List.set_getElem_self]
  rw [if_pos hnode]
  dsimp only
  by_cases hentry : self.entryPoint = some node
  · -- the entry point is set anew
    rw [if_pos hentry]
    have hnodes : ∀ n ∈ List.range (self.vectors.length % 2 ^ 32),
        n < (self.deleted.set node true).length := by
      intro n hn
      rw [List.length_set, h.stored.deleted, ← h.stored.vectors]
      exact (List.mem_range.mp hn).trans_le (Nat.mod_le _ _)
    have hfound (marked : HnswIndex F) (hmarked : marked.deleted = self.deleted.set node true) :=
      findLive_spec (hmarked ▸ hnodes)
    rcases hfound { self with
      deleted := self.deleted.set node true
      live := self.live - 1 } rfl with ⟨n, hn, hfind, hlive⟩ | ⟨hfind, hall⟩
    · have hlt : n < self.links.length := by
        rw [← h.stored.vectors]
        exact (List.mem_range.mp hn).trans_le (Nat.mod_le _ _)
      obtain ⟨height, hheight, hpos⟩ := hasLayer_iff.mp (h.hasLayer n hlt)
      obtain ⟨layers, hlayers, rfl⟩ := Option.map_eq_some_iff.mp hheight
      rw [hfind, ok_bind]
      dsimp only
      rw [hlayers, lookup_some, ok_bind]
      refine ⟨_, rfl, h.of_mark hnode ?_ (fun hnone => (nomatch hnone)), rfl, rfl, rfl, rfl, rfl⟩
      rintro _ ⟨⟩
      exact ⟨by rw [hheight, Nat.sub_add_cancel hpos], hlive⟩
    · rw [hfind, ok_bind]
      refine ⟨_, rfl, h.of_mark hnode (fun _ hnone => (nomatch hnone)) (fun _ => ?_), rfl, rfl, rfl,
        rfl, rfl⟩
      rcases hroom with hroom | hother | hone
      · rw [h.live, ← count_set_true hnode, List.count_eq_zero]
        intro hmem
        obtain ⟨n, hn, hmark⟩ := List.getElem_of_mem hmem
        have hrange : n ∈ List.range (self.vectors.length % 2 ^ 32) := by
          rw [List.length_set, h.stored.deleted, ← h.stored.vectors] at hn
          rwa [Nat.mod_eq_of_lt hroom, List.mem_range]
        have htrue := hall n hrange
        rw [List.getElem?_eq_getElem hn, hmark] at htrue
        cases htrue
      · exact absurd hentry hother
      · rw [hone]
  · rw [if_neg hentry]
    refine ⟨_, rfl, h.of_mark hnode (fun ep hep => ⟨h.height_entry hep, ?_⟩) (fun hnone => ?_), rfl,
      rfl, rfl, rfl, rfl⟩
    · have hne : node ≠ ep := fun heq => hentry (heq ▸ hep)
      rw [List.getElem?_set_ne hne]
      exact h.entryPoint.2 ep hep
    · rw [h.entryPoint.1 hnone]

/-! ## Results -/

omit [LinearOrder F] in
theorem liveResults_spec {w : List (Cand F ℕ)} (hw : ∀ c ∈ w, c.node < self.deleted.length) :
    self.liveResults w =
      .ok (w.filter fun c => decide (self.deleted[c.node]? = some false)) := by
  induction w with
  | nil => rfl
  | cons c w ih =>
    obtain ⟨hc, hrest⟩ := List.forall_mem_cons.mp hw
    have hmark := List.getElem?_eq_getElem hc
    rw [liveResults, ih hrest, hmark, lookup_some, ok_bind, ok_bind, List.filter_cons, hmark]
    cases self.deleted[c.node] with
    | false => rfl
    | true => rfl

/-- A search ends at a node where a search on the lowest layer begins, and what that finds is
filtered. -/
theorem WellFormed.search_eq (h : self.WellFormed) (hq : q.length = self.dim) {ep : ℕ}
    (hep : self.entryPoint = some ep) : ∃ cur, self.descend floats q 0 self.maxLayer ep = .ok cur ∧
      self.HasLayer cur 0 ∧ ∀ k ef, ∃ w,
        self.searchLayer floats q [cur] (max (max ef k) 1) 0 = .ok w ∧
        self.search floats q k ef =
          .ok ((w.filter fun c => decide (self.deleted[c.node]? = some false)).take k) ∧
        (∀ c ∈ w, self.dist floats c.node q = some c.dist) ∧
        (w.map Cand.node).Nodup ∧ w.Pairwise (· ≤ ·) := by
  have htop : self.HasLayer ep self.maxLayer :=
    hasLayer_iff.mpr ⟨_, h.height_entry hep, Nat.lt_succ_self _⟩
  have hA (layer : ℕ) : self.LeadsTo layer fun _ => True := fun _ _ _ _ _ => trivial
  obtain ⟨cur, hdescend, hcur, -⟩ := descend_spec floats h.stored h.linked hA hq 0 htop trivial
  have hlowest : self.HasLayer cur 0 := hcur.of_le (Nat.zero_le _)
  refine ⟨cur, hdescend, hlowest, fun k ef => ?_⟩
  obtain ⟨w, hsearch, hw, hdist, hnodup, hsorted⟩ := searchLayer_spec floats h.stored h.linked
    (hA 0) hq hlowest trivial (max (max ef k) 1)
  have hlt : ∀ c ∈ w, c.node < self.deleted.length :=
    fun c hc => h.stored.deleted ▸ (hw c hc).1.lt
  refine ⟨w, hsearch, ?_, hdist, hnodup, hsorted⟩
  rw [HnswIndex.search, hep]
  dsimp only
  rw [hdescend, ok_bind, hsearch, ok_bind, liveResults_spec hlt, ok_bind]

/-- A search of the graph: it ends, and finds nodes that are not deleted, with their distances, each
once at most, the nearest first. -/
theorem WellFormed.search (h : self.WellFormed) (hq : q.length = self.dim) (k ef : ℕ) :
    ∃ found, self.search floats q k ef = .ok found ∧ found.length ≤ k ∧
      (∀ c ∈ found, self.deleted[c.node]? = some false ∧
        self.dist floats c.node q = some c.dist) ∧
      (found.map Cand.node).Nodup ∧ found.Pairwise (· ≤ ·) := by
  cases hep : self.entryPoint with
  | none =>
    refine ⟨[], ?_, Nat.zero_le k, fun _ h => (nomatch h), List.nodup_nil, List.Pairwise.nil⟩
    rw [HnswIndex.search, hep]
  | some ep =>
    obtain ⟨cur, -, -, hall⟩ := h.search_eq floats hq hep
    obtain ⟨w, -, hsearch, hdist, hnodup, hsorted⟩ := hall k ef
    have hsub : (List.take k (w.filter fun c => decide (self.deleted[c.node]? = some false))).Sublist
        w := (List.take_sublist _ _).trans List.filter_sublist
    refine ⟨_, hsearch, List.length_take_le _ _, fun c hc => ?_, (hsub.map Cand.node).nodup hnodup,
      hsorted.sublist hsub⟩
    have hmem := List.mem_filter.mp (List.mem_of_mem_take hc)
    exact ⟨of_decide_eq_true hmem.2, hdist c hmem.1⟩

end HnswIndex

end AegisDB.Vector
