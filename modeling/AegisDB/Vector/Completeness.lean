import Mathlib.Data.List.Perm.Subperm
import AegisDB.Vector.Collection

/-!
# What searches find

A search finds as many candidates as it may keep, or all nodes that links of the lowest layer lead to
from where its descent ends.  Deleted nodes are among them, so a search has as many hits as are asked
for if the deleted nodes leave room for them in the list of candidates.
-/

namespace AegisDB.Vector

variable {F : Type} [LinearOrder F]

namespace HnswIndex

variable {self : HnswIndex F}

/-- A link of the lowest layer leads from a node to another. -/
def LeadsOn (self : HnswIndex F) (x y : ℕ) : Prop :=
  ∃ ns, self.neighbors x 0 = some ns ∧ y ∈ ns

open Classical in
/-- The nodes that links of the lowest layer lead to from a node. -/
noncomputable def reach (self : HnswIndex F) (cur : ℕ) : Finset ℕ :=
  (Finset.range self.links.length).filter fun y => Relation.ReflTransGen self.LeadsOn cur y

noncomputable def deletedReach (self : HnswIndex F) (cur : ℕ) : Finset ℕ :=
  (self.reach cur).filter fun x => self.deleted[x]? = some true

omit [LinearOrder F] in
theorem lt_of_mem_reach {cur x : ℕ} (h : x ∈ self.reach cur) : x < self.links.length := by
  classical
  exact Finset.mem_range.mp (Finset.mem_filter.mp h).1

omit [LinearOrder F] in
theorem mem_reach (hlinked : self.Linked) {cur : ℕ} (hcur : cur < self.links.length) {y : ℕ} :
    y ∈ self.reach cur ↔ Relation.ReflTransGen self.LeadsOn cur y := by
  classical
  rw [reach, Finset.mem_filter, Finset.mem_range, and_iff_right_iff_imp]
  intro hpath
  induction hpath with
  | refl => exact hcur
  | tail _ hlink _ =>
    obtain ⟨ns, hns, hy⟩ := hlink
    exact ((hlinked _ _ ns hns).1 _ hy).2.lt

omit [LinearOrder F] in
theorem linked_terrain_iff (floats : Floats F) (q : List F) (x y : ℕ) :
    (self.terrain floats q 0).Linked x y ↔ self.LeadsOn x y := by
  rw [BeamSearch.Terrain.Linked, LeadsOn, terrain, neighbors]
  dsimp only
  cases self.links[x]? with
  | none => simp
  | some layers => cases hlayer : layers[0]? <;> simp [hlayer]

variable {floats : Floats F} {q : List F}

/-- A search on the lowest layer finds as many nodes as it may keep, or all that there are. -/
theorem length_searchLayer (hstored : self.Stored) (hlinked : self.Linked)
    (hless : ∀ a b, floats.less a b = true → a < b) (hq : q.length = self.dim) {cur ef : ℕ}
    (hcur : self.HasLayer cur 0) (hef : 1 ≤ ef) {w : List (Cand F ℕ)}
    (hw : self.searchLayer floats q [cur] ef 0 = .ok w) :
    w.length = min ef (self.reach cur).card ∧ ∀ c ∈ w, c.node ∈ self.reach cur := by
  classical
  have hkeeps : (self.terrain floats q 0).Keeps fun x => self.HasLayer x 0 ∧ True :=
    keeps_terrain floats hstored hlinked (fun _ _ _ _ _ => trivial) hq
  have hiff (y : ℕ) : y ∈ self.reach cur ↔
      Relation.ReflTransGen (self.terrain floats q 0).Linked cur y := by
    rw [mem_reach hlinked hcur.lt]
    have heq : (self.terrain floats q 0).Linked = self.LeadsOn :=
      funext₂ fun x y => propext (linked_terrain_iff floats q x y)
    rw [heq]
  have hcard : (self.reach cur).card ≤ self.links.length :=
    (Finset.card_filter_le _ _).trans (Finset.card_range _).le
  rw [searchLayer] at hw
  cases hsearch : (self.terrain floats q 0).search [cur] ef self.links.length with
  | none =>
    rw [hsearch] at hw
    cases hw
  | some results =>
    rw [hsearch] at hw
    obtain rfl := Except.ok.inj hw
    exact BeamSearch.Terrain.length_search hkeeps hless hef ⟨hcur, trivial⟩ hiff hcard hsearch

omit [LinearOrder F] in
theorem WellFormed.length_le_live (h : self.WellFormed) {l : List ℕ} (hnodup : l.Nodup)
    (hlive : ∀ x ∈ l, self.deleted[x]? = some false) : l.length ≤ self.live := by
  have hsub : l ⊆ self.deleted.idxsOf false := by
    intro x hx
    obtain ⟨hlt, hget⟩ := List.getElem?_eq_some_iff.mp (hlive x hx)
    exact List.mem_idxsOf_iff_exists_getElem_pos.mpr ⟨hlt, beq_iff_eq.mpr hget⟩
  have hle := (hnodup.subperm hsub).length_le
  rwa [List.length_idxsOf, ← h.live] at hle

/-- Where a search of an index begins on the lowest layer. -/
def Ground (self : HnswIndex F) (floats : Floats F) (q : List F) (cur : ℕ) : Prop :=
  ∃ ep, self.entryPoint = some ep ∧ self.descend floats q 0 self.maxLayer ep = .ok cur

/-- A search finds as many nodes as are asked for, if with the deleted ones they fit into the list of
candidates and are reached. -/
theorem WellFormed.length_search (h : self.WellFormed)
    (hless : ∀ a b, floats.less a b = true → a < b) (hq : q.length = self.dim) {cur k ef : ℕ}
    (hground : self.Ground floats q cur) {found : List (Cand F ℕ)}
    (hfound : self.search floats q k ef = .ok found)
    (hroom : k + (self.deletedReach cur).card ≤ min (max (max ef k) 1) (self.reach cur).card) :
    found.length = k := by
  obtain ⟨ep, hep, hdescend⟩ := hground
  obtain ⟨cur', hdescend', hcur, hall⟩ := h.search_eq floats hq hep
  obtain rfl := Except.ok.inj (hdescend.symm.trans hdescend')
  obtain ⟨w, hw, hsearch, -, hnodup, -⟩ := hall k ef
  obtain rfl := Except.ok.inj (hfound.symm.trans hsearch)
  obtain ⟨hlength, hmem⟩ := length_searchLayer h.stored h.linked hless hq hcur
    (le_max_right _ _) hw
  -- those that were filtered out are deleted
  have hdead : (w.filter fun c => !decide (self.deleted[c.node]? = some false)).length ≤
      (self.deletedReach cur).card := by
    have hsub : ((w.filter fun c => !decide (self.deleted[c.node]? = some false)).map
        Cand.node).toFinset ⊆ self.deletedReach cur := by
      intro x hx
      obtain ⟨c, hc, rfl⟩ := List.mem_map.mp (List.mem_toFinset.mp hx)
      obtain ⟨hcw, hnot⟩ := List.mem_filter.mp hc
      have hlt : c.node < self.deleted.length :=
        h.stored.deleted ▸ lt_of_mem_reach (hmem c hcw)
      rw [deletedReach, Finset.mem_filter]
      refine ⟨hmem c hcw, ?_⟩
      rw [List.getElem?_eq_getElem hlt] at hnot ⊢
      cases hmark : self.deleted[c.node] with
      | false =>
        rw [hmark] at hnot
        cases hnot
      | true => rfl
    have hcard := Finset.card_le_card hsub
    rwa [List.toFinset_card_of_nodup ((List.filter_sublist.map Cand.node).nodup hnodup),
      List.length_map] at hcard
  have hsplit := List.length_eq_length_filter_add (l := w)
    (fun c => decide (self.deleted[c.node]? = some false))
  rw [List.length_take]
  omega

/-- A search for all live nodes finds one that is reached, if all that are reached fit into the list
of candidates. -/
theorem WellFormed.mem_search (h : self.WellFormed)
    (hless : ∀ a b, floats.less a b = true → a < b) (hq : q.length = self.dim) {cur k ef : ℕ}
    (hground : self.Ground floats q cur) {found : List (Cand F ℕ)}
    (hfound : self.search floats q k ef = .ok found) (hk : self.live ≤ k)
    (hroom : (self.reach cur).card ≤ max (max ef k) 1) {x : ℕ} (hx : x ∈ self.reach cur)
    (hlive : self.deleted[x]? = some false) : x ∈ found.map Cand.node := by
  obtain ⟨ep, hep, hdescend⟩ := hground
  obtain ⟨cur', hdescend', hcur, hall⟩ := h.search_eq floats hq hep
  obtain rfl := Except.ok.inj (hdescend.symm.trans hdescend')
  obtain ⟨w, hw, hsearch, -, hnodup, -⟩ := hall k ef
  obtain rfl := Except.ok.inj (hfound.symm.trans hsearch)
  obtain ⟨hlength, hmem⟩ := length_searchLayer h.stored h.linked hless hq hcur
    (le_max_right _ _) hw
  rw [min_eq_right hroom] at hlength
  have hfull : (w.map Cand.node).toFinset = self.reach cur := by
    refine Finset.eq_of_subset_of_card_le (fun y hy => ?_) ?_
    · obtain ⟨c, hc, rfl⟩ := List.mem_map.mp (List.mem_toFinset.mp hy)
      exact hmem c hc
    · rw [List.toFinset_card_of_nodup hnodup, List.length_map, hlength]
  obtain ⟨c, hc, rfl⟩ := List.mem_map.mp (List.mem_toFinset.mp (hfull ▸ hx))
  have hcount := h.length_le_live
    (((List.filter_sublist (l := w) (p := fun c => decide (self.deleted[c.node]? = some false))).map
      Cand.node).nodup hnodup) (fun y hy => by
    obtain ⟨d, hd, rfl⟩ := List.mem_map.mp hy
    exact of_decide_eq_true (List.mem_filter.mp hd).2)
  rw [List.length_map] at hcount
  rw [List.take_of_length_le (hcount.trans hk)]
  exact List.mem_map_of_mem (List.mem_filter.mpr ⟨hc, decide_eq_true hlive⟩)

end HnswIndex

end AegisDB.Vector
