import Mathlib.Data.List.Sort
import Mathlib.Data.Prod.Lex
import Mathlib.Logic.Relation
import Mathlib.Tactic

/-!
# Best-first search with a bounded list of results

A search goes over the nodes that links lead to, the nearest first, keeps so many of the nearest
that it has seen, and ends when the nearest that is left is farther than all that it keeps.  It
finds nodes that links lead to from its entries, each once, in the order of their distances: so many
as it may keep, or all that there are.
-/

namespace AegisDB

/-- A node with its distance. -/
structure Cand (K ν : Type) where
  dist : K
  node : ν
deriving DecidableEq

namespace Cand

variable {K ν : Type} [LinearOrder K] [LinearOrder ν]

instance : LinearOrder (Cand K ν) :=
  LinearOrder.lift' (fun c => toLex (c.dist, c.node)) fun a b h => by
    obtain ⟨hdist, hnode⟩ := Prod.mk.inj (toLex.injective h)
    cases a
    cases b
    exact congrArg₂ Cand.mk hdist hnode

theorem dist_le {a b : Cand K ν} (h : a ≤ b) : a.dist ≤ b.dist := by
  have hlex : toLex (a.dist, a.node) ≤ toLex (b.dist, b.node) := h
  rcases Prod.Lex.toLex_le_toLex.mp hlex with hlt | ⟨heq, -⟩
  · exact hlt.le
  · exact heq.le

end Cand

namespace BeamSearch

variable {K ν : Type} [LinearOrder K] [LinearOrder ν]

/-- What is searched: the links from a node and its distance, both only for nodes that exist; how
distances are compared; and a distance that is larger than others. -/
structure Terrain (K ν : Type) where
  links : ν → Option (List ν)
  dist : ν → Option K
  less : K → K → Bool
  infinity : K

/-- A search: the nodes that were seen, those from which the links are still to be followed, and the
results so far, the nearest first. -/
structure Search (K ν : Type) where
  visited : List ν := []
  candidates : List (Cand K ν) := []
  results : List (Cand K ν) := []

/-- Put a node into a list that has the nearest first. -/
def push (c : Cand K ν) (l : List (Cand K ν)) : List (Cand K ν) :=
  l.orderedInsert (· ≤ ·) c

variable (t : Terrain K ν)

namespace Terrain

def farthest (results : List (Cand K ν)) : K :=
  ((results.getLast?).map Cand.dist).getD t.infinity

/-- The search begins at its entries. -/
def start : List ν → Search K ν → Option (Search K ν)
  | [], s => some s
  | ep :: entry, s => do
    let d ← t.dist ep
    let c : Cand K ν := { dist := d, node := ep }
    start entry
      { visited := s.visited.insert ep
        candidates := push c s.candidates
        results := push c s.results }

/-- A link is followed, unless its node was seen before. -/
def visit (ef : ℕ) (s : Search K ν) (e : ν) : Option (Search K ν) :=
  if e ∈ s.visited then some s
  else do
    let visited := e :: s.visited
    let d ← t.dist e
    if t.less d (t.farthest s.results) || decide (s.results.length < ef) then
      let c : Cand K ν := { dist := d, node := e }
      let results := push c s.results
      some
        { visited
          candidates := push c s.candidates
          results := if ef < results.length then results.dropLast else results }
    else some { s with visited }

def expand (ef : ℕ) : List ν → Search K ν → Option (Search K ν)
  | [], s => some s
  | e :: neighbors, s => do expand ef neighbors (← t.visit ef s e)

/-- The nearest node is taken, so many times at most. -/
def run (ef : ℕ) : ℕ → Search K ν → Option (Search K ν)
  | 0, s => some s
  | fuel + 1, s =>
    match s.candidates with
    | [] => some s
    | c :: candidates =>
      if t.less (t.farthest s.results) c.dist then some { s with candidates }
      else do
        let neighbors ← t.links c.node
        run ef fuel (← t.expand ef neighbors { s with candidates })

def search (entry : List ν) (ef fuel : ℕ) : Option (List (Cand K ν)) := do
  let s ← t.start entry {}
  let s ← t.run ef fuel s
  some s.results

end Terrain

/-! ## Lists of nodes -/

section Push

variable {c : Cand K ν} {l : List (Cand K ν)}

theorem mem_push {a : Cand K ν} : a ∈ push c l ↔ a = c ∨ a ∈ l :=
  List.mem_orderedInsert (· ≤ ·)

theorem length_push (c : Cand K ν) (l : List (Cand K ν)) : (push c l).length = l.length + 1 :=
  List.orderedInsert_length _ l c

theorem pairwise_push (h : l.Pairwise (· ≤ ·)) : (push c l).Pairwise (· ≤ ·) :=
  h.orderedInsert c l

theorem nodup_push (h : (l.map Cand.node).Nodup) (hc : c.node ∉ l.map Cand.node) :
    ((push c l).map Cand.node).Nodup := by
  have hperm : ((push c l).map Cand.node).Perm (c.node :: l.map Cand.node) :=
    (List.perm_orderedInsert (· ≤ ·) c l).map Cand.node
  exact hperm.nodup_iff.mpr (List.nodup_cons.mpr ⟨hc, h⟩)

end Push

/-! ## What is kept -/

namespace Terrain

variable {t}

/-- From nodes of a kind the links lead to nodes of this kind, and all have a distance. -/
structure Keeps (t : Terrain K ν) (P : ν → Prop) : Prop where
  links : ∀ a, P a → ∃ l, t.links a = some l ∧ ∀ b ∈ l, P b
  dist : ∀ a, P a → ∃ d, t.dist a = some d

/-- The nodes of a search are of a kind, their distances are right, and each is among the results
once at most, the nearest first. -/
structure Sound (t : Terrain K ν) (P : ν → Prop) (s : Search K ν) : Prop where
  visited : ∀ a ∈ s.visited, P a
  candidates : ∀ c ∈ s.candidates, c.node ∈ s.visited ∧ t.dist c.node = some c.dist
  results : ∀ c ∈ s.results, c.node ∈ s.visited ∧ t.dist c.node = some c.dist
  nodup : (s.results.map Cand.node).Nodup
  sorted : s.results.Pairwise (· ≤ ·)

/-- What is still to be done: the nodes that were not seen, and those whose links were not
followed. -/
def measure (U : Finset ν) (s : Search K ν) : ℕ :=
  (U.filter (· ∉ s.visited)).card + s.candidates.length

def Full (s : Search K ν) : Prop :=
  ∀ a ∈ s.visited, ∃ c ∈ s.results, c.node = a

/-- One search has gone on from another: what was seen since is to be followed. -/
structure Extends (s s' : Search K ν) : Prop where
  visited : ∀ a ∈ s.visited, a ∈ s'.visited
  candidates : ∀ c ∈ s.candidates, c ∈ s'.candidates
  fresh : ∀ a ∈ s'.visited, a ∈ s.visited ∨ ∃ c ∈ s'.candidates, c.node = a

omit [LinearOrder K] [LinearOrder ν] in
theorem extends_refl (s : Search K ν) : Extends s s :=
  ⟨fun _ h => h, fun _ h => h, fun _ h => Or.inl h⟩

omit [LinearOrder K] [LinearOrder ν] in
theorem Extends.trans {s s' s'' : Search K ν} (h : Extends s s') (h' : Extends s' s'') :
    Extends s s'' := by
  refine ⟨fun a ha => h'.visited a (h.visited a ha),
    fun c hc => h'.candidates c (h.candidates c hc), fun a ha => ?_⟩
  rcases h'.fresh a ha with hold | hnew
  · rcases h.fresh a hold with hold | ⟨c, hc, hnode⟩
    · exact Or.inl hold
    · exact Or.inr ⟨c, h'.candidates c hc, hnode⟩
  · exact Or.inr hnew

/-- No more is kept than may be, and while there is room for more, all that was seen is kept. -/
structure Filled (ef : ℕ) (s : Search K ν) : Prop where
  le : s.results.length ≤ ef
  full : s.results.length < ef → Full s

/-- One search has gone on from another: no more is kept than may be, and while there is room for
more, all that was seen is kept, and what was seen since is to be followed. -/
structure Grown (ef : ℕ) (s s' : Search K ν) : Prop where
  le : s'.results.length ≤ ef
  more : s.results.length ≤ s'.results.length
  rest : s'.results.length < ef → Full s' ∧ Extends s s'

omit [LinearOrder K] [LinearOrder ν] in
theorem Filled.grown_refl {ef : ℕ} {s : Search K ν} (h : Filled ef s) : Grown ef s s :=
  ⟨h.le, le_rfl, fun hlt => ⟨h.full hlt, extends_refl s⟩⟩

omit [LinearOrder K] [LinearOrder ν] in
theorem Grown.filled {ef : ℕ} {s s' : Search K ν} (h : Grown ef s s') : Filled ef s' :=
  ⟨h.le, fun hlt => (h.rest hlt).1⟩

omit [LinearOrder K] [LinearOrder ν] in
theorem Grown.trans {ef : ℕ} {s s' s'' : Search K ν} (h : Grown ef s s') (h' : Grown ef s' s'') :
    Grown ef s s'' := by
  refine ⟨h'.le, h.more.trans h'.more, fun hlt => ?_⟩
  obtain ⟨hfull, hextends⟩ := h'.rest hlt
  exact ⟨hfull, (h.rest (h'.more.trans_lt hlt)).2.trans hextends⟩

variable {P : ν → Prop} {U : Finset ν} {ef : ℕ} {s : Search K ν}

theorem card_unseen_cons {e : ν} (he : e ∈ U) (visited : List ν) (hnew : e ∉ visited) :
    (U.filter (· ∉ e :: visited)).card + 1 ≤ (U.filter (· ∉ visited)).card := by
  have hsub : U.filter (· ∉ e :: visited) ⊆ (U.filter (· ∉ visited)).erase e := by
    intro a ha
    rw [Finset.mem_filter, List.mem_cons, not_or] at ha
    exact Finset.mem_erase.mpr ⟨ha.2.1, Finset.mem_filter.mpr ⟨ha.1, ha.2.2⟩⟩
  have hcard := Finset.card_le_card hsub
  rw [Finset.card_erase_of_mem (Finset.mem_filter.mpr ⟨he, hnew⟩)] at hcard
  have hpos : 0 < (U.filter (· ∉ visited)).card :=
    Finset.card_pos.mpr ⟨e, Finset.mem_filter.mpr ⟨he, hnew⟩⟩
  omega

theorem Sound.visit (h : t.Sound P s) (hkeeps : t.Keeps P) (hU : ∀ a, P a → a ∈ U) {e : ν}
    (he : P e) : ∃ s', t.visit ef s e = some s' ∧ t.Sound P s' ∧ e ∈ s'.visited ∧
      measure U s' ≤ measure U s ∧ (∀ a ∈ s.visited, a ∈ s'.visited) ∧
      (Filled ef s → Grown ef s s') := by
  rw [Terrain.visit]
  by_cases hseen : e ∈ s.visited
  · exact ⟨s, if_pos hseen, h, hseen, le_rfl, fun _ ha => ha, Filled.grown_refl⟩
  rw [if_neg hseen]
  obtain ⟨d, hd⟩ := hkeeps.dist e he
  rw [hd, Option.bind_eq_bind, Option.bind_some]
  have hvisited : ∀ a ∈ e :: s.visited, P a := List.forall_mem_cons.mpr ⟨he, h.visited⟩
  have hkept {l : List (Cand K ν)} (hl : ∀ c ∈ l, c.node ∈ s.visited ∧ t.dist c.node = some c.dist) :
      ∀ c ∈ l, c.node ∈ e :: s.visited ∧ t.dist c.node = some c.dist :=
    fun c hc => ⟨List.mem_cons_of_mem _ (hl c hc).1, (hl c hc).2⟩
  have hpushed {l : List (Cand K ν)}
      (hl : ∀ c ∈ l, c.node ∈ s.visited ∧ t.dist c.node = some c.dist) :
      ∀ c ∈ push ⟨d, e⟩ l, c.node ∈ e :: s.visited ∧ t.dist c.node = some c.dist := by
    intro c hc
    rcases mem_push.mp hc with rfl | hold
    · exact ⟨List.mem_cons_self, hd⟩
    · exact hkept hl c hold
  have hnotin : e ∉ s.results.map Cand.node := by
    intro hmem
    obtain ⟨c, hc, rfl⟩ := List.mem_map.mp hmem
    exact hseen (h.results c hc).1
  have hunseen := card_unseen_cons (hU e he) s.visited hseen
  have hmore : ∀ a ∈ s.visited, a ∈ e :: s.visited := fun _ => List.mem_cons_of_mem _
  dsimp only
  split_ifs with hbetter hlong
  · -- the farthest result is dropped
    refine ⟨_, rfl, ⟨hvisited, hpushed h.candidates, fun c hc => ?_, ?_, ?_⟩, List.mem_cons_self,
      ?_, hmore, fun hfilled => ?_⟩
    · exact hpushed h.results c (List.dropLast_subset _ hc)
    · rw [List.map_dropLast]
      exact (nodup_push h.nodup hnotin).sublist (List.dropLast_sublist _)
    · exact (pairwise_push h.sorted).sublist (List.dropLast_sublist _)
    · simp only [measure, length_push]
      omega
    · have hle := hfilled.le
      have hlength : (push ⟨d, e⟩ s.results).dropLast.length = s.results.length := by
        rw [List.length_dropLast, length_push, Nat.add_sub_cancel]
      rw [length_push] at hlong
      exact ⟨hlength.trans_le hle, hlength.ge, fun hlt => by
        rw [hlength] at hlt
        omega⟩
  · -- there is room for one more
    rw [length_push, not_lt] at hlong
    refine ⟨_, rfl, ⟨hvisited, hpushed h.candidates, hpushed h.results, ?_,
      pairwise_push h.sorted⟩, List.mem_cons_self, ?_, hmore, fun hfilled => ⟨?_, ?_, fun _ =>
        ⟨?_, hmore, ?_, ?_⟩⟩⟩
    · exact nodup_push h.nodup hnotin
    · simp only [measure, length_push]
      omega
    · rw [length_push]
      exact hlong
    · rw [length_push]
      exact Nat.le_succ _
    · have hfull := hfilled.full hlong
      intro a ha
      rcases List.mem_cons.mp ha with rfl | hold
      · exact ⟨_, mem_push.mpr (Or.inl rfl), rfl⟩
      · obtain ⟨c, hc, hnode⟩ := hfull a hold
        exact ⟨c, mem_push.mpr (Or.inr hc), hnode⟩
    · exact fun c hc => mem_push.mpr (Or.inr hc)
    · intro a ha
      rcases List.mem_cons.mp ha with rfl | hold
      · exact Or.inr ⟨_, mem_push.mpr (Or.inl rfl), rfl⟩
      · exact Or.inl hold
  · refine ⟨_, rfl, ⟨hvisited, hkept h.candidates, hkept h.results, h.nodup, h.sorted⟩,
      List.mem_cons_self, ?_, hmore, fun hfilled => ⟨hfilled.le, le_rfl, fun hlt => ?_⟩⟩
    · simp only [measure]
      omega
    · rw [Bool.not_eq_true, Bool.or_eq_false_iff, decide_eq_false_iff_not] at hbetter
      exact absurd hlt hbetter.2

theorem Sound.expand (h : t.Sound P s) (hkeeps : t.Keeps P) (hU : ∀ a, P a → a ∈ U)
    {neighbors : List ν} (hneighbors : ∀ e ∈ neighbors, P e) :
    ∃ s', t.expand ef neighbors s = some s' ∧ t.Sound P s' ∧ (∀ e ∈ neighbors, e ∈ s'.visited) ∧
      measure U s' ≤ measure U s ∧ (∀ a ∈ s.visited, a ∈ s'.visited) ∧
      (Filled ef s → Grown ef s s') := by
  induction neighbors generalizing s with
  | nil =>
    exact ⟨s, rfl, h, fun _ h => (nomatch h), le_rfl, fun _ ha => ha, Filled.grown_refl⟩
  | cons e neighbors ih =>
    obtain ⟨he, hrest⟩ := List.forall_mem_cons.mp hneighbors
    obtain ⟨s₁, hvisit, hsound₁, hseen, hmeasure₁, hmore₁, hgrown₁⟩ := h.visit hkeeps hU he
    obtain ⟨s₂, hexpand, hsound₂, hall, hmeasure₂, hmore₂, hgrown₂⟩ := ih hsound₁ hrest
    refine ⟨s₂, ?_, hsound₂, List.forall_mem_cons.mpr ⟨hmore₂ e hseen, hall⟩,
      hmeasure₂.trans hmeasure₁, fun a ha => hmore₂ a (hmore₁ a ha), fun hfilled => ?_⟩
    · rw [Terrain.expand, hvisit]
      exact hexpand
    · have hgrown := hgrown₁ hfilled
      exact hgrown.trans (hgrown₂ hgrown.filled)

/-! ## A whole search -/

/-- From what was seen, all links were followed but those of the candidates. -/
def Followed (t : Terrain K ν) (s : Search K ν) : Prop :=
  ∀ a ∈ s.visited, (∃ c ∈ s.candidates, c.node = a) ∨
    ∃ l, t.links a = some l ∧ ∀ b ∈ l, b ∈ s.visited

omit [LinearOrder K] [LinearOrder ν] in
theorem Followed.closed (h : t.Followed s) (hs : s.candidates = []) :
    ∀ a ∈ s.visited, ∃ l, t.links a = some l ∧ ∀ b ∈ l, b ∈ s.visited := by
  refine fun a ha => (h a ha).resolve_left ?_
  rintro ⟨c, hc, -⟩
  rw [hs] at hc
  cases hc

theorem Sound.dist_le_farthest (h : t.Sound P s) {c : Cand K ν} (hc : c ∈ s.results) :
    c.dist ≤ t.farthest s.results := by
  rw [farthest]
  cases hlast : s.results.getLast? with
  | none => exact absurd (List.getLast?_eq_none_iff.mp hlast) (List.ne_nil_of_mem hc)
  | some last =>
    obtain ⟨front, hfront⟩ := List.getLast?_eq_some_iff.mp hlast
    have hsorted := h.sorted
    rw [hfront] at hsorted hc
    rcases List.mem_append.mp hc with hold | hlast
    · exact Cand.dist_le ((List.pairwise_append.mp hsorted).2.2 c hold last
        (List.mem_singleton_self _))
    · rw [List.mem_singleton.mp hlast]
      exact le_rfl

theorem Sound.pop {c : Cand K ν} {candidates : List (Cand K ν)} (h : t.Sound P s)
    (hs : s.candidates = c :: candidates) : t.Sound P { s with candidates } :=
  ⟨h.visited, fun d hd => h.candidates d (hs ▸ List.mem_cons_of_mem _ hd), h.results, h.nodup,
    h.sorted⟩

omit [LinearOrder K] in
theorem measure_pop {c : Cand K ν} {candidates : List (Cand K ν)}
    (hs : s.candidates = c :: candidates) :
    measure U s = measure U { s with candidates } + 1 := by
  rw [measure, hs]
  rfl

/-- With time enough, a search ends, and more time changes nothing. -/
theorem Sound.run (ef : ℕ) (h : t.Sound P s) (hkeeps : t.Keeps P) (hU : ∀ a, P a → a ∈ U) {fuel : ℕ}
    (hfuel : measure U s ≤ fuel) : ∃ s', t.run ef fuel s = some s' ∧ t.Sound P s' ∧
      (∀ a ∈ s.visited, a ∈ s'.visited) ∧ ∀ fuel' ≥ fuel, t.run ef fuel' s = some s' := by
  induction fuel generalizing s with
  | zero =>
    have hnone : s.candidates = [] := by
      rw [measure] at hfuel
      exact List.length_eq_zero_iff.mp (by omega)
    refine ⟨s, rfl, h, fun _ ha => ha, fun fuel' _ => ?_⟩
    cases fuel' with
    | zero => rfl
    | succ fuel' => rw [Terrain.run, hnone]
  | succ fuel ih =>
    cases hs : s.candidates with
    | nil =>
      refine ⟨s, by rw [Terrain.run, hs], h, fun _ ha => ha, fun fuel' hfuel' => ?_⟩
      obtain ⟨fuel', rfl⟩ := Nat.exists_eq_succ_of_ne_zero (Nat.ne_zero_of_lt hfuel')
      rw [Terrain.run, hs]
    | cons c candidates =>
      have hpop := h.pop hs
      by_cases hend : t.less (t.farthest s.results) c.dist = true
      · refine ⟨{ s with candidates }, by rw [Terrain.run, hs]; exact if_pos hend, hpop,
          fun _ ha => ha, fun fuel' hfuel' => ?_⟩
        obtain ⟨fuel', rfl⟩ := Nat.exists_eq_succ_of_ne_zero (Nat.ne_zero_of_lt hfuel')
        rw [Terrain.run, hs]
        exact if_pos hend
      · have hc := h.candidates c (hs ▸ List.mem_cons_self)
        obtain ⟨neighbors, hlinks, hneighbors⟩ := hkeeps.links c.node (h.visited _ hc.1)
        obtain ⟨s₁, hexpand, hsound₁, -, hmeasure, hmore, -⟩ := hpop.expand hkeeps hU hneighbors
        have hless : measure U s₁ ≤ fuel := by
          rw [measure_pop hs] at hfuel
          exact hmeasure.trans (Nat.le_of_succ_le_succ hfuel)
        obtain ⟨s₂, hrun, hsound₂, hmore₂, hstable⟩ := ih hsound₁ hless
        have hstep (fuel : ℕ) : t.run ef (fuel + 1) s = t.run ef fuel s₁ := by
          rw [Terrain.run, hs]
          dsimp only
          rw [if_neg hend, hlinks, Option.bind_eq_bind, Option.bind_some, hexpand]
          rfl
        refine ⟨s₂, (hstep fuel).trans hrun, hsound₂, fun a ha => hmore₂ a (hmore a ha),
          fun fuel' hfuel' => ?_⟩
        obtain ⟨fuel', rfl⟩ := Nat.exists_eq_succ_of_ne_zero (Nat.ne_zero_of_lt hfuel')
        exact (hstep fuel').trans (hstable fuel' (Nat.le_of_succ_le_succ hfuel'))

/-- A search that has room for more when it ends has followed all links. -/
theorem Sound.run_filled (h : t.Sound P s) (hkeeps : t.Keeps P) (hU : ∀ a, P a → a ∈ U)
    (hless : ∀ a b, t.less a b = true → a < b) (hfilled : Filled ef s)
    (hfollowed : s.results.length < ef → t.Followed s) {fuel : ℕ} (hfuel : measure U s ≤ fuel) :
    ∃ s', t.run ef fuel s = some s' ∧ Filled ef s' ∧ (s'.results.length < ef →
      ∀ a ∈ s'.visited, ∃ l, t.links a = some l ∧ ∀ b ∈ l, b ∈ s'.visited) := by
  induction fuel generalizing s with
  | zero =>
    have hnone : s.candidates = [] := by
      rw [measure] at hfuel
      exact List.length_eq_zero_iff.mp (by omega)
    exact ⟨s, rfl, hfilled, fun hlt => (hfollowed hlt).closed hnone⟩
  | succ fuel ih =>
    cases hs : s.candidates with
    | nil =>
      exact ⟨s, by rw [Terrain.run, hs], hfilled, fun hlt => (hfollowed hlt).closed hs⟩
    | cons c candidates =>
      have hpop := h.pop hs
      have hc := h.candidates c (hs ▸ List.mem_cons_self)
      have hpopped : Filled ef { s with candidates } := ⟨hfilled.le, hfilled.full⟩
      by_cases hend : t.less (t.farthest s.results) c.dist = true
      · refine ⟨{ s with candidates }, by rw [Terrain.run, hs]; exact if_pos hend, hpopped,
          fun hlt => ?_⟩
        -- the candidate is itself among the results, so it is not farther than the farthest
        obtain ⟨d, hd, hnode⟩ := hfilled.full hlt c.node hc.1
        have hdist := (h.results d hd).2
        rw [hnode, hc.2] at hdist
        exact absurd (hless _ _ hend) (not_lt.mpr (Option.some.inj hdist ▸ h.dist_le_farthest hd))
      obtain ⟨neighbors, hlinks, hneighbors⟩ := hkeeps.links c.node (h.visited _ hc.1)
      obtain ⟨s₁, hexpand, hsound₁, hall, hmeasure, hmore, hgrown⟩ :=
        hpop.expand hkeeps hU hneighbors
      have hgrown := hgrown hpopped
      have hfollowed₁ : s₁.results.length < ef → t.Followed s₁ := by
        intro hlt a ha
        have hextends := (hgrown.rest hlt).2
        rcases hextends.fresh a ha with hold | hnew
        · rcases hfollowed (hgrown.more.trans_lt hlt) a hold with ⟨d, hd, hnode⟩ | ⟨l, hl, hseen⟩
          · rw [hs] at hd
            rcases List.mem_cons.mp hd with rfl | hrest
            · exact Or.inr ⟨neighbors, hnode ▸ hlinks, hall⟩
            · exact Or.inl ⟨d, hextends.candidates d hrest, hnode⟩
          · exact Or.inr ⟨l, hl, fun b hb => hmore b (hseen b hb)⟩
        · exact Or.inl hnew
      have hless₁ : measure U s₁ ≤ fuel := by
        rw [measure_pop hs] at hfuel
        exact hmeasure.trans (Nat.le_of_succ_le_succ hfuel)
      obtain ⟨s₂, hrun, hend'⟩ := ih hsound₁ hgrown.filled hfollowed₁ hless₁
      refine ⟨s₂, ?_, hend'⟩
      rw [Terrain.run, hs]
      dsimp only
      rw [if_neg hend, hlinks, Option.bind_eq_bind, Option.bind_some, hexpand]
      exact hrun

/-! ## From one entry -/

def Linked (t : Terrain K ν) (a b : ν) : Prop :=
  ∃ l, t.links a = some l ∧ b ∈ l

theorem start_singleton (hkeeps : t.Keeps P) {ep : ν} (hep : P ep) :
    ∃ s, t.start [ep] {} = some s ∧ t.Sound P s ∧ s.visited = [ep] ∧ Full s ∧ t.Followed s ∧
      s.candidates.length = 1 ∧ s.results.length = 1 := by
  obtain ⟨d, hd⟩ := hkeeps.dist ep hep
  have hone : ∀ c ∈ [(⟨d, ep⟩ : Cand K ν)], c.node ∈ [ep] ∧ t.dist c.node = some c.dist := by
    intro c hc
    rw [List.mem_singleton.mp hc]
    exact ⟨List.mem_singleton_self _, hd⟩
  refine ⟨⟨[ep], [⟨d, ep⟩], [⟨d, ep⟩]⟩, ?_, ⟨fun a ha => ?_, hone, hone, List.nodup_singleton _,
    List.pairwise_singleton _ _⟩, rfl, fun a ha => ?_, fun a ha => ?_, rfl, rfl⟩
  · rw [start, hd]
    rfl
  · rw [List.mem_singleton.mp ha]
    exact hep
  · exact ⟨_, List.mem_singleton_self _, (List.mem_singleton.mp ha).symm⟩
  · exact Or.inl ⟨_, List.mem_singleton_self _, (List.mem_singleton.mp ha).symm⟩

/-- What a search from an entry finds: nodes of the kind, with their distances, each once, the
nearest first; and more time than there are nodes changes nothing. -/
theorem search_spec (ef : ℕ) (hkeeps : t.Keeps P) (hU : ∀ a, P a → a ∈ U) {ep : ν} (hep : P ep) {fuel : ℕ}
    (hfuel : U.card ≤ fuel) : ∃ results, t.search [ep] ef fuel = some results ∧
      (∀ c ∈ results, P c.node ∧ t.dist c.node = some c.dist) ∧
      (results.map Cand.node).Nodup ∧ results.Pairwise (· ≤ ·) ∧
      ∀ fuel' ≥ fuel, t.search [ep] ef fuel' = some results := by
  obtain ⟨s, hstart, hsound, hvisited, -, -, hone, -⟩ := start_singleton hkeeps hep
  have hmeasure : measure U s ≤ fuel := by
    have hunseen := card_unseen_cons (hU ep hep) [] List.not_mem_nil
    have hall : (U.filter (· ∉ ([] : List ν))).card ≤ U.card := Finset.card_filter_le _ _
    rw [measure, hvisited, hone]
    omega
  obtain ⟨s', hrun, hsound', -, hstable⟩ := hsound.run ef hkeeps hU hmeasure
  have hsearch (fuel' : ℕ) (hfuel' : fuel ≤ fuel') :
      t.search [ep] ef fuel' = some s'.results := by
    rw [search, hstart, Option.bind_eq_bind, Option.bind_some, hstable fuel' hfuel']
    rfl
  refine ⟨s'.results, hsearch fuel le_rfl, fun c hc => ?_, hsound'.nodup, hsound'.sorted, hsearch⟩
  obtain ⟨hseen, hdist⟩ := hsound'.results c hc
  exact ⟨hsound'.visited _ hseen, hdist⟩

omit [LinearOrder K] [LinearOrder ν] in
theorem Keeps.reach (h : t.Keeps P) (ep : ν) :
    t.Keeps fun a => P a ∧ Relation.ReflTransGen t.Linked ep a := by
  refine ⟨fun a ha => ?_, fun a ha => h.dist a ha.1⟩
  obtain ⟨l, hl, hP⟩ := h.links a ha.1
  exact ⟨l, hl, fun b hb => ⟨hP b hb, ha.2.tail ⟨l, hl, hb⟩⟩⟩

/-- A search finds so many of the nodes that links lead to from its entry as it may keep, or all. -/
theorem length_search (hkeeps : t.Keeps P) (hless : ∀ a b, t.less a b = true → a < b)
    (hef : 1 ≤ ef) {ep : ν} (hep : P ep)
    (hU : ∀ a, a ∈ U ↔ Relation.ReflTransGen t.Linked ep a) {fuel : ℕ} (hfuel : U.card ≤ fuel)
    {results : List (Cand K ν)} (hsearch : t.search [ep] ef fuel = some results) :
    results.length = min ef U.card ∧ ∀ c ∈ results, c.node ∈ U := by
  have hreach := hkeeps.reach ep
  have hUreach : ∀ a, P a ∧ Relation.ReflTransGen t.Linked ep a → a ∈ U :=
    fun a ha => (hU a).mpr ha.2
  have hepreach : P ep ∧ Relation.ReflTransGen t.Linked ep ep := ⟨hep, .refl⟩
  obtain ⟨s, hstart, hsound, hvisited, hfull, hfollowed, hone, hresults⟩ :=
    start_singleton hreach hepreach
  have hmeasure : measure U s ≤ fuel := by
    have hunseen := card_unseen_cons (hUreach ep hepreach) [] List.not_mem_nil
    have hall : (U.filter (· ∉ ([] : List ν))).card ≤ U.card := Finset.card_filter_le _ _
    rw [measure, hvisited, hone]
    omega
  obtain ⟨s', hrun, hfilled, hclosed⟩ := hsound.run_filled hreach hUreach hless
    ⟨hresults.trans_le hef, fun _ => hfull⟩ (fun _ => hfollowed) hmeasure
  obtain ⟨s'', hrun', hsound', hmore, -⟩ := hsound.run ef hreach hUreach hmeasure
  obtain rfl := Option.some.inj (hrun.symm.trans hrun')
  rw [search, hstart, Option.bind_eq_bind, Option.bind_some, hrun] at hsearch
  obtain rfl := Option.some.inj hsearch
  have hmem : ∀ c ∈ s'.results, c.node ∈ U :=
    fun c hc => hUreach _ (hsound'.visited _ (hsound'.results c hc).1)
  have hsub : (s'.results.map Cand.node).toFinset ⊆ U := by
    intro a ha
    obtain ⟨c, hc, rfl⟩ := List.mem_map.mp (List.mem_toFinset.mp ha)
    exact hmem c hc
  have hcard : (s'.results.map Cand.node).toFinset.card = s'.results.length := by
    rw [List.toFinset_card_of_nodup hsound'.nodup, List.length_map]
  refine ⟨?_, hmem⟩
  have hle := Finset.card_le_card hsub
  rw [hcard] at hle
  rcases hfilled.le.lt_or_eq with hlt | heq
  · -- what was seen is closed under links, so it is all
    have hall : U ⊆ (s'.results.map Cand.node).toFinset := by
      intro a ha
      have hseen : a ∈ s'.visited := by
        have hpath := (hU a).mp ha
        clear ha
        induction hpath with
        | refl => exact hmore ep (hvisited ▸ List.mem_singleton_self _)
        | tail _ hlink ih =>
          obtain ⟨l, hl, hb⟩ := hlink
          obtain ⟨l', hl', hall⟩ := hclosed hlt _ ih
          obtain rfl := Option.some.inj (hl.symm.trans hl')
          exact hall _ hb
      obtain ⟨c, hc, rfl⟩ := hfilled.full hlt a hseen
      exact List.mem_toFinset.mpr (List.mem_map_of_mem hc)
    have hge := Finset.card_le_card hall
    rw [hcard] at hge
    omega
  · omega

end Terrain

end BeamSearch

end AegisDB
