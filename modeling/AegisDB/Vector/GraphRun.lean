import AegisDB.Vector.Graph

/-!
# Runs of the index

Insertions, deletions and searches, in any order and with any levels that are drawn.  The graph is
well formed after each, and nothing is looked up outside of a list, as long as identifiers of nodes
are not used up: those have 32 bits, so after as many insertions the first node is taken for the new
one, and an entry point is looked for among no nodes.
-/

namespace AegisDB.Vector

variable {F : Type} [LinearOrder F]

/-- An operation; the level of a new node is drawn. -/
inductive HnswOp (F : Type) where
  | insert (vector : List F) (level : ℕ)
  | markDeleted (node : ℕ)
  | search (q : List F) (k ef : ℕ)

/-- An index, and whether an operation looked outside of a list. -/
structure HnswRun (F : Type) where
  index : HnswIndex F
  outOfRange : Bool := false

namespace HnswRun

/-- What an operation leaves.  There is nothing after one that looked outside of a list, nor after
one that found no room for a list of neighbours. -/
def after (self : HnswRun F) : Except Panic (HnswIndex F) → Option (HnswRun F)
  | .ok index => some { self with index }
  | .error .indexOutOfRange => some { self with outOfRange := true }
  | .error .capacityOverflow => none

variable (floats : Floats F)

/-- An operation; vectors have the dimension of the index, which its callers check. -/
def op (self : HnswRun F) : HnswOp F → Option (HnswRun F)
  | .insert vector level =>
    if vector.length = self.index.dim then
      self.after ((self.index.insert floats vector level).map Prod.snd)
    else none
  | .markDeleted node => self.after (self.index.markDeleted node)
  | .search q k ef =>
    if q.length = self.index.dim then
      self.after ((self.index.search floats q k ef).map fun _ => self.index)
    else none

def system (dim : ℕ) (metric : Metric) (config : HnswConfig) : System (HnswRun F) (HnswOp F) where
  init := { index := .new F dim metric config }
  step self e := if self.outOfRange then none else self.op floats e

/-- Identifiers are not used up: there is one for a new node, and a new entry point is looked for
among all nodes, unless no live node is left. -/
def HasIds (self : HnswRun F) : HnswOp F → Prop
  | .insert _ _ => self.index.vectors.length < 2 ^ 32
  | .markDeleted node =>
    self.index.vectors.length < 2 ^ 32 ∨ self.index.entryPoint ≠ some node ∨ self.index.live = 1
  | .search _ _ _ => True

instance (self : HnswRun F) (e : HnswOp F) : Decidable (self.HasIds e) :=
  match e with
  | .insert _ _ => inferInstanceAs (Decidable (_ < _))
  | .markDeleted _ => inferInstanceAs (Decidable (_ ∨ _ ≠ _ ∨ _ = _))
  | .search _ _ _ => inferInstanceAs (Decidable True)

omit [LinearOrder F] in
theorem wellFormed_new (dim : ℕ) (metric : Metric) (config : HnswConfig) :
    (HnswIndex.new F dim metric config).WellFormed where
  stored := ⟨rfl, rfl, fun _ h => (nomatch h)⟩
  configured := ⟨rfl, rfl⟩
  linked := fun _ _ _ h => (nomatch h)
  hasLayer := fun _ h => (nomatch h)
  live := rfl
  entry := fun _ h => (nomatch h)
  entryPoint := ⟨fun _ => rfl, fun _ h => (nomatch h)⟩

variable {floats} {self self' : HnswRun F}

omit [LinearOrder F] in
theorem after_ok {index : HnswIndex F} (h : self.after (.ok index) = some self') :
    self' = { self with index } :=
  (Option.some.inj h).symm

/-- An operation for which there are identifiers keeps the graph well formed. -/
theorem WellFormed.op {e : HnswOp F} (hwf : self.index.WellFormed) (hids : self.HasIds e)
    (hop : self.op floats e = some self') :
    self'.index.WellFormed ∧ self'.outOfRange = self.outOfRange := by
  cases e with
  | insert vector level =>
    rw [HnswRun.op] at hop
    split_ifs at hop with hdim
    rcases hwf.insert floats hdim hids level with herror | ⟨index, hinsert, hwf', -⟩
    · rw [herror] at hop
      cases hop
    · rw [hinsert] at hop
      obtain rfl := after_ok hop
      exact ⟨hwf', rfl⟩
  | markDeleted node =>
    obtain ⟨index, hmark, hwf', -⟩ := hwf.markDeleted node hids
    rw [HnswRun.op, hmark] at hop
    obtain rfl := after_ok hop
    exact ⟨hwf', rfl⟩
  | search q k ef =>
    rw [HnswRun.op] at hop
    split_ifs at hop with hdim
    obtain ⟨found, hfound, -⟩ := hwf.search floats hdim k ef
    rw [hfound] at hop
    obtain rfl := after_ok hop
    exact ⟨hwf, rfl⟩

/-- While identifiers are not used up, the graph is well formed after each operation, and none has
looked outside of a list. -/
theorem wellFormed_of_reach {dim : ℕ} {metric : Metric} {config : HnswConfig}
    (h : (system floats dim metric config).Reach HasIds self) :
    self.index.WellFormed ∧ self.outOfRange = false := by
  refine h.invariant (P := fun self => self.index.WellFormed ∧ self.outOfRange = false)
    ⟨wellFormed_new dim metric config, rfl⟩ ?_
  rintro self e self' - ⟨hwf, hrange⟩ hids hstep
  rw [system] at hstep
  dsimp only at hstep
  rw [hrange, if_neg Bool.false_ne_true] at hstep
  obtain ⟨hwf', hsame⟩ := WellFormed.op hwf hids hstep
  exact ⟨hwf', hsame.trans hrange⟩

end HnswRun

/-- Vectors of integers, by the squares of their distances. -/
def squares : Floats ℤ where
  distance _ a b := (List.zipWith (fun x y => (x - y) * (x - y)) a b).sum
  unit _ x := x
  score _ d := -d
  less a b := decide (a < b)
  infinity := 10 ^ 20

namespace HnswRun

/-- Five vectors on layers of different heights, of which one has its neighbours pruned; the entry
point is deleted, and a search follows. -/
theorem wellFormed_of_reach_fiveVectors :
    ∃ self : HnswRun ℤ, (system squares 1 .l2 { m := 2 }).Reach HasIds self ∧
      (self.index.links = [[[1, 2, 3]], [[0, 2, 3, 4], [3, 4]], [[1, 0, 4], [4, 1]],
          [[1, 0], [1, 2]], [[1, 2], [1, 2]]] ∧
        self.index.entryPoint = some 0 ∧ self.index.live = 4) ∧
      self.index.WellFormed ∧ self.outOfRange = false := by
  have hrun : ((system squares 1 .l2 { m := 2 }).run HasIds
      [.insert [0] 0, .insert [5] 1, .insert [9] 1, .insert [4] 1, .insert [6] 1, .markDeleted 1,
        .search [3] 2 10]).any (fun self => decide
      (self.index.links = [[[1, 2, 3]], [[0, 2, 3, 4], [3, 4]], [[1, 0, 4], [4, 1]],
          [[1, 0], [1, 2]], [[1, 2], [1, 2]]] ∧
        self.index.entryPoint = some 0 ∧ self.index.live = 4)) = true := by
    decide +kernel
  obtain ⟨self, -, hreach, hp⟩ := System.exists_reach_of_any hrun
  exact ⟨self, hreach, of_decide_eq_true hp, wellFormed_of_reach hreach⟩

/-! ## Identifiers are used up -/

/-- The index after as many nodes were inserted and deleted again. -/
def emptied (n : ℕ) : HnswIndex ℤ :=
  { HnswIndex.new ℤ 1 .l2 {} with
    vectors := List.replicate n [0]
    links := List.replicate n [[]]
    deleted := List.replicate n true }

theorem insert_emptied (n level : ℕ) : (emptied n).insert squares [0] level =
    .ok (n % 2 ^ 32, { (emptied n).append [0] level with
      entryPoint := some (n % 2 ^ 32)
      maxLayer := level }) := by
  have hlength : (emptied n).vectors.length = n := List.length_replicate
  rw [HnswIndex.insert, hlength]
  rfl

/-- When the one live node is deleted, there is no entry point. -/
theorem markDeleted_emptied (n : ℕ) :
    HnswIndex.markDeleted { (emptied n).append [0] 0 with entryPoint := some n, maxLayer := 0 } n =
      .ok (emptied (n + 1)) := by
  have hmark : (List.replicate n true ++ [false])[n]? = some false := by
    rw [List.getElem?_append_right List.length_replicate.le, List.length_replicate, Nat.sub_self]
    rfl
  have hset : (List.replicate n true ++ [false]).set n true = List.replicate (n + 1) true := by
    rw [List.set_append_right _ _ List.length_replicate.le, List.length_replicate, Nat.sub_self,
      List.replicate_succ']
    rfl
  have hlength : (List.replicate n [(0 : ℤ)] ++ [[0]]).length = n + 1 := by
    rw [List.length_append, List.length_replicate, List.length_singleton]
  have hfind (index : HnswIndex ℤ) (hindex : index.deleted = List.replicate (n + 1) true) :
      index.findLive (List.range ((n + 1) % 2 ^ 32)) = .ok none := by
    have hnodes : ∀ x ∈ List.range ((n + 1) % 2 ^ 32), x < index.deleted.length := by
      intro x hx
      rw [hindex, List.length_replicate]
      exact (List.mem_range.mp hx).trans_le (Nat.mod_le _ _)
    refine ((HnswIndex.findLive_spec hnodes).resolve_left ?_).1
    · rintro ⟨x, -, -, hlive⟩
      rw [hindex] at hlive
      exact absurd (List.eq_of_mem_replicate (List.mem_of_getElem? hlive)) Bool.false_ne_true
  have hvectors : List.replicate n [(0 : ℤ)] ++ [[0]] = List.replicate (n + 1) [0] :=
    List.replicate_succ'.symm
  have hlinks : List.replicate n [([] : List ℕ)] ++ [[[]]] = List.replicate (n + 1) [[]] :=
    List.replicate_succ'.symm
  rw [HnswIndex.markDeleted]
  simp only [HnswIndex.append, emptied, hmark, hset, hlength, if_true]
  rw [hfind _ rfl, ok_bind]
  exact congrArg₂ (fun vectors links => Except.ok
    { HnswIndex.new ℤ 1 .l2 {} with
      vectors
      links
      deleted := List.replicate (n + 1) true }) hvectors hlinks

/-- The states in which a node that was inserted is deleted again, so many times. -/
theorem reach_emptied {n : ℕ} (hn : n ≤ 2 ^ 32) :
    (system squares 1 .l2 {}).Reachable { index := emptied n } := by
  induction n with
  | zero => exact .init
  | succ n ih =>
    have hmod : n % 2 ^ 32 = n := Nat.mod_eq_of_lt hn
    have hinsert : (system squares 1 .l2 {}).step { index := emptied n } (.insert [0] 0) =
        some { index :=
          { (emptied n).append [0] 0 with
            entryPoint := some n
            maxLayer := 0 } } := by
      change after _ (((emptied n).insert squares [0] 0).map Prod.snd) = _
      rw [insert_emptied, hmod]
      rfl
    refine .step (a := .markDeleted n) (.step (ih (Nat.le_of_succ_le hn)) trivial hinsert) trivial ?_
    change after _ (HnswIndex.markDeleted _ n) = _
    rw [markDeleted_emptied]
    rfl

/-- After `2 ^ 32` insertions the identifier of a new node is that of the first: the entry point is
a node that has one layer, while the maximum layer is the second. -/
theorem not_wellFormed : ¬∀ self : HnswRun ℤ, (system squares 1 .l2 {}).Reachable self →
    self.index.WellFormed ∧ self.outOfRange = false := by
  intro h
  obtain ⟨n, hn⟩ : ∃ n, n = 2 ^ 32 := ⟨_, rfl⟩
  have hmod : n % 2 ^ 32 = 0 := by rw [hn, Nat.mod_self]
  have hpos : 0 < n := by rw [hn]; exact Nat.two_pow_pos 32
  have hinsert : (system squares 1 .l2 {}).step { index := emptied n } (.insert [0] 1) =
      some { index :=
        { (emptied n).append [0] 1 with
          entryPoint := some 0
          maxLayer := 1 } } := by
    change after _ (((emptied n).insert squares [0] 1).map Prod.snd) = _
    rw [insert_emptied, hmod]
    rfl
  obtain ⟨hwf, -⟩ := h _ (.step (reach_emptied hn.le) trivial hinsert)
  have hfirst : ((emptied n).append [0] 1).height 0 = some 1 := by
    have hlength : 0 < (emptied n).links.length := hpos.trans_eq List.length_replicate.symm
    rw [HnswIndex.height_append_of_lt hlength, HnswIndex.height]
    dsimp only [emptied]
    rw [List.getElem?_replicate, if_pos hpos]
    rfl
  have hlast : ((emptied n).append [0] 1).height 0 = some 2 := hwf.height_entry rfl
  rw [hfirst] at hlast
  exact absurd hlast (by decide)

end HnswRun

end AegisDB.Vector
