import AegisDB.Library.Transition

/-!
# Logs whose entries carry the term of their author

A replicated log is a list of entries, each labelled with a term by `τ`.  For every term there is
at most one author, whose log only grows while the term lasts; `L T` is the longest log the author
of term `T` has had, `[]` while the term has none.  A log is *coherent* with `L` when each of its
prefixes is a prefix of the log of the author of the prefix's last entry.  That one statement
contains log matching (`Coherent.take_eq`) and the order of terms along a log (`Coherent.term_le`),
and it survives the two things that happen to logs: an author appends an entry of its own term
(`Authored.extend`), and a node takes over a prefix of some author's log (`Authored.adopt`).
-/

namespace AegisDB

namespace TermLog

variable {N E : Type*} {τ : E → ℕ} {L L' : ℕ → List E} {ℓ ℓ' : List E}

/-- Every prefix of `ℓ` is a prefix of the log of the author of its last entry. -/
def Coherent (τ : E → ℕ) (L : ℕ → List E) (ℓ : List E) : Prop :=
  ∀ k e, ℓ[k]? = some e → ℓ.take (k + 1) <+: L (τ e)

/-- The author of a term has seen no entry of a later term. -/
def Bounded (τ : E → ℕ) (L : ℕ → List E) : Prop :=
  ∀ T e, e ∈ L T → τ e ≤ T

/-- The term of the last entry of a log, `0` for the empty log. -/
def lastTerm (τ : E → ℕ) (ℓ : List E) : ℕ := (ℓ.getLast?.map τ).getD 0

@[simp] theorem lastTerm_nil : lastTerm τ ([] : List E) = 0 := rfl

theorem lastTerm_eq_of_getElem? (τ : E → ℕ) {e : E} (h : ℓ[ℓ.length - 1]? = some e) :
    lastTerm τ ℓ = τ e := by
  simp [lastTerm, List.getLast?_eq_getElem?, h]

/-! ## Coherence -/

theorem Coherent.nil : Coherent τ L [] := by
  intro k e h
  simp at h

theorem Coherent.of_isPrefix (h : Coherent τ L ℓ) (hp : ℓ' <+: ℓ) : Coherent τ L ℓ' := by
  intro k e hk
  obtain ⟨t, rfl⟩ := hp
  have hlt : k < ℓ'.length := (List.getElem?_eq_some_iff.mp hk).1
  have hk' : (ℓ' ++ t)[k]? = some e := by rw [List.getElem?_append_left hlt, hk]
  have := h k e hk'
  rwa [List.take_append_of_le_length (by omega)] at this

theorem Coherent.mono (h : Coherent τ L ℓ) (hL : ∀ T, L T <+: L' T) : Coherent τ L' ℓ :=
  fun k e hk => (h k e hk).trans (hL _)

theorem Coherent.take_eq (h : Coherent τ L ℓ) (h' : Coherent τ L ℓ') {k : ℕ} {e e' : E}
    (hk : ℓ[k]? = some e) (hk' : ℓ'[k]? = some e') (hτ : τ e = τ e') :
    ℓ.take (k + 1) = ℓ'.take (k + 1) := by
  have hp := h k e hk
  have hp' := h' k e' hk'
  rw [← hτ] at hp'
  have hlt := (List.getElem?_eq_some_iff.mp hk).1
  have hlt' := (List.getElem?_eq_some_iff.mp hk').1
  have hlen : (ℓ.take (k + 1)).length = (ℓ'.take (k + 1)).length := by
    simp only [List.length_take]; omega
  exact (List.prefix_of_prefix_length_le hp hp' hlen.le).eq_of_length hlen

theorem Coherent.concat (h : Coherent τ L ℓ) {e : E} (he : ℓ ++ [e] <+: L (τ e)) :
    Coherent τ L (ℓ ++ [e]) := by
  intro k x hk
  rcases Nat.lt_trichotomy k ℓ.length with hlt | heq | hgt
  · rw [List.getElem?_append_left hlt] at hk
    rw [List.take_append_of_le_length (by omega)]
    exact h k x hk
  · subst heq
    rw [List.getElem?_append_right le_rfl] at hk
    simp only [Nat.sub_self, List.getElem?_cons_zero, Option.some.injEq] at hk
    subst hk
    rwa [List.take_of_length_le (by simp)]
  · rw [List.getElem?_eq_none (by simp; omega)] at hk
    cases hk

theorem Coherent.prefix_last (h : Coherent τ L ℓ) (hne : ℓ ≠ []) : ℓ <+: L (lastTerm τ ℓ) := by
  have hpos : 0 < ℓ.length := List.length_pos_of_ne_nil hne
  have hk : ℓ[ℓ.length - 1]? = some ℓ[ℓ.length - 1] := List.getElem?_eq_getElem (by omega)
  have := h _ _ hk
  rwa [Nat.sub_add_cancel hpos, List.take_length, ← lastTerm_eq_of_getElem? τ hk] at this

theorem Coherent.term_le (hL : Bounded τ L) (h : Coherent τ L ℓ) {i j : ℕ} {e e' : E}
    (hi : ℓ[i]? = some e) (hj : ℓ[j]? = some e') (hij : i ≤ j) : τ e ≤ τ e' := by
  refine hL _ _ ((h j e' hj).subset ?_)
  refine List.mem_of_getElem? (i := i) ?_
  rw [List.getElem?_take_of_lt (by omega), hi]

theorem Coherent.term_le_lastTerm (hL : Bounded τ L) (h : Coherent τ L ℓ) {e : E} (he : e ∈ ℓ) :
    τ e ≤ lastTerm τ ℓ := by
  obtain ⟨i, hi⟩ := List.mem_iff_getElem?.mp he
  have hlt := (List.getElem?_eq_some_iff.mp hi).1
  have hk : ℓ[ℓ.length - 1]? = some ℓ[ℓ.length - 1] := List.getElem?_eq_getElem (by omega)
  rw [lastTerm_eq_of_getElem? τ hk]
  exact h.term_le hL hi hk (by omega)

/-! ## Authors and nodes -/

variable (N E) in
/-- The logs of a cluster: one for the author of each term, and one for each node. -/
structure Logs where
  /-- The log of the author of a term, `[]` while the term has no author. -/
  leaderLog : ℕ → List E
  log : N → List E

/-- Every log in the cluster is coherent with the authors' logs. -/
structure Authored (τ : E → ℕ) (h : Logs N E) : Prop where
  leader : ∀ T, Coherent τ h.leaderLog (h.leaderLog T)
  node : ∀ n, Coherent τ h.leaderLog (h.log n)
  bounded : Bounded τ h.leaderLog

def Logs.empty : Logs N E where
  leaderLog _ := []
  log _ := []

theorem Authored.empty : Authored τ (Logs.empty : Logs N E) where
  leader _ := Coherent.nil
  node _ := Coherent.nil
  bounded T e h := by simp [Logs.empty] at h

variable [DecidableEq N]

def Logs.adopt (h : Logs N E) (n : N) (P : List E) : Logs N E where
  leaderLog := h.leaderLog
  log := Function.update h.log n P

/-- Node `n` appends an entry of its own and becomes, or stays, the author of its term. -/
def Logs.extend (τ : E → ℕ) (h : Logs N E) (n : N) (e : E) : Logs N E where
  leaderLog := Function.update h.leaderLog (τ e) (h.log n ++ [e])
  log := Function.update h.log n (h.log n ++ [e])

theorem Authored.adopt {h : Logs N E} (hh : Authored τ h) (n : N) {P : List E} {T : ℕ}
    (hP : P <+: h.leaderLog T) : Authored τ (h.adopt n P) where
  leader := hh.leader
  node m := by
    by_cases hm : m = n
    · subst hm
      simpa [Logs.adopt] using (hh.leader T).of_isPrefix hP
    · simpa [Logs.adopt, hm] using hh.node m
  bounded := hh.bounded

theorem Logs.leaderLog_extend_prefix {h : Logs N E} {n : N} {e : E}
    (hpre : h.leaderLog (τ e) <+: h.log n) (T : ℕ) :
    h.leaderLog T <+: (h.extend τ n e).leaderLog T := by
  by_cases hT : T = τ e
  · subst hT
    simpa [Logs.extend] using hpre.trans (List.prefix_append _ _)
  · simp [Logs.extend, hT]

/-- Appending an entry of a term that has no author yet, or whose author is the node itself,
keeps every log coherent. -/
theorem Authored.extend {h : Logs N E} (hh : Authored τ h) {n : N} {e : E}
    (hpre : h.leaderLog (τ e) <+: h.log n) (hle : ∀ x ∈ h.log n, τ x ≤ τ e) :
    Authored τ (h.extend τ n e) := by
  have hmono := Logs.leaderLog_extend_prefix (h := h) (n := n) (e := e) hpre
  have hself : Coherent τ (h.extend τ n e).leaderLog (h.log n ++ [e]) := by
    refine ((hh.node n).mono hmono).concat ?_
    simp [Logs.extend]
  refine ⟨fun T => ?_, fun m => ?_, fun T x hx => ?_⟩
  · by_cases hT : T = τ e
    · subst hT
      simpa [Logs.extend] using hself
    · have : (h.extend τ n e).leaderLog T = h.leaderLog T := by simp [Logs.extend, hT]
      rw [this]
      exact (hh.leader T).mono hmono
  · by_cases hm : m = n
    · subst hm
      simpa [Logs.extend] using hself
    · have : (h.extend τ n e).log m = h.log m := by simp [Logs.extend, hm]
      rw [this]
      exact (hh.node m).mono hmono
  · by_cases hT : T = τ e
    · subst hT
      have hx' : x ∈ h.log n ∨ x = e := by simpa [Logs.extend] using hx
      rcases hx' with hx' | rfl
      · exact hle x hx'
      · exact le_rfl
    · exact hh.bounded T x (by simpa [Logs.extend, hT] using hx)

end TermLog

end AegisDB
