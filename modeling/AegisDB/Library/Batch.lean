import AegisDB.Library.Layers

/-!
# Batches of writes

A batch is a list of puts and deletions by key.  Its meaning is what the operations do one after
another; the last operation on a key decides.  A batch may also be carried out as all puts first
and all deletions after them: this is the same exactly if no key is put after it was deleted.

The steps that carry a batch out may fail.  `FailStop.run` takes steps until one fails, by itself
or because it is made to fail, and `FailStop.run_spec` says from where the run stops what has been
done.
-/

namespace AegisDB

/-- One operation of a batch. -/
inductive BatchOp (κ β : Type*) where
  | put (key : κ) (value : β)
  | del (key : κ)
  deriving DecidableEq

namespace BatchOp

variable {κ β : Type*}

def key : BatchOp κ β → κ
  | put k _ => k
  | del k => k

def value : BatchOp κ β → Option β
  | put _ v => some v
  | del _ => none

def asPut : BatchOp κ β → Option (κ × β)
  | put k v => some (k, v)
  | del _ => none

def asDel : BatchOp κ β → Option κ
  | put _ _ => none
  | del k => some k

end BatchOp

namespace Batch

open Layers

variable {κ β : Type*} [DecidableEq κ]

def apply (m : κ → Option β) (op : BatchOp κ β) : κ → Option β :=
  Function.update m op.key op.value

def applyAll (m : κ → Option β) (ops : List (BatchOp κ β)) : κ → Option β :=
  ops.foldl apply m

def puts (ops : List (BatchOp κ β)) : List (κ × β) :=
  ops.filterMap BatchOp.asPut

def dels (ops : List (BatchOp κ β)) : List κ :=
  ops.filterMap BatchOp.asDel

def lastPut (k : κ) (ops : List (BatchOp κ β)) : Option β :=
  (lastAt Prod.fst k (puts ops)).map Prod.snd

def putsThenDels (m : κ → Option β) (ops : List (BatchOp κ β)) (k : κ) : Option β :=
  if k ∈ dels ops then none else (lastPut k ops).or (m k)

def NoPutAfterDel (ops : List (BatchOp κ β)) : Prop :=
  ∀ k ∈ dels ops, (lastAt BatchOp.key k ops).bind BatchOp.value = none

instance [DecidableEq β] (ops : List (BatchOp κ β)) : Decidable (NoPutAfterDel ops) :=
  inferInstanceAs (Decidable (∀ k ∈ dels ops, _ = none))

variable {m : κ → Option β} {ops : List (BatchOp κ β)} {k : κ}

omit [DecidableEq κ] in
@[simp] theorem mem_dels : k ∈ dels ops ↔ BatchOp.del k ∈ ops := by
  rw [dels, List.mem_filterMap]
  constructor
  · rintro ⟨op, hop, hk⟩
    cases op with
    | put k' v => cases hk
    | del k' =>
      obtain rfl := Option.some.inj hk
      exact hop
  · intro h
    exact ⟨_, h, rfl⟩

omit [DecidableEq κ] in
@[simp] theorem mem_puts {v : β} : (k, v) ∈ puts ops ↔ BatchOp.put k v ∈ ops := by
  rw [puts, List.mem_filterMap]
  constructor
  · rintro ⟨op, hop, hk⟩
    cases op with
    | put k' v' =>
      obtain ⟨rfl, rfl⟩ := Prod.mk.inj (Option.some.inj hk)
      exact hop
    | del k' => cases hk
  · intro h
    exact ⟨_, h, rfl⟩

theorem applyAll_apply (m : κ → Option β) (ops : List (BatchOp κ β)) (k : κ) :
    applyAll m ops k = match lastAt BatchOp.key k ops with
      | none => m k
      | some op => op.value := by
  induction ops using List.reverseRecOn with
  | nil => rfl
  | append_singleton ops op ih =>
    rw [applyAll, List.foldl_append, List.foldl_cons, List.foldl_nil, apply, lastAt_concat]
    split_ifs with hk
    · rw [← hk, Function.update_self]
    · rw [Function.update_of_ne (Ne.symm hk)]
      exact ih

theorem lastPut_concat_put (k' : κ) (v : β) :
    lastPut k (ops ++ [.put k' v]) = if k' = k then some v else lastPut k ops := by
  have hputs : puts (ops ++ [.put k' v]) = puts ops ++ [(k', v)] := List.filterMap_append
  rw [lastPut, hputs, lastAt_concat]
  split_ifs
  · rfl
  · rfl

theorem lastPut_concat_del (k' : κ) : lastPut k (ops ++ [.del k']) = lastPut k ops := by
  have hputs : puts (ops ++ [.del k']) = puts ops := by
    rw [puts, List.filterMap_append]
    exact List.append_nil _
  rw [lastPut, hputs, lastPut]

theorem lastPut_isSome : (lastPut k ops).isSome = true ↔ ∃ v, BatchOp.put k v ∈ ops := by
  rw [lastPut, Option.isSome_map, Option.isSome_iff_ne_none, Ne, lastAt_eq_none]
  constructor
  · intro h
    by_contra hnone
    refine h fun w hw hkey => hnone ⟨w.2, mem_puts.mp ?_⟩
    rw [← hkey]
    exact hw
  · rintro ⟨v, hv⟩ hnone
    exact hnone (k, v) (mem_puts.mpr hv) rfl

/-- Without a deletion of the key its last operation is its last put. -/
theorem lastAt_of_notMem_dels (h : k ∉ dels ops) :
    (lastAt BatchOp.key k ops).bind BatchOp.value = lastPut k ops := by
  induction ops using List.reverseRecOn with
  | nil => rfl
  | append_singleton ops op ih =>
    rw [mem_dels, List.mem_append, not_or, ← mem_dels, List.mem_singleton] at h
    rw [lastAt_concat]
    cases op with
    | del k' =>
      have hne : k' ≠ k := by
        rintro rfl
        exact h.2 rfl
      rw [lastPut_concat_del, if_neg (by exact hne)]
      exact ih h.1
    | put k' v =>
      rw [lastPut_concat_put]
      split_ifs with hk hkey hkey
      · rfl
      · exact absurd hk hkey
      · exact absurd hkey hk
      · exact ih h.1

/-- The puts first and the deletions after them do what the batch means exactly if no key is put
after it was deleted. -/
theorem putsThenDels_eq_iff : putsThenDels m ops = applyAll m ops ↔ NoPutAfterDel ops := by
  have hpoint (k : κ) : putsThenDels m ops k = applyAll m ops k ↔
      (k ∈ dels ops → (lastAt BatchOp.key k ops).bind BatchOp.value = none) := by
    rw [putsThenDels, applyAll_apply]
    split_ifs with hk
    · -- some operation is on the key, so the last one is there
      obtain ⟨op, hop⟩ : ∃ op, lastAt BatchOp.key k ops = some op := by
        rw [← Option.ne_none_iff_exists', Ne, lastAt_eq_none]
        exact fun h => h _ (mem_dels.mp hk) rfl
      simp only [hop, Option.bind_some, hk, forall_const]
      exact eq_comm
    · simp only [hk, false_implies, iff_true]
      rw [← lastAt_of_notMem_dels hk]
      cases hop : lastAt BatchOp.key k ops with
      | none => rfl
      | some op =>
        have hmem := mem_of_lastAt hop
        have hkey := key_of_lastAt hop
        cases op with
        | put k' v => rfl
        | del k' =>
          obtain rfl : k' = k := hkey
          exact absurd (mem_dels.mpr hmem) hk
  rw [funext_iff]
  exact forall_congr' hpoint

end Batch

/-! ## Steps that may fail -/

namespace FailStop

variable {σ ω ε : Type*}

/-- Take steps, counted from `n`, until one fails.  A step may be made to fail, which is then what
it leaves and returns. -/
def run (step : ω → σ → Except ε σ) (breaks : ℕ → ω → σ → Option (σ × ε)) :
    ℕ → List ω → σ → σ × Option ε
  | _, [], s => (s, none)
  | n, op :: rest, s =>
    match breaks n op s with
    | some (s', e) => (s', some e)
    | none =>
      match step op s with
      | .error e => (s, some e)
      | .ok s' => run step breaks (n + 1) rest s'

/-- The steps taken before the first one that fails, if one does: the number `fault` or one that
is stuck after the steps before it. -/
def stopsAfter (stuck : List ω → ω → Bool) (fault : Option ℕ) :
    List ω → List ω → Option (List ω)
  | _, [] => none
  | done, op :: rest =>
    if fault = some done.length ∨ stuck done op = true then some done
    else stopsAfter stuck fault (done ++ [op]) rest

variable {step : ω → σ → Except ε σ} {breaks : ℕ → ω → σ → Option (σ × ε)}
  {stuck : List ω → ω → Bool} {fault : Option ℕ}

/-- What has been done where a run stops, for steps with an invariant on the steps taken so far
and the state: it holds at the end, or where the run stops. -/
theorem run_spec {P : List ω → σ → Prop} {program : List ω}
    (hbreaks : ∀ n op s, (breaks n op s).isSome = true ↔ fault = some n)
    (hstep : ∀ done op rest s, program = done ++ op :: rest → P done s →
      if stuck done op = true then ∃ e, step op s = .error e
      else ∃ s', step op s = .ok s' ∧ P (done ++ [op]) s')
    (rest done : List ω) (s : σ) (hprogram : program = done ++ rest) (h : P done s) :
    match stopsAfter stuck fault done rest with
    | none => ∃ s', run step breaks done.length rest s = (s', none) ∧ P program s'
    | some done' => ∃ s₀ s' e, run step breaks done.length rest s = (s', some e) ∧ P done' s₀ ∧
        (s' = s₀ ∨ ∃ op ∈ program, breaks done'.length op s₀ = some (s', e)) := by
  induction rest generalizing done s with
  | nil =>
    refine ⟨s, rfl, ?_⟩
    rw [hprogram, List.append_nil]
    exact h
  | cons op rest ih =>
    have hmem : op ∈ program := by
      rw [hprogram]
      simp
    have hop := hstep done op rest s hprogram h
    rw [stopsAfter, run]
    cases hbreak : breaks done.length op s with
    | some r =>
      obtain ⟨s', e⟩ := r
      have hfault : fault = some done.length :=
        (hbreaks done.length op s).mp (by rw [hbreak]; rfl)
      rw [if_pos (Or.inl hfault)]
      exact ⟨s, s', e, rfl, h, Or.inr ⟨op, hmem, hbreak⟩⟩
    | none =>
      have hfault : fault ≠ some done.length := by
        intro heq
        have hsome := (hbreaks done.length op s).mpr heq
        rw [hbreak] at hsome
        cases hsome
      by_cases hstuck : stuck done op = true
      · rw [if_pos hstuck] at hop
        obtain ⟨e, he⟩ := hop
        rw [if_pos (Or.inr hstuck)]
        refine ⟨s, s, e, ?_, h, Or.inl rfl⟩
        simp only [he]
      · rw [if_neg hstuck] at hop
        obtain ⟨s', hs', hP⟩ := hop
        rw [if_neg (not_or.mpr ⟨hfault, hstuck⟩)]
        have hnext := ih (done ++ [op]) s' (by rw [hprogram, List.append_assoc]; rfl) hP
        rw [List.length_append, List.length_singleton] at hnext
        simp only [hs']
        exact hnext

end FailStop

end AegisDB
