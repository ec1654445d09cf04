import Mathlib.Tactic

/-!
# Programs with atomic sections

A program over a shared state is a sequence of atomic sections, of which each reads the state,
changes it, and says with what the program goes on.  Between two sections other programs may run.
What holds of every section of a program, whatever the state is when it begins, holds of it in any
company; what a program does alone is one section after the other.
-/

namespace AegisDB

/-- A program over a shared state, with its result. -/
inductive Prog (σ : Type*) (ρ : Type) where
  | done (result : ρ)
  /-- A section changes the state; how the program goes on depends on the state before. -/
  | atom (next : σ → σ) (rest : σ → Prog σ ρ)

namespace Prog

variable {σ : Type*} {ρ τ : Type}

def bind (f : ρ → Prog σ τ) : Prog σ ρ → Prog σ τ
  | done r => f r
  | atom next rest => atom next fun s => bind f (rest s)

instance : Monad (Prog σ) where
  pure := done
  bind p f := bind f p

def read (f : σ → ρ) : Prog σ ρ :=
  atom id fun s => done (f s)

def modify (f : σ → σ) : Prog σ Unit :=
  atom f fun _ => done ()

def isDone : Prog σ ρ → Bool
  | done _ => true
  | atom _ _ => false

/-- The result of the program, if it has ended. -/
def result? : Prog σ ρ → Option ρ
  | done r => some r
  | atom _ _ => none

section Errors

variable {ε α β : Type}

/-- Go on with the result of a program, unless it is an error. -/
def orReturn (f : α → Prog σ (Except ε β)) (p : Prog σ (Except ε α)) : Prog σ (Except ε β) :=
  p >>= fun result =>
    match result with
    | .ok a => f a
    | .error e => pure (.error e)

end Errors

/-! ## Alone -/

/-- The result of a program that runs alone, and the state that it leaves. -/
def run : Prog σ ρ → σ → ρ × σ
  | done r, s => (r, s)
  | atom next rest, s => run (rest s) (next s)

@[simp] theorem run_pure (r : ρ) (s : σ) : (pure r : Prog σ ρ).run s = (r, s) :=
  rfl

@[simp] theorem run_bind (p : Prog σ ρ) (f : ρ → Prog σ τ) (s : σ) :
    (p >>= f).run s = (f (p.run s).1).run (p.run s).2 := by
  change (bind f p).run s = _
  induction p generalizing s with
  | done r => rfl
  | atom next rest ih => exact ih s (next s)

@[simp] theorem run_read (f : σ → ρ) (s : σ) : (read f).run s = (f s, s) :=
  rfl

@[simp] theorem run_modify (f : σ → σ) (s : σ) : (modify f).run s = ((), f s) :=
  rfl

/-! ## In company -/

/-- Every section of the program that begins in a certain state changes the state in a certain way,
and if all begin in such a state, the result is a certain one. -/
def Always (S : σ → Prop) (P : σ → σ → Prop) (Q : ρ → Prop) : Prog σ ρ → Prop
  | done r => Q r
  | atom next rest => ∀ s, S s → P s (next s) ∧ Always S P Q (rest s)

/-- The sections of the program change the state as their numbers say, and the program may end
behind the last. -/
def InOrder (P : ℕ → σ → σ → Prop) (Q : ℕ → Prop) : ℕ → Prog σ ρ → Prop
  | n, done _ => Q n
  | n, atom next rest => ∀ s, P n s (next s) ∧ InOrder P Q (n + 1) (rest s)

section Always

variable {S : σ → Prop} {P : σ → σ → Prop} {Q : ρ → Prop} {Q' : τ → Prop}

theorem always_pure {r : ρ} (h : Q r) : (pure r : Prog σ ρ).Always S P Q :=
  h

theorem always_bind {p : Prog σ ρ} {f : ρ → Prog σ τ} :
    (p >>= f).Always S P Q' ↔ p.Always S P fun r => (f r).Always S P Q' := by
  change (bind f p).Always S P Q' ↔ _
  induction p with
  | done r => exact Iff.rfl
  | atom next rest ih => exact forall_congr' fun s => imp_congr_right fun _ => and_congr_right' (ih s)

theorem always_read {f : σ → ρ} (hP : ∀ s, P s s) (hQ : ∀ s, S s → Q (f s)) :
    (read f).Always S P Q :=
  fun s hs => ⟨hP s, hQ s hs⟩

theorem always_modify {f : σ → σ} {Q : Unit → Prop} (hP : ∀ s, P s (f s)) (hQ : Q ()) :
    (modify f).Always S P Q :=
  fun s _ => ⟨hP s, hQ⟩

theorem Always.of_atom {p : Prog σ ρ} {next : σ → σ} {rest : σ → Prog σ ρ} (h : p.Always S P Q)
    (hp : p = atom next rest) {s : σ} (hs : S s) : P s (next s) ∧ (rest s).Always S P Q := by
  subst hp
  exact h s hs

theorem Always.of_result {p : Prog σ ρ} {r : ρ} (h : p.Always S P Q) (hr : p.result? = some r) :
    Q r := by
  cases p with
  | done r' => exact Option.some.inj hr ▸ h
  | atom next rest => cases hr

end Always

section InOrder

variable {P : ℕ → σ → σ → Prop} {Q : ℕ → Prop} {n : ℕ}

theorem InOrder.of_atom {p : Prog σ ρ} {next : σ → σ} {rest : σ → Prog σ ρ} (h : p.InOrder P Q n)
    (hp : p = atom next rest) (s : σ) : P n s (next s) ∧ (rest s).InOrder P Q (n + 1) := by
  subst hp
  exact h s

theorem InOrder.of_isDone {p : Prog σ ρ} (h : p.InOrder P Q n) (hp : p.isDone = true) : Q n := by
  cases p with
  | done r => exact h
  | atom next rest => cases hp

theorem Always.inOrder {P' : σ → σ → Prop} {Q' : ρ → Prop} {p : Prog σ ρ}
    (h : p.Always (fun _ => True) P' Q') (hP : ∀ m ≥ n, ∀ s s', P' s s' → P m s s')
    (hQ : ∀ m ≥ n, Q m) : p.InOrder P Q n := by
  induction p generalizing n with
  | done r => exact hQ n le_rfl
  | atom next rest ih =>
    intro s
    exact ⟨hP n le_rfl s _ (h s trivial).1, ih s (h s trivial).2
      (fun m hm => hP m (Nat.le_of_succ_le hm)) fun m hm => hQ m (Nat.le_of_succ_le hm)⟩

end InOrder

/-! ## The last section -/

/-- Every section of the program changes the state in a certain way, and the result is a certain one
for the state right behind the last section. -/
def Last (P : σ → σ → Prop) (Q : ρ → σ → Prop) : Prog σ ρ → Prop
  | done _ => True
  | atom next rest => ∀ s, P s (next s) ∧ (∀ r, (rest s).result? = some r → Q r (next s)) ∧
      Last P Q (rest s)

section Last

variable {P : σ → σ → Prop} {Q : ρ → σ → Prop} {Q' : τ → σ → Prop}

theorem last_pure (r : ρ) : (pure r : Prog σ ρ).Last P Q :=
  trivial

theorem Last.of_atom {p : Prog σ ρ} {next : σ → σ} {rest : σ → Prog σ ρ} (h : p.Last P Q)
    (hp : p = atom next rest) (s : σ) : P s (next s) ∧
      (∀ r, (rest s).result? = some r → Q r (next s)) ∧ (rest s).Last P Q := by
  subst hp
  exact h s

theorem Last.imp {Q Q' : ρ → σ → Prop} {p : Prog σ ρ} (h : p.Last P Q)
    (hQ : ∀ r s, Q r s → Q' r s) : p.Last P Q' := by
  induction p with
  | done r => trivial
  | atom next rest ih =>
    intro s
    obtain ⟨hP, hend, hrest⟩ := h s
    exact ⟨hP, fun r hr => hQ r _ (hend r hr), ih s hrest⟩

/-- One program after the other: if the second has nothing to do, it ends where the first does. -/
theorem Last.bind {p : Prog σ ρ} {f : ρ → Prog σ τ} (h : p.Last P Q)
    (hf : ∀ r, (f r).Last P Q')
    (hend : ∀ r r' s, (f r).result? = some r' → Q r s → Q' r' s) : (p >>= f).Last P Q' := by
  change (Prog.bind f p).Last P Q'
  induction p with
  | done r => exact hf r
  | atom next rest ih =>
    intro s
    obtain ⟨hP, hQ, hrest⟩ := h s
    refine ⟨hP, fun r' hr' => ?_, ih s hrest⟩
    dsimp only at hr'
    cases hp : rest s with
    | done r =>
      rw [hp] at hr'
      exact hend r r' _ hr' (hQ r (by rw [hp]; rfl))
    | atom next' rest' =>
      rw [hp] at hr'
      cases hr'

theorem Last.orReturn {ε α β : Type} {Q : Except ε α → σ → Prop} {Q' : Except ε β → σ → Prop}
    {p : Prog σ (Except ε α)} {f : α → Prog σ (Except ε β)} (h : p.Last P Q)
    (hf : ∀ a, (f a).Last P Q')
    (hend : ∀ a r s, (f a).result? = some r → Q (.ok a) s → Q' r s)
    (herror : ∀ e s, Q (.error e) s → Q' (.error e) s) : (p.orReturn f).Last P Q' := by
  refine h.bind (fun r => ?_) fun r r' s hr' hQ => ?_
  · cases r with
    | ok a => exact hf a
    | error e => exact last_pure _
  · cases r with
    | ok a => exact hend a r' s hr' hQ
    | error e =>
      obtain rfl := Option.some.inj hr'
      exact herror e s hQ

theorem last_read {f : σ → ρ} (hP : ∀ s, P s s) (hQ : ∀ s, Q (f s) s) : (read f).Last P Q := by
  refine fun s => ⟨hP s, fun r hr => ?_, trivial⟩
  obtain rfl := Option.some.inj hr
  exact hQ s

end Last

/-! ## What everybody keeps -/

/-- The program, begun in a state, changes it only as everybody does, and if between its sections
the state only changes so, the program ends in a certain way. -/
def Relies (R : σ → σ → Prop) (Q : ρ → σ → Prop) : Prog σ ρ → σ → Prop
  | done r, s => Q r s
  | atom next rest, s => ∀ s', R s s' → R s' (next s') ∧ Relies R Q (rest s') (next s')

section Relies

variable {R : σ → σ → Prop} {Q Q' : ρ → σ → Prop} {Q'' : τ → σ → Prop} {s s' : σ}

theorem relies_pure {r : ρ} (h : Q r s) : (pure r : Prog σ ρ).Relies R Q s :=
  h

theorem Relies.imp {p : Prog σ ρ} (h : p.Relies R Q s) (hQ : ∀ r s, Q r s → Q' r s) :
    p.Relies R Q' s := by
  induction p generalizing s with
  | done r => exact hQ r s h
  | atom next rest ih => exact fun s' hs => ⟨(h s' hs).1, ih s' (h s' hs).2⟩

theorem Relies.bind {p : Prog σ ρ} {f : ρ → Prog σ τ} (h : p.Relies R Q s)
    (hf : ∀ r s, Q r s → (f r).Relies R Q'' s) : (p >>= f).Relies R Q'' s := by
  change (Prog.bind f p).Relies R Q'' s
  induction p generalizing s with
  | done r => exact hf r s h
  | atom next rest ih => exact fun s' hs => ⟨(h s' hs).1, ih s' (h s' hs).2⟩

theorem relies_read {f : σ → ρ} (hR : ∀ s, R s s) (hQ : ∀ s', R s s' → Q (f s') s') :
    (read f).Relies R Q s :=
  fun s' hs => ⟨hR s', hQ s' hs⟩

theorem Last.relies {P : σ → σ → Prop} {I : σ → Prop} {p : Prog σ ρ} (h : p.Last P Q)
    (hP : ∀ a b, P a b → R a b) (hI : ∀ a b, R a b → I a → I b) (hs : I s) :
    p.Relies R (fun _ s => I s) s := by
  induction p generalizing s with
  | done r => exact hs
  | atom next rest ih =>
    intro s' hs'
    have hnext := hP _ _ (h s').1
    exact ⟨hnext, ih s' (h s').2.2 (hI _ _ hnext (hI _ _ hs' hs))⟩

theorem Relies.of_kept {Q : ρ → Prop} {p : Prog σ ρ} (h : p.Relies R (fun r _ => Q r) s)
    (htrans : ∀ {a b c}, R a b → R b c → R a c) (hs : R s s') :
    p.Relies R (fun r _ => Q r) s' := by
  cases p with
  | done r => exact h
  | atom next rest => exact fun s'' hs' => h s'' (htrans hs hs')

theorem Relies.of_atom {p : Prog σ ρ} {next : σ → σ} {rest : σ → Prog σ ρ} (h : p.Relies R Q s)
    (hp : p = atom next rest) (hs : R s s') :
    R s' (next s') ∧ (rest s').Relies R Q (next s') := by
  subst hp
  exact h s' hs

theorem Relies.of_result {p : Prog σ ρ} {r : ρ} (h : p.Relies R Q s) (hr : p.result? = some r) :
    Q r s := by
  cases p with
  | done r' => exact Option.some.inj hr ▸ h
  | atom next rest => cases hr

end Relies

end Prog

end AegisDB
