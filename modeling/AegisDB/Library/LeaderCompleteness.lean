import AegisDB.Library.LeaderLog
import Mathlib.Data.Finset.Card

/-!
# Leader completeness

The logs of `AegisDB.Library.LeaderLog` with the votes that make a node the author of a term.  A
node moves through increasing terms; it stands for election with the log it has, votes for
candidates whose log is at least as up to date as its own, and, while in a term, takes over
prefixes of the log of the term's author.  `acked p T` is the longest such prefix that node `p`
has held while in term `T`.

A position of the author's log of term `T` that carries an entry of that term is *chosen* once
half of the members have acknowledged it.  Authors are elected by more than half of the members,
so a chosen prefix is a prefix of the log of every later author (`Chosen.prefix_leaderLog`), and
any two chosen prefixes are comparable (`Chosen.comparable`).  That acknowledgements need only
half of the members, not more than half, is all that the argument asks for.

The invariant `Safe` says for each acknowledged position that it is still held, or voted for, or
held by a later author, or else that it is *blocked*: more than half of the members have left the
term without acknowledging it, so that it will never be chosen.
-/

namespace AegisDB

namespace TermLog

variable {N E : Type*} {τ : E → ℕ}

/-! ## Quorums -/

def Majority (M W : Finset N) : Prop := W ⊆ M ∧ M.card < 2 * W.card

def Half (M Q : Finset N) : Prop := Q ⊆ M ∧ M.card ≤ 2 * Q.card

theorem Majority.half {M W : Finset N} (h : Majority M W) : Half M W := ⟨h.1, h.2.le⟩

theorem Majority.inter [DecidableEq N] {M W Q : Finset N} (hW : Majority M W) (hQ : Half M Q) :
    ∃ p ∈ W, p ∈ Q := by
  by_contra hno
  push Not at hno
  have hdisj : Disjoint W Q := Finset.disjoint_left.mpr hno
  have hcard := Finset.card_le_card (Finset.union_subset hW.1 hQ.1)
  rw [Finset.card_union_of_disjoint hdisj] at hcard
  have := hW.2
  have := hQ.2
  omega

/-! ## Histories -/

variable (N E) in
/-- What has happened in a cluster: its logs, the terms of its nodes, the votes, the logs the
candidates stood with, and the acknowledged prefixes. -/
structure History extends Logs N E where
  term : N → ℕ
  /-- `vote p T x`: node `p` has voted for `x` in term `T`. -/
  vote : N → ℕ → N → Prop
  /-- The log a node stood for election with in a term. -/
  cand : N → ℕ → List E
  /-- How much of the log of a term's author a node has held while in that term. -/
  acked : N → ℕ → ℕ

/-- Position `c`, counted from `1`, of the log of the author of term `T` carries an entry of that
term. -/
def Owns (τ : E → ℕ) (L : ℕ → List E) (T c : ℕ) : Prop :=
  ∃ k e, c = k + 1 ∧ (L T)[k]? = some e ∧ τ e = T

theorem Owns.pos {L : ℕ → List E} {T c : ℕ} (h : Owns τ L T c) : 0 < c := by
  obtain ⟨k, e, rfl, -⟩ := h
  omega

theorem Owns.le_length {L : ℕ → List E} {T c : ℕ} (h : Owns τ L T c) : c ≤ (L T).length := by
  obtain ⟨k, e, rfl, hk, -⟩ := h
  have := (List.getElem?_eq_some_iff.mp hk).1
  omega

theorem Owns.of_isPrefix {L L' : ℕ → List E} {T c : ℕ} (h : Owns τ L' T c) (hL : L T <+: L' T)
    (hc : c ≤ (L T).length) : Owns τ L T c := by
  obtain ⟨k, e, rfl, hk, he⟩ := h
  refine ⟨k, e, rfl, ?_, he⟩
  obtain ⟨t, ht⟩ := hL
  rwa [← ht, List.getElem?_append_left (by omega)] at hk

theorem Owns.mono {L L' : ℕ → List E} {T c : ℕ} (h : Owns τ L T c) (hL : L T <+: L' T) :
    Owns τ L' T c := by
  obtain ⟨k, e, rfl, hk, he⟩ := h
  refine ⟨k, e, rfl, ?_, he⟩
  obtain ⟨t, ht⟩ := hL
  rw [← ht, List.getElem?_append_left (List.getElem?_eq_some_iff.mp hk).1, hk]

theorem take_eq_of_isPrefix {ℓ ℓ' : List E} (h : ℓ <+: ℓ') {c : ℕ} (hc : c ≤ ℓ.length) :
    ℓ'.take c = ℓ.take c := by
  obtain ⟨t, rfl⟩ := h
  exact List.take_append_of_le_length hc

namespace History

variable {M : Finset N} {h h' : History N E}

/-- More than half of the members have left term `T` without having acknowledged position `c` of
its author's log. -/
def Blocked (M : Finset N) (h : History N E) (T c : ℕ) : Prop :=
  ∃ W, Majority M W ∧ ∀ p ∈ W, T < h.term p ∧ h.acked p T < c

/-- `P` is a prefix of what half of the members have acknowledged to the author of a term up to
`U`, at a position that the author owns. -/
def Chosen (τ : E → ℕ) (M : Finset N) (h : History N E) (U : ℕ) (P : List E) : Prop :=
  P = [] ∨ ∃ T c, T ≤ U ∧ Owns τ h.leaderLog T c ∧ P <+: (h.leaderLog T).take c ∧
    ∃ Q, Half M Q ∧ ∀ q ∈ Q, c ≤ h.acked q T

/-- The invariant behind leader completeness. -/
structure Safe (τ : E → ℕ) (M : Finset N) (h : History N E) : Prop where
  authored : Authored τ h.toLogs
  cand_coherent : ∀ x U, Coherent τ h.leaderLog (h.cand x U)
  /-- No node holds an entry of a term it has not reached. -/
  log_le : ∀ p, ∀ e ∈ h.log p, τ e ≤ h.term p
  vote_le : ∀ p T x, h.vote p T x → T ≤ h.term p
  /-- Nobody has voted for a node in a term that the node has not reached. -/
  vote_term : ∀ p T x, h.vote p T x → T ≤ h.term x
  /-- An author was elected by more than half of the members. -/
  elected : ∀ T, h.leaderLog T ≠ [] → ∃ x W, Majority M W ∧ ∀ p ∈ W, h.vote p T x
  acked_le : ∀ p T, h.acked p T ≤ (h.leaderLog T).length
  /-- Nothing was acknowledged in a term not yet reached. -/
  acked_term : ∀ p T, h.term p < T → h.acked p T = 0
  kept : ∀ p T c, Owns τ h.leaderLog T c → c ≤ h.acked p T →
    (h.leaderLog T).take c <+: h.log p ∨ h.Blocked M T c
  followed : ∀ T U c, T < U → h.leaderLog U ≠ [] → Owns τ h.leaderLog T c →
    (h.leaderLog T).take c <+: h.leaderLog U ∨ h.Blocked M T c
  /-- A candidate that got the vote of a node had what the node had acknowledged. -/
  voted : ∀ p T U c x, h.vote p U x → T < U → Owns τ h.leaderLog T c → c ≤ h.acked p T →
    (h.leaderLog T).take c <+: h.cand x U ∨ h.Blocked M T c

/-- What never changes, or only grows, as a history goes on. -/
structure Extends (h h' : History N E) : Prop where
  leaderLog : ∀ T, h.leaderLog T <+: h'.leaderLog T
  term : ∀ p, h.term p ≤ h'.term p
  vote : ∀ p T x, h.vote p T x → h'.vote p T x
  cand : ∀ x U, U ≤ h.term x → h'.cand x U = h.cand x U
  acked : ∀ p T, h.acked p T ≤ h'.acked p T
  /-- A term that was left sees no further acknowledgement. -/
  acked_eq : ∀ p T, T < h.term p → h'.acked p T = h.acked p T

theorem Extends.refl (h : History N E) : Extends h h where
  leaderLog _ := List.prefix_rfl
  term _ := le_rfl
  vote _ _ _ hv := hv
  cand _ _ _ := rfl
  acked _ _ := le_rfl
  acked_eq _ _ _ := rfl

theorem Extends.trans {h'' : History N E} (h₁ : Extends h h') (h₂ : Extends h' h'') :
    Extends h h'' where
  leaderLog T := (h₁.leaderLog T).trans (h₂.leaderLog T)
  term p := (h₁.term p).trans (h₂.term p)
  vote p T x hv := h₂.vote p T x (h₁.vote p T x hv)
  cand x U hU := (h₂.cand x U (hU.trans (h₁.term x))).trans (h₁.cand x U hU)
  acked p T := (h₁.acked p T).trans (h₂.acked p T)
  acked_eq p T hT := (h₂.acked_eq p T (hT.trans_le (h₁.term p))).trans (h₁.acked_eq p T hT)

theorem Blocked.mono {T c : ℕ} (hb : h.Blocked M T c) (he : Extends h h') : h'.Blocked M T c := by
  obtain ⟨W, hW, hp⟩ := hb
  refine ⟨W, hW, fun p hpW => ?_⟩
  obtain ⟨hT, hc⟩ := hp p hpW
  exact ⟨hT.trans_le (he.term p), (he.acked_eq p T hT).symm ▸ hc⟩

theorem Chosen.mono {U : ℕ} {P : List E} (hc : h.Chosen τ M U P) (he : Extends h h') :
    h'.Chosen τ M U P := by
  rcases hc with rfl | ⟨T, c, hT, hown, hP, Q, hQ, hq⟩
  · exact .inl rfl
  · refine .inr ⟨T, c, hT, hown.mono (he.leaderLog T), ?_, Q, hQ, fun q hqQ =>
      (hq q hqQ).trans (he.acked q T)⟩
    rwa [take_eq_of_isPrefix (he.leaderLog T) hown.le_length]

theorem Chosen.le {U U' : ℕ} {P : List E} (hc : h.Chosen τ M U P) (hU : U ≤ U') :
    h.Chosen τ M U' P := by
  rcases hc with rfl | ⟨T, c, hT, hrest⟩
  · exact .inl rfl
  · exact .inr ⟨T, c, hT.trans hU, hrest⟩

theorem Chosen.of_isPrefix {U : ℕ} {P P' : List E} (hc : h.Chosen τ M U P) (hp : P' <+: P) :
    h.Chosen τ M U P' := by
  rcases hc with rfl | ⟨T, c, hT, hown, hP, hQ⟩
  · exact .inl (List.prefix_nil.mp hp)
  · exact .inr ⟨T, c, hT, hown, hp.trans hP, hQ⟩

theorem Chosen.nil (U : ℕ) : h.Chosen τ M U [] := .inl rfl

theorem Chosen.exists_leaderLog {U : ℕ} {P : List E} (hc : h.Chosen τ M U P) :
    ∃ T ≤ U, P <+: h.leaderLog T := by
  rcases hc with rfl | ⟨T, c, hT, hown, hP, -⟩
  · exact ⟨U, le_rfl, List.nil_prefix⟩
  · exact ⟨T, hT, hP.trans (List.take_prefix _ _)⟩

variable [DecidableEq N]

theorem not_blocked {T c : ℕ} {Q : Finset N} (hQ : Half M Q) (hq : ∀ q ∈ Q, c ≤ h.acked q T) :
    ¬ h.Blocked M T c := by
  rintro ⟨W, hW, hp⟩
  obtain ⟨p, hpW, hpQ⟩ := hW.inter hQ
  have := (hp p hpW).2
  have := hq p hpQ
  omega

theorem Chosen.prefix_leaderLog {U : ℕ} {P : List E} (hc : h.Chosen τ M U P) (hs : h.Safe τ M)
    (hU : h.leaderLog U ≠ []) : P <+: h.leaderLog U := by
  rcases hc with rfl | ⟨T, c, hT, hown, hP, Q, hQ, hq⟩
  · exact List.nil_prefix
  rcases Nat.eq_or_lt_of_le hT with rfl | hT
  · exact hP.trans (List.take_prefix _ _)
  · rcases hs.followed T U c hT hU hown with hpre | hb
    · exact hP.trans hpre
    · exact absurd hb (not_blocked hQ hq)

theorem Chosen.comparable {U U' : ℕ} {P P' : List E} (hs : h.Safe τ M) (hc : h.Chosen τ M U P)
    (hc' : h.Chosen τ M U' P') : P <+: P' ∨ P' <+: P := by
  rcases eq_or_ne P [] with rfl | hne
  · exact .inl List.nil_prefix
  rcases eq_or_ne P' [] with rfl | hne'
  · exact .inr List.nil_prefix
  -- the author with the larger term has both
  have later {U U' T : ℕ} {P P' : List E} (hc : h.Chosen τ M U P) (hU : U ≤ T) (hT : T ≤ U')
      (hP' : P' <+: h.leaderLog T) (hL : h.leaderLog T ≠ []) : P <+: P' ∨ P' <+: P :=
    List.prefix_or_prefix_of_prefix ((hc.le hU).prefix_leaderLog hs hL) hP'
  rcases hc with rfl | ⟨T, c, hT, hrest⟩
  · exact absurd rfl hne
  rcases hc' with rfl | ⟨T', c', hT', hrest'⟩
  · exact absurd rfl hne'
  have hcT : h.Chosen τ M T P := .inr ⟨T, c, le_rfl, hrest⟩
  have hcT' : h.Chosen τ M T' P' := .inr ⟨T', c', le_rfl, hrest'⟩
  have hpre : P <+: h.leaderLog T := hrest.2.1.trans (List.take_prefix _ _)
  have hpre' : P' <+: h.leaderLog T' := hrest'.2.1.trans (List.take_prefix _ _)
  have hL : h.leaderLog T ≠ [] := fun hnil => hne (List.prefix_nil.mp (hnil ▸ hpre))
  have hL' : h.leaderLog T' ≠ [] := fun hnil => hne' (List.prefix_nil.mp (hnil ▸ hpre'))
  rcases Nat.le_total T T' with hle | hle
  · exact later hcT hle hT' hpre' hL'
  · exact (later hcT' hle hT hpre hL).symm

/-! ## Steps -/

def raise (h : History N E) (p : N) (T : ℕ) : History N E :=
  { h with term := fun q => if q = p then T else h.term q }

/-- Node `p` stands for election in term `T`, with the log it has and its own vote. -/
def stand (h : History N E) (p : N) (T : ℕ) : History N E :=
  { h with
    term := fun q => if q = p then T else h.term q
    vote := fun q U x => h.vote q U x ∨ (q = p ∧ U = T ∧ x = p)
    cand := fun q U => if q = p ∧ U = T then h.log p else h.cand q U }

def grant (h : History N E) (p x : N) : History N E :=
  { h with vote := fun q U y => h.vote q U y ∨ (q = p ∧ U = h.term p ∧ y = x) }

/-- The author `p` of a term appends an entry, and acknowledges its own log. -/
def author (τ : E → ℕ) (h : History N E) (p : N) (e : E) : History N E :=
  { h with
    toLogs := h.toLogs.extend τ p e
    acked := fun q U => if q = p ∧ U = τ e then (h.log p).length + 1 else h.acked q U }

def takeOver (h : History N E) (p : N) (P : List E) : History N E :=
  { h with toLogs := h.toLogs.adopt p P }

def acknowledge (h : History N E) (p : N) : History N E :=
  { h with
    acked := fun q U =>
      if q = p ∧ U = h.term p then max (h.acked p U) (h.log p).length else h.acked q U }

/-- `κ` is at least as up to date as `ℓ`: its last entry has a later term, or the same term and
the log is not shorter. -/
def UpToDate (τ : E → ℕ) (κ ℓ : List E) : Prop :=
  lastTerm τ ℓ < lastTerm τ κ ∨ (lastTerm τ ℓ = lastTerm τ κ ∧ ℓ.length ≤ κ.length)

/-- What nodes may do. -/
inductive Step (τ : E → ℕ) (M : Finset N) (h : History N E) : History N E → Prop
  | raise (p : N) (T : ℕ) : h.term p ≤ T → Step τ M h (h.raise p T)
  | stand (p : N) (T : ℕ) : h.term p < T → Step τ M h (h.stand p T)
  /-- A node votes for a candidate of its term whose log is up to date. -/
  | grant (p x : N) : h.term p ≤ h.term x → UpToDate τ (h.cand x (h.term p)) (h.log p) →
      Step τ M h (h.grant p x)
  /-- A candidate elected by more than half of the members becomes the author of its term. -/
  | elect (p : N) (e : E) : τ e = h.term p → h.leaderLog (τ e) = [] →
      h.cand p (τ e) = h.log p → (∃ W, Majority M W ∧ ∀ q ∈ W, h.vote q (τ e) p) →
      Step τ M h (h.author τ p e)
  | append (p : N) (e : E) : τ e = h.term p → h.leaderLog (τ e) ≠ [] →
      h.leaderLog (τ e) = h.log p → Step τ M h (h.author τ p e)
  /-- A node takes over a prefix of the log of its term's author, unless it has it already. -/
  | takeOver (p : N) (P : List E) : P <+: h.leaderLog (h.term p) → ¬ P <+: h.log p →
      Step τ M h (h.takeOver p P)
  /-- A node acknowledges a log that it shares with its term's author. -/
  | acknowledge (p : N) : h.log p <+: h.leaderLog (h.term p) → Step τ M h (h.acknowledge p)

variable {p x : N} {T : ℕ} {e : E} {P : List E}

theorem raise_term (h : History N E) (p q : N) (T : ℕ) :
    (h.raise p T).term q = if q = p then T else h.term q := rfl

theorem stand_term (h : History N E) (p q : N) (T : ℕ) :
    (h.stand p T).term q = if q = p then T else h.term q := rfl

theorem stand_cand (h : History N E) (p q : N) (T U : ℕ) :
    (h.stand p T).cand q U = if q = p ∧ U = T then h.log p else h.cand q U := rfl

theorem author_acked (h : History N E) (p q : N) (e : E) (U : ℕ) :
    (h.author τ p e).acked q U =
      if q = p ∧ U = τ e then (h.log p).length + 1 else h.acked q U := rfl

theorem acknowledge_acked (h : History N E) (p q : N) (U : ℕ) :
    (h.acknowledge p).acked q U =
      if q = p ∧ U = h.term p then max (h.acked p U) (h.log p).length else h.acked q U := rfl

theorem raise_self (h : History N E) (p : N) : h.raise p (h.term p) = h := by
  have hterm : (fun q => if q = p then h.term p else h.term q) = h.term := by
    funext q
    split_ifs with hq
    · rw [hq]
    · rfl
  unfold raise
  rw [hterm]

theorem raise_extends (hT : h.term p ≤ T) : Extends h (h.raise p T) := by
  refine ⟨fun _ => List.prefix_rfl, fun q => ?_, fun _ _ _ hv => hv, fun _ _ _ => rfl,
    fun _ _ => le_rfl, fun _ _ _ => rfl⟩
  rw [raise_term]
  split_ifs with hq
  · exact hq ▸ hT
  · exact le_rfl

theorem stand_extends (hT : h.term p < T) : Extends h (h.stand p T) := by
  refine ⟨fun _ => List.prefix_rfl, fun q => ?_, fun _ _ _ hv => .inl hv, fun y U hU => ?_,
    fun _ _ => le_rfl, fun _ _ _ => rfl⟩
  · rw [stand_term]
    split_ifs with hq
    · exact hq ▸ hT.le
    · exact le_rfl
  · rw [stand_cand, if_neg]
    rintro ⟨rfl, rfl⟩
    omega

omit [DecidableEq N] in
theorem grant_extends : Extends h (h.grant p x) :=
  ⟨fun _ => List.prefix_rfl, fun _ => le_rfl, fun _ _ _ hv => .inl hv, fun _ _ _ => rfl,
    fun _ _ => le_rfl, fun _ _ _ => rfl⟩

theorem author_extends (hs : h.Safe τ M) (he : τ e = h.term p)
    (hpre : h.leaderLog (τ e) <+: h.log p) : Extends h (h.author τ p e) := by
  refine ⟨Logs.leaderLog_extend_prefix hpre, fun _ => le_rfl, fun _ _ _ hv => hv,
    fun _ _ _ => rfl, fun q U => ?_, fun q U hU => ?_⟩
  · rw [author_acked]
    split_ifs with hq
    · obtain ⟨rfl, rfl⟩ := hq
      have := hs.acked_le q (τ e)
      have := hpre.length_le
      omega
    · exact le_rfl
  · rw [author_acked, if_neg]
    rintro ⟨rfl, rfl⟩
    omega

theorem takeOver_extends : Extends h (h.takeOver p P) :=
  ⟨fun _ => List.prefix_rfl, fun _ => le_rfl, fun _ _ _ hv => hv, fun _ _ _ => rfl,
    fun _ _ => le_rfl, fun _ _ _ => rfl⟩

theorem acknowledge_extends : Extends h (h.acknowledge p) := by
  refine ⟨fun _ => List.prefix_rfl, fun _ => le_rfl, fun _ _ _ hv => hv, fun _ _ _ => rfl,
    fun q U => ?_, fun q U hU => ?_⟩
  · rw [acknowledge_acked]
    split_ifs with hq
    · exact hq.1 ▸ le_max_left _ _
    · exact le_rfl
  · rw [acknowledge_acked, if_neg]
    rintro ⟨rfl, rfl⟩
    omega

theorem Step.extends (hs : h.Safe τ M) (hstep : Step τ M h h') : Extends h h' := by
  cases hstep with
  | raise p T hT => exact raise_extends hT
  | stand p T hT => exact stand_extends hT
  | grant p x _ _ => exact grant_extends
  | elect p e he hnil _ _ => exact author_extends hs he (hnil ▸ List.nil_prefix)
  | append p e he _ hlog => exact author_extends hs he (hlog ▸ List.prefix_rfl)
  | takeOver p P _ _ => exact takeOver_extends
  | acknowledge p _ => exact acknowledge_extends

/-! ## Preservation -/

theorem Safe.raise (hs : h.Safe τ M) (hT : h.term p ≤ T) : (h.raise p T).Safe τ M := by
  have hext : Extends h (h.raise p T) := raise_extends hT
  exact
    { authored := hs.authored
      cand_coherent := hs.cand_coherent
      log_le := fun q e he => (hs.log_le q e he).trans (hext.term q)
      vote_le := fun q U y hv => (hs.vote_le q U y hv).trans (hext.term q)
      vote_term := fun q U y hv => (hs.vote_term q U y hv).trans (hext.term y)
      elected := hs.elected
      acked_le := hs.acked_le
      acked_term := fun q U hU => hs.acked_term q U ((hext.term q).trans_lt hU)
      kept := fun q U c hown hc => (hs.kept q U c hown hc).imp_right fun hb => hb.mono hext
      followed := fun U V c hUV hL hown =>
        (hs.followed U V c hUV hL hown).imp_right fun hb => hb.mono hext
      voted := fun q V U c y hv hVU hown hc =>
        (hs.voted q V U c y hv hVU hown hc).imp_right fun hb => hb.mono hext }

/-- A node that stands for election votes for the log it has. -/
theorem Safe.stand (hs : h.Safe τ M) (hT : h.term p < T) : (h.stand p T).Safe τ M := by
  have hext : Extends h (h.stand p T) := stand_extends hT
  have hp : (h.stand p T).term p = T := if_pos rfl
  refine
    { authored := hs.authored
      cand_coherent := fun y U => ?_
      log_le := fun q e he => (hs.log_le q e he).trans (hext.term q)
      vote_le := fun q U y hv => ?_
      vote_term := fun q U y hv => ?_
      elected := fun U hU => ?_
      acked_le := hs.acked_le
      acked_term := fun q U hU => hs.acked_term q U ((hext.term q).trans_lt hU)
      kept := fun q U c hown hc => (hs.kept q U c hown hc).imp_right fun hb => hb.mono hext
      followed := fun U V c hUV hL hown =>
        (hs.followed U V c hUV hL hown).imp_right fun hb => hb.mono hext
      voted := fun q V U c y hv hVU hown hc => ?_ }
  · rw [stand_cand]
    split_ifs
    · exact hs.authored.node p
    · exact hs.cand_coherent y U
  · rcases hv with hv | ⟨rfl, rfl, -⟩
    · exact (hs.vote_le q U y hv).trans (hext.term q)
    · exact hp.ge
  · rcases hv with hv | ⟨-, rfl, rfl⟩
    · exact (hs.vote_term q U y hv).trans (hext.term y)
    · exact hp.ge
  · obtain ⟨y, W, hW, hv⟩ := hs.elected U hU
    exact ⟨y, W, hW, fun q hq => .inl (hv q hq)⟩
  · rcases hv with hv | ⟨rfl, rfl, rfl⟩
    · have hcand : (h.stand p T).cand y U = h.cand y U :=
        hext.cand y U (hs.vote_term q U y hv)
      rw [hcand]
      exact (hs.voted q V U c y hv hVU hown hc).imp_right fun hb => hb.mono hext
    · rw [stand_cand, if_pos ⟨rfl, rfl⟩]
      exact (hs.kept y V c hown hc).imp_right fun hb => hb.mono hext

omit [DecidableEq N] in
/-- A log that is at least as up to date has every position of an author that the other has, or a
later author has blocked it. -/
theorem UpToDate.prefix_or_blocked (hs : h.Safe τ M) {κ ℓ : List E} {c : ℕ}
    (hκ : Coherent τ h.leaderLog κ) (hℓ : Coherent τ h.leaderLog ℓ) (hup : UpToDate τ κ ℓ)
    (hown : Owns τ h.leaderLog T c) (hpre : (h.leaderLog T).take c <+: ℓ) :
    (h.leaderLog T).take c <+: κ ∨ h.Blocked M T c := by
  have hcL : ((h.leaderLog T).take c).length = c := by
    rw [List.length_take, min_eq_left hown.le_length]
  have hcℓ : c ≤ ℓ.length := hcL ▸ hpre.length_le
  have hℓne : ℓ ≠ [] := List.ne_nil_of_length_pos (by have := hown.pos; omega)
  -- the position lies in `ℓ`, so the last term of `ℓ` is not below its term
  have hTℓ : T ≤ lastTerm τ ℓ := by
    obtain ⟨k, e, rfl, hk, he⟩ := hown
    refine he ▸ hℓ.term_le_lastTerm hs.authored.bounded (hpre.subset ?_)
    refine List.mem_of_getElem? (i := k) ?_
    rw [List.getElem?_take_of_lt (by omega), hk]
  have hκne : κ ≠ [] := by
    rintro rfl
    have := List.length_pos_of_ne_nil hℓne
    simp only [UpToDate, lastTerm_nil, List.length_nil] at hup
    omega
  have hκL := hκ.prefix_last hκne
  have hLκ : h.leaderLog (lastTerm τ κ) ≠ [] :=
    fun hnil => hκne (List.prefix_nil.mp (hnil ▸ hκL))
  have hle : lastTerm τ ℓ ≤ lastTerm τ κ := by
    rcases hup with hlt | ⟨heq, -⟩
    · exact hlt.le
    · exact heq.le
  rcases Nat.eq_or_lt_of_le (hTℓ.trans hle) with heq | hlt
  · -- both logs end in term `T`, so both are prefixes of its author's log
    have hlen : c ≤ κ.length := by
      rcases hup with hlt' | ⟨-, hlen⟩
      · omega
      · omega
    rw [← heq] at hκL
    exact .inl (List.prefix_of_prefix_length_le (List.take_prefix _ _) hκL (by omega))
  · rcases hs.followed T _ c hlt hLκ hown with hL | hb
    · left
      refine List.prefix_of_prefix_length_le hL hκL ?_
      rw [hcL]
      by_contra hshort
      -- otherwise the last entry of `κ`, of a later term, would precede position `c`
      have hκc : κ <+: (h.leaderLog T).take c :=
        List.prefix_of_prefix_length_le hκL hL (by omega)
      have hpos := List.length_pos_of_ne_nil hκne
      have hlast : κ[κ.length - 1]? = some κ[κ.length - 1] := List.getElem?_eq_getElem (by omega)
      have hmem : κ[κ.length - 1] ∈ h.leaderLog T :=
        List.mem_of_mem_take (hκc.subset (List.getElem_mem _))
      have := hs.authored.bounded T _ hmem
      rw [lastTerm_eq_of_getElem? τ hlast] at hlt
      omega
    · exact .inr hb

omit [DecidableEq N] in
/-- A vote for an up-to-date log passes on what the voter has acknowledged. -/
theorem Safe.grant (hs : h.Safe τ M) (hx : h.term p ≤ h.term x)
    (hup : UpToDate τ (h.cand x (h.term p)) (h.log p)) : (h.grant p x).Safe τ M := by
  have hext : Extends h (h.grant p x) := grant_extends
  refine
    { authored := hs.authored
      cand_coherent := hs.cand_coherent
      log_le := hs.log_le
      vote_le := fun q U y hv => ?_
      vote_term := fun q U y hv => ?_
      elected := fun U hU => ?_
      acked_le := hs.acked_le
      acked_term := hs.acked_term
      kept := fun q U c hown hc => (hs.kept q U c hown hc).imp_right fun hb => hb.mono hext
      followed := fun U V c hUV hL hown =>
        (hs.followed U V c hUV hL hown).imp_right fun hb => hb.mono hext
      voted := fun q V U c y hv hVU hown hc => ?_ }
  · rcases hv with hv | ⟨rfl, rfl, -⟩
    · exact hs.vote_le q U y hv
    · exact le_rfl
  · rcases hv with hv | ⟨-, rfl, rfl⟩
    · exact hs.vote_term q U y hv
    · exact hx
  · obtain ⟨y, W, hW, hv⟩ := hs.elected U hU
    exact ⟨y, W, hW, fun q hq => .inl (hv q hq)⟩
  · rcases hv with hv | ⟨rfl, rfl, rfl⟩
    · exact (hs.voted q V U c y hv hVU hown hc).imp_right fun hb => hb.mono hext
    · rcases hs.kept q V c hown hc with hpre | hb
      · exact (hup.prefix_or_blocked hs (hs.cand_coherent _ _) (hs.authored.node q) hown
          hpre).imp_right fun hb => hb.mono hext
      · exact .inr (hb.mono hext)

/-- An author whose log contains what every earlier author has, or has blocked, may append to it
in its own term. -/
theorem Safe.author (hs : h.Safe τ M) (he : τ e = h.term p) (hpre : h.leaderLog (τ e) <+: h.log p)
    (hquorum : ∃ x W, Majority M W ∧ ∀ q ∈ W, h.vote q (τ e) x)
    (hearlier : ∀ T c, T < τ e → Owns τ h.leaderLog T c →
      (h.leaderLog T).take c <+: h.log p ∨ h.Blocked M T c) : (h.author τ p e).Safe τ M := by
  have hext : Extends h (h.author τ p e) := author_extends hs he hpre
  have hself : (h.author τ p e).leaderLog (τ e) = h.log p ++ [e] := by
    simp [History.author, Logs.extend]
  have hother {U : ℕ} (hU : U ≠ τ e) : (h.author τ p e).leaderLog U = h.leaderLog U := by
    simp [History.author, Logs.extend, hU]
  have hlogp : (h.author τ p e).log p = h.log p ++ [e] := by
    simp [History.author, Logs.extend]
  have hlog (q : N) : h.log q <+: (h.author τ p e).log q := by
    by_cases hq : q = p
    · subst hq
      exact hlogp ▸ List.prefix_append _ _
    · simp [History.author, Logs.extend, hq]
  -- an acknowledgement that is not the author's new one concerns the old logs
  have old {q : N} {T c : ℕ} (hne : ¬ (q = p ∧ T = τ e))
      (hown : Owns τ (h.author τ p e).leaderLog T c) (hc : c ≤ (h.author τ p e).acked q T) :
      c ≤ h.acked q T ∧ Owns τ h.leaderLog T c ∧
        ((h.author τ p e).leaderLog T).take c = (h.leaderLog T).take c := by
    rw [author_acked, if_neg hne] at hc
    have hcL := hc.trans (hs.acked_le q T)
    exact ⟨hc, hown.of_isPrefix (hext.leaderLog T) hcL, take_eq_of_isPrefix (hext.leaderLog T) hcL⟩
  refine
    { authored := hs.authored.extend hpre fun x hx => he ▸ hs.log_le p x hx
      cand_coherent := fun x U => (hs.cand_coherent x U).mono hext.leaderLog
      log_le := fun q x hx => ?_
      vote_le := hs.vote_le
      vote_term := hs.vote_term
      elected := fun U hU => ?_
      acked_le := fun q U => ?_
      acked_term := fun q U hU => ?_
      kept := fun q T c hown hc => ?_
      followed := fun T U c hTU hL hown => ?_
      voted := fun q T U c x hv hTU hown hc => ?_ }
  · by_cases hq : q = p
    · subst hq
      rw [hlogp, List.mem_append, List.mem_singleton] at hx
      rcases hx with hx | rfl
      · exact hs.log_le q x hx
      · exact he.le
    · exact hs.log_le q x (by simpa [History.author, Logs.extend, hq] using hx)
  · by_cases hUe : U = τ e
    · exact hUe ▸ hquorum
    · exact hs.elected U (hother hUe ▸ hU)
  · rw [author_acked]
    split_ifs with hq
    · rw [hq.2, hself, List.length_append, List.length_singleton]
    · exact (hs.acked_le q U).trans (hext.leaderLog U).length_le
  · have hU' : h.term q < U := hU
    rw [author_acked, if_neg]
    · exact hs.acked_term q U hU'
    · rintro ⟨rfl, rfl⟩
      omega
  · by_cases hq : q = p ∧ T = τ e
    · left
      rw [hq.1, hq.2, hself, hlogp]
      exact List.take_prefix _ _
    · obtain ⟨hc', hown', htake⟩ := old hq hown hc
      rw [htake]
      exact (hs.kept q T c hown' hc').imp (fun hp => hp.trans (hlog q)) fun hb => hb.mono hext
  · by_cases hUe : U = τ e
    · subst hUe
      rw [hother hTU.ne] at *
      have hown' : Owns τ h.leaderLog T c := by
        obtain ⟨k, x, hk, hx, hτ⟩ := hown
        exact ⟨k, x, hk, hother hTU.ne ▸ hx, hτ⟩
      rw [hself]
      exact (hearlier T c hTU hown').imp (fun hp => hp.trans (List.prefix_append _ _))
        fun hb => hb.mono hext
    · rw [hother hUe] at hL ⊢
      by_cases hcL : c ≤ (h.leaderLog T).length
      · rw [take_eq_of_isPrefix (hext.leaderLog T) hcL]
        exact (hs.followed T U c hTU hL (hown.of_isPrefix (hext.leaderLog T) hcL)).imp_right
          fun hb => hb.mono hext
      · -- the new position comes after the voters of the later term have left term `T`
        right
        have hTe : T = τ e := by
          by_contra hne
          exact hcL (hother hne ▸ hown.le_length)
        obtain ⟨x, W, hW, hv⟩ := hs.elected U hL
        refine ⟨W, hW, fun q hq => ?_⟩
        have hUq := hs.vote_le q U x (hv q hq)
        refine ⟨hTU.trans_le hUq, ?_⟩
        rw [author_acked, if_neg]
        · have := hs.acked_le q T
          omega
        · rintro ⟨rfl, -⟩
          omega
  · have hne : ¬ (q = p ∧ T = τ e) := by
      rintro ⟨rfl, rfl⟩
      have := hs.vote_le q U x hv
      omega
    obtain ⟨hc', hown', htake⟩ := old hne hown hc
    rw [htake]
    exact (hs.voted q T U c x hv hTU hown' hc').imp_right fun hb => hb.mono hext

/-- Taking over a prefix of the log of the term's author loses nothing that was acknowledged. -/
theorem Safe.takeOver (hs : h.Safe τ M) (hP : P <+: h.leaderLog (h.term p))
    (hnew : ¬ P <+: h.log p) : (h.takeOver p P).Safe τ M := by
  have hext : Extends h (h.takeOver p P) := takeOver_extends
  have hlogp : (h.takeOver p P).log p = P := by simp [History.takeOver, Logs.adopt]
  have hL : h.leaderLog (h.term p) ≠ [] := by
    intro hnil
    rw [hnil] at hP
    exact hnew (List.prefix_nil.mp hP ▸ List.nil_prefix)
  refine
    { authored := hs.authored.adopt p hP
      cand_coherent := hs.cand_coherent
      log_le := fun q x hx => ?_
      vote_le := hs.vote_le
      vote_term := hs.vote_term
      elected := hs.elected
      acked_le := hs.acked_le
      acked_term := hs.acked_term
      kept := fun q T c hown hc => ?_
      followed := fun T U c hTU hL hown =>
        (hs.followed T U c hTU hL hown).imp_right fun hb => hb.mono hext
      voted := fun q T U c x hv hTU hown hc =>
        (hs.voted q T U c x hv hTU hown hc).imp_right fun hb => hb.mono hext }
  · by_cases hq : q = p
    · subst hq
      exact hs.authored.bounded _ x (hP.subset (hlogp ▸ hx))
    · exact hs.log_le q x (by simpa [History.takeOver, Logs.adopt, hq] using hx)
  · by_cases hq : q = p
    · subst hq
      rw [hlogp]
      rcases hs.kept q T c hown hc with hkept | hb
      · have hTq : T ≤ h.term q := by
          by_contra hlt
          have h0 := hs.acked_term q T (by omega)
          have hpos := hown.pos
          have hc' : c ≤ h.acked q T := hc
          omega
        have hauthor : (h.leaderLog T).take c <+: h.leaderLog (h.term q) ∨ h.Blocked M T c := by
          rcases Nat.eq_or_lt_of_le hTq with rfl | hlt
          · exact .inl (List.take_prefix _ _)
          · exact hs.followed T _ c hlt hL hown
        rcases hauthor with hpre | hb
        · rcases List.prefix_or_prefix_of_prefix hpre hP with h₁ | h₁
          · exact .inl h₁
          · exact absurd (h₁.trans hkept) hnew
        · exact .inr (hb.mono hext)
      · exact .inr (hb.mono hext)
    · have hlogq : (h.takeOver p P).log q = h.log q := by
        simp [History.takeOver, Logs.adopt, hq]
      rw [hlogq]
      exact (hs.kept q T c hown hc).imp_right fun hb => hb.mono hext

/-- A node may acknowledge a log that it shares with its term's author. -/
theorem Safe.acknowledge (hs : h.Safe τ M) (hP : h.log p <+: h.leaderLog (h.term p)) :
    (h.acknowledge p).Safe τ M := by
  have hext : Extends h (h.acknowledge p) := acknowledge_extends
  refine
    { authored := hs.authored
      cand_coherent := hs.cand_coherent
      log_le := hs.log_le
      vote_le := hs.vote_le
      vote_term := hs.vote_term
      elected := hs.elected
      acked_le := fun q T => ?_
      acked_term := fun q T hT => ?_
      kept := fun q T c hown hc => ?_
      followed := fun T U c hTU hL hown =>
        (hs.followed T U c hTU hL hown).imp_right fun hb => hb.mono hext
      voted := fun q T U c x hv hTU hown hc => ?_ }
  · rw [acknowledge_acked]
    split_ifs with hq
    · obtain ⟨rfl, rfl⟩ := hq
      exact max_le (hs.acked_le q _) hP.length_le
    · exact hs.acked_le q T
  · have hT' : h.term q < T := hT
    rw [acknowledge_acked, if_neg]
    · exact hs.acked_term q T hT'
    · rintro ⟨rfl, rfl⟩
      omega
  · rw [acknowledge_acked] at hc
    split_ifs at hc with hq
    · obtain ⟨rfl, rfl⟩ := hq
      rcases le_max_iff.mp hc with hc | hc
      · exact (hs.kept q _ c hown hc).imp_right fun hb => hb.mono hext
      · left
        show (h.leaderLog (h.term q)).take c <+: h.log q
        rw [take_eq_of_isPrefix hP hc]
        exact List.take_prefix _ _
    · exact (hs.kept q T c hown hc).imp_right fun hb => hb.mono hext
  · have hne : ¬ (q = p ∧ T = h.term p) := by
      rintro ⟨rfl, rfl⟩
      have := hs.vote_le q U x hv
      omega
    rw [acknowledge_acked, if_neg hne] at hc
    exact (hs.voted q T U c x hv hTU hown hc).imp_right fun hb => hb.mono hext

theorem Step.safe (hs : h.Safe τ M) (hstep : Step τ M h h') : h'.Safe τ M := by
  cases hstep with
  | raise p T hT => exact hs.raise hT
  | stand p T hT => exact hs.stand hT
  | grant p x hx hup => exact hs.grant hx hup
  | elect p e he hnil hcand hquorum =>
    refine hs.author he (hnil ▸ List.nil_prefix) ⟨p, hquorum⟩ fun T c hT hown => ?_
    obtain ⟨W, hW, hv⟩ := hquorum
    by_cases hsome : ∃ q ∈ W, c ≤ h.acked q T
    · obtain ⟨q, hq, hc⟩ := hsome
      exact hcand ▸ hs.voted q T _ c p (hv q hq) hT hown hc
    · push Not at hsome
      exact .inr ⟨W, hW, fun q hq =>
        ⟨hT.trans_le (hs.vote_le q _ p (hv q hq)), hsome q hq⟩⟩
  | append p e he hne hlog =>
    refine hs.author he (hlog ▸ List.prefix_rfl) (hs.elected _ hne) fun T c hT hown => ?_
    exact hlog ▸ hs.followed T _ c hT hne hown
  | takeOver p P hP hnew => exact hs.takeOver hP hnew
  | acknowledge p hP => exact hs.acknowledge hP

abbrev Steps (τ : E → ℕ) (M : Finset N) : History N E → History N E → Prop :=
  Relation.ReflTransGen (Step τ M)

theorem Steps.safe_extends (hs : h.Safe τ M) (hrun : Steps τ M h h') :
    h'.Safe τ M ∧ Extends h h' := by
  induction hrun with
  | refl => exact ⟨hs, .refl h⟩
  | tail _ hstep ih => exact ⟨hstep.safe ih.1, ih.2.trans (hstep.extends ih.1)⟩

/-- The empty history, all nodes in term `0`. -/
def initial : History N E where
  toLogs := Logs.empty
  term _ := 0
  vote _ _ _ := False
  cand _ _ := []
  acked _ _ := 0

omit [DecidableEq N] in
theorem initial_safe : (initial : History N E).Safe τ M where
  authored := Authored.empty
  cand_coherent _ _ := Coherent.nil
  log_le p e he := by simp [initial, Logs.empty] at he
  vote_le _ _ _ hv := hv.elim
  vote_term _ _ _ hv := hv.elim
  elected T hT := absurd rfl hT
  acked_le _ _ := Nat.zero_le _
  acked_term _ _ _ := rfl
  kept p T c hown hc := by
    have := hown.le_length
    exact absurd hown.pos (by simp [initial, Logs.empty] at this; omega)
  followed T U c _ hL _ := absurd rfl hL
  voted _ _ _ _ _ hv := hv.elim

end History

end TermLog

end AegisDB
