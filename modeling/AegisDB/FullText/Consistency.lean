import Mathlib.Algebra.Order.BigOperators.Group.List
import Mathlib.Data.Finset.Range
import Mathlib.Tactic
import AegisDB.FullText.InvertedIndex
import AegisDB.Library.MergedTable

/-!
# What an inverted index holds

An index holds some documents if it has just their terms, with the numbers of times, their lengths
and the sum of these.  A document that is added, and had no place before, is held beside the others,
and one that is removed with its tokens leaves the others; so two indexes that hold the same
documents agree, however they came about.
-/

namespace AegisDB

namespace FullText

namespace InvertedIndex

/-- How often a document with these tokens has a term, if it has it. -/
def frequency (t : String) (tokens : List String) : Option ℕ :=
  if t ∈ tokens then some (tokens.count t) else none

theorem lookup₂_addTokens (doc : ℕ) (tokens : List String) (p : Table String (Table ℕ ℕ))
    (t : String) (d : ℕ) : (addTokens doc tokens p).lookup₂ t d =
      if d = doc ∧ t ∈ tokens then
        some (((p.lookup₂ t doc).getD 0 + tokens.count t) % 2 ^ 32)
      else p.lookup₂ t d := by
  induction tokens generalizing p with
  | nil => rw [addTokens, if_neg fun h => List.not_mem_nil h.2]
  | cons a tokens ih =>
    rw [addTokens, ih, Table.lookup₂_insert₂, Table.lookup₂_insert₂]
    by_cases hd : d = doc
    · by_cases ha : t = a
      · subst ha
        have hsum (old count : ℕ) :
            ((old + 1) % 2 ^ 32 + count) % 2 ^ 32 = (old + (count + 1)) % 2 ^ 32 := by
          rw [Nat.mod_add_mod]
          congr 1
          omega
        by_cases ht : t ∈ tokens
        · rw [if_pos ⟨hd, ht⟩, if_pos ⟨rfl, rfl⟩, if_pos ⟨hd, List.mem_cons_self⟩, Option.getD_some,
            hsum, List.count_cons_self]
        · simp [hd, ht, List.count_eq_zero_of_not_mem ht]
      · by_cases ht : t ∈ tokens
        · simp [hd, ha, ht, Ne.symm ha]
        · simp [hd, ha, ht]
    · simp [hd]

theorem tight_addTokens {doc : ℕ} (tokens : List String) {p : Table String (Table ℕ ℕ)}
    (h : p.Tight) : (addTokens doc tokens p).Tight := by
  induction tokens generalizing p with
  | nil => exact h
  | cons t tokens ih => exact ih (h.insert₂ t doc _)

theorem lookup₂_removeTokens (doc : ℕ) (tokens seen : List String) (p : Table String (Table ℕ ℕ))
    (t : String) (d : ℕ) : (removeTokens doc tokens seen p).lookup₂ t d =
      if d = doc ∧ t ∈ tokens ∧ t ∉ seen then none else p.lookup₂ t d := by
  induction tokens generalizing p seen with
  | nil => rw [removeTokens, if_neg fun h => List.not_mem_nil h.2.1]
  | cons a tokens ih =>
    rw [removeTokens]
    by_cases hseen : a ∈ seen
    · rw [if_pos hseen, ih]
      refine if_congr ⟨fun h => ⟨h.1, List.mem_cons_of_mem _ h.2.1, h.2.2⟩, fun h => ?_⟩ rfl rfl
      have hne : t ≠ a := fun heq => h.2.2 (heq ▸ hseen)
      exact ⟨h.1, (List.mem_cons.mp h.2.1).resolve_left hne, h.2.2⟩
    · rw [if_neg hseen, ih, Table.lookup₂_erase₂]
      by_cases hd : d = doc
      · by_cases ha : t = a
        · simp [hd, ha, hseen]
        · simp [hd, ha]
      · simp [hd]

theorem tight_removeTokens {doc : ℕ} (tokens seen : List String) {p : Table String (Table ℕ ℕ)}
    (h : p.Tight) : (removeTokens doc tokens seen p).Tight := by
  induction tokens generalizing p seen with
  | nil => exact h
  | cons t tokens ih =>
    rw [removeTokens]
    split_ifs
    · exact ih _ h
    · exact ih _ (h.erase₂ t doc)

/-- An index holds these documents, given by their tokens. -/
structure Holds (index : InvertedIndex) (docs : Table ℕ (List String)) : Prop where
  tight : index.postings.Tight
  postings : ∀ t doc, index.postings.lookup₂ t doc = (docs.lookup doc).bind (frequency t)
  docLen : ∀ doc, index.docLen.lookup doc = (docs.lookup doc).map List.length
  totalLen : index.totalLen = docs.sumValues List.length

/-- The numbers of documents and their lengths fit into 32 bits. -/
def Fits (docs : Table ℕ (List String)) : Prop :=
  ∀ doc tokens, docs.lookup doc = some tokens → doc < 2 ^ 32 ∧ tokens.length < 2 ^ 32

variable {self : InvertedIndex} {docs docs' : Table ℕ (List String)} {doc : ℕ}
  {tokens : List String}

theorem Fits.length_keys_le (h : Fits docs) : docs.keys.length ≤ 2 ^ 32 := by
  have hsub : docs.keys.toFinset ⊆ Finset.range (2 ^ 32) := by
    intro doc hdoc
    obtain ⟨tokens, htokens⟩ := Option.isSome_iff_exists.mp
      (AList.lookup_isSome.mpr (AList.mem_keys.mpr (List.mem_toFinset.mp hdoc)))
    exact Finset.mem_range.mpr (h doc tokens htokens).1
  have hcard := Finset.card_le_card hsub
  rwa [List.toFinset_card_of_nodup docs.keys_nodup, Finset.card_range] at hcard

theorem Fits.sumValues_lt (h : Fits docs) : docs.sumValues List.length < 2 ^ 64 := by
  have hkeys := h.length_keys_le
  have hlengths : ∀ n ∈ docs.values.map List.length, n ≤ 2 ^ 32 - 1 := by
    intro n hn
    obtain ⟨tokens, htokens, rfl⟩ := List.mem_map.mp hn
    obtain ⟨doc, hdoc⟩ := Table.mem_values.mp htokens
    exact Nat.le_pred_of_lt (h doc tokens hdoc).2
  have hsum := List.sum_le_card_nsmul _ _ hlengths
  have hcount : (docs.values.map List.length).length = docs.keys.length := by
    rw [List.length_map, Table.values, List.length_map, AList.keys, List.keys, List.length_map]
  rw [hcount, smul_eq_mul] at hsum
  calc docs.sumValues List.length ≤ docs.keys.length * (2 ^ 32 - 1) := hsum
    _ ≤ 2 ^ 32 * (2 ^ 32 - 1) := Nat.mul_le_mul_right _ hkeys
    _ < 2 ^ 64 := by norm_num

theorem holds_empty : Holds {} ∅ where
  tight := Table.tight_empty
  postings := fun _ _ => rfl
  docLen := fun _ => rfl
  totalLen := rfl

theorem Fits.insert (h : Fits docs) (hdoc : doc < 2 ^ 32) (htokens : tokens.length < 2 ^ 32) :
    Fits (docs.insert doc tokens) :=
  Table.forall_lookup_insert.mpr ⟨⟨hdoc, htokens⟩, fun doc' tokens' _ h' => h doc' tokens' h'⟩

theorem Fits.erase (h : Fits docs) (doc : ℕ) : Fits (docs.erase doc) :=
  Table.forall_lookup_erase.mpr fun doc' tokens' _ h' => h doc' tokens' h'

theorem Holds.add (h : self.Holds docs) (hfits : Fits (docs.insert doc tokens))
    (hnew : docs.lookup doc = none) : (self.add doc tokens).Holds (docs.insert doc tokens) := by
  have hlength : tokens.length < 2 ^ 32 := (hfits doc tokens (AList.lookup_insert docs)).2
  refine ⟨tight_addTokens tokens h.tight, fun t d => ?_, fun d => ?_, ?_⟩
  · rw [InvertedIndex.add, lookup₂_addTokens, h.postings, h.postings, hnew, Table.lookup_insert]
    by_cases hd : d = doc
    · have hcount : (0 + tokens.count t) % 2 ^ 32 = tokens.count t := by
        rw [Nat.zero_add]
        exact Nat.mod_eq_of_lt (List.count_le_length.trans_lt hlength)
      rw [if_pos hd, Option.bind_some, frequency, Option.bind_none, Option.getD_none, hcount, hd, hnew]
      simp
    · rw [if_neg hd, if_neg fun hboth => hd hboth.1]
  · rw [InvertedIndex.add, Table.lookup_insert, Table.lookup_insert, Nat.mod_eq_of_lt hlength,
      h.docLen]
    split_ifs
    · rfl
    · rfl
  · have hsum := hfits.sumValues_lt
    have hnotMem : doc ∉ docs := AList.lookup_eq_none.mp hnew
    rw [Table.sumValues_insert, Table.erase_of_notMem hnotMem] at hsum ⊢
    rw [InvertedIndex.add, h.totalLen, Nat.add_comm]
    exact Nat.mod_eq_of_lt hsum

/-- A document that is removed with its tokens leaves the others, and its length is not more than
the total. -/
theorem Holds.remove (h : self.Holds docs) (hfits : Fits docs)
    (hdoc : docs.lookup doc = some tokens) : (self.remove doc tokens).Holds (docs.erase doc) := by
  have hlen : self.docLen.lookup doc = some tokens.length := by
    rw [h.docLen, hdoc]
    rfl
  rw [InvertedIndex.remove, hlen]
  refine ⟨tight_removeTokens tokens [] h.tight, fun t d => ?_, fun d => ?_, ?_⟩
  · dsimp only
    rw [lookup₂_removeTokens, h.postings, Table.lookup_erase]
    by_cases hd : d = doc
    · subst hd
      by_cases ht : t ∈ tokens
      · simp [ht]
      · simp [ht, hdoc, frequency]
    · simp [hd]
  · dsimp only
    rw [Table.lookup_erase, Table.lookup_erase, h.docLen]
    split_ifs
    · rfl
    · rfl
  · have hsum := hfits.sumValues_lt
    have hsplit := Table.sumValues_eq_add_erase List.length hdoc
    dsimp only
    rw [h.totalLen]
    omega

/-- Two indexes agree: they have the same terms, the same numbers of times, lengths and total. -/
structure Agree (index index' : InvertedIndex) : Prop where
  terms : ∀ t, (index.postings.lookup t).isSome = (index'.postings.lookup t).isSome
  postings : ∀ t doc, index.postings.lookup₂ t doc = index'.postings.lookup₂ t doc
  docLen : ∀ doc, index.docLen.lookup doc = index'.docLen.lookup doc
  totalLen : index.totalLen = index'.totalLen

theorem Holds.agree {self' : InvertedIndex} (h : self.Holds docs) (h' : self'.Holds docs')
    (hsame : ∀ doc, docs.lookup doc = docs'.lookup doc) : Agree self self' where
  terms t := by
    rw [Bool.eq_iff_iff, h.tight.isSome_lookup_iff, h'.tight.isSome_lookup_iff]
    simp only [h.postings, h'.postings, hsame]
  postings t doc := by rw [h.postings, h'.postings, hsame]
  docLen doc := by rw [h.docLen, h'.docLen, hsame]
  totalLen := by
    rw [h.totalLen, h'.totalLen]
    exact Table.sumValues_congr fun doc => by rw [hsame]

theorem Holds.docLen_le (h : self.Holds docs) {len : ℕ} (hlen : self.docLen.lookup doc = some len) :
    len ≤ self.totalLen := by
  rw [h.docLen] at hlen
  obtain ⟨tokens, htokens, rfl⟩ := Option.map_eq_some_iff.mp hlen
  rw [h.totalLen, Table.sumValues_eq_add_erase List.length htokens]
  exact Nat.le_add_right _ _

/-! ## Scores -/

section Scores

variable {F : Type} (bm25 : Bm25 F)

theorem mem_scoreTerm (avgdl : F) (plist : List (Σ _ : ℕ, ℕ)) (df : ℕ) (scores : Table ℕ F)
    (d : ℕ) : d ∈ self.scoreTerm bm25 avgdl plist df scores ↔
      d ∈ scores ∨ d ∈ plist.map Sigma.fst := by
  induction plist generalizing scores with
  | nil => simp [scoreTerm]
  | cons e plist ih =>
    rw [scoreTerm, ih, AList.mem_insert, List.map_cons, List.mem_cons]
    tauto

/-- The documents that have a score are those that have a term. -/
theorem mem_scoreTerms (avgdl : F) (queryTokens seen : List String) (scores : Table ℕ F) (d : ℕ) :
    d ∈ self.scoreTerms bm25 avgdl queryTokens seen scores ↔ d ∈ scores ∨
      ∃ t ∈ queryTokens, t ∉ seen ∧ (self.postings.lookup₂ t d).isSome = true := by
  induction queryTokens generalizing seen scores with
  | nil => simp [scoreTerms]
  | cons term queryTokens ih =>
    -- a term that comes again adds nothing
    have hagain : ((self.postings.lookup₂ term d).isSome = true ∨ ∃ t ∈ queryTokens,
        t ∉ term :: seen ∧ (self.postings.lookup₂ t d).isSome = true) ↔
        (self.postings.lookup₂ term d).isSome = true ∨ ∃ t ∈ queryTokens,
          t ∉ seen ∧ (self.postings.lookup₂ t d).isSome = true := by
      refine or_congr_right' fun hnone => exists_congr fun t => and_congr_right fun _ => ?_
      rw [List.mem_cons, not_or]
      refine and_congr_left fun hsome => and_iff_right ?_
      rintro rfl
      exact hnone hsome
    simp only [List.mem_cons, exists_eq_or_imp]
    rw [scoreTerms]
    by_cases hseen : term ∈ seen
    · rw [if_pos hseen, ih]
      simp [hseen]
    rw [if_neg hseen]
    cases hterm : self.postings.lookup term with
    | none =>
      have hnone : (self.postings.lookup₂ term d).isSome = false := by
        rw [Table.lookup₂, hterm]
        rfl
      dsimp only
      rw [ih]
      rw [hnone] at hagain ⊢
      simpa [hseen] using or_congr_right (a := d ∈ scores) hagain
    | some plist =>
      have hsome : (self.postings.lookup₂ term d).isSome = true ↔
          d ∈ plist.entries.map Sigma.fst := by
        rw [Table.lookup₂, hterm, Option.bind_some, AList.lookup_isSome, AList.mem_keys]
        rfl
      dsimp only
      rw [ih, mem_scoreTerm, or_assoc, ← hsome, hagain]
      simp [hseen]

/-- When there are tokens and so the average length is not zero, the documents that have a score are
those that have a token of the query. -/
theorem Holds.mem_score (h : self.Holds docs) (hfits : Fits docs)
    (hzero : ∀ totalLen n, totalLen ≠ 0 → totalLen < 2 ^ 64 → n ≠ 0 → n ≤ 2 ^ 32 →
      bm25.isZero (bm25.avgdl totalLen n) = false) (queryTokens : List String) (d : ℕ) :
    d ∈ self.score bm25 queryTokens ↔
      ∃ tokens, docs.lookup d = some tokens ∧ ∃ t ∈ queryTokens, t ∈ tokens := by
  have hpostings (t : String) : (self.postings.lookup₂ t d).isSome = true ↔
      ∃ tokens, docs.lookup d = some tokens ∧ t ∈ tokens := by
    rw [h.postings]
    cases docs.lookup d with
    | none => simp
    | some tokens => simp [frequency]
  have hcount : self.docLen.entries.length = docs.keys.length := by
    have hperm : self.docLen.keys.Perm docs.keys := by
      refine (List.perm_ext_iff_of_nodup self.docLen.keys_nodup docs.keys_nodup).mpr fun doc => ?_
      rw [← AList.mem_keys, ← AList.lookup_isSome, h.docLen, Option.isSome_map,
        AList.lookup_isSome, AList.mem_keys]
    rw [← hperm.length_eq]
    exact (List.length_map _).symm
  -- a document that has a token has a length that is not zero
  have hgo : (∃ tokens, docs.lookup d = some tokens ∧ ∃ t ∈ queryTokens, t ∈ tokens) →
      (decide (docs.keys.length = 0) || bm25.isZero (if docs.keys.length = 0 then bm25.zero
        else bm25.avgdl self.totalLen docs.keys.length)) = false := by
    rintro ⟨tokens, htokens, t, -, ht⟩
    have hmem : d ∈ docs.keys := AList.mem_keys.mp (AList.lookup_isSome.mp (htokens ▸ rfl))
    have hkeys : docs.keys.length ≠ 0 := fun hzeroth =>
      List.ne_nil_of_mem hmem (List.length_eq_zero_iff.mp hzeroth)
    have hlen : self.docLen.lookup d = some tokens.length := by
      rw [h.docLen, htokens]
      rfl
    have htotal : self.totalLen ≠ 0 := by
      have hpos := List.length_pos_of_mem ht
      have hle := h.docLen_le hlen
      omega
    have hsmall : self.totalLen < 2 ^ 64 := h.totalLen ▸ hfits.sumValues_lt
    rw [decide_eq_false hkeys, Bool.false_or, if_neg hkeys]
    exact hzero _ _ htotal hsmall hkeys hfits.length_keys_le
  rw [score, hcount]
  by_cases hfound : ∃ tokens, docs.lookup d = some tokens ∧ ∃ t ∈ queryTokens, t ∈ tokens
  · rw [hgo hfound, if_neg Bool.false_ne_true, mem_scoreTerms]
    obtain ⟨tokens, htokens, t, hquery, ht⟩ := hfound
    exact iff_of_true (Or.inr ⟨t, hquery, List.not_mem_nil, (hpostings t).mpr ⟨tokens, htokens, ht⟩⟩)
      ⟨tokens, htokens, t, hquery, ht⟩
  · refine iff_of_false (fun hmem => hfound ?_) hfound
    generalize (if docs.keys.length = 0 then bm25.zero
      else bm25.avgdl self.totalLen docs.keys.length) = avgdl at hmem
    split_ifs at hmem
    · exact absurd hmem (AList.notMem_empty d)
    · rw [mem_scoreTerms] at hmem
      rcases hmem with hmem | ⟨t, hquery, -, hsome⟩
      · exact absurd hmem (AList.notMem_empty d)
      · obtain ⟨tokens, htokens, ht⟩ := (hpostings t).mp hsome
        exact ⟨tokens, htokens, t, hquery, ht⟩

end Scores

end InvertedIndex

end FullText

end AegisDB
