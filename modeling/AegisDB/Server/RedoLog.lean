import AegisDB.Server.OpLog

/-!
# A redo log without failures

If no append fails, a segment holds exactly its own records, and opening the log finds the records
of the segments that are there, in the order in which they were appended.
-/

namespace AegisDB

namespace Server

/-- A log of records with their generations, whose segments may have been removed. -/
structure RedoLog (codec : OpCodec) (dir : LogDir) (records : List (ℕ × Op)) : Prop where
  sorted : records.Pairwise fun a b => a.1 ≤ b.1
  bound : ∀ e ∈ records, ∃ g ∈ dir, e.1 ≤ g
  read : ∀ g bytes, dir.lookup g = some bytes → readSegment codec bytes = (segment records g, true)

def OpCodec.fits (codec : OpCodec) (op : Op) : Bool :=
  (codec.serialize op).any fun payload => payload.length ≤ maxRecordBytes

namespace LogDir

/-- Append a record; one that cannot be encoded or is too large is refused, which is only noted. -/
def append (codec : OpCodec) (dir : LogDir) (generation : ℕ) (op : Op) : LogDir :=
  if codec.fits op then write dir generation (frame ((codec.serialize op).getD [])) else dir

end LogDir

namespace RedoLog

variable {codec : OpCodec} {dir : LogDir} {records : List (ℕ × Op)}

theorem empty (codec : OpCodec) : RedoLog codec ∅ [] where
  sorted := List.Pairwise.nil
  bound := by
    intro e he
    cases he
  read := by
    intro g bytes h
    cases h

theorem createSegment (h : RedoLog codec dir records) {g : ℕ} (hnew : ∀ g' ∈ dir, g' < g) :
    RedoLog codec (LogDir.createSegment dir g) records where
  sorted := h.sorted
  bound := by
    intro e he
    obtain ⟨g', hg', hle⟩ := h.bound e he
    exact ⟨g', (OpLogRun.mem_createSegment g g').mpr (.inr hg'), hle⟩
  read := by
    intro g' bytes hbytes
    rw [OpLogRun.lookup_createSegment] at hbytes
    split_ifs at hbytes with hg
    · have hnone : dir.lookup g = none := by
        refine AList.lookup_eq_none.mpr fun hmem => ?_
        exact lt_irrefl g (hnew g hmem)
      rw [hnone] at hbytes
      obtain rfl := Option.some.inj hbytes
      have hsegment : segment records g' = [] := by
        refine segment_eq_nil fun e he heq => ?_
        obtain ⟨g'', hg'', hle⟩ := h.bound e he
        have := hnew g'' hg''
        omega
      rw [hsegment]
      rfl
    · exact h.read g' bytes hbytes

theorem append (h : RedoLog codec dir records) {g : ℕ} {op : Op} (hfits : codec.fits op = true)
    (hg : g ∈ dir) (hlast : ∀ g' ∈ dir, g' ≤ g) :
    RedoLog codec (LogDir.append codec dir g op) (records ++ [(g, op)]) where
  sorted := by
    refine List.pairwise_append.mpr ⟨h.sorted, List.pairwise_singleton _ _, ?_⟩
    intro e he e' he'
    obtain rfl := List.mem_singleton.mp he'
    obtain ⟨g', hg', hle⟩ := h.bound e he
    exact hle.trans (hlast g' hg')
  bound := by
    intro e he
    rw [LogDir.append, if_pos hfits]
    rcases List.mem_append.mp he with he | he
    · obtain ⟨g', hg', hle⟩ := h.bound e he
      exact ⟨g', (OpLogRun.mem_write _ _ _).mpr hg', hle⟩
    · obtain rfl := List.mem_singleton.mp he
      exact ⟨g, (OpLogRun.mem_write _ _ _).mpr hg, le_rfl⟩
  read := by
    intro g' bytes hbytes
    obtain ⟨payload, hpayload, hsize⟩ := (Option.any_eq_true _ _).mp hfits
    rw [LogDir.append, if_pos hfits, OpLogRun.lookup_write, hpayload] at hbytes
    rw [segment_append, segment_singleton]
    split_ifs at hbytes with heq
    · obtain ⟨old, hold, rfl⟩ := Option.map_eq_some_iff.mp hbytes
      have hread := h.read g' old hold
      rw [readSegment_append (by rw [hread]), hread, Option.getD_some,
        readSegment_frame hpayload (by simpa using hsize), if_pos heq.symm]
    · rw [if_neg (Ne.symm heq), List.append_nil]
      exact h.read g' bytes hbytes

theorem eraseAll (h : RedoLog codec dir records) {removed : List ℕ} {g : ℕ} (hg : g ∈ dir)
    (hlast : ∀ g' ∈ dir, g' ≤ g) (hkept : g ∉ removed) :
    RedoLog codec (dir.eraseAll removed) records where
  sorted := h.sorted
  bound := by
    intro e he
    obtain ⟨g', hg', hle⟩ := h.bound e he
    exact ⟨g, (mem_eraseAll _ _ _).mpr ⟨hg, hkept⟩, hle.trans (hlast g' hg')⟩
  read := by
    intro g' bytes hbytes
    rw [lookup_eraseAll] at hbytes
    split_ifs at hbytes
    exact h.read g' bytes hbytes

theorem recover (h : RedoLog codec dir records) :
    LogDir.recover codec dir = (records.filter fun e => e.1 ∈ dir).map Prod.snd := by
  rw [← flatMap_sortedKeys dir h.sorted, LogDir.recover, LogDir.listGenerations]
  refine List.flatMap_congr fun g hg => ?_
  obtain ⟨bytes, hbytes⟩ :=
    Option.isSome_iff_exists.mp (AList.lookup_isSome.mpr (mem_sortedKeys.mp hg))
  rw [hbytes, Option.getD_some, h.read g bytes hbytes]

end RedoLog

end Server

end AegisDB
