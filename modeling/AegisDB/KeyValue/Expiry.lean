import AegisDB.KeyValue.Store
import AegisDB.Library.Transition

/-!
# What the key-value store shows

A key is there if it was set after its last deletion and the time to live of that write has not run
out.  The store shows just these, as long as no time to live is so large that its end is beyond the
durations and dates that there are: then it panics, or takes the largest numbers for negative ones.
-/

namespace AegisDB.KeyValue

variable {ψ : Type}

/-! ## Histories -/

/-- What is asked of the store. -/
inductive KvOp (ψ : Type) where
  | set (key : String) (value : ψ) (ttl : Option UInt64)
  | get (key : String)
  | delete (key : String)
  | list (pre : Option String) (limit : ℕ)
  | count

/-- A write of a value, with its time. -/
structure Setting (ψ : Type) where
  value : ψ
  ttl : Option UInt64
  date : ℤ
deriving DecidableEq

/-- Whether the time to live of a write has not run out. -/
def Setting.lasts (setting : Setting ψ) (now : ℤ) : Bool :=
  setting.ttl.all fun secs => decide (now ≤ setting.date + secs.toNat * 1000000000)

def KvEntry.setting (entry : KvEntry ψ) : Setting ψ :=
  { value := entry.value, ttl := entry.ttl, date := entry.updatedAt }

/-- The writes of a key since its last deletion. -/
def settings (key : String) (history : List (ℤ × KvOp ψ)) : List (Setting ψ) :=
  history.foldl (fun writes event =>
    match event.2 with
    | .set key' value ttl =>
      if key' = key then writes ++ [{ value, ttl, date := event.1 }] else writes
    | .delete key' => if key' = key then [] else writes
    | _ => writes) []

def reference (history : List (ℤ × KvOp ψ)) (now : ℤ) (key : String) : Option (Setting ψ) :=
  (settings key history).getLast?.filter fun setting => setting.lasts now

/-- The store, its clock and what was asked of it. -/
structure KvRun (ψ : Type) where
  store : KvStore ψ := {}
  clock : ℤ
  history : List (ℤ × KvOp ψ) := []

section Runs

variable (calendar : Calendar)

/-- The store after an operation; one that panics changes nothing. -/
def KvStore.apply (self : KvStore ψ) (now : ℤ) : KvOp ψ → KvStore ψ
  | .set key value ttl => (self.set now key value ttl).2
  | .get key =>
    match self.get calendar now key with
    | some result => result.2
    | none => self
  | .delete key => (self.delete key).2
  | .list _ _ | .count => self

namespace KvRun

/-- One operation after the others, at a date that is not before that of the last. -/
def step (w : KvRun ψ) (event : ℤ × KvOp ψ) : Option (KvRun ψ) :=
  if w.clock ≤ event.1 ∧ event.1 ≤ calendar.maxUtc then
    some { store := w.store.apply calendar event.1 event.2
           clock := event.1
           history := w.history ++ [event] }
  else none

def system : System (KvRun ψ) (ℤ × KvOp ψ) where
  init := { clock := calendar.minUtc }
  step := step calendar

/-- The end of every time to live is a date. -/
def TtlsEnd (_ : KvRun ψ) (event : ℤ × KvOp ψ) : Prop :=
  match event.2 with
  | .set _ _ (some secs) => secs.toNat ≤ calendar.maxSeconds ∧
      event.1 + secs.toNat * 1000000000 ≤ calendar.maxUtc
  | _ => True

instance (w : KvRun ψ) (event : ℤ × KvOp ψ) : Decidable (TtlsEnd calendar w event) :=
  match event with
  | (now, .set _ _ (some secs)) => inferInstanceAs (Decidable (secs.toNat ≤ calendar.maxSeconds ∧
      now + secs.toNat * 1000000000 ≤ calendar.maxUtc))
  | (_, .set _ _ none) | (_, .get _) | (_, .delete _) | (_, .list _ _) | (_, .count) =>
    isTrue trivial

/-- What is found under a key is what there is. -/
def GetAgrees (w : KvRun ψ) (now : ℤ) : Prop :=
  ∀ key, ∃ result store, w.store.get calendar now key = some (result, store) ∧
    result.map KvEntry.setting = reference w.history now key ∧
    ∀ entry ∈ result, entry.key = key ∧
      entry.createdAt ∈ (settings key w.history).map Setting.date

/-- The keys that are listed and counted are those that are there, in whatever order the store is
gone through. -/
def ListAgrees (w : KvRun ψ) (now : ℤ) : Prop :=
  ∀ pre, ∃ keys : List String, keys.Nodup ∧
    (∀ key, key ∈ keys ↔ (reference w.history now key).isSome = true ∧ hasPrefix pre key = true) ∧
    ∀ values : List (KvEntry ψ), values.Perm w.store.data.values →
      (∀ limit, ∃ entries, KvStore.list calendar now pre limit values = some entries ∧
        entries.length = min limit keys.length ∧ (entries.map KvEntry.key).Nodup ∧
        ∀ entry ∈ entries, entry.key ∈ keys ∧
          reference w.history now entry.key = some entry.setting) ∧
      (pre = none → KvStore.count calendar now values = some keys.length)

/-- Nothing that is asked from now on panics, and the answers are those of the keys that are
there. -/
def Agrees (w : KvRun ψ) : Prop :=
  ∀ now, w.clock ≤ now → now ≤ calendar.maxUtc → w.GetAgrees calendar now ∧ w.ListAgrees calendar now

end KvRun

end Runs

/-! ## Entries -/

section Entries

variable {calendar : Calendar}

/-- The end of the time to live of an entry is a date. -/
def KvEntry.TtlEnds (calendar : Calendar) (entry : KvEntry ψ) : Prop :=
  calendar.minUtc ≤ entry.updatedAt ∧ ∀ secs ∈ entry.ttl, secs.toNat ≤ calendar.maxSeconds ∧
    entry.updatedAt + secs.toNat * 1000000000 ≤ calendar.maxUtc

/-- Then it has expired exactly if the last write does not last. -/
theorem KvEntry.isExpiredAt_eq {entry : KvEntry ψ} (h : entry.TtlEnds calendar) (now : ℤ) :
    entry.isExpiredAt calendar now = some (!entry.setting.lasts now) := by
  obtain ⟨hmin, hends⟩ := h
  rw [isExpiredAt, Setting.lasts, setting]
  cases httl : entry.ttl with
  | none => rfl
  | some secs =>
    obtain ⟨hseconds, hend⟩ := hends secs httl
    have hbound := calendar.maxSeconds_lt
    have hint : secs.toInt64.toInt = secs.toNat :=
      BitVec.toInt_eq_toNat_of_lt (x := secs.toBitVec) (by
        rw [UInt64.toNat_toBitVec]
        omega)
    have hduration : calendar.seconds secs.toInt64.toInt =
        some ((secs.toNat : ℤ) * 1000000000) := by
      rw [Calendar.seconds, hint, if_pos (by omega)]
    have hdeadline : calendar.add entry.updatedAt (secs.toNat * 1000000000) =
        some (entry.updatedAt + secs.toNat * 1000000000) := by
      rw [Calendar.add, if_pos ⟨by omega, hend⟩]
    simp only [hduration, hdeadline, Option.bind_eq_bind, Option.bind_some, Option.all_some,
      Option.pure_def, ← decide_not, not_le]

def KvEntry.listed (now : ℤ) (pre : Option String) (entry : KvEntry ψ) : Bool :=
  entry.setting.lasts now && hasPrefix pre entry.key

theorem list_eq {values : List (KvEntry ψ)} (h : ∀ entry ∈ values, entry.TtlEnds calendar)
    (now : ℤ) (pre : Option String) (limit : ℕ) :
    KvStore.list calendar now pre limit values =
      some ((values.filter (KvEntry.listed now pre)).take limit) := by
  induction values generalizing limit with
  | nil => cases limit <;> rfl
  | cons entry values ih =>
    obtain ⟨hentry, hrest⟩ := List.forall_mem_cons.mp h
    cases limit with
    | zero => rfl
    | succ limit =>
      rw [KvStore.list, KvEntry.isExpiredAt_eq hentry, List.filter_cons, KvEntry.listed]
      cases entry.setting.lasts now with
      | false => exact ih hrest (limit + 1)
      | true =>
        cases hasPrefix pre entry.key with
        | false => exact ih hrest (limit + 1)
        | true =>
          change (KvStore.list calendar now pre limit values).bind (fun rest =>
            some (entry :: rest)) = _
          rw [ih hrest limit]
          rfl

theorem count_eq {values : List (KvEntry ψ)} (h : ∀ entry ∈ values, entry.TtlEnds calendar)
    (now : ℤ) : KvStore.count calendar now values =
      some (values.filter (KvEntry.listed now none)).length := by
  induction values with
  | nil => rfl
  | cons entry values ih =>
    obtain ⟨hentry, hrest⟩ := List.forall_mem_cons.mp h
    rw [KvStore.count, KvEntry.isExpiredAt_eq hentry, ih hrest, List.filter_cons, KvEntry.listed]
    cases entry.setting.lasts now <;> rfl

/-! ## Steps -/

theorem Setting.not_lasts_of_le {setting : Setting ψ} {now now' : ℤ}
    (h : setting.lasts now = false) (hle : now ≤ now') : setting.lasts now' = false := by
  rw [lasts] at h ⊢
  cases httl : setting.ttl with
  | none =>
    rw [httl] at h
    cases h
  | some secs =>
    rw [httl, Option.all_some, decide_eq_false_iff_not] at h
    rw [Option.all_some, decide_eq_false_iff_not]
    omega

theorem settings_concat (key : String) (history : List (ℤ × KvOp ψ)) (now : ℤ) (op : KvOp ψ) :
    settings key (history ++ [(now, op)]) =
      match op with
      | .set key' value ttl =>
        if key' = key then settings key history ++ [{ value, ttl, date := now }]
        else settings key history
      | .delete key' => if key' = key then [] else settings key history
      | _ => settings key history := by
  rw [settings, List.foldl_append]
  rfl

namespace KvRun

/-- An entry is the last write of its key, and was created by one since its last deletion; what is
not there any more has run out. -/
structure Faithful (calendar : Calendar) (w : KvRun ψ) : Prop where
  clock : calendar.minUtc ≤ w.clock
  ends : ∀ key entry, w.store.data.lookup key = some entry → entry.TtlEnds calendar
  key : ∀ key entry, w.store.data.lookup key = some entry → entry.key = key
  shown : ∀ key entry, w.store.data.lookup key = some entry →
    (settings key w.history).getLast? = some entry.setting
  created : ∀ key entry, w.store.data.lookup key = some entry →
    entry.createdAt ∈ (settings key w.history).map Setting.date
  missing : ∀ key, w.store.data.lookup key = none →
    ∀ setting, (settings key w.history).getLast? = some setting → setting.lasts w.clock = false

variable {w : KvRun ψ} {now : ℤ}

theorem Faithful.keep (h : w.Faithful calendar) (hnow : w.clock ≤ now) {op : KvOp ψ}
    (hop : ∀ key, settings key (w.history ++ [(now, op)]) = settings key w.history) :
    Faithful calendar { store := w.store, clock := now, history := w.history ++ [(now, op)] } where
  clock := h.clock.trans hnow
  ends := h.ends
  key := h.key
  shown key entry hentry := (congrArg _ (hop key)).trans (h.shown key entry hentry)
  created key entry hentry := by
    dsimp only
    rw [hop key]
    exact h.created key entry hentry
  missing key hnone setting hlast := by
    dsimp only at hlast
    rw [hop key] at hlast
    exact Setting.not_lasts_of_le (h.missing key hnone setting hlast) hnow

theorem Faithful.evict (h : w.Faithful calendar) {key : String} {entry : KvEntry ψ}
    (hentry : w.store.data.lookup key = some entry)
    (hexpired : entry.setting.lasts w.clock = false) :
    Faithful calendar { w with store := { data := w.store.data.erase key } } := by
  have hold : ∀ key' entry', (w.store.data.erase key).lookup key' = some entry' →
      w.store.data.lookup key' = some entry' := by
    intro key' entry' h'
    exact Table.lookup_of_lookup_erase h'
  refine ⟨h.clock, fun key' e h' => h.ends key' e (hold key' e h'),
    fun key' e h' => h.key key' e (hold key' e h'),
    fun key' e h' => h.shown key' e (hold key' e h'),
    fun key' e h' => h.created key' e (hold key' e h'), fun key' hnone setting hlast => ?_⟩
  dsimp only at hnone hlast ⊢
  rw [Table.lookup_erase] at hnone
  split_ifs at hnone with hkey
  · rw [hkey, h.shown key entry hentry] at hlast
    rw [← Option.some.inj hlast]
    exact hexpired
  · exact h.missing key' hnone setting hlast

theorem lookup_set (store : KvStore ψ) (key : String) (value : ψ) (ttl : Option UInt64)
    (key' : String) : (store.set now key value ttl).2.data.lookup key' =
      if key' = key then some (store.set now key value ttl).1 else store.data.lookup key' :=
  Table.lookup_insert _ _ _ _

theorem createdAt_set (store : KvStore ψ) (key : String) (value : ψ) (ttl : Option UInt64) :
    (store.set now key value ttl).1.createdAt =
      ((store.data.lookup key).map KvEntry.createdAt).getD now := by
  rw [KvStore.set]
  dsimp only
  cases store.data.lookup key <;> rfl

theorem setting_set (store : KvStore ψ) (key : String) (value : ψ) (ttl : Option UInt64) :
    (store.set now key value ttl).1.setting = { value, ttl, date := now } ∧
      (store.set now key value ttl).1.key = key := by
  rw [KvStore.set]
  dsimp only
  cases store.data.lookup key <;> exact ⟨rfl, rfl⟩

theorem Faithful.set (h : w.Faithful calendar) (hnow : w.clock ≤ now) {key : String} {value : ψ}
    {ttl : Option UInt64} (hends : ∀ secs ∈ ttl, secs.toNat ≤ calendar.maxSeconds ∧
      now + secs.toNat * 1000000000 ≤ calendar.maxUtc) :
    Faithful calendar { store := (w.store.set now key value ttl).2, clock := now,
                        history := w.history ++ [(now, .set key value ttl)] } := by
  obtain ⟨hsetting, hkey⟩ : (w.store.set now key value ttl).1.setting =
      { value, ttl, date := now } ∧ (w.store.set now key value ttl).1.key = key :=
    setting_set w.store key value ttl
  have hhistory : ∀ key', settings key' (w.history ++ [(now, .set key value ttl)]) =
      if key = key' then settings key' w.history ++ [{ value, ttl, date := now }]
      else settings key' w.history := fun key' => settings_concat key' w.history now _
  -- the entry that was written, or one of another key
  have hcases : ∀ key' entry', (w.store.set now key value ttl).2.data.lookup key' = some entry' →
      (key' = key ∧ entry' = (w.store.set now key value ttl).1) ∨
      (key ≠ key' ∧ w.store.data.lookup key' = some entry') := by
    intro key' entry' h'
    rw [lookup_set] at h'
    split_ifs at h' with heq
    · exact Or.inl ⟨heq, (Option.some.inj h').symm⟩
    · exact Or.inr ⟨Ne.symm heq, h'⟩
  refine ⟨h.clock.trans hnow, fun key' entry' h' => ?_, fun key' entry' h' => ?_,
    fun key' entry' h' => ?_, fun key' entry' h' => ?_, fun key' hnone setting hlast => ?_⟩
  · rcases hcases key' entry' h' with ⟨rfl, rfl⟩ | ⟨-, hold⟩
    · have hdate : (w.store.set now key' value ttl).1.updatedAt = now :=
        congrArg Setting.date hsetting
      have httl : (w.store.set now key' value ttl).1.ttl = ttl := congrArg Setting.ttl hsetting
      rw [KvEntry.TtlEnds, hdate, httl]
      exact ⟨h.clock.trans hnow, hends⟩
    · exact h.ends key' entry' hold
  · rcases hcases key' entry' h' with ⟨rfl, rfl⟩ | ⟨-, hold⟩
    · exact hkey
    · exact h.key key' entry' hold
  · dsimp only
    rw [hhistory]
    rcases hcases key' entry' h' with ⟨rfl, rfl⟩ | ⟨hne, hold⟩
    · rw [if_pos rfl, List.getLast?_concat, hsetting]
    · rw [if_neg hne, h.shown key' entry' hold]
  · dsimp only
    rw [hhistory]
    rcases hcases key' entry' h' with ⟨rfl, rfl⟩ | ⟨hne, hold⟩
    · rw [if_pos rfl, List.map_append, createdAt_set]
      cases hexisting : w.store.data.lookup key' with
      | none => exact List.mem_append_right _ List.mem_cons_self
      | some existing => exact List.mem_append_left _ (h.created key' existing hexisting)
    · rw [if_neg hne]
      exact h.created key' entry' hold
  · dsimp only at hnone hlast ⊢
    rw [lookup_set] at hnone
    split_ifs at hnone with hne
    rw [hhistory, if_neg (Ne.symm hne)] at hlast
    exact Setting.not_lasts_of_le (h.missing key' hnone setting hlast) hnow

theorem Faithful.delete (h : w.Faithful calendar) (hnow : w.clock ≤ now) (key : String) :
    Faithful calendar { store := (w.store.delete key).2, clock := now,
                        history := w.history ++ [(now, .delete key)] } := by
  have hhistory : ∀ key', settings key' (w.history ++ [(now, .delete key)]) =
      if key = key' then [] else settings key' w.history :=
    fun key' => settings_concat key' w.history now _
  have hold : ∀ key' entry', (w.store.delete key).2.data.lookup key' = some entry' →
      key ≠ key' ∧ w.store.data.lookup key' = some entry' := by
    intro key' entry' h'
    rw [KvStore.delete, Table.lookup_erase] at h'
    split_ifs at h' with hne
    exact ⟨Ne.symm hne, h'⟩
  refine ⟨h.clock.trans hnow, fun key' entry' h' => h.ends key' entry' (hold key' entry' h').2,
    fun key' entry' h' => h.key key' entry' (hold key' entry' h').2, fun key' entry' h' => ?_,
    fun key' entry' h' => ?_, fun key' hnone setting hlast => ?_⟩
  · obtain ⟨hne, hentry⟩ := hold key' entry' h'
    dsimp only
    rw [hhistory, if_neg hne, h.shown key' entry' hentry]
  · obtain ⟨hne, hentry⟩ := hold key' entry' h'
    dsimp only
    rw [hhistory, if_neg hne]
    exact h.created key' entry' hentry
  · dsimp only at hnone hlast ⊢
    rw [hhistory] at hlast
    split_ifs at hlast with hkey
    · cases hlast
    · rw [KvStore.delete, Table.lookup_erase, if_neg (Ne.symm hkey)] at hnone
      exact Setting.not_lasts_of_le (h.missing key' hnone setting hlast) hnow

/-- What is found under a key: an entry that is there, and then nothing has changed, or nothing, and
then an entry that has expired may have been removed. -/
theorem Faithful.get (h : w.Faithful calendar) (key : String) (now : ℤ) :
    (∃ entry, w.store.data.lookup key = some entry ∧ entry.setting.lasts now = true ∧
      w.store.get calendar now key = some (some entry, w.store)) ∨
    (∃ entry, w.store.data.lookup key = some entry ∧ entry.setting.lasts now = false ∧
      w.store.get calendar now key = some (none, { data := w.store.data.erase key })) ∨
    (w.store.data.lookup key = none ∧ w.store.get calendar now key = some (none, w.store)) := by
  rw [KvStore.get]
  cases hentry : w.store.data.lookup key with
  | none => exact Or.inr (Or.inr ⟨rfl, rfl⟩)
  | some entry =>
    have hexpired := KvEntry.isExpiredAt_eq (h.ends key entry hentry) now
    dsimp only
    rw [hexpired, KvStore.evict, hentry]
    dsimp only
    rw [hexpired]
    cases hlasts : entry.setting.lasts now with
    | true => exact Or.inl ⟨entry, rfl, hlasts, rfl⟩
    | false => exact Or.inr (Or.inl ⟨entry, rfl, hlasts, rfl⟩)

/-- Every operation keeps the store faithful, if the end of every time to live is a date. -/
theorem Faithful.step (h : w.Faithful calendar) {event : ℤ × KvOp ψ} {w' : KvRun ψ}
    (hends : w.TtlsEnd calendar event) (hstep : w.step calendar event = some w') :
    w'.Faithful calendar := by
  obtain ⟨now, op⟩ := event
  rw [KvRun.step] at hstep
  split_ifs at hstep with hclock
  obtain rfl := Option.some.inj hstep
  obtain ⟨hnow, -⟩ := hclock
  cases op with
  | set key value ttl =>
    refine h.set hnow fun secs hsecs => ?_
    obtain rfl := Option.mem_def.mp hsecs
    exact hends
  | delete key => exact h.delete hnow key
  | list pre limit => exact h.keep hnow fun key => settings_concat key w.history now _
  | count => exact h.keep hnow fun key => settings_concat key w.history now _
  | get key =>
    have hkeep : Faithful calendar { store := w.store, clock := now,
                                     history := w.history ++ [(now, .get key)] } :=
      h.keep hnow fun key' => settings_concat key' w.history now _
    rcases h.get key now with ⟨entry, -, -, hget⟩ | ⟨entry, hentry, hlasts, hget⟩ | ⟨-, hget⟩
    · rw [KvStore.apply, hget]
      exact hkeep
    · rw [KvStore.apply, hget]
      exact hkeep.evict hentry hlasts
    · rw [KvStore.apply, hget]
      exact hkeep

/-! ## Answers -/

theorem Faithful.reference_eq (h : w.Faithful calendar) (hnow : w.clock ≤ now) (key : String) :
    reference w.history now key =
      ((w.store.data.lookup key).map KvEntry.setting).filter fun setting => setting.lasts now := by
  rw [reference]
  cases hentry : w.store.data.lookup key with
  | some entry => rw [h.shown key entry hentry, Option.map_some]
  | none =>
    cases hlast : (settings key w.history).getLast? with
    | none => rfl
    | some setting =>
      have hout := Setting.not_lasts_of_le (h.missing key hentry setting hlast) hnow
      rw [Option.filter_some, hout]
      rfl

theorem Faithful.getAgrees (h : w.Faithful calendar) (hnow : w.clock ≤ now) :
    w.GetAgrees calendar now := by
  intro key
  rcases h.get key now with ⟨entry, hentry, hlasts, hget⟩ | ⟨entry, hentry, hlasts, hget⟩ |
    ⟨hnone, hget⟩
  · refine ⟨_, _, hget, ?_, fun entry' hentry' => ?_⟩
    · rw [h.reference_eq hnow, hentry, Option.map_some, Option.filter_some, hlasts]
      rfl
    · obtain rfl := Option.some.inj hentry'
      exact ⟨h.key key entry hentry, h.created key entry hentry⟩
  · refine ⟨_, _, hget, ?_, fun entry' hentry' => (nomatch hentry')⟩
    rw [h.reference_eq hnow, hentry, Option.map_some, Option.filter_some, hlasts]
    rfl
  · refine ⟨_, _, hget, ?_, fun entry' hentry' => (nomatch hentry')⟩
    rw [h.reference_eq hnow, hnone]
    rfl

theorem Faithful.map_key_values (h : w.Faithful calendar) :
    w.store.data.values.map KvEntry.key = w.store.data.keys := by
  rw [Table.values, List.map_map]
  refine List.map_congr_left fun entry hentry => ?_
  exact h.key entry.1 entry.2 (AList.mem_lookup_iff.mpr hentry)

theorem Faithful.mem_listed (h : w.Faithful calendar) (hnow : w.clock ≤ now) (pre : Option String)
    (key : String) :
    key ∈ (w.store.data.values.filter (KvEntry.listed now pre)).map KvEntry.key ↔
      (reference w.history now key).isSome = true ∧ hasPrefix pre key = true := by
  rw [h.reference_eq hnow, List.mem_map]
  constructor
  · rintro ⟨entry, hmem, rfl⟩
    obtain ⟨hvalue, hlisted⟩ := List.mem_filter.mp hmem
    obtain ⟨key, hentry⟩ := Table.mem_values.mp hvalue
    obtain ⟨hlasts, hpre⟩ := (Bool.and_eq_true _ _).mp hlisted
    rw [h.key key entry hentry] at hpre ⊢
    rw [hentry, Option.map_some, Option.filter_some, hlasts]
    exact ⟨rfl, hpre⟩
  · rintro ⟨hsome, hpre⟩
    cases hentry : w.store.data.lookup key with
    | none =>
      rw [hentry] at hsome
      cases hsome
    | some entry =>
      rw [hentry, Option.map_some, Option.filter_some] at hsome
      have hlasts : entry.setting.lasts now = true := by
        by_contra hout
        rw [if_neg hout] at hsome
        cases hsome
      refine ⟨entry, List.mem_filter.mpr ⟨Table.mem_values.mpr ⟨key, hentry⟩, ?_⟩,
        h.key key entry hentry⟩
      rw [KvEntry.listed, hlasts, h.key key entry hentry, hpre]
      rfl

theorem Faithful.listAgrees (h : w.Faithful calendar) (hnow : w.clock ≤ now) :
    w.ListAgrees calendar now := by
  intro pre
  have hnodup : (w.store.data.values.map KvEntry.key).Nodup :=
    h.map_key_values ▸ w.store.data.nodupKeys
  refine ⟨(w.store.data.values.filter (KvEntry.listed now pre)).map KvEntry.key,
    (List.filter_sublist.map _).nodup hnodup, h.mem_listed hnow pre, fun values hperm => ?_⟩
  have hends : ∀ entry ∈ values, entry.TtlEnds calendar := by
    intro entry hentry
    obtain ⟨key, hlookup⟩ := Table.mem_values.mp (hperm.mem_iff.mp hentry)
    exact h.ends key entry hlookup
  have hfilter : (values.filter (KvEntry.listed now pre)).Perm
      (w.store.data.values.filter (KvEntry.listed now pre)) := hperm.filter _
  refine ⟨fun limit => ⟨_, list_eq hends now pre limit, ?_, ?_, fun entry hentry => ?_⟩, ?_⟩
  · rw [List.length_take, List.length_map, hfilter.length_eq]
  · refine ((List.take_sublist _ _).map _).nodup ((hfilter.map KvEntry.key).nodup_iff.mpr ?_)
    exact (List.filter_sublist.map _).nodup hnodup
  · have hlisted := hfilter.mem_iff.mp (List.mem_of_mem_take hentry)
    refine ⟨List.mem_map_of_mem hlisted, ?_⟩
    obtain ⟨hvalue, hshown⟩ := List.mem_filter.mp hlisted
    obtain ⟨key, hlookup⟩ := Table.mem_values.mp hvalue
    rw [h.key key entry hlookup, h.reference_eq hnow, hlookup, Option.map_some,
      Option.filter_some, if_pos ((Bool.and_eq_true _ _).mp hshown).1]
  · rintro rfl
    rw [count_eq hends, List.length_map, hfilter.length_eq]

/-! ## The result -/

/-- As long as the end of every time to live is a date, nothing panics, and the store shows the keys
that were set after their last deletion and whose time to live has not run out. -/
theorem agrees_of_reach (calendar : Calendar) {w : KvRun ψ}
    (h : (system calendar).Reach (TtlsEnd calendar) w) : w.Agrees calendar := by
  have hfaithful : w.Faithful calendar := by
    refine System.Reach.invariant (P := Faithful calendar) ?_
      (fun s event s' _ ih hΦ hs => ih.step hΦ hs) h
    exact ⟨le_rfl, fun _ _ h => (nomatch h), fun _ _ h => (nomatch h), fun _ _ h => (nomatch h),
      fun _ _ h => (nomatch h), fun _ _ _ h => (nomatch h)⟩
  exact fun now hnow _ => ⟨hfaithful.getAgrees hnow, hfaithful.listAgrees hnow⟩

/-- The bounds of the library for dates: years from -262143 to 262142, and milliseconds in 64 bits. -/
def chrono : Calendar where
  maxSeconds := 9223372036854775
  minUtc := -8334601228800000000000
  maxUtc := 8210266876799999999999
  maxSeconds_lt := by norm_num

/-- A value for a second, looked for until its time has run out, written anew and removed. -/
theorem agrees_of_reach_second : ∃ w : KvRun ℕ, (system chrono).run (TtlsEnd chrono)
    [(0, .set "k" 1 (some 1)), (1000000000, .get "k"), (1000000001, .get "k"),
      (1000000002, .set "k" 2 none), (1000000003, .delete "k"),
      (1000000003, .set "k" 3 (some 10))] = some w ∧
    reference w.history 1000000003 "k" = some ⟨3, some 10, 1000000003⟩ ∧ w.Agrees chrono := by
  have hrun : ((system chrono).run (TtlsEnd chrono)
      [(0, KvOp.set "k" 1 (some 1)), (1000000000, .get "k"), (1000000001, .get "k"),
        (1000000002, .set "k" 2 none), (1000000003, .delete "k"),
        (1000000003, .set "k" 3 (some 10))]).any (fun w : KvRun ℕ => decide
      (reference w.history 1000000003 "k" = some ⟨3, some 10, 1000000003⟩)) = true := by
    decide +kernel
  obtain ⟨w, hw, hreach, hreference⟩ := System.exists_reach_of_any hrun
  exact ⟨w, hw, of_decide_eq_true hreference, agrees_of_reach chrono hreach⟩

/-- The largest time to live that is a number of 64 bits with a sign panics, and the largest of all
has run out at once. -/
theorem not_agrees :
    (∃ w : KvRun ℕ, (system chrono).Reachable w ∧
      w.store.get chrono 0 "k" = none ∧ ¬w.Agrees chrono) ∧
    ∃ w : KvRun ℕ, (system chrono).Reachable w ∧
      (w.store.get chrono 0 "k").map Prod.fst = some none ∧
      reference w.history 0 "k" = some ⟨1, some 18446744073709551615, 0⟩ ∧
      ¬w.Agrees chrono := by
  constructor
  · have hrun : ((system chrono).run (fun _ _ => True)
        [(0, KvOp.set "k" 1 (some 9223372036854775807))]).any (fun w : KvRun ℕ =>
        decide (w.clock = 0) && (w.store.get chrono 0 "k").isNone) = true := by
      decide +kernel
    obtain ⟨w, -, hreach, hw⟩ := System.exists_reach_of_any hrun
    obtain ⟨hclock, hpanics⟩ := (Bool.and_eq_true _ _).mp hw
    have hnone := Option.isNone_iff_eq_none.mp hpanics
    refine ⟨w, hreach, hnone, fun hagrees => ?_⟩
    obtain ⟨result, store, hget, -⟩ :=
      (hagrees 0 (of_decide_eq_true hclock).le (by decide)).1 "k"
    exact nomatch hnone.symm.trans hget
  · have hrun : ((system chrono).run (fun _ _ => True)
        [(0, KvOp.set "k" 1 (some 18446744073709551615))]).any (fun w : KvRun ℕ =>
        decide (w.clock = 0 ∧ (w.store.get chrono 0 "k").map Prod.fst = some none ∧
          reference w.history 0 "k" = some ⟨1, some 18446744073709551615, 0⟩)) = true := by
      decide +kernel
    obtain ⟨w, -, hreach, hw⟩ := System.exists_reach_of_any hrun
    obtain ⟨hclock, hnone, hreference⟩ := of_decide_eq_true hw
    refine ⟨w, hreach, hnone, hreference, fun hagrees => ?_⟩
    obtain ⟨result, store, hget, hshown, -⟩ := (hagrees 0 hclock.le (by decide)).1 "k"
    rw [hget] at hnone
    obtain rfl : result = none := Option.some.inj hnone
    rw [hreference] at hshown
    cases hshown

end KvRun

end Entries

end AegisDB.KeyValue
