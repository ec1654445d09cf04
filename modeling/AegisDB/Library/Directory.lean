import Mathlib.Tactic

/-!
# Directories

A directory is a list of files and directories with their names.  A directory is copied into another
one item by item, where the contents of files are converted, and the copy ends at the first item
that cannot be copied.  `Directory.fileAt_copyInto` says what a copy that does not fail has written,
and `Directory.copyInto_eq_iff` when a copy has changed nothing.
-/

namespace AegisDB

/-- The entries of a directory, with the contents of files. -/
inductive Directory (β : Type*) where
  | nil
  | file (name : String) (contents : β) (rest : Directory β)
  | dir (name : String) (sub rest : Directory β)
deriving DecidableEq

namespace Directory

variable {α β ε : Type*}

/-- What is under a name: a file or a directory. -/
def find (name : String) : Directory β → Option (β ⊕ Directory β)
  | nil => none
  | file n contents rest => if n = name then some (.inl contents) else find name rest
  | dir n sub rest => if n = name then some (.inr sub) else find name rest

def cons (name : String) : β ⊕ Directory β → Directory β → Directory β
  | .inl contents, rest => file name contents rest
  | .inr sub, rest => dir name sub rest

/-- Put an item under a name, in the place of the one there is or at the end. -/
def put (name : String) (item : β ⊕ Directory β) : Directory β → Directory β
  | nil => cons name item nil
  | file n contents rest =>
      if n = name then cons n item rest else file n contents (put name item rest)
  | dir n sub rest => if n = name then cons n item rest else dir n sub (put name item rest)

/-- No two entries of a directory have one name. -/
def nodup : Directory β → Bool
  | nil => true
  | file n _ rest => (rest.find n).isNone && rest.nodup
  | dir n sub rest => (rest.find n).isNone && sub.nodup && rest.nodup

/-- What is at a path. -/
def nodeAt (t : Directory β) : List String → Option (β ⊕ Directory β)
  | [] => some (.inr t)
  | n :: path =>
      match t.find n with
      | some (.inl contents) => if path = [] then some (.inl contents) else none
      | some (.inr sub) => nodeAt sub path
      | none => none

def fileAt (t : Directory β) (path : List String) : Option β :=
  (t.nodeAt path).bind fun item => item.getLeft?

/-! ## Items under names -/

section Find

variable {t : Directory β} {n m : String} {item : β ⊕ Directory β} {q : List String}

theorem find_cons (rest : Directory β) :
    (cons n item rest).find m = if n = m then some item else rest.find m := by
  cases item <;> rfl

theorem find_put : (t.put n item).find m = if n = m then some item else t.find m := by
  induction t with
  | nil => exact find_cons nil
  | file k _ rest ih | dir k _ rest _ ih =>
    rw [put, find]
    by_cases hk : k = n
    · rw [if_pos hk, find_cons, hk]
      by_cases hm : n = m
      · rw [if_pos hm, if_pos hm]
      · rw [if_neg hm, if_neg hm, if_neg hm]
    · rw [if_neg hk, find, ih]
      by_cases hm : k = m
      · rw [if_pos hm, if_pos hm, if_neg fun h => hk (hm.trans h.symm)]
      · rw [if_neg hm, if_neg hm]

theorem put_of_find (h : t.find n = some item) : t.put n item = t := by
  induction t with
  | nil => cases h
  | file k contents rest ih =>
    rw [find] at h
    rw [put]
    split_ifs at h ⊢ with hk
    · rw [← Option.some.inj h]
      rfl
    · rw [ih h]
  | dir k sub rest _ ih =>
    rw [find] at h
    rw [put]
    split_ifs at h ⊢ with hk
    · rw [← Option.some.inj h]
      rfl
    · rw [ih h]

/-- Names stay different when an item is put into a directory. -/
theorem nodup_put (h : t.nodup = true) (hitem : ∀ sub, item = .inr sub → sub.nodup = true) :
    (t.put n item).nodup = true := by
  have hcons : ∀ rest : Directory β, (rest.find n).isNone = true → rest.nodup = true →
      (cons n item rest).nodup = true := by
    intro rest hfind hrest
    cases item with
    | inl contents => simp [cons, nodup, hfind, hrest]
    | inr sub => simp [cons, nodup, hfind, hrest, hitem sub rfl]
  induction t with
  | nil => exact hcons nil rfl rfl
  | file k contents rest ih =>
    simp only [nodup, Bool.and_eq_true] at h
    rw [put]
    split_ifs with hk
    · subst hk
      exact hcons rest h.1 h.2
    · rw [nodup, find_put, if_neg (Ne.symm hk), h.1, ih h.2]
      rfl
  | dir k sub rest _ ih =>
    simp only [nodup, Bool.and_eq_true] at h
    rw [put]
    split_ifs with hk
    · subst hk
      exact hcons rest h.1.1 h.2
    · rw [nodup, find_put, if_neg (Ne.symm hk), h.1.1, h.1.2, ih h.2]
      rfl

theorem nodeAt_congr {t' : Directory β} (h : t'.find n = t.find n) :
    t'.nodeAt (n :: q) = t.nodeAt (n :: q) := by
  rw [nodeAt, nodeAt, h]

theorem nodeAt_of_find_dir {sub : Directory β} (h : t.find n = some (.inr sub)) :
    t.nodeAt (n :: q) = sub.nodeAt q := by
  rw [nodeAt, h]

@[simp] theorem fileAt_nil : t.fileAt [] = none :=
  rfl

@[simp] theorem nil_fileAt : (nil : Directory β).fileAt q = none := by
  cases q <;> rfl

theorem fileAt_cons : t.fileAt (n :: q) =
    match t.find n with
    | some (.inl contents) => if q = [] then some contents else none
    | some (.inr sub) => sub.fileAt q
    | none => none := by
  rw [fileAt, nodeAt]
  cases t.find n with
  | none => rfl
  | some item =>
    cases item with
    | inl contents => by_cases hq : q = [] <;> simp [hq]
    | inr sub => rfl

theorem fileAt_congr {t' : Directory β} (h : t'.find n = t.find n) :
    t'.fileAt (n :: q) = t.fileAt (n :: q) := by
  rw [fileAt, fileAt, nodeAt_congr h]

end Find

/-! ## Copies -/

/-- Why an item cannot be copied. -/
inductive CopyError (ε : Type*) where
  | contents (path : List String) (error : ε)
  /-- There is a directory where a file is to be written. -/
  | isDirectory (path : List String)
  | isFile (path : List String)
deriving DecidableEq

/-- The directory that there is under a name, or an empty one. -/
def subOf : Option (β ⊕ Directory β) → Directory β
  | some (.inr sub) => sub
  | _ => nil

/-- Copy a directory into another one, until an item cannot be copied. -/
def copyInto (f : List String → α → Except ε β) :
    List String → Directory α → Directory β → Directory β × Option (CopyError ε)
  | _, nil, t => (t, none)
  | path, file n contents rest, t =>
      match f (path ++ [n]) contents, t.find n with
      | .error e, _ => (t, some (.contents (path ++ [n]) e))
      | .ok _, some (.inr _) => (t, some (.isDirectory (path ++ [n])))
      | .ok b, _ => copyInto f path rest (t.put n (.inl b))
  | path, dir n sub rest, t =>
      match t.find n with
      | some (.inl _) => (t, some (.isFile (path ++ [n])))
      | found =>
          match copyInto f (path ++ [n]) sub (subOf found) with
          | (new, some e) => (t.put n (.inr new), some e)
          | (new, none) => copyInto f path rest (t.put n (.inr new))

section Copy

variable {f : List String → α → Except ε β} {path q : List String} {src rest : Directory α}
  {t : Directory β} {n m : String}

theorem copyInto_file (f : List String → α → Except ε β) (path : List String) (contents : α)
    (rest : Directory α) (t : Directory β) (n : String) :
    (∃ e, f (path ++ [n]) contents = .error e ∧
      copyInto f path (file n contents rest) t = (t, some (.contents (path ++ [n]) e))) ∨
    (∃ b sub, f (path ++ [n]) contents = .ok b ∧ t.find n = some (.inr sub) ∧
      copyInto f path (file n contents rest) t = (t, some (.isDirectory (path ++ [n])))) ∨
    ∃ b, f (path ++ [n]) contents = .ok b ∧ (∀ sub, t.find n ≠ some (.inr sub)) ∧
      copyInto f path (file n contents rest) t = copyInto f path rest (t.put n (.inl b)) := by
  rw [copyInto]
  cases hf : f (path ++ [n]) contents with
  | error e => exact .inl ⟨e, rfl, rfl⟩
  | ok b =>
    cases hfind : t.find n with
    | none => exact .inr (.inr ⟨b, rfl, nofun, rfl⟩)
    | some item =>
      cases item with
      | inl old => exact .inr (.inr ⟨b, rfl, nofun, rfl⟩)
      | inr sub => exact .inr (.inl ⟨b, sub, rfl, rfl, rfl⟩)

theorem copyInto_dir (f : List String → α → Except ε β) (path : List String)
    (sub rest : Directory α) (t : Directory β) (n : String) :
    (∃ old, t.find n = some (.inl old) ∧
      copyInto f path (dir n sub rest) t = (t, some (.isFile (path ++ [n])))) ∨
    ((∀ old, t.find n ≠ some (.inl old)) ∧ ∃ new e,
      copyInto f (path ++ [n]) sub (subOf (t.find n)) = (new, some e) ∧
      copyInto f path (dir n sub rest) t = (t.put n (.inr new), some e)) ∨
    ((∀ old, t.find n ≠ some (.inl old)) ∧ ∃ new,
      copyInto f (path ++ [n]) sub (subOf (t.find n)) = (new, none) ∧
      copyInto f path (dir n sub rest) t = copyInto f path rest (t.put n (.inr new))) := by
  have hcopy : ∀ found, (∀ old, found ≠ some (.inl old)) →
      (∃ new e, copyInto f (path ++ [n]) sub (subOf found) = (new, some e)) ∨
        ∃ new, copyInto f (path ++ [n]) sub (subOf found) = (new, none) := by
    intro found _
    obtain ⟨new, e | e⟩ := copyInto f (path ++ [n]) sub (subOf found)
    · exact .inr ⟨new, rfl⟩
    · exact .inl ⟨new, e, rfl⟩
  rw [copyInto]
  cases hfind : t.find n with
  | none =>
    rcases hcopy none nofun with ⟨new, e, h⟩ | ⟨new, h⟩
    · exact .inr (.inl ⟨nofun, new, e, h, by simp only [h]⟩)
    · exact .inr (.inr ⟨nofun, new, h, by simp only [h]⟩)
  | some item =>
    cases item with
    | inl old => exact .inl ⟨old, rfl, rfl⟩
    | inr old =>
      rcases hcopy (some (.inr old)) nofun with ⟨new, e, h⟩ | ⟨new, h⟩
      · exact .inr (.inl ⟨nofun, new, e, h, by simp only [h]⟩)
      · exact .inr (.inr ⟨nofun, new, h, by simp only [h]⟩)

theorem find_copyInto (h : src.find m = none) :
    (copyInto f path src t).1.find m = t.find m := by
  induction src generalizing t path with
  | nil => rfl
  | file n contents rest ih =>
    rw [find] at h
    split_ifs at h with hn
    rcases copyInto_file f path contents rest t n with
      ⟨e, -, heq⟩ | ⟨b, sub, -, -, heq⟩ | ⟨b, -, -, heq⟩
    · rw [heq]
    · rw [heq]
    · rw [heq, ih h, find_put, if_neg hn]
  | dir n sub rest _ ih =>
    rw [find] at h
    split_ifs at h with hn
    rcases copyInto_dir f path sub rest t n with
      ⟨old, -, heq⟩ | ⟨-, new, e, -, heq⟩ | ⟨-, new, -, heq⟩
    · rw [heq]
    · rw [heq, find_put, if_neg hn]
    · rw [heq, ih h, find_put, if_neg hn]

theorem nodup_subOf {item : Option (β ⊕ Directory β)}
    (h : ∀ sub, item = some (.inr sub) → sub.nodup = true) : (subOf item).nodup = true := by
  match item with
  | none => rfl
  | some (.inl _) => rfl
  | some (.inr sub) => exact h sub rfl

theorem nodup_of_find {sub : Directory β} (ht : t.nodup = true)
    (h : t.find n = some (.inr sub)) : sub.nodup = true := by
  induction t with
  | nil => cases h
  | file k contents rest ih =>
    rw [nodup, Bool.and_eq_true] at ht
    rw [find] at h
    split_ifs at h
    · cases h
    · exact ih ht.2 h
  | dir k sub' rest _ ih =>
    rw [nodup, Bool.and_eq_true, Bool.and_eq_true] at ht
    rw [find] at h
    split_ifs at h
    · cases h
      exact ht.1.2
    · exact ih ht.2 h

/-- Names stay different in a directory that is copied into. -/
theorem nodup_copyInto (ht : t.nodup = true) : (copyInto f path src t).1.nodup = true := by
  induction src generalizing t path with
  | nil => exact ht
  | file n contents rest ih =>
    rcases copyInto_file f path contents rest t n with
      ⟨e, -, heq⟩ | ⟨b, sub, -, -, heq⟩ | ⟨b, -, -, heq⟩
    · rw [heq]
      exact ht
    · rw [heq]
      exact ht
    · rw [heq]
      exact ih (nodup_put ht fun _ h => nomatch h)
  | dir n sub rest ihsub ih =>
    have hold : (subOf (t.find n)).nodup = true :=
      nodup_subOf fun sub hsub => nodup_of_find ht hsub
    have hcopied : (copyInto f (path ++ [n]) sub (subOf (t.find n))).1.nodup = true := ihsub hold
    rcases copyInto_dir f path sub rest t n with
      ⟨old, -, heq⟩ | ⟨-, new, e, hnew, heq⟩ | ⟨-, new, hnew, heq⟩
    · rw [heq]
      exact ht
    · rw [heq]
      rw [hnew] at hcopied
      exact nodup_put ht fun sub' hsub' => Sum.inr.inj hsub' ▸ hcopied
    · rw [heq]
      rw [hnew] at hcopied
      exact ih (nodup_put ht fun sub' hsub' => Sum.inr.inj hsub' ▸ hcopied)

/-- A copy that does not fail has written the files, and left the others as they were. -/
theorem fileAt_copyInto (hsrc : src.nodup = true) (h : (copyInto f path src t).2 = none)
    (q : List String) :
    (∃ contents b, src.fileAt q = some contents ∧ f (path ++ q) contents = .ok b ∧
      (copyInto f path src t).1.fileAt q = some b) ∨
    src.fileAt q = none ∧ (copyInto f path src t).1.fileAt q = t.fileAt q := by
  induction src generalizing t path q with
  | nil => exact .inr ⟨nil_fileAt, rfl⟩
  | file n contents rest ih =>
    rw [nodup, Bool.and_eq_true, Option.isNone_iff_eq_none] at hsrc
    rcases copyInto_file f path contents rest t n with
      ⟨e, -, heq⟩ | ⟨b, sub, -, -, heq⟩ | ⟨b, hb, hfind, heq⟩
    · rw [heq] at h
      cases h
    · rw [heq] at h
      cases h
    · rw [heq] at h ⊢
      cases q with
      | nil => exact .inr ⟨rfl, rfl⟩
      | cons m q =>
        by_cases hm : n = m
        · subst hm
          have hput : (copyInto f path rest (t.put n (.inl b))).1.find n = some (.inl b) := by
            rw [find_copyInto hsrc.1, find_put, if_pos rfl]
          rw [fileAt_cons, fileAt_cons, hput, find, if_pos rfl]
          by_cases hq : q = []
          · subst hq
            exact .inl ⟨contents, b, rfl, hb, rfl⟩
          · -- below the file there is nothing before it either
            have hbelow : t.fileAt (n :: q) = none := by
              rw [fileAt_cons]
              match hn : t.find n with
              | none => rfl
              | some (.inl old) => simp [hq]
              | some (.inr sub) => exact absurd hn (hfind sub)
            rw [hbelow]
            simp [hq]
        · have hrest : (file n contents rest).fileAt (m :: q) = rest.fileAt (m :: q) :=
            fileAt_congr (by rw [find, if_neg hm])
          have ht : (t.put n (.inl b)).fileAt (m :: q) = t.fileAt (m :: q) :=
            fileAt_congr (by rw [find_put, if_neg hm])
          rw [hrest, ← ht]
          exact ih hsrc.2 h (m :: q)
  | dir n sub rest ihsub ih =>
    rw [nodup, Bool.and_eq_true, Bool.and_eq_true, Option.isNone_iff_eq_none] at hsrc
    obtain ⟨⟨hfree, hsub⟩, hrest⟩ := hsrc
    rcases copyInto_dir f path sub rest t n with
      ⟨old, -, heq⟩ | ⟨-, new, e, -, heq⟩ | ⟨hfind, new, hnew, heq⟩
    · rw [heq] at h
      cases h
    · rw [heq] at h
      cases h
    · rw [heq] at h ⊢
      cases q with
      | nil => exact .inr ⟨rfl, rfl⟩
      | cons m q =>
        by_cases hm : n = m
        · subst hm
          have hold : t.fileAt (n :: q) = (subOf (t.find n)).fileAt q := by
            rw [fileAt_cons]
            match hn : t.find n with
            | none => exact nil_fileAt.symm
            | some (.inl old) => exact absurd hn (hfind old)
            | some (.inr old) => rfl
          have hput : (copyInto f path rest (t.put n (.inr new))).1.find n = some (.inr new) := by
            rw [find_copyInto hfree, find_put, if_pos rfl]
          have hcopied := ihsub hsub (congrArg Prod.snd hnew) q
          rw [hnew, List.append_assoc] at hcopied
          rw [fileAt_cons, fileAt_cons, hput, find, if_pos rfl, hold]
          exact hcopied
        · have hrest' : (dir n sub rest).fileAt (m :: q) = rest.fileAt (m :: q) :=
            fileAt_congr (by rw [find, if_neg hm])
          have ht : (t.put n (.inr new)).fileAt (m :: q) = t.fileAt (m :: q) :=
            fileAt_congr (by rw [find_put, if_neg hm])
          rw [hrest', ← ht]
          exact ih hrest h (m :: q)

end Copy

/-! ## Parts of a directory -/

/-- The directories of some names that a directory has, before other entries. -/
def dirsOf (names : List String) (t rest : Directory β) : Directory β :=
  match names with
  | [] => rest
  | name :: names =>
      match t.find name with
      | some (.inr sub) => dir name sub (dirsOf names t rest)
      | _ => dirsOf names t rest

/-- The files of some names that a directory has. -/
def filesOf (names : List String) (t : Directory β) : Directory β :=
  match names with
  | [] => nil
  | name :: names =>
      match t.find name with
      | some (.inl contents) => file name contents (filesOf names t)
      | _ => filesOf names t

section Parts

variable {t rest : Directory β} {names : List String} {m : String} {q : List String}

theorem find_dirsOf : (dirsOf names t rest).find m =
    match t.find m with
    | some (.inr sub) => if m ∈ names then some (.inr sub) else rest.find m
    | _ => rest.find m := by
  induction names with
  | nil =>
    rw [dirsOf]
    match t.find m with
    | none => rfl
    | some (.inl contents) => rfl
    | some (.inr sub) => rfl
  | cons name names ih =>
    rw [dirsOf]
    by_cases hm : name = m
    · subst hm
      match hfind : t.find name with
      | none => simpa [hfind] using ih
      | some (.inl contents) => simpa [hfind] using ih
      | some (.inr sub) => simp [find]
    · have hmem : m ∈ name :: names ↔ m ∈ names := by simp [Ne.symm hm]
      have hskip : (match t.find name with
          | some (.inr sub) => dir name sub (dirsOf names t rest)
          | _ => dirsOf names t rest).find m = (dirsOf names t rest).find m := by
        match t.find name with
        | none => rfl
        | some (.inl contents) => rfl
        | some (.inr sub) => exact if_neg hm
      rw [hskip, ih]
      simp only [hmem]

theorem find_filesOf : (filesOf names t).find m =
    match t.find m with
    | some (.inl contents) => if m ∈ names then some (.inl contents) else none
    | _ => none := by
  induction names with
  | nil =>
    rw [filesOf]
    match t.find m with
    | none => rfl
    | some (.inl contents) => rfl
    | some (.inr sub) => rfl
  | cons name names ih =>
    rw [filesOf]
    by_cases hm : name = m
    · subst hm
      match hfind : t.find name with
      | none => simpa [hfind] using ih
      | some (.inr sub) => simpa [hfind] using ih
      | some (.inl contents) => simp [find]
    · have hmem : m ∈ name :: names ↔ m ∈ names := by simp [Ne.symm hm]
      have hskip : (match t.find name with
          | some (.inl contents) => file name contents (filesOf names t)
          | _ => filesOf names t).find m = (filesOf names t).find m := by
        match t.find name with
        | none => rfl
        | some (.inl contents) => exact if_neg hm
        | some (.inr sub) => rfl
      rw [hskip, ih]
      simp only [hmem]

theorem nodup_filesOf (hnames : names.Nodup) : (filesOf names t).nodup = true := by
  induction names with
  | nil => rfl
  | cons name names ih =>
    obtain ⟨hname, hnames⟩ := List.nodup_cons.1 hnames
    rw [filesOf]
    match hfind : t.find name with
    | none => exact ih hnames
    | some (.inr sub) => exact ih hnames
    | some (.inl contents) =>
      have hfree : (filesOf names t).find name = none := by
        rw [find_filesOf, hfind]
        exact if_neg hname
      simp [nodup, hfree, ih hnames]

theorem nodup_dirsOf (ht : t.nodup = true) (hnames : names.Nodup) (hrest : rest.nodup = true)
    (hfree : ∀ name ∈ names, rest.find name = none) : (dirsOf names t rest).nodup = true := by
  induction names with
  | nil => exact hrest
  | cons name names ih =>
    obtain ⟨hname, hnames⟩ := List.nodup_cons.1 hnames
    obtain ⟨hfirst, hfree⟩ := List.forall_mem_cons.1 hfree
    rw [dirsOf]
    match hfind : t.find name with
    | none => exact ih hnames hfree
    | some (.inl contents) => exact ih hnames hfree
    | some (.inr sub) =>
      have hfree' : (dirsOf names t rest).find name = none := by
        rw [find_dirsOf, hfind]
        exact (if_neg hname).trans hfirst
      simp [nodup, hfree', nodup_of_find ht hfind, ih hnames hfree]

end Parts

/-! ## Copies that change nothing -/

/-- The items of a directory, in the order in which they are copied. -/
def items : Directory α → List (List String × Option α)
  | nil => []
  | file n contents rest => ([n], some contents) :: items rest
  | dir n sub rest =>
      ([n], none) :: ((items sub).map fun x => (n :: x.1, x.2)) ++ items rest

/-- Whether an item can be copied. -/
def doable (f : List String → α → Except ε β) (path : List String) (t : Directory β) :
    List String × Option α → Bool
  | (q, some contents) => (f (path ++ q) contents).isOk &&
      match t.nodeAt q with
      | some (.inr _) => false
      | _ => true
  | (q, none) =>
      match t.nodeAt q with
      | some (.inl _) => false
      | _ => true

/-- Whether an item is there as it would be copied. -/
def InPlace (f : List String → α → Except ε β) (path : List String) (t : Directory β) :
    List String × Option α → Prop
  | (q, some contents) => ∃ b, f (path ++ q) contents = .ok b ∧ t.nodeAt q = some (.inl b)
  | (q, none) => ∃ sub, t.nodeAt q = some (.inr sub)

section Items

variable {f : List String → α → Except ε β} {path : List String} {src sub rest : Directory α}
  {t old : Directory β} {n : String} {x : List String × Option α}

/-- The path of an item begins with a name that the directory has. -/
theorem head_of_mem_items (h : x ∈ src.items) : ∃ m q, x.1 = m :: q ∧ src.find m ≠ none := by
  induction src with
  | nil => cases h
  | file k contents rest ih =>
    rcases List.mem_cons.1 h with rfl | h
    · exact ⟨k, [], rfl, by simp [find]⟩
    · obtain ⟨m, q, hx, hm⟩ := ih h
      refine ⟨m, q, hx, ?_⟩
      rw [find]
      split_ifs
      · simp
      · exact hm
  | dir k sub rest _ ih =>
    rw [items, List.cons_append, List.mem_cons, List.mem_append, List.mem_map] at h
    rcases h with rfl | ⟨y, -, rfl⟩ | h
    · exact ⟨k, [], rfl, by simp [find]⟩
    · exact ⟨k, y.1, rfl, by simp [find]⟩
    · obtain ⟨m, q, hx, hm⟩ := ih h
      refine ⟨m, q, hx, ?_⟩
      rw [find]
      split_ifs
      · simp
      · exact hm

theorem doable_put (hfree : rest.find n = none) (item : β ⊕ Directory β) (hx : x ∈ rest.items) :
    doable f path (t.put n item) x = doable f path t x := by
  obtain ⟨m, q, hq, hm⟩ := head_of_mem_items hx
  obtain ⟨q', c⟩ := x
  obtain rfl : q' = m :: q := hq
  have hnode : (t.put n item).nodeAt (m :: q) = t.nodeAt (m :: q) :=
    nodeAt_congr (by rw [find_put, if_neg (by rintro rfl; exact hm hfree)])
  cases c with
  | none => rw [doable, doable, hnode]
  | some contents => rw [doable, doable, hnode]

/-- An item of a directory below can be copied just if it can be copied there. -/
theorem doable_cons (hfind : ∀ c, t.find n ≠ some (.inl c)) :
    doable f path t (n :: x.1, x.2) = doable f (path ++ [n]) (subOf (t.find n)) x ∨ x.1 = [] := by
  obtain ⟨q, c⟩ := x
  cases q with
  | nil => exact .inr rfl
  | cons m q =>
    left
    have hnode : t.nodeAt (n :: m :: q) = (subOf (t.find n)).nodeAt (m :: q) ∨
        t.nodeAt (n :: m :: q) = none ∧ (subOf (t.find n)).nodeAt (m :: q) = none := by
      match hn : t.find n with
      | none => exact .inr ⟨by rw [nodeAt, hn], rfl⟩
      | some (.inl c) => exact absurd hn (hfind c)
      | some (.inr old) => exact .inl (nodeAt_of_find_dir hn)
    have hsame : t.nodeAt (n :: m :: q) = (subOf (t.find n)).nodeAt (m :: q) :=
      hnode.elim id fun h => h.1.trans h.2.symm
    have hpath : path ++ n :: m :: q = path ++ [n] ++ m :: q := by simp
    cases c with
    | none => rw [doable, doable, hsame]
    | some contents => rw [doable, doable, hsame, hpath]

theorem doable_map (hfind : ∀ c, t.find n ≠ some (.inl c)) (hx : x ∈ sub.items) :
    doable f path t (n :: x.1, x.2) = doable f (path ++ [n]) (subOf (t.find n)) x := by
  obtain ⟨m, q, hq, -⟩ := head_of_mem_items hx
  exact (doable_cons hfind).resolve_right (by rw [hq]; simp)

theorem inPlace_dir (hfind : t.find n = some (.inr old)) :
    InPlace f path t (n :: x.1, x.2) ↔ InPlace f (path ++ [n]) old x := by
  obtain ⟨q, c⟩ := x
  have hpath : path ++ n :: q = path ++ [n] ++ q := by simp
  cases c with
  | none => rw [InPlace, InPlace, nodeAt_of_find_dir hfind]
  | some contents => rw [InPlace, InPlace, nodeAt_of_find_dir hfind, hpath]

/-- A file can be copied just if it can be converted and there is no directory in its place. -/
theorem doable_file_iff {contents : α} : doable f path t ([n], some contents) = true ↔
    (∃ b, f (path ++ [n]) contents = .ok b) ∧ ∀ sub, t.find n ≠ some (.inr sub) := by
  have hnode : t.nodeAt [n] = t.find n := by
    rw [nodeAt]
    match t.find n with
    | none => rfl
    | some (.inl c) => rfl
    | some (.inr sub) => rfl
  rw [doable, hnode, Bool.and_eq_true]
  refine and_congr ?_ ?_
  · cases f (path ++ [n]) contents with
    | error e => simp [Except.isOk, Except.toBool]
    | ok b => simp [Except.isOk, Except.toBool]
  · match t.find n with
    | none => simp
    | some (.inl c) => simp
    | some (.inr sub) => simp

theorem doable_dir_iff : doable f path t ([n], none) = true ↔
    ∀ c, t.find n ≠ some (.inl c) := by
  rw [doable, nodeAt]
  match t.find n with
  | none => simp
  | some (.inl c) => simp
  | some (.inr sub) => simp [nodeAt]

theorem forall_items_dir {p : List String × Option α → Prop} :
    (∀ x ∈ (dir n sub rest).items, p x) ↔
      p ([n], none) ∧ (∀ x ∈ sub.items, p (n :: x.1, x.2)) ∧ ∀ x ∈ rest.items, p x := by
  rw [items, List.cons_append, List.forall_mem_cons, List.forall_mem_append, List.forall_mem_map]

theorem copyInto_succeeds_iff (hsrc : src.nodup = true) :
    (copyInto f path src t).2 = none ↔ ∀ x ∈ src.items, doable f path t x = true := by
  induction src generalizing t path with
  | nil => simp [copyInto, items]
  | file n contents rest ih =>
    rw [nodup, Bool.and_eq_true, Option.isNone_iff_eq_none] at hsrc
    rw [items, List.forall_mem_cons, doable_file_iff]
    rcases copyInto_file f path contents rest t n with
      ⟨e, hf, heq⟩ | ⟨b, sub, -, hfind, heq⟩ | ⟨b, hf, hfind, heq⟩
    · rw [heq]
      exact iff_of_false (by simp) fun h => by simp [hf] at h
    · rw [heq]
      exact iff_of_false (by simp) fun h => h.1.2 sub hfind
    · rw [heq, ih hsrc.2, and_iff_right ⟨⟨b, hf⟩, hfind⟩]
      exact forall₂_congr fun x hx => by rw [doable_put hsrc.1 _ hx]
  | dir n sub rest ihsub ih =>
    rw [nodup, Bool.and_eq_true, Bool.and_eq_true, Option.isNone_iff_eq_none] at hsrc
    obtain ⟨⟨hfree, hsub⟩, hrest⟩ := hsrc
    rw [forall_items_dir, doable_dir_iff]
    rcases copyInto_dir f path sub rest t n with
      ⟨old, hfind, heq⟩ | ⟨hfind, new, e, hnew, heq⟩ | ⟨hfind, new, hnew, heq⟩
    · rw [heq]
      exact iff_of_false (by simp) fun h => h.1 old hfind
    · have hfails := @ihsub (path ++ [n]) (subOf (t.find n)) hsub
      rw [hnew] at hfails
      rw [heq]
      refine iff_of_false (by simp) fun h => ?_
      have hbelow := hfails.2 fun x hx => by rw [← doable_map hfind hx, h.2.1 x hx]
      cases hbelow
    · have hcopied := @ihsub (path ++ [n]) (subOf (t.find n)) hsub
      rw [hnew] at hcopied
      have hbelow : ∀ x ∈ sub.items, doable f path t (n :: x.1, x.2) = true :=
        fun x hx => by rw [doable_map hfind hx, hcopied.1 rfl x hx]
      rw [heq, ih hrest, and_iff_right hfind, and_iff_right hbelow]
      exact forall₂_congr fun x hx => by rw [doable_put hfree _ hx]

theorem put_ne_of_find_none {item : β ⊕ Directory β} (h : t.find n = none) : t.put n item ≠ t := by
  intro heq
  rw [← heq, find_put, if_pos rfl] at h
  cases h

theorem put_eq_iff {item item' : β ⊕ Directory β} (h : t.find n = some item) :
    t.put n item' = t ↔ item' = item := by
  constructor
  · intro heq
    rw [← heq, find_put, if_pos rfl] at h
    exact Option.some.inj h
  · rintro rfl
    exact put_of_find h

theorem not_inPlace_of_find_none (h : t.find n = none) : ¬InPlace f path t ([n], none) := by
  rintro ⟨old, hold⟩
  rw [nodeAt, h] at hold
  cases hold

theorem forall_takeWhile_append {γ : Type*} {p : γ → Bool} {r : γ → Prop} {l₁ l₂ : List γ} :
    (∀ x ∈ (l₁ ++ l₂).takeWhile p, r x) ↔
      (∀ x ∈ l₁.takeWhile p, r x) ∧
        ((∀ x ∈ l₁, p x = true) → ∀ x ∈ l₂.takeWhile p, r x) := by
  induction l₁ with
  | nil => simp
  | cons y l₁ ih =>
    rw [List.cons_append, List.takeWhile_cons, List.takeWhile_cons]
    by_cases hy : p y = true
    · rw [if_pos hy, if_pos hy, List.forall_mem_cons, List.forall_mem_cons, List.forall_mem_cons,
        ih, and_iff_right hy, and_assoc]
    · rw [if_neg hy, if_neg hy]
      simp [hy]

theorem takeWhile_congr {γ : Type*} {p p' : γ → Bool} {l : List γ} (h : ∀ x ∈ l, p x = p' x) :
    l.takeWhile p = l.takeWhile p' := by
  induction l with
  | nil => rfl
  | cons y l ih =>
    rw [List.forall_mem_cons] at h
    rw [List.takeWhile_cons, List.takeWhile_cons, h.1, ih h.2]

theorem forall_takeWhile_below (hfind : t.find n = some (.inr old)) :
    (∀ x ∈ (sub.items.map fun x => (n :: x.1, x.2)).takeWhile (doable f path t),
        InPlace f path t x) ↔
      ∀ x ∈ sub.items.takeWhile (doable f (path ++ [n]) old), InPlace f (path ++ [n]) old x := by
  have hsame : ∀ x ∈ sub.items,
      (doable f path t ∘ fun x => (n :: x.1, x.2)) x = doable f (path ++ [n]) old x := by
    intro x hx
    have h : doable f path t (n :: x.1, x.2) = doable f (path ++ [n]) (subOf (t.find n)) x :=
      doable_map (by rw [hfind]; nofun) hx
    rwa [hfind] at h
  rw [List.takeWhile_map, List.forall_mem_map, takeWhile_congr hsame]
  exact forall₂_congr fun x _ => inPlace_dir hfind

/-- A copy changes nothing just if the items before the first that cannot be copied are there as
they would be copied. -/
theorem copyInto_eq_iff (hsrc : src.nodup = true) :
    (copyInto f path src t).1 = t ↔
      ∀ x ∈ src.items.takeWhile (doable f path t), InPlace f path t x := by
  induction src generalizing t path with
  | nil => simp [copyInto, items]
  | file n contents rest ih =>
    rw [nodup, Bool.and_eq_true, Option.isNone_iff_eq_none] at hsrc
    have hstop : doable f path t ([n], some contents) = false →
        (t = t ↔ ∀ x ∈ (file n contents rest).items.takeWhile (doable f path t),
          InPlace f path t x) := by
      intro hdo
      rw [items, List.takeWhile_cons, hdo]
      simp
    rcases copyInto_file f path contents rest t n with
      ⟨e, hf, heq⟩ | ⟨b, sub, hf, hfind, heq⟩ | ⟨b, hf, hfind, heq⟩
    · rw [heq]
      refine hstop (Bool.eq_false_iff.2 fun h => ?_)
      simpa [hf] using (doable_file_iff.1 h).1
    · rw [heq]
      exact hstop (Bool.eq_false_iff.2 fun h => (doable_file_iff.1 h).2 sub hfind)
    · have hdo : doable f path t ([n], some contents) = true := doable_file_iff.2 ⟨⟨b, hf⟩, hfind⟩
      rw [heq, items, List.takeWhile_cons, if_pos hdo, List.forall_mem_cons]
      by_cases hb : t.find n = some (.inl b)
      · -- the file is as it would be written
        rw [put_of_find hb, ih hsrc.2, and_iff_right ⟨b, hf, by rw [nodeAt, hb]; rfl⟩]
      · refine iff_of_false (fun h => hb ?_) ?_
        · rw [← h, find_copyInto hsrc.1, find_put, if_pos rfl]
        · rintro ⟨⟨b', hf', hnode⟩, -⟩
          rw [nodeAt] at hnode
          match hn : t.find n with
          | none => simp [hn] at hnode
          | some (.inr sub) => exact hfind sub hn
          | some (.inl old) =>
            rw [hf, Except.ok.injEq] at hf'
            rw [hn, hf'] at hb
            simp [hn] at hnode
            exact hb (by rw [hnode])
  | dir n sub rest ihsub ih =>
    rw [nodup, Bool.and_eq_true, Bool.and_eq_true, Option.isNone_iff_eq_none] at hsrc
    obtain ⟨⟨hfree, hsub⟩, hrest⟩ := hsrc
    rw [items, List.cons_append, List.takeWhile_cons]
    rcases copyInto_dir f path sub rest t n with
      ⟨c, hfind, heq⟩ | ⟨hfind, new, e, hnew, heq⟩ | ⟨hfind, new, hnew, heq⟩
    · have hdo : doable f path t ([n], none) = false :=
        Bool.eq_false_iff.2 fun h => doable_dir_iff.1 h c hfind
      rw [heq, hdo]
      simp
    · have hdo : doable f path t ([n], none) = true := doable_dir_iff.2 hfind
      rw [heq, if_pos hdo, List.forall_mem_cons, forall_takeWhile_append]
      match hn : t.find n with
      | some (.inl c) => exact absurd hn (hfind c)
      | none =>
        exact iff_of_false (put_ne_of_find_none hn) fun h => not_inPlace_of_find_none hn h.1
      | some (.inr old) =>
        rw [hn] at hnew
        have hsame := @ihsub (path ++ [n]) old hsub
        rw [show copyInto f (path ++ [n]) sub old = (new, some e) from hnew] at hsame
        have hfails : ¬∀ x ∈ sub.items, doable f (path ++ [n]) old x = true := by
          intro h
          have h := (copyInto_succeeds_iff hsub).2 h
          rw [show copyInto f (path ++ [n]) sub old = (new, some e) from hnew] at h
          cases h
        have hbelow : ¬∀ x ∈ sub.items.map fun x => (n :: x.1, x.2), doable f path t x = true := by
          intro h
          refine hfails fun x hx => ?_
          have hx' := List.forall_mem_map.1 h x hx
          rw [doable_map hfind hx, hn] at hx'
          exact hx'
        have hhead : InPlace f path t ([n], none) := ⟨old, by rw [nodeAt, hn]; rfl⟩
        rw [and_iff_right hhead, forall_takeWhile_below hn, ← hsame,
          and_iff_left fun h => absurd h hbelow, put_eq_iff hn]
        exact ⟨fun h => Sum.inr.inj h, fun h => congrArg Sum.inr h⟩
    · have hdo : doable f path t ([n], none) = true := doable_dir_iff.2 hfind
      rw [heq, if_pos hdo, List.forall_mem_cons, forall_takeWhile_append]
      have hfound : (copyInto f path rest (t.put n (.inr new))).1.find n = some (.inr new) := by
        rw [find_copyInto hfree, find_put, if_pos rfl]
      match hn : t.find n with
      | some (.inl c) => exact absurd hn (hfind c)
      | none =>
        refine iff_of_false (fun h => ?_) fun h => not_inPlace_of_find_none hn h.1
        rw [h, hn] at hfound
        cases hfound
      | some (.inr old) =>
        rw [hn] at hnew
        have hsame := @ihsub (path ++ [n]) old hsub
        have hdone := (@copyInto_succeeds_iff _ _ _ f (path ++ [n]) sub old hsub).1
        rw [show copyInto f (path ++ [n]) sub old = (new, none) from hnew] at hsame hdone
        have hbelow : ∀ x ∈ sub.items.map fun x => (n :: x.1, x.2), doable f path t x = true := by
          refine List.forall_mem_map.2 fun x hx => ?_
          rw [doable_map hfind hx, hn]
          exact hdone rfl x hx
        have hhead : InPlace f path t ([n], none) := ⟨old, by rw [nodeAt, hn]; rfl⟩
        rw [and_iff_right hhead, forall_takeWhile_below hn, ← hsame]
        constructor
        · intro h
          -- what is under the name in the end was there before
          rw [h, hn] at hfound
          obtain rfl : old = new := Sum.inr.inj (Option.some.inj hfound)
          rw [put_of_find hn] at h
          exact ⟨rfl, fun _ => (ih hrest).1 h⟩
        · rintro ⟨hnew', hall⟩
          obtain rfl : new = old := hnew'
          rw [put_of_find hn]
          exact (ih hrest).2 (hall hbelow)

theorem fileAt_of_mem_items {contents : α} {q : List String} (hsrc : src.nodup = true)
    (h : (q, some contents) ∈ src.items) : src.fileAt q = some contents := by
  induction src generalizing q with
  | nil => cases h
  | file k c rest ih =>
    rw [nodup, Bool.and_eq_true, Option.isNone_iff_eq_none] at hsrc
    rcases List.mem_cons.1 h with heq | h
    · cases heq
      rw [fileAt_cons, find, if_pos rfl]
      rfl
    · obtain ⟨m, q', hq, hm⟩ := head_of_mem_items h
      obtain rfl : q = m :: q' := hq
      have hne : k ≠ m := by
        rintro rfl
        exact hm hsrc.1
      rw [← ih hsrc.2 h]
      exact fileAt_congr (by rw [find, if_neg hne])
  | dir k sub rest ihsub ih =>
    rw [nodup, Bool.and_eq_true, Bool.and_eq_true, Option.isNone_iff_eq_none] at hsrc
    obtain ⟨⟨hfree, hsub⟩, hrest⟩ := hsrc
    rw [items, List.cons_append, List.mem_cons, List.mem_append, List.mem_map] at h
    rcases h with heq | ⟨y, hy, heq⟩ | h
    · cases heq
    · obtain ⟨q', c⟩ := y
      cases heq
      rw [fileAt_cons, find, if_pos rfl]
      exact ihsub hsub hy
    · obtain ⟨m, q', hq, hm⟩ := head_of_mem_items h
      obtain rfl : q = m :: q' := hq
      have hne : k ≠ m := by
        rintro rfl
        exact hm hfree
      rw [← ih hrest h]
      exact fileAt_congr (by rw [find, if_neg hne])

end Items

end Directory

/-- A directory whose entries have different names. -/
structure Folder (β : Type*) where
  entries : Directory β
  nodup : entries.nodup = true
deriving DecidableEq

namespace Folder

variable {α β ε : Type*}

def empty : Folder β where
  entries := .nil
  nodup := rfl

/-- Copy a directory into another one, until an item cannot be copied. -/
def copyInto (f : List String → α → Except ε β) (src : Folder α) (t : Folder β) :
    Folder β × Option (Directory.CopyError ε) :=
  (⟨(Directory.copyInto f [] src.entries t.entries).1, Directory.nodup_copyInto t.nodup⟩,
    (Directory.copyInto f [] src.entries t.entries).2)

end Folder

end AegisDB
