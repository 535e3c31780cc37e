import TermUnification.FileTree

/-! Writing to a file tree: the place that is written to gets the bytes, a path that named it for writing
reads them back, and nothing else changes. -/
namespace TermUnification.FileTree

variable (tree : FileTree) {cwd p q : Path} {bytes : ByteArray}

theorem bytes?_put (p q : Path) (bytes : ByteArray) :
    (tree.put p bytes).bytes? q = if q = p then some bytes else tree.bytes? q := by
  unfold put bytes?
  split
  next hfound =>
    -- The names of the files stay, so the file that is found is the same one.
    have hname : ((fun f : Path × ByteArray => f.1 == q) ∘ fun f => if f.1 = p then (p, bytes) else f) =
        fun f => f.1 == q := by
      funext f
      by_cases hf : f.1 = p <;> simp [hf]
    rw [List.find?_map, hname]
    cases h : tree.files.find? fun f => f.1 == q with
    | none =>
      have hq : q ≠ p := by
        rintro rfl
        simp [h] at hfound
      simp [hq]
    | some f =>
      have hf : f.1 = q := by simpa using List.find?_some h
      by_cases hq : q = p <;> simp [hf, hq]
  next hmissing =>
    have hnone : tree.files.find? (fun f => f.1 == p) = none := by
      rwa [Bool.not_eq_true, Option.isSome_eq_false_iff, Option.isNone_map,
        Option.isNone_iff_eq_none] at hmissing
    rw [List.find?_append]
    by_cases hq : q = p
    · simp [hq, hnone]
    · simp [hq, Ne.symm hq]

@[simp] theorem bytes?_put_self : (tree.put p bytes).bytes? p = some bytes := by simp [bytes?_put]

theorem bytes?_put_of_ne (h : q ≠ p) : (tree.put p bytes).bytes? q = tree.bytes? q := by
  simp [bytes?_put, h]

@[simp] theorem dirs_put : (tree.put p bytes).dirs = tree.dirs := by
  unfold put
  split <;> rfl

variable {tree}

theorem hasDirectory_put (h : tree.hasDirectory q = true) : (tree.put p bytes).hasDirectory q = true := by
  have hnames : ∀ f ∈ tree.files, ∃ g ∈ (tree.put p bytes).files, g.1 = f.1 := by
    intro f hf
    unfold put
    split
    · exact ⟨_, List.mem_map_of_mem hf, by split <;> simp_all⟩
    · exact ⟨f, List.mem_append_left _ hf, rfl⟩
  simp only [hasDirectory, dirs_put, Bool.or_eq_true, List.any_eq_true] at h ⊢
  refine h.imp_right ?_
  rintro ⟨f, hf, hprefix⟩
  obtain ⟨g, hg, hname⟩ := hnames f hf
  exact ⟨g, hg, hname ▸ hprefix⟩

theorem entry_put_self : (tree.put p bytes).entry p = .file p := by simp [entry]

/-- Directories stay where nothing is written. -/
theorem entry_put_of_directory (h : tree.entry q = .directory q) (hq : q ≠ p) :
    (tree.put p bytes).entry q = .directory q := by
  unfold entry at h ⊢
  rw [bytes?_put_of_ne tree hq]
  split at h
  · simp at h
  next hfile =>
    split at h
    next hdir =>
      have hdir' : (q.isEmpty || (tree.put p bytes).hasDirectory q) = true := by
        simp only [Bool.or_eq_true] at hdir ⊢
        exact hdir.imp_right hasDirectory_put
      rw [if_neg hfile, if_pos hdir']
    · simp at h

theorem entry_cases (tree : FileTree) (q : Path) :
    tree.entry q = .file q ∨ tree.entry q = .directory q ∨ tree.entry q = .missing q := by
  unfold entry
  split
  · exact .inl rfl
  · split
    · exact .inr (.inl rfl)
    · exact .inr (.inr rfl)

/-- Is this the target of a place that can be written to: a file, or none yet? -/
def Target.IsPlace (t : Target) (p : Path) : Prop := t = .file p ∨ t = .missing p

theorem Target.IsPlace.path_eq {t : Target} (h : t.IsPlace p) (h' : t.IsPlace q) : p = q := by
  rcases h with rfl | rfl <;> simpa [IsPlace, eq_comm] using h'

theorem foldlM_enter_cons {s t : Target} {name : String} {names : List String} :
    (name :: names).foldlM tree.enter s = .ok t ↔
      ∃ mid, tree.enter s name = .ok mid ∧ names.foldlM tree.enter mid = .ok t := by
  rw [List.foldlM_cons]
  cases tree.enter s name with
  | error cause => simp [bind, Except.bind]
  | ok mid => simp [bind, Except.bind]

/-- From a place, there is nothing to go through. -/
theorem foldlM_enter_of_isPlace {t t' : Target} (h : t.IsPlace q) {names : List String}
    (hw : names.foldlM tree.enter t = .ok t') : names = [] ∧ t' = t := by
  cases names with
  | nil => exact ⟨rfl, (Except.ok.inj hw).symm⟩
  | cons name names =>
    obtain ⟨mid, hmid, -⟩ := foldlM_enter_cons.1 hw
    rcases h with rfl | rfl <;> simp [enter] at hmid

/-- One step leads to the same directory in all trees, or to the entry at one place. -/
theorem enter_cases {s mid : Target} {name : String} (h : tree.enter s name = .ok mid) :
    ((∀ q, ¬ mid.IsPlace q) ∧ ∀ other : FileTree, other.enter s name = .ok mid) ∨
      ∃ q, tree.entry q = mid ∧ ∀ other : FileTree, other.enter s name = .ok (other.entry q) := by
  cases s with
  | file path => simp [enter] at h
  | missing path => simp [enter] at h
  | directory path =>
    by_cases hstay : name = "" ∨ name = "."
    · obtain rfl : .directory path = mid := by simpa [enter, hstay] using h
      exact .inl ⟨by simp [Target.IsPlace], fun other => by simp [enter, hstay]⟩
    · by_cases hup : name = ".."
      · subst hup
        obtain rfl : .directory path.dropLast = mid := by simpa [enter] using h
        exact .inl ⟨by simp [Target.IsPlace], fun other => by simp [enter]⟩
      · obtain rfl : tree.entry (path ++ [name]) = mid := by simpa [enter, hstay, hup] using h
        exact .inr ⟨path ++ [name], rfl, fun other => by simp [enter, hstay, hup]⟩

/-- The way to a place from a directory ends with its entry, and it leads to a file there once one has been
written. -/
theorem foldlM_enter_put {names : List String} {s t : Target} (ht : t.IsPlace p)
    (hs : ∀ q, ¬ s.IsPlace q) (hw : names.foldlM tree.enter s = .ok t) :
    tree.entry p = t ∧ names.foldlM (tree.put p bytes).enter s = .ok (.file p) := by
  induction names generalizing s with
  | nil =>
    obtain rfl := Except.ok.inj hw
    exact absurd ht (hs p)
  | cons name names ih =>
    rw [foldlM_enter_cons] at hw ⊢
    obtain ⟨mid, hmid, hrest⟩ := hw
    obtain ⟨hmid, hstep⟩ | ⟨q, rfl, hstep⟩ := enter_cases hmid
    · obtain ⟨hentry, hput⟩ := ih hmid hrest
      exact ⟨hentry, mid, hstep _, hput⟩
    · have place (hq : (tree.entry q).IsPlace q) : tree.entry p = t ∧
          names.foldlM (tree.put p bytes).enter ((tree.put p bytes).entry q) = .ok (.file p) := by
        obtain ⟨rfl, rfl⟩ := foldlM_enter_of_isPlace hq hrest
        obtain rfl := hq.path_eq ht
        exact ⟨rfl, congrArg Except.ok entry_put_self⟩
      obtain ⟨hentry, hput⟩ : tree.entry p = t ∧
          names.foldlM (tree.put p bytes).enter ((tree.put p bytes).entry q) = .ok (.file p) := by
        obtain hq | hq | hq := entry_cases tree q
        · exact place (.inl hq)
        · -- The way goes on from a directory, and it does not end there.
          obtain ⟨hentry, hput⟩ := ih (by simp [hq, Target.IsPlace]) hrest
          have hne : q ≠ p := by
            rintro rfl
            obtain rfl := hq.symm.trans hentry
            simp [Target.IsPlace] at ht
          rw [hq] at hput
          rw [entry_put_of_directory hq hne]
          exact ⟨hentry, hput⟩
        · exact place (.inr hq)
      exact ⟨hentry, _, hstep _, hput⟩

/-- A path is followed in the same way in all trees, from the root or from the working directory. -/
theorem resolve_eq (cwd : Path) (names : List String) :
    (∀ tree : FileTree, tree.resolve cwd names = .error .notFound) ∨
      ∃ start rest, ∀ tree : FileTree,
        tree.resolve cwd names = List.foldlM tree.enter (.directory start) rest := by
  cases names with
  | nil => exact .inl fun _ => rfl
  | cons name names =>
    by_cases hname : name = ""
    · subst hname
      cases names with
      | nil => exact .inl fun _ => rfl
      | cons next names => exact .inr ⟨[], next :: names, fun _ => rfl⟩
    · exact .inr ⟨cwd, name :: names, fun tree => by simp [resolve, hname]⟩

theorem resolve_put {names : List String} {t : Target} (ht : t.IsPlace p)
    (h : tree.resolve cwd names = .ok t) :
    (tree.put p bytes).resolve cwd names = .ok (.file p) := by
  obtain hnone | ⟨start, rest, hall⟩ := resolve_eq cwd names
  · simp [hnone] at h
  · rw [hall] at h ⊢
    exact (foldlM_enter_put ht (by simp [Target.IsPlace]) h).2

/-- A path that names a place for writing leads there. -/
theorem resolve_of_placeFor {path : String} (h : tree.placeFor cwd path = .ok p) :
    ∃ t, t.IsPlace p ∧ tree.resolve cwd (components path) = .ok t := by
  unfold placeFor at h
  simp only [bind, Except.bind, pure, Except.pure, throw, throwThe, MonadExceptOf.throw] at h
  split at h
  · simp at h
  · split at h
    · simp at h
    · -- A path that ends in a slash names no place.
      split at h
      · simp at h
      · split at h <;> simp at h
    · cases hr : tree.resolve cwd (components path) with
      | error cause => simp [hr] at h
      | ok t =>
        simp only [hr] at h
        cases t with
        | file q => exact ⟨_, .inl (congrArg Target.file (Except.ok.inj h)), rfl⟩
        | missing q => exact ⟨_, .inr (congrArg Target.missing (Except.ok.inj h)), rfl⟩
        | directory q => simp at h

/-- What was written to a path is read back from it. -/
theorem readText_put {path text : String} (h : tree.placeFor cwd path = .ok p) :
    (tree.put p text.toUTF8).readText cwd path = .ok text := by
  obtain ⟨t, ht, hresolve⟩ := resolve_of_placeFor h
  have htext : String.fromUTF8? text.toByteArray = some text := dif_pos text.isValidUTF8
  simp [readText, resolve_put ht hresolve, htext, bind, Except.bind, pure, Except.pure]

end TermUnification.FileTree
