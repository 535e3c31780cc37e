import TermUnification.Proofs.ArgumentPositions
import TermUnification.Proofs.Effects

/-! The arguments by their grammar. They are read in one way as options with their operands, up to the first
argument that starts none. It decides what is asked for, and if there is no such argument, the last value of
each option does. Arguments after others have the options before them as defaults. The settings of a run
come from its options, the trace variable and the settings file, in this order. -/
namespace TermUnification

namespace Options
open OptionGroup

/-- Options, with defaults from those before them. -/
def withDefaults (o before : Options) : Options where
  output := o.output.or before.output
  config := o.config.or before.config
  trace := o.trace.or before.trace
  occursCheck := o.occursCheck || before.occursCheck

/-- What options ask for: the last value of each that has one, and the occurs-check if it is among them. -/
def asked (gs : List OptionGroup) : Options where
  output := (gs.filterMap outputFile?).getLast?
  config := (gs.filterMap configFile?).getLast?
  trace := (gs.filterMap traceLevel?).getLast?
  occursCheck := decide (.occursCheck ∈ gs)

theorem foldl_apply (o : Options) (gs : List OptionGroup) :
    gs.foldl apply o = (asked gs).withDefaults o := by
  rw [Options.mk.injEq]
  exact ⟨output_foldl_apply o gs, config_foldl_apply o gs, trace_foldl_apply o gs,
    occursCheck_foldl_apply o gs⟩

@[simp] theorem withDefaults_none (o : Options) : o.withDefaults .none = o := by
  simp [withDefaults, Options.none]

/-- No option stands at the front of the arguments. -/
def StartsNoGroup (args : List String) : Prop :=
  ∀ (g : OptionGroup) (words rest : List String), g.Written words → g.MayPrecede rest → args ≠ words ++ rest

/-- The option at the front of arguments, and the arguments after it. -/
def front? : List String → Option (OptionGroup × List String)
  | [] => .none
  | arg :: rest =>
    match Flag.ofText? arg, rest with
    | some .output, file :: rest => some (.output file, rest)
    | some .config, file :: rest => some (.config file, rest)
    | some .trace, [] => some (.trace .none, [])
    | some .trace, next :: more =>
      match byte? next.toList with
      | some n => some (.trace (some n), more)
      | .none => some (.trace .none, next :: more)
    | some .occursCheck, rest => some (.occursCheck, rest)
    | _, _ => .none

theorem front?_append {g : OptionGroup} {words args : List String} (written : g.Written words)
    (before : g.MayPrecede args) : front? (words ++ args) = some (g, args) := by
  cases written with
  | output hflag file => simp [front?, Flag.ofText?_eq_some_iff.2 hflag]
  | config hflag file => simp [front?, Flag.ofText?_eq_some_iff.2 hflag]
  | level hflag hlevel => simp [front?, Flag.ofText?_eq_some_iff.2 hflag, hlevel]
  | bare hflag =>
    cases args with
    | nil => simp [front?, Flag.ofText?_eq_some_iff.2 hflag]
    | cons next args => simp [front?, Flag.ofText?_eq_some_iff.2 hflag, before rfl next rfl]
  | occursCheck hflag => simp [front?, Flag.ofText?_eq_some_iff.2 hflag]

theorem startsNoGroup_of_front? {args : List String} (h : front? args = .none) : StartsNoGroup args := by
  intro g words rest written before heq
  rw [heq, front?_append written before] at h
  cases h

theorem Settles.startsNoGroup {args : List String} {r : Request} (h : Settles args r) :
    StartsNoGroup args := by
  apply startsNoGroup_of_front?
  cases h with
  | help hflag rest => simp [front?, Flag.ofText?_eq_some_iff.2 hflag]
  | version hflag rest => simp [front?, Flag.ofText?_eq_some_iff.2 hflag]
  | noOutput hflag => simp [front?, Flag.ofText?_eq_some_iff.2 hflag]
  | noConfig hflag => simp [front?, Flag.ofText?_eq_some_iff.2 hflag]
  | unknown harg rest => simp [front?, Flag.ofText?_eq_none_iff.2 harg]

/-- There is one way to read arguments up to the first one that starts no option. -/
theorem Reads.unique {args rest rest' : List String} {gs gs' : List OptionGroup}
    (h : Reads args gs rest) (h' : Reads args gs' rest') (hrest : StartsNoGroup rest)
    (hrest' : StartsNoGroup rest') : gs' = gs ∧ rest' = rest := by
  induction h generalizing gs' with
  | none rest =>
    cases h' with
    | none => exact ⟨rfl, rfl⟩
    | option written before _ => exact absurd rfl (hrest _ _ _ written before)
  | @option g words args rest gs written before _ ih =>
    generalize hall : words ++ args = all at h'
    cases h' with
    | none => exact absurd hall.symm (hrest' _ _ _ written before)
    | option written' before' tail' =>
      -- The arguments are the same, and so is the option at their front.
      have hfront := front?_append written before
      rw [hall, front?_append written' before'] at hfront
      obtain ⟨rfl, rfl⟩ := Prod.mk.inj (Option.some.inj hfront)
      obtain ⟨rfl, rfl⟩ := ih tail' hrest
      exact ⟨rfl, rfl⟩

theorem startsNoGroup_iff {args : List String} : StartsNoGroup args ↔ args = [] ∨ ∃ r, Settles args r := by
  constructor
  · intro h
    obtain ⟨gs, rest, hreads, hrest⟩ := readable args
    cases hreads with
    | none => exact hrest
    | option written before _ => exact absurd rfl (h _ _ _ written before)
  · rintro (rfl | ⟨r, hsettles⟩)
    · exact startsNoGroup_of_front? rfl
    · exact hsettles.startsNoGroup

theorem Reads.read_eq_asked {args : List String} {gs : List OptionGroup} (h : Reads args gs []) :
    Options.none.read args = .run (asked gs) := by
  rw [h.read_eq, read, foldl_apply, withDefaults_none]

/-- The outcome of a reading up to the first argument that starts no option. -/
theorem Reads.outcome {args rest : List String} {gs : List OptionGroup} (h : Reads args gs rest)
    (hrest : StartsNoGroup rest) :
    rest = [] ∧ Options.none.read args = .run (asked gs) ∨ Settles rest (Options.none.read args) := by
  obtain rfl | ⟨r, hsettles⟩ := startsNoGroup_iff.1 hrest
  · exact .inl ⟨rfl, h.read_eq_asked⟩
  · exact .inr (by rwa [h.read_eq, hsettles.read_eq])

theorem read_eq_run_asked_iff {o : Options} {args : List String} :
    Options.none.read args = .run o ↔ ∃ gs, Reads args gs [] ∧ asked gs = o := by
  simp only [read_eq_run_iff, foldl_apply, withDefaults_none]

end Options

/-- A request whose options have defaults from those before them. -/
def Request.withDefaults : Request → Options → Request
  | run o, before => .run (o.withDefaults before)
  | r, _ => r

namespace Options
open OptionGroup

/-- Does reading the arguments end with a trace option whose level is left out? -/
def EndsInBareTrace (args : List String) : Prop := ∃ gs, Reads args (gs ++ [.trace .none]) []

/-- Is the first argument a level? -/
def StartsWithLevel (args : List String) : Prop := ∃ next ∈ args.head?, (byte? next.toList).isSome

instance (args : List String) : Decidable (StartsWithLevel args) :=
  inferInstanceAs (Decidable (∃ next ∈ args.head?, (byte? next.toList).isSome))

theorem Reads.eq_nil {gs : List OptionGroup} (h : Reads [] gs []) : gs = [] :=
  have hnil : StartsNoGroup [] := startsNoGroup_of_front? rfl
  ((Reads.none []).unique h hnil hnil).1

theorem mayPrecede_append {g : OptionGroup} {args : List String} (h : g.MayPrecede args)
    (hne : args ≠ []) (ys : List String) : g.MayPrecede (args ++ ys) := by
  intro hg next hnext
  rw [List.head?_append_of_ne_nil args hne] at hnext
  exact h hg next hnext

/-- Options are read as before in front of arguments that the last one may precede. -/
theorem Reads.append {xs : List String} {gs : List OptionGroup} (h : Reads xs gs []) {ys : List String}
    (hys : ∀ g ∈ gs.getLast?, g.MayPrecede ys) : Reads (xs ++ ys) gs ys := by
  generalize hend : ([] : List String) = rest at h
  induction h with
  | none rest =>
    subst hend
    exact .none ys
  | @option g words args rest gs written before tail ih =>
    subst hend
    rw [List.append_assoc]
    refine .option written ?_ (ih (fun g' hg' => hys g' ?_) rfl)
    -- Only the last option comes to stand before the further arguments.
    · by_cases hargs : args = []
      · subst hargs
        obtain rfl := tail.eq_nil
        exact hys g rfl
      · exact mayPrecede_append before hargs ys
    · rw [Option.mem_def] at hg' ⊢
      rw [List.getLast?_cons, hg', Option.getD_some]

/-- What is asked for already is a default for what the arguments ask for. -/
theorem read_withDefaults (o : Options) (args : List String) :
    o.read args = (Options.none.read args).withDefaults o := by
  obtain ⟨gs, rest, hreads, hrest⟩ := readable args
  rw [hreads.read_eq, hreads.read_eq]
  obtain rfl | ⟨r, hsettles⟩ := hrest
  · rw [read, read, foldl_apply, foldl_apply, withDefaults_none, Request.withDefaults]
  · rw [hsettles.read_eq, hsettles.read_eq]
    cases hsettles <;> rfl

theorem read_append_of_run {o : Options} {xs ys : List String} (hxs : Options.none.read xs = .run o)
    (hys : ¬ (EndsInBareTrace xs ∧ StartsWithLevel ys)) :
    Options.none.read (xs ++ ys) = (Options.none.read ys).withDefaults o := by
  obtain ⟨gs, hreads, rfl⟩ := read_eq_run_asked_iff.1 hxs
  have hlast : ∀ g ∈ gs.getLast?, g.MayPrecede ys := by
    rintro g hg rfl next hnext
    by_contra hlevel
    obtain ⟨before, rfl⟩ := List.getLast?_eq_some_iff.1 hg
    exact hys ⟨⟨before, hreads⟩, next, hnext, Option.isSome_iff_ne_none.2 hlevel⟩
  rw [(hreads.append hlast).read_eq, foldl_apply, withDefaults_none, read_withDefaults]

/-- What the settings of a run are, when it starts from some settings: the level comes from the last trace
option, or else from the trace variable, or else stays, and the occurs-check is on when an option or the
settings to start from ask for it. -/
structure Effective (gs : List OptionGroup) (value : Option String) (base s : Settings) : Prop where
  byOption : ∀ level ∈ (gs.filterMap traceLevel?).getLast?, s.traceLevel = level
  byVariable : gs.filterMap traceLevel? = [] → ∀ text ∈ value,
    s.traceLevel = (byte? (Text.trim text.toList)).getD 1
  byFile : gs.filterMap traceLevel? = [] → value = .none → s.traceLevel = base.traceLevel
  occursCheck : s.occursCheck = true ↔ .occursCheck ∈ gs ∨ base.occursCheck = true

theorem level_eq_iff {gs : List OptionGroup} {value : Option String} {base level : UInt8} :
    level = ((asked gs).trace.or (variableLevel value)).getD base ↔
      (∀ last ∈ (gs.filterMap traceLevel?).getLast?, level = last) ∧
      (gs.filterMap traceLevel? = [] → ∀ text ∈ value, level = (byte? (Text.trim text.toList)).getD 1) ∧
      (gs.filterMap traceLevel? = [] → value = .none → level = base) := by
  cases hlast : (gs.filterMap traceLevel?).getLast? with
  | none =>
    have hnil := List.getLast?_eq_none_iff.1 hlast
    cases value <;> simp [asked, hnil, variableLevel]
  | some n =>
    have hne : gs.filterMap traceLevel? ≠ [] := fun hnil => by simp [hnil] at hlast
    simp [asked, hlast, hne]

theorem check_eq_iff {gs : List OptionGroup} {base check : Bool} :
    check = ((asked gs).occursCheck || base) ↔ (check = true ↔ .occursCheck ∈ gs ∨ base = true) := by
  rw [asked, Bool.eq_iff_iff, Bool.or_eq_true, decide_eq_true_iff]

theorem effective_iff {gs : List OptionGroup} {value : Option String} {base s : Settings} :
    Effective gs value base s ↔ s = (asked gs).refine value base := by
  obtain ⟨level, check⟩ := s
  rw [refine, Settings.mk.injEq, level_eq_iff, check_eq_iff]
  constructor
  · rintro ⟨byOption, byVariable, byFile, occursCheck⟩
    exact ⟨⟨byOption, byVariable, byFile⟩, occursCheck⟩
  · rintro ⟨⟨byOption, byVariable, byFile⟩, occursCheck⟩
    exact ⟨byOption, byVariable, byFile, occursCheck⟩

section Settings

variable (read : String → Except Settings.Failure Settings) (tree : FileTree) (cwd : Path)

/-- The settings that a run starts from: those in the file that its options name, or the defaults. -/
def StartsFrom : Option String → Settings → Prop
  | .none, base => base = .default
  | some path, base => ∃ text, tree.readText cwd path = .ok text ∧ read text = .ok base

theorem onTree_settings_iff {gs : List OptionGroup} {value : Option String} {s : Settings} :
    (CommandLine.onTree tree cwd (CommandLine.settings read (asked gs) value)).1 = .ok s ↔
      ∃ base, StartsFrom read tree cwd (asked gs).config base ∧ Effective gs value base s := by
  simp only [effective_iff]
  unfold CommandLine.settings
  cases (asked gs).config with
  | none => simp [StartsFrom, eq_comm]
  | some path =>
    rw [CommandLine.onTree_bind, CommandLine.onTree_loadBy, CommandLine.onTree_pure]
    cases htext : tree.readText cwd path with
    | error cause => simp [StartsFrom, htext, Except.map]
    | ok text => cases hread : read text <;> simp [StartsFrom, htext, hread, Except.map, eq_comm]

end Settings

/-- Arguments are read by their grammar. The reading by position comes to one end, never astray. There is one
way to read them as options up to the first argument that starts none, and that decides the outcome. Further
arguments have the options before them as defaults, unless the first of them is a level for a trace option
that has none. The settings come from the options, the trace variable and the settings file, whichever way
files are read as settings. -/
theorem read_grammar (args : List String) :
    (∀ all : List String, all.tail = args → ∀ e : Ending,
      Runs all ⟨1, .none⟩ e ↔ e = .request (Options.none.read args)) ∧
    (∃! reading : List OptionGroup × List String,
      Reads args reading.1 reading.2 ∧ StartsNoGroup reading.2) ∧
    (∀ gs rest, Reads args gs rest → StartsNoGroup rest →
      rest = [] ∧ Options.none.read args = .run (asked gs) ∨ Settles rest (Options.none.read args)) ∧
    (∀ o ys, Options.none.read args = .run o → ¬ (EndsInBareTrace args ∧ StartsWithLevel ys) →
      Options.none.read (args ++ ys) = (Options.none.read ys).withDefaults o) ∧
    ∀ gs o, Reads args gs [] → Options.none.read args = .run o →
      ∀ (read : String → Except Settings.Failure Settings) (tree : FileTree) (cwd : Path)
        (value : Option String) (s : Settings),
      (CommandLine.onTree tree cwd (CommandLine.settings read o value)).1 = .ok s ↔
        ∃ base, StartsFrom read tree cwd o.config base ∧ Effective gs value base s := by
  refine ⟨?_, ?_, fun gs rest h hrest => h.outcome hrest, fun o ys hxs hys => read_append_of_run hxs hys, ?_⟩
  · rintro all rfl e
    rw [runs_iff, Cursor.request, List.drop_one]
  · obtain ⟨gs, rest, hreads, hrest⟩ := readable args
    have hstarts := startsNoGroup_iff.2 hrest
    refine ⟨(gs, rest), ⟨hreads, hstarts⟩, ?_⟩
    rintro ⟨gs', rest'⟩ ⟨hreads', hstarts'⟩
    obtain ⟨rfl, rfl⟩ := hreads.unique hreads' hstarts hstarts'
    rfl
  · intro gs o hreads ho read tree cwd value s
    obtain rfl := Request.run.inj (ho.symm.trans hreads.read_eq_asked)
    exact onTree_settings_iff read tree cwd

/-- An operand may look like an option, and a numeral that does not fit a byte is no level. The trace variable, with
the white space around its numeral taken off, counts when there is no trace option. -/
theorem read_grammar_operands :
    let args := ["-o", "--help", "--trace", "--occurs-check", "-o", "out", "--trace"]
    let gs : List OptionGroup :=
      [.output "--help", .trace .none, .occursCheck, .output "out", .trace .none]
    let o : Options := ⟨some "out", .none, some 1, true⟩
    let untraced := ["-o", "--trace", "--occurs-check"]
    let hs : List OptionGroup := [.output "--trace", .occursCheck]
    let p : Options := ⟨some "--trace", .none, .none, true⟩
    Runs ("unific" :: args) ⟨1, .none⟩ (.request (.run o)) ∧
    (∃! reading : List OptionGroup × List String,
      Reads args reading.1 reading.2 ∧ StartsNoGroup reading.2) ∧
    Options.none.read args = .run (asked gs) ∧
    Options.none.read (args ++ ["-c", "a", "--trace", "+9", "--trace", "256"]) =
      .refused (.unknown "256") ∧
    Options.none.read (args ++ ["-c", "a", "--trace", "+9"]) = .run ⟨some "out", some "a", some 9, true⟩ ∧
    (CommandLine.onTree ⟨[], []⟩ [] (CommandLine.settings Settings.ofText o (some " 2 "))).1 =
      .ok ⟨1, true⟩ ∧
    Reads untraced hs [] ∧ Options.none.read untraced = .run p ∧
    (CommandLine.onTree ⟨[], []⟩ [] (CommandLine.settings Settings.ofText p (some "\u00a0\t2 \n"))).1 =
      .ok ⟨2, true⟩ := by
  intro args gs o untraced hs p
  have hread : Options.none.read args = .run o := by decide
  have hreads : Reads args gs [] :=
    .option (.output (by decide) "--help") nofun (.option (.bare (by decide)) (by decide)
      (.option (.occursCheck (by decide)) nofun (.option (.output (by decide) "out") nofun
        (.option (.bare (by decide)) (by decide) (.none [])))))
  have hreads' : Reads untraced hs [] :=
    .option (.output (by decide) "--trace") nofun (.option (.occursCheck (by decide)) nofun (.none []))
  obtain ⟨hruns, hone, houtcome, happend, hsettings⟩ := read_grammar args
  refine ⟨(hruns ("unific" :: args) rfl _).2 (by rw [hread]), hone,
    ((houtcome gs [] hreads (startsNoGroup_iff.2 (.inl rfl))).resolve_right nofun).2, ?_, ?_, ?_, hreads',
    by decide, ?_⟩
  · exact happend o _ hread (fun h => absurd h.2 (by decide))
  · exact happend o _ hread (fun h => absurd h.2 (by decide))
  · have hstarts : StartsFrom Settings.ofText ⟨[], []⟩ [] o.config .default := rfl
    have heffective : Effective gs (some " 2 ") .default ⟨1, true⟩ :=
      ⟨fun _ hlast => Option.some.inj hlast, nofun, nofun, by decide⟩
    exact (hsettings gs o hreads hread Settings.ofText ⟨[], []⟩ [] (some " 2 ") ⟨1, true⟩).2
      ⟨.default, hstarts, heffective⟩
  · have heffective : Effective hs (some "\u00a0\t2 \n") .default ⟨2, true⟩ := by
      refine ⟨nofun, fun _ text htext => ?_, nofun, by decide⟩
      obtain rfl := Option.some.inj htext
      decide
    obtain ⟨-, -, -, -, hsettings'⟩ := read_grammar untraced
    exact (hsettings' hs p hreads' (by decide) Settings.ofText ⟨[], []⟩ [] _ ⟨2, true⟩).2
      ⟨.default, rfl, heffective⟩

end Options

end TermUnification
