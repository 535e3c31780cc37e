import Mathlib.Tactic.SplitIfs
import TermUnification.CommandLine
import TermUnification.Proofs.LastWrite

/-! The grammar of the arguments: options with their operands, one after the other, up to the end or to an
argument that settles what is asked for. A run is asked for exactly when there are only options. -/
namespace TermUnification

/-- The ways to write an option. -/
def Flag.spellings : Flag → List String
  | help => ["-h", "--help"]
  | version => ["-v", "--version"]
  | output => ["-o", "--output"]
  | config => ["-c", "--config"]
  | trace => ["--trace"]
  | occursCheck => ["--occurs-check"]

theorem Flag.ofText?_eq_some_iff {text : String} {f : Flag} :
    Flag.ofText? text = some f ↔ text ∈ f.spellings := by
  constructor
  · intro h
    unfold ofText? at h
    split_ifs at h with h1 h2 h3 h4 h5 h6 <;> obtain rfl := Option.some.inj h <;>
      simpa [spellings]
  · intro h
    cases f <;> simp only [spellings, List.mem_cons, List.not_mem_nil, or_false] at h
    all_goals rcases h with rfl | rfl <;> decide

theorem Flag.ofText?_eq_none_iff {text : String} :
    Flag.ofText? text = none ↔ ∀ f : Flag, text ∉ f.spellings := by
  simp only [Option.eq_none_iff_forall_ne_some, ne_eq, ofText?_eq_some_iff]

/-- An option with its operand. The level of a trace option may be left out. -/
inductive OptionGroup where
  | output (file : String)
  | config (file : String)
  | trace (level : Option UInt8)
  | occursCheck
  deriving DecidableEq, Repr

namespace OptionGroup

/-- The arguments that give an option with its operand. -/
inductive Written : OptionGroup → List String → Prop
  | output {flag : String} (hflag : flag ∈ Flag.output.spellings) (file : String) :
    Written (output file) [flag, file]
  | config {flag : String} (hflag : flag ∈ Flag.config.spellings) (file : String) :
    Written (config file) [flag, file]
  | level {flag numeral : String} {n : UInt8} (hflag : flag ∈ Flag.trace.spellings)
    (hlevel : byte? numeral.toList = some n) : Written (trace (some n)) [flag, numeral]
  | bare {flag : String} (hflag : flag ∈ Flag.trace.spellings) : Written (trace none) [flag]
  | occursCheck {flag : String} (hflag : flag ∈ Flag.occursCheck.spellings) :
    Written occursCheck [flag]

/-- What an option changes about what is asked for. -/
def apply (o : Options) : OptionGroup → Options
  | output file => { o with output := some file }
  | config file => { o with config := some file }
  | trace level => { o with trace := some (level.getD 1) }
  | occursCheck => { o with occursCheck := true }

/-- The file of an output option. -/
def outputFile? : OptionGroup → Option String
  | output file => some file
  | _ => none

/-- The file of a config option. -/
def configFile? : OptionGroup → Option String
  | config file => some file
  | _ => none

/-- The level of a trace option, which is the first one if it is left out. -/
def traceLevel? : OptionGroup → Option UInt8
  | trace level => some (level.getD 1)
  | _ => none

/-- May the option stand before these arguments? After a trace option, a level belongs to it. -/
def MayPrecede (g : OptionGroup) (args : List String) : Prop :=
  g = trace none → ∀ next ∈ args.head?, byte? next.toList = none

instance (g : OptionGroup) (args : List String) : Decidable (g.MayPrecede args) :=
  inferInstanceAs (Decidable (g = trace none → ∀ next ∈ args.head?, byte? next.toList = none))

theorem output_foldl_apply (o : Options) (gs : List OptionGroup) :
    (gs.foldl apply o).output = (gs.filterMap outputFile?).getLast?.or o.output :=
  foldl_last_write Options.output (fun _ g => by cases g <;> rfl) o gs

theorem config_foldl_apply (o : Options) (gs : List OptionGroup) :
    (gs.foldl apply o).config = (gs.filterMap configFile?).getLast?.or o.config :=
  foldl_last_write Options.config (fun _ g => by cases g <;> rfl) o gs

theorem trace_foldl_apply (o : Options) (gs : List OptionGroup) :
    (gs.foldl apply o).trace = (gs.filterMap traceLevel?).getLast?.or o.trace :=
  foldl_last_write Options.trace (fun _ g => by cases g <;> rfl) o gs

theorem occursCheck_foldl_apply (o : Options) (gs : List OptionGroup) :
    (gs.foldl apply o).occursCheck = (decide (occursCheck ∈ gs) || o.occursCheck) := by
  induction gs generalizing o with
  | nil => simp
  | cons g gs ih =>
    rw [List.foldl_cons, ih]
    cases g <;> simp [apply]

end OptionGroup

namespace Options
open OptionGroup

/-- The options at the front of arguments, read from left to right, and the arguments after them. -/
inductive Reads : List String → List OptionGroup → List String → Prop
  | none (rest : List String) : Reads rest [] rest
  | option {g : OptionGroup} {words args rest : List String} {gs : List OptionGroup}
    (written : g.Written words) (before : g.MayPrecede args) (tail : Reads args gs rest) :
    Reads (words ++ args) (g :: gs) rest

/-- Arguments that do not begin with an option and its operand. What is asked for is settled by the
first one. -/
inductive Settles : List String → Request → Prop
  | help {flag : String} (hflag : flag ∈ Flag.help.spellings) (rest : List String) :
    Settles (flag :: rest) .help
  | version {flag : String} (hflag : flag ∈ Flag.version.spellings) (rest : List String) :
    Settles (flag :: rest) .version
  | noOutput {flag : String} (hflag : flag ∈ Flag.output.spellings) :
    Settles [flag] (.refused .missingOutput)
  | noConfig {flag : String} (hflag : flag ∈ Flag.config.spellings) :
    Settles [flag] (.refused .missingConfig)
  | unknown {arg : String} (harg : ∀ f : Flag, arg ∉ f.spellings) (rest : List String) :
    Settles (arg :: rest) (.refused (.unknown arg))

/-- An option at the front is read as what it changes. -/
theorem read_append {g : OptionGroup} {words args : List String} (written : g.Written words)
    (before : g.MayPrecede args) (o : Options) :
    o.read (words ++ args) = (apply o g).read args := by
  cases written with
  | output hflag file => simp [read, Flag.ofText?_eq_some_iff.2 hflag, apply]
  | config hflag file => simp [read, Flag.ofText?_eq_some_iff.2 hflag, apply]
  | level hflag hlevel => simp [read, Flag.ofText?_eq_some_iff.2 hflag, hlevel, apply]
  | bare hflag =>
    cases args with
    | nil => simp [read, Flag.ofText?_eq_some_iff.2 hflag, apply]
    | cons next args =>
      simp [read, Flag.ofText?_eq_some_iff.2 hflag, before rfl next rfl, apply]
  | occursCheck hflag =>
    cases args <;> simp [read, Flag.ofText?_eq_some_iff.2 hflag, apply]

theorem Reads.read_eq {args rest : List String} {gs : List OptionGroup} (h : Reads args gs rest)
    (o : Options) : o.read args = (gs.foldl apply o).read rest := by
  induction h generalizing o with
  | none rest => rfl
  | option written before _ ih => rw [read_append written before, ih, List.foldl_cons]

theorem Settles.read_eq {args : List String} {r : Request} (h : Settles args r) (o : Options) :
    o.read args = r := by
  cases h with
  | help hflag rest => cases rest <;> simp [read, Flag.ofText?_eq_some_iff.2 hflag]
  | version hflag rest => cases rest <;> simp [read, Flag.ofText?_eq_some_iff.2 hflag]
  | noOutput hflag => simp [read, Flag.ofText?_eq_some_iff.2 hflag]
  | noConfig hflag => simp [read, Flag.ofText?_eq_some_iff.2 hflag]
  | unknown harg rest => cases rest <;> simp [read, Flag.ofText?_eq_none_iff.2 harg]

theorem Settles.ne_run {args : List String} {r : Request} (h : Settles args r) (o : Options) :
    r ≠ .run o := by
  cases h <;> simp

/-- Can the arguments be read to their end, or to one that settles what is asked for? -/
def Readable (args : List String) : Prop :=
  ∃ gs rest, Reads args gs rest ∧ (rest = [] ∨ ∃ r, Settles rest r)

theorem Settles.readable {args : List String} {r : Request} (h : Settles args r) : Readable args :=
  ⟨[], args, .none args, .inr ⟨r, h⟩⟩

theorem Readable.append {g : OptionGroup} {words args : List String} (h : Readable args)
    (written : g.Written words) (before : g.MayPrecede args) :
    Readable (words ++ args) := by
  obtain ⟨gs, rest, hreads, hrest⟩ := h
  exact ⟨g :: gs, rest, .option written before hreads, hrest⟩

theorem readable : ∀ args : List String, Readable args
  | [] => ⟨[], [], .none [], .inl rfl⟩
  | arg :: rest => by
    cases hflag : Flag.ofText? arg with
    | none => exact (Settles.unknown (Flag.ofText?_eq_none_iff.1 hflag) rest).readable
    | some f =>
      have hf := Flag.ofText?_eq_some_iff.1 hflag
      cases f with
      | help => exact (Settles.help hf rest).readable
      | version => exact (Settles.version hf rest).readable
      | output =>
        cases rest with
        | nil => exact (Settles.noOutput hf).readable
        | cons file rest => exact (readable rest).append (.output hf file) nofun
      | config =>
        cases rest with
        | nil => exact (Settles.noConfig hf).readable
        | cons file rest => exact (readable rest).append (.config hf file) nofun
      | trace =>
        -- What follows is read on its own unless it is a level.
        cases rest with
        | nil => exact (readable []).append (.bare hf) (by simp [MayPrecede])
        | cons next rest =>
          cases hlevel : byte? next.toList with
          | none => exact (readable (next :: rest)).append (.bare hf) (by simp [MayPrecede, hlevel])
          | some n => exact (readable rest).append (.level hf hlevel) nofun
      | occursCheck => exact (readable rest).append (.occursCheck hf) nofun
termination_by args => args.length

/-- A run is asked for by options only. -/
theorem read_eq_run_iff {o o' : Options} {args : List String} :
    o.read args = .run o' ↔ ∃ gs, Reads args gs [] ∧ gs.foldl apply o = o' := by
  constructor
  · intro h
    obtain ⟨gs, rest, hreads, rfl | ⟨r, hsettles⟩⟩ := readable args
    · rw [hreads.read_eq, read, Request.run.injEq] at h
      exact ⟨gs, hreads, h⟩
    · rw [hreads.read_eq, hsettles.read_eq] at h
      exact absurd h (hsettles.ne_run o')
  · rintro ⟨gs, hreads, rfl⟩
    rw [hreads.read_eq, read]

end Options

end TermUnification
