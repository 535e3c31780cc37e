import TermUnification.Proofs.Arguments
import TermUnification.Proofs.FileWrites
import TermUnification.Proofs.GroundMatching

/-! What a run of the command line leaves behind. The report is the same for all unifiers, since it is made
from ground records. A run that cannot deliver it changes no file and prints nothing, and one that can sends
it to one place. -/
namespace TermUnification

theorem Attempt.bind_outcome {α β : Type} {x : Attempt α} {a : α} (h : x.outcome = .done a)
    (f : α → Attempt β) : (x >>= f).outcome = (f a).outcome := by
  rw [bind_def, Attempt.bind, h]

namespace Report

theorem isGround_people : ∀ r ∈ RecordSet.people.records, r.isGround = true := by decide +kernel

theorem exists_answer (q : Question) : ∃ text, ∀ u : Unifier, (answer u q).outcome = .done text := by
  obtain ⟨found, hfound⟩ := Unifier.exists_query_ground isGround_people q.fields
  exact ⟨_, fun u => Attempt.bind_outcome (hfound u) _⟩

theorem exists_answers (qs : List Question) :
    ∃ texts, ∀ u : Unifier, (answers u qs).outcome = .done texts := by
  induction qs with
  | nil => exact ⟨[], fun u => rfl⟩
  | cons q qs ih =>
    obtain ⟨first, hfirst⟩ := exists_answer q
    obtain ⟨rest, hrest⟩ := ih
    refine ⟨first :: rest, fun u => ?_⟩
    rw [answers, Attempt.bind_outcome (hfirst u), Attempt.bind_outcome (hrest u)]
    rfl

/-- There is one report for all unifiers. -/
theorem exists_text : ∃ report, ∀ u : Unifier, (text u).outcome = .done report := by
  obtain ⟨texts, htexts⟩ := exists_answers questions
  exact ⟨_, fun u => Attempt.bind_outcome (htexts u) _⟩

/-- The answers to the three questions, in full. -/
def demonstration : String :=
  "People named John:\nfound: John Smith\nfound: John NotSmith\n\n" ++
  "Forty-year-olds:\nfound: John Smith\nfound: Jack White\n\n" ++
  "Forty-year-old people named John:\nfound: John Smith\n"

theorem text_outcome (u : Unifier) : (text u).outcome = .done demonstration := by
  obtain ⟨report, hreport⟩ := exists_text
  have hplain : (text .plain).outcome = .done demonstration := by decide +kernel
  rwa [hreport, ← hreport u] at hplain

end Report

namespace CommandLine

variable (read : String → Except Settings.Failure Settings) (tree : FileTree) (cwd : Path)

/-- A file from which no settings can be had: it cannot be read, or its text is refused. -/
def Unusable (path : String) : Prop :=
  ∀ text, tree.readText cwd path = .ok text → ∃ failure, read text = .error failure

/-- What keeps a run from delivering its report. -/
inductive Prevented (args : List String) : Prop
  | arguments {reason : Refusal} (hargs : Options.none.read args = .refused reason)
  | settings {o : Options} {path : String} (hargs : Options.none.read args = .run o)
    (hconfig : o.config = some path) (hfile : Unusable read tree cwd path)
  | output {o : Options} {path : String} {cause : FileError}
    (hargs : Options.none.read args = .run o) (houtput : o.output = some path)
    (hplace : tree.placeFor cwd path = .error cause)

/-- A text has gone to one place: it is printed with no file changed, or it is what the output file holds
then, with nothing printed and nothing else changed. -/
def Delivered (output : Option String) (text : String) (result : Result) (after : FileTree) : Prop :=
  match output with
  | none => result.stdout = text ∧ after = tree
  | some path => result.stdout = "" ∧ ∃ place, tree.placeFor cwd path = .ok place ∧
      after.bytes? place = some text.toUTF8 ∧ after.readText cwd path = .ok text ∧
      (∀ other, other ≠ place → after.bytes? other = tree.bytes? other) ∧ after.dirs = tree.dirs

/-- A computation on files, carried out in a tree from a working directory. -/
def onTree {α : Type} (x : ReaderT Path (StateM FileTree) α) : α × FileTree := ((x.run cwd).run tree).run

@[simp] theorem onTree_pure {α : Type} (a : α) : onTree tree cwd (pure a) = (a, tree) := rfl

@[simp] theorem onTree_bind {α β : Type} (x : ReaderT Path (StateM FileTree) α)
    (f : α → ReaderT Path (StateM FileTree) β) :
    onTree tree cwd (x >>= f) = onTree (onTree tree cwd x).2 cwd (f (onTree tree cwd x).1) := rfl

@[simp] theorem onTree_get : onTree tree cwd get = (tree, tree) := rfl

@[simp] theorem onTree_read : onTree tree cwd MonadReader.read = (cwd, tree) := rfl

@[simp] theorem onTree_readText (path : String) :
    onTree tree cwd (FileAccess.readText path) = (tree.readText cwd path, tree) := rfl

@[simp] theorem onTree_writeText (path text : String) :
    onTree tree cwd (FileAccess.writeText path text) =
      match tree.placeFor cwd path with
      | .ok place => (.ok (), tree.put place text.toUTF8)
      | .error cause => (.error cause, tree) := by
  simp only [FileAccess.writeText, onTree_bind, onTree_get, onTree_read, FileTree.writeText]
  cases tree.placeFor cwd path <;> rfl

@[simp] theorem onTree_loadBy (path : String) :
    onTree tree cwd (Settings.loadBy read path) =
      (match tree.readText cwd path with
        | .error cause => .error (.unreadable path cause)
        | .ok text => read text, tree) := by
  rw [Settings.loadBy, onTree_bind, onTree_readText]
  cases tree.readText cwd path <;> rfl

/-- Settings are looked up without a change to the files. -/
theorem onTree_settings (o : Options) (value : Option String) :
    ∃ s, onTree tree cwd (settings read o value) = (s, tree) ∧
      ((∃ failure, s = .error failure) ↔
        ∃ path, o.config = some path ∧ Unusable read tree cwd path) := by
  unfold settings
  cases hc : o.config with
  | none => exact ⟨_, onTree_pure tree cwd _, by simp⟩
  | some path =>
    refine ⟨_, by rw [onTree_bind, onTree_loadBy, onTree_pure], ?_⟩
    cases htext : tree.readText cwd path with
    | error cause => simp [Unusable, htext, Except.map]
    | ok text => cases hread : read text <;> simp [Unusable, htext, hread, Except.map]

/-- A text that is delivered goes to one place, and one that is not goes nowhere. -/
theorem onTree_deliver (output : Option String) (text : String) (stderr : List String) :
    let ran := onTree tree cwd (deliver output text stderr)
    (ran.1.code = 0 ∧ Delivered tree cwd output text ran.1 ran.2 ∨
      ran.1.code ≠ 0 ∧ ran.1.stdout = "" ∧ ran.2 = tree) ∧
    (ran.1.code ≠ 0 ↔ ∃ path cause, output = some path ∧ tree.placeFor cwd path = .error cause) := by
  cases output with
  | none => exact ⟨.inl ⟨rfl, rfl, rfl⟩, by simp [deliver]⟩
  | some path =>
    simp only [deliver, onTree_bind, onTree_writeText]
    cases hplace : tree.placeFor cwd path with
    | error cause => simp [failed, hplace]
    | ok place =>
      refine ⟨.inl ⟨rfl, rfl, place, hplace, ?_⟩, by simp [hplace]⟩
      exact ⟨tree.bytes?_put_self, FileTree.readText_put hplace,
        fun other hother => tree.bytes?_put_of_ne hother, tree.dirs_put⟩

theorem prevented_iff {o : Options} {args : List String} (hargs : Options.none.read args = .run o) :
    Prevented read tree cwd args ↔ (∃ path, o.config = some path ∧ Unusable read tree cwd path) ∨
      ∃ path cause, o.output = some path ∧ tree.placeFor cwd path = .error cause := by
  constructor
  · rintro (⟨h⟩ | ⟨h, hconfig, hfile⟩ | ⟨h, houtput, hplace⟩) <;> rw [hargs] at h
    · cases h
    · obtain rfl := Request.run.inj h
      exact .inl ⟨_, hconfig, hfile⟩
    · obtain rfl := Request.run.inj h
      exact .inr ⟨_, _, houtput, hplace⟩
  · rintro (⟨path, hconfig, hfile⟩ | ⟨path, cause, houtput, hplace⟩)
    · exact .settings hargs hconfig hfile
    · exact .output hargs houtput hplace

theorem not_prevented {args : List String} {r : Request} (hargs : Options.none.read args = r)
    (hrun : ∀ o, r ≠ .run o) (hrefused : ∀ reason, r ≠ .refused reason) :
    ¬ Prevented read tree cwd args := by
  rintro (⟨h⟩ | ⟨h, -, -⟩ | ⟨h, -, -⟩)
  · exact hrefused _ (hargs.symm.trans h)
  · exact hrun _ (hargs.symm.trans h)
  · exact hrun _ (hargs.symm.trans h)

/-- A run for options ends in one of two ways. -/
theorem onTree_runBy {o : Options} {args : List String} {text : String}
    (htext : ∀ u : Unifier, (Report.text u).outcome = .done text)
    (hargs : Options.none.read args = .run o) (value : Option String) :
    let ran := onTree tree cwd (runBy read args value)
    (ran.1.code = 0 ∧ Delivered tree cwd o.output text ran.1 ran.2 ∨
      ran.1.code ≠ 0 ∧ ran.1.stdout = "" ∧ ran.2 = tree) ∧
    (ran.1.code ≠ 0 ↔ Prevented read tree cwd args) := by
  rw [prevented_iff read tree cwd hargs]
  obtain ⟨s, hs, hfails⟩ := onTree_settings read tree cwd o value
  rw [← hfails]
  cases s with
  | error failure => simp [runBy, hargs, hs, failed]
  | ok s =>
    have hran : onTree tree cwd (runBy read args value) = onTree tree cwd (deliver o.output text
        (Report.visible s.traceLevel (Report.text s.unifier).log)) := by
      simp [runBy, hargs, hs, report, htext]
    rw [hran]
    simpa using onTree_deliver tree cwd o.output text _

/-- A run changes files or prints the report only when it succeeds. It fails when its arguments are refused,
when its settings cannot be had and when there is no place for its output, and then it prints nothing and
changes no file, as when it is asked for help or its version. Otherwise the report, which is the same for all
arguments, settings and files, is printed if no output option is given, and else it is what the file of the last
one holds, and nothing else happens. Files may be read as settings in any way. -/
theorem runBy_effects :
    ∃ text, (∀ u : Unifier, (Report.text u).outcome = .done text) ∧
      ∀ (read : String → Except Settings.Failure Settings) (args : List String)
        (value : Option String) (tree : FileTree) (cwd : Path),
        let ran := onTree tree cwd (runBy read args value)
        (ran.1.code ≠ 0 ↔ Prevented read tree cwd args) ∧
        (ran.1.code ≠ 0 → ran.1.stdout = "" ∧ ran.2 = tree) ∧
        (Options.none.read args = .help ∨ Options.none.read args = .version → ran.2 = tree) ∧
        (ran.1.code = 0 → Options.none.read args = .help ∨ Options.none.read args = .version ∨
          ∃ gs, Options.Reads args gs []) ∧
        ∀ gs, Options.Reads args gs [] → ran.1.code = 0 →
          Delivered tree cwd (gs.filterMap OptionGroup.outputFile?).getLast? text ran.1 ran.2 := by
  obtain ⟨text, htext⟩ := Report.exists_text
  refine ⟨text, htext, fun read args value tree cwd => ?_⟩
  have hrun (gs : List OptionGroup) (h : Options.Reads args gs []) :
      Options.none.read args = .run (gs.foldl OptionGroup.apply .none) :=
    Options.read_eq_run_iff.2 ⟨gs, h, rfl⟩
  have hstops {r : Request} (hargs : Options.none.read args = r)
      (hr : ∀ o, r ≠ .run o) (gs : List OptionGroup) : ¬ Options.Reads args gs [] :=
    fun h => hr _ (hargs.symm.trans (hrun gs h))
  cases hargs : Options.none.read args with
  | help =>
    have hnot := not_prevented read tree cwd hargs nofun nofun
    simp [runBy, hargs, hnot, hstops hargs nofun]
  | version =>
    have hnot := not_prevented read tree cwd hargs nofun nofun
    simp [runBy, hargs, hnot, hstops hargs nofun]
  | refused reason => simp [runBy, hargs, Prevented.arguments hargs]
  | run o =>
    obtain ⟨hends, hprevented⟩ := onTree_runBy read tree cwd htext hargs value
    refine ⟨hprevented, fun hcode => ?_, by simp, fun _ => ?_, fun gs hgs hcode => ?_⟩
    · exact (hends.resolve_left fun h => hcode h.1).2
    · exact .inr (.inr ((Options.read_eq_run_iff.1 hargs).imp fun _ h => h.1))
    · obtain rfl := Request.run.inj (hargs.symm.trans (hrun gs hgs))
      rw [OptionGroup.output_foldl_apply, Options.none, Option.or_none] at hends
      exact (hends.resolve_right fun h => h.1 hcode).2

/-- Of two output files the second one gets the report. When its directory does not exist, the first one
stays as it is all the same. -/
theorem runBy_effects_two_outputs :
    let tree : FileTree := ⟨[(["w", "x"], "old".toUTF8)], [["w", "d"]]⟩
    let ran (file : String) := onTree tree ["w"]
      (run ["-o", "x", "--trace", "--output", file] (some "2"))
    (ran "d/../y").1.code = 0 ∧ (ran "d/../y").1.stdout = "" ∧
    (ran "d/../y").2.bytes? ["w", "y"] = some Report.demonstration.toUTF8 ∧
    (ran "d/../y").2.bytes? ["w", "x"] = some "old".toUTF8 ∧
    (ran "e/y").1.code ≠ 0 ∧ (ran "e/y").1.stdout = "" ∧ (ran "e/y").2 = tree := by
  intro tree ran
  obtain ⟨text, htext, hall⟩ := runBy_effects
  obtain rfl : text = Report.demonstration :=
    Outcome.done.inj ((htext .plain).symm.trans (Report.text_outcome .plain))
  have hreads (file : String) : Options.Reads ["-o", "x", "--trace", "--output", file]
      [.output "x", .trace none, .output file] [] :=
    .option (.output (by decide) "x") nofun (.option (.bare (by decide)) (fun _ => by simp [byte?])
      (.option (.output (by decide) file) nofun (.none [])))
  have hprevented (file : String) (p : Prevented Settings.ofText tree ["w"] _) :=
    (prevented_iff _ _ _ (Options.read_eq_run_iff.2 ⟨_, hreads file, rfl⟩)).1 p
  have hplace : tree.placeFor ["w"] "d/../y" = .ok ["w", "y"] := by rfl
  have hnone : tree.placeFor ["w"] "e/y" = .error .notFound := by rfl
  obtain ⟨hcode, -, -, -, hdone⟩ := hall Settings.ofText _ (some "2") tree ["w"]
  obtain ⟨hcode', hfailed, -⟩ := hall Settings.ofText _ (some "2") tree ["w"]
  have hok : (ran "d/../y").1.code = 0 := by
    by_contra h
    simpa [Options.none, OptionGroup.apply, hplace] using hprevented _ (hcode.1 h)
  have hfails : (ran "e/y").1.code ≠ 0 :=
    hcode'.2 (.output (Options.read_eq_run_iff.2 ⟨_, hreads "e/y", rfl⟩) rfl hnone)
  obtain ⟨hstdout, place, hplaced, hbytes, -, hothers, -⟩ := hdone _ (hreads _) hok
  obtain rfl := Except.ok.inj (hplace.symm.trans hplaced)
  exact ⟨hok, hstdout, hbytes, hothers _ (by decide), hfails, hfailed hfails⟩

end CommandLine

end TermUnification
