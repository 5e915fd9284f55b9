import ModuleLowering.CommandLine.Run
import ModuleLowering.Proofs.CommandLine.OutputOption

/-!
A run of the command delivers its result or leaves no trace. Everything that can go wrong in the
command is found out before the output is written, and the output is written last, so a run that
fails prints no code and touches no file, and one that succeeds touches the output alone. What is
left is a device that stops in the middle of the output: then there is the beginning of it.
-/

set_option autoImplicit false

namespace ModuleLowering

namespace FileTree

variable {t : FileTree} {place : List String} {path text : String}

theorem find?_putEntry (place other : List String) (bytes : ByteArray)
    (files : List (List String × ByteArray)) :
    ((putEntry place bytes files).find? fun file => file.1 == other).map Prod.snd =
      if other = place then some bytes else (files.find? fun file => file.1 == other).map
      Prod.snd := by
  induction files with
  | nil =>
    by_cases same : other = place
    · simp [putEntry, same]
    · simp [putEntry, same, Ne.symm same]
  | cons file rest ih =>
    rw [putEntry]
    by_cases here : file.1 = place
    · by_cases same : other = place
      · simp [here, same]
      · simp [here, same, Ne.symm same]
    · rw [if_neg here]
      by_cases found : file.1 = other
      · subst found
        simp [here]
      · simpa [List.find?_cons, found] using ih

theorem contents?_put (t : FileTree) (place other : List String) (bytes : ByteArray) :
    (t.put place bytes).contents? other = if other = place then some bytes
      else t.contents? other :=
  find?_putEntry place other bytes t.files

theorem withoutSlashes_eq_self (named : path.endsWith "/" = false) :
    withoutSlashes path = path := by
  rw [String.endsWith_eq_endsWith_toSlice, String.Slice.endsWith_string_eq_false_iff] at named
  have kept : path.toList.reverse.dropWhile (· == '/') = path.toList.reverse := by
    cases backwards : path.toList.reverse with
    | nil => rfl
    | cons c cs =>
      have last : c ≠ '/' := by
        rintro rfl
        apply named
        rw [← List.reverse_prefix]
        simp [backwards]
      simp [last]
  rw [withoutSlashes, kept, List.reverse_reverse, String.ofList_toList]

theorem locateOutput_eq_ok_iff : t.locateOutput path = .ok place ↔
    t.locate path = .ok place ∧ t.isDirectory place = false ∧ path.endsWith "/" = false := by
  unfold locateOutput
  rw [bind_eq_ok_iff]
  cases named : path.endsWith "/" with
  | true => simp
  | false =>
    rw [withoutSlashes_eq_self named, ite_self]
    constructor
    · rintro ⟨found, located, given⟩
      cases isDirectory : t.isDirectory found <;> simp [isDirectory] at given
      cases given
      exact ⟨located, isDirectory, rfl⟩
    · rintro ⟨located, file, -⟩
      exact ⟨place, located, by simp [file]⟩

/-- A write takes place, or leaves the files alone, or is cut short at the place it goes to. -/
theorem writeText_cases (t : FileTree) (path text : String) :
    (∃ place, t.locateOutput path = .ok place ∧ t.writeFault place = none ∧
        t.writeText path text = (.ok (), t.put place text.toUTF8)) ∨
      (∃ e, t.writeText path text = (.error e, t) ∧
        ∀ place, t.locateOutput path = .ok place → t.writeFault place ≠ none) ∨
      ∃ place kept e, t.locateOutput path = .ok place ∧
        t.writeFault place = some (.cutShort kept e) ∧
        t.writeText path text = (.error e, t.put place (text.toUTF8.extract 0 kept)) := by
  unfold writeText
  cases located : t.locateOutput path with
  | error e => exact .inr (.inl ⟨e, rfl, nofun⟩)
  | ok place =>
    dsimp only
    cases fault : t.writeFault place with
    | none => exact .inl ⟨place, rfl, fault, rfl⟩
    | some fault' =>
      cases fault' with
      | refused e =>
        refine .inr (.inl ⟨e, rfl, ?_⟩)
        rintro _ ⟨⟩
        simp [fault]
      | cutShort kept e => exact .inr (.inr ⟨place, kept, e, rfl, fault, rfl⟩)

theorem readText_of_contents? (found : t.locate path = .ok place)
    (file : t.isDirectory place = false) (held : t.contents? place = some text.toUTF8)
    (sound : t.readFault place = none) : t.readText path = .ok text := by
  have read : String.fromUTF8? text.toUTF8 = some text := dif_pos text.isValidUTF8
  simp only [readText, found, bind, Except.bind, file, held, sound, read]
  rfl

end FileTree

namespace Command

variable {t : FileTree} {a : Arguments} {o : Options}

inductive ConfiguredAs (t : FileTree) : Option String → Options → Prop where
  | default : ConfiguredAs t none Options.default
  | read {path text : String} {o : Options} :
    t.readText path = .ok text → Options.ofText text = .ok o → ConfiguredAs t (some path) o

def LowersTo (t : FileTree) (a : Arguments) (code : String) : Prop :=
  ∃ o text dialect l, ConfiguredAs t a.config o ∧ t.readText a.input = .ok text ∧
    inputDialect a = .ok dialect ∧
    transform (addFlags a o) dialect text = .ok l ∧ l.code = code

theorem run_bind {α β : Type} {x : StateM FileTree α} {f : α → StateM FileTree β} {r : α}
    {t' : FileTree} (done : x.run t = (r, t')) : (x >>= f).run t = (f r).run t' := by
  rw [StateT.run_bind, done]
  rfl

theorem run_readText (t : FileTree) (path : String) :
    (FileAccess.readText path : StateM FileTree _).run t = (t.readText path, t) := rfl

/-!
A run in three steps: the configuration, the input, and the output. Each stops at the first error.
-/

def configuration : Option String → StateM FileTree (Except Error Options)
  | some path => readOptions path
  | none => pure (.ok Options.default)

def delivery (a : Arguments) : Except CommandResult (String × List String) →
    StateM FileTree CommandResult
  | .error result => return result
  | .ok (code, stderr) => deliver a code stderr

def lowering (a : Arguments) (o : Options) : Except FileError String → StateM FileTree CommandResult
  | .error e => return failure [] (Error.unreadable a.input e.message).message
  | .ok text => delivery a (lowerText a (addFlags a o) text)

def configured (a : Arguments) : Except Error Options → StateM FileTree CommandResult
  | .error e => return failure [] e.message
  | .ok o => FileAccess.readText a.input >>= lowering a o

theorem runWith_eq_bind (a : Arguments) : runWith a = configuration a.config >>= configured a := by
  obtain ⟨_, _, _, _, config, _, _, _⟩ := a
  cases config <;> rfl

theorem ConfiguredAs.unique {config : Option String} {o o' : Options}
    (found : ConfiguredAs t config o) (found' : ConfiguredAs t config o') : o = o' := by
  cases found with
  | default => cases found'; rfl
  | read read decoded =>
    cases found' with
    | read read' decoded' =>
      cases read.symm.trans read'
      exact Except.ok.inj (decoded.symm.trans decoded')

theorem configuration_cases (t : FileTree) (config : Option String) :
    (∃ e, (configuration config).run t = (.error e, t) ∧ ∀ o, ¬ ConfiguredAs t config o) ∨
      ∃ o, (configuration config).run t = (.ok o, t) ∧ ConfiguredAs t config o := by
  cases config with
  | none => exact .inr ⟨_, rfl, .default⟩
  | some path =>
    unfold configuration readOptions
    rw [run_bind (run_readText t path)]
    cases found : t.readText path with
    | error e =>
      refine .inl ⟨_, rfl, ?_⟩
      intro o as
      cases as with
      | read read decoded => cases found.symm.trans read
    | ok text =>
      cases decoded : Options.ofText text with
      | error e =>
        refine .inl ⟨e, congrArg (·, t) decoded, ?_⟩
        intro o as
        cases as with
        | read read decoded' =>
          cases found.symm.trans read
          cases decoded.symm.trans decoded'
      | ok o => exact .inr ⟨o, congrArg (·, t) decoded, .read found decoded⟩

theorem lowerText_cases (a : Arguments) (o : Options) (text : String) :
    (∃ stderr, lowerText a o text = .error ⟨1, "", stderr⟩ ∧
        ∀ dialect l, inputDialect a = .ok dialect → transform o dialect text ≠ .ok l) ∨
      ∃ dialect l stderr, lowerText a o text = .ok (l.code, stderr) ∧
        inputDialect a = .ok dialect ∧ transform o dialect text = .ok l := by
  unfold lowerText failure
  cases spoken : inputDialect a with
  | error e => exact .inl ⟨_, rfl, nofun⟩
  | ok dialect =>
    dsimp only
    cases done : transform o dialect text with
    | error e =>
      refine .inl ⟨_, rfl, ?_⟩
      rintro _ l ⟨⟩
      simp [done]
    | ok l => exact .inr ⟨dialect, l, _, rfl, rfl, done⟩

/-- Whatever stops a run before its output stops it without a trace. Where its output is to go makes
no difference until then. -/
theorem runWith_cases (a : Arguments) (t : FileTree) :
    (∃ stderr, (∀ output, (runWith { a with output } : StateM FileTree _).run t =
      (⟨1, "", stderr⟩, t)) ∧
        ∀ code, ¬ LowersTo t a code) ∨
      ∃ code stderr, (∀ output, (runWith { a with output } : StateM FileTree _).run t =
          (deliver { a with output } code stderr : StateM FileTree _).run t) ∧
          LowersTo t a code := by
  -- Three things can stop it, and in this order: its options, its input and the lowering.
  rcases configuration_cases t a.config with ⟨e, failed, unknown⟩ | ⟨o, done, found⟩
  · left
    refine ⟨(failure [] e.message).stderr, fun output => ?_, ?_⟩
    · rw [runWith_eq_bind, run_bind failed]
      rfl
    · rintro _ ⟨o, _, _, _, found, -⟩
      exact unknown o found
  · have reads (output : Option String) : (runWith { a with output } : StateM FileTree _).run t =
        (lowering { a with output } o (t.readText a.input)).run t := by
      rw [runWith_eq_bind, run_bind done]
      exact run_bind (run_readText t a.input)
    cases given : t.readText a.input with
    | error e =>
      left
      refine ⟨(failure [] (Error.unreadable a.input e.message).message).stderr,
        fun output => ?_, ?_⟩
      · rw [reads, given]
        rfl
      · rintro _ ⟨_, _, _, _, _, read, -⟩
        cases given.symm.trans read
    | ok text =>
      have lowers (output : Option String) : (runWith { a with output } : StateM FileTree _).run t =
          (delivery { a with output } (lowerText a (addFlags a o) text)).run t := by
        rw [reads, given]
        rfl
      rcases lowerText_cases a (addFlags a o) text with ⟨stderr, failed, unable⟩
        | ⟨dialect, l, stderr, printed, able⟩
      · left
        refine ⟨stderr, fun output => ?_, ?_⟩
        · rw [lowers, failed]
          rfl
        · rintro _ ⟨o', _, dialect, l, found', read, spoken, lowered, -⟩
          cases found.unique found'
          cases given.symm.trans read
          exact unable dialect l spoken lowered
      · right
        refine ⟨l.code, stderr, fun output => ?_, o, text, dialect, l, found, given,
          able.1, able.2, rfl⟩
        rw [lowers, printed]
        rfl

theorem run_writeText (t : FileTree) (path text : String) :
    (FileAccess.writeText path text : StateM FileTree _).run t = t.writeText path text := rfl

theorem deliver_of_error {output : String} (given : a.output = some output) {code : String}
    (stderr : List String) {t' : FileTree} {e : FileError}
    (failed : t.writeText (outputPath a.input output) code = (.error e, t')) :
    ∃ stderr', (deliver a code stderr : StateM FileTree _).run t = (⟨1, "", stderr'⟩, t') := by
  unfold deliver
  rw [given]
  exact ⟨_, run_bind ((run_writeText t _ code).trans failed)⟩

theorem deliver_of_ok {output : String} (given : a.output = some output) {code : String}
    (stderr : List String) {t' : FileTree}
    (written : t.writeText (outputPath a.input output) code = (.ok (), t')) :
    ∃ stderr', (deliver a code stderr : StateM FileTree _).run t = (⟨0, "", stderr'⟩, t') := by
  unfold deliver
  rw [given]
  exact ⟨_, run_bind ((run_writeText t _ code).trans written)⟩

theorem run_of_parse_error {arguments : List String} {e : ArgumentError}
    (wrong : Arguments.parse arguments = .error e) (other : e ≠ .help) :
    (run arguments : StateM FileTree _).run t = (⟨2, "", [e.message]⟩, t) := by
  unfold run
  rw [wrong]
  cases e with
  | help => exact absurd rfl other
  | _ => rfl

theorem run_of_parse {arguments : List String} (parsed : Arguments.parse arguments = .ok a) :
    (run arguments : StateM FileTree _) = runWith a := by
  unfold run
  rw [parsed]

/-- What a successful run leaves behind. Without the option for the output it prints the lowering
and touches no file; with the option it prints nothing, and the file it writes holds what it prints
without the option. -/
inductive Delivers (arguments : List String) (before : FileTree) (a : Arguments) (stdout : String)
    (after : FileTree) : Prop where
  | printed : (Arguments.splitOutput arguments).1 = none → LowersTo before a stdout →
    after = before → Delivers arguments before a stdout after
  | saved {output code : String} {stderr : List String} {place : List String} :
    (Arguments.splitOutput arguments).1 = some output → stdout = "" →
    (run (Arguments.splitOutput arguments).2 : StateM FileTree _).run before =
      (⟨0, code, stderr⟩, before) →
    LowersTo before a code → before.locate (outputPath a.input output) = .ok place →
    after.contents? place = some code.toUTF8 →
      (∀ other ≠ place, after.contents? other = before.contents? other) →
    Delivers arguments before a stdout after

/-- The device has stopped in the middle of the output, and the file holds the beginning of it. -/
inductive CutsShort (arguments : List String) (before after : FileTree) : Prop where
  | intro {a : Arguments} {output code : String} {place : List String} {kept : Nat}
    {e : FileError} : Arguments.parse arguments = .ok a →
    (Arguments.splitOutput arguments).1 = some output → LowersTo before a code →
    before.locate (outputPath a.input output) = .ok place →
    before.writeFault place = some (.cutShort kept e) →
    after.contents? place = some (code.toUTF8.extract 0 kept) →
      (∀ other ≠ place, after.contents? other = before.contents? other) →
    CutsShort arguments before after

def CanWrite (t : FileTree) (path : String) : Prop :=
  path.endsWith "/" = false ∧
    ∃ place, t.locate path = .ok place ∧ t.isDirectory place = false ∧ t.writeFault place = none

theorem canWrite_iff {path : String} :
    CanWrite t path ↔ ∃ place, t.locateOutput path = .ok place ∧ t.writeFault place = none := by
  simp only [FileTree.locateOutput_eq_ok_iff, CanWrite]
  constructor
  · rintro ⟨named, place, found, file, sound⟩
    exact ⟨place, ⟨found, file, named⟩, sound⟩
  · rintro ⟨place, ⟨found, file, named⟩, sound⟩
    exact ⟨named, place, found, file, sound⟩

/-- A run succeeds exactly if there is a lowering and a place for it. Otherwise it prints nothing
and leaves every file as it was, unless the device stops in the middle of the output; and if it
succeeds, its output is all that is new. -/
theorem run_all_or_nothing (arguments : List String) (before after : FileTree)
    (result : CommandResult) (proper : Arguments.parse arguments ≠ .error .help)
    (ran : (run arguments : StateM FileTree _).run before = (result, after)) :
    (result.exit ≠ 0 → result.stdout = "" ∧
        (after = before ∨ CutsShort arguments before after)) ∧
      (result.exit = 0 → ∃ a, Arguments.parse arguments = .ok a ∧
        Delivers arguments before a result.stdout after) ∧
      (result.exit = 0 ↔ ∃ a code, Arguments.parse arguments = .ok a ∧ LowersTo before a code ∧
        ∀ output ∈ (Arguments.splitOutput arguments).1,
          CanWrite before (outputPath a.input output)) := by
  cases parsed : Arguments.parse arguments with
  | error e =>
    have other : e ≠ .help := fun asked => proper (asked ▸ parsed)
    rw [run_of_parse_error parsed other] at ran
    cases ran
    simp
  | ok a =>
    obtain ⟨option, bare⟩ := Arguments.parse_splitOutput parsed
    rw [run_of_parse parsed] at ran
    rcases runWith_cases a before with ⟨stderr, stops, unable⟩ | ⟨code, stderr, delivers, lowers⟩
    · cases (stops a.output).symm.trans ran
      simp [unable]
    · replace ran := (delivers a.output).symm.trans ran
      cases given : a.output with
      | none =>
        rw [given] at ran option
        cases ran
        have result : Delivers arguments before a code before := .printed option.symm lowers rfl
        exact ⟨by simp, fun _ => ⟨a, rfl, result⟩, by simp [← option, Exists.intro code lowers]⟩
      | some output =>
        rw [given] at ran option
        -- The same arguments without the option get as far as here, and then print the code.
        have prints : (run (Arguments.splitOutput arguments).2 : StateM FileTree _).run before =
            (⟨0, code, stderr⟩, before) := by
          rw [run_of_parse bare, delivers none]
          rfl
        rcases before.writeText_cases (outputPath a.input output) code with
          ⟨place, located, sound, written⟩ | ⟨e, failed, unsound⟩
          | ⟨place, kept, e, located, fault, failed⟩
        · obtain ⟨stderr', saved⟩ :=
            deliver_of_ok (a := { a with output := some output }) rfl stderr written
          cases saved.symm.trans ran
          have able := canWrite_iff.mpr ⟨place, located, sound⟩
          have result : Delivers arguments before a "" (before.put place code.toUTF8) := by
            refine .saved option.symm rfl prints lowers
              (FileTree.locateOutput_eq_ok_iff.mp located).1 ?_ fun other elsewhere => ?_
            · rw [FileTree.contents?_put, if_pos rfl]
            · rw [FileTree.contents?_put, if_neg elsewhere]
          exact ⟨by simp, fun _ => ⟨a, rfl, result⟩, by
            simp [← option, able, Exists.intro code lowers]⟩
        · obtain ⟨stderr', stopped⟩ :=
            deliver_of_error (a := { a with output := some output }) rfl stderr failed
          cases stopped.symm.trans ran
          have nowhere : ¬ CanWrite before (outputPath a.input output) := fun able => by
            obtain ⟨place, located, sound⟩ := canWrite_iff.mp able
            exact unsound place located sound
          simp [← option, nowhere]
        · obtain ⟨stderr', stopped⟩ :=
            deliver_of_error (a := { a with output := some output }) rfl stderr failed
          cases stopped.symm.trans ran
          have nowhere : ¬ CanWrite before (outputPath a.input output) := fun able => by
            obtain ⟨place', located', sound⟩ := canWrite_iff.mp able
            cases located.symm.trans located'
            cases fault.symm.trans sound
          have cuts : CutsShort arguments before
              (before.put place (code.toUTF8.extract 0 kept)) := by
            refine .intro parsed option.symm lowers
              (FileTree.locateOutput_eq_ok_iff.mp located).1 fault ?_ fun other elsewhere => ?_
            · rw [FileTree.contents?_put, if_pos rfl]
            · rw [FileTree.contents?_put, if_neg elsewhere]
          exact ⟨fun _ => ⟨rfl, .inr cuts⟩, by simp, by simp [← option, nowhere]⟩

def oneModule : FileTree := .holding ["home"] [(["a.js"], "export let x = 1;".toUTF8)]

theorem steps_input : "/home/a.js".splitOn "/" = ["", "home", "a.js"] := by
  simp only [String.splitOn]
  repeat (rw [String.splitOnAux]; simp +decide)

theorem readText_oneModule : oneModule.readText "/home/a.js" = .ok "export let x = 1;" := by
  have found : oneModule.locate "/home/a.js" = .ok ["home", "a.js"] := by
    rw [FileTree.locate, if_neg (by decide +kernel), if_pos (by decide +kernel), steps_input]
    rfl
  exact FileTree.readText_of_contents? found (by decide +kernel) rfl rfl

theorem ofPath_input : Dialect.ofPath "/home/a.js" = .ok Dialect.plain := by
  have named : fileName? "/home/a.js" = some "a.js" := by
    rw [fileName?, pathSteps, steps_input]
    decide +kernel
  have code : isDefinitionName "a.js" = false := by
    have parts : "a.js".splitOn "." = ["a", "js"] := by
      simp only [String.splitOn]
      repeat (rw [String.splitOnAux]; simp +decide)
    rw [isDefinitionName, parts]
    decide +kernel
  have known : (extension? "a.js").bind Dialect.ofExtension? = some Dialect.plain := by
    decide +kernel
  simp [Dialect.ofPath, named, known, code, Dialect.plain]

theorem canWrite_oneModule : CanWrite oneModule "b.cjs" := by
  have steps : "b.cjs".splitOn "/" = ["b.cjs"] := by
    simp only [String.splitOn]
    repeat (rw [String.splitOnAux]; simp +decide)
  refine ⟨by decide +kernel, ["home", "b.cjs"], ?_, by decide +kernel, rfl⟩
  rw [FileTree.locate, if_neg (by decide +kernel), if_neg (by decide +kernel), steps]
  rfl

theorem run_oneModule_saves :
    ∃ a result after, (run ["/home/a.js", "-o", "b.cjs"] : StateM FileTree _).run oneModule =
      (result, after) ∧ result.exit = 0 ∧
      Arguments.parse ["/home/a.js", "-o", "b.cjs"] = .ok a ∧ a.output = some "b.cjs" ∧
      Delivers ["/home/a.js", "-o", "b.cjs"] oneModule a result.stdout after := by
  have split : Arguments.splitOutput ["/home/a.js", "-o", "b.cjs"] =
      (some "b.cjs", ["/home/a.js"]) := by decide +kernel
  have parsed : Arguments.parse ["/home/a.js", "-o", "b.cjs"] =
      .ok ⟨"/home/a.js", false, false, false, none, false, false, some "b.cjs"⟩ := by rfl
  have lowered : (transform Options.default Dialect.plain "export let x = 1;").toOption.isSome =
    true := by decide +kernel
  cases done : transform Options.default Dialect.plain "export let x = 1;" with
  | error e => simp [done, Except.toOption] at lowered
  | ok l =>
    have all := run_all_or_nothing ["/home/a.js", "-o", "b.cjs"] oneModule _ _
      (by simp [parsed]) rfl
    have ended := all.2.2.mpr ⟨_, l.code, parsed,
      ⟨_, _, _, l, .default, readText_oneModule, by simp [inputDialect, ofPath_input]; rfl,
      done, rfl⟩, by
        rw [split]
        rintro _ ⟨⟩
        exact canWrite_oneModule⟩
    obtain ⟨a, same, delivers⟩ := all.2.1 ended
    cases parsed.symm.trans same
    exact ⟨_, _, _, rfl, ended, parsed, rfl, delivers⟩

end Command

end ModuleLowering
