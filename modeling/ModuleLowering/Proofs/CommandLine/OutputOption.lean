import ModuleLowering.Proofs.CommandLine.Request

/-!
The output option among the arguments of the command. Arguments that can be read can also be read
without it, and then say the same about everything else.
-/

set_option autoImplicit false

namespace ModuleLowering.Arguments

namespace Partial

variable {p q r : Partial}

/-- The second state is what the first would be if the output had not been asked for. -/
structure Without (output : Option String) (p p' : Partial) : Prop where
  flags : p'.flags = p.flags
  pending : p'.pending = p.pending
  given : p.value? .output = output
  absent : p'.value? .output = none
  others : ∀ s, s ≠ .output → p'.value? s = p.value? s

def Simulates (output : String) (x x' : Except ArgumentError Partial) : Prop :=
  ∀ q, x = .ok q → ∃ q', x' = .ok q' ∧ Without (some output) q q'

theorem Simulates.bind {output : String} {x x' : Except ArgumentError Partial}
    {f : Partial → Except ArgumentError Partial} (first : Simulates output x x')
    (next : ∀ q q', Without (some output) q q' → Simulates output (f q) (f q')) :
    Simulates output (x >>= f) (x' >>= f) := by
  intro r done
  obtain ⟨q, here, done⟩ := bind_eq_ok_iff.mp done
  obtain ⟨q', here', same⟩ := first q here
  obtain ⟨r', done', same'⟩ := next q q' same r done
  exact ⟨r', bind_eq_ok_iff.mpr ⟨q', here', done'⟩, same'⟩

namespace Without

variable {output : String} {p' : Partial} (h : Without (some output) p p')
include h

theorem setValue (s : Slot) (value : String) : Simulates output (p.setValue s value)
    (p'.setValue s value) := by
  intro q set
  obtain ⟨free, fine, rfl⟩ := setValue_eq_ok_iff.mp set
  have other : s ≠ .output := by
    rintro rfl
    rw [h.given] at free
    cases free
  refine ⟨_, setValue_eq_ok_iff.mpr ⟨(h.others s other).trans free, fine, rfl⟩, h.flags, rfl, ?_,
    ?_, fun s' ne => ?_⟩
  · rw [value?_cons _ _ _ _ _ _ p.pending, if_neg other]
    exact h.given
  · rw [value?_cons _ _ _ _ _ _ p'.pending, if_neg other]
    exact h.absent
  · rw [value?_cons _ _ _ _ _ _ p.pending, value?_cons _ _ _ _ _ _ p'.pending]
    split
    · rfl
    · exact h.others s' ne

theorem settle : Simulates output p.settle p'.settle := by
  intro q settled
  rcases settle_eq_ok_iff.mp settled with ⟨held, rfl⟩ | ⟨e, due, set⟩
  · exact ⟨p', settle_of_pending_eq_none (h.pending.trans held), h⟩
  · obtain ⟨q', set', same⟩ := h.setValue e.1 e.2 q set
    have due' : p'.due? = some e := by rw [← due, due?, due?, h.pending]
    exact ⟨q', settle_eq_ok_iff.mpr (.inr ⟨e, due', set'⟩), same⟩

theorem setFlag (f : Flag) : Simulates output (p.setFlag f) (p'.setFlag f) := by
  refine h.settle.bind fun q q' same r done => ?_
  rw [same.flags]
  split at done
  · cases done
  · next free =>
    cases done
    rw [if_neg free]
    exact ⟨_, rfl, rfl, same.pending, same.given, same.absent, same.others⟩

theorem awaits (pending : Option (Slot × Option String)) :
    Without (some output) { p with pending } { p' with pending } :=
  ⟨h.flags, rfl, h.given, h.absent, h.others⟩

theorem option (s : Slot) (attached : Option String) : Simulates output (p.option s attached)
    (p'.option s attached) := by
  refine h.settle.bind fun q q' same r done => ?_
  cases attached with
  | some value => exact same.setValue s value r done
  | none =>
    cases done
    exact ⟨_, rfl, same.awaits _⟩

theorem file (value : String) : Simulates output (p.file value) (p'.file value) := by
  intro r done
  obtain ⟨q, settled, free, rfl⟩ := file_eq_ok_iff.mp done
  obtain ⟨q', settled', same⟩ := h.settle q settled
  exact ⟨_, file_eq_ok_iff.mpr ⟨q', settled', (same.others .input (by decide)).trans free, rfl⟩,
    same.awaits _⟩

theorem plain (value : String) : Simulates output (p.plain value) (p'.plain value) := by
  unfold Partial.plain
  rw [h.pending]
  split
  · intro r done
    cases done
    exact ⟨_, rfl, h.awaits _⟩
  · exact h.file value

theorem apply (request : Request) : Simulates output (p.apply request) (p'.apply request) := by
  cases request with
  | flag f => exact h.setFlag f
  | option s attached => exact h.option s attached
  | plain value => exact h.plain value

end Without

theorem Simulates.foldlM {α : Type} {output : String}
    {f : Partial → α → Except ArgumentError Partial} (step : ∀ p p', Without (some output) p p' →
    ∀ a, Simulates output (f p a) (f p' a)) {p p' : Partial} (h : Without (some output) p p') (as :
    List α) : Simulates output (as.foldlM f p) (as.foldlM f p') := by
  induction as generalizing p p' with
  | nil =>
    intro q done
    cases done
    exact ⟨p', rfl, h⟩
  | cons a as ih => exact (step p p' h a).bind fun q q' same => ih same

theorem Without.take {output : String} {p p' : Partial} (h : Without (some output) p p')
    (argument : String) :
    Simulates output (p.take argument) (p'.take argument) := by
  intro q done
  obtain ⟨rs, known, done⟩ := take_eq_ok_iff.mp done
  obtain ⟨q', done', same⟩ := Simulates.foldlM (fun _ _ h => h.apply) h rs q done
  exact ⟨q', take_eq_ok_iff.mpr ⟨rs, known, done'⟩, same⟩

theorem Without.takeAll {output : String} {p p' : Partial} (h : Without (some output) p p')
    (arguments : List String) :
    Simulates output (p.takeAll arguments) (p'.takeAll arguments) := by
  induction arguments generalizing p p' with
  | nil => exact h.settle
  | cons argument rest ih =>
    by_cases separator : argument = "--"
    · subst separator
      exact (Simulates.foldlM (fun _ _ h => h.file) h rest).bind fun _ _ same => same.settle
    · rw [takeAll_cons separator, takeAll_cons separator]
      exact (h.take argument).bind fun _ _ same => ih same

structure IsFresh (p : Partial) : Prop where
  absent : p.value? .output = none
  notPending : p.pending.map Prod.fst ≠ some .output

namespace IsFresh

variable (h : p.IsFresh)
include h

theorem settle (settled : p.settle = .ok q) : q.IsFresh :=
  ⟨(value?_settle settled .output).mpr ⟨h.absent, h.notPending⟩, by
    simp [pending_of_settle settled]⟩

theorem file {value : String} (done : p.file value = .ok r) : r.IsFresh := by
  obtain ⟨q, settled, -, rfl⟩ := file_eq_ok_iff.mp done
  exact ⟨(h.settle settled).absent, by simp⟩

theorem apply {request : Request} (other : ∀ attached, request ≠ .option .output attached)
    (done : p.apply request = .ok r) : r.IsFresh := by
  cases request with
  | flag f =>
    obtain ⟨q, settled, -, rfl⟩ := setFlag_eq_ok_iff.mp done
    exact ⟨(h.settle settled).absent, (h.settle settled).notPending⟩
  | option s attached =>
    have other : s ≠ .output := by
      rintro rfl
      exact other attached rfl
    obtain ⟨q, settled, ⟨value, -, set⟩ | ⟨-, rfl⟩⟩ := option_eq_ok_iff.mp done
    · obtain ⟨-, -, rfl⟩ := setValue_eq_ok_iff.mp set
      refine ⟨?_, nofun⟩
      rw [value?_cons _ _ _ _ _ _ q.pending, if_neg other]
      exact (h.settle settled).absent
    · exact ⟨(h.settle settled).absent, by simpa using other⟩
  | plain value =>
    change p.plain value = .ok r at done
    unfold plain at done
    split at done
    · next s held =>
      cases done
      exact ⟨h.absent, by simpa [held] using h.notPending⟩
    · exact h.file done

theorem foldlM {α : Type} {f : Partial → α → Except ArgumentError Partial} {as : List α}
    (step : ∀ a ∈ as, ∀ p q, p.IsFresh → f p a = .ok q → q.IsFresh) (done : as.foldlM f p = .ok r) :
    r.IsFresh := by
  induction as generalizing p with
  | nil =>
    cases done
    exact h
  | cons a as ih =>
    obtain ⟨q, here, rest⟩ := bind_eq_ok_iff.mp done
    exact ih (step a (by simp) p q h here) (fun b among => step b (by simp [among])) rest

end IsFresh

end Partial

def outputLetter? : List Char → Option (List Char × Option String)
  | 'q' :: cs => (outputLetter? cs).map fun e => ('q' :: e.1, e.2)
  | 'v' :: cs => (outputLetter? cs).map fun e => ('v' :: e.1, e.2)
  | 'o' :: [] => some ([], none)
  | 'o' :: '=' :: cs => some ([], some (String.ofList cs))
  | 'o' :: cs => some ([], some (String.ofList cs))
  | _ => none

def outputOption? (argument : String) : Option (List Char × Option String) :=
  match argument.toList with
  | '-' :: '-' :: cs =>
    if (Partial.splitValue ('-' :: '-' :: cs)).1 = "--output"
      then some ([], (Partial.splitValue ('-' :: '-' :: cs)).2)
    else none
  | '-' :: c :: cs => outputLetter? (c :: cs)
  | _ => none

def optionValue (attached : Option String) (rest : List String) : String × List String :=
  match attached, rest with
  | some value, rest => (value, rest)
  | none, [] => ("", [])
  | none, value :: behind => if isPlain value then (value, behind) else ("", value :: behind)

/-- The output that the arguments ask for, and the arguments without that. -/
def splitOutput : List String → Option String × List String
  | [] => (none, [])
  | argument :: rest =>
    if argument = "--" then (none, argument :: rest)
    else match outputOption? argument with
      | none => ((splitOutput rest).1, argument :: (splitOutput rest).2)
      | some (letters, attached) =>
        let kept := if letters = [] then [] else [String.ofList ('-' :: letters)]
        (some (optionValue attached rest).1, kept ++ (optionValue attached rest).2)

theorem letterRequests_of_outputLetter? {cs letters : List Char} {attached : Option String}
    (found : outputLetter? cs = some (letters, attached)) :
    ∃ flags, letterRequests letters = some flags ∧
      letterRequests cs = some (flags ++ [.option .output attached]) := by
  fun_induction outputLetter? cs generalizing letters with
  | case1 cs ih | case2 cs ih =>
    obtain ⟨e, later, same⟩ := Option.map_eq_some_iff.mp found
    cases same
    obtain ⟨flags, before, all⟩ := ih later
    exact ⟨_, by rw [letterRequests, before]; rfl, by rw [letterRequests, all]; rfl⟩
  | case3 | case4 =>
    cases found
    exact ⟨[], rfl, rfl⟩
  | case5 cs some other =>
    cases found
    refine ⟨[], rfl, ?_⟩
    rw [letterRequests]
    · rfl
    · exact some
    · exact other
  | case6 => cases found

theorem outputLetter?_eq_none {cs : List Char} (unasked : outputLetter? cs = none)
    {rs : List Request} (known : letterRequests cs = some rs) (attached : Option String) :
    .option .output attached ∉ rs := by
  fun_induction letterRequests cs generalizing rs with
  | case1 =>
    cases known
    simp
  | case2 cs ih | case3 cs ih =>
    obtain ⟨rest, later, rfl⟩ := Option.map_eq_some_iff.mp known
    simpa using ih (Option.map_eq_none_iff.mp unasked) later
  | case4 | case5 => cases unasked
  | case6 cs some other =>
    rw [outputLetter?] at unasked
    · cases unasked
    · exact some
    · exact other
  | case7 => cases known

theorem namedRequest_output (attached : Option String) :
    namedRequest "--output" attached = some (.option .output attached) := by
  cases attached <;> rfl

theorem namedRequest_ne_output {name : String} {attached : Option String}
    (other : name ≠ "--output") {r : Request} (known : namedRequest name attached = some r)
    (value : Option String) : r ≠ .option .output value := by
  rintro rfl
  unfold namedRequest at known
  split at known
  · cases known
  · cases known
  · split at known
    · cases known
    · exact other rfl
    · cases known

theorem requests_letters {argument : String} {c : Char} {cs : List Char}
    (spelled : argument.toList = '-' :: c :: cs) (other : c ≠ '-') :
    requests argument = letterRequests (c :: cs) := by
  unfold requests
  rw [spelled]
  split
  · next same => exact absurd (List.cons.inj (List.cons.inj same).2).1 other
  · next same =>
    cases same
    rfl
  · next none => exact absurd rfl (none _ _)

theorem requests_of_outputOption? {argument : String} {letters : List Char}
    {attached : Option String} (found : outputOption? argument = some (letters, attached)) :
    ∃ flags, letterRequests letters = some flags ∧
      requests argument = some (flags ++ [.option .output attached]) := by
  unfold outputOption? at found
  split at found
  · next cs spelled =>
    split at found
    · next named =>
      cases found
      refine ⟨[], rfl, ?_⟩
      simp only [requests, spelled, named, namedRequest_output]
      rfl
    · cases found
  · next c cs other spelled =>
    obtain ⟨flags, before, all⟩ := letterRequests_of_outputLetter? found
    exact ⟨flags, before, (requests_letters spelled other).trans all⟩
  · cases found

theorem outputOption?_eq_none {argument : String} (unasked : outputOption? argument = none)
    {rs : List Request} (known : requests argument = some rs) (attached : Option String) :
    .option .output attached ∉ rs := by
  unfold outputOption? at unasked
  split at unasked
  · next cs spelled =>
    split at unasked
    · cases unasked
    · next other =>
      simp only [requests, spelled] at known
      obtain ⟨r, named, rfl⟩ := Option.map_eq_some_iff.mp known
      simpa using (namedRequest_ne_output other named attached).symm
  · next c cs other spelled =>
    rw [requests_letters spelled other] at known
    exact outputLetter?_eq_none unasked known attached
  · next noName noLetters =>
    unfold requests at known
    split at known
    · next spelled => exact (noName _ spelled).elim
    · next spelled => exact (noLetters _ _ spelled).elim
    · cases known
      simp

namespace Partial

variable {p q r : Partial}

theorem takeAll_kept {letters : List Char} {flags : List Request}
    (known : letterRequests letters = some flags) (rest : List String) :
    p.takeAll ((if letters = [] then [] else [String.ofList ('-' :: letters)]) ++ rest) = .ok r ↔
      ∃ q, flags.foldlM apply p = .ok q ∧ q.takeAll rest = .ok r := by
  cases letters with
  | nil =>
    cases known
    constructor
    · intro done
      exact ⟨p, rfl, done⟩
    · rintro ⟨_, same, done⟩
      cases same
      exact done
  | cons c cs =>
    have letter : c ≠ '-' := by
      rintro rfl
      simp [letterRequests] at known
    have spelled : (String.ofList ('-' :: c :: cs)).toList = '-' :: c :: cs := String.toList_ofList
    have other : String.ofList ('-' :: c :: cs) ≠ "--" := by
      intro same
      rw [same] at spelled
      cases spelled
      exact letter rfl
    simp only [reduceCtorEq, if_false, List.singleton_append]
    rw [takeAll_cons other, bind_eq_ok_iff]
    refine exists_congr fun q => and_congr_left fun _ => ?_
    rw [take_eq_ok_iff, requests_letters spelled letter, known]
    simp

theorem isWaiting_of_settle (settled : p.settle = .ok q) (free : q.value? .output = none) :
    p.isWaiting = false := by
  have other := ((value?_settle settled .output).mp free).2
  rcases settle_eq_ok_iff.mp settled with ⟨held, -⟩ | ⟨e, due, -⟩
  · simp [isWaiting, held]
  · unfold due? at due
    split at due
    · next held => simp [isWaiting, held]
    · next held => simp [held] at other
    · cases due

theorem takeAll_optionValue (attached : Option String) (rest : List String)
    (settled : q.pending = none) :
    (q.option .output attached >>= fun p => p.takeAll rest) = .ok r ↔
      ({ q with pending := some (.output, some (optionValue attached rest).1) } : Partial).takeAll
        (optionValue attached rest).2 = .ok r := by
  have ready (value : String) :
      ({ q with pending := some (.output, some value) } : Partial).isWaiting = true →
      ∀ argument ∈ rest.head?, isPlain argument = false := nofun
  cases attached with
  | some value =>
    have asked : q.option .output (some value) = q.setValue .output value := by
      unfold option
      rw [settle_of_pending_eq_none settled]
      rfl
    rw [asked, bind_eq_ok_iff]
    exact (takeAll_eq_ok_iff_settled (ready value)).symm
  | none =>
    have asked : q.option .output none = .ok { q with pending := some (.output, none) } := by
      unfold option
      rw [settle_of_pending_eq_none settled]
      rfl
    rw [asked]
    show ({ q with pending := some (.output, none) } : Partial).takeAll rest = .ok r ↔ _
    cases rest with
    | nil => rfl
    | cons value behind =>
      unfold optionValue
      dsimp only
      split
      · next plain =>
        have other : value ≠ "--" := by
          rintro rfl
          exact absurd plain (by decide)
        have taken : ({ q with pending := some (.output, none) } : Partial).take value =
            .ok { q with pending := some (.output, some value) } := by
          unfold isPlain at plain
          unfold take
          split
          · next spelled => simp [spelled] at plain
          · next spelled => simp [spelled] at plain
          · rfl
        rw [takeAll_cons other, taken]
        rfl
      · next option =>
        -- With an option next, the value is left out and taken as empty.
        rw [takeAll_eq_ok_iff_settled (ready ""), takeAll_eq_ok_iff_settled]
        · rfl
        · intro _ argument here
          cases here
          simpa using option

theorem takeAll_splitOutput {arguments : List String} (fresh : p.IsFresh)
    (done : p.takeAll arguments = .ok r) :
    ∃ r', p.takeAll (splitOutput arguments).2 = .ok r' ∧
      Without (splitOutput arguments).1 r r' := by
  have unchanged {r : Partial} (fresh : r.IsFresh) : Without none r r :=
    ⟨rfl, rfl, fresh.absent, fresh.absent, fun _ _ => rfl⟩
  induction arguments generalizing p with
  | nil => exact ⟨r, done, unchanged (fresh.settle done)⟩
  | cons argument rest ih =>
    unfold splitOutput
    split
    · next separator =>
      subst separator
      obtain ⟨q, files, settled⟩ := bind_eq_ok_iff.mp done
      have fresh' : q.IsFresh := fresh.foldlM (fun _ _ _ _ fresh done => fresh.file done) files
      exact ⟨r, done, unchanged (fresh'.settle settled)⟩
    · next other =>
      rw [takeAll_cons other] at done
      obtain ⟨q, taken, done⟩ := bind_eq_ok_iff.mp done
      obtain ⟨rs, known, asked⟩ := take_eq_ok_iff.mp taken
      split
      · next unasked =>
        have fresh' : q.IsFresh := fresh.foldlM (fun request among _ _ fresh done =>
          fresh.apply (fun attached same => outputOption?_eq_none unasked known attached
            (same ▸ among)) done) asked
        obtain ⟨r', done', same⟩ := ih fresh' done
        exact ⟨r', by rw [takeAll_cons other, taken]; exact done', same⟩
      · next letters attached found =>
        obtain ⟨flags, before, all⟩ := requests_of_outputOption? found
        rw [all] at known
        cases known
        rw [List.foldlM_append] at asked
        obtain ⟨p₁, flagged, asked⟩ := bind_eq_ok_iff.mp asked
        obtain ⟨q₁, asked, same⟩ := bind_eq_ok_iff.mp asked
        cases same
        -- The value before the option is noted down here, and only later without the option.
        obtain ⟨p₂, settled, asked⟩ := (apply_eq_ok_iff_settled (by simp)).mp asked
        have idle := pending_of_settle settled
        have read :=
          (takeAll_optionValue attached rest idle).mp (bind_eq_ok_iff.mpr ⟨q, asked, done⟩)
        have ready : Partial.isWaiting
            { p₂ with pending := some (.output, some (optionValue attached rest).1) } = false :=
          rfl
        obtain ⟨p₃, set, read⟩ := (takeAll_eq_ok_iff_settled (by simp [ready])).mp read
        obtain ⟨free, -, rfl⟩ := setValue_eq_ok_iff.mp set
        have same : Without (some (optionValue attached rest).1)
            ⟨p₂.flags, (.output, (optionValue attached rest).1) :: p₂.values, none⟩ p₂ := by
          refine ⟨rfl, idle, ?_, free, fun s ne => ?_⟩
          · rw [value?_cons _ _ _ _ _ _ p₂.pending, if_pos rfl]
          · rw [value?_cons _ _ _ _ _ _ p₂.pending, if_neg ne.symm]
        obtain ⟨r', read', result⟩ := same.takeAll _ r read
        have waits := isWaiting_of_settle settled free
        have later := (takeAll_eq_ok_iff_settled (by simp [waits])).mpr ⟨p₂, settled, read'⟩
        exact ⟨r', (takeAll_kept before _).mpr ⟨p₁, flagged, later⟩, result⟩

end Partial

theorem parse_eq_ok_iff {arguments : List String} {a : Arguments} :
    parse arguments = .ok a ↔ ∃ p, Partial.empty.takeAll arguments = .ok p ∧
      (p.flags.contains .quiet && p.flags.contains .verbose) = false ∧
        ∃ input, p.value? .input = some input ∧
        a = ⟨input, p.flags.contains .strict, p.flags.contains .loose, p.flags.contains .addExports,
          p.value? .config, p.flags.contains .quiet, p.flags.contains .verbose,
          p.value? .output⟩ := by
  unfold parse
  rw [bind_eq_ok_iff]
  refine exists_congr fun p => and_congr_right fun _ => ?_
  dsimp only
  cases p.flags.contains .quiet && p.flags.contains .verbose with
  | true => simp
  | false => cases p.value? .input <;> simp [eq_comm]

/-- The option is found where it is, and does nothing else than to name the output. -/
theorem parse_splitOutput {arguments : List String} {a : Arguments}
    (parsed : parse arguments = .ok a) :
    a.output = (splitOutput arguments).1 ∧ parse (splitOutput arguments).2 =
      .ok { a with output := none } := by
  obtain ⟨p, taken, calm, input, found, rfl⟩ := parse_eq_ok_iff.mp parsed
  obtain ⟨p', taken', same⟩ := Partial.takeAll_splitOutput ⟨rfl, by decide⟩ taken
  refine ⟨same.given, parse_eq_ok_iff.mpr ⟨p', taken', by rwa [same.flags], input, ?_, ?_⟩⟩
  · rw [same.others .input (by decide), found]
  · rw [same.flags, same.others .config (by decide), same.absent]

end ModuleLowering.Arguments
