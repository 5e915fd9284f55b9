import Mathlib.Logic.Basic
import ModuleLowering.CommandLine.Arguments
import ModuleLowering.Error

/-!
What the arguments of the command ask for, one request after the other. A value is noted down when
the next request comes, so that it does not matter to the rest whether it is noted down already.
-/

set_option autoImplicit false

namespace ModuleLowering

namespace Arguments

inductive Request where
  | flag (f : Flag)
  | option (s : Slot) (attached : Option String)
  | plain (value : String)
  deriving DecidableEq, Repr

def letterRequests : List Char → Option (List Request)
  | [] => some []
  | 'q' :: cs => (letterRequests cs).map (.flag .quiet :: ·)
  | 'v' :: cs => (letterRequests cs).map (.flag .verbose :: ·)
  | 'o' :: [] => some [.option .output none]
  | 'o' :: '=' :: cs => some [.option .output (some (String.ofList cs))]
  | 'o' :: cs => some [.option .output (some (String.ofList cs))]
  | _ => none

def namedRequest (name : String) (attached : Option String) : Option Request :=
  match Flag.all.find? (·.name == name), attached with
  | some f, none => some (.flag f)
  | some _, some _ => none
  | none, _ =>
    match name with
    | "--config" => some (.option .config attached)
    | "--output" => some (.option .output attached)
    | _ => none

def requests (argument : String) : Option (List Request) :=
  match argument.toList with
  | '-' :: '-' :: cs =>
    (namedRequest (Partial.splitValue ('-' :: '-' :: cs)).1
      (Partial.splitValue ('-' :: '-' :: cs)).2).map ([·])
  | '-' :: c :: cs => letterRequests (c :: cs)
  | _ => some [.plain argument]

namespace Partial

variable {p q r : Partial}

def apply (p : Partial) : Request → Except ArgumentError Partial
  | .flag f => p.setFlag f
  | .option s attached => p.option s attached
  | .plain value => p.plain value

theorem help_ne_ok : p.help ≠ .ok q := by
  intro done
  obtain ⟨_, _, failed⟩ := bind_eq_ok_iff.mp done
  cases failed

theorem short_eq_ok_iff {cs : List Char} :
    p.short cs = .ok q ↔ ∃ rs, letterRequests cs = some rs ∧ rs.foldlM apply p = .ok q := by
  fun_induction letterRequests cs generalizing p with
  | case1 => simp [short, pure, Except.pure]
  | case2 cs ih | case3 cs ih =>
    simp only [short, bind_eq_ok_iff, ih, Option.map_eq_some_iff]
    constructor
    · rintro ⟨p', set, rs, known, rest⟩
      exact ⟨_, ⟨rs, known, rfl⟩, bind_eq_ok_iff.mpr ⟨p', set, rest⟩⟩
    · rintro ⟨_, ⟨rs, known, rfl⟩, done⟩
      obtain ⟨p', set, rest⟩ := bind_eq_ok_iff.mp done
      exact ⟨p', set, rs, known, rest⟩
  | case4 | case5 => simp [short, apply]
  | case6 cs some other =>
    rw [short]
    · simp [apply]
    · exact some
    · exact other
  | case7 cs =>
    refine iff_of_false (fun done => ?_) (by simp)
    unfold short at done
    split at done
    case h_4 => exact help_ne_ok done
    case h_8 => cases done
    all_goals simp_all

theorem long_eq_ok_iff {name : String} {attached : Option String} :
    p.long name attached = .ok q ↔ ∃ r, namedRequest name attached = some r ∧
      p.apply r = .ok q := by
  unfold long namedRequest
  generalize Flag.all.find? (·.name == name) = found
  cases found with
  | some f => cases attached <;> simp [apply]
  | none =>
    dsimp only
    split
    · simp [apply]
    · simp [apply]
    · simp [help_ne_ok]
    · simp
    · next notConfig notOutput _ _ =>
      refine iff_of_false nofun ?_
      rintro ⟨r, known, -⟩
      split at known
      · exact notConfig rfl
      · exact notOutput rfl
      · cases known

theorem take_eq_ok_iff {argument : String} :
    p.take argument = .ok q ↔ ∃ rs, requests argument = some rs ∧ rs.foldlM apply p = .ok q := by
  unfold requests
  split
  · next cs spelled =>
    have taken : p.take argument =
        p.long (splitValue ('-' :: '-' :: cs)).1 (splitValue ('-' :: '-' :: cs)).2 := by
      rw [take, spelled]
      rfl
    simp only [taken, long_eq_ok_iff, Option.map_eq_some_iff]
    constructor
    · rintro ⟨r, known, done⟩
      exact ⟨_, ⟨r, known, rfl⟩, bind_eq_ok_iff.mpr ⟨q, done, rfl⟩⟩
    · rintro ⟨_, ⟨r, known, rfl⟩, done⟩
      obtain ⟨_, done, same⟩ := bind_eq_ok_iff.mp done
      cases same
      exact ⟨r, known, done⟩
  · next c cs other spelled =>
    have taken : p.take argument = p.short (c :: cs) := by
      rw [take, spelled]
      split
      · next same => exact (other (List.cons.inj (List.cons.inj same).2).1).elim
      · next same => rw [(List.cons.inj same).2]
      · next none => exact (none _ _ rfl).elim
    rw [taken]
    exact short_eq_ok_iff
  · next notLong notShort =>
    have taken : p.take argument = p.plain argument := by
      rw [take]
      split
      · next spelled => exact (notLong _ spelled).elim
      · next spelled => exact (notShort _ _ spelled).elim
      · rfl
    simp [taken, apply]

theorem takeAll_cons {argument : String} (other : argument ≠ "--") (rest : List String) :
    p.takeAll (argument :: rest) = p.take argument >>= fun q => q.takeAll rest := by
  rw [takeAll]
  exact other

def due? (p : Partial) : Option (Slot × String) :=
  match p.pending with
  | some (s, some value) => some (s, value)
  | some (.output, none) => some (.output, "")
  | _ => none

def isWaiting (p : Partial) : Bool := p.pending.any (·.2.isNone)

theorem setValue_eq_ok_iff {s : Slot} {value : String} :
    p.setValue s value = .ok q ↔ p.value? s = none ∧ (value = "" → s = .output) ∧
      q = ⟨p.flags, (s, value) :: p.values, none⟩ := by
  unfold setValue
  split
  · next taken => simp [Option.isSome_iff_ne_none.mp taken]
  · next free =>
    have free : p.value? s = none := by simpa using free
    split
    · next missing =>
      have missing : value = "" ∧ s ≠ .output := by simpa using missing
      simp [missing]
    · next fine =>
      have fine : value = "" → s = .output := by simpa using fine
      exact ⟨fun done => ⟨free, fine, (Except.ok.inj done).symm⟩, fun h => congrArg _ h.2.2.symm⟩

theorem settle_eq_ok_iff :
    p.settle = .ok q ↔ (p.pending = none ∧ q = p) ∨ ∃ e, p.due? = some e ∧
      p.setValue e.1 e.2 = .ok q := by
  unfold settle due?
  cases held : p.pending with
  | none => simp [eq_comm]
  | some e =>
    obtain ⟨s, value⟩ := e
    cases value with
    | some value => simp
    | none => cases s <;> simp

theorem settle_of_pending_eq_none (held : p.pending = none) : p.settle = .ok p :=
  settle_eq_ok_iff.mpr (.inl ⟨held, rfl⟩)

theorem pending_of_settle (done : p.settle = .ok q) : q.pending = none := by
  rcases settle_eq_ok_iff.mp done with ⟨held, rfl⟩ | ⟨e, -, set⟩
  · exact held
  · obtain ⟨-, -, rfl⟩ := setValue_eq_ok_iff.mp set
    rfl

theorem value?_cons (s s' : Slot) (value : String) (flags : List Flag)
    (values : List (Slot × String)) (pending pending' : Option (Slot × Option String)) :
    value? ⟨flags, (s, value) :: values, pending⟩ s' =
      if s = s' then some value else value? ⟨flags, values, pending'⟩ s' := by
  unfold value?
  rw [List.find?_cons]
  split <;> simp_all

theorem setFlag_eq_ok_iff {f : Flag} :
    p.setFlag f = .ok r ↔ ∃ q, p.settle = .ok q ∧ f ∉ q.flags ∧
      r = { q with flags := f :: q.flags } := by
  unfold setFlag
  rw [bind_eq_ok_iff]
  refine exists_congr fun q => and_congr_right fun _ => ?_
  split <;> simp_all [eq_comm]

theorem option_eq_ok_iff {s : Slot} {attached : Option String} :
    p.option s attached = .ok r ↔ ∃ q, p.settle = .ok q ∧
      ((∃ value, attached = some value ∧ q.setValue s value = .ok r) ∨
        (attached = none ∧ r = { q with pending := some (s, none) })) := by
  unfold option
  rw [bind_eq_ok_iff]
  refine exists_congr fun q => and_congr_right fun _ => ?_
  cases attached <;> simp [eq_comm]

theorem due?_eq_some {e : Slot × String} (due : p.due? = some e) :
    p.pending.map Prod.fst = some e.1 := by
  unfold due? at due
  split at due
  · next held => cases due; simp [held]
  · next held => cases due; simp [held]
  · cases due

theorem value?_settle (settled : p.settle = .ok q) (s : Slot) :
    q.value? s = none ↔ p.value? s = none ∧ p.pending.map Prod.fst ≠ some s := by
  rcases settle_eq_ok_iff.mp settled with ⟨held, rfl⟩ | ⟨e, due, set⟩
  · simp [held]
  · obtain ⟨-, -, rfl⟩ := setValue_eq_ok_iff.mp set
    rw [value?_cons _ _ _ _ _ _ p.pending, due?_eq_some due]
    split <;> simp_all

theorem file_eq_ok_iff {value : String} :
    p.file value = .ok r ↔ ∃ q, p.settle = .ok q ∧ q.value? .input = none ∧
      r = { q with pending := some (.input, some value) } := by
  unfold file
  split
  · next taken =>
    refine iff_of_false nofun ?_
    rintro ⟨q, settled, free, -⟩
    have free := (value?_settle settled .input).mp free
    simp [free.1, free.2] at taken
  · next free =>
    rw [bind_eq_ok_iff]
    refine exists_congr fun q => and_congr_right fun settled => ?_
    have free : q.value? .input = none := (value?_settle settled .input).mpr (by simpa using free)
    simp [free, eq_comm]

/-- A request looks at the last value only once it is noted down, unless the value itself is what
comes next. -/
theorem apply_eq_ok_iff_settled {request : Request}
    (ready : p.isWaiting = true → ∀ value, request ≠ .plain value) :
    p.apply request = .ok r ↔ ∃ q, p.settle = .ok q ∧ q.apply request = .ok r := by
  have again {q : Partial} (settled : p.settle = .ok q) :=
    settle_of_pending_eq_none (pending_of_settle settled)
  cases request with
  | flag f =>
    simp only [apply, setFlag_eq_ok_iff]
    refine exists_congr fun q => and_congr_right fun settled => ?_
    simp [again settled]
  | option s attached =>
    simp only [apply, option_eq_ok_iff]
    refine exists_congr fun q => and_congr_right fun settled => ?_
    simp [again settled]
  | plain value =>
    have ready : p.isWaiting = false := Bool.eq_false_iff.mpr fun waits => ready waits value rfl
    have file {p : Partial} (ready : p.isWaiting = false) : p.plain value = p.file value := by
      unfold plain
      split
      · next held => simp [isWaiting, held] at ready
      · rfl
    simp only [apply, file ready, file_eq_ok_iff]
    refine exists_congr fun q => and_congr_right fun settled => ?_
    have free : q.isWaiting = false := by simp [isWaiting, pending_of_settle settled]
    simp [file free, file_eq_ok_iff, again settled]

end Partial

def isPlain (argument : String) : Bool :=
  match argument.toList with
  | '-' :: _ :: _ => false
  | _ => true

theorem letterRequests_cons {c : Char} {cs : List Char} {rs : List Request}
    (known : letterRequests (c :: cs) = some rs) :
    ∃ first rest, rs = first :: rest ∧ ∀ value, first ≠ .plain value := by
  unfold letterRequests at known
  split at known
  · next empty => cases empty
  · obtain ⟨rest, -, rfl⟩ := Option.map_eq_some_iff.mp known
    exact ⟨_, rest, rfl, nofun⟩
  · obtain ⟨rest, -, rfl⟩ := Option.map_eq_some_iff.mp known
    exact ⟨_, rest, rfl, nofun⟩
  · cases known
    exact ⟨_, _, rfl, nofun⟩
  · cases known
    exact ⟨_, _, rfl, nofun⟩
  · cases known
    exact ⟨_, _, rfl, nofun⟩
  · cases known

theorem namedRequest_ne_plain {name : String} {attached : Option String} {r : Request}
    (known : namedRequest name attached = some r) (value : String) : r ≠ .plain value := by
  rintro rfl
  unfold namedRequest at known
  split at known
  · cases known
  · cases known
  · split at known <;> cases known

theorem requests_cons {argument : String} {rs : List Request}
    (known : requests argument = some rs) :
    ∃ first rest, rs = first :: rest ∧
      (isPlain argument = false → ∀ value, first ≠ .plain value) := by
  unfold requests at known
  unfold isPlain
  split at known
  · obtain ⟨r, named, rfl⟩ := Option.map_eq_some_iff.mp known
    exact ⟨r, [], rfl, fun _ => namedRequest_ne_plain named⟩
  · obtain ⟨first, rest, rfl, option⟩ := letterRequests_cons known
    exact ⟨first, rest, rfl, fun _ => option⟩
  · next other =>
    cases known
    refine ⟨_, _, rfl, fun isOption => ?_⟩
    split at isOption
    · next same => exact (other _ _ same).elim
    · cases isOption

namespace Partial

variable {p q r : Partial}

theorem bind_eq_ok_iff_settled {f k : Partial → Except ArgumentError Partial}
    (first : ∀ r, f p = .ok r ↔ ∃ q, p.settle = .ok q ∧ f q = .ok r) :
    (f p >>= k) = .ok r ↔ ∃ q, p.settle = .ok q ∧ (f q >>= k) = .ok r := by
  simp only [bind_eq_ok_iff, first]
  constructor
  · rintro ⟨p', ⟨q, settled, done⟩, rest⟩
    exact ⟨q, settled, p', done, rest⟩
  · rintro ⟨q, settled, p', done, rest⟩
    exact ⟨p', ⟨q, settled, done⟩, rest⟩

theorem settle_eq_ok_iff_settled : p.settle = .ok r ↔ ∃ q, p.settle = .ok q ∧ q.settle = .ok r := by
  constructor
  · exact fun settled => ⟨r, settled, settle_of_pending_eq_none (pending_of_settle settled)⟩
  · rintro ⟨q, settled, same⟩
    rw [settle_of_pending_eq_none (pending_of_settle settled)] at same
    cases same
    exact settled

theorem file_eq_ok_iff_settled {value : String} :
    p.file value = .ok r ↔ ∃ q, p.settle = .ok q ∧ q.file value = .ok r := by
  simp only [file_eq_ok_iff]
  refine exists_congr fun q => and_congr_right fun settled => ?_
  simp [settle_of_pending_eq_none (pending_of_settle settled)]

theorem takeAll_eq_ok_iff_settled {arguments : List String}
    (ready : p.isWaiting = true → ∀ argument ∈ arguments.head?, isPlain argument = false) :
    p.takeAll arguments = .ok r ↔ ∃ q, p.settle = .ok q ∧ q.takeAll arguments = .ok r := by
  cases arguments with
  | nil => exact settle_eq_ok_iff_settled
  | cons argument rest =>
    by_cases separator : argument = "--"
    · subst separator
      cases rest with
      | nil => exact settle_eq_ok_iff_settled
      | cons value files =>
        simp only [takeAll, List.foldlM_cons, bind_assoc]
        exact bind_eq_ok_iff_settled (f := fun p => p.file value) fun _ => file_eq_ok_iff_settled
    · simp only [takeAll_cons separator]
      have step {p' : Partial} {rs : List Request} (known : requests argument = some rs) :
          rs.foldlM apply p = .ok p' ↔ ∃ q, p.settle = .ok q ∧ rs.foldlM apply q = .ok p' := by
        obtain ⟨first, others, rfl, option⟩ := requests_cons known
        simp only [List.foldlM_cons]
        exact bind_eq_ok_iff_settled (f := fun p => p.apply first) fun _ =>
          apply_eq_ok_iff_settled fun waits => option (ready waits argument rfl)
      refine bind_eq_ok_iff_settled (f := fun p => p.take argument) fun p' => ?_
      simp only [take_eq_ok_iff]
      constructor
      · rintro ⟨rs, known, done⟩
        obtain ⟨q, settled, done⟩ := (step known).mp done
        exact ⟨q, settled, rs, known, done⟩
      · rintro ⟨q, settled, rs, known, done⟩
        exact ⟨rs, known, (step known).mpr ⟨q, settled, done⟩⟩

end Partial

end Arguments

end ModuleLowering
