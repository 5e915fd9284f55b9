import ModuleLowering.Proofs.Trace.Run

/-!
What the text of a program says about its runs: no run writes a variable other than at a place that
the text has, and each place in a pattern, in the head of a loop or behind a type is written by some
run.
-/

set_option autoImplicit false

namespace ModuleLowering

open Computability

section
variable {α : Type} {P : α → Prop}

def wordsOver (P : α → Prop) : Language α := {τ | ∀ e ∈ τ, P e}

theorem one_le_wordsOver : (1 : Language α) ≤ wordsOver P := by
  rintro _ rfl e inside
  cases inside

theorem mul_le_wordsOver {L M : Language α} (first : L ≤ wordsOver P) (second : M ≤ wordsOver P) :
    L * M ≤ wordsOver P := by
  rintro _ ⟨σ, left, τ, right, rfl⟩ e inside
  exact (List.mem_append.mp inside).elim (first left e) (second right e)

theorem kstar_le_wordsOver {L : Language α} (each : L ≤ wordsOver P) : L∗ ≤ wordsOver P := by
  rintro _ ⟨words, rfl, all⟩ e inside
  obtain ⟨σ, among, inside⟩ := List.mem_flatten.mp inside
  exact each (all σ among) e inside

theorem word_le_wordsOver {e : α} (fits : P e) : ({[e]} : Language α) ≤ wordsOver P := by
  rintro _ rfl e' inside
  exact List.mem_singleton.mp inside ▸ fits

end

variable {V : Type}

namespace Behaviour

def Within (P : Effect V → Prop) (k : Behaviour V) : Prop := ∀ r, k r ≤ wordsOver P

variable {P : Effect V → Prop} {k : Behaviour V} {ks : List (Behaviour V)}

theorem Within.any (within : k.Within P) : k.any ≤ wordsOver P := fun _ ⟨r, here⟩ => within r here

theorem Within.ended (within : k.Within P) : k.ended ≤ wordsOver P :=
  fun _ ⟨v, here⟩ => within (some v) here

theorem within_inOrder (within : ∀ k ∈ ks, k.Within P) : (inOrder ks).Within P := by
  induction ks with
  | nil =>
    intro r
    cases r with
    | some v => exact one_le_wordsOver
    | none => exact bot_le
  | cons k ks ih =>
    obtain ⟨first, rest⟩ := List.forall_mem_cons.mp within
    intro r
    cases r with
    | some v => exact mul_le_wordsOver first.ended (ih rest _)
    | none => exact add_le (first none) (mul_le_wordsOver first.ended (ih rest none))

theorem within_opening (begun : P .begun) (within : k.Within P) : (opening k).Within P :=
  fun r => mul_le_wordsOver (word_le_wordsOver begun) (within r)

section
variable {later : Language (Effect V)} (calls : later ≤ wordsOver P)
include calls

theorem within_idle : (idle later).Within P := fun _ => kstar_le_wordsOver calls

theorem within_mixed (within : ∀ k ∈ ks, k.Within P) : (mixed later ks).Within P :=
  fun _ => kstar_le_wordsOver (add_le calls fun _ ⟨k, among, here⟩ => (within k among).any here)

variable {x : String} {ref : Reference}

theorem within_stepping (written : ∀ v, P (.written .direct x ref v)) :
    (stepping later x ref).Within P := by
  intro r
  cases r with
  | some v => exact mul_le_wordsOver (kstar_le_wordsOver calls) (word_le_wordsOver (written v))
  | none => exact kstar_le_wordsOver calls

theorem within_updating (written : ∀ v, P (.written .direct x ref v)) (isPrefixed : Bool) :
    (updating later x ref isPrefixed).Within P := by
  have step := within_stepping calls written
  cases isPrefixed with
  | true => exact step
  | false =>
    exact within_inOrder (List.forall_mem_cons.mpr
      ⟨step, List.forall_mem_singleton.mpr (within_idle calls)⟩)

theorem within_combining (written : ∀ v, P (.written .direct x ref v))
    (kept : ∀ v, P (.kept x ref v)) (within : k.Within P) (isLogical : Bool) :
    (combining later x ref isLogical k).Within P := by
  have around := kstar_le_wordsOver calls
  intro r
  cases r with
  | none => exact add_le around (mul_le_wordsOver (mul_le_wordsOver around within.any) around)
  | some v =>
    have before := mul_le_wordsOver (mul_le_wordsOver around within.ended) around
    refine add_le (mul_le_wordsOver before (word_le_wordsOver (written v)))
      (mul_le_wordsOver around ?_)
    split
    · exact word_le_wordsOver (kept v)
    · exact bot_le

theorem within_casting (written : ∀ v, P (.written .cast x ref v)) :
    (casting later x ref).Within P :=
  fun _ => add_le (kstar_le_wordsOver calls) fun _ ⟨v, eq⟩ => eq ▸ word_le_wordsOver (written v) rfl

end

section
variable {x : String} {ref : Reference}

theorem within_assigning (written : ∀ v, P (.written .direct x ref v)) (within : k.Within P) :
    (assigning x ref k).Within P := by
  intro r
  cases r with
  | some v => exact mul_le_wordsOver (within _) (word_le_wordsOver (written v))
  | none => exact within.any

theorem within_taking (written : ∀ v, P (.written .taken x ref v)) : (taking x ref).Within P :=
  fun _ => add_le one_le_wordsOver fun _ ⟨v, eq⟩ => eq ▸ word_le_wordsOver (written v) rfl

theorem within_exporting {name : String} (exported : ∀ v, P (.exported name v))
    (within : k.Within P) :
    (exporting name k).Within P := by
  intro r
  cases r with
  | some v => exact mul_le_wordsOver (within _) (word_le_wordsOver (exported v))
  | none => exact within none

theorem within_constant (c : V) : (constant c).Within P := by
  intro r
  cases r with
  | some v => exact fun _ ⟨empty, _⟩ => empty ▸ one_le_wordsOver rfl
  | none => exact bot_le

end

end Behaviour

def Effect.IsAmong (S : Site → Prop) : Effect V → Prop
  | .written way x ref _ => S (.variable way x ref)
  | .exported name _ => S (.property name)
  | .begun | .kept .. => True

namespace Form

theorem mem_ordered? {α : Type} {f : Form} {parts ordered : List α}
    (found : f.ordered? parts = some ordered) {x : α} :
    x ∈ ordered ↔ x ∈ parts := by
  unfold ordered? at found
  split at found
  case h_5 =>
    cases found
    exact List.mem_reverse
  case h_6 => cases found
  all_goals
    cases found
    rfl

theorem within_composed {w : Setting V} {ks : List (Behaviour V)} {P : Effect V → Prop}
    (calls : w.later ≤ wordsOver P) (f : Form) (parts : ∀ k ∈ ks, k.Within P) :
    (f.composed w ks).Within P := by
  unfold composed
  split
  · next ordered found =>
    refine Behaviour.within_inOrder fun k among => ?_
    rcases List.mem_append.mp among with part | last
    · exact parts k ((mem_ordered? found).mp part)
    · exact List.mem_singleton.mp last ▸ Behaviour.within_idle calls
  · exact Behaviour.within_mixed calls parts

end Form

namespace Action

theorem used_mapIdx {α β : Type} (g : Nat → α → β) (a : Action) (parts : List α) :
    a.used (parts.mapIdx g) = (a.used parts.zipIdx).map fun q => g q.2 q.1 := by
  rw [List.mapIdx_eq_zipIdx_map, used_map]

theorem mem_of_used {α : Type} {a : Action} {parts : List α} {x : α} (among : x ∈ a.used parts) :
    x ∈ parts := by
  cases a with
  | assignment | exporting => exact List.mem_of_getLast? (Option.mem_toList.mp among)
  | other => exact among
  | update | target | ident | tag | boolean => cases among

variable {w : Setting V} {ks : List (Behaviour V)} {isWritten : Bool} {a : Action}

theorem getLastD_of_used {p : Behaviour V → Prop} {k : Behaviour V} (fallback : p k)
    (last : ∀ k ∈ ks.getLast?.toList, p k) :
    p (ks.getLastD k) := by
  rw [List.getLastD_eq_getLast?]
  cases found : ks.getLast? with
  | none => exact fallback
  | some k => exact last k (Option.mem_toList.mpr found)

theorem within_behaviour {S : Site → Prop} (calls : w.later ≤ wordsOver (Effect.IsAmong S))
    (here : ∀ e ∈ a.writesHere isWritten, S e)
    (parts : ∀ k ∈ a.used ks, k.Within (Effect.IsAmong S)) :
    (a.behaviour w isWritten ks).Within (Effect.IsAmong S) := by
  have idle := Behaviour.within_idle calls
  cases a with
  | assignment op x ref =>
    have written := List.forall_mem_singleton.mp here
    have last := getLastD_of_used idle parts
    cases op with
    | plain => exact Behaviour.within_assigning (fun _ => written) last
    | combined op =>
      exact Behaviour.within_combining calls (fun _ => written) (fun _ => trivial) last _
  | exporting name =>
    have exported := List.forall_mem_singleton.mp here
    exact Behaviour.within_exporting (fun _ => exported) (getLastD_of_used idle parts)
  | update isPrefixed x ref =>
    have written := List.forall_mem_singleton.mp here
    exact Behaviour.within_updating calls (fun _ => written) isPrefixed
  | target x ref =>
    have written := List.forall_mem_singleton.mp here
    exact Behaviour.within_taking fun _ => written
  | ident x ref =>
    cases isWritten with
    | true =>
      have written := List.forall_mem_singleton.mp here
      exact Behaviour.within_casting calls fun _ => written
    | false => exact idle
  | tag => exact idle
  | boolean b => exact Behaviour.within_constant _
  | other f =>
    have composed := f.within_composed calls parts
    show (f.behaviour w ks).Within _
    unfold Form.behaviour
    split
    · exact Behaviour.within_opening trivial composed
    · exact composed

end Action

namespace Node

theorem mem_writes_mk {f : Form} {s : Option Span} {ps : List Node} {isWritten : Bool} {e : Site} :
    e ∈ (mk f s ps).writes isWritten ↔ e ∈ (mk f s ps).action.writesHere isWritten ∨
      ∃ p i, (p, i) ∈ (mk f s ps).action.used ps.zipIdx ∧
      e ∈ p.writes (f.writesPart isWritten i) := by
  rw [writes_mk, Action.used_mapIdx]
  simp only [List.mem_append, List.mem_flatten, List.mem_map, Prod.exists]
  refine or_congr_right ⟨?_, ?_⟩
  · rintro ⟨_, ⟨p, i, used, rfl⟩, inside⟩
    exact ⟨p, i, used, inside⟩
  · rintro ⟨p, i, used, inside⟩
    exact ⟨_, ⟨p, i, used, rfl⟩, inside⟩

theorem mem_parts_of_used {a : Action} {p : Node} {i : Nat} {ps : List Node}
    (used : (p, i) ∈ a.used ps.zipIdx) : p ∈ ps :=
  List.fst_mem_of_mem_zipIdx (Action.mem_of_used used)

theorem within_runs {S : Site → Prop} {w : Setting V}
    (calls : w.later ≤ wordsOver (Effect.IsAmong S)) {n : Node} {isWritten : Bool}
    (places : ∀ e ∈ n.writes isWritten, S e) : (n.runs w isWritten).Within (Effect.IsAmong S) := by
  induction n using Node.induction generalizing isWritten with
  | step f s ps ih =>
  rw [runs_mk]
  refine Action.within_behaviour calls (fun e itself => places e (mem_writes_mk.mpr (.inl itself)))
    fun k among => ?_
  rw [Action.used_mapIdx] at among
  obtain ⟨⟨p, i⟩, used, rfl⟩ := List.mem_map.mp among
  exact ih p (mem_parts_of_used used) fun e inside =>
    places e (mem_writes_mk.mpr (.inr ⟨p, i, used, inside⟩))

theorem writes_of_deferred {f : Form} (deferred : f.isDeferred = true) (s : Option Span)
    (ps : List Node) (isWritten : Bool) :
    (mk f s ps).writes isWritten = (mk f s ps).writes false := by
  rw [writes_mk, writes_mk]
  cases f
  case function | arrow | classDef => rfl
  all_goals cases deferred

theorem writes_of_mem_deferred {n g : Node} (among : g ∈ n.deferred) {isWritten : Bool} {e : Site}
    (written : e ∈ g.writes false) :
    e ∈ n.writes isWritten := by
  induction n using Node.induction generalizing isWritten with
  | step f s ps ih =>
  rw [deferred_mk] at among
  rcases List.mem_append.mp among with itself | inside
  · split at itself
    · next deferred =>
      rw [List.mem_singleton.mp itself] at written
      rwa [writes_of_deferred deferred]
    · cases itself
  · have parts : ps.map deferred = ps.zipIdx.map fun q => q.1.deferred := by
      rw [← Function.comp_def deferred, ← List.map_map, List.zipIdx_map_fst]
    rw [parts, Action.used_map] at inside
    obtain ⟨_, parts, inside⟩ := List.mem_flatten.mp inside
    obtain ⟨⟨p, i⟩, used, rfl⟩ := List.mem_map.mp parts
    exact mem_writes_mk.mpr (.inr ⟨p, i, used, ih p (mem_parts_of_used used) inside⟩)

/-- No call of a function writes at a place that no function of the program has. -/
theorem later_setting_le (ofBool : Bool → V) {program : Node} {S : Site → Prop}
    (places : ∀ g ∈ program.deferred, ∀ e ∈ g.writes false, S e) (depth : Nat) :
    (program.setting ofBool depth).later ≤ wordsOver (Effect.IsAmong S) := by
  induction depth with
  | zero => exact bot_le
  | succ depth ih =>
    rintro τ ⟨k, among, here⟩
    obtain ⟨g, deferred, rfl⟩ := List.mem_map.mp among
    exact (within_runs ih (places g deferred)).any here

theorem within_runsAt (ofBool : Bool → V) (program : Node) (depth : Nat) :
    (program.runsAt ofBool depth).Within (Effect.IsAmong (· ∈ program.writes false)) :=
  within_runs (later_setting_le ofBool (fun _ deferred _ written => writes_of_mem_deferred deferred
    written) depth) fun _ written => written

end Node

namespace Behaviour

def CanEnd (k : Behaviour V) : Prop := ∃ τ, τ ∈ k.ended

variable {k : Behaviour V} {ks : List (Behaviour V)}

theorem canEnd_inOrder [Nonempty V] (ends : ∀ k ∈ ks, k.CanEnd) : (inOrder ks).CanEnd := by
  induction ks with
  | nil => exact ⟨[], Classical.arbitrary V, rfl⟩
  | cons k ks ih =>
    obtain ⟨⟨σ, first⟩, rest⟩ := List.forall_mem_cons.mp ends
    obtain ⟨τ, v, last⟩ := ih rest
    exact ⟨σ ++ τ, v, Language.append_mem_mul first last⟩

theorem exists_inOrder (ends : ∀ k ∈ ks, k.CanEnd) (among : k ∈ ks) {τ : List (Effect V)}
    (here : τ ∈ k none) :
    ∃ σ, σ ++ τ ∈ inOrder ks none := by
  induction ks with
  | nil => cases among
  | cons k' ks ih =>
    obtain ⟨⟨σ, first⟩, rest⟩ := List.forall_mem_cons.mp ends
    rcases List.mem_cons.mp among with rfl | after
    · exact ⟨[], .inl here⟩
    · obtain ⟨σ', last⟩ := ih rest after
      exact ⟨σ ++ σ', by rw [List.append_assoc]; exact mem_inOrder_cons_of_ended first last⟩

end Behaviour

theorem Setting.canEnd_idle (w : Setting V) : (Behaviour.idle w.later).CanEnd :=
  ⟨[], w.ofBool true, Language.nil_mem_kstar w.later⟩

section
variable {w : Setting V} {ks : List (Behaviour V)} {isWritten : Bool}

theorem Form.canEnd_behaviour (f : Form) (parts : ∀ k ∈ ks, k.CanEnd) :
    (f.behaviour w ks).CanEnd := by
  have := w.nonempty
  have composed : (f.composed w ks).CanEnd := by
    unfold composed
    split
    · next ordered found =>
      refine Behaviour.canEnd_inOrder fun k among => ?_
      rcases List.mem_append.mp among with part | last
      · exact parts k ((mem_ordered? found).mp part)
      · exact List.mem_singleton.mp last ▸ w.canEnd_idle
    · exact ⟨[], w.ofBool true, Language.nil_mem_kstar _⟩
  unfold behaviour
  split
  · obtain ⟨τ, v, here⟩ := composed
    exact ⟨[.begun] ++ τ, v, Language.append_mem_mul (mem_word.mpr rfl) here⟩
  · exact composed

theorem Action.canEnd_behaviour {a : Action} (parts : ∀ k ∈ a.used ks, k.CanEnd) :
    (a.behaviour w isWritten ks).CanEnd := by
  have := w.nonempty
  have nothing : [] ∈ w.later∗ := Language.nil_mem_kstar w.later
  cases a with
  | assignment op x ref =>
    obtain ⟨τ, v, here⟩ := getLastD_of_used w.canEnd_idle parts
    cases op with
    | plain => exact ⟨_, v, Language.append_mem_mul here rfl⟩
    | combined op =>
      have ended : τ ∈ (ks.getLastD (.idle w.later)).ended := ⟨v, here⟩
      have around := Language.append_mem_mul (Language.append_mem_mul nothing ended) nothing
      exact ⟨_, v, .inl (Language.append_mem_mul around rfl)⟩
  | exporting name =>
    obtain ⟨τ, v, here⟩ := getLastD_of_used w.canEnd_idle parts
    exact ⟨_, v, Language.append_mem_mul here rfl⟩
  | update isPrefixed x ref =>
    have step : (Behaviour.stepping w.later x ref).CanEnd :=
      ⟨_, w.ofBool true, Language.append_mem_mul nothing rfl⟩
    cases isPrefixed with
    | true => exact step
    | false =>
      exact Behaviour.canEnd_inOrder
        (List.forall_mem_cons.mpr ⟨step, List.forall_mem_singleton.mpr w.canEnd_idle⟩)
  | target x ref => exact ⟨[], w.ofBool true, .inl rfl⟩
  | ident x ref =>
    cases isWritten with
    | true => exact ⟨[], w.ofBool true, .inl nothing⟩
    | false => exact w.canEnd_idle
  | tag => exact w.canEnd_idle
  | boolean b => exact ⟨[], w.ofBool b, rfl, rfl⟩
  | other f => exact f.canEnd_behaviour parts

theorem Node.canEnd_runs (n : Node) : (n.runs w isWritten).CanEnd := by
  induction n using Node.induction generalizing isWritten with
  | step f s ps ih =>
  rw [runs_mk]
  refine Action.canEnd_behaviour fun k among => ?_
  rw [Action.used_mapIdx] at among
  obtain ⟨⟨p, i⟩, part, rfl⟩ := List.mem_map.mp among
  exact ih p (List.fst_mem_of_mem_zipIdx (Action.mem_of_used part))

section
variable {k : Behaviour V} {τ : List (Effect V)} (here : τ ∈ k none)
include here

theorem Form.exists_behaviour (f : Form) (ends : ∀ k ∈ ks, k.CanEnd) (among : k ∈ ks) :
    ∃ σ, σ ++ τ ∈ f.behaviour w ks none := by
  have composed : ∃ σ, σ ++ τ ∈ f.composed w ks none := by
    unfold composed
    cases found : f.ordered? ks with
    | some ordered =>
      refine Behaviour.exists_inOrder (fun k among => ?_)
        (List.mem_append_left _ ((mem_ordered? found).mpr among)) here
      rcases List.mem_append.mp among with part | last
      · exact ends k ((mem_ordered? found).mp part)
      · exact List.mem_singleton.mp last ▸ w.canEnd_idle
    | none =>
      exact ⟨[], (le_kstar : _ ≤ (w.later + Behaviour.anyOf ks)∗) (.inr ⟨k, among, none, here⟩)⟩
  unfold behaviour
  split
  · obtain ⟨σ, before⟩ := composed
    exact ⟨[.begun] ++ σ, by rw [List.append_assoc]; exact Language.append_mem_mul rfl before⟩
  · exact composed

theorem Action.exists_behaviour {a : Action} (ends : ∀ k ∈ a.used ks, k.CanEnd)
    (among : k ∈ a.used ks) :
    ∃ σ, σ ++ τ ∈ a.behaviour w isWritten ks none := by
  have nothing : [] ∈ w.later∗ := Language.nil_mem_kstar w.later
  have last (inside : k ∈ ks.getLast?.toList) : ks.getLastD (.idle w.later) = k := by
    rw [List.getLastD_eq_getLast?, Option.mem_toList.mp inside]
    rfl
  cases a with
  | assignment op x ref =>
    refine ⟨[], ?_⟩
    cases op with
    | plain =>
      rw [behaviour, last among]
      exact ⟨none, here⟩
    | combined op =>
      rw [behaviour, last among]
      have around : τ ++ [] ∈ w.later∗ * k.any * w.later∗ :=
        Language.append_mem_mul (Language.append_mem_mul nothing ⟨none, here⟩) nothing
      rw [List.append_nil] at around
      exact .inr around
  | exporting name =>
    rw [behaviour, last among]
    exact ⟨[], here⟩
  | other f => exact f.exists_behaviour here ends among
  | update | target | ident | tag | boolean => cases among

end

/-- A place in a pattern, in the head of a loop or behind a type is the last thing that some run
does. -/
theorem Node.exists_run_of_mem_writes {n : Node} {way : Way} {x : String} {ref : Reference}
    (written : .variable way x ref ∈ n.writes isWritten) (indirect : way ≠ .direct) (v : V) :
    ∃ σ, σ ++ [.written way x ref v] ∈ n.runs w isWritten none := by
  induction n using Node.induction generalizing isWritten with
  | step f s ps ih =>
  rw [runs_mk]
  rcases mem_writes_mk.mp written with itself | ⟨p, i, used, inside⟩
  · refine ⟨[], ?_⟩
    cases action : (mk f s ps).action with
    | target =>
      rw [action] at itself
      cases List.mem_singleton.mp itself
      exact .inr ⟨v, rfl⟩
    | ident =>
      rw [action] at itself
      cases isWritten with
      | true =>
        cases List.mem_singleton.mp itself
        exact .inr ⟨v, rfl⟩
      | false => cases itself
    | assignment | update =>
      rw [action] at itself
      cases List.mem_singleton.mp itself
      exact absurd rfl indirect
    | exporting =>
      rw [action] at itself
      cases List.mem_singleton.mp itself
    | tag | boolean | other =>
      rw [action] at itself
      cases itself
  · -- The parts before it can all run to their ends, so there is a run that gets to it.
    obtain ⟨σ, deeper⟩ := ih p (mem_parts_of_used used) inside
    have runs := Action.used_mapIdx (fun i p => p.runs w (f.writesPart isWritten i))
      (mk f s ps).action ps
    have among : p.runs w (f.writesPart isWritten i) ∈
        (mk f s ps).action.used (ps.mapIdx fun i p => p.runs w (f.writesPart isWritten i)) := by
      rw [runs]
      exact List.mem_map.mpr ⟨(p, i), used, rfl⟩
    obtain ⟨σ', whole⟩ := Action.exists_behaviour (w := w) deeper (fun k others => by
      rw [runs] at others
      obtain ⟨q, _, rfl⟩ := List.mem_map.mp others
      exact q.1.canEnd_runs) among
    exact ⟨σ' ++ σ, by rw [List.append_assoc]; exact whole⟩

end

end ModuleLowering
