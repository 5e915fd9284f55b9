import ModuleLowering.Proofs.Lower.Failure

/-!
Helpers in the module that comes out. Each one that is called is declared, once, behind all other
statements and under the name that the calls use; and this name is one that a function may have.
-/

set_option autoImplicit false

namespace ModuleLowering

theorem Item.call?_of_passesOn {item : Item} (passes : item.PassesOn none) : item.call? = none := by
  cases item
  case importVariable | exportGetter => cases passes.source
  all_goals rfl

namespace Draft

variable {r : Draft} {σ : Naming} {options : Options} {hints : Hints} {ns : List Node}

theorem helper?_of_mem_queue (placed : r.Placed σ options hints ns) (calls : r.Calls)
    {e : Priority × Item} (queued : e ∈ r.queue) : e.2.helper? = none := by
  simp only [queue, List.mem_append] at queued
  rcases queued with ((header | top) | body) | footer
  · rcases header_cases header with rfl | rfl <;> rfl
  · exact calls.undeclared e top
  · have own := placed.isMade_body body
    cases item : e.2 with
    | helperFunction =>
      rw [item] at own
      cases own
    | _ => rfl
  · rw [footer_cases footer]
    rfl

/-- The calls of helpers with the priorities of their statements, in the order in which they were
made. -/
def requests (r : Draft) : List (Priority × Helper × String) :=
  r.top.filterMap fun e => e.2.call?.map (e.1, ·)

theorem map_snd_requests (r : Draft) : r.requests.map Prod.snd = r.calls := by
  rw [requests, List.map_filterMap]
  refine List.filterMap_congr fun e _ => ?_
  cases e.2.call? <;> rfl

theorem call_items_eq (placed : r.Placed σ options hints ns) :
    r.items.filterMap Item.call? = (arrange r.requests).map Prod.snd := by
  have helpers : r.helperItems.filterMap Item.call? = [] := by
    rw [helperItems, List.filterMap_map]
    exact List.filterMap_eq_nil_iff.mpr fun entry _ => rfl
  -- Only statements in front call helpers, and sorting them with all others keeps the order that
  -- they have among themselves.
  have front : r.queue.filterMap (fun e => e.2.call?.map (e.1, ·)) = r.requests :=
    placed.filterMap_queue fun e passes => by rw [Item.call?_of_passesOn passes]; rfl
  rw [items_eq_append, List.filterMap_append, helpers, List.append_nil, List.filterMap_map, ← front,
    ← arrange_filterMap, List.map_filterMap]
  refine List.filterMap_congr fun e _ => ?_
  show e.2.call? = _
  cases e.2.call? <;> rfl

theorem arrange_requests (placed : r.Placed σ options .none ns) :
    arrange r.requests = r.requests := by
  refine arrange_of_falling (List.pairwise_of_forall_mem_list fun a first b second => ?_)
  have ordinary {a : Priority × Helper × String} (among : a ∈ r.requests) :
      a.1 = Priority.ordinary := by
    obtain ⟨e, front, taken⟩ := List.mem_filterMap.mp among
    obtain ⟨_, -, rfl⟩ := Option.map_eq_some_iff.mp taken
    exact placed.ordinary_top front
  rw [ordinary first, ordinary second]

end Draft

namespace Module

variable (m : Module) (options : Options) (hints : Hints)

def helperCalls : List (Helper × String) := (m.loweredItems options hints).filterMap Item.call?

def helperDeclarations : List (Helper × String) :=
  (m.loweredItems options hints).filterMap Item.helper?

def helperRequests : List (Priority × Helper × String) :=
  match m.finalDraft? options hints with
  | some r => r.requests
  | none => []

/-- Helpers are declared as they are used, in the order of the first requests. Only hints put the
calls in another order. -/
structure DeclaresHelpers : Prop where
  count : ∀ h, ((m.helperDeclarations options hints).map Prod.fst).count h =
    if h ∈ (m.helperCalls options hints).map Prod.fst then 1 else 0
  named : ∀ call ∈ m.helperCalls options hints, call ∈ m.helperDeclarations options hints
  last : ∃ others, (∀ item ∈ others, item.helper? = none) ∧ m.loweredItems options hints =
    others ++ (m.helperDeclarations options hints).map fun e => .helperFunction e.1 e.2
  ordered : m.helperDeclarations options hints =
    ((m.helperRequests options hints).map Prod.snd).eraseDups
  arranged : m.helperCalls options hints = (arrange (m.helperRequests options hints)).map Prod.snd
  unhinted : hints = .none →
    m.helperCalls options hints = (m.helperRequests options hints).map Prod.snd
  legal : ∀ e ∈ m.helperDeclarations options hints, IsFunctionName e.2 ∧
    e.1.read (e.1.text e.2) = .ok (e.1.declare e.2)

variable {m options hints}

theorem declaresHelpers_of_none (plain : m.finalDraft? options hints = none) :
    m.DeclaresHelpers options hints := by
  have items := loweredItems_of_none plain
  have requests : m.helperRequests options hints = [] := by rw [helperRequests, plain]
  have calls : m.helperCalls options hints = [] := by
    rw [helperCalls, items, List.filterMap_map]
    exact List.filterMap_eq_nil_iff.mpr fun n _ => rfl
  have declared : m.helperDeclarations options hints = [] := by
    rw [helperDeclarations, items, List.filterMap_map]
    exact List.filterMap_eq_nil_iff.mpr fun n _ => rfl
  constructor <;> simp only [calls, declared, requests]
  case last =>
    refine ⟨m.statements.map .kept, fun item among => ?_, by
      rw [items, List.map_nil, List.append_nil]⟩
    obtain ⟨n, -, rfl⟩ := List.mem_map.mp among
    rfl
  case arranged => rw [arrange_of_falling .nil, List.map_nil]
  all_goals simp

theorem declaresHelpers_of_some {r : Draft} (final : m.finalDraft? options hints = some r)
    (drafted : m.draft options hints = .ok r) : m.DeclaresHelpers options hints := by
  have items := loweredItems_of_some final
  have calls := calls_of_draft drafted
  have placed := placed_of_draft drafted
  have requests : m.helperRequests options hints = r.requests := by rw [helperRequests, final]
  have arranged : m.helperCalls options hints = (arrange r.requests).map Prod.snd := by
    rw [helperCalls, items]
    exact Draft.call_items_eq placed
  -- Hints may move calls, so what comes out has the calls that were made, in some order.
  have called : (m.helperCalls options hints).Perm r.calls := by
    rw [arranged, ← r.map_snd_requests]
    exact (arrange_perm _).map Prod.snd
  have silent : ∀ item ∈ (arrange r.queue).map Prod.snd, item.helper? = none := by
    intro item among
    obtain ⟨e, arranged, rfl⟩ := List.mem_map.mp among
    exact Draft.helper?_of_mem_queue placed calls ((arrange_perm _).mem_iff.mp arranged)
  have split : r.items = (arrange r.queue).map Prod.snd ++ r.helpers.map fun e =>
    .helperFunction e.1 e.2 := r.items_eq_append
  have declared : m.helperDeclarations options hints = r.helpers := by
    rw [helperDeclarations, items, split, List.filterMap_append, List.filterMap_eq_nil_iff.mpr
      silent, List.nil_append, List.filterMap_map]
    exact List.filterMap_some
  refine ⟨fun h => ?_, fun call among => ?_, ⟨_, silent, ?_⟩, ?_, ?_, fun none => ?_,
    fun e among => ?_⟩
  · have same : h ∈ r.helpers.map Prod.fst ↔ h ∈ (m.helperCalls options hints).map Prod.fst := by
      rw [calls.used, List.mem_map, (called.map Prod.fst).mem_iff, List.mem_map]
      simp only [List.mem_eraseDups]
    rw [declared, calls.distinct.count]
    simp only [same]
  · rw [declared, calls.used, List.mem_eraseDups]
    exact called.subset among
  · rw [items, declared, split]
  · rw [declared, requests, r.map_snd_requests, calls.used]
  · rw [arranged, requests]
  · subst none
    rw [arranged, requests, Draft.arrange_requests placed]
  · rw [declared] at among
    have legal := calls.isFunctionName among
    exact ⟨legal, e.1.read_text legal⟩

/-- Whatever a module, its options and its hints are, a helper is declared exactly if it is called,
and nothing but an export under the reserved name can fail. -/
theorem helpers_declared_when_called (m : Module)
    (program : ∃ hashbang ds, m.program.form = .program hashbang ds) (options : Options)
    (hints : Hints) :
    (∀ e left, (lower options hints).run m = .error e left →
      ∃ place, e = .illegalExport "__esModule" place) ∧
    ∀ outcome lowered, (lower options hints).run m = .ok outcome lowered →
      Item.WritesOut (m.loweredBindings options hints) (m.loweredItems options hints)
        lowered.statements ∧
        m.DeclaresHelpers options hints := by
  refine ⟨fun e left failed => ?_, fun outcome lowered success => ⟨writesOut program success, ?_⟩⟩
  · exact illegal_of_draft (m.draft_of_error failed).2.1
  · rcases lower_cases success with ⟨plain, -⟩ | ⟨r, final, -, drafted, -⟩
    · exact declaresHelpers_of_none plain
    · exact declaresHelpers_of_some final drafted

/-- `import a from "m"; import * as n from "q"; export { default as c } from "p"; export * as s from
"t";` -/
def assistedStatements : List Node :=
  let name (x : String) := Node.made (.binder x none) []
  [.made (.importDecl false true "m") [.made .importDefault [name "a"], .absent],
   .made (.importDecl false true "q") [.made .importNamespace [name "n"], .absent],
   .made (.exportFrom false "p")
   [.made (.exportSpecifier false) [Made.word "default", Made.word "c"], .absent],
   .made (.exportAll false "t") [Made.word "s", .absent]]

def assisted : Module := .analyse true (.mk (.program none []) none assistedStatements)

/-- Each helper is called by an import and by a getter, and declared once. -/
theorem helpers_declared_when_called_assisted : ∃ outcome lowered,
    (Module.lower .default .none).run assisted = .ok outcome lowered ∧
      assisted.DeclaresHelpers .default .none ∧
      assisted.helperCalls .default .none =
        [(.interopDefault, "_interopRequireDefault"), (.interopWildcard, "_interopRequireWildcard"),
         (.interopDefault, "_interopRequireDefault"),
           (.interopWildcard, "_interopRequireWildcard")] ∧
      assisted.helperDeclarations .default .none =
        [(.interopDefault, "_interopRequireDefault"),
        (.interopWildcard, "_interopRequireWildcard")] := by
  obtain ⟨r, drafted, computed⟩ := assisted.exists_draft .default .none (fun r => decide (r.calls =
    [(.interopDefault, "_interopRequireDefault"), (.interopWildcard, "_interopRequireWildcard"),
     (.interopDefault, "_interopRequireDefault"), (.interopWildcard, "_interopRequireWildcard")]))
     (by decide +kernel)
  have calls := of_decide_eq_true computed
  obtain ⟨final, success⟩ := lower_of_draft (by decide +kernel) drafted
  have helpers :=
    (helpers_declared_when_called assisted ⟨none, [], rfl⟩ .default .none).2 _ _ success
  have requests : (assisted.helperRequests .default .none).map Prod.snd = r.calls := by
    rw [helperRequests, final]
    exact r.map_snd_requests
  refine ⟨_, _, success, helpers.2, ?_, ?_⟩
  · rw [helpers.2.unhinted rfl, requests, calls]
  · rw [helpers.2.ordered, requests, calls]
    decide

end Module

end ModuleLowering
