import Mathlib.Data.List.DropRight
import ModuleLowering.Text.ModulePath

/-!
What a module is called after its path. A path is taken apart at its slashes, and its last segment
at its last dot.
-/

set_option autoImplicit false

namespace ModuleLowering

section
variable {sep : Char} {l r : List Char}

theorem forall_bne_of_not_mem (absent : sep ∉ r) : ∀ c ∈ r.reverse, (c != sep) = true := by
  intro c among
  rw [bne_iff_ne]
  rintro rfl
  exact absent (List.mem_reverse.mp among)

theorem afterLast_append (absent : sep ∉ r) (ends : l = [] ∨ ∃ l', l = l' ++ [sep]) :
    afterLast sep (l ++ r) = r := by
  rw [afterLast, List.reverse_append, List.takeWhile_append_of_pos (forall_bne_of_not_mem absent)]
  rcases ends with rfl | ⟨l', rfl⟩ <;> simp

theorem beforeLast?_append (absent : sep ∉ r) : beforeLast? sep (l ++ sep :: r) = some l := by
  rw [beforeLast?, List.reverse_append, List.reverse_cons, List.append_assoc,
    List.dropWhile_append_of_pos (forall_bne_of_not_mem absent)]
  simp

end

def lastSegment (path : String) : String :=
  String.ofList (afterLast '/' (path.toList.rdropWhile (· == '/')))

/-- A segment up to its last dot, unless there are only dots before it. -/
def withoutExtension (segment : String) : String :=
  match beforeLast? '.' segment.toList with
  | some stem => if stem.any (· != '.') then String.ofList stem else segment
  | none => segment

theorem moduleBasename_eq (path : String) : moduleBasename path = withoutExtension
    (lastSegment path) := by
  rw [withoutExtension, lastSegment, String.toList_ofList]
  rfl

theorem withoutExtension_append (stem : String) {ext : String} (absent : '.' ∉ ext.toList) :
    withoutExtension (stem ++ "." ++ ext) = if stem.toList.any (· != '.') then stem
      else stem ++ "." ++ ext := by
  have chars : (stem ++ "." ++ ext).toList = stem.toList ++ '.' :: ext.toList := by simp
  rw [withoutExtension, chars, beforeLast?_append absent]
  simp only [String.ofList_toList]

theorem withoutExtension_of_not_mem {segment : String} (absent : '.' ∉ segment.toList) :
    withoutExtension segment = segment := by
  have none : beforeLast? '.' segment.toList = none := by
    rw [beforeLast?, List.dropWhile_eq_nil_iff.mpr (forall_bne_of_not_mem absent)]
  rw [withoutExtension, none]

theorem exists_last_dot {segment : String} (dotted : '.' ∈ segment.toList) :
    ∃ stem ext : String, segment = stem ++ "." ++ ext ∧ '.' ∉ ext.toList := by
  obtain ⟨r, l, turned, absent⟩ := List.eq_append_cons_of_mem (List.mem_reverse.mpr dotted)
  refine ⟨String.ofList l.reverse, String.ofList r.reverse, String.toList_injective ?_, by
    simpa using absent⟩
  rw [← List.reverse_reverse segment.toList, turned]
  simp

theorem withoutExtension_cases (segment : String) :
    '.' ∉ segment.toList ∧ withoutExtension segment = segment ∨
    ∃ (dot : segment.Pos) (stem ext : String), dot.Splits stem ("." ++ ext) ∧ '.' ∉ ext.toList ∧
      withoutExtension segment = if stem.toList.any (· != '.') then stem else segment := by
  by_cases dotted : '.' ∈ segment.toList
  · obtain ⟨stem, ext, split, absent⟩ := exists_last_dot dotted
    have joined : segment = stem ++ ("." ++ ext) := by rw [split, String.append_assoc]
    -- The dot stands where the stem ends, which is a place in the segment since the segment starts
    -- with the stem.
    have valid : stem.rawEndPos.IsValid segment :=
      String.Pos.Raw.isValid_iff_exists_append.mpr ⟨stem, _, joined, rfl⟩
    refine .inr ⟨⟨stem.rawEndPos, valid⟩, stem, ext, ⟨joined, rfl⟩, absent, ?_⟩
    rw [split]
    exact withoutExtension_append stem absent
  · exact .inl ⟨dotted, withoutExtension_of_not_mem dotted⟩

theorem withoutExtension_starts (segment : String) :
    (withoutExtension segment).toList <+: segment.toList := by
  rcases withoutExtension_cases segment with ⟨-, whole⟩ | ⟨dot, stem, ext, splits, -, cut⟩
  · exact whole.symm ▸ List.prefix_rfl
  · rw [cut]
    split
    · exact ⟨("." ++ ext).toList, by rw [← String.toList_append, ← splits.eq_append]⟩
    · exact List.prefix_rfl

def slashes (n : Nat) : String := String.ofList (List.replicate n '/')

theorem lastSegment_slashes (path : String) (n : Nat) :
    lastSegment (path ++ slashes n) = lastSegment path := by
  have all : ∀ c ∈ (List.replicate n '/').reverse, (c == '/') = true := by simp
  rw [lastSegment, String.toList_append, slashes, String.toList_ofList, List.rdropWhile,
    List.reverse_append, List.dropWhile_append_of_pos all]
  rfl

def IsDirectory (dir : String) : Prop := dir = "" ∨ ∃ parent, dir = parent ++ "/"

theorem lastSegment_append {dir segment : String} (ends : IsDirectory dir)
    (absent : '/' ∉ segment.toList) (some : segment ≠ "") :
    lastSegment (dir ++ segment) = segment := by
  have some : segment.toList ≠ [] := by simpa using some
  -- Nothing is trimmed from a path that ends in a segment.
  have trimmed : (dir.toList ++ segment.toList).rdropWhile (· == '/') = dir.toList ++
    segment.toList := by
    rw [List.rdropWhile_eq_self_iff]
    intro _ last
    rw [List.getLast_append_of_ne_nil _ some, beq_iff_eq] at last
    exact absent (last ▸ List.getLast_mem some)
  rw [lastSegment, String.toList_append, trimmed, afterLast_append absent, String.ofList_toList]
  rcases ends with rfl | ⟨parent, rfl⟩
  · exact .inl rfl
  · exact .inr ⟨parent.toList, by simp⟩

/-- There is no dot in a segment, or there are only dots before its last one. -/
def HasNoStem (segment : String) : Prop :=
  '.' ∉ segment.toList ∨ ∃ dots ext, segment = dots ++ "." ++ ext ∧ (∀ c ∈ dots.toList, c = '.') ∧
    '.' ∉ ext.toList

theorem HasNoStem.withoutExtension {segment : String} (h : HasNoStem segment) :
    withoutExtension segment = segment := by
  rcases h with none | ⟨dots, ext, rfl, only, absent⟩
  · exact withoutExtension_of_not_mem none
  · rw [withoutExtension_append dots absent, if_neg]
    simpa using only

/-- A module is called after the last segment of its path, up to the last dot if a name is left
before it. -/
theorem moduleBasename_names_file :
    (∀ path, '/' ∉ (moduleBasename path).toList ∧ (moduleBasename path).toList <:+: path.toList ∧
      (∀ n, moduleBasename (path ++ slashes n) = moduleBasename path) ∧
      ('.' ∉ (lastSegment path).toList ∧ moduleBasename path = lastSegment path ∨
        ∃ (dot : (lastSegment path).Pos) (stem ext : String), dot.Splits stem ("." ++ ext) ∧
          '.' ∉ ext.toList ∧
          moduleBasename path = if stem.toList.any (· != '.') then stem else lastSegment path)) ∧
    ∀ dir, IsDirectory dir → ∀ n,
      (∀ name ext : String, '/' ∉ name.toList → (∃ c ∈ name.toList, c ≠ '.') → '/' ∉ ext.toList →
        '.' ∉ ext.toList →
        moduleBasename (dir ++ name ++ "." ++ ext ++ slashes n) = name) ∧
      ∀ segment, '/' ∉ segment.toList → segment ≠ "" → HasNoStem segment →
        moduleBasename (dir ++ segment ++ slashes n) = segment := by
  simp only [moduleBasename_eq]
  refine ⟨fun path => ⟨?_, ?_, fun n => ?_, withoutExtension_cases _⟩, fun dir ends n => ⟨?_, ?_⟩⟩
  · intro among
    have inside := (withoutExtension_starts _).subset among
    rw [lastSegment, String.toList_ofList] at inside
    simpa using List.mem_takeWhile_imp (List.mem_reverse.mp inside)
  · refine (withoutExtension_starts _).isInfix.trans ?_
    rw [lastSegment, String.toList_ofList]
    exact (List.rtakeWhile_suffix _ _).isInfix.trans (List.rdropWhile_prefix _ _).isInfix
  · rw [lastSegment_slashes]
  · intro name ext slashFree other noSlash noDot
    have path : dir ++ name ++ "." ++ ext = dir ++ (name ++ "." ++ ext) := by
      simp only [String.append_assoc]
    rw [lastSegment_slashes, path, lastSegment_append ends (by simp [slashFree, noSlash]) (by simp),
      withoutExtension_append name noDot, if_pos]
    simpa using other
  · intro segment absent some bare
    rw [lastSegment_slashes, lastSegment_append ends absent some]
    exact bare.withoutExtension

theorem moduleBasename_names_file_doubleExtension :
    moduleBasename ("@é/" ++ "a.b" ++ "." ++ "mjs" ++ slashes 2) = "a.b" ∧
      moduleBasename ("./" ++ "..env" ++ slashes 1) = "..env" :=
  ⟨(moduleBasename_names_file.2 "@é/" (.inr ⟨"@é", rfl⟩) 2).1 "a.b" "mjs" (by decide)
    ⟨'a', by decide⟩ (by decide) (by decide),
      (moduleBasename_names_file.2 "./" (.inr ⟨".", rfl⟩) 1).2 "..env" (by decide) (by decide)
      (.inr ⟨".", "env", rfl, by simp, by decide⟩)⟩

end ModuleLowering
