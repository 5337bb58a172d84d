import ExprLang.Proofs.Expr.Renamed
import ExprLang.Proofs.Scope.Frames

/-!
# The scope stack under other names

If no two names become one, everything that is done with a stack goes the same way under other
names: a renamed name stands for the renamed value, and it is bound where the name would be bound.
-/

namespace ExprLang

/-- A frame under other names: those that are bound in it, and those in the values that they are
bound to. -/
def Frame.renamed (rename : String → String) (frame : Frame) : Frame :=
  ⟨frame.entries.map fun (name, value) => (rename name, value.renamed rename)⟩

/-- A stack under other names. -/
def ScopeStack.renamed (rename : String → String) (scope : ScopeStack) : ScopeStack :=
  ⟨scope.top.renamed rename, scope.below.map (Frame.renamed rename)⟩

variable {rename : String → String}

/-! ## Frames -/

namespace Frame

section
variable (hrename : Function.Injective rename)
include hrename

theorem get?_renamed (frame : Frame) (name : String) :
    (frame.renamed rename).get? (rename name) = (frame.get? name).map (Expr.renamed rename) := by
  obtain ⟨entries⟩ := frame
  simp only [Frame.renamed, get?]
  induction entries with
  | nil => rfl
  | cons entry rest ih =>
      obtain ⟨key, value⟩ := entry
      rw [List.map_cons, lookup_entry, lookup_entry]
      by_cases hkey : name = key
      · rw [if_pos hkey, if_pos (congrArg rename hkey)]
        rfl
      · -- another key stays another key, since the renaming is injective
        rw [if_neg hkey, if_neg fun heq => hkey (hrename heq), ih]

theorem has_renamed (frame : Frame) (name : String) :
    (frame.renamed rename).has (rename name) = frame.has name := by
  rw [has, has, get?_renamed hrename, Option.isSome_map]

theorem renamed_set (frame : Frame) (name : String) (value : Expr) :
    (frame.set name value).renamed rename
      = (frame.renamed rename).set (rename name) (value.renamed rename) := by
  obtain ⟨entries⟩ := frame
  simp only [Frame.renamed, set, mk.injEq]
  induction entries with
  | nil => rfl
  | cons entry rest ih =>
      obtain ⟨key, old⟩ := entry
      by_cases hkey : key = name
      · simp [setIn, hkey]
      · simp [setIn, hkey, hrename.eq_iff, ih]

end

end Frame

/-! ## The stack -/

namespace ScopeStack

@[simp] theorem renamed_enter (scope : ScopeStack) :
    scope.enter.renamed rename = (scope.renamed rename).enter := rfl

@[simp] theorem renamed_exit (scope : ScopeStack) :
    scope.exit.renamed rename = (scope.renamed rename).exit := by
  obtain ⟨top, below⟩ := scope
  cases below with
  | nil => rfl
  | cons frame rest => rfl

@[simp] theorem depth_renamed (scope : ScopeStack) :
    (scope.renamed rename).depth = scope.depth := by
  simp [depth, ScopeStack.renamed]

section
variable (hrename : Function.Injective rename)
include hrename

theorem resolve_renamed (scope : ScopeStack) (name : String) :
    (scope.renamed rename).resolve (rename name)
      = (scope.resolve name).map (Expr.renamed rename) := by
  have hframes : (scope.renamed rename).frames = scope.frames.map (Frame.renamed rename) := rfl
  rw [resolve, resolve, hframes]
  induction scope.frames with
  | nil => rfl
  | cons frame rest ih =>
      rw [List.map_cons, List.findSome?_cons, List.findSome?_cons, Frame.get?_renamed hrename]
      cases frame.get? name with
      | some value => rfl
      | none => exact ih

theorem overwrite_renamed (name : String) (value : Expr) (count : Nat) (frames : List Frame) :
    overwrite (rename name) (value.renamed rename) count (frames.map (Frame.renamed rename))
      = (overwrite name value count frames).map (List.map (Frame.renamed rename)) := by
  induction frames generalizing count with
  | nil => cases count <;> rfl
  | cons frame rest ih =>
      cases count with
      | zero => rfl
      | succ count =>
          rw [List.map_cons, overwrite, overwrite, Frame.has_renamed hrename, ih]
          cases frame.has name with
          | true => simp [Frame.renamed_set hrename]
          | false => simp [Option.map_map, Function.comp_def]

/-- A name is bound below the top under its other name, or refused under it. -/
theorem bindOuter_renamed (scope : ScopeStack) (name : String) (value : Expr) :
    (scope.renamed rename).bindOuter (rename name) (value.renamed rename)
      = match scope.bindOuter name value with
        | .ok scope => .ok (scope.renamed rename)
        | .error e => .error ⟨rename e.name⟩ := by
  obtain ⟨top, below⟩ := scope
  cases below with
  | nil => rfl
  | cons frame rest =>
      simp only [ScopeStack.renamed, bindOuter, List.map_cons, Frame.renamed_set hrename]

theorem rebind_renamed (scope : ScopeStack) (name : String) (value : Expr) (floor : Nat) :
    (scope.renamed rename).rebind (rename name) (value.renamed rename) floor
      = match scope.rebind name value floor with
        | .ok scope => .ok (scope.renamed rename)
        | .error e => .error ⟨rename e.name⟩ := by
  have hlength : (scope.renamed rename).below.length = scope.below.length := by
    simp [ScopeStack.renamed]
  have hbelow : (scope.renamed rename).below = scope.below.map (Frame.renamed rename) := rfl
  rw [rebind, rebind, hlength, hbelow, overwrite_renamed hrename]
  cases overwrite name value (scope.below.length - floor) scope.below with
  | some below => rfl
  | none => exact bindOuter_renamed hrename scope name value

end

end ScopeStack

end ExprLang
