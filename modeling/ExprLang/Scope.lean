import ExprLang.Expr

/-!
# The scope stack

Names are bound in frames, and frames are stacked. Looking a name up searches all frames from the
top down. Binding never touches the top frame: an evaluation pushes a frame of its own first, so
what it binds belongs one frame further down. The stack is therefore kept as its top frame and the
frames below it, nearest first; the last of all is the root frame, which is never popped.

`rebind` overwrites the nearest binding at or above a floor, counted in frames from the root, so
that a function's body cannot reach into the frames of its callers.
-/

namespace ExprLang

/-! ## Frames -/

/-- The bindings of one level, oldest first; a name is bound at most once. -/
structure Frame where
  entries : List (String × Expr)

namespace Frame

/-- The frame without bindings. -/
def empty : Frame := ⟨[]⟩

/-- The value bound to a name. -/
def get? (frame : Frame) (name : String) : Option Expr :=
  frame.entries.lookup name

/-- Whether a name is bound. -/
def has (frame : Frame) (name : String) : Bool :=
  (frame.get? name).isSome

/-- The entries with one name bound to a value: in its place if it is there, else at the end. -/
def setIn (name : String) (value : Expr) : List (String × Expr) → List (String × Expr)
  | [] => [(name, value)]
  | (other, old) :: rest =>
      if other = name then (name, value) :: rest else (other, old) :: setIn name value rest

/-- The frame with a name bound to a value. -/
def set (frame : Frame) (name : String) (value : Expr) : Frame :=
  ⟨setIn name value frame.entries⟩

/-- The names that are bound. -/
def names (frame : Frame) : List String :=
  frame.entries.map (·.1)

/-- The number of names that are bound. -/
def size (frame : Frame) : Nat :=
  frame.entries.length

/-- The frame of a list of bindings; of two for one name, the later counts. -/
def ofList (entries : List (String × Expr)) : Frame :=
  entries.foldl (fun frame (name, value) => frame.set name value) empty

end Frame

/-! ## The stack -/

/-- A binding is attempted while the root frame is the only one. -/
structure ScopeError where
  name : String
deriving DecidableEq

/-- The text of the refusal. -/
def ScopeError.message (e : ScopeError) : String :=
  "cannot bind `" ++ e.name ++ "`: no frame below the root frame is active"

/-- A stack of frames: the top one, and those below it, nearest first. -/
structure ScopeStack where
  top : Frame
  below : List Frame

namespace ScopeStack

/-- The stack that holds a root frame alone. -/
def ofRoot (root : Frame) : ScopeStack := ⟨root, []⟩

/-- The number of frames. -/
def depth (scope : ScopeStack) : Nat :=
  scope.below.length + 1

/-- All frames, the top one first. -/
def frames (scope : ScopeStack) : List Frame :=
  scope.top :: scope.below

/-- The frame at the bottom. -/
def root (scope : ScopeStack) : Frame :=
  scope.below.getLastD scope.top

/-- The stack with a fresh frame on top. -/
def enter (scope : ScopeStack) : ScopeStack :=
  ⟨.empty, scope.frames⟩

/-- The stack without its top frame; the root frame stays. -/
def exit (scope : ScopeStack) : ScopeStack :=
  match scope.below with
  | [] => scope
  | frame :: rest => ⟨frame, rest⟩

/-- The stack without all frames above the root. -/
def toRoot (scope : ScopeStack) : ScopeStack :=
  ofRoot scope.root

/-! ## Looking up and binding -/

/-- The value that a name stands for: its binding in the nearest frame that has one. -/
def resolve (scope : ScopeStack) (name : String) : Option Expr :=
  scope.frames.findSome? (·.get? name)

/-- Binds a name in the frame directly below the top. -/
def bindOuter (scope : ScopeStack) (name : String) (value : Expr) : Except ScopeError ScopeStack :=
  match scope.below with
  | [] => .error ⟨name⟩
  | frame :: rest => .ok ⟨scope.top, frame.set name value :: rest⟩

/-- The frames with the first binding of a name overwritten, if one of the first `count` has it. -/
def overwrite (name : String) (value : Expr) : Nat → List Frame → Option (List Frame)
  | 0, _ | _, [] => none
  | count + 1, frame :: rest =>
      if frame.has name then some (frame.set name value :: rest)
      else (overwrite name value count rest).map (frame :: ·)

/-- Overwrites the nearest binding of a name below the top frame and not under the floor; if there
is none, binds the name directly below the top. -/
def rebind (scope : ScopeStack) (name : String) (value : Expr) (floor : Nat) :
    Except ScopeError ScopeStack :=
  match overwrite name value (scope.below.length - floor) scope.below with
  | some below => .ok ⟨scope.top, below⟩
  | none => scope.bindOuter name value

/-- A summary of the stack: its depth and the sizes of its frames, the root first. -/
def summary (scope : ScopeStack) : String :=
  "<ScopeStack depth=" ++ toString scope.depth ++ " frame_sizes=["
    ++ ", ".intercalate (scope.frames.reverse.map fun frame => toString frame.size) ++ "]>"

end ScopeStack

end ExprLang
